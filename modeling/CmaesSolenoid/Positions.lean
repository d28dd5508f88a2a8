import Mathlib.Algebra.Order.BigOperators.Group.List
import Mathlib.Data.List.InsertIdx
import Mathlib.Data.List.Nodup
import Mathlib.Tactic.Linarith

/-!
# Positions of a list, removed and inserted one after the other

Removing several positions of a list one by one removes the right ones where the
largest comes first, and only there, for each removal moves what stands behind it.
-/

namespace CmaesSolenoid.Positions
open scoped List

/-- These positions, in this order, each in what the ones before leave. -/
def removeAll {α : Type} (v : List α) (ks : List ℕ) : List α := ks.foldl List.eraseIdx v

def insertAll {α : Type} (g : ℕ → α) (v : List α) (ks : List ℕ) : List α :=
  ks.foldl (fun v k => v.insertIdx k (g k)) v

def others (n : ℕ) (ks : List ℕ) : List ℕ := (List.range n).filter (· ∉ ks)

variable {α : Type} {n k : ℕ} {ks : List ℕ}

theorem removeAll_cons (v : List α) (k : ℕ) (ks : List ℕ) :
    removeAll v (k :: ks) = removeAll (v.eraseIdx k) ks := rfl

theorem removeAll_concat (v : List α) (ks : List ℕ) (k : ℕ) :
    removeAll v (ks ++ [k]) = (removeAll v ks).eraseIdx k := by
  rw [removeAll, List.foldl_append]
  rfl

theorem map_removeAll {β : Type} (f : α → β) (v : List α) (ks : List ℕ) :
    removeAll (v.map f) ks = (removeAll v ks).map f := by
  induction ks generalizing v with
  | nil => rfl
  | cons k ks ih => rw [removeAll_cons, removeAll_cons, List.eraseIdx_map, ih]

theorem others_split (hk : k < n) (hks : ∀ i ∈ ks, k < i) :
    ∃ rest, others n ks = List.range k ++ k :: rest ∧
      others n (k :: ks) = List.range k ++ rest := by
  have hrange : List.range n = List.range k ++ k :: (List.range n).drop (k + 1) := by
    conv_lhs => rw [← List.take_append_drop k (List.range n)]
    rw [List.take_range, min_eq_left hk.le,
      List.drop_eq_getElem_cons (by rwa [List.length_range]), List.getElem_range]
  have hbelow (js : List ℕ) (hjs : ∀ j ∈ js, k ≤ j) :
      (List.range k).filter (· ∉ js) = List.range k := by
    rw [List.filter_eq_self]
    intro i hi
    have hlt := List.mem_range.mp hi
    simp only [decide_eq_true_eq]
    exact fun hmem => absurd (hjs i hmem) (not_le.mpr hlt)
  have hkout : k ∉ ks := fun hmem => lt_irrefl k (hks k hmem)
  refine ⟨((List.range n).drop (k + 1)).filter (· ∉ ks), ?_, ?_⟩
  · rw [others, hrange, List.filter_append, hbelow ks fun j hj => (hks j hj).le,
      List.filter_cons_of_pos (by simpa using hkout), ← hrange]
  · rw [others, hrange, List.filter_append,
      hbelow (k :: ks) (List.forall_mem_cons.mpr ⟨le_rfl, fun j hj => (hks j hj).le⟩),
      List.filter_cons_of_neg (by simp), ← hrange]
    congr 1
    apply List.filter_congr
    intro i hi
    obtain ⟨j, hj, rfl⟩ := List.mem_iff_getElem.mp hi
    simp only [List.getElem_drop, List.getElem_range, List.mem_cons, not_or]
    simp [show k + 1 + j ≠ k by omega]

theorem eraseIdx_others (hk : k < n) (hks : ∀ i ∈ ks, k < i) :
    (others n ks).eraseIdx k = others n (k :: ks) := by
  obtain ⟨rest, h1, h2⟩ := others_split hk hks
  rw [h1, h2, List.eraseIdx_append_of_length_le (by rw [List.length_range]), List.length_range,
    Nat.sub_self, List.eraseIdx_cons_zero]

theorem insertIdx_others (hk : k < n) (hks : ∀ i ∈ ks, k < i) (g : ℕ → α) :
    ((others n (k :: ks)).map g).insertIdx k (g k) = (others n ks).map g := by
  obtain ⟨rest, h1, -⟩ := others_split hk hks
  have hget : ((others n ks).map g)[k]? = some (g k) := by
    rw [List.getElem?_map, h1, List.getElem?_append_right (by rw [List.length_range]),
      List.length_range, Nat.sub_self, List.getElem?_cons_zero, Option.map_some]
  obtain ⟨hlen, hval⟩ := List.getElem?_eq_some_iff.mp hget
  rw [← eraseIdx_others hk hks, ← List.eraseIdx_map, ← hval]
  exact List.insertIdx_eraseIdx_getElem hlen

/-- Removing positions in descending order. -/
theorem removeAll_reverse (hks : ks.Pairwise (· < ·)) (hlt : ∀ k ∈ ks, k < n) :
    removeAll (List.range n) ks.reverse = others n ks := by
  induction ks with
  | nil => simp [removeAll, others]
  | cons k ks ih =>
    obtain ⟨hk, hks⟩ := List.pairwise_cons.mp hks
    obtain ⟨hkn, hlt⟩ := List.forall_mem_cons.mp hlt
    rw [List.reverse_cons, removeAll_concat, ih hks hlt, eraseIdx_others hkn hk]

theorem insertAll_congr {g g' : ℕ → α} (h : ∀ k ∈ ks, g k = g' k) (v : List α) :
    insertAll g v ks = insertAll g' v ks := by
  induction ks generalizing v with
  | nil => rfl
  | cons k ks ih =>
    obtain ⟨hk, h⟩ := List.forall_mem_cons.mp h
    rw [insertAll, insertAll, List.foldl_cons, List.foldl_cons, hk]
    exact ih h _

/-- Inserting values in ascending order. -/
theorem insertAll_others (g : ℕ → α) (hks : ks.Pairwise (· < ·)) (hlt : ∀ k ∈ ks, k < n) :
    insertAll g ((others n ks).map g) ks = (List.range n).map g := by
  induction ks with
  | nil => simp [insertAll, others]
  | cons k ks ih =>
    obtain ⟨hk, hks⟩ := List.pairwise_cons.mp hks
    obtain ⟨hkn, hlt⟩ := List.forall_mem_cons.mp hlt
    rw [insertAll, List.foldl_cons, insertIdx_others hkn hk]
    exact ih hks hlt

/-- Each position is where it was when its turn comes. -/
def InPlace : List ℕ → List ℕ → Prop
  | _, [] => True
  | w, k :: ks => w[k]? = some k ∧ InPlace (w.eraseIdx k) ks

theorem le_getElem {w : List ℕ} (hw : w.Pairwise (· < ·)) (hk : k < w.length) : k ≤ w[k] := by
  induction k with
  | zero => exact Nat.zero_le _
  | succ k ih =>
    have hstep : w[k] < w[k + 1] :=
      List.pairwise_iff_getElem.mp hw k (k + 1) _ hk (Nat.lt_succ_self k)
    have := ih (by omega)
    omega

theorem pairwise_eraseIdx {w : List ℕ} (hw : w.Pairwise (· < ·)) (k : ℕ) :
    (w.eraseIdx k).Pairwise (· < ·) :=
  hw.sublist (List.eraseIdx_sublist w k)

theorem mem_of_inPlace {w : List ℕ} (hw : w.Pairwise (· < ·)) {i : ℕ} (hk : w[k]? = some k)
    (hi : i < k) : i ∈ w := by
  obtain ⟨hlen, hval⟩ := List.getElem?_eq_some_iff.mp hk
  -- down from `k`
  have hdown (d : ℕ) : ∀ j, j + d = k → ∀ h : j < w.length, w[j] ≤ j := by
    induction d with
    | zero =>
      rintro j rfl h
      exact hval.le
    | succ d ih =>
      intro j hj h
      have hnext : j + 1 < w.length := by omega
      have hstep : w[j] < w[j + 1] :=
        List.pairwise_iff_getElem.mp hw j (j + 1) h hnext (Nat.lt_succ_self j)
      have := ih (j + 1) (by omega) hnext
      omega
  have hiw : i < w.length := by omega
  have heq : w[i] = i := le_antisymm (hdown (k - i) i (by omega) hiw) (le_getElem hw hiw)
  exact List.mem_of_getElem heq

theorem InPlace.lt {w : List ℕ} (hw : w.Pairwise (· < ·)) (h : InPlace w ks) {i : ℕ}
    (hi : i ∉ w) : ∀ k ∈ ks, k < i := by
  induction ks generalizing w with
  | nil => simp
  | cons k ks ih =>
    obtain ⟨hk, h⟩ := h
    refine List.forall_mem_cons.mpr ⟨?_, ?_⟩
    · rcases lt_trichotomy k i with hlt | rfl | hgt
      · exact hlt
      · exact absurd (List.mem_of_getElem? hk) hi
      · exact absurd (mem_of_inPlace hw hk hgt) hi
    · exact ih (pairwise_eraseIdx hw k) h fun hmem => hi (List.eraseIdx_subset hmem)

theorem InPlace.descending {w : List ℕ} (hw : w.Pairwise (· < ·)) (h : InPlace w ks) :
    ks.Pairwise (· > ·) := by
  induction ks generalizing w with
  | nil => exact .nil
  | cons k ks ih =>
    obtain ⟨hk, h⟩ := h
    have hpair := pairwise_eraseIdx hw k
    refine .cons (fun i hi => h.lt hpair ?_ i hi) (ih hpair h)
    -- a list in strict order has `k` once
    intro hmem
    obtain ⟨j, hne, hj⟩ := List.mem_eraseIdx_iff_getElem?.mp hmem
    obtain ⟨hlen, -⟩ := List.getElem?_eq_some_iff.mp hk
    exact hne ((List.getElem?_inj hlen (hw.imp ne_of_lt)).mp (hk.trans hj.symm)).symm

/-- The removals take away at least as much as the positions add up to. -/
theorem sum_removeAll (ks : List ℕ) {w : List ℕ} (hw : w.Pairwise (· < ·)) :
    w.length ≤ (removeAll w ks).length + ks.length ∧
      (w.length = (removeAll w ks).length + ks.length →
        (removeAll w ks).sum + ks.sum ≤ w.sum ∧
          ((removeAll w ks).sum + ks.sum = w.sum → InPlace w ks)) := by
  induction ks generalizing w with
  | nil => simp [removeAll, InPlace]
  | cons k ks ih =>
    obtain ⟨hlen, hsum⟩ := ih (pairwise_eraseIdx hw k)
    rw [removeAll_cons, List.length_cons, List.sum_cons]
    by_cases hk : k < w.length
    · have herase : (w.eraseIdx k).length + 1 = w.length := List.length_eraseIdx_add_one hk
      have htotal : w[k] + (w.eraseIdx k).sum = w.sum := List.CommMonoid.add_sum_eraseIdx hk
      have hle := le_getElem hw hk
      refine ⟨by omega, fun heq => ?_⟩
      obtain ⟨hsumle, hplace⟩ := hsum (by omega)
      refine ⟨by omega, fun hall => ⟨?_, hplace (by omega)⟩⟩
      rw [List.getElem?_eq_getElem hk]
      exact congrArg some (by omega)
    · rw [List.eraseIdx_of_length_le (not_lt.mp hk)] at hlen hsum ⊢
      exact ⟨by omega, fun heq => by omega⟩

theorem length_others_add (hnodup : ks.Nodup) (hlt : ∀ k ∈ ks, k < n) :
    (others n ks).length + ks.length = n ∧ (others n ks).sum + ks.sum = (List.range n).sum := by
  have hperm : (List.range n).filter (· ∈ ks) ~ ks := by
    refine (List.perm_ext_iff_of_nodup (List.nodup_range.filter _) hnodup).mpr fun k => ?_
    simp only [List.mem_filter, List.mem_range, decide_eq_true_eq]
    exact ⟨And.right, fun hk => ⟨hlt k hk, hk⟩⟩
  have hboth : (List.range n).filter (· ∈ ks) ++ others n ks ~ List.range n := by
    have hnot : others n ks = (List.range n).filter fun k => !decide (k ∈ ks) := by
      simp [others]
    rw [hnot]
    exact List.filter_append_perm _ _
  have hall := (hperm.symm.append_right (others n ks)).trans hboth
  constructor
  · have := hall.length_eq
    rw [List.length_append, List.length_range] at this
    omega
  · have := hall.sum_eq
    rw [List.sum_append] at this
    omega

/-- Removing positions one by one removes those exactly in descending order. -/
theorem removeAll_eq_iff (hnodup : ks.Nodup) (hlt : ∀ k ∈ ks, k < n) :
    removeAll (List.range n) ks = others n ks ↔ ks.Pairwise (· > ·) := by
  constructor
  · intro heq
    have hrange : (List.range n).Pairwise (· < ·) := List.pairwise_lt_range
    obtain ⟨hlen, hsum⟩ := length_others_add hnodup hlt
    obtain ⟨-, h⟩ := sum_removeAll ks hrange
    rw [heq, List.length_range] at h
    exact ((h hlen.symm).2 hsum).descending hrange
  · intro hdesc
    have hasc : ks.reverse.Pairwise (· < ·) := List.pairwise_reverse.mpr hdesc
    have hothers : others n ks.reverse = others n ks := by
      simp [others]
    rw [← hothers, ← removeAll_reverse hasc (by simpa using hlt), List.reverse_reverse]

end CmaesSolenoid.Positions

import CmaesSolenoid.Positions

/-!
# `libcmaes`: searches with fixed parameters

`errstats::optimize_vpk` searches over all parameters but some that are fixed, on the way
to a profile likelihood or a contour. It takes the fixed ones out of the point to start
from, out of the bounds, and puts them back where the objective function is called.
-/

namespace CmaesSolenoid.Libcmaes
open Positions

variable {α β γ : Type}

def removeElement (vec : List α) (k : ℕ) : List α :=
  if vec.length ≤ k then vec else vec.take k ++ vec.drop (k + 1)

def addElement (vec : List α) (k : ℕ) (xk : α) : List α :=
  if vec.length + 1 ≤ k then vec else vec.take k ++ xk :: vec.drop k

theorem removeElement_eq (vec : List α) (k : ℕ) : removeElement vec k = vec.eraseIdx k := by
  rw [removeElement]
  split_ifs with h
  · exact (List.eraseIdx_of_length_le h).symm
  · exact (List.eraseIdx_eq_take_drop_succ vec k).symm

theorem insertIdx_eq_take_drop (vec : List α) (xk : α) {k : ℕ} (h : k ≤ vec.length) :
    vec.insertIdx k xk = vec.take k ++ xk :: vec.drop k := by
  induction vec generalizing k with
  | nil =>
    obtain rfl := Nat.le_zero.mp h
    rfl
  | cons x vec ih =>
    cases k with
    | zero => rfl
    | succ k => rw [List.insertIdx_succ_cons, ih (Nat.le_of_succ_le_succ h), List.take_succ_cons,
        List.drop_succ_cons, List.cons_append]

theorem addElement_eq (vec : List α) (k : ℕ) (xk : α) :
    addElement vec k xk = vec.insertIdx k xk := by
  rw [addElement]
  split_ifs with h
  · exact (List.insertIdx_of_length_lt h).symm
  · exact (insertIdx_eq_take_drop vec xk (by omega)).symm

def removeDimensions (v : List β) (ks : List ℕ) : List β := ks.foldl removeElement v

/-- The loop over `rx0`, from the last index to the first. -/
def removeFixed (rx0 : List α) (ks : List ℕ) : List α :=
  ks.foldr (fun k rx0 => removeElement rx0 k) rx0

/-- The body of `rfunc`: what the objective function is given for `x`. -/
def addFixed (ks : List ℕ) (pvk : ℕ → α) (x : List α) : List α :=
  ks.foldl (fun nx k => addElement nx k (pvk k)) x

structure Subproblem (α β γ : Type) where
  rx0 : List α
  bounds : List β
  rfunc : List α → γ

/-- What `optimize_vpk` searches; `none` where all parameters are fixed. The point `x0` and the
fixed values `pvk` are phenotypes. -/
def optimizeVpk (func : List α → γ) (bounds : List β) (ks : List ℕ) (pvk : ℕ → α)
    (x0 : List α) : Option (Subproblem α β γ) :=
  let rx0 := removeFixed x0 ks
  if rx0.length = 0 then none
  else some ⟨rx0, removeDimensions bounds ks, fun x => func (addFixed ks pvk x)⟩

variable {n : ℕ} {ks : List ℕ} {f pvk : ℕ → α} {b : ℕ → β} {func : List α → γ}
  {sub : Subproblem α β γ}

theorem removeDimensions_eq (v : List β) (ks : List ℕ) :
    removeDimensions v ks = removeAll v ks := by
  rw [removeDimensions, removeAll]
  congr 1
  funext v k
  exact removeElement_eq v k

theorem removeFixed_eq (v : List α) (ks : List ℕ) : removeFixed v ks = removeAll v ks.reverse := by
  rw [removeFixed, removeAll, List.foldl_reverse]
  congr 1
  funext k v
  exact removeElement_eq v k

theorem addFixed_eq (ks : List ℕ) (pvk : ℕ → α) (x : List α) :
    addFixed ks pvk x = insertAll pvk x ks := by
  rw [addFixed, insertAll]
  congr 1
  funext v k
  exact addElement_eq v k (pvk k)

theorem removeDimensions_iff (hnodup : ks.Nodup) (hlt : ∀ k ∈ ks, k < n)
    (hb : Function.Injective b) :
    removeDimensions ((List.range n).map b) ks = (others n ks).map b ↔ ks.Pairwise (· > ·) := by
  rw [removeDimensions_eq, map_removeAll, (List.map_injective_iff.mpr hb).eq_iff,
    removeAll_eq_iff hnodup hlt]

theorem removeFixed_iff (hnodup : ks.Nodup) (hlt : ∀ k ∈ ks, k < n)
    (hf : Function.Injective f) :
    removeFixed ((List.range n).map f) ks = (others n ks).map f ↔ ks.Pairwise (· < ·) := by
  have hothers : others n ks = others n ks.reverse := by simp [others]
  rw [removeFixed_eq, map_removeAll, (List.map_injective_iff.mpr hf).eq_iff, hothers,
    removeAll_eq_iff (List.nodup_reverse.mpr hnodup) (by simpa using hlt), List.pairwise_reverse]

theorem length_le_one_iff : ks.Pairwise (· < ·) ∧ ks.Pairwise (· > ·) ↔ ks.length ≤ 1 := by
  match ks with
  | [] => simp
  | [k] => simp
  | k :: k' :: ks =>
    refine iff_of_false ?_ (by simp)
    rintro ⟨hasc, hdesc⟩
    have h1 := (List.pairwise_cons.mp hasc).1 k' List.mem_cons_self
    have h2 := (List.pairwise_cons.mp hdesc).1 k' List.mem_cons_self
    exact lt_asymm h1 h2

example : removeDimensions [10, 11, 12] [0, 1] = [11] := rfl

end CmaesSolenoid.Libcmaes

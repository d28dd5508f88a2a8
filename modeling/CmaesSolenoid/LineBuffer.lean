import Mathlib.Algebra.BigOperators.Group.List.Basic

/-!
# Reading through a line buffer

`fgets` fills a buffer of a fixed size up to and including the next end of line.
`pieces` is what it delivers, call after call, until nothing is left: whole lines,
and lines that do not fit cut into buffers full. `breakAt` parts a line at a delimiter,
`seek` goes to a text in it, and `upTo` stops reading at the n-th piece of some kind.
-/

universe u

namespace LineBuffer

variable {α : Type u} (nl : α)

/-- A piece that no later element can join: a line, or a buffer full of a longer one. -/
def Full (size : ℕ) (p : List α) : Prop :=
  (∃ line, p = line ++ [nl] ∧ nl ∉ line ∧ line.length < size) ∨ (nl ∉ p ∧ p.length = size)

variable {nl} {size : ℕ}

theorem Full.ne_nil (h0 : 0 < size) {p : List α} (h : Full nl size p) : p ≠ [] := by
  rintro rfl
  obtain ⟨line, heq, -, -⟩ | ⟨-, hl⟩ := h
  · simp at heq
  · rw [List.length_nil] at hl
    omega

theorem Full.length_le {p : List α} (h : Full nl size p) : p.length ≤ size := by
  obtain ⟨line, rfl, -, hl⟩ | ⟨-, hl⟩ := h
  · rw [List.length_append, List.length_singleton]
    omega
  · exact Nat.le_of_eq hl

variable [DecidableEq α]

/-- The next at most `room` elements up to and including the first `nl`, and the rest. -/
def fgets (nl : α) : ℕ → List α → List α × List α
  | 0, s => ([], s)
  | _ + 1, [] => ([], [])
  | room + 1, c :: s =>
    if c = nl then ([c], s) else (c :: (fgets nl room s).1, (fgets nl room s).2)

def putFirst (c : α) : List (List α) → List (List α)
  | [] => [[c]]
  | p :: ps => (c :: p) :: ps

/-- The pieces of a list when `room` elements still fit into the first one. -/
def cut (nl : α) (size : ℕ) : ℕ → List α → List (List α)
  | _, [] => []
  | room, c :: s =>
    if c = nl ∨ room ≤ 1 then [c] :: cut nl size size s else putFirst c (cut nl size (room - 1) s)

def pieces (nl : α) (size : ℕ) (s : List α) : List (List α) := cut nl size size s

theorem cut_eq_fgets {room : ℕ} (hr : 0 < room) {s : List α} (hs : s ≠ []) :
    cut nl size room s = (fgets nl room s).1 :: pieces nl size (fgets nl room s).2 := by
  induction s generalizing room with
  | nil => exact absurd rfl hs
  | cons c s ih =>
    obtain ⟨room, rfl⟩ : ∃ n, room = n + 1 := ⟨room - 1, by omega⟩
    rw [cut, fgets]
    by_cases hc : c = nl
    · rw [if_pos (.inl hc), if_pos hc]
      rfl
    · rw [if_neg hc]
      cases room with
      | zero =>
        rw [if_pos (.inr (by omega))]
        rfl
      | succ room =>
        rw [if_neg (not_or.mpr ⟨hc, by omega⟩)]
        cases s with
        | nil => rfl
        | cons d s =>
          rw [Nat.add_sub_cancel, ih (by omega) (by simp)]
          rfl

/-- The pieces are the results of `fgets` until there is no more. -/
theorem pieces_eq_fgets (h0 : 0 < size) {s : List α} (hs : s ≠ []) :
    pieces nl size s = (fgets nl size s).1 :: pieces nl size (fgets nl size s).2 :=
  cut_eq_fgets h0 hs

@[simp] theorem pieces_nil : pieces nl size [] = [] := rfl

theorem fgets_line {room : ℕ} {line : List α} (hn : nl ∉ line) (hl : line.length < room)
    (s : List α) : fgets nl room (line ++ nl :: s) = (line ++ [nl], s) := by
  induction line generalizing room with
  | nil =>
    obtain ⟨room, rfl⟩ := Nat.exists_eq_succ_of_ne_zero (Nat.ne_of_gt hl)
    simp [fgets]
  | cons c line ih =>
    obtain ⟨room, rfl⟩ := Nat.exists_eq_succ_of_ne_zero (Nat.ne_of_gt (Nat.zero_lt_of_lt hl))
    obtain ⟨hc, hn⟩ := not_or.mp (mt List.mem_cons.mpr hn)
    rw [List.cons_append, fgets, if_neg (Ne.symm hc), ih hn (Nat.lt_of_succ_lt_succ hl)]
    rfl

theorem fgets_buffer {room : ℕ} {p : List α} (hn : nl ∉ p) (hl : p.length = room) (s : List α) :
    fgets nl room (p ++ s) = (p, s) := by
  induction p generalizing room with
  | nil =>
    subst hl
    rfl
  | cons c p ih =>
    subst hl
    obtain ⟨hc, hn⟩ := not_or.mp (mt List.mem_cons.mpr hn)
    rw [List.cons_append, List.length_cons, fgets, if_neg (Ne.symm hc), ih hn rfl]

theorem fgets_rest {room : ℕ} {p : List α} (hn : nl ∉ p) (hl : p.length ≤ room) :
    fgets nl room p = (p, []) := by
  induction p generalizing room with
  | nil => cases room <;> rfl
  | cons c p ih =>
    obtain ⟨room, rfl⟩ := Nat.exists_eq_succ_of_ne_zero (Nat.ne_of_gt (Nat.zero_lt_of_lt hl))
    obtain ⟨hc, hn⟩ := not_or.mp (mt List.mem_cons.mpr hn)
    rw [fgets, if_neg (Ne.symm hc), ih hn (Nat.le_of_succ_le_succ hl)]

theorem fgets_spec (nl : α) (room : ℕ) (s : List α) :
    (∃ p rest, s = p ++ rest ∧ Full nl room p ∧ fgets nl room s = (p, rest)) ∨
      (nl ∉ s ∧ s.length < room) := by
  by_cases hbuf : nl ∉ s.take room
  · rcases Nat.lt_or_ge s.length room with hlt | hge
    · rw [List.take_of_length_le (Nat.le_of_lt hlt)] at hbuf
      exact .inr ⟨hbuf, hlt⟩
    · have hlen : (s.take room).length = room := List.length_take_of_le hge
      refine .inl ⟨s.take room, s.drop room, (List.take_append_drop room s).symm,
        .inr ⟨hbuf, hlen⟩, ?_⟩
      conv_lhs => rw [← List.take_append_drop room s]
      exact fgets_buffer hbuf hlen _
  · obtain ⟨line, tail, heq, hn⟩ := List.eq_append_cons_of_mem (not_not.mp hbuf)
    have hs : s = line ++ nl :: (tail ++ s.drop room) := by
      conv_lhs => rw [← List.take_append_drop room s, heq]
      simp
    have hl : line.length < room := by
      have hlen := congrArg List.length heq
      rw [List.length_take, List.length_append, List.length_cons] at hlen
      omega
    refine .inl ⟨line ++ [nl], tail ++ s.drop room, ?_, .inl ⟨line, rfl, hn, hl⟩, ?_⟩
    · conv_lhs => rw [hs]
      simp
    · conv_lhs => rw [hs]
      exact fgets_line hn hl _

/-- A full piece is delivered as it is, whatever follows. -/
theorem pieces_append (h0 : 0 < size) {p : List α} (hp : Full nl size p) (s : List α) :
    pieces nl size (p ++ s) = p :: pieces nl size s := by
  have hne : p ++ s ≠ [] := by simp [hp.ne_nil h0]
  rw [pieces_eq_fgets h0 hne]
  obtain ⟨line, rfl, hn, hl⟩ | ⟨hn, hl⟩ := hp
  · rw [List.append_assoc, List.singleton_append, fgets_line hn hl]
  · rw [fgets_buffer hn hl]

theorem pieces_flatten_append (h0 : 0 < size) {ps : List (List α)}
    (hps : ∀ p ∈ ps, Full nl size p) (s : List α) :
    pieces nl size (ps.flatten ++ s) = ps ++ pieces nl size s := by
  induction ps with
  | nil => rfl
  | cons p ps ih =>
    obtain ⟨hp, hps⟩ := List.forall_mem_cons.mp hps
    rw [List.flatten_cons, List.append_assoc, pieces_append h0 hp, ih hps, List.cons_append]

theorem pieces_flatten (h0 : 0 < size) {ps : List (List α)} (hps : ∀ p ∈ ps, Full nl size p) :
    pieces nl size ps.flatten = ps := by
  have h := pieces_flatten_append h0 hps []
  rwa [List.append_nil, pieces_nil, List.append_nil] at h

theorem pieces_of_full (h0 : 0 < size) {p : List α} (hp : Full nl size p) :
    pieces nl size p = [p] := by
  have h := pieces_append h0 hp []
  rwa [List.append_nil, pieces_nil] at h

theorem pieces_rest (h0 : 0 < size) {s : List α} (hne : s ≠ []) (hn : nl ∉ s)
    (hl : s.length ≤ size) : pieces nl size s = [s] := by
  rw [pieces_eq_fgets h0 hne, fgets_rest hn hl, pieces_nil]

/-- Every list is full pieces and a rest that does not fill the buffer. -/
theorem exists_pieces (nl : α) (h0 : 0 < size) (s : List α) :
    ∃ (ps : List (List α)) (rest : List α), s = ps.flatten ++ rest ∧
      (∀ p ∈ ps, Full nl size p) ∧ nl ∉ rest ∧ rest.length < size := by
  induction hk : s.length using Nat.strongRecOn generalizing s with
  | ind k ih =>
    rcases fgets_spec nl size s with ⟨p, tail, rfl, hp, -⟩ | ⟨hn, hl⟩
    · have hpos := List.length_pos_iff.mpr (hp.ne_nil h0)
      rw [List.length_append] at hk
      obtain ⟨ps, rest, rfl, hps, hrest⟩ := ih tail.length (by omega) tail rfl
      exact ⟨p :: ps, rest, by simp, List.forall_mem_cons.mpr ⟨hp, hps⟩, hrest⟩
    · exact ⟨[], s, rfl, by simp, hn, hl⟩

theorem flatten_pieces (h0 : 0 < size) (s : List α) : (pieces nl size s).flatten = s := by
  obtain ⟨ps, rest, rfl, hps, hn, hl⟩ := exists_pieces nl h0 s
  rw [pieces_flatten_append h0 hps, List.flatten_append]
  by_cases hne : rest = []
  · rw [hne]
    rfl
  · rw [pieces_rest h0 hne hn (Nat.le_of_lt hl), List.flatten_singleton]

theorem mem_pieces (h0 : 0 < size) {s p : List α} (h : p ∈ pieces nl size s) :
    Full nl size p ∨ (p ≠ [] ∧ nl ∉ p ∧ p.length < size) := by
  obtain ⟨ps, rest, rfl, hps, hn, hl⟩ := exists_pieces nl h0 s
  rw [pieces_flatten_append h0 hps, List.mem_append] at h
  rcases h with h | h
  · exact .inl (hps p h)
  · by_cases hne : rest = []
    · rw [hne] at h
      cases h
    · rw [pieces_rest h0 hne hn (Nat.le_of_lt hl), List.mem_singleton] at h
      subst h
      exact .inr ⟨hne, hn, hl⟩

theorem ne_nil_of_mem_pieces (h0 : 0 < size) {s p : List α} (h : p ∈ pieces nl size s) :
    p ≠ [] := by
  rcases mem_pieces h0 h with hp | hp
  · exact hp.ne_nil h0
  · exact hp.1

theorem length_le_of_mem_pieces (h0 : 0 < size) {s p : List α} (h : p ∈ pieces nl size s) :
    p.length ≤ size := by
  rcases mem_pieces h0 h with hp | ⟨-, -, hl⟩
  · exact hp.length_le
  · exact Nat.le_of_lt hl

theorem length_pieces_le (h0 : 0 < size) (s : List α) : (pieces nl size s).length ≤ s.length := by
  have hone : ∀ n ∈ (pieces nl size s).map List.length, 1 ≤ n := by
    intro n hn
    obtain ⟨p, hp, rfl⟩ := List.mem_map.mp hn
    exact List.length_pos_iff.mpr (ne_nil_of_mem_pieces h0 hp)
  have hsum := List.length_le_sum_of_one_le _ hone
  rwa [List.length_map, ← List.length_flatten, flatten_pieces h0] at hsum

theorem notMem_dropLast_of_mem_pieces (h0 : 0 < size) {s p : List α} (h : p ∈ pieces nl size s) :
    nl ∉ p.dropLast := by
  rcases mem_pieces h0 h with (⟨line, rfl, hn, -⟩ | ⟨hn, -⟩) | ⟨-, hn, -⟩
  · rwa [List.dropLast_concat]
  · exact fun hm => hn (List.dropLast_subset _ hm)
  · exact fun hm => hn (List.dropLast_subset _ hm)

/-- What is before and after the first `c`. -/
def breakAt (c : α) : List α → Option (List α × List α)
  | [] => none
  | x :: s => if x = c then some ([], s) else (breakAt c s).map fun r => (x :: r.1, r.2)

theorem breakAt_append {c : α} {a : List α} (ha : c ∉ a) (b : List α) :
    breakAt c (a ++ c :: b) = some (a, b) := by
  induction a with
  | nil => simp [breakAt]
  | cons x a ih =>
    obtain ⟨hx, ha⟩ := not_or.mp (mt List.mem_cons.mpr ha)
    rw [List.cons_append, breakAt, if_neg (Ne.symm hx), ih ha, Option.map_some]

theorem breakAt_of_notMem {c : α} {s : List α} (h : c ∉ s) : breakAt c s = none := by
  induction s with
  | nil => rfl
  | cons x s ih =>
    obtain ⟨hx, hs⟩ := not_or.mp (mt List.mem_cons.mpr h)
    rw [breakAt, if_neg (Ne.symm hx), ih hs, Option.map_none]

theorem breakAt_eq_some {c : α} {s a b : List α} (h : breakAt c s = some (a, b)) :
    s = a ++ c :: b ∧ c ∉ a := by
  by_cases hc : c ∈ s
  · obtain ⟨a', b', rfl, ha⟩ := List.eq_append_cons_of_mem hc
    rw [breakAt_append ha] at h
    obtain ⟨rfl, rfl⟩ := Prod.mk.inj (Option.some.inj h)
    exact ⟨rfl, ha⟩
  · rw [breakAt_of_notMem hc] at h
    cases h

def seek (needle : List α) : List α → Option (List α)
  | [] => if needle = [] then some [] else none
  | x :: s => if needle <+: x :: s then some (x :: s) else seek needle s

theorem seek_isSome_iff {needle s : List α} : (seek needle s).isSome = true ↔ needle <:+: s := by
  induction s with
  | nil =>
    unfold seek
    by_cases h : needle = []
    · simp [h]
    · simp [h]
  | cons x s ih =>
    unfold seek
    rw [List.infix_cons_iff]
    by_cases h : needle <+: x :: s
    · simp [h]
    · rw [if_neg h, ih]
      simp [h]

theorem seek_isSuffix {needle s ptr : List α} (h : seek needle s = some ptr) : ptr <:+ s := by
  induction s with
  | nil =>
    unfold seek at h
    split_ifs at h
    obtain rfl := Option.some.inj h
    exact List.suffix_rfl
  | cons x s ih =>
    unfold seek at h
    split_ifs at h
    · obtain rfl := Option.some.inj h
      exact List.suffix_rfl
    · exact (ih h).trans (List.suffix_cons x s)

section UpTo

variable {β : Type u} (p : β → Bool)

/-- The elements up to and including the `n`-th with `p`. -/
def upTo : ℕ → List β → List β
  | 0, _ => []
  | _ + 1, [] => []
  | n + 1, x :: xs => x :: upTo (if p x then n else n + 1) xs

@[simp] theorem upTo_zero (xs : List β) : upTo p 0 xs = [] := by
  cases xs <;> rfl

@[simp] theorem upTo_nil (n : ℕ) : upTo p n [] = [] := by
  cases n <;> rfl

theorem upTo_isPrefix (n : ℕ) (xs : List β) : upTo p n xs <+: xs := by
  induction xs generalizing n with
  | nil => simp
  | cons x xs ih =>
    cases n with
    | zero => simp
    | succ n => exact List.cons_prefix_cons.mpr ⟨rfl, ih _⟩

theorem upTo_eq_self {xs : List β} (h : ∀ x ∈ xs, p x = false) (n : ℕ) :
    upTo p (n + 1) xs = xs := by
  induction xs with
  | nil => rfl
  | cons x xs ih =>
    obtain ⟨hx, hxs⟩ := List.forall_mem_cons.mp h
    rw [upTo, if_neg (by simp [hx]), ih hxs]

/-- The first that is found is found in what is read up to it. -/
theorem findSome?_upTo {γ : Type u} (f : β → Option γ) (xs : List β) :
    (upTo (fun x => (f x).isSome) 1 xs).findSome? f = xs.findSome? f := by
  induction xs with
  | nil => rfl
  | cons x xs ih =>
    rw [upTo, List.findSome?_cons, List.findSome?_cons]
    cases hx : f x with
    | none => exact ih
    | some y => rfl

theorem upTo_isPrefix_of_isPrefix {xs ys : List β} (h : xs <+: ys) (n : ℕ) :
    upTo p n xs <+: upTo p n ys := by
  induction xs generalizing ys n with
  | nil => simp
  | cons x xs ih =>
    obtain ⟨zs, rfl⟩ := h
    cases n with
    | zero => simp
    | succ n => exact List.cons_prefix_cons.mpr ⟨rfl, ih (List.prefix_append xs zs) _⟩

end UpTo

end LineBuffer

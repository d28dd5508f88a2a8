import Mathlib.Data.List.Basic

/-!
# Values among idle inputs

An input carries a value or is idle (`val x = none`). `Gapped val bs xs` says
that the inputs `xs` deliver the values `bs`, with idle inputs only in front of
a value; `takeValue` waits for a value and `takeValues` for a number of them.
-/

namespace CmaesSolenoid.GappedInput

universe u v

variable {ι : Type u} {β : Type v}

/-- Wait for one value; `none` when the inputs run out first. -/
def takeValue (val : ι → Option β) : List ι → Option (β × List ι)
  | [] => none
  | x :: xs =>
    match val x with
    | some b => some (b, xs)
    | none => takeValue val xs

def takeValues (val : ι → Option β) : ℕ → List ι → Option (List β × List ι)
  | 0, xs => some ([], xs)
  | _ + 1, [] => none
  | n + 1, x :: xs =>
    match val x with
    | some b => (takeValues val n xs).map fun out => (b :: out.1, out.2)
    | none => takeValues val (n + 1) xs

inductive Gapped (val : ι → Option β) : List β → List ι → Prop
  | nil : Gapped val [] []
  | value {x : ι} {b : β} {bs : List β} {xs : List ι} (hx : val x = some b)
      (h : Gapped val bs xs) : Gapped val (b :: bs) (x :: xs)
  | gap {x : ι} {b : β} {bs : List β} {xs : List ι} (hx : val x = none)
      (h : Gapped val (b :: bs) xs) : Gapped val (b :: bs) (x :: xs)

variable {val : ι → Option β} {n : ℕ} {x : ι} {b : β} {bs : List β} {xs ys : List ι}

theorem takeValue_value (hx : val x = some b) (xs : List ι) :
    takeValue val (x :: xs) = some (b, xs) := by
  simp only [takeValue, hx]

theorem takeValue_gap (hx : val x = none) (xs : List ι) :
    takeValue val (x :: xs) = takeValue val xs := by
  simp only [takeValue, hx]

theorem takeValue_append {g : List ι} (hg : ∀ y ∈ g, val y = none) (hx : val x = some b)
    (xs : List ι) : takeValue val (g ++ x :: xs) = some (b, xs) := by
  induction g with
  | nil => exact takeValue_value hx xs
  | cons y g ih =>
    rw [List.cons_append, takeValue_gap (hg y (by simp))]
    exact ih fun z hz => hg z (by simp [hz])

theorem takeValue_eq_some (h : takeValue val xs = some (b, ys)) :
    ∃ g x, xs = g ++ x :: ys ∧ (∀ y ∈ g, val y = none) ∧ val x = some b := by
  induction xs with
  | nil => simp [takeValue] at h
  | cons x xs ih =>
    cases hx : val x with
    | some c =>
      rw [takeValue_value hx] at h
      obtain ⟨rfl, rfl⟩ : c = b ∧ xs = ys := by simpa using h
      exact ⟨[], x, rfl, by simp, hx⟩
    | none =>
      rw [takeValue_gap hx] at h
      obtain ⟨g, y, rfl, hg, hy⟩ := ih h
      exact ⟨x :: g, y, rfl, by simpa [hx] using hg, hy⟩

@[simp] theorem takeValues_zero (xs : List ι) : takeValues val 0 xs = some ([], xs) := by
  unfold takeValues
  rfl

@[simp] theorem takeValues_nil (n : ℕ) : takeValues val (n + 1) [] = none := rfl

theorem takeValues_value (hx : val x = some b) (n : ℕ) (xs : List ι) :
    takeValues val (n + 1) (x :: xs) =
      (takeValues val n xs).map fun out => (b :: out.1, out.2) := by
  simp only [takeValues, hx]

theorem takeValues_gap (hx : val x = none) (n : ℕ) (xs : List ι) :
    takeValues val (n + 1) (x :: xs) = takeValues val (n + 1) xs := by
  simp only [takeValues, hx]

theorem takeValues_of_gapped (h : Gapped val bs xs) (ys : List ι) :
    takeValues val bs.length (xs ++ ys) = some (bs, ys) := by
  induction h with
  | nil => simp
  | value hx _ ih => simp [takeValues_value hx, ih]
  | gap hx _ ih =>
    rw [List.cons_append, List.length_cons, takeValues_gap hx, ← ih, List.length_cons]

theorem gapped_of_takeValues (h : takeValues val n xs = some (bs, ys)) :
    bs.length = n ∧ ∃ used, xs = used ++ ys ∧ Gapped val bs used := by
  induction xs generalizing n bs with
  | nil =>
    cases n with
    | zero =>
      obtain ⟨rfl, rfl⟩ : [] = bs ∧ [] = ys := by simpa using h
      exact ⟨rfl, [], rfl, .nil⟩
    | succ n => simp at h
  | cons x xs ih =>
    cases n with
    | zero =>
      obtain ⟨rfl, rfl⟩ : [] = bs ∧ x :: xs = ys := by simpa using h
      exact ⟨rfl, [], rfl, .nil⟩
    | succ n =>
      cases hx : val x with
      | none =>
        rw [takeValues_gap hx] at h
        obtain ⟨hlen, used, rfl, hu⟩ := ih h
        cases bs with
        | nil => simp at hlen
        | cons c cs => exact ⟨hlen, x :: used, rfl, .gap hx hu⟩
      | some b =>
        rw [takeValues_value hx, Option.map_eq_some_iff] at h
        obtain ⟨⟨cs, zs⟩, hcs, heq⟩ := h
        obtain ⟨rfl, rfl⟩ : b :: cs = bs ∧ zs = ys := by simpa using heq
        obtain ⟨hlen, used, rfl, hu⟩ := ih hcs
        exact ⟨by simp [hlen], x :: used, rfl, .value hx hu⟩

/-- Inputs that deliver `bs` deliver it up to the last value, with idle inputs after it. -/
theorem gapped_of_filterMap (h : xs.filterMap val = bs) :
    ∃ used rest, xs = used ++ rest ∧ Gapped val bs used := by
  induction xs generalizing bs with
  | nil =>
    obtain rfl : [] = bs := h
    exact ⟨[], [], rfl, .nil⟩
  | cons x xs ih =>
    cases hx : val x with
    | some b =>
      rw [List.filterMap_cons_some hx] at h
      obtain ⟨used, rest, rfl, hu⟩ := ih rfl
      rw [← h]
      exact ⟨x :: used, rest, rfl, .value hx hu⟩
    | none =>
      rw [List.filterMap_cons_none hx] at h
      obtain ⟨used, rest, rfl, hu⟩ := ih h
      cases hu with
      | nil => exact ⟨[], x :: ([] ++ rest), rfl, .nil⟩
      | value hy hu => exact ⟨_, rest, rfl, .gap hx (.value hy hu)⟩
      | gap hy hu => exact ⟨_, rest, rfl, .gap hx (.gap hy hu)⟩

namespace Gapped

theorem filterMap (h : Gapped val bs xs) : xs.filterMap val = bs := by
  induction h with
  | nil => rfl
  | value hx _ ih => rw [List.filterMap_cons_some hx, ih]
  | gap hx _ ih => rw [List.filterMap_cons_none hx, ih]

theorem eq_nil (h : Gapped val [] xs) : xs = [] := by
  cases h
  rfl

theorem uncons (h : Gapped val (b :: bs) xs) :
    ∃ g x tl, xs = g ++ x :: tl ∧ (∀ y ∈ g, val y = none) ∧ val x = some b ∧ Gapped val bs tl := by
  induction xs with
  | nil => cases h
  | cons x xs ih =>
    cases h with
    | value hx h => exact ⟨[], x, xs, rfl, by simp, hx, h⟩
    | gap hx h =>
      obtain ⟨g, y, tl, rfl, hg, hy, htl⟩ := ih h
      exact ⟨x :: g, y, tl, rfl, by simpa [hx] using hg, hy, htl⟩

theorem cons_of_gap {g : List ι} (hg : ∀ y ∈ g, val y = none) (hx : val x = some b)
    (h : Gapped val bs xs) : Gapped val (b :: bs) (g ++ x :: xs) := by
  induction g with
  | nil => exact .value hx h
  | cons y g ih => exact .gap (hg y (by simp)) (ih fun z hz => hg z (by simp [hz]))

theorem of_map (f : β → ι) (hf : ∀ b, val (f b) = some b) (bs : List β) :
    Gapped val bs (bs.map f) := by
  induction bs with
  | nil => exact .nil
  | cons b bs ih => exact .value (hf b) ih

end Gapped

end CmaesSolenoid.GappedInput

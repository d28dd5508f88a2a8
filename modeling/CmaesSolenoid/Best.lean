import Mathlib.Data.List.Sort

/-!
# The best of a list

`Best f as a`: nothing in `as` has a lower value of `f` than its member `a`. A search
that keeps the best it has seen only has to compare it with the best of what is new.
-/

namespace CmaesSolenoid

variable {α β F : Type} [LinearOrder F] {f : α → F} {as bs : List α} {a b : α}

structure Best (f : α → F) (as : List α) (a : α) : Prop where
  mem : a ∈ as
  le : ∀ b ∈ as, f a ≤ f b

namespace Best

theorem of_sorted (h : as.insertionSort (fun x y => f x ≤ f y) = a :: bs) : Best f as a := by
  have hmem (x : α) : x ∈ as ↔ x ∈ a :: bs := by
    rw [← h]
    exact (List.mem_insertionSort _).symm
  have : Std.Total fun x y : α => f x ≤ f y := ⟨fun x y => le_total (f x) (f y)⟩
  have : IsTrans α fun x y : α => f x ≤ f y := ⟨fun x y z => le_trans⟩
  have hsorted := List.pairwise_insertionSort (r := fun x y => f x ≤ f y) as
  rw [h] at hsorted
  refine ⟨(hmem a).mpr List.mem_cons_self, fun x hx => ?_⟩
  rcases List.mem_cons.mp ((hmem x).mp hx) with rfl | hx
  · exact le_rfl
  · exact (List.pairwise_cons.mp hsorted).1 x hx

theorem append_right (ha : Best f as a) (hb : Best f bs b) (h : f b < f a) :
    Best f (as ++ bs) b := by
  refine ⟨List.mem_append_right as hb.mem, fun x hx => ?_⟩
  rcases List.mem_append.mp hx with hx | hx
  · exact h.le.trans (ha.le x hx)
  · exact hb.le x hx

theorem append_left (ha : Best f as a) (hb : Best f bs b) (h : ¬ f b < f a) :
    Best f (as ++ bs) a := by
  refine ⟨List.mem_append_left bs ha.mem, fun x hx => ?_⟩
  rcases List.mem_append.mp hx with hx | hx
  · exact ha.le x hx
  · exact (not_lt.mp h).trans (hb.le x hx)

theorem of_map {g : β → α} {cs : List β} (h : Best f (cs.map g) a) :
    ∃ c, g c = a ∧ Best (fun c => f (g c)) cs c := by
  obtain ⟨c, hc, rfl⟩ := List.mem_map.mp h.mem
  exact ⟨c, rfl, hc, fun x hx => h.le (g x) (List.mem_map_of_mem hx)⟩

/-- The best of a part is the best of all exactly when the part is nowhere beaten. -/
theorem value_eq_iff_of_subset (ha : Best f as a) (hb : Best f bs b) (h : bs ⊆ as) :
    f a = f b ↔ ∀ x ∈ as, ∃ y ∈ bs, f y ≤ f x := by
  constructor
  · intro heq x hx
    exact ⟨b, hb.mem, heq ▸ ha.le x hx⟩
  · intro hall
    obtain ⟨y, hy, hle⟩ := hall a ha.mem
    exact le_antisymm (ha.le b (h hb.mem)) ((hb.le y hy).trans hle)

end Best

end CmaesSolenoid

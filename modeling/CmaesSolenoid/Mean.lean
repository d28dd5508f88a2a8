import Mathlib.Algebra.BigOperators.Group.List.Basic
import Mathlib.Algebra.Order.BigOperators.Group.List
import Mathlib.Algebra.Order.Field.Basic
import Mathlib.Tactic.FieldSimp
import Mathlib.Tactic.LinearCombination

/-!
# The mean of a list

It lies between the least and the greatest element, and a constant mixed into the list
leaves it alone only when the constant is the mean.
-/

universe u

namespace Mean

variable {K : Type u} [Field K]

/-- For the empty list it is 0. -/
def mean (xs : List K) : K := xs.sum / xs.length

theorem mean_perm {xs ys : List K} (h : xs.Perm ys) : mean xs = mean ys := by
  unfold mean
  rw [h.sum_eq, h.length_eq]

variable [LinearOrder K] [IsStrictOrderedRing K] {xs : List K}

theorem length_pos_of_ne_nil (h : xs ≠ []) : (0 : K) < xs.length :=
  Nat.cast_pos.mpr (List.length_pos_iff.mpr h)

theorem sum_eq_length_mul_mean (h : xs ≠ []) : xs.sum = xs.length * mean xs := by
  have hpos : (xs.length : K) ≠ 0 := (length_pos_of_ne_nil h).ne'
  unfold mean
  field_simp

theorem exists_le_mean (h : xs ≠ []) : ∃ x ∈ xs, x ≤ mean xs := by
  apply List.exists_le_of_sum_le h id fun _ => mean xs
  rw [List.map_id, List.map_const', List.sum_replicate, nsmul_eq_mul, ← sum_eq_length_mul_mean h]

theorem exists_mean_le (h : xs ≠ []) : ∃ x ∈ xs, mean xs ≤ x := by
  apply List.exists_le_of_sum_le h (fun _ => mean xs) id
  rw [List.map_id, List.map_const', List.sum_replicate, nsmul_eq_mul, ← sum_eq_length_mul_mean h]

theorem mean_append_replicate_iff (h : xs ≠ []) (n : ℕ) (c : K) :
    mean (xs ++ List.replicate n c) = mean xs ↔ n = 0 ∨ mean xs = c := by
  have hpos := length_pos_of_ne_nil h
  have hall : (0 : K) < xs.length + n := add_pos_of_pos_of_nonneg hpos n.cast_nonneg
  have hmix : mean (xs ++ List.replicate n c) =
      (xs.length * mean xs + n * c) / (xs.length + n) := by
    rw [← sum_eq_length_mul_mean h]
    unfold mean
    rw [List.sum_append, List.sum_replicate, nsmul_eq_mul, List.length_append,
      List.length_replicate, Nat.cast_add]
  have hcross : mean (xs ++ List.replicate n c) = mean xs ↔ (n : K) * (mean xs - c) = 0 := by
    rw [hmix, div_eq_iff hall.ne']
    constructor
    · intro heq
      linear_combination -heq
    · intro heq
      linear_combination -heq
  rw [hcross, mul_eq_zero, Nat.cast_eq_zero, sub_eq_zero]

end Mean

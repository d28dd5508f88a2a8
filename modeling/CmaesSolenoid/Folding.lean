import Mathlib.Algebra.Order.Floor.Ring
import Mathlib.Tactic.Linarith
import Mathlib.Tactic.Ring

/-!
# A line folded onto an interval

Each point of the line is folded onto one point of an interval: it is a whole number of
periods, twice the length of the interval each, away from that point or from its mirror
image.
-/

namespace CmaesSolenoid.Folding

variable {K : Type} [Field K] [LinearOrder K] {lo hi x z z' : K}

/-- `x` is folded onto `z`. -/
structure Folds (lo hi x z : K) : Prop where
  lo_le : lo ≤ z
  le_hi : z ≤ hi
  sheet : ∃ n : ℤ, x = z + n * (2 * (hi - lo)) ∨ x = 2 * lo - z + n * (2 * (hi - lo))

section

variable [IsStrictOrderedRing K]

theorem eq_zero_of_abs_mul_lt {n : ℤ} (period : K) (h : |n * period| < period) : n = 0 := by
  have hpos : 0 < period := (abs_nonneg _).trans_lt h
  rw [abs_mul, abs_of_pos hpos] at h
  have hone : |(n : K)| < 1 := lt_of_mul_lt_mul_right (by rwa [one_mul]) hpos.le
  rw [← Int.cast_abs] at hone
  exact Int.abs_lt_one_iff.mp (by exact_mod_cast hone)

theorem eq_zero_or_one_of_mul_mem {n : ℤ} {period : K} (hpos : 0 < period)
    (h0 : 0 ≤ n * period) (h1 : n * period ≤ period) : n = 0 ∨ n = 1 := by
  have hn0 : (0 : K) ≤ n := nonneg_of_mul_nonneg_left h0 hpos
  have hn1 : (n : K) ≤ 1 := le_of_mul_le_mul_right (by rwa [one_mul]) hpos
  have h0' : 0 ≤ n := by exact_mod_cast hn0
  have h1' : n ≤ 1 := by exact_mod_cast hn1
  omega

theorem Folds.unique (hlt : lo < hi) (h : Folds lo hi x z) (h' : Folds lo hi x z') : z = z' := by
  have hpos : 0 < 2 * (hi - lo) := by linarith
  have hlo := h.lo_le
  have hhi := h.le_hi
  have hlo' := h'.lo_le
  have hhi' := h'.le_hi
  obtain ⟨n, hn⟩ := h.sheet
  obtain ⟨m, hm⟩ := h'.sheet
  -- on one sheet the two differ by less than a period
  have hsame (hdiff : ((n - m : ℤ) : K) * (2 * (hi - lo)) = z' - z ∨
      ((n - m : ℤ) : K) * (2 * (hi - lo)) = z - z') : z = z' := by
    have hzero : n - m = 0 := by
      apply eq_zero_of_abs_mul_lt (2 * (hi - lo))
      rw [abs_lt]
      rcases hdiff with hdiff | hdiff
      · rw [hdiff]
        constructor <;> linarith
      · rw [hdiff]
        constructor <;> linarith
    rw [hzero, Int.cast_zero, zero_mul] at hdiff
    rcases hdiff with hdiff | hdiff
    · linarith
    · linarith
  -- on two sheets they meet at an end of the interval
  have hends (k : ℤ) (hk : (k : K) * (2 * (hi - lo)) = z + z' - 2 * lo) : z = z' := by
    rcases eq_zero_or_one_of_mul_mem hpos (by linarith) (by linarith) with rfl | rfl
    · rw [Int.cast_zero, zero_mul] at hk
      linarith
    · rw [Int.cast_one, one_mul] at hk
      linarith
  rcases hn with hn | hn
  · rcases hm with hm | hm
    · apply hsame
      left
      push_cast
      linarith
    · apply hends (m - n)
      push_cast
      linarith
  · rcases hm with hm | hm
    · apply hends (n - m)
      push_cast
      linarith
    · apply hsame
      right
      push_cast
      linarith

end

theorem Folds.self (hlo : lo ≤ z) (hhi : z ≤ hi) : Folds lo hi z z :=
  ⟨hlo, hhi, 0, .inl (by rw [Int.cast_zero, zero_mul, add_zero])⟩

theorem Folds.add_period (h : Folds lo hi x z) (k : ℤ) :
    Folds lo hi (x + k * (2 * (hi - lo))) z := by
  obtain ⟨n, hn⟩ := h.sheet
  refine ⟨h.lo_le, h.le_hi, n + k, ?_⟩
  push_cast
  rcases hn with rfl | rfl
  · left
    ring
  · right
    ring

theorem Folds.mirror (h : Folds lo hi x z) : Folds lo hi (2 * lo - x) z := by
  obtain ⟨n, hn⟩ := h.sheet
  refine ⟨h.lo_le, h.le_hi, -n, ?_⟩
  push_cast
  rcases hn with rfl | rfl
  · right
    ring
  · left
    ring

theorem Folds.mirror_hi (h : Folds lo hi x z) : Folds lo hi (2 * hi - x) z := by
  have hshift := h.mirror.add_period 1
  have heq : 2 * lo - x + ((1 : ℤ) : K) * (2 * (hi - lo)) = 2 * hi - x := by
    push_cast
    ring
  rwa [heq] at hshift

end CmaesSolenoid.Folding

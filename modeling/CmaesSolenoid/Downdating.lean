import Mathlib.LinearAlgebra.Matrix.PosDef

/-!
# Matrices changed by outer products

Weighted outer products are added to a positive definite matrix, or taken away from it.
The second is safe up to the greatest eigenvalue of what is taken away, measured in the
metric of the matrix.
-/

namespace CmaesSolenoid.Downdating
open Matrix

variable {K n : Type} [Field K]

def outers (ws : List K) (ys : List (n → K)) : Matrix n n K :=
  (List.zipWith (fun w y => w • vecMulVec y y) ws ys).sum

theorem outers_zero (ws : List K) {ys : List (n → K)} (hys : ∀ y ∈ ys, y = 0) :
    outers ws ys = 0 := by
  induction ws generalizing ys with
  | nil => rfl
  | cons w ws ih =>
    cases ys with
    | nil => rfl
    | cons y ys =>
      obtain ⟨hy, hys⟩ := List.forall_mem_cons.mp hys
      rw [outers, List.zipWith_cons_cons, List.sum_cons, hy, zero_vecMulVec, smul_zero, zero_add]
      exact ih hys

variable [LinearOrder K] [StarRing K] [StarOrderedRing K]

theorem posSemidef_outer [Finite n] (y : n → K) : PosSemidef (vecMulVec y y) := by
  simpa only [star_trivial] using posSemidef_vecMulVec_self_star y

theorem posSemidef_outers [Finite n] {ws : List K} (hws : ∀ w ∈ ws, 0 ≤ w) (ys : List (n → K)) :
    PosSemidef (outers ws ys) := by
  induction ws generalizing ys with
  | nil => exact .zero
  | cons w ws ih =>
    cases ys with
    | nil => exact .zero
    | cons y ys =>
      rw [outers, List.zipWith_cons_cons, List.sum_cons]
      exact ((posSemidef_outer y).smul (hws w (List.mem_cons_self ..))).add
        (ih (fun v hv => hws v (List.mem_cons_of_mem _ hv)) ys)

section Mean
variable [IsStrictOrderedRing K]

omit [StarRing K] [StarOrderedRing K] in
theorem sum_zipWith_mem_Icc {ws : List K} (hws : ∀ w ∈ ws, 0 ≤ w) {ys : List (n → K)}
    {a b : n → K} (hlen : ws.length ≤ ys.length) (hys : ∀ y ∈ ys, y ∈ Set.Icc a b) :
    (List.zipWith (fun w y => w • y) ws ys).sum ∈ Set.Icc (ws.sum • a) (ws.sum • b) := by
  induction ws generalizing ys with
  | nil => simp
  | cons w ws ih =>
    cases ys with
    | nil => exact absurd hlen (by simp)
    | cons y ys =>
      have hw := hws w (List.mem_cons_self ..)
      have hy := hys y (List.mem_cons_self ..)
      have hrest := ih (fun v hv => hws v (List.mem_cons_of_mem _ hv)) (by simpa using hlen)
        fun z hz => hys z (List.mem_cons_of_mem _ hz)
      rw [List.zipWith_cons_cons, List.sum_cons, List.sum_cons, add_smul, add_smul]
      exact ⟨add_le_add (smul_le_smul_of_nonneg_left hy.1 hw) hrest.1,
        add_le_add (smul_le_smul_of_nonneg_left hy.2 hw) hrest.2⟩

end Mean

variable {C S A : Matrix n n K} {l a c : K}

section Metric
variable [Fintype n] [DecidableEq n]

omit [StarOrderedRing K] in
/-- The bound on the eigenvalues in the metric of `C`, for its inverse root `S`. -/
theorem posSemidef_smul_sub (hS : S.IsHermitian) (hSC : S * C * S = 1)
    (hl : PosSemidef (l • 1 - S * A * S)) : PosSemidef (l • C - A) := by
  have hunit : IsUnit S := by
    rw [Matrix.isUnit_iff_isUnit_det]
    have hdet : S.det * (C.det * S.det) = 1 := by
      rw [← mul_assoc, ← det_mul, ← det_mul, hSC, det_one]
    exact IsUnit.of_mul_eq_one _ hdet
  rw [← hunit.posSemidef_star_left_conjugate_iff]
  have hstar : star S = S := hS
  rwa [hstar, Matrix.mul_sub, Matrix.sub_mul, Matrix.mul_smul, Matrix.smul_mul, hSC]

omit [Fintype n] in
theorem bound_nonneg [Nonempty n] (hA : A.PosSemidef) (hl : PosSemidef (l • 1 - A)) : 0 ≤ l := by
  have hone : PosSemidef (l • (1 : Matrix n n K)) := by
    simpa using hl.add hA
  have := hone.diag_nonneg (i := Classical.arbitrary n)
  simpa using this

end Metric

theorem downdate_posDef (hC : C.PosDef) (hl : PosSemidef (l • C - A)) (hc : 0 ≤ c)
    (hlt : c * l < a) : (a • C - c • A).PosDef := by
  have heq : a • C - c • A = (a - c * l) • C + c • (l • C - A) := by
    rw [smul_sub, sub_smul, smul_smul]
    abel
  rw [heq]
  exact PosDef.add_posSemidef (hC.smul (sub_pos.mpr hlt)) (hl.smul hc)

end CmaesSolenoid.Downdating

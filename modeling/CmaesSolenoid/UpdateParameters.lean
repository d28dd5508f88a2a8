import Mathlib.Algebra.BigOperators.Field
import Mathlib.Algebra.Order.Chebyshev
import Mathlib.Algebra.Order.Floor.Ring
import Mathlib.Analysis.SpecialFunctions.Pow.Real
import Mathlib.Tactic.FieldSimp
import Mathlib.Tactic.Linarith
import Mathlib.Tactic.Positivity

/-!
# `libcmaes`: the constants of the update

`CMAParameters::initialize_parameters`, in exact arithmetic: the weights of the better
half of a generation, and the rates at which mean, paths and covariance are learned.
-/

namespace CmaesSolenoid.Libcmaes
open Finset

variable {K : Type} [Field K] [LinearOrder K] [IsStrictOrderedRing K]

structure CMath (K : Type) where
  sqrt : K → K
  log : K → K
  exp : K → K
  pow : K → K → K

/-- What the C library says of them. -/
structure CMath.Lawful (m : CMath K) : Prop where
  sqrt_nonneg : ∀ x, 0 ≤ x → 0 ≤ m.sqrt x
  log_lt : ∀ x y, 0 < x → x < y → m.log x < m.log y
  exp_pos : ∀ x, 0 < m.exp x
  pow_pos : ∀ x y, 0 < x → 0 < m.pow x y

noncomputable def CMath.real : CMath ℝ where
  sqrt := Real.sqrt
  log := Real.log
  exp := Real.exp
  pow := fun x y => x ^ y

theorem CMath.real_lawful : CMath.real.Lawful where
  sqrt_nonneg x _ := Real.sqrt_nonneg x
  log_lt _ _ hx hxy := Real.log_lt_log hx hxy
  exp_pos := Real.exp_pos
  pow_pos _ y hx := Real.rpow_pos_of_pos hx y

structure UpdateParameters (K : Type) where
  dim : ℕ
  lambda : ℕ
  sigmaInit : K
  lazyUpdate : Bool
  lazyValue : K
  fixedP : ℕ
  weights : List K
  muw : K
  csigma : K
  cc : K
  c1 : K
  cmu : K
  dsigma : K
  factPs : K
  factPc : K
  chi : K
  cm : K
  alphacov : K
  alphaminusold : K
  lambdamintarget : K
  alphaminusmin : K
  deltamaxsigma : K

namespace UpdateParameters

def rawWeight (m : CMath K) (mu i : ℕ) : K := m.log (mu + 1) - m.log (i + 1)

def sumWeights (m : CMath K) (mu : ℕ) : K := ∑ i ∈ range mu, rawWeight m mu i

def sqWeights (m : CMath K) (mu : ℕ) : K := ∑ i ∈ range mu, rawWeight m mu i * rawWeight m mu i

/-- `_muw` for this many points. -/
def variance (m : CMath K) (mu : ℕ) : K :=
  sumWeights m mu * sumWeights m mu / sqWeights m mu

def doubleMax : K := (2.0 ^ 53 - 1) * 2.0 ^ 971

def initializeParameters (m : CMath K) (dim lambda : ℕ) (sigma : K) : UpdateParameters K :=
  let mu := lambda / 2
  let muw := variance m mu
  let csigma :=
    if dim < 1000 then (muw + 2.0) / (dim + muw + 5.0)
    else (m.sqrt muw + 2.0) / (m.sqrt dim + m.sqrt muw + 3.0)
  let cc := (4.0 + muw / dim) / (dim + 4.0 + 2.0 * muw / dim)
  let c1 := 2.0 / ((dim + 1.3) ^ 2 + muw)
  let cmu := min (1 - c1) (2.0 * (muw - 2.0 + 1 / muw) / ((dim + 2.0) ^ 2 + muw))
  { dim := dim
    lambda := lambda
    sigmaInit := sigma
    lazyUpdate := false
    lazyValue := 1 / (c1 + cmu) / dim / 10.0
    fixedP := 0
    weights := (List.range mu).map fun i => rawWeight m mu i / sumWeights m mu
    muw := muw
    csigma := csigma
    cc := cc
    c1 := c1
    cmu := cmu
    dsigma := 1 + csigma + 2.0 * max 0 (m.sqrt ((muw - 1) / (dim + 1)) - 1)
    factPs := m.sqrt (csigma * (2.0 - csigma) * muw)
    factPc := m.sqrt (cc * (2.0 - cc) * muw)
    chi := m.sqrt dim * (1 - 1 / (4.0 * dim) + 1 / (21.0 * dim * dim))
    cm := 1
    alphacov := 2.0
    alphaminusold := 0.5
    lambdamintarget := 0.66
    alphaminusmin := 1
    deltamaxsigma := doubleMax }

def setLazyUpdate (p : UpdateParameters K) (b : Bool) : UpdateParameters K :=
  { p with lazyUpdate := b }

/-- The constructor of `Parameters` on its argument `lambda`. -/
def lambdaOf [FloorRing K] (m : CMath K) (dim : ℕ) (lambda : ℤ) : ℕ :=
  if lambda < 2 then (4 + ⌊3.0 * m.log dim⌋).toNat else lambda.toNat

/-- What the updates need of the constants. -/
structure Rates (p : UpdateParameters K) : Prop where
  weights_length : p.weights.length = p.lambda / 2
  weights_pos : ∀ w ∈ p.weights, 0 < w
  weights_decreasing : p.weights.Pairwise (· > ·)
  weights_sum : p.weights.sum = 1
  muw_mem : 1 ≤ p.muw ∧ p.muw ≤ (p.lambda / 2 : ℕ)
  csigma_mem : 0 < p.csigma ∧ p.csigma < 1
  cc_mem : 0 < p.cc ∧ p.cc < 1
  c1_mem : 0 < p.c1 ∧ p.c1 < 1 / 3
  cmu_mem : 0 ≤ p.cmu ∧ p.cmu ≤ 1 - p.c1
  one_lt_dsigma : 1 < p.dsigma

variable {m : CMath K} {mu dim lambda : ℕ} {s : K}

theorem rawWeight_pos (hm : m.Lawful) {i : ℕ} (hi : i < mu) : 0 < rawWeight m mu i := by
  rw [rawWeight, sub_pos]
  apply hm.log_lt
  · positivity
  · exact_mod_cast Nat.succ_lt_succ hi

theorem rawWeight_lt (hm : m.Lawful) {i j : ℕ} (hij : i < j) :
    rawWeight m mu j < rawWeight m mu i := by
  rw [rawWeight, rawWeight, sub_lt_sub_iff_left]
  apply hm.log_lt
  · positivity
  · exact_mod_cast Nat.succ_lt_succ hij

theorem sumWeights_pos (hm : m.Lawful) (hmu : 0 < mu) : 0 < sumWeights m mu :=
  sum_pos (fun _ hi => rawWeight_pos hm (mem_range.mp hi)) ⟨0, mem_range.mpr hmu⟩

theorem sqWeights_pos (hm : m.Lawful) (hmu : 0 < mu) : 0 < sqWeights m mu :=
  sum_pos (fun _ hi => mul_pos (rawWeight_pos hm (mem_range.mp hi))
    (rawWeight_pos hm (mem_range.mp hi))) ⟨0, mem_range.mpr hmu⟩

theorem variance_mem (hm : m.Lawful) (hmu : 0 < mu) : 1 ≤ variance m mu ∧ variance m mu ≤ mu := by
  have hsq := sqWeights_pos hm hmu
  constructor
  · rw [variance, one_le_div hsq, sqWeights, sumWeights, ← sq]
    simp only [← sq]
    exact sum_sq_le_sq_sum_of_nonneg fun i hi => (rawWeight_pos hm (mem_range.mp hi)).le
  · rw [variance, div_le_iff₀ hsq, sqWeights, sumWeights, ← sq]
    simp only [← sq]
    have := sq_sum_le_card_mul_sum_sq (s := range mu) (f := rawWeight m mu)
    rwa [card_range] at this

theorem weights_pos (hm : m.Lawful) (hlambda : 2 ≤ lambda) :
    ∀ w ∈ (initializeParameters m dim lambda s).weights, 0 < w := by
  intro w hw
  obtain ⟨i, hi, rfl⟩ := List.mem_map.mp hw
  exact div_pos (rawWeight_pos hm (List.mem_range.mp hi)) (sumWeights_pos hm (by omega))

theorem weights_decreasing (hm : m.Lawful) (hlambda : 2 ≤ lambda) :
    (initializeParameters m dim lambda s).weights.Pairwise (· > ·) :=
  List.pairwise_map.mpr (List.pairwise_lt_range.imp fun hij =>
    div_lt_div_of_pos_right (rawWeight_lt hm hij) (sumWeights_pos hm (by omega)))

theorem weights_sum (hm : m.Lawful) (hlambda : 2 ≤ lambda) :
    (initializeParameters m dim lambda s).weights.sum = 1 := by
  have hlist : (initializeParameters m dim lambda s).weights.sum =
      ∑ i ∈ range (lambda / 2), rawWeight m (lambda / 2) i / sumWeights m (lambda / 2) := rfl
  rw [hlist, ← Finset.sum_div]
  exact div_self (sumWeights_pos hm (by omega)).ne'

theorem c1_mem (hm : m.Lawful) (hdim : 0 < dim) (hlambda : 2 ≤ lambda) :
    0 < (initializeParameters m dim lambda s).c1 ∧
      (initializeParameters m dim lambda s).c1 < 1 / 3 := by
  have hd : (1 : K) ≤ dim := by exact_mod_cast hdim
  have hmuw := (variance_mem hm (by omega : 0 < lambda / 2)).1
  have hden : 6 < (dim + 1.3 : K) ^ 2 + variance m (lambda / 2) := by nlinarith
  constructor
  · exact div_pos (by norm_num) (by linarith)
  · show 2.0 / ((dim + 1.3 : K) ^ 2 + variance m (lambda / 2)) < 1 / 3
    rw [div_lt_div_iff₀ (by linarith) three_pos]
    linarith

theorem cmu_nonneg (hm : m.Lawful) (hdim : 0 < dim) (hlambda : 2 ≤ lambda) :
    0 ≤ (initializeParameters m dim lambda s).cmu := by
  have hc1 := (c1_mem (s := s) hm hdim hlambda).2
  have hmuw := (variance_mem hm (by omega : 0 < lambda / 2)).1
  have hle : (initializeParameters m dim lambda s).c1 ≤ 1 := by linarith
  refine le_min (sub_nonneg.mpr hle) (div_nonneg ?_ (by positivity))
  -- The mean of a number and its inverse is at least 1.
  have : 2 ≤ variance m (lambda / 2) + 1 / variance m (lambda / 2) := by
    rw [← sub_nonneg]
    have : variance m (lambda / 2) + 1 / variance m (lambda / 2) - 2 =
        (variance m (lambda / 2) - 1) ^ 2 / variance m (lambda / 2) := by
      field_simp
      ring
    rw [this]
    positivity
  linarith

theorem csigma_mem (hm : m.Lawful) (hdim : 0 < dim) (hlambda : 2 ≤ lambda) :
    0 < (initializeParameters m dim lambda s).csigma ∧
      (initializeParameters m dim lambda s).csigma < 1 := by
  have hd : (1 : K) ≤ dim := by exact_mod_cast hdim
  have hmuw := (variance_mem hm (by omega : 0 < lambda / 2)).1
  have hsqrt := hm.sqrt_nonneg _ (zero_le_one.trans hmuw)
  have hsqrt' := hm.sqrt_nonneg _ (zero_le_one.trans hd)
  rw [initializeParameters]
  dsimp only
  split_ifs
  · refine ⟨by positivity, (div_lt_one (by positivity)).mpr (by linarith)⟩
  · refine ⟨by positivity, (div_lt_one (by positivity)).mpr (by linarith)⟩

theorem cc_mem (hm : m.Lawful) (hdim : 0 < dim) (hlambda : 2 ≤ lambda) :
    0 < (initializeParameters m dim lambda s).cc ∧
      (initializeParameters m dim lambda s).cc < 1 := by
  have hd : (1 : K) ≤ dim := by exact_mod_cast hdim
  have hmuw := (variance_mem hm (by omega : 0 < lambda / 2)).1
  have hpos : 0 < variance m (lambda / 2) / dim := by positivity
  rw [initializeParameters]
  dsimp only
  rw [mul_div_assoc]
  exact ⟨by positivity, (div_lt_one (by positivity)).mpr (by linarith)⟩

theorem one_lt_dsigma (hm : m.Lawful) (hdim : 0 < dim) (hlambda : 2 ≤ lambda) :
    1 < (initializeParameters m dim lambda s).dsigma := by
  have hcsigma := (csigma_mem (s := s) hm hdim hlambda).1
  have hmax : 0 ≤ max 0 (m.sqrt ((variance m (lambda / 2) - 1) / (dim + 1)) - 1) :=
    le_max_left _ _
  have heq : (initializeParameters m dim lambda s).dsigma =
      1 + (initializeParameters m dim lambda s).csigma +
        2.0 * max 0 (m.sqrt ((variance m (lambda / 2) - 1) / (dim + 1)) - 1) := rfl
  rw [heq]
  linarith

theorem initializeParameters_rates_of (hm : m.Lawful) (hdim : 0 < dim) (hlambda : 2 ≤ lambda) :
    (initializeParameters m dim lambda s).Rates where
  weights_length := (List.length_map _).trans List.length_range
  weights_pos := weights_pos hm hlambda
  weights_decreasing := weights_decreasing hm hlambda
  weights_sum := weights_sum hm hlambda
  muw_mem := variance_mem hm (by omega)
  csigma_mem := csigma_mem hm hdim hlambda
  cc_mem := cc_mem hm hdim hlambda
  c1_mem := c1_mem hm hdim hlambda
  cmu_mem := ⟨cmu_nonneg hm hdim hlambda, min_le_left _ _⟩
  one_lt_dsigma := one_lt_dsigma hm hdim hlambda

/-- In populations of up to `dim + 4` points, the default one among them, what the worse
half takes away stays below what the update keeps. -/
theorem c1_lt_of_le (hm : m.Lawful) (hdim : 0 < dim) (hlambda : 2 ≤ lambda)
    (hle : lambda ≤ dim + 4) :
    (initializeParameters m dim lambda s).c1 <
      0.66 * (1 - (initializeParameters m dim lambda s).cmu) := by
  have hd : (1 : K) ≤ dim := by exact_mod_cast hdim
  obtain ⟨hmuw, hmu⟩ := variance_mem hm (by omega : 0 < lambda / 2)
  have hhalf : 2 * variance m (lambda / 2) ≤ dim + 4 := by
    have : (2 * (lambda / 2 : ℕ) : K) ≤ dim + 4 := by exact_mod_cast by omega
    linarith
  have hcmu : (initializeParameters m dim lambda s).cmu ≤ 1 / 3 := by
    refine (min_le_right _ _).trans ?_
    have hinv : 1 / variance m (lambda / 2) ≤ 1 := (div_le_one (by linarith)).mpr hmuw
    rw [div_le_div_iff₀ (by positivity) three_pos]
    nlinarith
  have := (c1_mem (s := s) hm hdim hlambda).2
  norm_num
  linarith

theorem three_log_lt {x : ℝ} (hx : 0 < x) : 3 * Real.log x < x + 1 := by
  -- The tangent at 3.
  have htangent : Real.log (x / 3) ≤ x / 3 - 1 := Real.log_le_sub_one_of_pos (by positivity)
  have hthree : Real.log 3 < 4 / 3 := by
    rw [Real.log_lt_iff_lt_exp three_pos]
    have := Real.quadratic_le_exp_of_nonneg (by norm_num : (0 : ℝ) ≤ 4 / 3)
    linarith
  rw [Real.log_div hx.ne' three_ne_zero] at htangent
  linarith

theorem lambdaOf_mem {l : ℤ} (hdim : 0 < dim) :
    2 ≤ lambdaOf CMath.real dim l ∧ (l ≤ dim + 4 → lambdaOf CMath.real dim l ≤ dim + 4) := by
  have hd : (1 : ℝ) ≤ dim := by exact_mod_cast hdim
  have hlow : 0 ≤ ⌊3.0 * Real.log dim⌋ :=
    Int.floor_nonneg.mpr (mul_nonneg (by norm_num) (Real.log_nonneg hd))
  have hhigh : ⌊3.0 * Real.log dim⌋ < dim + 1 := by
    have := three_log_lt (zero_lt_one.trans_le hd)
    rw [Int.floor_lt]
    push_cast
    linarith
  rw [lambdaOf]
  split_ifs
  · rw [show CMath.real.log = Real.log from rfl]
    omega
  · omega

theorem initializeParameters_rates {l : ℤ} {s : ℝ} (hdim : 0 < dim) :
    (initializeParameters CMath.real dim (lambdaOf CMath.real dim l) s).Rates :=
  initializeParameters_rates_of CMath.real_lawful hdim (lambdaOf_mem hdim).1

theorem initializeParameters_rates_two :
    (initializeParameters CMath.real 2 (lambdaOf CMath.real 2 (-1)) 0.1).Rates :=
  initializeParameters_rates two_pos

end UpdateParameters

end CmaesSolenoid.Libcmaes

import Mathlib.Algebra.Order.Star.Real
import Mathlib.Tactic.FieldSimp
import CmaesSolenoid.Downdating
import CmaesSolenoid.Interleaving
import CmaesSolenoid.UpdateParameters

/-!
# `libcmaes`: mean, step size and covariance

`CovarianceUpdate::update` and `ACovarianceUpdate::update` on full matrices, in exact
arithmetic, with the decomposition that `CMAStrategy::ask` makes before them. Which points
are drawn is left open: a generation is any list of `lambda` points, the best first.
-/

namespace CmaesSolenoid.Libcmaes
open Matrix Downdating Interleaving

variable {K : Type} [Field K] [LinearOrder K] {n : ℕ}

/-- What is used of `Eigen::SelfAdjointEigenSolver`. -/
structure EigenSolver (K : Type) (n : ℕ) where
  operatorInverseSqrt : Matrix (Fin n) (Fin n) K → Matrix (Fin n) (Fin n) K
  maxEigenvalue : Matrix (Fin n) (Fin n) K → K

structure EigenSolver.Lawful [StarRing K] (e : EigenSolver K n) : Prop where
  inverseSqrt_isHermitian : ∀ C, C.PosDef → (e.operatorInverseSqrt C).IsHermitian
  inverseSqrt_mul : ∀ C, C.PosDef → e.operatorInverseSqrt C * C * e.operatorInverseSqrt C = 1
  le_maxEigenvalue : ∀ A, A.IsHermitian → PosSemidef (e.maxEigenvalue A • 1 - A)

structure Distribution (K : Type) (n : ℕ) where
  xmean : Fin n → K
  sigma : K
  psigma : Fin n → K
  pc : Fin n → K
  cov : Matrix (Fin n) (Fin n) K
  /-- Not read before it is set. -/
  csqinv : Matrix (Fin n) (Fin n) K
  hsig : Bool
  niter : ℕ
  eigeniter : ℕ
  updatedEigen : Bool
  /-- The matrix that `_esolver` holds. -/
  covar : Matrix (Fin n) (Fin n) K

namespace Distribution

def ofParameters (p : UpdateParameters K) (x0 : Fin n → K) : Distribution K n where
  xmean := x0
  sigma := if p.sigmaInit > 0 then p.sigmaInit else 1 / p.dim
  psigma := 0
  pc := 0
  cov := 1
  csqinv := 0
  hsig := true
  niter := 0
  eigeniter := 0
  updatedEigen := true
  covar := 0

/-- `ask`: with a lazy update, most generations are drawn from an older matrix. -/
def decompose (p : UpdateParameters K) (s : Distribution K n) : Distribution K n :=
  if s.niter = 0 ∨ !p.lazyUpdate ∨ (s.niter : K) - s.eigeniter > p.lazyValue then
    { s with eigeniter := s.niter, covar := s.cov, updatedEigen := true }
  else { s with updatedEigen := false }

def norm (m : CMath K) (v : Fin n → K) : K := m.sqrt (v ⬝ᵥ v)

def valForHsig (m : CMath K) (p : UpdateParameters K) (niter : ℕ) : K :=
  m.sqrt (1 - (1 - p.csigma) ^ (2 * (niter + 1))) *
    (1.4 + 2.0 / (p.dim + 1 - p.fixedP : ℕ)) * p.chi

def updatePaths (m : CMath K) (e : EigenSolver K n) (p : UpdateParameters K)
    (s : Distribution K n) (diffxmean : Fin n → K) : Distribution K n :=
  let csqinv := if s.updatedEigen then e.operatorInverseSqrt s.covar else s.csqinv
  let psigma := (1 - p.csigma) • s.psigma + p.factPs • csqinv *ᵥ diffxmean
  let hsig : Bool := norm m psigma < valForHsig m p s.niter
  { s with
    csqinv := csqinv
    psigma := psigma
    hsig := hsig
    pc := (1 - p.cc) • s.pc + (hsig.toNat * p.factPc) • diffxmean }

def sigmaFactor (m : CMath K) (p : UpdateParameters K) (psigma : Fin n → K) : K :=
  m.exp (p.csigma / p.dsigma * (norm m psigma / p.chi - 1))

def update (m : CMath K) (e : EigenSolver K n) (p : UpdateParameters K) (s : Distribution K n)
    (xs : List (Fin n → K)) : Distribution K n :=
  let xmean := (List.zipWith (fun w x => w • x) p.weights xs).sum
  let t := updatePaths m e p s ((1 / s.sigma) • (xmean - s.xmean))
  let wdiff := (1 / (s.sigma * s.sigma)) • outers p.weights (xs.map fun x => x - s.xmean)
  { t with
    cov := (1 - p.c1 - p.cmu + (1 - t.hsig.toNat) * p.c1 * p.cc * (2.0 - p.cc)) • s.cov
      + p.c1 • vecMulVec t.pc t.pc + p.cmu • wdiff
    sigma := s.sigma * sigmaFactor m p t.psigma
    xmean := xmean }

/-- `cminus`, for the greatest eigenvalue of what is taken away. -/
def cminus (m : CMath K) (p : UpdateParameters K) (cminustmp : K) : K :=
  let bound := (1 - p.cmu) * p.alphacov / 8.0 * (p.muw / (m.pow (p.dim + 2.0) 1.5 + 2.0 * p.muw))
  -- A division by 0 is infinite.
  if cminustmp = 0 then bound
  else min (p.alphaminusmin * (1 - p.cmu) * (1 - p.lambdamintarget) / cminustmp) bound

def aupdate (m : CMath K) (e : EigenSolver K n) (p : UpdateParameters K) (s : Distribution K n)
    (xs : List (Fin n → K)) : Distribution K n :=
  let xmean := p.cm • (List.zipWith (fun w x => w • x) p.weights
    (xs.map fun x => x - s.xmean)).sum + s.xmean
  let t := updatePaths m e p s ((1 / (s.sigma * p.cm)) • (xmean - s.xmean))
  let cmuplus := (1 / (s.sigma * s.sigma)) • outers p.weights (xs.map fun x => x - s.xmean)
  let cmuminus := outers p.weights (xs.reverse.map fun x => (1 / s.sigma) • (x - s.xmean))
  let c := cminus m p (e.maxEigenvalue (t.csqinv * cmuminus * t.csqinv))
  { t with
    cov := (1 - p.c1 - p.cmu + c * p.alphaminusold) • s.cov + p.c1 • vecMulVec t.pc t.pc
      + (p.cmu + c * (1 - p.alphaminusold)) • cmuplus - c • cmuminus
    sigma := s.sigma * min p.deltamaxsigma (sigmaFactor m p t.psigma)
    xmean := xmean }

def generation (p : UpdateParameters K)
    (update : Distribution K n → List (Fin n → K) → Distribution K n) (s : Distribution K n)
    (xs : List (Fin n → K)) : Option (Distribution K n) :=
  if xs.length = p.lambda then
    let t := update (s.decompose p) xs
    some { t with niter := t.niter + 1 }
  else none

variable {m : CMath K} {e : EigenSolver K n} {p : UpdateParameters K} {s t : Distribution K n}
  {xs : List (Fin n → K)}

/-- A convex combination of the better half. -/
theorem update_xmean_mem [IsStrictOrderedRing K] {a b : Fin n → K} (hp : p.Rates)
    (hlen : xs.length = p.lambda) (hxs : ∀ x ∈ xs, x ∈ Set.Icc a b) :
    (update m e p s xs).xmean ∈ Set.Icc a b := by
  have hle : p.weights.length ≤ xs.length := by
    rw [hp.weights_length, hlen]
    exact Nat.div_le_self _ _
  have := sum_zipWith_mem_Icc (fun w hw => (hp.weights_pos w hw).le) hle hxs
  rwa [hp.weights_sum, one_smul, one_smul] at this

omit [LinearOrder K] in
theorem zipWith_sub (ws : List K) (y : Fin n → K) (h : ws.length ≤ xs.length) :
    (List.zipWith (fun w x => w • x) ws (xs.map fun x => x - y)).sum =
      (List.zipWith (fun w x => w • x) ws xs).sum - ws.sum • y := by
  induction ws generalizing xs with
  | nil => simp
  | cons w ws ih =>
    cases xs with
    | nil => exact absurd h (by simp)
    | cons x xs =>
      simp only [List.map_cons, List.zipWith_cons_cons, List.sum_cons, ih (by simpa using h),
        smul_sub, add_smul]
      abel

theorem aupdate_xmean [IsStrictOrderedRing K] (hp : p.Rates) (hcm : p.cm = 1)
    (hlen : xs.length = p.lambda) :
    (aupdate m e p s xs).xmean = (update m e p s xs).xmean := by
  have hle : p.weights.length ≤ xs.length := by
    rw [hp.weights_length, hlen]
    exact Nat.div_le_self _ _
  simp only [aupdate, update, hcm, one_smul, zipWith_sub _ _ hle, hp.weights_sum, sub_add_cancel]

theorem update_sigma_pos [IsStrictOrderedRing K] (hm : m.Lawful) (hs : 0 < s.sigma) :
    0 < (update m e p s xs).sigma :=
  mul_pos hs (hm.exp_pos _)

theorem aupdate_sigma_pos [IsStrictOrderedRing K] (hm : m.Lawful) (hmax : 0 < p.deltamaxsigma)
    (hs : 0 < s.sigma) : 0 < (aupdate m e p s xs).sigma :=
  mul_pos hs (lt_min hmax (hm.exp_pos _))

theorem kept_le [IsStrictOrderedRing K] (hp : p.Rates) (h : Bool) :
    1 - p.c1 - p.cmu ≤ 1 - p.c1 - p.cmu + (1 - h.toNat) * p.c1 * p.cc * (2.0 - p.cc) := by
  have hc1 := hp.c1_mem.1
  obtain ⟨hcc, hcc'⟩ := hp.cc_mem
  have hpos : 0 < p.c1 * p.cc * (2.0 - p.cc) :=
    mul_pos (mul_pos hc1 hcc) (by linarith)
  cases h <;> simp [hpos.le]

variable [StarRing K] [StarOrderedRing K]

theorem posSemidef_outers_mu (hp : p.Rates) (s : Distribution K n) (xs : List (Fin n → K)) :
    PosSemidef ((1 / (s.sigma * s.sigma)) •
      outers p.weights (xs.map fun x => x - s.xmean)) :=
  (posSemidef_outers (fun w hw => (hp.weights_pos w hw).le) _).smul
    (one_div_nonneg.mpr (mul_self_nonneg _))

theorem posSemidef_update (hp : p.Rates) (hs : s.cov.PosSemidef) :
    PosSemidef (update m e p s xs).cov := by
  have hkept : 0 ≤ 1 - p.c1 - p.cmu := by linarith [hp.cmu_mem.2]
  exact ((hs.smul (hkept.trans (kept_le hp _))).add
    ((posSemidef_outer _).smul hp.c1_mem.1.le)).add
    ((posSemidef_outers_mu hp s xs).smul hp.cmu_mem.1)

theorem update_posDef (hp : p.Rates) (hlt : p.c1 + p.cmu < 1)
    (hs : s.cov.PosDef) : (update m e p s xs).cov.PosDef := by
  have hkept : 0 < 1 - p.c1 - p.cmu := by linarith
  have hc1 := hs.smul (hkept.trans_le (kept_le hp (update m e p s xs).hsig))
  exact PosDef.add_posSemidef
    (PosDef.add_posSemidef hc1 ((posSemidef_outer _).smul hp.c1_mem.1.le))
    ((posSemidef_outers_mu hp s xs).smul hp.cmu_mem.1)

/-- What the active update needs beside the rates. -/
structure Active (p : UpdateParameters K) : Prop extends p.Rates where
  cm : p.cm = 1
  alphacov_nonneg : 0 ≤ p.alphacov
  alphaminusold_mem : 0 ≤ p.alphaminusold ∧ p.alphaminusold ≤ 1
  target_nonneg : 0 ≤ p.alphaminusmin * (1 - p.cmu) * (1 - p.lambdamintarget)
  target_lt : p.alphaminusmin * (1 - p.cmu) * (1 - p.lambdamintarget) < 1 - p.c1 - p.cmu
  deltamaxsigma_pos : 0 < p.deltamaxsigma
  eager : p.lazyUpdate = false

variable {l : K}

omit [StarRing K] [StarOrderedRing K] in
theorem cminus_nonneg [IsStrictOrderedRing K] (hm : m.Lawful) (hp : Active p) (hl : 0 ≤ l) :
    0 ≤ cminus m p l := by
  have hcmu : 0 ≤ 1 - p.cmu := by linarith [hp.cmu_mem.2, hp.c1_mem.1]
  have hmuw := hp.muw_mem.1
  have hpow := hm.pow_pos (p.dim + 2.0) 1.5 (by positivity)
  have hbound : 0 ≤ (1 - p.cmu) * p.alphacov / 8.0 *
      (p.muw / (m.pow (p.dim + 2.0) 1.5 + 2.0 * p.muw)) :=
    mul_nonneg (div_nonneg (mul_nonneg hcmu hp.alphacov_nonneg) (by norm_num))
      (div_nonneg (by linarith) (by linarith))
  rw [cminus]
  split_ifs
  · exact hbound
  · exact le_min (div_nonneg hp.target_nonneg hl) hbound

omit [StarRing K] [StarOrderedRing K] in
theorem cminus_mul_le [IsStrictOrderedRing K] (hp : Active p) (hl : 0 ≤ l) :
    cminus m p l * l ≤ p.alphaminusmin * (1 - p.cmu) * (1 - p.lambdamintarget) := by
  rw [cminus]
  split_ifs with h
  · rw [h, mul_zero]
    exact hp.target_nonneg
  · have hpos : 0 < l := lt_of_le_of_ne hl (Ne.symm h)
    exact (mul_le_mul_of_nonneg_right (min_le_left _ _) hl).trans_eq (div_mul_cancel₀ _ h)

theorem aupdate_posDef (hm : m.Lawful) (he : e.Lawful) (hn : 0 < n) (hp : Active p)
    (hupdated : s.updatedEigen) (hcovar : s.covar = s.cov) (hs : s.cov.PosDef) :
    (aupdate m e p s xs).cov.PosDef := by
  have := Fin.pos_iff_nonempty.mp hn
  set A := outers p.weights (xs.reverse.map fun x => (1 / s.sigma) • (x - s.xmean)) with hA
  set S := e.operatorInverseSqrt s.cov with hS
  have hSherm : S.IsHermitian := he.inverseSqrt_isHermitian _ hs
  have hpsd : PosSemidef (S * A * S) := by
    have := (posSemidef_outers (fun w hw => (hp.weights_pos w hw).le)
      (xs.reverse.map fun x => (1 / s.sigma) • (x - s.xmean))).mul_mul_conjTranspose_same S
    rwa [hSherm] at this
  have hbound := he.le_maxEigenvalue _ hpsd.isHermitian
  have hl := bound_nonneg hpsd hbound
  set c := cminus m p (e.maxEigenvalue (S * A * S)) with hc
  have hc0 : 0 ≤ c := cminus_nonneg hm hp hl
  have hdown : ((1 - p.c1 - p.cmu + c * p.alphaminusold) • s.cov - c • A).PosDef := by
    refine downdate_posDef hs (posSemidef_smul_sub hSherm (he.inverseSqrt_mul _ hs) hbound) hc0 ?_
    have hold := mul_nonneg hc0 hp.alphaminusold_mem.1
    linarith [cminus_mul_le (m := m) hp hl, hp.target_lt]
  have hplus : 0 ≤ p.cmu + c * (1 - p.alphaminusold) :=
    add_nonneg hp.cmu_mem.1 (mul_nonneg hc0 (sub_nonneg.mpr hp.alphaminusold_mem.2))
  have hone : PosSemidef (p.c1 • vecMulVec (aupdate m e p s xs).pc (aupdate m e p s xs).pc) :=
    (posSemidef_outer _).smul hp.c1_mem.1.le
  have hsum := PosDef.add_posSemidef (PosDef.add_posSemidef hdown hone)
    ((posSemidef_outers_mu hp.toRates s xs).smul hplus)
  convert hsum using 1
  simp only [aupdate, updatePaths, hupdated, if_true, hcovar]
  rw [← hA, ← hS, ← hc]
  abel

variable {xss : List (List (Fin n → K))}

omit [StarRing K] [StarOrderedRing K] in
theorem generation_eq_some
    {f : Distribution K n → List (Fin n → K) → Distribution K n} :
    generation p f s xs = some t ↔ xs.length = p.lambda ∧
      { f (s.decompose p) xs with niter := (f (s.decompose p) xs).niter + 1 } = t := by
  rw [generation, Option.ite_none_right_eq_some, Option.some.injEq]

omit [StarRing K] [StarOrderedRing K] in
theorem exists_generation (f : Distribution K n → List (Fin n → K) → Distribution K n)
    (s : Distribution K n) (h : xs.length = p.lambda) : ∃ t, generation p f s xs = some t :=
  ⟨_, generation_eq_some.mpr ⟨h, rfl⟩⟩

omit [StarRing K] [StarOrderedRing K] in
theorem run_singleton {f : Distribution K n → List (Fin n → K) → Distribution K n}
    (h : xs.length = p.lambda) : ∃ t, run (generation p f) s [xs] = some t :=
  (exists_generation f s h).imp fun t ht => run_cons.mpr ⟨t, ht, run_nil⟩

omit [StarRing K] [StarOrderedRing K] in
theorem decompose_fields (p : UpdateParameters K) (s : Distribution K n) :
    (s.decompose p).cov = s.cov ∧ (s.decompose p).sigma = s.sigma ∧
      (s.decompose p).xmean = s.xmean := by
  rw [decompose]
  split_ifs <;> exact ⟨rfl, rfl, rfl⟩

omit [StarRing K] [StarOrderedRing K] in
theorem decompose_eager (h : p.lazyUpdate = false) (s : Distribution K n) :
    (s.decompose p).updatedEigen ∧ (s.decompose p).covar = (s.decompose p).cov := by
  rw [decompose, if_pos (by simp [h])]
  exact ⟨rfl, rfl⟩

omit [StarRing K] [StarOrderedRing K] in
theorem xmean_mem_of_run {f : Distribution K n → List (Fin n → K) → Distribution K n}
    {a b : Fin n → K} (hf : ∀ s xs, xs.length = p.lambda → (∀ x ∈ xs, x ∈ Set.Icc a b) →
      (f s xs).xmean ∈ Set.Icc a b)
    (hs : s.xmean ∈ Set.Icc a b) (hxss : ∀ xs ∈ xss, ∀ x ∈ xs, x ∈ Set.Icc a b)
    (h : run (generation p f) s xss = some t) : t.xmean ∈ Set.Icc a b := by
  have hstep (s xs t) (hxs : ∀ x ∈ xs, x ∈ Set.Icc a b) (_ : s.xmean ∈ Set.Icc a b)
      (hst : generation p f s xs = some t) : t.xmean ∈ Set.Icc a b := by
    obtain ⟨hlen, rfl⟩ := generation_eq_some.mp hst
    exact hf _ xs hlen hxs
  exact (invariant_of_meets hstep hs (meets_of_forall hxss) h :)

theorem run_update (hm : m.Lawful) (hp : p.Rates) (hsigma : 0 < s.sigma)
    (hs : s.cov.PosSemidef) (h : run (generation p (update m e p)) s xss = some t) :
    0 < t.sigma ∧ t.cov.PosSemidef := by
  have hstep (s xs t) (hs : 0 < s.sigma ∧ s.cov.PosSemidef)
      (hst : generation p (update m e p) s xs = some t) : 0 < t.sigma ∧ t.cov.PosSemidef := by
    obtain ⟨-, rfl⟩ := generation_eq_some.mp hst
    obtain ⟨hcov, hsigma, -⟩ := decompose_fields p s
    exact ⟨update_sigma_pos hm (hsigma ▸ hs.1), posSemidef_update hp (hcov ▸ hs.2)⟩
  exact (invariant hstep ⟨hsigma, hs⟩ h :)

theorem run_update_posDef (hp : p.Rates) (hlt : p.c1 + p.cmu < 1) (hs : s.cov.PosDef)
    (h : run (generation p (update m e p)) s xss = some t) : t.cov.PosDef := by
  have hstep (s xs t) (hs : s.cov.PosDef)
      (hst : generation p (update m e p) s xs = some t) : t.cov.PosDef := by
    obtain ⟨-, rfl⟩ := generation_eq_some.mp hst
    exact update_posDef hp hlt ((decompose_fields p s).1 ▸ hs)
  exact (invariant hstep hs h :)

theorem run_aupdate (hm : m.Lawful) (he : e.Lawful) (hn : 0 < n) (hp : Active p)
    (hsigma : 0 < s.sigma) (hs : s.cov.PosDef)
    (h : run (generation p (aupdate m e p)) s xss = some t) :
    0 < t.sigma ∧ t.cov.PosDef := by
  have hstep (s xs t) (hs : 0 < s.sigma ∧ s.cov.PosDef)
      (hst : generation p (aupdate m e p) s xs = some t) : 0 < t.sigma ∧ t.cov.PosDef := by
    obtain ⟨-, rfl⟩ := generation_eq_some.mp hst
    obtain ⟨hcov, hsigma, -⟩ := decompose_fields p s
    obtain ⟨hupdated, hcovar⟩ := decompose_eager hp.eager s
    exact ⟨aupdate_sigma_pos hm hp.deltamaxsigma_pos (hsigma ▸ hs.1),
      aupdate_posDef hm he hn hp hupdated hcovar (hcov ▸ hs.2)⟩
  exact (invariant hstep ⟨hsigma, hs⟩ h :)

theorem ofParameters_sigma_pos (hdim : 0 < p.dim) (x0 : Fin n → K) :
    0 < (ofParameters p x0).sigma := by
  rw [ofParameters]
  dsimp only
  split_ifs with h
  · exact h
  · positivity

noncomputable def parameters (dim : ℕ) (lambda : ℤ) (sigma : ℝ) (lazyUpdate : Bool) :
    UpdateParameters ℝ :=
  (UpdateParameters.initializeParameters CMath.real dim
    (UpdateParameters.lambdaOf CMath.real dim lambda) sigma).setLazyUpdate lazyUpdate

section Constructed

variable {dim : ℕ} {l : ℤ} {s : ℝ} {z : Bool} {e : EigenSolver ℝ dim}
  {x0 : Fin dim → ℝ} {xss : List (List (Fin dim → ℝ))} {t : Distribution ℝ dim}

theorem parameters_rates (hdim : 0 < dim) : (parameters dim l s z).Rates := by
  have h := UpdateParameters.initializeParameters_rates_of (s := s) CMath.real_lawful hdim
    (UpdateParameters.lambdaOf_mem (l := l) hdim).1
  exact ⟨h.1, h.2, h.3, h.4, h.5, h.6, h.7, h.8, h.9, h.10⟩

theorem doubleMax_pos : 0 < (UpdateParameters.doubleMax : ℝ) :=
  mul_pos (sub_pos.mpr (one_lt_pow₀ (by norm_num) (by norm_num))) (pow_pos (by norm_num) _)

theorem parameters_active (hdim : 0 < dim) (hle : l ≤ dim + 4) :
    Active (parameters dim l s false) := by
  obtain ⟨htwo, hsmall⟩ := UpdateParameters.lambdaOf_mem (l := l) hdim
  have hp := parameters_rates (l := l) (s := s) (z := false) hdim
  have hlt := UpdateParameters.c1_lt_of_le (s := s) CMath.real_lawful hdim htwo (hsmall hle)
  have hcmu : 0 ≤ 1 - (parameters dim l s false).cmu := by
    linarith [hp.cmu_mem.2, hp.c1_mem.1]
  have htarget : (parameters dim l s false).c1 <
    0.66 * (1 - (parameters dim l s false).cmu) := hlt
  have heq : (parameters dim l s false).alphaminusmin *
      (1 - (parameters dim l s false).cmu) *
      (1 - (parameters dim l s false).lambdamintarget) =
      (1 - (parameters dim l s false).cmu) * (1 - 0.66) := by
    rw [show (parameters dim l s false).alphaminusmin = 1 from rfl, one_mul]
    rfl
  exact
    { toRates := hp
      cm := rfl
      alphacov_nonneg := by
        rw [show (parameters dim l s false).alphacov = 2.0 from rfl]
        norm_num
      alphaminusold_mem := by
        rw [show (parameters dim l s false).alphaminusold = 0.5 from rfl]
        norm_num
      target_nonneg := by
        rw [heq]
        exact mul_nonneg hcmu (by norm_num)
      target_lt := by
        rw [heq]
        linarith
      deltamaxsigma_pos := doubleMax_pos
      eager := rfl }

noncomputable def lineSolver : EigenSolver ℝ 1 where
  operatorInverseSqrt C := fun _ _ => 1 / Real.sqrt (C 0 0)
  maxEigenvalue A := A 0 0

theorem lineSolver_lawful : lineSolver.Lawful where
  inverseSqrt_isHermitian C _ := by
    ext i j
    rfl
  inverseSqrt_mul C hC := by
    have hpos : 0 < C 0 0 := hC.diag_pos
    have hsqrt : Real.sqrt (C 0 0) ≠ 0 := (Real.sqrt_pos.mpr hpos).ne'
    ext i j
    obtain rfl := Subsingleton.elim i 0
    obtain rfl := Subsingleton.elim j 0
    rw [Matrix.mul_apply, Fin.sum_univ_one, Matrix.mul_apply, Fin.sum_univ_one, one_apply_eq]
    show 1 / Real.sqrt (C 0 0) * C 0 0 * (1 / Real.sqrt (C 0 0)) = 1
    field_simp
    exact (Real.sq_sqrt hpos.le).symm
  le_maxEigenvalue A _ := by
    have hzero : lineSolver.maxEigenvalue A • (1 : Matrix (Fin 1) (Fin 1) ℝ) - A = 0 := by
      ext i j
      obtain rfl := Subsingleton.elim i 0
      obtain rfl := Subsingleton.elim j 0
      simp [lineSolver]
    rw [hzero]
    exact .zero

/-- Whatever the decompositions give. -/
theorem covarianceUpdate_run (hdim : 0 < dim)
    (h : run (generation (parameters dim l s z)
      (update CMath.real e (parameters dim l s z)))
      (ofParameters (parameters dim l s z) x0) xss = some t) :
    0 < t.sigma ∧ t.cov.PosSemidef ∧
      ∀ a b, x0 ∈ Set.Icc a b → (∀ xs ∈ xss, ∀ x ∈ xs, x ∈ Set.Icc a b) →
        t.xmean ∈ Set.Icc a b := by
  have hp := parameters_rates (l := l) (s := s) (z := z) hdim
  obtain ⟨hsigma, hcov⟩ := run_update CMath.real_lawful hp (ofParameters_sigma_pos hdim x0)
    PosSemidef.one h
  exact ⟨hsigma, hcov, fun a b hx0 hxss =>
    xmean_mem_of_run (fun _ _ => update_xmean_mem hp) hx0 hxss h⟩

theorem chi_pos (hdim : 0 < dim) : 0 < (parameters dim l s z).chi := by
  have hd : (1 : ℝ) ≤ dim := by exact_mod_cast hdim
  have hquarter : 1 / (4 * (dim : ℝ)) ≤ 1 / 4 := by
    rw [div_le_div_iff₀ (by positivity) (by positivity)]
    linarith
  have hthird : 0 ≤ 1 / (21 * (dim : ℝ) * dim) := by positivity
  have hsqrt : 0 < Real.sqrt dim := Real.sqrt_pos.mpr (by positivity)
  exact mul_pos hsqrt (by linarith)

theorem valForHsig_pos (hdim : 0 < dim) (k : ℕ) :
    0 < valForHsig CMath.real (parameters dim l s z) k := by
  obtain ⟨hlow, hhigh⟩ := (parameters_rates (l := l) (s := s) (z := z) hdim).csigma_mem
  refine mul_pos (mul_pos (Real.sqrt_pos.mpr ?_) (by positivity)) (chi_pos hdim)
  exact sub_pos.mpr (pow_lt_one₀ (by linarith) (by linarith) (by omega))

theorem covarianceUpdate_run_one : ∃ t : Distribution ℝ 1,
    run (generation (parameters 1 4 1 false) (update CMath.real lineSolver
      (parameters 1 4 1 false))) (ofParameters (parameters 1 4 1 false) fun _ => 0)
      [[fun _ => 1, fun _ => 0, fun _ => 2, fun _ => 3]] = some t ∧
    0 < t.sigma ∧ t.cov.PosSemidef ∧ t.xmean ∈ Set.Icc (fun _ => 0) (fun _ => 3) := by
  refine (run_singleton ?_).imp fun t ht => ⟨ht, ?_⟩
  · rfl
  obtain ⟨hsigma, hcov, hmean⟩ := covarianceUpdate_run one_pos ht
  refine ⟨hsigma, hcov, hmean _ _ ?_ ?_⟩
  · exact ⟨le_rfl, fun _ => by norm_num⟩
  · simp only [List.forall_mem_cons, Set.mem_Icc, Pi.le_def]
    norm_num

/-- A generation in which all points are the first mean leaves nothing. -/
theorem update_replicate (hdim : 0 < dim)
    (hfull : (parameters dim l s z).c1 + (parameters dim l s z).cmu = 1) :
    (update CMath.real e (parameters dim l s z)
      ((ofParameters (parameters dim l s z) x0).decompose (parameters dim l s z))
      (List.replicate (parameters dim l s z).lambda x0)).cov = 0 := by
  have hp := parameters_rates (l := l) (s := s) (z := z) hdim
  set p := parameters dim l s z with hpdef
  set u := (ofParameters p x0).decompose p with hu
  have hmean : (update CMath.real e p u (List.replicate p.lambda x0)).xmean = x0 := by
    have hxs : ∀ x ∈ List.replicate p.lambda x0, x ∈ Set.Icc x0 x0 := by
      intro x hx
      rw [List.eq_of_mem_replicate hx, Set.Icc_self]
      rfl
    have := update_xmean_mem (m := CMath.real) (e := e) (s := u) hp List.length_replicate hxs
    rwa [Set.Icc_self] at this
  have hdiff : (List.zipWith (fun w x => w • x) p.weights (List.replicate p.lambda x0)).sum
      - u.xmean = 0 := by
    rw [sub_eq_zero, (decompose_fields p _).2.2]
    exact hmean
  have hpsigma : u.psigma = 0 := by
    rw [hu, decompose]
    split_ifs <;> rfl
  have hpc : u.pc = 0 := by
    rw [hu, decompose]
    split_ifs <;> rfl
  have hval := valForHsig_pos (l := l) (s := s) (z := z) hdim u.niter
  have hwdiff : outers p.weights
      ((List.replicate p.lambda x0).map fun x => x - u.xmean) = 0 := by
    refine outers_zero _ fun y hy => ?_
    obtain ⟨x, hx, rfl⟩ := List.mem_map.mp hy
    rw [List.eq_of_mem_replicate hx, (decompose_fields p _).2.2]
    exact sub_self x0
  have hnorm : norm CMath.real (0 : Fin dim → ℝ) < valForHsig CMath.real p u.niter := by
    rw [norm, dotProduct_zero, show CMath.real.sqrt 0 = 0 from Real.sqrt_zero]
    exact hval
  simp only [update, updatePaths, hdiff, smul_zero, mulVec_zero, hpsigma, hpc, hwdiff, add_zero,
    hnorm, decide_true, zero_vecMulVec, Bool.toNat_true, Nat.cast_one, sub_self, zero_mul]
  rw [show 1 - p.c1 - p.cmu = 0 by linarith, zero_smul]

theorem covarianceUpdate_posDef_iff (hdim : 0 < dim) :
    (∀ xss t, run (generation (parameters dim l s z)
      (update CMath.real e (parameters dim l s z)))
      (ofParameters (parameters dim l s z) x0) xss = some t → t.cov.PosDef) ↔
    (parameters dim l s z).c1 + (parameters dim l s z).cmu
      < 1 := by
  have hp := parameters_rates (l := l) (s := s) (z := z) hdim
  constructor
  · intro h
    by_contra hge
    have hfull := le_antisymm (by linarith [hp.cmu_mem.2]) (not_lt.mp hge)
    have hpos := h [List.replicate _ x0] _
      (run_cons.mpr ⟨_, generation_eq_some.mpr ⟨List.length_replicate, rfl⟩, rfl⟩)
    have hdiag := hpos.diag_pos (i := ⟨0, hdim⟩)
    rw [update_replicate hdim hfull] at hdiag
    exact lt_irrefl _ hdiag
  · exact fun hlt xss t h => run_update_posDef hp hlt PosDef.one h

theorem covarianceUpdate_posDef_one : ∃ t : Distribution ℝ 1,
    run (generation (parameters 1 4 1 true) (update CMath.real lineSolver
      (parameters 1 4 1 true))) (ofParameters (parameters 1 4 1 true) fun _ => 0)
      [[fun _ => 1, fun _ => 0, fun _ => 2, fun _ => 3]] = some t ∧ t.cov.PosDef := by
  refine (run_singleton ?_).imp fun t ht => ⟨ht, ?_⟩
  · rfl
  refine (covarianceUpdate_posDef_iff one_pos).mpr ?_ _ _ ht
  have hp := parameters_active (l := 4) (s := 1) one_pos (by norm_num)
  have hlt : (parameters 1 4 1 false).c1 + (parameters 1 4 1 false).cmu < 1 := by
    linarith [hp.target_lt, hp.target_nonneg]
  exact hlt

end Constructed

end Distribution

end CmaesSolenoid.Libcmaes

import Mathlib.Analysis.Real.Sqrt
import CmaesSolenoid.PwqBounds

/-!
# `libcmaes`: from genotype to phenotype

`GenoPheno` with bounds: a function of the user, then the bounds, then a linear scaling.
Whatever a search samples, what it evaluates is within the bounds of the user, and each
point within them has a genotype.
-/

namespace CmaesSolenoid.Libcmaes
open Folding

variable {K : Type} [Field K] [LinearOrder K] [IsStrictOrderedRing K] {n : ℕ}

theorem intmin_lt_intmax : (0 : K) < 10 := by norm_num

/-- `_scaling[i]` and `_shift[i]`. A negative scaling would swap the bounds. -/
structure LinScaling (K : Type) [Zero K] [LT K] where
  scaling : K
  shift : K
  scaling_pos : 0 < scaling

namespace LinScaling

variable (s : LinScaling K) (b : PwqBound K)

def scaleToInternal (y : K) : K := y * s.scaling + s.shift

def scaleToF (x : K) : K := (x - s.shift) / s.scaling

/-- `compute_scaling` onto the interval from `_intmin`, 0, to `_intmax`, 10. -/
def computeScaling : LinScaling K where
  scaling := (10 - 0) / (b.ubounds - b.lbounds)
  shift := 10 - (10 - 0) / (b.ubounds - b.lbounds) * b.ubounds
  scaling_pos := div_pos (sub_pos.mpr intmin_lt_intmax) (sub_pos.mpr b.lt)

omit [IsStrictOrderedRing K] in
theorem scaleToF_scaleToInternal (y : K) : s.scaleToF (s.scaleToInternal y) = y := by
  rw [scaleToF, scaleToInternal, add_sub_cancel_right, mul_div_cancel_right₀ _ s.scaling_pos.ne']

omit [IsStrictOrderedRing K] in
theorem scaleToInternal_scaleToF (x : K) : s.scaleToInternal (s.scaleToF x) = x := by
  rw [scaleToF, scaleToInternal, div_mul_cancel₀ _ s.scaling_pos.ne', sub_add_cancel]

theorem scaleToF_le_iff {x x' : K} : s.scaleToF x ≤ s.scaleToF x' ↔ x ≤ x' := by
  rw [scaleToF, scaleToF, div_le_div_iff_of_pos_right s.scaling_pos, sub_le_sub_iff_right]

theorem scaleToInternal_lt {y y' : K} (h : y < y') :
    s.scaleToInternal y < s.scaleToInternal y' := by
  rw [scaleToInternal, scaleToInternal, add_lt_add_iff_right]
  exact mul_lt_mul_of_pos_right h s.scaling_pos

theorem scaleToF_computeScaling :
    (computeScaling b).scaleToF 0 = b.lbounds ∧ (computeScaling b).scaleToF 10 = b.ubounds := by
  have hpos := sub_pos.mpr b.lt
  constructor
  · rw [scaleToF, computeScaling, div_eq_iff (div_pos (by norm_num) hpos).ne']
    field_simp
    ring
  · rw [scaleToF, computeScaling, div_eq_iff (div_pos (by norm_num) hpos).ne']
    field_simp
    ring

end LinScaling

def rows (f : Fin n → Option K) : Option (Fin n → K) :=
  if h : ∀ i, (f i).isSome then some fun i => (f i).get (h i) else none

omit [Field K] [LinearOrder K] [IsStrictOrderedRing K] in
theorem rows_eq_some {f : Fin n → Option K} {y : Fin n → K} :
    rows f = some y ↔ ∀ i, f i = some (y i) := by
  rw [rows]
  split_ifs with h
  · rw [Option.some.injEq, funext_iff]
    apply forall_congr'
    intro i
    obtain ⟨v, hv⟩ := Option.isSome_iff_exists.mp (h i)
    simp only [hv, Option.get_some, Option.some.injEq]
  · refine iff_of_false (by simp) fun hall => h fun i => ?_
    rw [hall i]
    rfl

structure Transform (n : ℕ) (K : Type) where
  genof : (Fin n → K) → Fin n → K
  phenof : (Fin n → K) → Fin n → K

/-- Without a transform `_id` is set, and without a scaling that of the strategy. -/
structure GenoPheno (n : ℕ) (K : Type) [Zero K] [LT K] where
  boundstrategy : Fin n → PwqBound K
  transform : Option (Transform n K)
  scalingstrategy : Option (Fin n → LinScaling K)

namespace GenoPheno

def ofBounds (scaled : Bool) (transform : Option (Transform n K)) (b : Fin n → PwqBound K) :
    GenoPheno n K :=
  if scaled then
    ⟨fun _ => ⟨0, 10, intmin_lt_intmax⟩, transform, some fun i => .computeScaling (b i)⟩
  else ⟨b, transform, none⟩

def ofScaling (s : Fin n → LinScaling K) (b : Fin n → PwqBound K) : GenoPheno n K where
  boundstrategy i := ⟨(s i).scaleToInternal (b i).lbounds, (s i).scaleToInternal (b i).ubounds,
    (s i).scaleToInternal_lt (b i).lt⟩
  transform := none
  scalingstrategy := some s

variable (gp : GenoPheno n K)

def applyPhenof (x : Fin n → K) : Fin n → K :=
  match gp.transform with
  | none => x
  | some f => f.phenof x

def applyGenof (x : Fin n → K) : Fin n → K :=
  match gp.transform with
  | none => x
  | some f => f.genof x

def scaleToF (x : Fin n → K) : Fin n → K :=
  match gp.scalingstrategy with
  | none => x
  | some s => fun i => (s i).scaleToF (x i)

def scaleToInternal (y : Fin n → K) : Fin n → K :=
  match gp.scalingstrategy with
  | none => y
  | some s => fun i => (s i).scaleToInternal (y i)

def geno (sqrt : K → K) (y : Fin n → K) : Fin n → K :=
  gp.applyGenof fun i =>
    (gp.boundstrategy i).toInternalRepresentation sqrt (gp.scaleToInternal y i)

/-- The constructor of `CMASolutions` scales `x0` and does not take it through the bounds. -/
def initialMean (x0 : Fin n → K) : Fin n → K := gp.scaleToInternal x0

section

variable [FloorRing K]

def toFRepresentation (x : Fin n → K) : Option (Fin n → K) :=
  rows fun i => (gp.boundstrategy i).toFRepresentation (x i)

def pheno (x : Fin n → K) : Option (Fin n → K) :=
  (gp.toFRepresentation (gp.applyPhenof x)).map gp.scaleToF

def phenoColumns (candidates : List (Fin n → K)) : Option (List (Fin n → K)) :=
  ((candidates.map gp.applyPhenof).mapM gp.toFRepresentation).map fun ys => ys.map gp.scaleToF

end

omit [IsStrictOrderedRing K] in
theorem scaleToF_eq_iff {z y : Fin n → K} : gp.scaleToF z = y ↔ z = gp.scaleToInternal y := by
  rw [scaleToF, scaleToInternal]
  cases gp.scalingstrategy with
  | none => rfl
  | some s =>
    constructor
    · rintro rfl
      funext i
      exact ((s i).scaleToInternal_scaleToF (z i)).symm
    · rintro rfl
      funext i
      exact (s i).scaleToF_scaleToInternal (y i)

theorem scaleToF_le_iff (z z' : Fin n → K) (i : Fin n) :
    gp.scaleToF z i ≤ gp.scaleToF z' i ↔ z i ≤ z' i := by
  rw [scaleToF, scaleToF]
  cases gp.scalingstrategy with
  | none => rfl
  | some s => exact (s i).scaleToF_le_iff

inductive Constructed (b : Fin n → PwqBound K) : GenoPheno n K → Prop
  | ofBounds (scaled : Bool) (transform : Option (Transform n K)) :
    Constructed b (.ofBounds scaled transform b)
  | ofScaling (s : Fin n → LinScaling K) : Constructed b (.ofScaling s b)

variable {gp} {b : Fin n → PwqBound K} {x y : Fin n → K} {sqrt : K → K}

theorem Constructed.bounds (h : Constructed b gp) :
    gp.scaleToF (fun i => (gp.boundstrategy i).lbounds) = (fun i => (b i).lbounds) ∧
      gp.scaleToF (fun i => (gp.boundstrategy i).ubounds) = fun i => (b i).ubounds := by
  cases h with
  | ofBounds scaled transform =>
    cases scaled with
    | false => exact ⟨rfl, rfl⟩
    | true =>
      constructor
      · funext i
        exact (LinScaling.scaleToF_computeScaling (b i)).1
      · funext i
        exact (LinScaling.scaleToF_computeScaling (b i)).2
  | ofScaling s =>
    constructor
    · funext i
      exact (s i).scaleToF_scaleToInternal _
    · funext i
      exact (s i).scaleToF_scaleToInternal _

theorem Constructed.mem_iff (h : Constructed b gp) (y : Fin n → K) (i : Fin n) :
    (gp.boundstrategy i).lbounds ≤ gp.scaleToInternal y i ∧
        gp.scaleToInternal y i ≤ (gp.boundstrategy i).ubounds ↔
      (b i).lbounds ≤ y i ∧ y i ≤ (b i).ubounds := by
  obtain ⟨hlo, hhi⟩ := h.bounds
  have hy : gp.scaleToF (gp.scaleToInternal y) = y := gp.scaleToF_eq_iff.mpr rfl
  have hlo' := gp.scaleToF_le_iff (fun i => (gp.boundstrategy i).lbounds)
    (gp.scaleToInternal y) i
  have hhi' := gp.scaleToF_le_iff (gp.scaleToInternal y)
    (fun i => (gp.boundstrategy i).ubounds) i
  rw [hlo, hy] at hlo'
  rw [hhi, hy] at hhi'
  rw [← hlo', ← hhi']

variable [FloorRing K]

omit [IsStrictOrderedRing K] in
theorem pheno_eq_some : gp.pheno x = some y ↔ ∀ i,
    (gp.boundstrategy i).toFRepresentation (gp.applyPhenof x i) =
      some (gp.scaleToInternal y i) := by
  rw [pheno, Option.map_eq_some_iff]
  simp only [scaleToF_eq_iff]
  rw [exists_eq_right, toFRepresentation, rows_eq_some]

theorem isSqrt_real : PwqBound.IsSqrt Real.sqrt :=
  fun x hx => ⟨x.sqrt_nonneg, Real.mul_self_sqrt hx⟩

/-- Each point within the bounds of the user has a genotype, if the functions of the user are the
inverse of each other. -/
theorem Constructed.pheno_geno (h : Constructed b gp) (hsqrt : PwqBound.IsSqrt sqrt)
    (hf : ∀ f, gp.transform = some f → ∀ v, f.phenof (f.genof v) = v)
    (hy : ∀ i, (b i).lbounds ≤ y i ∧ y i ≤ (b i).ubounds) : gp.pheno (gp.geno sqrt y) = some y := by
  have happly (v : Fin n → K) : gp.applyPhenof (gp.applyGenof v) = v := by
    rw [applyPhenof, applyGenof]
    cases htransform : gp.transform with
    | none => rfl
    | some f => exact hf f htransform v
  rw [pheno_eq_some]
  intro i
  obtain ⟨hlo, hhi⟩ := (h.mem_iff y i).mpr (hy i)
  obtain ⟨hlo', hhi', -⟩ := (gp.boundstrategy i).toInternal_spec hsqrt hlo hhi
  rw [geno, happly, (gp.boundstrategy i).toFRepresentation_iff hsqrt]
  exact ⟨(gp.boundstrategy i).inReach_of_mem hlo' hhi', hlo, hhi, Folds.self hlo' hhi'⟩

theorem pheno_geno_one :
    (ofBounds true none fun _ : Fin 1 => (⟨0, 2, two_pos⟩ : PwqBound ℝ)).pheno
      ((ofBounds true none fun _ : Fin 1 => ⟨0, 2, two_pos⟩).geno Real.sqrt fun _ => 1) =
        some fun _ => 1 :=
  (Constructed.ofBounds true none).pheno_geno isSqrt_real (fun _ h => nomatch h)
    fun _ => ⟨zero_le_one, one_le_two⟩

omit [IsStrictOrderedRing K] in
/-- A matrix is transformed as its columns are. -/
theorem phenoColumns_eq (candidates : List (Fin n → K)) :
    gp.phenoColumns candidates = candidates.mapM gp.pheno := by
  induction candidates with
  | nil => rfl
  | cons x xs ih =>
    rw [List.mapM_cons, ← ih]
    simp only [phenoColumns, pheno, List.map_cons, List.mapM_cons]
    cases gp.toFRepresentation (gp.applyPhenof x) with
    | none => rfl
    | some y => cases (xs.map gp.applyPhenof).mapM gp.toFRepresentation <;> rfl

end GenoPheno

end CmaesSolenoid.Libcmaes

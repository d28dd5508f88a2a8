import CmaesSolenoid.CmaSolutions

/-!
# The two searches

`do_2dcmaes` searches PWM range and duty, and `fsphere3d` hands the value of such a
search to the search over range, duty and step size. Point and value are taken from
two different records of the run.
-/

namespace CmaesSolenoid
open Libcmaes

/-- A vector of two or three `double`: `alpha` is there when `dim > 2`. -/
structure Point where
  pwmRange : ℚ
  pwmDuty : ℚ
  alpha : Option ℚ
  deriving DecidableEq, Repr

def maxRange : ℚ := 4095
def minRange : ℚ := 2
def maxDuty : ℚ := 4095
def minDuty : ℚ := 2
def maxSigma : ℚ := maxRange / 2
def minSigma : ℚ := 1 / 1000

/-- `if (x > MAX) x = MAX; else if (x < MIN) x = MIN;` -/
def limit (lo hi x : ℚ) : ℚ := if x > hi then hi else if x < lo then lo else x

def phenof (p : Point) : Point where
  pwmRange := limit minRange maxRange p.pwmRange
  pwmDuty := limit minDuty maxDuty p.pwmDuty
  alpha := p.alpha.map (limit minSigma maxSigma)

variable {F : Type} [Fitness F]

/-- `libcmaes` chooses the size of a population. -/
def params2d (lambda : ℕ) (maximize : Bool) : CMAParameters where
  dim := 2
  lambda := lambda
  maxHist := -1
  maximize := maximize

def params3d (lambda : ℕ) (maximize : Bool) : CMAParameters where
  dim := 3
  lambda := lambda
  maxHist := -1
  maximize := maximize

/-- What `do_2dcmaes` and `do_3dcmaes` share, over the populations the run samples: the point
stored into `x0` and the value returned. -/
def doCmaes (p : CMAParameters) (pops : List (List (Evaluation Point F))) : Option (Point × F) := do
  let cmasols ← optimize p pops
  let seen ← cmasols.bestSeenCandidate
  -- the value comes from the history, which ends with the last generation
  let best ← cmasols.bestCandidate
  return (phenof seen.x, -best.fvalue)

def do2dcmaes (lambda : ℕ) (bMaximizeFitness : Bool) (pops : List (List (Evaluation Point F))) :
    Option (Point × F) :=
  doCmaes (params2d lambda bMaximizeFitness) pops

def do3dcmaes (lambda : ℕ) (bMaximizeFitness : Bool) (pops : List (List (Evaluation Point F))) :
    Option (Point × F) :=
  doCmaes (params3d lambda bMaximizeFitness) pops

def fsphere3d (lambda : ℕ) (gbMaximizeFitness : Bool) (pops : List (List (Evaluation Point F))) :
    Option F :=
  (do2dcmaes lambda gbMaximizeFitness pops).map Prod.snd

structure Point.InBounds (p : Point) : Prop where
  range : minRange ≤ p.pwmRange ∧ p.pwmRange ≤ maxRange
  duty : minDuty ≤ p.pwmDuty ∧ p.pwmDuty ≤ maxDuty
  alpha : ∀ a, p.alpha = some a → minSigma ≤ a ∧ a ≤ maxSigma

theorem limit_mem {lo hi : ℚ} (h : lo ≤ hi) (x : ℚ) : lo ≤ limit lo hi x ∧ limit lo hi x ≤ hi := by
  rw [limit]
  split_ifs with h1 h2
  · exact ⟨h, le_rfl⟩
  · exact ⟨le_rfl, h⟩
  · exact ⟨not_lt.mp h2, not_lt.mp h1⟩

theorem phenof_inBounds (p : Point) : (phenof p).InBounds where
  range := limit_mem (by decide +kernel) p.pwmRange
  duty := limit_mem (by decide +kernel) p.pwmDuty
  alpha := by
    intro a ha
    obtain ⟨x, -, rfl⟩ := Option.map_eq_some_iff.mp ha
    exact limit_mem (by decide +kernel) x

theorem doCmaes_inBounds {p : CMAParameters} {pops : List (List (Evaluation Point F))}
    {x0 : Point} {ret : F} (h : doCmaes p pops = some (x0, ret)) : x0.InBounds := by
  obtain ⟨s, -, h⟩ := Option.bind_eq_some_iff.mp h
  obtain ⟨seen, -, h⟩ := Option.bind_eq_some_iff.mp h
  obtain ⟨best, -, h⟩ := Option.bind_eq_some_iff.mp h
  obtain ⟨rfl, -⟩ := Prod.mk.inj (Option.some.inj h)
  exact phenof_inBounds seen.x

/-- The value returned is that of the best of the last population, and the point stored that
of the best of all of them. -/
theorem doCmaes_eq (p : CMAParameters) {pops : List (List (Evaluation Point F))}
    {pop : List (Evaluation Point F)} (hlast : pops.getLast? = some pop)
    (hpops : ∀ pop ∈ pops, pop ≠ []) :
    ∃ seen last : Evaluation Point F,
      doCmaes p pops = some (phenof seen.x, -func p last.value) ∧
      Best (fun e => func p e.value) pops.flatten seen ∧
      Best (fun e => func p e.value) pop last := by
  obtain ⟨s, hs, htracks⟩ := optimize_tracks p hpops
  obtain ⟨clast, hbest, hclast⟩ := htracks.last pop hlast
  rcases htracks.seen with ⟨-, rfl⟩ | ⟨cseen, hseen, hcseen⟩
  · cases hlast
  obtain ⟨seen, rfl, hseen'⟩ := hcseen.of_map
  obtain ⟨last, rfl, hlast'⟩ := hclast.of_map
  refine ⟨seen, last, ?_, hseen', hlast'⟩
  rw [doCmaes, hs, Option.bind_eq_bind, Option.bind_some, hseen]
  rw [Option.bind_eq_bind, Option.bind_some, hbest]
  rfl

/-- When maximising, point and value belong together and are the optimum exactly when no
earlier population measured more than the last one. -/
theorem do2dcmaes_optimum_iff (lambda : ℕ) {pops : List (List (Evaluation Point F))}
    {pop : List (Evaluation Point F)} (hlast : pops.getLast? = some pop)
    (hpops : ∀ pop ∈ pops, pop ≠ []) :
    ∃ x0 ret, do2dcmaes lambda true pops = some (x0, ret) ∧
      ((∃ e ∈ pops.flatten, x0 = phenof e.x ∧ ret = e.value ∧ ∀ e' ∈ pops.flatten, e'.value ≤ ret) ↔
        ∀ e' ∈ pops.flatten, ∃ e ∈ pop, e'.value ≤ e.value) := by
  obtain ⟨seen, last, heq, hseen, hbest⟩ := doCmaes_eq (params2d lambda true) hlast hpops
  have hfunc (v : F) : func (params2d lambda true) v = -v := rfl
  simp only [hfunc] at heq hseen hbest
  rw [neg_neg] at heq
  refine ⟨_, _, heq, ?_⟩
  have hsub : pop ⊆ pops.flatten := fun _ => List.mem_flatten_of_mem (List.mem_of_getLast? hlast)
  constructor
  · rintro ⟨e, -, -, -, hmax⟩ e' he'
    exact ⟨last, hbest.mem, hmax e' he'⟩
  · intro hall
    have hval : -seen.value = -last.value := by
      -- the last population is nowhere beaten, so its best is the best of all
      apply (hseen.value_eq_iff_of_subset hbest hsub).mpr
      intro e' he'
      obtain ⟨e, he, hle⟩ := hall e' he'
      exact ⟨e, he, Fitness.neg_le_neg_iff.mpr hle⟩
    rw [neg_inj] at hval
    refine ⟨seen, hseen.mem, rfl, hval.symm, fun e' he' => ?_⟩
    rw [← hval]
    exact Fitness.neg_le_neg_iff.mp (hseen.le e' he')

/-- Two populations of two; the best point is in the first. -/
def earlyBest : List (List (Evaluation Point ℚ)) :=
  [[⟨⟨100, 50, none⟩, 7⟩, ⟨⟨200, 60, none⟩, 9⟩], [⟨⟨5000, 1, none⟩, 8⟩, ⟨⟨300, 70, none⟩, 6⟩]]

theorem do2dcmaes_earlyBest : do2dcmaes 2 true earlyBest = some (⟨200, 60, none⟩, 8) := by
  decide +kernel

theorem do2dcmaes_optimum_iff_lateBest : ∃ x0 ret,
    do2dcmaes 2 true earlyBest.reverse = some (x0, ret) ∧
    ((∃ e ∈ earlyBest.reverse.flatten, x0 = phenof e.x ∧ ret = e.value ∧
        ∀ e' ∈ earlyBest.reverse.flatten, e'.value ≤ ret) ↔
      ∀ e' ∈ earlyBest.reverse.flatten, ∃ e ∈ earlyBest.headD [], e'.value ≤ e.value) :=
  do2dcmaes_optimum_iff 2 rfl (by decide)

theorem do2dcmaes_mismatch : ¬ ∀ (lambda : ℕ) (pops : List (List (Evaluation Point ℚ))),
    pops ≠ [] → (∀ pop ∈ pops, pop ≠ []) → ∃ x0 ret, do2dcmaes lambda true pops = some (x0, ret) ∧
      ∃ e ∈ pops.flatten, x0 = phenof e.x ∧ ret = e.value ∧
        ∀ e' ∈ pops.flatten, e'.value ≤ ret := by
  intro h
  obtain ⟨x0, ret, heq, e, -, -, -, hmax⟩ := h 2 earlyBest (by decide) (by decide)
  rw [do2dcmaes_earlyBest] at heq
  obtain ⟨rfl, rfl⟩ := Prod.mk.inj (Option.some.inj heq)
  exact absurd (hmax ⟨⟨200, 60, none⟩, 9⟩ (by decide)) (by decide +kernel)

def Better (maximize : Bool) (f1 f2 : F) : Prop := if maximize then f2 < f1 else f1 < f2

def RanksAhead {X : Type} (c1 c2 : Candidate X F) : Prop := c1.fvalue < c2.fvalue

/-- A run whose last population has its best raw fitness `f`. -/
structure EndsWithBest (maximize : Bool) (pops : List (List (Evaluation Point F))) (f : F) :
    Prop where
  nonempty : ∀ pop ∈ pops, pop ≠ []
  last : ∃ pop, pops.getLast? = some pop ∧ ∃ e ∈ pop, e.value = f
  best : ∀ e ∈ pops.flatten, ¬ Better maximize e.value f

theorem func_lt_iff (p : CMAParameters) (f1 f2 : F) :
    func p f1 < func p f2 ↔ Better p.maximize f1 f2 := by
  rw [func, func, Better]
  split_ifs
  · exact Fitness.neg_lt_neg_iff
  · exact Iff.rfl

theorem fsphere3d_eq (lambda : ℕ) {maximize : Bool} {pops : List (List (Evaluation Point F))}
    {f : F} (h : EndsWithBest maximize pops f) :
    fsphere3d lambda maximize pops = some (-func (params2d lambda maximize) f) := by
  obtain ⟨pop, hlast, e, he, rfl⟩ := h.last
  obtain ⟨seen, last, heq, -, hbest⟩ := doCmaes_eq (params2d lambda maximize) hlast h.nonempty
  have hval : func (params2d lambda maximize) last.value =
      func (params2d lambda maximize) e.value := by
    apply le_antisymm (hbest.le e he)
    rw [← not_lt, func_lt_iff]
    exact h.best last (List.mem_flatten_of_mem (List.mem_of_getLast? hlast) hbest.mem)
  rw [fsphere3d, do2dcmaes, heq, hval]
  rfl

theorem outer_fvalue (lambda2 lambda3 : ℕ) (maximize : Bool) (x : Point) (f : F) :
    (evalCandidate (params3d lambda3 maximize) ⟨x, -func (params2d lambda2 maximize) f⟩).fvalue =
      -f := by
  cases maximize with
  | true => exact neg_neg (-f)
  | false => rfl

/-- The outer search ranks by the inner results in the direction asked for when maximising;
when minimising it ranks them the other way round. -/
theorem fsphere3d_ranks_iff (maximize : Bool) (lambda2 lambda3 : ℕ) (x1 x2 : Point)
    {pops1 pops2 : List (List (Evaluation Point F))} {f1 f2 : F}
    (h1 : EndsWithBest maximize pops1 f1) (h2 : EndsWithBest maximize pops2 f2) :
    ∃ r1 r2, fsphere3d lambda2 maximize pops1 = some r1 ∧
      fsphere3d lambda2 maximize pops2 = some r2 ∧
      ((RanksAhead (evalCandidate (params3d lambda3 maximize) ⟨x1, r1⟩)
          (evalCandidate (params3d lambda3 maximize) ⟨x2, r2⟩) ↔ Better maximize f1 f2) ↔
        maximize = true ∨ f1 = f2) := by
  refine ⟨_, _, fsphere3d_eq lambda2 h1, fsphere3d_eq lambda2 h2, ?_⟩
  rw [RanksAhead, outer_fvalue, outer_fvalue, Fitness.neg_lt_neg_iff]
  cases maximize with
  | true => simp [Better]
  | false =>
    simp only [Better, Bool.false_eq_true, ↓reduceIte, false_or]
    constructor
    · intro h
      apply le_antisymm
      · exact not_lt.mp fun hlt => lt_asymm hlt (h.mp hlt)
      · exact not_lt.mp fun hlt => lt_asymm hlt (h.mpr hlt)
    · rintro rfl
      exact Iff.rfl

def singleRun (v : ℚ) : List (List (Evaluation Point ℚ)) := [[⟨⟨100, 50, none⟩, v⟩]]

theorem endsWithBest_single (v : ℚ) : EndsWithBest false (singleRun v) v where
  nonempty := by simp [singleRun]
  last := ⟨_, rfl, _, List.mem_singleton_self _, rfl⟩
  best := by simp [singleRun, Better]

def outerEval (alpha r : ℚ) : Candidate Point ℚ :=
  evalCandidate (params3d 2 false) ⟨⟨100, 50, some alpha⟩, r⟩

theorem fsphere3d_ranks_iff_single : ∃ r1 r2 : ℚ,
    fsphere3d 2 false (singleRun 1) = some r1 ∧ fsphere3d 2 false (singleRun 2) = some r2 ∧
    ((RanksAhead (outerEval 75 r1) (outerEval 20 r2) ↔ Better false (1 : ℚ) 2) ↔
      false = true ∨ (1 : ℚ) = 2) :=
  fsphere3d_ranks_iff false 2 2 ⟨100, 50, some 75⟩ ⟨100, 50, some 20⟩ (endsWithBest_single 1)
    (endsWithBest_single 2)

/-- When minimising, the run that ended with 2 ranks ahead of the one that ended with 1. -/
theorem fsphere3d_inverted : ¬ ∀ (maximize : Bool) (lambda2 lambda3 : ℕ) (x1 x2 : Point)
    (pops1 pops2 : List (List (Evaluation Point ℚ))) (f1 f2 r1 r2 : ℚ),
    EndsWithBest maximize pops1 f1 → EndsWithBest maximize pops2 f2 →
    fsphere3d lambda2 maximize pops1 = some r1 → fsphere3d lambda2 maximize pops2 = some r2 →
    (RanksAhead (evalCandidate (params3d lambda3 maximize) ⟨x1, r1⟩)
      (evalCandidate (params3d lambda3 maximize) ⟨x2, r2⟩) ↔ Better maximize f1 f2) := by
  intro h
  have hiff := h false 2 2 ⟨100, 50, some 75⟩ ⟨100, 50, some 20⟩ _ _ 1 2 (-1) (-2)
    (endsWithBest_single 1) (endsWithBest_single 2) (by decide +kernel) (by decide +kernel)
  have hahead := hiff.mpr (show (1 : ℚ) < 2 by decide +kernel)
  exact absurd hahead (show ¬ (-1 : ℚ) < -2 by decide +kernel)

end CmaesSolenoid

import CmaesSolenoid.Ipop

/-!
# Two regimes of restarts

`BIPOPCMAStrategy::optimize`: between two runs of large populations there are runs of
small ones, until these have been given as many points.
-/

namespace CmaesSolenoid.Libcmaes
open Interleaving WhileLoop

variable {X : Type}

/-- The variables of the loop. `b0` and `b1` are `budgets`. -/
structure Bipop (X : Type) where
  p : SearchParameters
  strategy : Strategy X
  bestRun : Option (SearchSolutions X)
  lambdaDef : ℕ
  lambdaL : ℕ
  maxFevals : ℤ
  b0 : ℕ
  b1 : ℕ
  r : ℕ

/-- A run of the small regime, with the number drawn for its population, or one of the large. -/
inductive Regime (X : Type)
  | small (u : ℚ) (a : Attempt X) (as : List (Attempt X))
  | large (a : Attempt X) (as : List (Attempt X))

def Regime.Drawn : Regime X → Prop
  | .small u _ _ => 0 ≤ u ∧ u ≤ 1
  | .large _ _ => True

namespace Bipop

def ofParameters (p : SearchParameters) : Bipop X where
  p := p
  strategy := .ofParameters p
  bestRun := none
  lambdaDef := p.lambda
  lambdaL := p.lambda
  maxFevals := p.maxFevals
  b0 := 0
  b1 := 0
  r := 0

def r1 (s : Bipop X) : Bipop X :=
  let p := Ipop.lambdaInc { s.p with lambda := s.lambdaL }
  { s with p := p, lambdaL := p.lambda }

/-- `r2`; `pow` is that of the C library. -/
def r2 (pow : ℚ → ℚ → ℚ) (s : Bipop X) (u : ℚ) : Bipop X :=
  let ltmp := pow (1 / 2 * (s.lambdaL / s.lambdaDef)) u
  { s with p := { s.p with lambda := ⌈s.lambdaDef * ltmp⌉.toNat } }

def setMaxFevals (s : Bipop X) (maxFevals : ℤ) : Bipop X :=
  { s with p := s.p.setMaxFevals maxFevals }

def resetSearchState (s : Bipop X) : Bipop X :=
  { s with strategy := s.strategy.resetSearchState s.p }

def stop (nrestarts : ℕ) (s : Bipop X) : Option (Option (SearchSolutions X)) :=
  if nrestarts ≤ s.r then some s.bestRun else none

def beginSmall (pow : ℚ → ℚ → ℚ) (s : Bipop X) (u : ℚ) : Bipop X :=
  ((s.r2 pow u).setMaxFevals (s.b0 / 2 : ℕ)).resetSearchState

def beginLarge (s : Bipop X) : Bipop X :=
  (if s.r > 0 then s.r1.resetSearchState else s).setMaxFevals s.maxFevals

variable [DecidableEq X]

/-- The small runs are those of the inner `while`. -/
def step (pow : ℚ → ℚ → ℚ) (s : Bipop X) : Regime X → Option (Bipop X)
  | .small u a as =>
    if s.b0 > s.b1 then
      let s := s.beginSmall pow u
      (s.strategy.optimize s.p a as).map fun st => { s with
        strategy := st
        b1 := s.b1 + st.solutions.niter * s.p.lambda
        bestRun := captureBestSolution s.bestRun st.solutions }
    else none
  | .large a as =>
    if s.b0 > s.b1 then none
    else
      let s := s.beginLarge
      (s.strategy.optimize s.p a as).map fun st => { s with
        strategy := st
        b0 := s.b0 + st.solutions.niter * s.p.lambda
        bestRun := captureBestSolution s.bestRun st.solutions
        r := s.r + 1 }

def runs (pow : ℚ → ℚ → ℚ) (nrestarts : ℕ) (s : Bipop X) (is : List (Regime X)) :
    Option (Bipop X) :=
  run (WhileLoop.round (stop nrestarts) (step pow)) s is

/-- What the C library says of a positive number to a power between 0 and 1. -/
def IsPow (pow : ℚ → ℚ → ℚ) : Prop :=
  ∀ x u, 0 < x → 0 ≤ u → u ≤ 1 → min 1 x ≤ pow x u ∧ pow x u ≤ max 1 x

variable {pow : ℚ → ℚ → ℚ} {nrestarts : ℕ} {p : SearchParameters} {s t : Bipop X} {u : ℚ}
  {a : Attempt X} {as : List (Attempt X)} {i : Regime X} {is : List (Regime X)}

omit [DecidableEq X] in
/-- A small population has a point or more and is never larger than the last large one. -/
theorem lambda_r2 (hpow : IsPow pow) (h0 : 0 ≤ u) (h1 : u ≤ 1) (hdef : 0 < s.lambdaDef)
    (hl : s.lambdaDef ≤ s.lambdaL) :
    0 < (s.r2 pow u).p.lambda ∧ (s.r2 pow u).p.lambda ≤ s.lambdaL := by
  have hdefq : (0 : ℚ) < s.lambdaDef := Nat.cast_pos.mpr hdef
  have hlq : (s.lambdaDef : ℚ) ≤ s.lambdaL := Nat.cast_le.mpr hl
  have hx : (0 : ℚ) < 1 / 2 * (s.lambdaL / s.lambdaDef) := by
    have := hdefq.trans_le hlq
    positivity
  obtain ⟨hlow, hhigh⟩ := hpow _ u hx h0 h1
  have hpos : 0 < (s.lambdaDef : ℚ) * pow (1 / 2 * (s.lambdaL / s.lambdaDef)) u :=
    mul_pos hdefq ((lt_min one_pos hx).trans_le hlow)
  have hle : (s.lambdaDef : ℚ) * pow (1 / 2 * (s.lambdaL / s.lambdaDef)) u ≤ s.lambdaL := by
    refine (mul_le_mul_of_nonneg_left hhigh hdefq.le).trans ?_
    rw [mul_max_of_nonneg _ _ hdefq.le, mul_one]
    refine max_le hlq ?_
    have hsame : (s.lambdaDef : ℚ) * (1 / 2 * (s.lambdaL / s.lambdaDef)) = 1 / 2 * s.lambdaL := by
      field_simp
    rw [hsame]
    linarith
  have hceil : 0 < ⌈(s.lambdaDef : ℚ) * pow (1 / 2 * (s.lambdaL / s.lambdaDef)) u⌉ :=
    Int.ceil_pos.mpr hpos
  have hceil' : ⌈(s.lambdaDef : ℚ) * pow (1 / 2 * (s.lambdaL / s.lambdaDef)) u⌉ ≤ s.lambdaL :=
    Int.ceil_le.mpr (by exact_mod_cast hle)
  simp only [r2]
  omega

structure Balanced (s : Bipop X) : Prop where
  onRestart : s.p.initialElitistOnRestart = false
  active : s.p.active .maxFEvals
  lambdaDef : 0 < s.lambdaDef
  lambdaL : s.lambdaDef ≤ s.lambdaL
  start : s.r = 0 → s.b0 = 0 ∧ Strategy.Fresh s.p s.strategy
  /-- The small regime is ahead by half of what the large one was given and one population. -/
  ahead : s.b1 ≤ s.b0 + s.b0 / 2 + s.lambdaL
  /-- The budgets are function calls that were made. -/
  nevals : s.b0 + s.b1 ≤ s.strategy.nevals

omit [DecidableEq X] in
theorem points_of_search {st st' : Strategy X} {e : Evaluation X ℚ} {rs : List (Round X)}
    (hfresh : Strategy.Fresh p st) (h : st.search p e rs = some st') :
    p.lambda ≤ st'.solutions.niter * p.lambda ∧
      st.nevals + st'.solutions.niter * p.lambda ≤ st'.nevals := by
  obtain ⟨hniter, hpos⟩ := Strategy.search_niter hfresh h
  have hcost := (Strategy.search_cost hfresh h).2
  have hround : p.lambda ≤ roundEvals p := Nat.le_add_left _ _
  rw [hniter]
  have hmul := Nat.mul_le_mul_left rs.length hround
  exact ⟨Nat.le_mul_of_pos_left _ hpos, by omega⟩

omit [DecidableEq X] in
theorem points_le_of_budget {st st' : Strategy X} {e : Evaluation X ℚ} {rs : List (Round X)}
    {budget : ℕ} (hfresh : Strategy.Fresh p st) (hst : st.solutions.nevals = 0)
    (hactive : p.active .maxFEvals) (hbudget : p.maxFevals = budget)
    (h : st.search p e rs = some st') :
    st'.solutions.niter * p.lambda ≤ budget + p.lambda := by
  obtain ⟨hniter, hpos⟩ := Strategy.search_niter hfresh h
  rw [hniter]
  by_cases htwo : 2 ≤ rs.length
  · have hlt := Strategy.search_budget hfresh h hactive (by omega) htwo
    rw [(Strategy.search_cost hfresh h).1, hst, hbudget] at hlt
    have hround : p.lambda ≤ roundEvals p := Nat.le_add_left _ _
    have hsplit (n : ℕ) : rs.length * n = (rs.length - 1) * n + n := by
      rw [← Nat.succ_mul, Nat.succ_eq_add_one, Nat.sub_add_cancel (by omega)]
    have hmul := Nat.mul_le_mul_left (rs.length - 1) hround
    have h1 := hsplit (roundEvals p)
    have h2 := hsplit p.lambda
    push_cast at hlt
    omega
  · have hone : rs.length = 1 := by omega
    rw [hone, Nat.one_mul]
    exact Nat.le_add_left _ _

theorem step_small (hp : s.p.initialElitistOnRestart = false)
    (h : step pow s (.small u a as) = some t) :
    s.b1 < s.b0 ∧ ∃ st, (s.beginSmall pow u).strategy.search (s.beginSmall pow u).p a.start
      a.rounds = some st ∧ t = { s.beginSmall pow u with
        strategy := st
        b1 := s.b1 + st.solutions.niter * (s.beginSmall pow u).p.lambda
        bestRun := captureBestSolution s.bestRun st.solutions } := by
  simp only [step] at h
  split_ifs at h with hguard
  obtain ⟨st, hst, rfl⟩ := Option.map_eq_some_iff.mp h
  have hsame : (s.beginSmall pow u).p.initialElitistOnRestart = false := hp
  exact ⟨hguard, st, ((Strategy.optimize_eq_some hsame).mp hst).1, rfl⟩

theorem step_large (hp : s.beginLarge.p.initialElitistOnRestart = false)
    (h : step pow s (.large a as) = some t) :
    s.b0 ≤ s.b1 ∧ ∃ st, s.beginLarge.strategy.search s.beginLarge.p a.start a.rounds = some st ∧
      t = { s.beginLarge with
        strategy := st
        b0 := s.beginLarge.b0 + st.solutions.niter * s.beginLarge.p.lambda
        bestRun := captureBestSolution s.beginLarge.bestRun st.solutions
        r := s.beginLarge.r + 1 } := by
  simp only [step] at h
  split_ifs at h with hguard
  obtain ⟨st, hst, rfl⟩ := Option.map_eq_some_iff.mp h
  exact ⟨Nat.le_of_not_lt hguard, st, ((Strategy.optimize_eq_some hp).mp hst).1, rfl⟩

theorem Balanced.small (hs : Balanced s) (hpow : IsPow pow) (h0 : 0 ≤ u) (h1 : u ≤ 1)
    (h : step pow s (.small u a as) = some t) :
    Balanced t ∧ t.b0 = s.b0 ∧ s.b1 < s.b0 ∧ s.b1 < t.b1 := by
  obtain ⟨hguard, st, hsearch, rfl⟩ := step_small hs.onRestart h
  obtain ⟨hpos, hle⟩ := lambda_r2 hpow h0 h1 hs.lambdaDef hs.lambdaL
  have hfresh : Strategy.Fresh (s.beginSmall pow u).p (s.beginSmall pow u).strategy :=
    Strategy.fresh_resetSearchState _ _
  obtain ⟨hone, hmade⟩ := points_of_search hfresh hsearch
  have hfew := points_le_of_budget hfresh rfl hs.active rfl hsearch
  have hlambda : (s.beginSmall pow u).p.lambda = (s.r2 pow u).p.lambda := rfl
  have hstart : (s.beginSmall pow u).strategy.nevals = s.strategy.nevals := rfl
  have hnevals := hs.nevals
  rw [hlambda] at hone hfew
  rw [hstart] at hmade
  refine ⟨⟨hs.onRestart, hs.active, hs.lambdaDef, hs.lambdaL, fun hr => ?_, ?_, ?_⟩, rfl, hguard,
    ?_⟩
  · -- nothing was given to the large regime before its first run
    have := (hs.start hr).1
    omega
  · exact (show s.b1 + st.solutions.niter * (s.r2 pow u).p.lambda ≤
      s.b0 + s.b0 / 2 + s.lambdaL by omega)
  · exact (show s.b0 + (s.b1 + st.solutions.niter * (s.beginSmall pow u).p.lambda) ≤
      st.nevals by omega)
  · exact (show s.b1 < s.b1 + st.solutions.niter * (s.r2 pow u).p.lambda by omega)

omit [DecidableEq X] in
theorem Balanced.beginLarge (hs : Balanced s) :
    Strategy.Fresh s.beginLarge.p s.beginLarge.strategy ∧
      s.beginLarge.p.initialElitistOnRestart = false ∧ s.beginLarge.p.active .maxFEvals ∧
      s.beginLarge.strategy.nevals = s.strategy.nevals ∧ s.beginLarge.b0 = s.b0 ∧
      s.beginLarge.b1 = s.b1 ∧ s.beginLarge.lambdaDef = s.lambdaDef ∧
      s.lambdaL ≤ s.beginLarge.lambdaL := by
  rw [Bipop.beginLarge]
  split_ifs with hr
  · exact ⟨Strategy.fresh_resetSearchState _ _, hs.onRestart, hs.active, rfl, rfl, rfl, rfl,
      Nat.le_mul_of_pos_left _ (by decide)⟩
  · obtain ⟨-, hniter, hsolutions⟩ := hs.start (by omega)
    exact ⟨⟨hniter, hsolutions⟩, hs.onRestart, hs.active, rfl, rfl, rfl, rfl, le_rfl⟩

theorem Balanced.large (hs : Balanced s) (h : step pow s (.large a as) = some t) :
    Balanced t := by
  obtain ⟨hfresh, hrestart, hactive, hstart, hb0, hb1, hdef, hl⟩ := hs.beginLarge
  obtain ⟨-, st, hsearch, rfl⟩ := step_large hrestart h
  obtain ⟨-, hmade⟩ := points_of_search hfresh hsearch
  have hahead := hs.ahead
  have hnevals := hs.nevals
  have hlambda := hs.lambdaL
  refine ⟨hrestart, hactive, hdef ▸ hs.lambdaDef, ?_, fun hr => absurd hr (Nat.succ_ne_zero _), ?_,
    ?_⟩
  · exact (show s.beginLarge.lambdaDef ≤ s.beginLarge.lambdaL by omega)
  · exact (show s.beginLarge.b1 ≤
      s.beginLarge.b0 + st.solutions.niter * s.beginLarge.p.lambda +
        (s.beginLarge.b0 + st.solutions.niter * s.beginLarge.p.lambda) / 2 +
          s.beginLarge.lambdaL by omega)
  · exact (show s.beginLarge.b0 + st.solutions.niter * s.beginLarge.p.lambda + s.beginLarge.b1 ≤
      st.nevals by omega)

theorem Balanced.step (hs : Balanced s) (hpow : IsPow pow) (hi : i.Drawn)
    (h : Bipop.step pow s i = some t) : Balanced t := by
  cases i with
  | small u a as => exact (hs.small hpow hi.1 hi.2 h).1
  | large a as => exact hs.large h

theorem Balanced.runs (hs : Balanced s) (hpow : IsPow pow) (hdrawn : ∀ i ∈ is, i.Drawn)
    (hrun : runs pow nrestarts s is = some t) : Balanced t := by
  induction is generalizing s with
  | nil => exact (Option.some.inj hrun) ▸ hs
  | cons i is ih =>
    obtain ⟨u, hu, hrun⟩ := run_cons.mp hrun
    obtain ⟨hi, his⟩ := List.forall_mem_cons.mp hdrawn
    exact ih (hs.step hpow hi (WhileLoop.round_eq_some.mp hu).2) his hrun

def smalls (xs : List (ℚ × Attempt X × List (Attempt X))) : List (Regime X) :=
  xs.map fun x => .small x.1 x.2.1 x.2.2

theorem length_smalls_le (hs : Balanced s) (hpow : IsPow pow)
    {xs : List (ℚ × Attempt X × List (Attempt X))} (hdrawn : ∀ i ∈ smalls xs, i.Drawn)
    (hrun : runs pow nrestarts s (smalls xs) = some t) : xs.length ≤ s.b0 - s.b1 := by
  induction xs generalizing s with
  | nil => exact Nat.zero_le _
  | cons x xs ih =>
    obtain ⟨v, hv, hrun⟩ := run_cons.mp hrun
    obtain ⟨hx, hxs⟩ := List.forall_mem_cons.mp hdrawn
    obtain ⟨hbalanced, hb0, hlt, hmore⟩ :=
      hs.small hpow hx.1 hx.2 (WhileLoop.round_eq_some.mp hv).2
    have hrest := ih hbalanced hxs hrun
    rw [List.length_cons]
    omega

end Bipop

end CmaesSolenoid.Libcmaes

import CmaesSolenoid.Restarts

/-!
# Restarts with other population sizes

`IPOPCMAStrategy::optimize` doubles the population from run to run, and
`BIPOPCMAStrategy::optimize` alternates such runs with runs of small populations. Both
keep the solutions of the best run. The budget of a run is counted from its beginning.
-/

namespace CmaesSolenoid.Libcmaes
open Interleaving WhileLoop

variable {X : Type}

/-- `reset_search_state`; the calls of the strategy stay counted. -/
def Strategy.resetSearchState (p : SearchParameters) (st : Strategy X) : Strategy X :=
  { st with solutions := .ofParameters p, niter := 0 }

theorem Strategy.fresh_resetSearchState (p : SearchParameters) (st : Strategy X) :
    Fresh p (st.resetSearchState p) :=
  ⟨rfl, 0, rfl⟩

namespace Strategy

variable {p : SearchParameters} {st t : Strategy X} {e : Evaluation X ℚ} {rs : List (Round X)}

theorem search_bestCandidate (hfresh : Fresh p st) (h : st.search p e rs = some t) :
    t.solutions.bestCandidate ≠ none := by
  obtain ⟨u, hrun, -, -, -, hbest, hpos⟩ := search_ended hfresh h
  obtain ⟨gens, hgens, hrec, -⟩ := exists_records hfresh hrun
  obtain ⟨g, hg⟩ : ∃ g, gens.getLast? = some g :=
    ⟨_, List.getLast?_eq_some_getLast (List.ne_nil_of_length_pos (hgens.length_eq ▸ hpos))⟩
  rw [hbest, SearchSolutions.bestCandidate, hrec.getLast?_bests hg]
  exact Option.some_ne_none _

theorem search_cost_le (hfresh : Fresh p st) (hst : st.solutions.nevals = 0)
    (hactive : p.active .maxFEvals) (hoff : 0 < p.maxFevals)
    (h : st.search p e rs = some t) :
    st.nevals + roundEvals p ≤ t.nevals ∧
      (t.nevals : ℤ) ≤ st.nevals + p.maxFevals + roundEvals p + edmEvals p := by
  obtain ⟨-, -, -, -, -, -, hpos⟩ := search_ended hfresh h
  obtain ⟨hown, hall⟩ := search_cost hfresh h
  have hbegin : st.beginEvals p ≤ 1 := by
    rw [beginEvals]
    split_ifs <;> decide
  have hmul := Nat.mul_le_mul_right (roundEvals p) hpos
  rw [Nat.succ_eq_add_one, Nat.zero_add, Nat.one_mul] at hmul
  refine ⟨by omega, ?_⟩
  by_cases htwo : 2 ≤ rs.length
  · have hbudget := search_budget hfresh h hactive (by omega) htwo
    omega
  · have hone : rs.length = 1 := by omega
    rw [hone, Nat.one_mul] at hall
    omega

variable [DecidableEq X] {a : Attempt X} {as : List (Attempt X)}

theorem rerun_bestCandidate (h : rerun p st a = some t) : t.solutions.bestCandidate ≠ none := by
  obtain ⟨-, -, -, -, hsearch⟩ := rerun_eq_some.mp h
  exact search_bestCandidate (fresh_restarted p st) hsearch

theorem optimize_bestCandidate (hfresh : Fresh p st) (h : st.optimize p a as = some t) :
    t.solutions.bestCandidate ≠ none := by
  obtain ⟨u, hsearch, h⟩ := Option.bind_eq_some_iff.mp h
  obtain ⟨v, hrun, h⟩ := Option.bind_eq_some_iff.mp h
  split_ifs at h
  obtain rfl := Option.some.inj h
  rcases List.eq_nil_or_concat' as with rfl | ⟨front, last, rfl⟩
  · exact (Option.some.inj hrun) ▸ search_bestCandidate hfresh hsearch
  · obtain ⟨w, -, hlast⟩ := run_append_iff.mp hrun
    obtain ⟨w', hw', hnil⟩ := run_cons.mp hlast
    exact (Option.some.inj hnil) ▸ rerun_bestCandidate hw'

theorem optimize_eq_some (hp : p.initialElitistOnRestart = false) :
    st.optimize p a as = some t ↔ st.search p a.start a.rounds = some t ∧ as = [] := by
  have hno (u : Strategy X) : u.restarts p = some false := by rw [restarts, if_neg (by simp [hp])]
  rw [optimize, Option.bind_eq_bind, Option.bind_eq_some_iff]
  constructor
  · rintro ⟨u, hsearch, h⟩
    obtain ⟨v, hrun, h⟩ := Option.bind_eq_some_iff.mp h
    rw [if_pos (hno v)] at h
    obtain rfl := Option.some.inj h
    cases as with
    | nil => exact ⟨(Option.some.inj hrun) ▸ hsearch, rfl⟩
    | cons b as =>
      obtain ⟨w, hw, -⟩ := run_cons.mp hrun
      have := (rerun_eq_some.mp hw).1
      rw [hno u] at this
      cases this
  · rintro ⟨hsearch, rfl⟩
    exact ⟨t, hsearch, by simp [hno t]⟩

end Strategy

/-- `capture_best_solution`; `none` while `best_run` has no candidates. -/
def captureBestSolution (bestRun : Option (SearchSolutions X)) (solutions : SearchSolutions X) :
    Option (SearchSolutions X) :=
  match bestRun with
  | none => some solutions
  | some best =>
    match solutions.bestCandidate, best.bestCandidate with
    | some c1, some c2 => if c1.fvalue < c2.fvalue then some solutions else some best
    -- a comparison with NaN
    | _, _ => some best

def SearchSolutions.endValue (s : SearchSolutions X) : ℚ :=
  match s.bestCandidate with
  | some c => c.fvalue
  | none => 0

/-- The best of the runs so far, the first one where several are as good. -/
def BestRun (runs : List (SearchSolutions X)) (bestRun : Option (SearchSolutions X)) : Prop :=
  bestRun = none ∧ runs = [] ∨ ∃ best, bestRun = some best ∧ best.bestCandidate ≠ none ∧
    Best SearchSolutions.endValue runs best

theorem BestRun.capture {runs : List (SearchSolutions X)} {bestRun : Option (SearchSolutions X)}
    {s : SearchSolutions X} (h : BestRun runs bestRun) (hs : s.bestCandidate ≠ none) :
    BestRun (runs ++ [s]) (captureBestSolution bestRun s) := by
  have hone : Best SearchSolutions.endValue [s] s := ⟨List.mem_singleton_self _, by simp⟩
  right
  rcases h with ⟨rfl, rfl⟩ | ⟨best, rfl, hbest, hle⟩
  · exact ⟨s, rfl, hs, hone⟩
  · obtain ⟨c1, hc1⟩ := Option.ne_none_iff_exists'.mp hs
    obtain ⟨c2, hc2⟩ := Option.ne_none_iff_exists'.mp hbest
    have hv1 : s.endValue = c1.fvalue := by rw [SearchSolutions.endValue, hc1]
    have hv2 : best.endValue = c2.fvalue := by rw [SearchSolutions.endValue, hc2]
    simp only [captureBestSolution, hc1, hc2]
    split_ifs with hlt
    · exact ⟨s, rfl, hs, hle.append_right hone (by rwa [hv1, hv2])⟩
    · exact ⟨best, rfl, hbest, hle.append_left hone (by rwa [hv1, hv2])⟩

structure Ipop (X : Type) where
  p : SearchParameters
  strategy : Strategy X
  bestRun : Option (SearchSolutions X)
  r : ℕ

namespace Ipop

def ofParameters (p : SearchParameters) : Ipop X where
  p := p
  strategy := .ofParameters p
  bestRun := none
  r := 0

def lambdaInc (p : SearchParameters) : SearchParameters := { p with lambda := 2 * p.lambda }

/-- The end of the loop, with what becomes the solutions: `nrestarts` runs, or the `break` at the
end of one. -/
def stop (nrestarts : ℕ) (s : Ipop X) : Option (Option (SearchSolutions X)) :=
  if nrestarts ≤ s.r ∨ (0 < s.r ∧ 0 < s.p.maxFevals ∧ s.p.maxFevals ≤ s.strategy.nevals) then
    some s.bestRun
  else none

variable [DecidableEq X]

def step (s : Ipop X) (i : Attempt X × List (Attempt X)) : Option (Ipop X) := do
  let st ← s.strategy.optimize s.p i.1 i.2
  let p := lambdaInc s.p
  return {
    p := p
    strategy := st.resetSearchState p
    bestRun := captureBestSolution s.bestRun st.solutions
    r := s.r + 1 }

def runs (nrestarts : ℕ) (s : Ipop X) (is : List (Attempt X × List (Attempt X))) :
    Option (Ipop X) :=
  run (WhileLoop.round (stop nrestarts) step) s is

variable {nrestarts : ℕ} {p : SearchParameters} {s t : Ipop X}
  {i : Attempt X × List (Attempt X)} {is : List (Attempt X × List (Attempt X))}

theorem step_eq_some : step s i = some t ↔ ∃ st, s.strategy.optimize s.p i.1 i.2 = some st ∧
    t = ⟨lambdaInc s.p, st.resetSearchState (lambdaInc s.p),
      captureBestSolution s.bestRun st.solutions, s.r + 1⟩ := by
  rw [step, Option.bind_eq_bind, Option.bind_eq_some_iff]
  simp only [pure, Option.some.injEq, eq_comm]

def ends (s : Ipop X) : List (Attempt X × List (Attempt X)) → List (SearchSolutions X)
  | [] => []
  | i :: is =>
    ((s.strategy.optimize s.p i.1 i.2).map Strategy.solutions).toList ++
      (step s i).elim [] fun t => ends t is

theorem runs_best {before : List (SearchSolutions X)} (hfresh : Strategy.Fresh s.p s.strategy)
    (hbest : BestRun before s.bestRun) (hrun : runs nrestarts s is = some t) :
    (ends s is).length = is.length ∧ BestRun (before ++ ends s is) t.bestRun := by
  induction is generalizing s before with
  | nil =>
    rw [ends, List.append_nil]
    exact ⟨rfl, (Option.some.inj hrun) ▸ hbest⟩
  | cons i is ih =>
    obtain ⟨u, hu, hrun⟩ := run_cons.mp hrun
    have hstep := (WhileLoop.round_eq_some.mp hu).2
    obtain ⟨st, hst, rfl⟩ := step_eq_some.mp hstep
    obtain ⟨hlen, hall⟩ := ih (Strategy.fresh_resetSearchState _ st)
      (hbest.capture (Strategy.optimize_bestCandidate hfresh hst)) hrun
    rw [ends, hst, hstep]
    refine ⟨congrArg (· + 1) hlen, ?_⟩
    rwa [← List.append_assoc]

structure Spent (p : SearchParameters) (n : ℕ) (s : Ipop X) : Prop where
  params : s.p = { p with lambda := 2 ^ n * p.lambda }
  fresh : Strategy.Fresh s.p s.strategy
  solutions : s.strategy.solutions.nevals = 0
  r : s.r = n
  /-- The populations of all runs before, at least one each. -/
  many : (2 ^ n - 1) * p.lambda ≤ s.strategy.nevals
  few : n = 0 ∧ s.strategy.nevals = 0 ∨ ∃ m, n = m + 1 ∧
    (2 ^ m * p.lambda : ℤ) < p.maxFevals + p.lambda ∧
    (s.strategy.nevals : ℤ) < 2 * p.maxFevals + askEvals p + 2 ^ m * p.lambda +
      Strategy.edmEvals p

theorem Spent.step {n : ℕ} (hs : Spent p n s) (hp : p.initialElitistOnRestart = false)
    (hactive : p.active .maxFEvals) (hbudget : 0 < p.maxFevals)
    (h : WhileLoop.round (stop nrestarts) Ipop.step s i = some t) : Spent p (n + 1) t := by
  obtain ⟨hgo, h⟩ := WhileLoop.round_eq_some.mp h
  obtain ⟨st, hst, rfl⟩ := step_eq_some.mp h
  have hsp := hs.params
  have hpsame : s.p.initialElitistOnRestart = false := by rw [hsp]; exact hp
  obtain ⟨hsearch, -⟩ := (Strategy.optimize_eq_some hpsame).mp hst
  obtain ⟨hlow, hhigh⟩ := Strategy.search_cost_le hs.fresh hs.solutions (by rw [hsp]; exact hactive)
    (by rw [hsp]; exact hbudget) hsearch
  have hcost : roundEvals s.p = askEvals p + 2 ^ n * p.lambda := by rw [hsp]; rfl
  have hedm : Strategy.edmEvals s.p = Strategy.edmEvals p := by rw [hsp]; rfl
  have hmax : s.p.maxFevals = p.maxFevals := by rw [hsp]
  rw [hcost] at hlow hhigh
  rw [hedm, hmax] at hhigh
  -- another run only begins while the budget is not used up
  have hleft : n = 0 ∨ (s.strategy.nevals : ℤ) < p.maxFevals := by
    by_contra hnot
    rw [not_or, not_lt] at hnot
    have hends : nrestarts ≤ s.r ∨
        (0 < s.r ∧ 0 < s.p.maxFevals ∧ s.p.maxFevals ≤ s.strategy.nevals) := by
      rw [hs.r, hmax]
      exact .inr ⟨Nat.pos_of_ne_zero hnot.1, hbudget, hnot.2⟩
    rw [stop, if_pos hends] at hgo
    cases hgo
  have hpow : 2 ^ (n + 1) * p.lambda = 2 ^ n * p.lambda + 2 ^ n * p.lambda := by ring
  have hmany := hs.many
  rw [Nat.sub_mul, Nat.one_mul] at hmany
  refine ⟨?_, Strategy.fresh_resetSearchState _ st, rfl, congrArg (· + 1) hs.r, ?_, ?_⟩
  · rw [lambdaInc, hsp, pow_succ']
    simp only [Nat.mul_assoc]
  · rw [Nat.sub_mul, Nat.one_mul, hpow]
    exact le_trans (by omega) hlow
  · refine .inr ⟨n, rfl, ?_, ?_⟩
    · have hcast : (2 ^ n * p.lambda : ℤ) = ((2 ^ n * p.lambda : ℕ) : ℤ) := by push_cast; rfl
      rw [hcast]
      rcases hleft with rfl | hleft
      · simp only [pow_zero, Nat.one_mul]
        omega
      · omega
    · have hcast : (2 ^ n * p.lambda : ℤ) = ((2 ^ n * p.lambda : ℕ) : ℤ) := by push_cast; rfl
      have hnew : (Strategy.resetSearchState (lambdaInc s.p) st).nevals = st.nevals := rfl
      rw [hcast, hnew]
      rcases hleft with rfl | hleft
      · rcases hs.few with ⟨-, hzero⟩ | ⟨m, hm, -⟩
        · omega
        · omega
      · omega

theorem Spent.runs {n : ℕ} (hs : Spent p n s) (hp : p.initialElitistOnRestart = false)
    (hactive : p.active .maxFEvals) (hbudget : 0 < p.maxFevals)
    (hrun : runs nrestarts s is = some t) : Spent p (n + is.length) t := by
  induction is generalizing s n with
  | nil => exact (Option.some.inj hrun) ▸ hs
  | cons i is ih =>
    obtain ⟨u, hu, hrun⟩ := run_cons.mp hrun
    have hall := ih (hs.step hp hactive hbudget hu) hrun
    rwa [Nat.add_assoc, Nat.add_comm 1] at hall

omit [DecidableEq X] in
theorem spent_ofParameters (p : SearchParameters) : Spent p 0 (ofParameters p : Ipop X) := by
  refine ⟨?_, Strategy.fresh_ofParameters p, rfl, rfl, by simp, .inl ⟨rfl, rfl⟩⟩
  rw [pow_zero, Nat.one_mul]
  rfl

end Ipop

end CmaesSolenoid.Libcmaes

import CmaesSolenoid.StopCriteria
import CmaesSolenoid.WhileLoop

/-!
# `libcmaes`: the search loop

`ESOStrategy::eval`, `CMAStrategy::tell`, `stop` and the `while` of `optimize`. A round
takes the population that `ask` draws, with the values measured for it, and what the
update makes of the criteria on mean, step size and covariance.
-/

namespace CmaesSolenoid.Libcmaes
open Interleaving WhileLoop

variable {X : Type}

structure Strategy (X : Type) where
  solutions : SearchSolutions X
  niter : ℕ
  /-- Over all runs, where that of `solutions` is reset. -/
  nevals : ℕ
  initialElitist : Bool

structure Round (X : Type) where
  pop : List (Evaluation X ℚ)
  spread : Criterion → Bool

namespace Strategy

def ofParameters (p : SearchParameters) : Strategy X where
  solutions := .ofParameters p
  niter := 0
  nevals := 0
  initialElitist := false

def updateFevals (st : Strategy X) (evals : ℕ) : Strategy X :=
  { st with
    nevals := st.nevals + evals
    solutions := { st.solutions with nevals := st.solutions.nevals + evals } }

def gradf (p : SearchParameters) (st : Strategy X) : Strategy X :=
  if p.gfunc then st else st.updateFevals (p.dim + 1)

def reinjects (p : SearchParameters) (st : Strategy X) : Bool :=
  0 < st.niter ∧
    (p.elitist ∨ p.initialElitist ∨ (st.initialElitist ∧ p.initialElitistOnRestart))

def refCandidate (p : SearchParameters) (st : Strategy X) : Option (Candidate X ℚ) :=
  if p.initialElitistOnRestart || p.initialElitist then st.solutions.initialCandidate
  else st.solutions.bestSeenCandidate

/-- The reference takes the second place where less than half of the points have a lower value. -/
def injectRef (ref : Candidate X ℚ) (candidates : List (Candidate X ℚ)) :
    List (Candidate X ℚ) :=
  if candidates.countP (fun c => c.fvalue < ref.fvalue) < candidates.length / 2 then
    candidates.set 1 ref
  else candidates

/-- `none` for a reference without a value. -/
def reinject (p : SearchParameters) (st : Strategy X) (candidates : List (Candidate X ℚ)) :
    Option (List (Candidate X ℚ)) :=
  if st.reinjects p then (st.refCandidate p).map fun ref => injectRef ref candidates
  else some candidates

def ask (p : SearchParameters) (st : Strategy X) (pop : List (Evaluation X ℚ)) :
    Option (Strategy X) :=
  if pop.length = p.lambda then some (if p.withGradient then st.gradf p else st) else none

def eval (p : SearchParameters) (st : Strategy X) (pop : List (Evaluation X ℚ)) :
    Option (Strategy X) := do
  let candidates ← st.reinject p (pop.map (evalCandidate p.toCMAParameters))
  let st := { st with solutions := { st.solutions with candidates := candidates } }
  return st.updateFevals pop.length

def tell (p : SearchParameters) (st : Strategy X) (spread : Criterion → Bool) :
    Option (Strategy X) := do
  let sorted := { st.solutions with toCMASolutions := st.solutions.sortCandidates }
  let solutions ← sorted.updateBestCandidates p.dim
  return { st with solutions := { solutions with spread := spread } }

def incIter (st : Strategy X) : Strategy X :=
  { st with
    niter := st.niter + 1
    solutions := { st.solutions with toCMASolutions := st.solutions.incIter } }

def round (p : SearchParameters) (st : Strategy X) (r : Round X) : Option (Strategy X) := do
  let st ← st.ask p r.pop
  let st ← st.eval p r.pop
  let st ← st.tell p r.spread
  return st.incIter

/-- `stop()`, with the state it leaves where it is true. The progress function never ends a run. -/
def stop (p : SearchParameters) (st : Strategy X) : Option (Strategy X) :=
  if st.solutions.runStatus < 0 then some st
  else if st.niter = 0 then none
  else
    let code := stopCriteria p st.solutions
    if code = 0 then none
    else some { st with solutions := { st.solutions with runStatus := code } }

def needsInitial (p : SearchParameters) (st : Strategy X) : Bool :=
  st.initialElitist || p.initialElitist || p.elitist || p.initialFvalue

def begin (p : SearchParameters) (st : Strategy X) (e : Evaluation X ℚ) : Strategy X :=
  if st.needsInitial p then
    let c := evalCandidate p.toCMAParameters e
    let st := { st with solutions :=
      { st.solutions with initialCandidate := some c, bestSeenCandidate := some c } }
    st.updateFevals 1
  else st

/-- A run of the loop that takes all of these rounds. -/
def search (p : SearchParameters) (st : Strategy X) (e : Evaluation X ℚ)
    (rounds : List (Round X)) : Option (Strategy X) :=
  match loop (stop p) (round p) (st.begin p e) rounds with
  | some (t, []) => some (if p.withEdm then t.gradf p else t)
  | _ => none

def rounds (p : SearchParameters) (st : Strategy X) (rs : List (Round X)) : Option (Strategy X) :=
  run (WhileLoop.round (stop p) (round p)) st rs

variable {p : SearchParameters} {st t : Strategy X} {e : Evaluation X ℚ} {rs : List (Round X)}

theorem search_eq_some : st.search p e rs = some t ↔ ∃ u v, rounds p (st.begin p e) rs = some u ∧
    stop p u = some v ∧ t = if p.withEdm then v.gradf p else v := by
  rw [search]
  constructor
  · intro h
    split at h
    case h_1 v hloop =>
      obtain ⟨used, u, hused, hrun, hstop⟩ := loop_eq_some.mp hloop
      rw [List.append_nil] at hused
      exact ⟨u, v, hused ▸ hrun, hstop, (Option.some.inj h).symm⟩
    case h_2 => cases h
  · rintro ⟨u, v, hrun, hstop, rfl⟩
    rw [loop_eq_some.mpr ⟨rs, u, (List.append_nil rs).symm, hrun, hstop⟩]

/-- What `optimize` finds where it has not run before, or after a reset. -/
structure Fresh (p : SearchParameters) (st : Strategy X) : Prop where
  niter : st.niter = 0
  solutions : ∃ n, st.solutions = { SearchSolutions.ofParameters p with nevals := n }

theorem fresh_ofParameters (p : SearchParameters) : Fresh p (.ofParameters p : Strategy X) :=
  ⟨rfl, 0, rfl⟩

end Strategy

end CmaesSolenoid.Libcmaes

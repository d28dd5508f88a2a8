import Mathlib.Algebra.Order.Round
import Mathlib.Data.Rat.Floor
import CmaesSolenoid.CmaSolutions
import CmaesSolenoid.RecentHistory

/-!
# `libcmaes`: the records of a run and the stopping criteria

`CMASolutions` with everything the stopping criteria read, and `CMAStopCriteria::stop`
over it. What `tell` does to mean, step size and covariance is left open: the five
criteria on these are a part of the state that each round sets anew.
-/

namespace CmaesSolenoid.Libcmaes

/-- `CMAStopCritType`, in the order in which `_scriteria` keeps its keys. -/
inductive Criterion
  | conditionCov | tolUpSigma | tolHistFun | tolX | noEffectAxis | noEffectCoor
  | equalFunVals | stagnation | autoMaxIter | maxFEvals | maxIter | fTarget
  deriving DecidableEq, Repr

namespace Criterion

def code : Criterion → ℤ
  | conditionCov => -15
  | tolUpSigma => -13
  | tolHistFun => 1
  | tolX => 2
  | noEffectAxis => 3
  | noEffectCoor => 4
  | equalFunVals => 5
  | stagnation => 6
  | autoMaxIter => 7
  | maxFEvals => 8
  | maxIter => 9
  | fTarget => 10

def all : List Criterion :=
  [conditionCov, tolUpSigma, tolHistFun, tolX, noEffectAxis, noEffectCoor, equalFunVals,
    stagnation, autoMaxIter, maxFEvals, maxIter, fTarget]

theorem mem_all (c : Criterion) : c ∈ all := by
  cases c <;> decide

theorem all_pairwise : all.Pairwise fun c d => c.code < d.code := by
  decide

theorem code_ne_zero (c : Criterion) : c.code ≠ 0 := by
  cases c <;> decide

end Criterion

/-- What the loop reads of `CMAParameters`. `ftarget` is `none` where it is infinite, which no
value reaches, and -1 turns `maxIter` and `maxFevals` off. -/
structure SearchParameters extends CMAParameters where
  maxIter : ℤ
  maxFevals : ℤ
  ftarget : Option ℚ
  ftolerance : ℚ
  vd : Bool
  elitist : Bool
  initialElitist : Bool
  initialElitistOnRestart : Bool
  initialFvalue : Bool
  withGradient : Bool
  withEdm : Bool
  gfunc : Bool
  active : Criterion → Bool

def SearchParameters.ofCMAParameters (p : CMAParameters) : SearchParameters where
  toCMAParameters := p
  maxIter := -1
  maxFevals := -1
  ftarget := none
  ftolerance := 1 / 10 ^ 12
  vd := false
  elitist := false
  initialElitist := false
  initialElitistOnRestart := false
  initialFvalue := false
  withGradient := false
  withEdm := false
  gfunc := false
  active := fun _ => true

def SearchParameters.setMaxIter (p : SearchParameters) (maxIter : ℤ) : SearchParameters :=
  { p with maxIter := maxIter }

def SearchParameters.setMaxFevals (p : SearchParameters) (maxFevals : ℤ) : SearchParameters :=
  { p with maxFevals := maxFevals }

/-- 0 copies the third flag into the others. -/
def SearchParameters.setElitism (p : SearchParameters) (e : ℤ) : SearchParameters :=
  if e = 0 then { p with
    elitist := p.initialElitistOnRestart
    initialElitist := p.initialElitistOnRestart }
  else if e = 1 then { p with
    elitist := true
    initialElitist := false
    initialElitistOnRestart := false }
  else if e = 2 then { p with
    elitist := false
    initialElitist := true
    initialElitistOnRestart := false }
  else if e = 3 then { p with
    elitist := false
    initialElitist := false
    initialElitistOnRestart := true }
  else p

/-- `_best_seen_iter` is not initialised: `none`. -/
structure SearchSolutions (X : Type) extends CMASolutions X ℚ where
  kBestCandidatesHist : List (Candidate X ℚ)
  bfvalues : List ℚ
  medianFvalues : List ℚ
  bestSeenIter : Option ℕ
  worstSeenCandidate : Option (Candidate X ℚ)
  initialCandidate : Option (Candidate X ℚ)
  nevals : ℕ
  kcand : ℕ
  runStatus : ℤ
  /-- Which of the criteria on mean, step size and covariance hold. -/
  spread : Criterion → Bool

variable {X : Type}

def middle (sorted : List ℚ) : Option ℚ :=
  let size := sorted.length
  if size % 2 = 0 then do
    let lower ← sorted[size / 2 - 1]?
    let upper ← sorted[size / 2]?
    return (lower + upper) / 2
  else sorted[size / 2]?

def median (scores : List ℚ) : Option ℚ := middle (scores.insertionSort (· ≤ ·))

theorem middle_ne_none {sorted : List ℚ} (h : sorted ≠ []) : middle sorted ≠ none := by
  have hpos := List.length_pos_of_ne_nil h
  have hget (i : ℕ) (hi : i < sorted.length) : sorted[i]? = some sorted[i] :=
    List.getElem?_eq_getElem hi
  rw [middle]
  split_ifs
  · rw [hget _ (show sorted.length / 2 - 1 < sorted.length by omega),
      hget _ (show sorted.length / 2 < sorted.length by omega)]
    exact Option.some_ne_none _
  · rw [hget _ (show sorted.length / 2 < sorted.length by omega)]
    exact Option.some_ne_none _

namespace SearchSolutions

def ofParameters (p : SearchParameters) : SearchSolutions X where
  toCMASolutions := .ofParameters p.toCMAParameters
  kBestCandidatesHist := []
  bfvalues := []
  medianFvalues := []
  bestSeenIter := none
  worstSeenCandidate := none
  initialCandidate := none
  nevals := 0
  kcand := min (p.lambda - 1) (1 + ⌈(1 / 10 + p.lambda / 4 : ℚ)⌉₊)
  runStatus := 0
  spread := fun _ => false

def bestCandidate (s : SearchSolutions X) : Option (Candidate X ℚ) :=
  s.bestCandidatesHist.getLast?.or s.initialCandidate

def medianBound (dim lambda niter : ℕ) : ℕ :=
  ⌈(1 / 5 * niter + 120 + 30 * dim / lambda : ℚ)⌉₊

/-- Both histories are cut when the first is too long. -/
def pushKBest (s : SearchSolutions X) (k : Candidate X ℚ) : List (Candidate X ℚ) :=
  let hist := s.kBestCandidatesHist ++ [k]
  if s.bestCandidatesHist.length + 1 > s.maxHist then hist.tail else hist

def updateWorstSeen (s : SearchSolutions X) (c : Candidate X ℚ) : Option (Candidate X ℚ) :=
  match s.worstSeenCandidate with
  -- after the first generation a comparison with NaN, which fails
  | none => if s.niter = 0 then some c else none
  | some worst => if c.fvalue > worst.fvalue then some c else some worst

def updateBestSeenIter (s : SearchSolutions X) (c : Candidate X ℚ) : Option ℕ :=
  match s.bestSeenCandidate with
  | none => if s.niter = 0 then some s.niter else s.bestSeenIter
  | some best => if c.fvalue < best.fvalue then some s.niter else s.bestSeenIter

/-- All of `update_best_candidates`, on sorted candidates; `none` where an `at` throws. -/
def updateBestCandidates (dim : ℕ) (s : SearchSolutions X) : Option (SearchSolutions X) := do
  let best ← s.candidates.head?
  let k ← s.candidates[s.kcand]?
  let mid ← middle (s.candidates.map Candidate.fvalue)
  let worst ← s.candidates.getLast?
  let solutions ← s.toCMASolutions.updateBestCandidates
  return { s with
    toCMASolutions := solutions
    kBestCandidatesHist := s.pushKBest k
    bfvalues := RecentHistory.push 20 s.bfvalues best.fvalue
    medianFvalues :=
      RecentHistory.push (medianBound dim s.candidates.length s.niter) s.medianFvalues mid
    bestSeenIter := s.updateBestSeenIter best
    worstSeenCandidate := s.updateWorstSeen worst }

end SearchSolutions

open SearchSolutions

/-- `niter >= 100.0 + 50*pow(dim+3,2) / sqrt(lambda)`, a thousand times that for small `vd`
problems, with the root squared away. -/
def autoMaxIterHolds (p : SearchParameters) (s : SearchSolutions X) : Bool :=
  let scale := if p.vd ∧ p.dim < 10 then 1000 else 1
  scale * 100 ≤ s.niter ∧
    (scale * 50 * (p.dim + 3) ^ 2) ^ 2 ≤ (s.niter - scale * 100) ^ 2 * p.lambda

def histThresh (p : SearchParameters) (s : SearchSolutions X) : ℕ :=
  min s.maxHist (10 + 30 * p.dim / p.lambda)

def frange (values : List ℚ) : Option ℚ := do
  let least ← values.min?
  let greatest ← values.max?
  return greatest - least

def tolHistFunHolds (p : SearchParameters) (s : SearchSolutions X) : Bool :=
  let threshold := max p.ftolerance (1 / 10 ^ 12)
  let histlength := min (histThresh p s) s.bestCandidatesHist.length
  if histlength < histThresh p s then false
  else
    match frange ((s.bestCandidatesHist.rtake histlength).map Candidate.fvalue) with
    | none => false
    | some rg => rg < threshold

def Flat (pair : Candidate X ℚ × Candidate X ℚ) : Bool := pair.1.fvalue = pair.2.fvalue

def equalFunValsHolds (p : SearchParameters) (s : SearchSolutions X) : Bool :=
  let histlength := min p.dim s.bestCandidatesHist.length
  if histlength < s.maxHist then false
  else
    let pairs := s.bestCandidatesHist.zip s.kBestCandidatesHist
    histlength < 3 * (pairs.rtake histlength).countP Flat

def stagnationHolds (s : SearchSolutions X) : Bool :=
  if s.bfvalues.length < 20 ∨ s.medianFvalues.length < 20 then false
  else
    match median s.bfvalues, median (s.medianFvalues.take 20) with
    | some medianbv, some oldMedianbv => oldMedianbv ≤ medianbv
    | _, _ => false

def maxFEvalsHolds (p : SearchParameters) (s : SearchSolutions X) : Bool :=
  p.maxFevals ≠ -1 ∧ p.maxFevals ≤ s.nevals

def maxIterHolds (p : SearchParameters) (s : SearchSolutions X) : Bool :=
  p.maxIter ≠ -1 ∧ p.maxIter ≤ s.niter

def fTargetHolds (p : SearchParameters) (s : SearchSolutions X) : Bool :=
  match p.ftarget, s.bestCandidate with
  | some ftarget, some best => best.fvalue ≤ ftarget
  -- a comparison with an infinity or with NaN
  | _, _ => false

def holds (p : SearchParameters) (s : SearchSolutions X) : Criterion → Bool
  | .autoMaxIter => autoMaxIterHolds p s
  | .tolHistFun => tolHistFunHolds p s
  | .equalFunVals => equalFunValsHolds p s
  | .stagnation => stagnationHolds s
  | .maxFEvals => maxFEvalsHolds p s
  | .maxIter => maxIterHolds p s
  | .fTarget => fTargetHolds p s
  | c => s.spread c

def firstCriterion (p : SearchParameters) (s : SearchSolutions X) : Option Criterion :=
  Criterion.all.find? fun c => p.active c && holds p s c

/-- `CMAStopCriteria::stop`; `CONT` is 0. -/
def stopCriteria (p : SearchParameters) (s : SearchSolutions X) : ℤ :=
  match firstCriterion p s with
  | some c => c.code
  | none => 0

theorem firstCriterion_eq_none {p : SearchParameters} {s : SearchSolutions X} :
    firstCriterion p s = none ↔ ∀ c, p.active c → holds p s c = false := by
  rw [firstCriterion, List.find?_eq_none]
  constructor
  · intro h c hc
    have := h c c.mem_all
    rw [Bool.and_eq_true, not_and, Bool.not_eq_true] at this
    exact this hc
  · intro h c _ hc
    rw [Bool.and_eq_true] at hc
    rw [h c hc.1] at hc
    exact Bool.false_ne_true hc.2

/-- The criterion that stops a run is the one with the least code. -/
theorem firstCriterion_eq_some {p : SearchParameters} {s : SearchSolutions X} {c : Criterion}
    (h : firstCriterion p s = some c) :
    p.active c ∧ holds p s c ∧ ∀ d, p.active d → holds p s d → c.code ≤ d.code := by
  obtain ⟨hc, before, after, hall, hbefore⟩ := List.find?_eq_some_iff_append.mp h
  rw [Bool.and_eq_true] at hc
  refine ⟨hc.1, hc.2, fun d hd hhd => ?_⟩
  have hmem := d.mem_all
  rw [hall, List.mem_append, List.mem_cons] at hmem
  rcases hmem with hmem | rfl | hmem
  · have := hbefore d hmem
    rw [hd, hhd] at this
    exact absurd this (by decide)
  · exact le_rfl
  · have hpair := Criterion.all_pairwise
    rw [hall, List.pairwise_append, List.pairwise_cons] at hpair
    exact (hpair.2.1.1 d hmem).le

end CmaesSolenoid.Libcmaes

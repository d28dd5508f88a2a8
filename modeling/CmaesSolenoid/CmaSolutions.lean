import Mathlib.Algebra.Order.Ring.Rat
import CmaesSolenoid.Best
import CmaesSolenoid.Interleaving

/-!
# `libcmaes`: the candidates of a run

What `ESOStrategy` and `CMASolutions` do with the values of the objective function: a
generation is evaluated, sorted and entered into two records, the history of each
generation's best candidate and the best candidate seen. Which points are sampled is
left open. The records that only the stopping criteria read are left out.
-/

namespace CmaesSolenoid.Libcmaes
open Interleaving

/-- `double` values that are not NaN. -/
class Fitness (F : Type) extends LinearOrder F, InvolutiveNeg F where
  neg_le_of_le : ∀ {a b : F}, a ≤ b → -b ≤ -a

instance : Fitness ℚ where
  neg_le_of_le := neg_le_neg

theorem Fitness.neg_le_neg_iff {F : Type} [Fitness F] {a b : F} : -a ≤ -b ↔ b ≤ a := by
  refine ⟨fun h => ?_, Fitness.neg_le_of_le⟩
  have := Fitness.neg_le_of_le h
  rwa [neg_neg, neg_neg] at this

theorem Fitness.neg_lt_neg_iff {F : Type} [Fitness F] {a b : F} : -a < -b ↔ b < a := by
  rw [← not_le, ← not_le, Fitness.neg_le_neg_iff]

structure CMAParameters where
  dim : ℕ
  lambda : ℕ
  maxHist : ℤ
  maximize : Bool

structure Candidate (X F : Type) where
  fvalue : F
  x : X
  deriving DecidableEq, Repr

/-- One call of the objective function: the point sampled, and what the function returned
for its phenotype. -/
structure Evaluation (X F : Type) where
  x : X
  value : F
  deriving DecidableEq, Repr

/-- `_max_hist` is positive by its computation, and a candidate of size 0, whose value
is NaN, is `none`. -/
structure CMASolutions (X F : Type) where
  candidates : List (Candidate X F)
  bestCandidatesHist : List (Candidate X F)
  bestSeenCandidate : Option (Candidate X F)
  niter : ℕ
  maxHist : ℕ
  maxHist_pos : 0 < maxHist

variable {X F : Type}

namespace CMASolutions

def ofParameters (p : CMAParameters) : CMASolutions X F where
  candidates := []
  bestCandidatesHist := []
  bestSeenCandidate := none
  niter := 0
  maxHist := if p.maxHist > 0 then p.maxHist.toNat else 10 + 30 * p.dim / p.lambda
  maxHist_pos := by
    split_ifs
    · omega
    · exact Nat.add_pos_left (by omega) _

/-- Before the first generation there is none. -/
def bestCandidate (s : CMASolutions X F) : Option (Candidate X F) := s.bestCandidatesHist.getLast?

def incIter (s : CMASolutions X F) : CMASolutions X F := { s with niter := s.niter + 1 }

/-- `_best_candidates_hist` after one more candidate, and without the oldest once it is full. -/
def pushBest (s : CMASolutions X F) (c : Candidate X F) : List (Candidate X F) :=
  let hist := s.bestCandidatesHist ++ [c]
  if hist.length > s.maxHist then hist.tail else hist

theorem getLast?_pushBest (s : CMASolutions X F) (c : Candidate X F) :
    (s.pushBest c).getLast? = some c := by
  have hpos := s.maxHist_pos
  rw [pushBest]
  split_ifs with h
  · cases hhist : s.bestCandidatesHist with
    | nil =>
      rw [hhist, List.nil_append, List.length_singleton] at h
      omega
    | cons c' hist => simp
  · simp

variable [Fitness F]

def sortCandidates (s : CMASolutions X F) : CMASolutions X F :=
  { s with candidates := s.candidates.insertionSort fun c1 c2 => c1.fvalue ≤ c2.fvalue }

def updateBestSeen (s : CMASolutions X F) (c : Candidate X F) : Option (Candidate X F) :=
  match s.bestSeenCandidate with
  -- after the first generation a comparison with NaN, which fails
  | none => if s.niter = 0 then some c else none
  | some best => if c.fvalue < best.fvalue then some c else some best

/-- `none` where `_candidates.at(0)` throws. -/
def updateBestCandidates (s : CMASolutions X F) : Option (CMASolutions X F) :=
  s.candidates.head?.map fun c => { s with
    bestCandidatesHist := s.pushBest c
    bestSeenCandidate := s.updateBestSeen c }

end CMASolutions

variable [Fitness F]

def func (p : CMAParameters) (value : F) : F := if p.maximize then -value else value

def evalCandidate (p : CMAParameters) (e : Evaluation X F) : Candidate X F := ⟨func p e.value, e.x⟩

/-- One round of `CMAStrategy::optimize`: `eval`, `tell` and `inc_iter`. -/
def generation (p : CMAParameters) (s : CMASolutions X F) (pop : List (Evaluation X F)) :
    Option (CMASolutions X F) :=
  let s := { s with candidates := pop.map (evalCandidate p) }
  s.sortCandidates.updateBestCandidates.map CMASolutions.incIter

def optimize (p : CMAParameters) (pops : List (List (Evaluation X F))) :
    Option (CMASolutions X F) :=
  run (generation p) (.ofParameters p) pops

/-- After the populations `done`: the history ends with the best of the last one, and the
best seen is the best of all of them. -/
structure Tracks (p : CMAParameters) (done : List (List (Evaluation X F)))
    (s : CMASolutions X F) : Prop where
  niter : s.niter = done.length
  last : ∀ pop, done.getLast? = some pop → ∃ c, s.bestCandidate = some c ∧
    Best Candidate.fvalue (pop.map (evalCandidate p)) c
  seen : s.bestSeenCandidate = none ∧ done = [] ∨ ∃ c, s.bestSeenCandidate = some c ∧
    Best Candidate.fvalue (done.flatten.map (evalCandidate p)) c

theorem tracks_ofParameters (p : CMAParameters) : Tracks (X := X) (F := F) p [] (.ofParameters p) :=
  ⟨rfl, by simp, .inl ⟨rfl, rfl⟩⟩

theorem tracks_generation {p : CMAParameters} {done : List (List (Evaluation X F))}
    {s : CMASolutions X F} (h : Tracks p done s) {pop : List (Evaluation X F)} (hpop : pop ≠ []) :
    ∃ t, generation p s pop = some t ∧ Tracks p (done ++ [pop]) t := by
  have hne :
      (pop.map (evalCandidate p)).insertionSort (fun c1 c2 => c1.fvalue ≤ c2.fvalue) ≠ [] := by
    apply List.ne_nil_of_length_pos
    rw [List.length_insertionSort, List.length_map]
    exact List.length_pos_of_ne_nil hpop
  obtain ⟨c, cs, hsorted⟩ := List.exists_cons_of_ne_nil hne
  have hbest := Best.of_sorted hsorted
  refine ⟨_, by simp only [generation, CMASolutions.sortCandidates,
    CMASolutions.updateBestCandidates, hsorted, List.head?_cons, Option.map_some]; rfl, ?_, ?_, ?_⟩
  · simp [CMASolutions.incIter, h.niter]
  · intro pop' hlast
    obtain rfl : pop = pop' := by simpa using hlast
    exact ⟨c, CMASolutions.getLast?_pushBest _ c, hbest⟩
  · right
    rw [List.flatten_append, List.flatten_singleton, List.map_append]
    rcases h.seen with ⟨hnone, rfl⟩ | ⟨best, hsome, hseen⟩
    · -- the first generation
      refine ⟨c, ?_, by simpa using hbest⟩
      simp [CMASolutions.incIter, CMASolutions.updateBestSeen, hnone, h.niter]
    · by_cases hlt : c.fvalue < best.fvalue
      · refine ⟨c, ?_, hseen.append_right hbest hlt⟩
        simp [CMASolutions.incIter, CMASolutions.updateBestSeen, hsome, hlt]
      · refine ⟨best, ?_, hseen.append_left hbest hlt⟩
        simp [CMASolutions.incIter, CMASolutions.updateBestSeen, hsome, hlt]

theorem tracks_run {p : CMAParameters} {done pops : List (List (Evaluation X F))}
    {s : CMASolutions X F} (h : Tracks p done s) (hpops : ∀ pop ∈ pops, pop ≠ []) :
    ∃ t, run (generation p) s pops = some t ∧ Tracks p (done ++ pops) t := by
  induction pops generalizing done s with
  | nil => exact ⟨s, rfl, by simpa using h⟩
  | cons pop pops ih =>
    obtain ⟨s', hs', h'⟩ := tracks_generation h (hpops pop List.mem_cons_self)
    obtain ⟨t, ht, htracks⟩ := ih h' fun pop' hp => hpops pop' (List.mem_cons_of_mem pop hp)
    refine ⟨t, run_cons.mpr ⟨s', hs', ht⟩, ?_⟩
    rwa [List.append_cons]

theorem optimize_tracks (p : CMAParameters) {pops : List (List (Evaluation X F))}
    (hpops : ∀ pop ∈ pops, pop ≠ []) : ∃ s, optimize p pops = some s ∧ Tracks p pops s :=
  tracks_run (tracks_ofParameters p) hpops

end CmaesSolenoid.Libcmaes

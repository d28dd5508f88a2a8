import CmaesSolenoid.CmaStrategy

/-!
# What the records of a run hold

Each round of the loop leaves one summary in the records: the best and the k-th best
candidate, the worst one and the median. After any run the histories are the most
recent of these summaries, so each criterion on the histories is a statement about the
last generations.
-/

namespace CmaesSolenoid.Libcmaes
open Interleaving WhileLoop

variable {X : Type}

def rank (told : List (Candidate X ℚ)) : List (Candidate X ℚ) :=
  told.insertionSort fun c1 c2 => c1.fvalue ≤ c2.fvalue

/-- What the records take of a generation. -/
structure Summary (X : Type) where
  best : Candidate X ℚ
  kBest : Candidate X ℚ
  worst : Candidate X ℚ
  mid : ℚ

def summarize (kcand : ℕ) (told : List (Candidate X ℚ)) : Option (Summary X) := do
  let best ← (rank told).head?
  let kBest ← (rank told)[kcand]?
  let mid ← middle ((rank told).map Candidate.fvalue)
  let worst ← (rank told).getLast?
  return ⟨best, kBest, worst, mid⟩

theorem summarize_eq_some {kcand : ℕ} {told : List (Candidate X ℚ)} {g : Summary X} :
    summarize kcand told = some g ↔
      (rank told).head? = some g.best ∧ (rank told)[kcand]? = some g.kBest ∧
      middle ((rank told).map Candidate.fvalue) = some g.mid ∧
      (rank told).getLast? = some g.worst := by
  constructor
  · intro h
    obtain ⟨best, hbest, h⟩ := Option.bind_eq_some_iff.mp h
    obtain ⟨kBest, hkBest, h⟩ := Option.bind_eq_some_iff.mp h
    obtain ⟨mid, hmid, h⟩ := Option.bind_eq_some_iff.mp h
    obtain ⟨worst, hworst, h⟩ := Option.bind_eq_some_iff.mp h
    obtain rfl := Option.some.inj h
    exact ⟨hbest, hkBest, hmid, hworst⟩
  · rintro ⟨hbest, hkBest, hmid, hworst⟩
    rw [summarize, hbest, hkBest, hmid, hworst]
    rfl

theorem length_rank (told : List (Candidate X ℚ)) : (rank told).length = told.length :=
  List.length_insertionSort _ _

theorem mem_rank {told : List (Candidate X ℚ)} {c : Candidate X ℚ} : c ∈ rank told ↔ c ∈ told :=
  List.mem_insertionSort _

theorem exists_summary {kcand : ℕ} {told : List (Candidate X ℚ)} (h : kcand < told.length) :
    ∃ g, summarize kcand told = some g := by
  have hlen : kcand < (rank told).length := (length_rank told).symm ▸ h
  have hne : rank told ≠ [] := List.ne_nil_of_length_pos (Nat.zero_lt_of_lt hlen)
  have hvalues : (rank told).map Candidate.fvalue ≠ [] := by simpa using hne
  obtain ⟨mid, hmid⟩ := Option.ne_none_iff_exists'.mp (middle_ne_none hvalues)
  exact ⟨⟨(rank told).head hne, (rank told)[kcand], (rank told).getLast hne, mid⟩,
    summarize_eq_some.mpr ⟨List.head?_eq_some_head hne, List.getElem?_eq_getElem hlen, hmid,
      List.getLast?_eq_some_getLast hne⟩⟩

theorem best_of_summarize {kcand : ℕ} {told : List (Candidate X ℚ)} {g : Summary X}
    (h : summarize kcand told = some g) : Best Candidate.fvalue told g.best := by
  obtain ⟨cs, hcs⟩ := List.head?_eq_some_iff.mp (summarize_eq_some.mp h).1
  exact Best.of_sorted hcs

def askEvals (p : SearchParameters) : ℕ := if p.withGradient && !p.gfunc then p.dim + 1 else 0

def roundEvals (p : SearchParameters) : ℕ := askEvals p + p.lambda

def recorded (dim : ℕ) (s : SearchSolutions X) (g : Summary X) : SearchSolutions X :=
  { s with
    candidates := rank s.candidates
    bestCandidatesHist := RecentHistory.push s.maxHist s.bestCandidatesHist g.best
    bestSeenCandidate := s.updateBestSeen g.best
    kBestCandidatesHist := s.pushKBest g.kBest
    bfvalues := RecentHistory.push 20 s.bfvalues g.best.fvalue
    medianFvalues := RecentHistory.push
      (SearchSolutions.medianBound dim s.candidates.length s.niter) s.medianFvalues g.mid
    bestSeenIter := s.updateBestSeenIter g.best
    worstSeenCandidate := s.updateWorstSeen g.worst }

theorem updateBestCandidates_eq {s : SearchSolutions X} {dim : ℕ} {g : Summary X}
    (h : summarize s.kcand s.candidates = some g) :
    ({ s with toCMASolutions := s.sortCandidates } : SearchSolutions X).updateBestCandidates dim =
      some (recorded dim s g) := by
  obtain ⟨hbest, hkBest, hmid, hworst⟩ := summarize_eq_some.mp h
  have hsort : (s.sortCandidates).candidates = rank s.candidates := rfl
  simp only [SearchSolutions.updateBestCandidates, CMASolutions.updateBestCandidates, hsort, hbest,
    hkBest, hmid, hworst, Option.bind_eq_bind, Option.bind_some, Option.map_some, length_rank]
  rfl

theorem exists_summary_of_update {s u : SearchSolutions X} {dim : ℕ}
    (h : ({ s with toCMASolutions := s.sortCandidates } : SearchSolutions X).updateBestCandidates
      dim = some u) : ∃ g, summarize s.kcand s.candidates = some g := by
  obtain ⟨best, hbest, h⟩ := Option.bind_eq_some_iff.mp h
  obtain ⟨kBest, hkBest, h⟩ := Option.bind_eq_some_iff.mp h
  obtain ⟨mid, hmid, h⟩ := Option.bind_eq_some_iff.mp h
  obtain ⟨worst, hworst, -⟩ := Option.bind_eq_some_iff.mp h
  exact ⟨⟨best, kBest, worst, mid⟩, summarize_eq_some.mpr ⟨hbest, hkBest, hmid, hworst⟩⟩

def evaluated (p : SearchParameters) (r : Round X) : List (Candidate X ℚ) :=
  r.pop.map (evalCandidate p.toCMAParameters)

def Generation (p : SearchParameters) (kcand : ℕ) (r : Round X) (g : Summary X) : Prop :=
  ∃ told, summarize kcand told = some g ∧
    (told = evaluated p r ∨
      (p.elitist ∨ p.initialElitist ∨ p.initialElitistOnRestart) ∧
        ∃ ref, told = Strategy.injectRef ref (evaluated p r))

namespace Strategy

variable {p : SearchParameters} {st t : Strategy X} {r : Round X}

theorem length_injectRef (ref : Candidate X ℚ) (candidates : List (Candidate X ℚ)) :
    (injectRef ref candidates).length = candidates.length := by
  rw [injectRef]
  split_ifs
  · exact List.length_set
  · rfl

/-- What is told of a round, besides the reference, was measured. -/
theorem mem_of_mem_injectRef {c ref : Candidate X ℚ} {candidates : List (Candidate X ℚ)}
    (h : c ∈ injectRef ref candidates) : c = ref ∨ c ∈ candidates := by
  rw [injectRef] at h
  split_ifs at h
  · exact (List.mem_or_eq_of_mem_set h).symm
  · exact .inr h

theorem reinject_eq_some {candidates told : List (Candidate X ℚ)} :
    st.reinject p candidates = some told ↔
      st.reinjects p = false ∧ told = candidates ∨
      st.reinjects p = true ∧ ∃ ref, st.refCandidate p = some ref ∧
        told = injectRef ref candidates := by
  rw [reinject]
  cases st.reinjects p
  · simp [eq_comm]
  · simp [eq_comm]

theorem length_of_reinject {candidates told : List (Candidate X ℚ)}
    (h : st.reinject p candidates = some told) : told.length = candidates.length := by
  rcases reinject_eq_some.mp h with ⟨-, rfl⟩ | ⟨-, ref, -, rfl⟩
  · rfl
  · exact length_injectRef ref candidates

/-- All that a round does: `told` are the candidates after reinjection. -/
structure Rounded (p : SearchParameters) (st : Strategy X) (r : Round X)
    (told : List (Candidate X ℚ)) (g : Summary X) (t : Strategy X) : Prop where
  length_pop : r.pop.length = p.lambda
  reinject : st.reinject p (r.pop.map (evalCandidate p.toCMAParameters)) = some told
  summary : summarize st.solutions.kcand told = some g
  eq : t = { st with
    niter := st.niter + 1
    nevals := st.nevals + roundEvals p
    solutions := { recorded p.dim { st.solutions with candidates := told } g with
      niter := st.solutions.niter + 1
      nevals := st.solutions.nevals + roundEvals p
      spread := r.spread } }

namespace Rounded

variable {told : List (Candidate X ℚ)} {g : Summary X} (h : Rounded p st r told g t)
include h

theorem niter : t.niter = st.niter + 1 := by rw [h.eq]

theorem nevals : t.nevals = st.nevals + roundEvals p := by rw [h.eq]

theorem initialElitist : t.initialElitist = st.initialElitist := by rw [h.eq]

theorem solutions_niter : t.solutions.niter = st.solutions.niter + 1 := by rw [h.eq]

theorem solutions_nevals : t.solutions.nevals = st.solutions.nevals + roundEvals p := by rw [h.eq]

theorem runStatus : t.solutions.runStatus = st.solutions.runStatus := by rw [h.eq]; rfl

theorem maxHist : t.solutions.maxHist = st.solutions.maxHist := by rw [h.eq]; rfl

theorem kcand : t.solutions.kcand = st.solutions.kcand := by rw [h.eq]; rfl

theorem initialCandidate : t.solutions.initialCandidate = st.solutions.initialCandidate := by
  rw [h.eq]; rfl

theorem bests : t.solutions.bestCandidatesHist =
    RecentHistory.push st.solutions.maxHist st.solutions.bestCandidatesHist g.best := by
  rw [h.eq]; rfl

theorem kBests : t.solutions.kBestCandidatesHist = st.solutions.pushKBest g.kBest := by
  rw [h.eq]; rfl

theorem bfvalues :
    t.solutions.bfvalues = RecentHistory.push 20 st.solutions.bfvalues g.best.fvalue := by
  rw [h.eq]; rfl

theorem length_told : told.length = p.lambda := by
  rw [length_of_reinject h.reinject, List.length_map, h.length_pop]

theorem medians : t.solutions.medianFvalues = RecentHistory.push
    (SearchSolutions.medianBound p.dim p.lambda st.solutions.niter) st.solutions.medianFvalues
    g.mid := by
  rw [h.eq, ← h.length_told]; rfl

theorem bestSeen : t.solutions.bestSeenCandidate = st.solutions.updateBestSeen g.best := by
  rw [h.eq]; rfl

theorem bestSeenIter : t.solutions.bestSeenIter = st.solutions.updateBestSeenIter g.best := by
  rw [h.eq]; rfl

theorem generation : Generation p st.solutions.kcand r g := by
  refine ⟨told, h.summary, ?_⟩
  rcases reinject_eq_some.mp h.reinject with ⟨-, htold⟩ | ⟨hre, ref, -, htold⟩
  · exact .inl htold
  · have := (decide_eq_true_iff.mp hre).2
    exact .inr ⟨by tauto, ref, htold⟩

theorem worstSeen : t.solutions.worstSeenCandidate = st.solutions.updateWorstSeen g.worst := by
  rw [h.eq]; rfl

end Rounded

theorem ask_eq_some {pop : List (Evaluation X ℚ)} : st.ask p pop = some t ↔
    pop.length = p.lambda ∧ st.updateFevals (askEvals p) = t := by
  have hgrad : (if p.withGradient then st.gradf p else st) = st.updateFevals (askEvals p) := by
    rw [gradf, askEvals]
    cases p.withGradient <;> cases p.gfunc <;> rfl
  rw [ask, hgrad]
  split_ifs with hlen
  · simp [hlen]
  · simp [hlen]

theorem eval_eq_some {pop : List (Evaluation X ℚ)} : st.eval p pop = some t ↔
    ∃ told, st.reinject p (pop.map (evalCandidate p.toCMAParameters)) = some told ∧
      ({ st with solutions := { st.solutions with candidates := told } } : Strategy X).updateFevals
        pop.length = t := by
  rw [eval, Option.bind_eq_bind, Option.bind_eq_some_iff]
  simp only [Option.some.injEq, pure]

theorem tell_eq_some {spread : Criterion → Bool} : st.tell p spread = some t ↔
    ∃ g, summarize st.solutions.kcand st.solutions.candidates = some g ∧
      { st with solutions := { recorded p.dim st.solutions g with spread := spread } } = t := by
  constructor
  · intro h
    obtain ⟨solutions, hsol, h⟩ := Option.bind_eq_some_iff.mp h
    obtain ⟨g, hg⟩ := exists_summary_of_update hsol
    rw [updateBestCandidates_eq hg] at hsol
    obtain rfl := Option.some.inj hsol
    exact ⟨g, hg, Option.some.inj h⟩
  · rintro ⟨g, hg, rfl⟩
    simp only [tell, updateBestCandidates_eq hg, Option.bind_eq_bind, Option.bind_some]
    rfl

theorem round_eq_some : st.round p r = some t ↔ ∃ told g, Rounded p st r told g t := by
  constructor
  · intro h
    obtain ⟨st1, hask, h⟩ := Option.bind_eq_some_iff.mp h
    obtain ⟨st2, heval, h⟩ := Option.bind_eq_some_iff.mp h
    obtain ⟨st3, htell, h⟩ := Option.bind_eq_some_iff.mp h
    obtain ⟨hlen, rfl⟩ := ask_eq_some.mp hask
    obtain ⟨told, htold, rfl⟩ := eval_eq_some.mp heval
    obtain ⟨g, hg, rfl⟩ := tell_eq_some.mp htell
    refine ⟨told, g, hlen, htold, hg, ?_⟩
    rw [← Option.some.inj h, roundEvals, ← hlen, ← Nat.add_assoc, ← Nat.add_assoc]
    rfl
  · rintro ⟨told, g, hlen, htold, hg, rfl⟩
    refine Option.bind_eq_some_iff.mpr ⟨_, ask_eq_some.mpr ⟨hlen, rfl⟩, ?_⟩
    refine Option.bind_eq_some_iff.mpr ⟨_, eval_eq_some.mpr ⟨told, htold, rfl⟩, ?_⟩
    refine Option.bind_eq_some_iff.mpr ⟨_, tell_eq_some.mpr ⟨g, hg, rfl⟩, ?_⟩
    rw [roundEvals, ← hlen, ← Nat.add_assoc, ← Nat.add_assoc]
    rfl

structure Ready (p : SearchParameters) (st : Strategy X) : Prop where
  kcand : st.solutions.kcand < p.lambda
  ref : p.elitist ∨ p.initialElitist ∨ st.initialElitist →
    st.solutions.initialCandidate ≠ none ∧ st.solutions.bestSeenCandidate ≠ none

theorem Ready.refCandidate_ne_none (h : Ready p st) (hre : st.reinjects p = true) :
    st.refCandidate p ≠ none := by
  have hflags : p.elitist ∨ p.initialElitist ∨ st.initialElitist := by
    have := (decide_eq_true_iff.mp hre).2
    tauto
  obtain ⟨hinit, hseen⟩ := h.ref hflags
  rw [refCandidate]
  split_ifs
  · exact hinit
  · exact hseen

theorem Ready.exists_round (h : Ready p st) (hpop : r.pop.length = p.lambda) :
    ∃ t, st.round p r = some t := by
  have htold : ∃ told, st.reinject p (r.pop.map (evalCandidate p.toCMAParameters)) = some told := by
    cases hre : st.reinjects p with
    | false => exact ⟨_, reinject_eq_some.mpr (.inl ⟨hre, rfl⟩)⟩
    | true =>
      obtain ⟨ref, href⟩ := Option.ne_none_iff_exists'.mp (h.refCandidate_ne_none hre)
      exact ⟨_, reinject_eq_some.mpr (.inr ⟨hre, ref, href, rfl⟩)⟩
  obtain ⟨told, htold⟩ := htold
  have hlen : told.length = p.lambda := by
    rw [length_of_reinject htold, List.length_map, hpop]
  obtain ⟨g, hg⟩ := exists_summary (hlen.symm ▸ h.kcand)
  exact ⟨_, round_eq_some.mpr ⟨told, g, hpop, htold, hg, rfl⟩⟩

theorem updateBestSeen_ne_none {s : CMASolutions X ℚ} {c : Candidate X ℚ}
    (h : s.bestSeenCandidate ≠ none) : s.updateBestSeen c ≠ none := by
  obtain ⟨best, hbest⟩ := Option.ne_none_iff_exists'.mp h
  simp only [CMASolutions.updateBestSeen, hbest]
  split_ifs <;> exact Option.some_ne_none _

theorem Ready.round (h : Ready p st) (hround : st.round p r = some t) : Ready p t := by
  obtain ⟨told, g, hr⟩ := round_eq_some.mp hround
  rw [hr.eq]
  exact ⟨h.kcand, fun hflags => ⟨(h.ref hflags).1, updateBestSeen_ne_none (h.ref hflags).2⟩⟩

theorem rounds_induction {rs : List (Round X)} (inv : List (Summary X) → Strategy X → Prop)
    (hstep : ∀ gens st r told g t, r ∈ rs → inv gens st → Rounded p st r told g t →
      inv (gens ++ [g]) t)
    (gens : List (Summary X)) (h : inv gens st) (hrun : rounds p st rs = some t) :
    ∃ news, List.Forall₂ (Generation p st.solutions.kcand) rs news ∧ inv (gens ++ news) t := by
  induction rs generalizing st gens with
  | nil =>
    obtain rfl := Option.some.inj hrun
    exact ⟨[], .nil, by rwa [List.append_nil]⟩
  | cons r rs ih =>
    obtain ⟨u, hu, hrun⟩ := run_cons.mp hrun
    obtain ⟨told, g, hr⟩ := round_eq_some.mp (WhileLoop.round_eq_some.mp hu).2
    obtain ⟨news, hnews, hinv⟩ := ih
      (fun gens st r told g t hr => hstep gens st r told g t (List.mem_cons_of_mem _ hr))
      _ (hstep gens st r told g u List.mem_cons_self h hr) hrun
    rw [hr.kcand] at hnews
    refine ⟨g :: news, .cons hr.generation hnews, ?_⟩
    rwa [List.append_cons]

def beginEvals (p : SearchParameters) (st : Strategy X) : ℕ := if st.needsInitial p then 1 else 0

theorem begin_eq (p : SearchParameters) (st : Strategy X) (e : Evaluation X ℚ) :
    ∃ initial seen, st.begin p e = { st with
      nevals := st.nevals + st.beginEvals p
      solutions := { st.solutions with
        initialCandidate := initial
        bestSeenCandidate := seen
        nevals := st.solutions.nevals + st.beginEvals p } } := by
  rw [Strategy.begin, beginEvals]
  split_ifs
  · exact ⟨_, _, rfl⟩
  · exact ⟨_, _, rfl⟩

variable (p : SearchParameters) (st : Strategy X) (e : Evaluation X ℚ)

theorem begin_niter : (st.begin p e).niter = st.niter := by
  obtain ⟨_, _, h⟩ := begin_eq p st e
  rw [h]

theorem begin_nevals : (st.begin p e).nevals = st.nevals + st.beginEvals p := by
  obtain ⟨_, _, h⟩ := begin_eq p st e
  rw [h]

theorem begin_solutions_nevals :
    (st.begin p e).solutions.nevals = st.solutions.nevals + st.beginEvals p := by
  obtain ⟨_, _, h⟩ := begin_eq p st e
  rw [h]

theorem begin_runStatus : (st.begin p e).solutions.runStatus = st.solutions.runStatus := by
  obtain ⟨_, _, h⟩ := begin_eq p st e
  rw [h]

theorem begin_initialElitist : (st.begin p e).initialElitist = st.initialElitist := by
  obtain ⟨_, _, h⟩ := begin_eq p st e
  rw [h]

theorem begin_kcand : (st.begin p e).solutions.kcand = st.solutions.kcand := by
  obtain ⟨_, _, h⟩ := begin_eq p st e
  rw [h]

theorem begin_maxHist : (st.begin p e).solutions.maxHist = st.solutions.maxHist := by
  obtain ⟨_, _, h⟩ := begin_eq p st e
  rw [h]

end Strategy

/-- The candidates that a later round may be told again. -/
structure Kept (P : Candidate X ℚ → Prop) (st : Strategy X) : Prop where
  seen : ∀ c, st.solutions.bestSeenCandidate = some c → P c
  initial : ∀ c, st.solutions.initialCandidate = some c → P c

namespace Kept
open Strategy

variable {P : Candidate X ℚ → Prop} {p : SearchParameters} {st t : Strategy X} {r : Round X}
  {told : List (Candidate X ℚ)} {g : Summary X}

theorem of_fresh (h : Fresh p st) : Kept P st := by
  obtain ⟨n, hn⟩ := h.solutions
  constructor <;>
  · intro c hc
    rw [hn] at hc
    cases hc

theorem begin (h : Kept P st) {e : Evaluation X ℚ} (he : P (evalCandidate p.toCMAParameters e)) :
    Kept P (st.begin p e) := by
  rw [Strategy.begin]
  split_ifs
  · constructor <;>
    · intro c hc
      exact Option.some.inj hc ▸ he
  · exact h

theorem refCandidate (h : Kept P st) {ref : Candidate X ℚ}
    (href : st.refCandidate p = some ref) : P ref := by
  rw [Strategy.refCandidate] at href
  split_ifs at href
  · exact h.initial ref href
  · exact h.seen ref href

theorem forall_told (h : Kept P st) (hr : Rounded p st r told g t) (hP : ∀ c ∈ evaluated p r, P c) :
    ∀ c ∈ told, P c := by
  intro c hc
  rcases reinject_eq_some.mp hr.reinject with ⟨-, rfl⟩ | ⟨-, ref, href, rfl⟩
  · exact hP c hc
  · rcases mem_of_mem_injectRef hc with rfl | hc
    · exact h.refCandidate href
    · exact hP c hc

theorem rounded (h : Kept P st) (hr : Rounded p st r told g t)
    (hP : ∀ c ∈ evaluated p r, P c) : Kept P t := by
  have hbest : P g.best := h.forall_told hr hP _ (best_of_summarize hr.summary).mem
  constructor
  · intro c hc
    rw [hr.bestSeen, CMASolutions.updateBestSeen] at hc
    cases hseen : st.solutions.bestSeenCandidate with
    | none =>
      simp only [hseen] at hc
      split_ifs at hc
      exact Option.some.inj hc ▸ hbest
    | some seen =>
      simp only [hseen] at hc
      split_ifs at hc
      · exact Option.some.inj hc ▸ hbest
      · exact Option.some.inj hc ▸ h.seen seen hseen
  · intro c hc
    rw [hr.initialCandidate] at hc
    exact h.initial c hc

end Kept

/-- The records after generations with these summaries. -/
structure Records (p : SearchParameters) (gens : List (Summary X)) (st : Strategy X) : Prop where
  niter : st.niter = gens.length
  solutions_niter : st.solutions.niter = gens.length
  bests : st.solutions.bestCandidatesHist = (gens.map Summary.best).rtake st.solutions.maxHist
  kBests : st.solutions.kBestCandidatesHist = (gens.map Summary.kBest).rtake st.solutions.maxHist
  bfvalues : st.solutions.bfvalues = (gens.map fun g => g.best.fvalue).rtake 20
  medians : st.solutions.medianFvalues = (gens.map Summary.mid).rtake
    (SearchSolutions.medianBound p.dim p.lambda (gens.length - 1))
  worst : st.solutions.worstSeenCandidate = none ∧ gens = [] ∨
    ∃ c, st.solutions.worstSeenCandidate = some c ∧
      Best (fun c => -c.fvalue) (gens.map Summary.worst) c

namespace SearchSolutions

theorem medianBound_mono (dim lambda niter : ℕ) :
    medianBound dim lambda niter ≤ medianBound dim lambda (niter + 1) := by
  apply Nat.ceil_mono
  push_cast
  linarith

/-- The bound grows by at most one from one generation to the next. -/
theorem medianBound_succ_le (dim lambda niter : ℕ) :
    medianBound dim lambda (niter + 1) ≤ medianBound dim lambda niter + 1 := by
  have hnonneg : (0 : ℚ) ≤ 1 / 5 * niter + 120 + 30 * dim / lambda := by positivity
  rw [medianBound, medianBound, ← Nat.ceil_add_one hnonneg]
  apply Nat.ceil_mono
  push_cast
  linarith

theorem le_medianBound (dim lambda niter : ℕ) : 120 ≤ medianBound dim lambda niter := by
  have h : (120 : ℚ) ≤ 1 / 5 * niter + 120 + 30 * dim / lambda := by
    have h1 : (0 : ℚ) ≤ 1 / 5 * niter := by positivity
    have h2 : (0 : ℚ) ≤ 30 * dim / lambda := by positivity
    linarith
  exact Nat.cast_le.mp (h.trans (Nat.le_ceil _))

end SearchSolutions

namespace Records
open Strategy

variable {p : SearchParameters} {st t : Strategy X} {r : Round X} {rs : List (Round X)}
  {gens : List (Summary X)} {told : List (Candidate X ℚ)} {g : Summary X}

theorem medianBound_steps (p : SearchParameters) (n : ℕ) :
    SearchSolutions.medianBound p.dim p.lambda (n - 1) ≤
        SearchSolutions.medianBound p.dim p.lambda n ∧
      SearchSolutions.medianBound p.dim p.lambda n ≤
        SearchSolutions.medianBound p.dim p.lambda (n - 1) + 1 ∧
      0 < SearchSolutions.medianBound p.dim p.lambda n := by
  have hpos := (Nat.zero_lt_succ 119).trans_le (SearchSolutions.le_medianBound p.dim p.lambda n)
  cases n with
  | zero => exact ⟨le_rfl, Nat.le_succ _, hpos⟩
  | succ n =>
    exact ⟨SearchSolutions.medianBound_mono _ _ n, SearchSolutions.medianBound_succ_le _ _ n, hpos⟩

theorem rounded (h : Records p gens st) (hr : Rounded p st r told g t) :
    Records p (gens ++ [g]) t := by
  have hmax := st.solutions.maxHist_pos
  constructor
  · rw [hr.niter, h.niter, List.length_append, List.length_singleton]
  · rw [hr.solutions_niter, h.solutions_niter, List.length_append, List.length_singleton]
  · rw [hr.bests, hr.maxHist, h.bests, RecentHistory.push_rtake_self hmax, List.map_append,
      List.map_singleton]
  · -- the two histories are equally long
    have hpush : st.solutions.pushKBest g.kBest =
        RecentHistory.push st.solutions.maxHist st.solutions.kBestCandidatesHist g.kBest := by
      rw [SearchSolutions.pushKBest, RecentHistory.push, h.bests, h.kBests]
      simp only [List.length_append, List.length_singleton, RecentHistory.length_rtake,
        List.length_map]
    rw [hr.kBests, hr.maxHist, hpush, h.kBests, RecentHistory.push_rtake_self hmax,
      List.map_append, List.map_singleton]
  · rw [hr.bfvalues, h.bfvalues, RecentHistory.push_rtake_self (by decide), List.map_append,
      List.map_singleton]
  · have hbound := medianBound_steps p gens.length
    rw [hr.medians, h.medians, h.solutions_niter,
      RecentHistory.push_rtake hbound.1 hbound.2.1 hbound.2.2, List.map_append, List.map_singleton,
      List.length_append, List.length_singleton, Nat.add_sub_cancel]
  · right
    rw [hr.worstSeen, List.map_append, List.map_singleton]
    rcases h.worst with ⟨hnone, rfl⟩ | ⟨worst, hsome, hworst⟩
    · refine ⟨g.worst, ?_, List.mem_singleton_self _, by simp⟩
      simp [SearchSolutions.updateWorstSeen, hnone, h.solutions_niter]
    · have hg : Best (fun c : Candidate X ℚ => -c.fvalue) [g.worst] g.worst :=
        ⟨List.mem_singleton_self _, by simp⟩
      by_cases hlt : g.worst.fvalue > worst.fvalue
      · refine ⟨g.worst, ?_, hworst.append_right hg (neg_lt_neg hlt)⟩
        simp [SearchSolutions.updateWorstSeen, hsome, hlt]
      · refine ⟨worst, ?_, hworst.append_left hg fun h => hlt (neg_lt_neg_iff.mp h)⟩
        simp [SearchSolutions.updateWorstSeen, hsome, hlt]

theorem begin (h : Fresh p st) (e : Evaluation X ℚ) : Records p [] (st.begin p e) := by
  obtain ⟨n, hn⟩ := h.solutions
  have hniter := h.niter
  rw [Strategy.begin]
  split_ifs
  · constructor <;> simp [updateFevals, hniter, hn, SearchSolutions.ofParameters,
      CMASolutions.ofParameters, List.rtake]
  · constructor <;> simp [hniter, hn, SearchSolutions.ofParameters, CMASolutions.ofParameters,
      List.rtake]

theorem getLast?_bests (h : Records p gens st) (hg : gens.getLast? = some g) :
    st.solutions.bestCandidatesHist.getLast? = some g.best := by
  obtain ⟨front, rfl⟩ := List.getLast?_eq_some_iff.mp hg
  rw [h.bests, List.map_append, List.map_singleton,
    ← RecentHistory.push_rtake_self st.solutions.maxHist_pos,
    RecentHistory.getLast?_push st.solutions.maxHist_pos]

theorem rounds (h : Records p gens st) (hrun : Strategy.rounds p st rs = some t) :
    ∃ news, List.Forall₂ (Generation p st.solutions.kcand) rs news ∧
      Records p (gens ++ news) t ∧ t.solutions.maxHist = st.solutions.maxHist :=
  rounds_induction
    (fun gens u => Records p gens u ∧ u.solutions.maxHist = st.solutions.maxHist)
    (fun _ _ _ _ _ _ _ hinv hr => ⟨hinv.1.rounded hr, hr.maxHist.trans hinv.2⟩) gens ⟨h, rfl⟩ hrun

end Records

/-- The records of a run, from its beginning. -/
theorem exists_records {p : SearchParameters} {st t : Strategy X} {e : Evaluation X ℚ}
    {rs : List (Round X)} (hfresh : Strategy.Fresh p st)
    (hrun : Strategy.rounds p (st.begin p e) rs = some t) :
    ∃ gens, List.Forall₂ (Generation p st.solutions.kcand) rs gens ∧ Records p gens t ∧
      t.solutions.maxHist = st.solutions.maxHist := by
  obtain ⟨gens, hgens, hrec, hmax⟩ := (Records.begin hfresh e).rounds hrun
  rw [Strategy.begin_kcand] at hgens
  rw [Strategy.begin_maxHist] at hmax
  exact ⟨gens, hgens, hrec, hmax⟩

end CmaesSolenoid.Libcmaes

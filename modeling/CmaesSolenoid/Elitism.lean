import CmaesSolenoid.SearchRuns

/-!
# Reinjection

An elitist run puts the best candidate seen back into each generation after the first.
The last generation is then at least as good as all before it. But the candidate takes
the second place, and the point measured there is lost even where it is the best one.
-/

namespace CmaesSolenoid.Libcmaes
open Interleaving WhileLoop

variable {X : Type}

namespace Strategy

variable {p : SearchParameters} {st t u : Strategy X} {e : Evaluation X ℚ} {r : Round X}
  {rs : List (Round X)} {ref c : Candidate X ℚ} {candidates told : List (Candidate X ℚ)}
  {g : Summary X}

/-- With two points or more, something at least as good as the reference is told. -/
theorem exists_le_ref (ref : Candidate X ℚ) (hlen : 2 ≤ candidates.length) :
    ∃ c ∈ injectRef ref candidates, c.fvalue ≤ ref.fvalue := by
  rw [injectRef]
  split_ifs with hfew
  · exact ⟨ref, List.mem_set hlen ref, le_rfl⟩
  · have hpos : 0 < candidates.countP fun c => c.fvalue < ref.fvalue := by omega
    obtain ⟨c, hc, hlt⟩ := List.countP_pos_iff.mp hpos
    exact ⟨c, hc, (of_decide_eq_true hlt).le⟩

theorem Rounded.best_le_ref (hr : Rounded p st r told g t) (hlambda : 2 ≤ p.lambda)
    (hre : st.reinjects p = true) (href : st.refCandidate p = some ref) :
    g.best.fvalue ≤ ref.fvalue := by
  rcases reinject_eq_some.mp hr.reinject with ⟨hno, -⟩ | ⟨-, ref', href', htold⟩
  · rw [hre] at hno
    cases hno
  · obtain rfl := Option.some.inj (href'.symm.trans href)
    have hlen : 2 ≤ (r.pop.map (evalCandidate p.toCMAParameters)).length := by
      rwa [List.length_map, hr.length_pop]
    obtain ⟨c, hc, hle⟩ := exists_le_ref ref' hlen
    exact ((best_of_summarize hr.summary).le c (htold ▸ hc)).trans hle

theorem updateBestSeen_of_some {s : CMASolutions X ℚ} {best : Candidate X ℚ}
    (h : s.bestSeenCandidate = some best) (c : Candidate X ℚ) :
    s.updateBestSeen c = some (if c.fvalue < best.fvalue then c else best) := by
  simp only [CMASolutions.updateBestSeen, h]
  split_ifs <;> rfl

theorem updateBestSeenIter_of_some {s : SearchSolutions X} {best : Candidate X ℚ}
    (h : s.bestSeenCandidate = some best) (c : Candidate X ℚ) :
    s.updateBestSeenIter c = if c.fvalue < best.fvalue then some s.niter else s.bestSeenIter := by
  simp only [SearchSolutions.updateBestSeenIter, h]

end Strategy

structure Seen (init : List (Candidate X ℚ)) (gens : List (Summary X)) (st : Strategy X) :
    Prop where
  best : st.solutions.bestSeenCandidate = none ∧ init = [] ∧ gens = [] ∨
    ∃ seen, st.solutions.bestSeenCandidate = some seen ∧
      Best Candidate.fvalue (init ++ gens.map Summary.best) seen
  iter : st.solutions.bestSeenIter = none ↔
    ∀ g ∈ gens, ∃ i ∈ init, i.fvalue ≤ g.best.fvalue

namespace Seen
open Strategy

variable {p : SearchParameters} {st t : Strategy X} {e : Evaluation X ℚ} {r : Round X}
  {rs : List (Round X)} {told init : List (Candidate X ℚ)} {gens : List (Summary X)}
  {g : Summary X} {seen : Candidate X ℚ}

theorem rounded (h : Seen init gens st) (hrec : Records p gens st)
    (hr : Rounded p st r told g t) : Seen init (gens ++ [g]) t := by
  have hg : Best Candidate.fvalue [g.best] g.best := ⟨List.mem_singleton_self _, by simp⟩
  rcases h.best with ⟨hnone, rfl, rfl⟩ | ⟨seen, hseen, hbest⟩
  · -- the first generation, with nothing seen before
    have hzero : st.solutions.niter = 0 := hrec.solutions_niter
    constructor
    · refine .inr ⟨g.best, ?_, by simpa using hg⟩
      rw [hr.bestSeen]
      simp [CMASolutions.updateBestSeen, hnone, hzero]
    · rw [hr.bestSeenIter]
      simp [SearchSolutions.updateBestSeenIter, hnone, hzero]
  · constructor
    · right
      rw [hr.bestSeen, updateBestSeen_of_some hseen, List.map_append, List.map_singleton,
        ← List.append_assoc]
      split_ifs with hlt
      · exact ⟨g.best, rfl, hbest.append_right hg hlt⟩
      · exact ⟨seen, rfl, hbest.append_left hg hlt⟩
    · rw [hr.bestSeenIter, updateBestSeenIter_of_some hseen]
      simp only [List.forall_mem_append, List.forall_mem_singleton, ← h.iter]
      split_ifs with hlt
      · -- an improvement is one on everything in `init`
        refine iff_of_false id fun hall => ?_
        obtain ⟨i, hi, hle⟩ := hall.2
        exact absurd (hbest.le i (List.mem_append_left _ hi)) (not_le.mpr (hle.trans_lt hlt))
      · refine ⟨fun hnone => ⟨hnone, ?_⟩, And.left⟩
        rcases List.mem_append.mp hbest.mem with hmem | hmem
        · exact ⟨seen, hmem, not_lt.mp hlt⟩
        · obtain ⟨g', hg', heq⟩ := List.mem_map.mp hmem
          obtain ⟨i, hi, hle⟩ := h.iter.mp hnone g' hg'
          exact ⟨i, hi, hle.trans (heq ▸ not_lt.mp hlt)⟩

theorem begin (h : Fresh p st) (e : Evaluation X ℚ) :
    Seen (if st.needsInitial p then [evalCandidate p.toCMAParameters e] else []) []
      (st.begin p e) := by
  obtain ⟨n, hn⟩ := h.solutions
  rw [Strategy.begin]
  split_ifs
  · refine ⟨.inr ⟨evalCandidate p.toCMAParameters e, rfl, by simp, by simp⟩, ?_⟩
    simp [updateFevals, hn, SearchSolutions.ofParameters]
  · refine ⟨.inl ⟨?_, rfl, rfl⟩, ?_⟩
    · rw [hn]
      rfl
    · simp [hn, SearchSolutions.ofParameters]

end Seen

namespace Strategy

variable {p : SearchParameters} {st t u : Strategy X} {e : Evaluation X ℚ} {r : Round X}
  {rs : List (Round X)} {ref : Candidate X ℚ} {candidates told : List (Candidate X ℚ)}
  {g : Summary X}

structure ReinjectsSeen (p : SearchParameters) : Prop where
  elitist : p.elitist = true
  initialElitist : p.initialElitist = false
  initialElitistOnRestart : p.initialElitistOnRestart = false

theorem reinjectsSeen_setElitism (p : SearchParameters) : ReinjectsSeen (p.setElitism 1) :=
  ⟨rfl, rfl, rfl⟩

theorem ReinjectsSeen.needsInitial (h : ReinjectsSeen p) (st : Strategy X) :
    st.needsInitial p = true := by
  simp [Strategy.needsInitial, h.elitist]

theorem ReinjectsSeen.reinjects (h : ReinjectsSeen p) (hpos : 0 < st.niter) :
    st.reinjects p = true := by
  simp [Strategy.reinjects, h.elitist, hpos]

theorem ReinjectsSeen.refCandidate (h : ReinjectsSeen p) (st : Strategy X) :
    st.refCandidate p = st.solutions.bestSeenCandidate := by
  simp [Strategy.refCandidate, h.initialElitist, h.initialElitistOnRestart]

def LastIsBest (gens : List (Summary X)) (st : Strategy X) : Prop :=
  2 ≤ gens.length → ∃ g seen, gens.getLast? = some g ∧
    st.solutions.bestSeenCandidate = some seen ∧ g.best.fvalue = seen.fvalue

theorem lastIsBest_rounded {init : List (Candidate X ℚ)} {gens : List (Summary X)}
    (h : ReinjectsSeen p) (hlambda : 2 ≤ p.lambda) (hrec : Records p gens st)
    (hseen : Seen init gens st) (hr : Rounded p st r told g t) : LastIsBest (gens ++ [g]) t := by
  intro htwo
  rw [List.length_append, List.length_singleton] at htwo
  have hpos : 0 < st.niter := by
    rw [hrec.niter]
    omega
  rcases hseen.best with ⟨-, -, rfl⟩ | ⟨seen, hsome, -⟩
  · simp at htwo
  have hle := hr.best_le_ref hlambda (h.reinjects hpos) ((h.refCandidate st).trans hsome)
  refine ⟨g, _, List.getLast?_concat, hr.bestSeen.trans (updateBestSeen_of_some hsome g.best), ?_⟩
  split_ifs with hlt
  · rfl
  · exact le_antisymm hle (not_lt.mp hlt)

def Complete (p : SearchParameters) (e : Evaluation X ℚ) (rs : List (Round X))
    (st : Strategy X) : Prop :=
  ∃ seen, st.solutions.bestSeenCandidate = some seen ∧
    Best Candidate.fvalue (evalCandidate p.toCMAParameters e :: rs.flatMap (evaluated p)) seen

/-- The second point of the round is better than all others and than the best seen, and the best
seen takes its place. -/
def LosesBest (p : SearchParameters) (st : Strategy X) (r : Round X) : Prop :=
  ∃ seen c0 c cs, st.solutions.bestSeenCandidate = some seen ∧ 0 < st.niter ∧
    evaluated p r = c0 :: c :: cs ∧
    (c0 :: c :: cs).countP (fun d => d.fvalue < seen.fvalue) < (c0 :: c :: cs).length / 2 ∧
    c.fvalue < seen.fvalue ∧ ∀ d ∈ c0 :: cs, c.fvalue < d.fvalue

theorem forall_le_injectRef_iff (hbest : Best Candidate.fvalue (injectRef ref candidates) c) :
    (∀ d ∈ candidates, min ref.fvalue c.fvalue ≤ d.fvalue) ↔
      ¬ ∃ c0 c1 cs, candidates = c0 :: c1 :: cs ∧
        (c0 :: c1 :: cs).countP (fun d => d.fvalue < ref.fvalue) < (c0 :: c1 :: cs).length / 2 ∧
        c1.fvalue < ref.fvalue ∧ ∀ d ∈ c0 :: cs, c1.fvalue < d.fvalue := by
  by_cases hfew : candidates.countP (fun d => d.fvalue < ref.fvalue) < candidates.length / 2
  · obtain ⟨c0, c1, cs, rfl⟩ : ∃ c0 c1 cs, candidates = c0 :: c1 :: cs := by
      cases candidates with
      | nil => simp at hfew
      | cons c0 rest =>
        cases rest with
        | nil => simp at hfew
        | cons c1 cs => exact ⟨c0, c1, cs, rfl⟩
    have htold : injectRef ref (c0 :: c1 :: cs) = c0 :: ref :: cs := by
      rw [injectRef, if_pos hfew]
      rfl
    rw [htold] at hbest
    constructor
    · rintro hall ⟨_, _, _, heq, -, hlt, hothers⟩
      obtain ⟨rfl, rfl, rfl⟩ : _ ∧ _ ∧ _ := by simpa using heq
      have hle := hall c1 (by simp)
      -- the best of what is told is the reference or one of the others
      have hc : c1.fvalue < c.fvalue := by
        rcases List.mem_cons.mp hbest.mem with rfl | hmem
        · exact hothers c (by simp)
        · rcases List.mem_cons.mp hmem with rfl | hmem
          · exact hlt
          · exact hothers c (List.mem_cons_of_mem _ hmem)
      exact absurd hle (not_le.mpr (lt_min hlt hc))
    · intro hkept d hd
      by_cases hd1 : d = c1
      · subst hd1
        by_contra hnot
        rw [not_le, lt_min_iff] at hnot
        refine hkept ⟨c0, d, cs, rfl, hfew, hnot.1, fun x hx => ?_⟩
        refine hnot.2.trans_le (hbest.le x ?_)
        rcases List.mem_cons.mp hx with rfl | hx
        · simp
        · simp [hx]
      · refine (min_le_right _ _).trans (hbest.le d ?_)
        rcases List.mem_cons.mp hd with rfl | hd
        · simp
        · rcases List.mem_cons.mp hd with rfl | hd
          · exact absurd rfl hd1
          · simp [hd]
  · have htold : injectRef ref candidates = candidates := by rw [injectRef, if_neg hfew]
    rw [htold] at hbest
    refine iff_of_true (fun d hd => (min_le_right _ _).trans (hbest.le d hd)) ?_
    rintro ⟨c0, c1, cs, rfl, hfew', -⟩
    exact hfew hfew'

theorem complete_rounded_iff (h : ReinjectsSeen p) (hst : Complete p e rs st)
    (hr : Rounded p st r told g t) : Complete p e (rs ++ [r]) t ↔ ¬ LosesBest p st r := by
  obtain ⟨seen, hsome, hall⟩ := hst
  have hbest := best_of_summarize hr.summary
  have hseen := hr.bestSeen.trans (updateBestSeen_of_some hsome g.best)
  have hvalue : (if g.best.fvalue < seen.fvalue then g.best else seen).fvalue =
      min seen.fvalue g.best.fvalue := by
    split_ifs with hlt
    · exact (min_eq_right hlt.le).symm
    · exact (min_eq_left (not_lt.mp hlt)).symm
  have htold : g.best = seen ∨ g.best ∈ evaluated p r := by
    rcases reinject_eq_some.mp hr.reinject with ⟨-, rfl⟩ | ⟨-, ref, href, rfl⟩
    · exact .inr hbest.mem
    · obtain rfl := Option.some.inj ((h.refCandidate st ▸ href).symm.trans hsome)
      exact mem_of_mem_injectRef hbest.mem
  -- the record is complete when nothing measured in this round is better
  have hiff : Complete p e (rs ++ [r]) t ↔
      ∀ d ∈ evaluated p r, min seen.fvalue g.best.fvalue ≤ d.fvalue := by
    have happend : evalCandidate p.toCMAParameters e :: (rs ++ [r]).flatMap (evaluated p) =
        (evalCandidate p.toCMAParameters e :: rs.flatMap (evaluated p)) ++ evaluated p r := by
      rw [List.flatMap_append, List.flatMap_singleton, List.cons_append]
    rw [Complete, happend]
    constructor
    · rintro ⟨seen', hseen', hbest'⟩ d hd
      obtain rfl := Option.some.inj (hseen'.symm.trans hseen)
      exact hvalue ▸ hbest'.le d (List.mem_append_right _ hd)
    · intro hle
      refine ⟨_, hseen, ?_, fun x hx => ?_⟩
      · split_ifs with hlt
        · rcases htold with heq | hmem
          · exact absurd hlt (heq ▸ lt_irrefl _)
          · exact List.mem_append_right _ hmem
        · exact List.mem_append_left _ hall.mem
      · rw [hvalue]
        rcases List.mem_append.mp hx with hx | hx
        · exact (min_le_left _ _).trans (hall.le x hx)
        · exact hle x hx
  rw [hiff]
  rcases reinject_eq_some.mp hr.reinject with ⟨hno, rfl⟩ | ⟨hre, ref, href, rfl⟩
  · -- nothing is reinjected
    refine iff_of_true (fun d hd => (min_le_right _ _).trans (hbest.le d hd)) ?_
    rintro ⟨_, _, _, _, _, hpos, -⟩
    rw [h.reinjects hpos] at hno
    cases hno
  · obtain rfl := Option.some.inj ((h.refCandidate st ▸ href).symm.trans hsome)
    refine (forall_le_injectRef_iff hbest).trans (not_congr ⟨?_, ?_⟩)
    · rintro ⟨c0, c1, cs, hcands, hfew, hlt, hothers⟩
      exact ⟨ref, c0, c1, cs, hsome, (decide_eq_true_iff.mp hre).1, hcands, hfew, hlt, hothers⟩
    · rintro ⟨seen', c0, c1, cs, hseen', -, hcands, hfew, hlt, hothers⟩
      obtain rfl := Option.some.inj (hseen'.symm.trans hsome)
      exact ⟨c0, c1, cs, hcands, hfew, hlt, hothers⟩

/-- The 1 of the second point of the second round is lost. -/
example : (rounds ((SearchParameters.ofCMAParameters ⟨1, 4, 0, false⟩).setElitism 1)
      ((ofParameters
        ((SearchParameters.ofCMAParameters ⟨1, 4, 0, false⟩).setElitism 1)).begin
        ((SearchParameters.ofCMAParameters ⟨1, 4, 0, false⟩).setElitism 1) ⟨0, 7⟩)
      [⟨[⟨1, 5⟩, ⟨2, 6⟩, ⟨3, 6⟩, ⟨4, 6⟩], fun _ => false⟩,
        ⟨[⟨5, 9⟩, ⟨6, 1⟩, ⟨7, 9⟩, ⟨8, 9⟩], fun _ => false⟩]).bind
      (fun t => t.solutions.bestSeenCandidate) = some ⟨5, 1⟩ := by
  decide +kernel

end Strategy

end CmaesSolenoid.Libcmaes

import CmaesSolenoid.Optimiser
import CmaesSolenoid.SearchRuns

/-!
# The searches of the program

`do_2dcmaes` and `do_3dcmaes` leave all but the direction and the budget of a search to
the defaults. Such a search reinjects nothing, so its loop does what the model of its
two main records says, and it ends.
-/

namespace CmaesSolenoid
open Libcmaes Interleaving

/-- What the program sets besides the direction: the budget. -/
def searchParameters (p : CMAParameters) (maxFevals : ℤ) : SearchParameters :=
  (SearchParameters.ofCMAParameters p).setMaxFevals (if maxFevals > 0 then maxFevals else -1)

namespace Libcmaes

variable {X : Type} {p : SearchParameters} {st t : Strategy X} {e : Evaluation X ℚ} {r : Round X}
  {rs : List (Round X)} {told : List (Candidate X ℚ)} {g : Summary X}

structure Plain (p : SearchParameters) : Prop where
  elitist : p.elitist = false
  initialElitist : p.initialElitist = false
  initialElitistOnRestart : p.initialElitistOnRestart = false
  initialFvalue : p.initialFvalue = false
  withGradient : p.withGradient = false
  withEdm : p.withEdm = false

theorem plain_searchParameters (q : CMAParameters) (maxFevals : ℤ) :
    Plain (searchParameters q maxFevals) :=
  ⟨rfl, rfl, rfl, rfl, rfl, rfl⟩

namespace Plain

theorem roundEvals (h : Plain p) : roundEvals p = p.lambda := by
  simp [Libcmaes.roundEvals, askEvals, h.withGradient]

theorem edmEvals (h : Plain p) : Strategy.edmEvals p = 0 := by
  simp [Strategy.edmEvals, h.withEdm]

theorem begin (h : Plain p) (hst : st.initialElitist = false) (e : Evaluation X ℚ) :
    st.begin p e = st ∧ st.beginEvals p = 0 := by
  have hneeds : st.needsInitial p = false := by
    simp [Strategy.needsInitial, hst, h.initialElitist, h.elitist, h.initialFvalue]
  simp [Strategy.begin, Strategy.beginEvals, hneeds]

/-- A round is a generation of the two records. -/
theorem generation (h : Plain p) (hr : Strategy.Rounded p st r told g t) :
    Libcmaes.generation p.toCMAParameters st.solutions.toCMASolutions r.pop =
      some t.solutions.toCMASolutions := by
  have htold : told = r.pop.map (evalCandidate p.toCMAParameters) := by
    rcases Strategy.reinject_eq_some.mp hr.reinject with ⟨-, htold⟩ | ⟨hre, -⟩
    · exact htold
    · have := (decide_eq_true_iff.mp hre).2
      simp [h.elitist, h.initialElitist, h.initialElitistOnRestart] at this
  subst htold
  have hhead := (summarize_eq_some.mp hr.summary).1
  rw [rank] at hhead
  simp only [Libcmaes.generation, CMASolutions.sortCandidates,
    CMASolutions.updateBestCandidates, hhead, Option.map_some]
  rw [hr.eq]
  rfl

theorem run_generation (h : Plain p) (hrun : Strategy.rounds p st rs = some t) :
    run (Libcmaes.generation p.toCMAParameters) st.solutions.toCMASolutions
      (rs.map Round.pop) = some t.solutions.toCMASolutions := by
  induction rs generalizing st with
  | nil =>
    obtain rfl := Option.some.inj hrun
    rfl
  | cons r rs ih =>
    obtain ⟨u, hu, hrun⟩ := run_cons.mp hrun
    obtain ⟨told, g, hr⟩ := Strategy.round_eq_some.mp (WhileLoop.round_eq_some.mp hu).2
    exact run_cons.mpr ⟨_, h.generation hr, ih hrun⟩

/-- A whole search is one of `optimize`, over the populations it took. -/
theorem optimize (h : Plain p)
    (hsearch : (Strategy.ofParameters p : Strategy X).search p e rs = some t) :
    ∃ s, Libcmaes.optimize p.toCMAParameters (rs.map Round.pop) = some s ∧
      s.bestSeenCandidate = t.solutions.bestSeenCandidate ∧
      s.bestCandidate = t.solutions.toCMASolutions.bestCandidate := by
  obtain ⟨u, v, hrun, hstop, rfl⟩ := Strategy.search_eq_some.mp hsearch
  have hstatus := (Strategy.fresh_ofParameters p).running hrun
  rw [(h.begin rfl e).1] at hrun
  obtain ⟨-, c, -, rfl⟩ := (Strategy.stop_eq_some hstatus.2).mp hstop
  refine ⟨_, h.run_generation hrun, ?_, ?_⟩ <;> simp [h.withEdm]

end Plain

theorem Strategy.length_pop_of_rounds (hrun : Strategy.rounds p st rs = some t) :
    ∀ r ∈ rs, r.pop.length = p.lambda := by
  induction rs generalizing st with
  | nil => simp
  | cons r rs ih =>
    obtain ⟨u, hu, hrun⟩ := run_cons.mp hrun
    obtain ⟨told, g, hr⟩ := Strategy.round_eq_some.mp (WhileLoop.round_eq_some.mp hu).2
    exact List.forall_mem_cons.mpr ⟨hr.length_pop, ih hrun⟩

end Libcmaes

def roundLimit2d (lambda : ℕ) : ℕ := 100 + (Nat.sqrt ((1250 ^ 2 - 1) / lambda) + 1)

theorem roundLimit_params2d (lambda : ℕ) (maximize : Bool) (maxFevals : ℤ) :
    Strategy.roundLimit (searchParameters (params2d lambda maximize) maxFevals) .autoMaxIter =
      some (roundLimit2d lambda) := by
  norm_num [Strategy.roundLimit, searchParameters, SearchParameters.setMaxFevals,
    SearchParameters.ofCMAParameters, params2d, roundLimit2d]

/-- The populations of `libcmaes` for two dimensions have 6 points. -/
example : roundLimit2d 6 = 611 := by decide +kernel

theorem doCmaes_search {q : CMAParameters} {maxFevals : ℤ} {e : Evaluation Point ℚ}
    {rs : List (Libcmaes.Round Point)} {t : Strategy Point}
    (h : (Strategy.ofParameters (searchParameters q maxFevals)).search
      (searchParameters q maxFevals) e rs = some t) (hlambda : 0 < q.lambda) :
    ∃ x0 ret, doCmaes q (rs.map Libcmaes.Round.pop) = some (x0, ret) := by
  obtain ⟨u, v, hrun, hstop, -⟩ := Strategy.search_eq_some.mp h
  obtain ⟨hniter, hstatus⟩ := (Strategy.fresh_ofParameters _).running hrun
  have hne : rs ≠ [] := by
    rintro rfl
    exact ((Strategy.stop_eq_some hstatus).mp hstop).1 hniter
  have hpops : ∀ pop ∈ rs.map Libcmaes.Round.pop, pop ≠ [] := by
    intro pop hpop
    obtain ⟨r, hr, rfl⟩ := List.mem_map.mp hpop
    apply List.ne_nil_of_length_pos
    rw [Strategy.length_pop_of_rounds hrun r hr]
    exact hlambda
  obtain ⟨pop, hlast⟩ : ∃ pop, (rs.map Libcmaes.Round.pop).getLast? = some pop :=
    ⟨_, List.getLast?_eq_some_getLast (by simpa using hne)⟩
  obtain ⟨seen, last, heq, -, -⟩ := doCmaes_eq q hlast hpops
  exact ⟨_, _, heq⟩

/-- A search of the program ends, whatever is drawn and measured, within the rounds that its
size allows. It hands back a point inside the limits, has measured every point drawn and no
other, and exceeds its budget by less than one population. -/
theorem do2dcmaes_ends {lambda : ℕ} (hlambda : 0 < lambda) (maximize : Bool) (maxFevals : ℤ)
    (e : Evaluation Point ℚ) {rs : List (Libcmaes.Round Point)}
    (hpops : ∀ r ∈ rs, r.pop.length = lambda) (henough : roundLimit2d lambda ≤ rs.length) :
    ∃ k t x0 ret, k ≤ roundLimit2d lambda ∧
      (Strategy.ofParameters (searchParameters (params2d lambda maximize) maxFevals)).search
        (searchParameters (params2d lambda maximize) maxFevals) e (rs.take k) = some t ∧
      do2dcmaes lambda maximize ((rs.take k).map Libcmaes.Round.pop) = some (x0, ret) ∧
      x0.InBounds ∧ t.solutions.nevals = k * lambda ∧
      (0 < maxFevals → k ≤ 1 ∨ (t.solutions.nevals : ℤ) < maxFevals + lambda) := by
  have hplain := plain_searchParameters (params2d lambda maximize) maxFevals
  have hfresh := Strategy.fresh_ofParameters (X := Point)
    (searchParameters (params2d lambda maximize) maxFevals)
  obtain ⟨k, hk, t, ht⟩ := Strategy.exists_search hfresh hlambda rfl
    (roundLimit_params2d lambda maximize maxFevals) e hpops henough
  have hlen : (rs.take k).length = k := List.length_take_of_le (hk.trans henough)
  have hcost := (Strategy.search_cost hfresh ht).1
  rw [(hplain.begin rfl e).2, hplain.roundEvals, hplain.edmEvals, hlen] at hcost
  obtain ⟨x0, ret, hret⟩ := doCmaes_search ht hlambda
  refine ⟨k, t, x0, ret, hk, ht, hret, doCmaes_inBounds hret, ?_, fun hbudget => ?_⟩
  · rw [hcost]
    simp [Strategy.ofParameters, SearchSolutions.ofParameters, searchParameters,
      SearchParameters.setMaxFevals, SearchParameters.ofCMAParameters, params2d]
  · by_cases hone : k ≤ 1
    · exact .inl hone
    · have hoff : (searchParameters (params2d lambda maximize) maxFevals).maxFevals = maxFevals :=
        if_pos hbudget
      have hlt := Strategy.search_budget hfresh ht rfl (by omega) (by omega)
      rw [hoff, hplain.roundEvals, hplain.edmEvals] at hlt
      rw [Nat.cast_zero, add_zero] at hlt
      exact .inr hlt

theorem do2dcmaes_ends_six : ∃ k ≤ roundLimit2d 6, ∃ x0 ret,
    do2dcmaes 6 false (((List.replicate (roundLimit2d 6)
      (⟨List.replicate 6 ⟨⟨0, 0, none⟩, 3⟩, fun _ => false⟩ : Libcmaes.Round Point)).take k).map
        Libcmaes.Round.pop) = some (x0, ret) ∧ x0.InBounds := by
  have hpops : ∀ r ∈ List.replicate (roundLimit2d 6)
      (⟨List.replicate 6 ⟨⟨0, 0, none⟩, 3⟩, fun _ => false⟩ : Libcmaes.Round Point),
      r.pop.length = 6 := by
    intro r hr
    rw [List.eq_of_mem_replicate hr]
    exact List.length_replicate
  obtain ⟨k, t, x0, ret, hk, -, hret, hbounds, -⟩ := do2dcmaes_ends (by decide) false 0
    ⟨⟨0, 0, none⟩, 3⟩ hpops List.length_replicate.symm.le
  exact ⟨k, hk, x0, ret, hret, hbounds⟩

end CmaesSolenoid

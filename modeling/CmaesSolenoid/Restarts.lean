import CmaesSolenoid.Elitism

/-!
# Restarts from the best seen

With `set_elitism(3)` a run that ends away from the best seen starts again from there.
-/

namespace CmaesSolenoid.Libcmaes
open Interleaving WhileLoop

variable {X : Type}

structure Attempt (X : Type) where
  start : Evaluation X ℚ
  rounds : List (Round X)

namespace Strategy

/-- The test after the loop; `none` where it reads `_best_seen_iter` uninitialised. -/
def restarts (p : SearchParameters) (st : Strategy X) : Option Bool :=
  if p.initialElitistOnRestart then
    match st.solutions.bestSeenCandidate, st.solutions.bestCandidate with
    | some seen, some best =>
      if seen.fvalue < best.fvalue then st.solutions.bestSeenIter.map fun i => i + 3 ≤ st.niter
      else some false
    -- a comparison with NaN
    | _, _ => some false
  else some false

/-- The state in which `optimize` calls itself. -/
def restarted (p : SearchParameters) (st : Strategy X) : Strategy X where
  solutions := { SearchSolutions.ofParameters p with nevals := st.nevals }
  niter := 0
  nevals := st.nevals
  initialElitist := true

section

variable [DecidableEq X]

/-- One more run. It starts from the best seen, where no linear scaling is applied to that. -/
def rerun (p : SearchParameters) (st : Strategy X) (a : Attempt X) : Option (Strategy X) :=
  match st.solutions.bestSeenCandidate with
  | some seen =>
    if st.restarts p = some true ∧ a.start.x = seen.x then
      (st.restarted p).search p a.start a.rounds
    else none
  | none => none

/-- `CMAStrategy::optimize`, in exactly these runs. -/
def optimize (p : SearchParameters) (st : Strategy X) (a : Attempt X) (as : List (Attempt X)) :
    Option (Strategy X) := do
  let st ← st.search p a.start a.rounds
  let st ← run (rerun p) st as
  if st.restarts p = some false then some st else none

end

variable {p : SearchParameters} {st t u : Strategy X} {e : Evaluation X ℚ} {r : Round X}
  {rs : List (Round X)} {a : Attempt X} {as : List (Attempt X)} {seen : Candidate X ℚ}

theorem fresh_restarted (p : SearchParameters) (st : Strategy X) : Fresh p (st.restarted p) :=
  ⟨rfl, st.nevals, rfl⟩

theorem rerun_eq_some [DecidableEq X] : rerun p st a = some t ↔ st.restarts p = some true ∧
    ∃ seen, st.solutions.bestSeenCandidate = some seen ∧ a.start.x = seen.x ∧
      (st.restarted p).search p a.start a.rounds = some t := by
  rw [rerun]
  cases st.solutions.bestSeenCandidate with
  | none => simp
  | some seen => simp [and_assoc]

theorem search_ended (hfresh : Fresh p st) (h : st.search p e rs = some t) :
    ∃ u, rounds p (st.begin p e) rs = some u ∧ t.niter = u.niter ∧
      t.solutions.bestSeenCandidate = u.solutions.bestSeenCandidate ∧
      t.solutions.bestSeenIter = u.solutions.bestSeenIter ∧
      t.solutions.bestCandidate = u.solutions.bestCandidate ∧ 0 < rs.length := by
  obtain ⟨u, v, hrun, hstop, rfl⟩ := search_eq_some.mp h
  obtain ⟨hniter, hstatus⟩ := hfresh.running hrun
  obtain ⟨hne, c, -, rfl⟩ := (stop_eq_some hstatus).mp hstop
  rw [edm_spec]
  exact ⟨u, hrun, rfl, rfl, rfl, rfl, by omega⟩

structure RestartsFromSeen (p : SearchParameters) : Prop where
  elitist : p.elitist = false
  initialElitist : p.initialElitist = false
  initialElitistOnRestart : p.initialElitistOnRestart = true

theorem restartsFromSeen_setElitism (p : SearchParameters) : RestartsFromSeen (p.setElitism 3) :=
  ⟨rfl, rfl, rfl⟩

/-- In a run after a restart the best of each later generation is as good as the initial mean. -/
structure Reached (p : SearchParameters) (initial : Candidate X ℚ) (gens : List (Summary X))
    (st : Strategy X) : Prop where
  records : Records p gens st
  seen : Seen [initial] gens st
  initialElitist : st.initialElitist = true
  initialCandidate : st.solutions.initialCandidate = some initial
  last : 2 ≤ gens.length → ∃ g, gens.getLast? = some g ∧ g.best.fvalue ≤ initial.fvalue

theorem Reached.rounded {initial : Candidate X ℚ} {gens : List (Summary X)} {g : Summary X}
    {told : List (Candidate X ℚ)} (hp : RestartsFromSeen p) (hlambda : 2 ≤ p.lambda)
    (h : Reached p initial gens st) (hr : Rounded p st r told g t) :
    Reached p initial (gens ++ [g]) t := by
  refine ⟨h.records.rounded hr, h.seen.rounded h.records hr,
    hr.initialElitist.trans h.initialElitist, hr.initialCandidate.trans h.initialCandidate,
    fun htwo => ⟨g, List.getLast?_concat, ?_⟩⟩
  rw [List.length_append, List.length_singleton] at htwo
  have hpos : 0 < st.niter := by
    rw [h.records.niter]
    omega
  refine hr.best_le_ref hlambda ?_ ?_
  · simp [reinjects, hpos, h.initialElitist, hp.initialElitistOnRestart]
  · simp [refCandidate, hp.initialElitistOnRestart, h.initialCandidate]

theorem reached_begin (hfresh : Fresh p st) (hst : st.initialElitist = true)
    (e : Evaluation X ℚ) :
    Reached p (evalCandidate p.toCMAParameters e) [] (st.begin p e) := by
  have hneeds : st.needsInitial p = true := by simp [needsInitial, hst]
  have hseen := Seen.begin hfresh e
  rw [if_pos hneeds] at hseen
  refine ⟨Records.begin hfresh e, hseen, (begin_initialElitist p st e).trans hst, ?_, by simp⟩
  rw [Strategy.begin, if_pos hneeds]
  rfl

theorem exists_reached (hp : RestartsFromSeen p) (hlambda : 2 ≤ p.lambda) (hfresh : Fresh p st)
    (hst : st.initialElitist = true) (hrun : rounds p (st.begin p e) rs = some t) :
    ∃ gens, List.Forall₂ (Generation p st.solutions.kcand) rs gens ∧
      Reached p (evalCandidate p.toCMAParameters e) gens t := by
  obtain ⟨gens, hgens, hreached⟩ := rounds_induction (Reached p (evalCandidate p.toCMAParameters e))
    (fun _ _ _ _ _ _ _ hinv hr => hinv.rounded hp hlambda hr) [] (reached_begin hfresh hst e) hrun
  rw [begin_kcand] at hgens
  exact ⟨gens, hgens, hreached⟩

theorem Reached.bestCandidate {initial : Candidate X ℚ} {gens : List (Summary X)} {g : Summary X}
    (h : Reached p initial gens st) (hg : gens.getLast? = some g) :
    st.solutions.bestCandidate = some g.best := by
  rw [SearchSolutions.bestCandidate, h.records.getLast?_bests hg, Option.some_or]

theorem Reached.seen_of_iter_none {initial : Candidate X ℚ} {gens : List (Summary X)}
    (h : Reached p initial gens st) (hnone : st.solutions.bestSeenIter = none) :
    ∃ seen, st.solutions.bestSeenCandidate = some seen ∧ seen.fvalue = initial.fvalue := by
  rcases h.seen.best with ⟨-, hnil, -⟩ | ⟨seen, hsome, hbest⟩
  · cases hnil
  refine ⟨seen, hsome, le_antisymm (hbest.le initial (by simp)) ?_⟩
  rcases List.mem_append.mp hbest.mem with hmem | hmem
  · rw [List.mem_singleton.mp hmem]
  · obtain ⟨g, hg, heq⟩ := List.mem_map.mp hmem
    obtain ⟨i, hi, hle⟩ := h.seen.iter.mp hnone g hg
    rwa [List.mem_singleton.mp hi, heq] at hle

theorem restarts_eq_none (hp : RestartsFromSeen p) : st.restarts p = none ↔
    ∃ seen best, st.solutions.bestSeenCandidate = some seen ∧
      st.solutions.bestCandidate = some best ∧ seen.fvalue < best.fvalue ∧
      st.solutions.bestSeenIter = none := by
  rw [restarts, if_pos hp.initialElitistOnRestart]
  cases st.solutions.bestSeenCandidate with
  | none => simp
  | some seen =>
    cases st.solutions.bestCandidate with
    | none => simp
    | some best => by_cases h : seen.fvalue < best.fvalue <;> simp [h]

theorem restarts_eq_true (hp : RestartsFromSeen p) (h : st.restarts p = some true) :
    ∃ seen best, st.solutions.bestSeenCandidate = some seen ∧
      st.solutions.bestCandidate = some best ∧ seen.fvalue < best.fvalue ∧ 3 ≤ st.niter := by
  rw [restarts, if_pos hp.initialElitistOnRestart] at h
  cases hseen : st.solutions.bestSeenCandidate with
  | none => simp [hseen] at h
  | some seen =>
    cases hbest : st.solutions.bestCandidate with
    | none => simp [hseen, hbest] at h
    | some best =>
      by_cases hlt : seen.fvalue < best.fvalue
      · refine ⟨seen, best, rfl, rfl, hlt, ?_⟩
        simp only [hseen, hbest, if_pos hlt] at h
        obtain ⟨i, -, hi⟩ := Option.map_eq_some_iff.mp h
        have := of_decide_eq_true hi
        omega
      · simp [hseen, hbest, hlt] at h

theorem restarts_ne_none_of_search (hp : RestartsFromSeen p) (hfresh : Fresh p st)
    (hst : st.initialElitist = false) (hinitial : p.initialFvalue = false)
    (h : st.search p e rs = some t) : t.restarts p ≠ none := by
  obtain ⟨u, hrun, -, -, hiter, -, hpos⟩ := search_ended hfresh h
  have hneeds : st.needsInitial p = false := by
    simp [needsInitial, hst, hp.elitist, hp.initialElitist, hinitial]
  have hseen := Seen.begin hfresh e
  rw [if_neg (by simp [hneeds])] at hseen
  obtain ⟨gens, hgens, -, hseen⟩ := rounds_induction
    (fun gens u => Records p gens u ∧ Seen [] gens u)
    (fun _ _ _ _ _ _ _ hinv hr => ⟨hinv.1.rounded hr, hinv.2.rounded hinv.1 hr⟩)
    [] ⟨Records.begin hfresh e, hseen⟩ hrun
  intro hnone
  obtain ⟨-, -, -, -, -, hread⟩ := (restarts_eq_none hp).mp hnone
  have hall := hseen.iter.mp (hiter ▸ hread)
  rw [hgens.length_eq] at hpos
  obtain ⟨i, hi, -⟩ := hall gens[0] (List.getElem_mem hpos)
  cases hi

/-- After a restart it does not where the run ends with its first round, and with nothing in it as
good as the initial mean. -/
theorem restarts_eq_none_iff (hp : RestartsFromSeen p) (hlambda : 2 ≤ p.lambda)
    (hfresh : Fresh p st) (hst : st.initialElitist = true) (h : st.search p e rs = some t) :
    t.restarts p = none ↔ ∃ r, rs = [r] ∧
      ∀ c ∈ evaluated p r, (evalCandidate p.toCMAParameters e).fvalue < c.fvalue := by
  obtain ⟨u, hrun, -, hseen, hiter, hbest, hpos⟩ := search_ended hfresh h
  rw [restarts_eq_none hp, hseen, hiter, hbest]
  match rs, hrun, hpos with
  | [r], hrun, _ =>
    -- in the first round nothing is reinjected
    obtain ⟨v, hv, hnil⟩ := run_cons.mp hrun
    obtain rfl := Option.some.inj hnil
    obtain ⟨told, g, hr⟩ := round_eq_some.mp (WhileLoop.round_eq_some.mp hv).2
    have hreached := (reached_begin hfresh hst e).rounded hp hlambda hr
    have hbestg : Best Candidate.fvalue (evaluated p r) g.best := by
      rcases reinject_eq_some.mp hr.reinject with ⟨-, rfl⟩ | ⟨hre, -⟩
      · exact best_of_summarize hr.summary
      · have hzero : (st.begin p e).niter = 0 := by rw [begin_niter, hfresh.niter]
        simp [reinjects, hzero] at hre
    have hlast := hreached.bestCandidate List.getLast?_concat
    constructor
    · rintro ⟨seen, best, hs, hb, hlt, hread⟩
      obtain ⟨seen', hs', hvalue⟩ := hreached.seen_of_iter_none hread
      obtain rfl := Option.some.inj (hs.symm.trans hs')
      obtain rfl := Option.some.inj (hlast.symm.trans hb)
      exact ⟨r, rfl, fun c hc => (hvalue ▸ hlt).trans_le (hbestg.le c hc)⟩
    · rintro ⟨r', hrs, hall⟩
      obtain rfl : r = r' := by simpa using hrs
      have hworse := hall g.best hbestg.mem
      have hread : v.solutions.bestSeenIter = none := by
        refine hreached.seen.iter.mpr fun g' hg' => ⟨_, List.mem_singleton_self _, ?_⟩
        rw [List.mem_singleton.mp hg']
        exact hworse.le
      obtain ⟨seen, hs, hvalue⟩ := hreached.seen_of_iter_none hread
      exact ⟨seen, g.best, hs, hlast, hvalue ▸ hworse, hread⟩
  | r :: r' :: rs, hrun, _ =>
    -- the last generation is as good as the initial mean
    obtain ⟨gens, hgens, hreached⟩ := exists_reached hp hlambda hfresh hst hrun
    refine iff_of_false ?_ ?_
    · rintro ⟨seen, best, hs, hb, hlt, hread⟩
      obtain ⟨g, hg, hle⟩ := hreached.last (by rw [← hgens.length_eq]; simp)
      obtain rfl := Option.some.inj ((hreached.bestCandidate hg).symm.trans hb)
      obtain ⟨seen', hs', hvalue⟩ := hreached.seen_of_iter_none hread
      obtain rfl := Option.some.inj (hs.symm.trans hs')
      exact absurd hle (not_le.mpr (hvalue ▸ hlt))
    · rintro ⟨_, hrs, -⟩
      simp at hrs

def Measures (f : X → ℚ) (a : Attempt X) : Prop :=
  a.start.value = f a.start.x ∧ ∀ r ∈ a.rounds, ∀ e ∈ r.pop, e.value = f e.x

def Valued (p : SearchParameters) (f : X → ℚ) (c : Candidate X ℚ) : Prop :=
  c.fvalue = func p.toCMAParameters (f c.x)

theorem valued_evaluated {f : X → ℚ} (h : ∀ e ∈ r.pop, e.value = f e.x) :
    ∀ c ∈ evaluated p r, Valued p f c := by
  intro c hc
  obtain ⟨e, he, rfl⟩ := List.mem_map.mp hc
  rw [Valued, evalCandidate, h e he]

theorem valued_search {f : X → ℚ} (hfresh : Fresh p st) (hf : Measures f a)
    (h : st.search p a.start a.rounds = some t) :
    ∀ c, t.solutions.bestSeenCandidate = some c → Valued p f c := by
  obtain ⟨u, hrun, -, hseen, -⟩ := search_ended hfresh h
  have hstart : Kept (Valued p f) (st.begin p a.start) :=
    (Kept.of_fresh hfresh).begin (by rw [Valued, evalCandidate, hf.1])
  obtain ⟨-, -, hall⟩ := rounds_induction (fun _ u => Kept (Valued p f) u)
    (fun _ _ _ _ _ _ hr hinv hrounded =>
      hinv.rounded hrounded (valued_evaluated (hf.2 _ hr))) [] hstart hrun
  rw [hseen]
  exact hall.seen

section

variable [DecidableEq X]

/-- One restart: it keeps the value it starts from, and a restart after it shows it improved. -/
theorem rerun_improves {f : X → ℚ} (hp : RestartsFromSeen p) (hlambda : 2 ≤ p.lambda)
    (hf : Measures f a) (ht : ∀ c, t.solutions.bestSeenCandidate = some c → Valued p f c)
    (h : rerun p t a = some u) :
    (∀ c, u.solutions.bestSeenCandidate = some c → Valued p f c) ∧
      ∃ s1 s2, t.solutions.bestSeenCandidate = some s1 ∧
        u.solutions.bestSeenCandidate = some s2 ∧ s2.fvalue ≤ s1.fvalue ∧
        (u.restarts p = some true → s2.fvalue < s1.fvalue) := by
  obtain ⟨-, s1, hs1, hx, hsearch⟩ := rerun_eq_some.mp h
  have hfresh := fresh_restarted p t
  obtain ⟨v, hrun, hniter, hseen, -, hbest, -⟩ := search_ended hfresh hsearch
  obtain ⟨gens, hgens, hreached⟩ := exists_reached hp hlambda hfresh rfl hrun
  have hstart : (evalCandidate p.toCMAParameters a.start).fvalue = s1.fvalue := by
    rw [ht s1 hs1, evalCandidate, hf.1, hx]
  rcases hreached.seen.best with ⟨-, hnil, -⟩ | ⟨s2, hs2, hle⟩
  · cases hnil
  refine ⟨valued_search hfresh hf hsearch, s1, s2, hs1, hseen.trans hs2,
    hstart ▸ hle.le _ (by simp), fun hagain => ?_⟩
  -- the best of the last generation is between the new best seen and the old one
  obtain ⟨s2', best, hs2', hb, hlt, hthree⟩ := restarts_eq_true hp hagain
  obtain rfl := Option.some.inj ((hseen.trans hs2).symm.trans hs2')
  have htwo : 2 ≤ gens.length := by
    rw [← hreached.records.niter, ← hniter]
    omega
  obtain ⟨g, hg, hlast⟩ := hreached.last htwo
  obtain rfl := Option.some.inj ((hreached.bestCandidate hg).symm.trans (hbest.symm.trans hb))
  exact hlt.trans_le (hstart ▸ hlast)

theorem reruns_valued {f : X → ℚ} (hp : RestartsFromSeen p) (hlambda : 2 ≤ p.lambda)
    (hf : ∀ a ∈ as, Measures f a)
    (ht : ∀ c, t.solutions.bestSeenCandidate = some c → Valued p f c)
    (hrun : run (rerun p) t as = some u) :
    ∀ c, u.solutions.bestSeenCandidate = some c → Valued p f c := by
  induction as generalizing t with
  | nil => exact (Option.some.inj hrun) ▸ ht
  | cons a as ih =>
    obtain ⟨v, hv, hrun⟩ := run_cons.mp hrun
    obtain ⟨ha, has⟩ := List.forall_mem_cons.mp hf
    exact ih has (rerun_improves hp hlambda ha ht hv).1 hrun

theorem reruns_improve {f : X → ℚ} (hp : RestartsFromSeen p) (hlambda : 2 ≤ p.lambda)
    (hf : ∀ a ∈ as, Measures f a)
    (ht : ∀ c, t.solutions.bestSeenCandidate = some c → Valued p f c)
    (hrun : run (rerun p) t as = some u) (hne : as ≠ []) :
    ∃ s1 s2, t.solutions.bestSeenCandidate = some s1 ∧
      u.solutions.bestSeenCandidate = some s2 ∧ s2.fvalue ≤ s1.fvalue ∧
      (u.restarts p = some true → s2.fvalue < s1.fvalue) := by
  induction as generalizing t with
  | nil => exact absurd rfl hne
  | cons a as ih =>
    obtain ⟨v, hv, hrun⟩ := run_cons.mp hrun
    obtain ⟨ha, has⟩ := List.forall_mem_cons.mp hf
    obtain ⟨hvalued, s1, s2, hs1, hs2, hle, hlt⟩ := rerun_improves hp hlambda ha ht hv
    cases as with
    | nil =>
      obtain rfl := Option.some.inj hrun
      exact ⟨s1, s2, hs1, hs2, hle, hlt⟩
    | cons a' as =>
      obtain ⟨w, hw, -⟩ := run_cons.mp hrun
      have hagain := (rerun_eq_some.mp hw).1
      obtain ⟨s2', s3, hs2', hs3, hle', hlt'⟩ := ih has hvalued hrun (List.cons_ne_nil _ _)
      obtain rfl := Option.some.inj (hs2.symm.trans hs2')
      exact ⟨s1, s3, hs1, hs3, hle'.trans hle, fun hu => (hlt' hu).trans (hlt hagain)⟩

end

def Finished (p : SearchParameters) (st : Strategy X) : Prop :=
  ∃ st0 e rs, Fresh p st0 ∧ st0.nevals = st0.solutions.nevals ∧ st0.search p e rs = some st

theorem Finished.cost (h : Finished p st) : st.nevals = st.solutions.nevals := by
  obtain ⟨st0, e, rs, hfresh, hsame, hsearch⟩ := h
  obtain ⟨h1, h2⟩ := search_cost hfresh hsearch
  rw [h1, h2, hsame]

theorem Finished.lt_budget (h : Finished p st) (hp : RestartsFromSeen p)
    (hactive : p.active .maxFEvals) (hoff : p.maxFevals ≠ -1)
    (hagain : st.restarts p = some true) :
    (st.nevals : ℤ) < p.maxFevals + roundEvals p + edmEvals p ∧ 3 * roundEvals p ≤ st.nevals := by
  have hsame := h.cost
  obtain ⟨st0, e, rs, hfresh, -, hsearch⟩ := h
  obtain ⟨u, hrun, hniter, -⟩ := search_ended hfresh hsearch
  obtain ⟨-, -, -, -, -, hthree⟩ := restarts_eq_true hp hagain
  rw [hniter, (hfresh.running hrun).1] at hthree
  have hbudget := search_budget hfresh hsearch hactive hoff (by omega)
  have hcost := (search_cost hfresh hsearch).1
  have hmul := Nat.mul_le_mul_right (roundEvals p) hthree
  rw [hsame]
  exact ⟨hbudget, by omega⟩

section

variable [DecidableEq X]

theorem finished_rerun (h : rerun p st a = some t) :
    Finished p t ∧ ∃ n, t.nevals = st.nevals + 1 + n * roundEvals p + edmEvals p ∧
      n = a.rounds.length := by
  obtain ⟨-, seen, -, -, hsearch⟩ := rerun_eq_some.mp h
  have hfresh := fresh_restarted p st
  refine ⟨⟨_, _, _, hfresh, rfl, hsearch⟩, _, ?_, rfl⟩
  rw [(search_cost hfresh hsearch).2]
  rfl

/-- Every run that is followed by a restart has three rounds or more. -/
theorem nevals_reruns (hp : RestartsFromSeen p) (hrun : run (rerun p) t as = some u)
    (hagain : u.restarts p = some true) :
    t.nevals + as.length * (3 * roundEvals p) ≤ u.nevals := by
  induction as generalizing t with
  | nil =>
    obtain rfl := Option.some.inj hrun
    simp
  | cons a as ih =>
    obtain ⟨v, hv, hrun⟩ := run_cons.mp hrun
    have hv' : v.restarts p = some true := by
      cases as with
      | nil => exact (Option.some.inj hrun) ▸ hagain
      | cons a' as =>
        obtain ⟨w, hw, -⟩ := run_cons.mp hrun
        exact (rerun_eq_some.mp hw).1
    obtain ⟨-, seen, -, -, hsearch⟩ := rerun_eq_some.mp hv
    obtain ⟨w, hwrun, hniter, -⟩ := search_ended (fresh_restarted p t) hsearch
    obtain ⟨-, -, -, -, -, hthree⟩ := restarts_eq_true hp hv'
    rw [hniter, ((fresh_restarted p t).running hwrun).1] at hthree
    obtain ⟨-, n, hn, hlen⟩ := finished_rerun hv
    have hmul := Nat.mul_le_mul_right (roundEvals p) (hlen ▸ hthree)
    have hrest := ih hrun
    rw [List.length_cons, Nat.succ_mul]
    omega

end

end Strategy

end CmaesSolenoid.Libcmaes

import CmaesSolenoid.SearchRecords

/-!
# Whole runs of the search loop

Why a run ends, what it costs, and that it ends.
-/

namespace CmaesSolenoid.Libcmaes
open Interleaving WhileLoop

variable {X : Type}

namespace Strategy

variable {p : SearchParameters} {st t u : Strategy X} {e : Evaluation X ℚ} {r : Round X}
  {rs : List (Round X)}

theorem stopCriteria_eq_zero {s : SearchSolutions X} :
    stopCriteria p s = 0 ↔ firstCriterion p s = none := by
  rw [stopCriteria]
  cases firstCriterion p s with
  | none => simp
  | some c => simp [c.code_ne_zero]

theorem stop_eq_none (h : st.solutions.runStatus = 0) :
    stop p st = none ↔ st.niter = 0 ∨ firstCriterion p st.solutions = none := by
  rw [stop, h, if_neg (lt_irrefl 0), ← stopCriteria_eq_zero]
  by_cases hniter : st.niter = 0
  · simp [hniter]
  · simp [hniter]

theorem stop_eq_some (h : st.solutions.runStatus = 0) :
    stop p st = some t ↔ st.niter ≠ 0 ∧ ∃ c, firstCriterion p st.solutions = some c ∧
      { st with solutions := { st.solutions with runStatus := c.code } } = t := by
  rw [stop, h, if_neg (lt_irrefl 0)]
  by_cases hniter : st.niter = 0
  · simp [hniter]
  · cases hc : firstCriterion p st.solutions with
    | none => simp [hniter, stopCriteria, hc]
    | some c => simp [hniter, stopCriteria, hc, c.code_ne_zero]

structure Counts (p : SearchParameters) (st : Strategy X) (n : ℕ) (t : Strategy X) : Prop where
  niter : t.niter = st.niter + n
  solutions_niter : t.solutions.niter = st.solutions.niter + n
  nevals : t.nevals = st.nevals + n * roundEvals p
  solutions_nevals : t.solutions.nevals = st.solutions.nevals + n * roundEvals p
  runStatus : t.solutions.runStatus = st.solutions.runStatus
  initialElitist : t.initialElitist = st.initialElitist
  initialCandidate : t.solutions.initialCandidate = st.solutions.initialCandidate

theorem Counts.zero (p : SearchParameters) (st : Strategy X) : Counts p st 0 st := by
  constructor <;> simp

theorem Counts.round (hround : st.round p r = some u) {n : ℕ} (h : Counts p u n t) :
    Counts p st (n + 1) t := by
  obtain ⟨told, g, hr⟩ := round_eq_some.mp hround
  constructor
  · rw [h.niter, hr.niter]
    ring
  · rw [h.solutions_niter, hr.solutions_niter]
    ring
  · rw [h.nevals, hr.nevals]
    ring
  · rw [h.solutions_nevals, hr.solutions_nevals]
    ring
  · rw [h.runStatus, hr.runStatus]
  · rw [h.initialElitist, hr.initialElitist]
  · rw [h.initialCandidate, hr.initialCandidate]

theorem counts (hrun : rounds p st rs = some t) : Counts p st rs.length t := by
  induction rs generalizing st with
  | nil => exact (Option.some.inj hrun) ▸ Counts.zero p st
  | cons r rs ih =>
    obtain ⟨u, hu, hrun⟩ := run_cons.mp hrun
    exact (ih hrun).round (WhileLoop.round_eq_some.mp hu).2

theorem Fresh.runStatus (h : Fresh p st) : st.solutions.runStatus = 0 := by
  obtain ⟨n, hn⟩ := h.solutions
  rw [hn]
  rfl

theorem Fresh.running (hfresh : Fresh p st) (hrun : rounds p (st.begin p e) rs = some t) :
    t.niter = rs.length ∧ t.solutions.runStatus = 0 := by
  have hcounts := counts hrun
  constructor
  · rw [hcounts.niter, begin_niter, hfresh.niter, Nat.zero_add]
  · rw [hcounts.runStatus, begin_runStatus, hfresh.runStatus]

/-- While rounds were still taken, no active criterion held. -/
theorem not_holds_before (hfresh : Fresh p st) (hrun : rounds p (st.begin p e) rs = some t)
    {k : ℕ} (hpos : 0 < k) (hk : k < rs.length)
    (hu : rounds p (st.begin p e) (rs.take k) = some u) (c : Criterion) (hc : p.active c) :
    holds p u.solutions c = false := by
  rw [← List.take_append_drop k rs, List.drop_eq_getElem_cons hk] at hrun
  obtain ⟨u', hu', hrun⟩ := run_append_iff.mp hrun
  obtain rfl := Option.some.inj (hu.symm.trans hu')
  obtain ⟨v, hv, -⟩ := run_cons.mp hrun
  obtain ⟨hniter, hstatus⟩ := hfresh.running hu
  rw [List.length_take, min_eq_left hk.le] at hniter
  rcases (stop_eq_none hstatus).mp (WhileLoop.round_eq_some.mp hv).1 with hzero | hnone
  · omega
  · exact firstCriterion_eq_none.mp hnone c hc

def edmEvals (p : SearchParameters) : ℕ := if p.withEdm && !p.gfunc then p.dim + 1 else 0

theorem edm_spec (p : SearchParameters) (st : Strategy X) :
    (if p.withEdm then st.gradf p else st) = st.updateFevals (edmEvals p) := by
  rw [gradf, edmEvals]
  cases p.withEdm <;> cases p.gfunc <;> rfl

theorem search_cost (hfresh : Fresh p st) (h : st.search p e rs = some t) :
    t.solutions.nevals =
        st.solutions.nevals + st.beginEvals p + rs.length * roundEvals p + edmEvals p ∧
      t.nevals = st.nevals + st.beginEvals p + rs.length * roundEvals p + edmEvals p := by
  obtain ⟨u, v, hrun, hstop, rfl⟩ := search_eq_some.mp h
  obtain ⟨-, c, -, rfl⟩ := (stop_eq_some (hfresh.running hrun).2).mp hstop
  have hcounts := counts hrun
  rw [edm_spec]
  constructor
  · rw [← begin_solutions_nevals, ← hcounts.solutions_nevals]
    rfl
  · rw [← begin_nevals, ← hcounts.nevals]
    rfl

theorem search_niter (hfresh : Fresh p st) (h : st.search p e rs = some t) :
    t.solutions.niter = rs.length ∧ 0 < rs.length := by
  obtain ⟨u, v, hrun, hstop, rfl⟩ := search_eq_some.mp h
  obtain ⟨hne, c, -, rfl⟩ := (stop_eq_some (hfresh.running hrun).2).mp hstop
  have hniter := (counts hrun).solutions_niter
  rw [(Records.begin hfresh e).solutions_niter, List.length_nil, Nat.zero_add] at hniter
  rw [edm_spec]
  exact ⟨hniter, by have := (hfresh.running hrun).1; omega⟩

theorem search_budget (hfresh : Fresh p st) (h : st.search p e rs = some t)
    (hactive : p.active .maxFEvals) (hoff : p.maxFevals ≠ -1) (htwo : 2 ≤ rs.length) :
    (t.solutions.nevals : ℤ) < p.maxFevals + roundEvals p + edmEvals p := by
  obtain ⟨u, v, hrun, -, -⟩ := search_eq_some.mp h
  obtain ⟨w, hw, -⟩ := run_append_iff.mp
    ((List.take_append_drop (rs.length - 1) rs).symm ▸ hrun)
  have hbefore := not_holds_before hfresh hrun (by omega) (by omega) hw .maxFEvals hactive
  have hcost := (counts hw).solutions_nevals
  rw [List.length_take, min_eq_left (Nat.sub_le _ _), begin_solutions_nevals] at hcost
  have hlt : (w.solutions.nevals : ℤ) < p.maxFevals := by
    simpa [holds, maxFEvalsHolds, hoff] using hbefore
  have hsucc : rs.length * roundEvals p = (rs.length - 1) * roundEvals p + roundEvals p := by
    rw [← Nat.succ_mul, Nat.succ_eq_add_one, Nat.sub_add_cancel (by omega)]
  rw [(search_cost hfresh h).1, hsucc]
  rw [hcost] at hlt
  push_cast at hlt ⊢
  linarith

/-- How many rounds an active criterion allows for certain. -/
def roundLimit (p : SearchParameters) : Criterion → Option ℕ
  | .autoMaxIter =>
    let scale := if p.vd ∧ p.dim < 10 then 1000 else 1
    some (scale * 100 + (Nat.sqrt (((scale * 50 * (p.dim + 3) ^ 2) ^ 2 - 1) / p.lambda) + 1))
  | .maxIter => if p.maxIter = -1 then none else some (max 1 p.maxIter.toNat)
  | .maxFEvals =>
    if p.maxFevals = -1 then none
    else some (max 1 ((p.maxFevals.toNat + roundEvals p - 1) / roundEvals p))
  | _ => none

theorem le_sqrt_succ_sq_mul {a n : ℕ} (hn : 0 < n) : a ≤ (Nat.sqrt ((a - 1) / n) + 1) ^ 2 * n := by
  have h1 : (a - 1) / n < (Nat.sqrt ((a - 1) / n) + 1) ^ 2 := Nat.lt_succ_sqrt' _
  have h2 : a - 1 < ((a - 1) / n + 1) * n := (Nat.div_lt_iff_lt_mul hn).mp (Nat.lt_succ_self _)
  have h3 : ((a - 1) / n + 1) * n ≤ (Nat.sqrt ((a - 1) / n) + 1) ^ 2 * n :=
    Nat.mul_le_mul_right n h1
  omega

theorem autoMaxIterHolds_of_le {s : SearchSolutions X} {N : ℕ} (hlambda : 0 < p.lambda)
    (hN : roundLimit p .autoMaxIter = some N) (h : N ≤ s.niter) :
    0 < N ∧ autoMaxIterHolds p s := by
  obtain rfl := Option.some.inj hN
  refine ⟨by omega, ?_⟩
  simp only [autoMaxIterHolds, decide_eq_true_eq]
  refine ⟨by omega, (le_sqrt_succ_sq_mul hlambda).trans (Nat.mul_le_mul_right _ ?_)⟩
  exact Nat.pow_le_pow_left (by omega) 2

structure Counted (p : SearchParameters) (st : Strategy X) : Prop where
  ready : Ready p st
  runStatus : st.solutions.runStatus = 0
  niter : st.solutions.niter = st.niter
  nevals : st.niter * roundEvals p ≤ st.solutions.nevals

theorem Counted.holds {c : Criterion} {N : ℕ} (h : Counted p st) (hlambda : 0 < p.lambda)
    (hc : roundLimit p c = some N) (hN : N ≤ st.niter) :
    st.niter ≠ 0 ∧ holds p st.solutions c := by
  cases c with
  | autoMaxIter =>
    obtain ⟨hpos, hauto⟩ := autoMaxIterHolds_of_le hlambda hc (h.niter ▸ hN)
    exact ⟨by omega, hauto⟩
  | maxIter =>
    simp only [roundLimit] at hc
    split_ifs at hc with hoff
    obtain rfl := Option.some.inj hc
    refine ⟨by omega, ?_⟩
    simp only [Libcmaes.holds, maxIterHolds, decide_eq_true_eq]
    exact ⟨hoff, by have := h.niter; omega⟩
  | maxFEvals =>
    simp only [roundLimit] at hc
    split_ifs at hc with hoff
    obtain rfl := Option.some.inj hc
    refine ⟨by omega, ?_⟩
    have hR : 0 < roundEvals p := Nat.add_pos_right _ hlambda
    have hdiv : (p.maxFevals.toNat + roundEvals p - 1) / roundEvals p ≤ st.niter := by omega
    rw [Nat.div_le_iff_le_mul_add_pred hR, Nat.mul_comm] at hdiv
    have := h.nevals
    simp only [Libcmaes.holds, maxFEvalsHolds, decide_eq_true_eq]
    exact ⟨hoff, by omega⟩
  | _ => cases hc

theorem Counted.round (h : Counted p st) (hpop : r.pop.length = p.lambda) :
    ∃ t, st.round p r = some t ∧ Counted p t ∧ t.niter = st.niter + 1 := by
  obtain ⟨t, ht⟩ := h.ready.exists_round hpop
  obtain ⟨told, g, hr⟩ := round_eq_some.mp ht
  refine ⟨t, ht, ⟨h.ready.round ht, ?_, ?_, ?_⟩, hr.niter⟩
  · rw [hr.runStatus, h.runStatus]
  · rw [hr.solutions_niter, hr.niter, h.niter]
  · have := h.nevals
    rw [hr.niter, hr.solutions_nevals, Nat.succ_mul]
    omega

theorem Fresh.ready_begin (h : Fresh p st) (hlambda : 0 < p.lambda) (e : Evaluation X ℚ) :
    Ready p (st.begin p e) := by
  obtain ⟨n, hn⟩ := h.solutions
  have hkcand : st.solutions.kcand < p.lambda := by
    rw [hn]
    exact (min_le_left _ _).trans_lt (Nat.sub_lt hlambda Nat.one_pos)
  rw [Strategy.begin]
  split_ifs with hneeds
  · exact ⟨hkcand, fun _ => ⟨Option.some_ne_none _, Option.some_ne_none _⟩⟩
  · refine ⟨hkcand, fun hflags => absurd ?_ hneeds⟩
    simp only [needsInitial, Bool.or_eq_true]
    tauto

theorem Fresh.counted_begin (h : Fresh p st) (hlambda : 0 < p.lambda) (e : Evaluation X ℚ) :
    Counted p (st.begin p e) := by
  refine ⟨h.ready_begin hlambda e, by rw [begin_runStatus, h.runStatus], ?_, ?_⟩
  · rw [(Records.begin h e).solutions_niter, (Records.begin h e).niter]
  · rw [begin_niter, h.niter, Nat.zero_mul]
    exact Nat.zero_le _

theorem exists_search (hfresh : Fresh p st) (hlambda : 0 < p.lambda) {c : Criterion} {N : ℕ}
    (hactive : p.active c) (hlimit : roundLimit p c = some N) (e : Evaluation X ℚ)
    (hpops : ∀ r ∈ rs, r.pop.length = p.lambda) (henough : N ≤ rs.length) :
    ∃ k ≤ N, ∃ t, st.search p e (rs.take k) = some t := by
  have hstart := hfresh.counted_begin hlambda e
  have hzero : (st.begin p e).niter = 0 := by rw [begin_niter, hfresh.niter]
  have hstop (u : Strategy X) (hu : Counted p u) (hN : N ≤ u.niter) : stop p u ≠ none := by
    intro hnone
    obtain ⟨hne, hholds⟩ := hu.holds hlambda hlimit hN
    rcases (stop_eq_none hu.runStatus).mp hnone with h0 | hfirst
    · exact hne h0
    · rw [firstCriterion_eq_none.mp hfirst c hactive] at hholds
      exact Bool.false_ne_true hholds
  obtain ⟨v, rest, hloop, hused⟩ := loop_returns (fun u r hu hr => hu.round hr) hstop hstart hpops
    (by omega)
  obtain ⟨used, u, rfl, hrun, hu⟩ := loop_eq_some.mp hloop
  rw [List.length_append] at hused
  refine ⟨used.length, by omega, _, search_eq_some.mpr ⟨u, v, ?_, hu, rfl⟩⟩
  rwa [List.take_left]

end Strategy

end CmaesSolenoid.Libcmaes

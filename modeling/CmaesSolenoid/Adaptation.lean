import CmaesSolenoid.CovarianceUpdate
import CmaesSolenoid.SearchRecords

/-!
# `libcmaes`: the search loop with its distribution

`CMAStrategy` in full: after the records of a round `tell` updates mean, step size and
covariance from the candidates in the order of their values, those reinjected among them.
-/

namespace CmaesSolenoid.Libcmaes
open Matrix Interleaving

variable {K : Type} [Field K] [LinearOrder K] {n : ℕ}

structure AdaptiveStrategy (K : Type) (n : ℕ) where
  strategy : Strategy (Fin n → K)
  distribution : Distribution K n

namespace AdaptiveStrategy

def round (p : SearchParameters) (q : UpdateParameters K)
    (update : Distribution K n → List (Fin n → K) → Distribution K n) (s : AdaptiveStrategy K n)
    (r : Round (Fin n → K)) : Option (AdaptiveStrategy K n) := do
  let strategy ← WhileLoop.round (Strategy.stop p) (Strategy.round p) s.strategy r
  let distribution ← s.distribution.generation q update
    (strategy.solutions.candidates.map Candidate.x)
  return ⟨strategy, distribution⟩

variable {p : SearchParameters} {q : UpdateParameters K}
  {f : Distribution K n → List (Fin n → K) → Distribution K n} {u v : AdaptiveStrategy K n}
  {st st' : Strategy (Fin n → K)} {d : Distribution K n} {r : Round (Fin n → K)}
  {rs : List (Round (Fin n → K))}

theorem round_eq_some : round p q f u r = some v ↔
    WhileLoop.round (Strategy.stop p) (Strategy.round p) u.strategy r = some v.strategy ∧
      u.distribution.generation q f (v.strategy.solutions.candidates.map Candidate.x) =
        some v.distribution := by
  constructor
  · intro h
    obtain ⟨st, hst, h⟩ := Option.bind_eq_some_iff.mp h
    obtain ⟨d, hd, h⟩ := Option.bind_eq_some_iff.mp h
    obtain rfl := Option.some.inj h
    exact ⟨hst, hd⟩
  · rintro ⟨hst, hd⟩
    exact Option.bind_eq_some_iff.mpr ⟨_, hst, Option.bind_eq_some_iff.mpr ⟨_, hd, rfl⟩⟩

/-- A round that the records allow can be taken, and its points are among those that are kept or
were drawn. -/
theorem exists_round (hlambda : p.lambda = q.lambda)
    (h : WhileLoop.round (Strategy.stop p) (Strategy.round p) st r = some st')
    (d : Distribution K n) : ∃ xs d', round p q f ⟨st, d⟩ r = some ⟨st', d'⟩ ∧
      d.generation q f xs = some d' ∧
      ∀ S : Set (Fin n → K), Kept (fun c => c.x ∈ S) st → (∀ e ∈ r.pop, e.x ∈ S) →
        Kept (fun c => c.x ∈ S) st' ∧ ∀ x ∈ xs, x ∈ S := by
  obtain ⟨told, g, hr⟩ := Strategy.round_eq_some.mp (WhileLoop.round_eq_some.mp h).2
  have hcandidates : st'.solutions.candidates = rank told := by
    rw [hr.eq]
    rfl
  have hlen : (st'.solutions.candidates.map Candidate.x).length = q.lambda := by
    rw [List.length_map, hcandidates, length_rank, hr.length_told, hlambda]
  obtain ⟨d', hgen⟩ := Distribution.exists_generation f d hlen
  refine ⟨_, d', round_eq_some.mpr ⟨h, hgen⟩, hgen, fun S hkept hpop => ?_⟩
  have hevaluated : ∀ c ∈ evaluated p r, c.x ∈ S := by
    intro c hc
    obtain ⟨e, he, rfl⟩ := List.mem_map.mp hc
    exact hpop e he
  refine ⟨hkept.rounded hr hevaluated, fun x hx => ?_⟩
  obtain ⟨c, hc, rfl⟩ := List.mem_map.mp hx
  rw [hcandidates] at hc
  exact hkept.forall_told hr hevaluated c (mem_rank.mp hc)

theorem exists_run (hlambda : p.lambda = q.lambda) (h : Strategy.rounds p st rs = some st')
    (d : Distribution K n) : ∃ xss d', run (round p q f) ⟨st, d⟩ rs = some ⟨st', d'⟩ ∧
      run (Distribution.generation q f) d xss = some d' ∧
      ∀ S : Set (Fin n → K), Kept (fun c => c.x ∈ S) st →
        (∀ r ∈ rs, ∀ e ∈ r.pop, e.x ∈ S) → ∀ xs ∈ xss, ∀ x ∈ xs, x ∈ S := by
  induction rs generalizing st d with
  | nil =>
    obtain rfl := Option.some.inj h
    exact ⟨[], d, rfl, rfl, by simp⟩
  | cons r rs ih =>
    obtain ⟨st1, hst1, h⟩ := run_cons.mp h
    obtain ⟨xs, d1, hround, hgen, hxs⟩ := exists_round (q := q) (f := f) hlambda hst1 d
    obtain ⟨xss, d2, hrun, hgens, hxss⟩ := ih h d1
    refine ⟨xs :: xss, d2, run_cons.mpr ⟨_, hround, hrun⟩, run_cons.mpr ⟨_, hgen, hgens⟩, ?_⟩
    intro S hkept hpops
    obtain ⟨hpop, hpops⟩ := List.forall_mem_cons.mp hpops
    obtain ⟨hkept, hall⟩ := hxs S hkept hpop
    exact List.forall_mem_cons.mpr ⟨hall, hxss S hkept hpops⟩

open Libcmaes.Distribution

/-- Whatever values the points have, every round that the records allow finds a positive step size
and a positive definite covariance, and the mean stays in each box that `x0` and all points drawn
are in. -/
theorem adaptive_run {l : ℤ} {s : ℝ} {e : EigenSolver ℝ n} {st t : Strategy (Fin n → ℝ)}
    {x0 : Evaluation (Fin n → ℝ) ℚ} {rs : List (Round (Fin n → ℝ))} (hn : 0 < n)
    (hle : l ≤ n + 4) (he : e.Lawful) (hlambda : p.lambda = (parameters n l s false).lambda)
    (hfresh : Strategy.Fresh p st) (hrun : Strategy.rounds p (st.begin p x0) rs = some t) :
    ∃ d : Distribution ℝ n, run (round p (parameters n l s false)
        (aupdate CMath.real e (parameters n l s false)))
        ⟨st.begin p x0, .ofParameters (parameters n l s false) x0.x⟩ rs = some ⟨t, d⟩ ∧
      0 < d.sigma ∧ d.cov.PosDef ∧
      ∀ a b, x0.x ∈ Set.Icc a b → (∀ r ∈ rs, ∀ e ∈ r.pop, e.x ∈ Set.Icc a b) →
        d.xmean ∈ Set.Icc a b := by
  have hp := parameters_active (s := s) hn hle
  obtain ⟨xss, d, hjoint, hgens, hxss⟩ := exists_run
    (f := aupdate CMath.real e (parameters n l s false)) hlambda hrun
    (.ofParameters (parameters n l s false) x0.x)
  obtain ⟨hsigma, hcov⟩ := run_aupdate CMath.real_lawful he hn hp
    (ofParameters_sigma_pos hn x0.x) PosDef.one hgens
  refine ⟨d, hjoint, hsigma, hcov, fun a b hx0 hpops => ?_⟩
  have hkept : Kept (fun c => c.x ∈ Set.Icc a b) (st.begin p x0) :=
    (Kept.of_fresh hfresh).begin hx0
  refine xmean_mem_of_run (fun _ xs hlen hxs => ?_) hx0 (hxss _ hkept hpops) hgens
  rw [aupdate_xmean hp.toRates hp.cm hlen]
  exact update_xmean_mem hp.toRates hlen hxs

theorem adaptive_run_one : ∃ t : Strategy (Fin 1 → ℝ),
    Strategy.rounds ((SearchParameters.ofCMAParameters ⟨1, 4, 0, false⟩).setElitism 1)
      ((Strategy.ofParameters ((SearchParameters.ofCMAParameters ⟨1, 4, 0, false⟩).setElitism
        1)).begin ((SearchParameters.ofCMAParameters ⟨1, 4, 0, false⟩).setElitism 1)
          ⟨fun _ => 0, 5⟩)
      [⟨[⟨fun _ => 1, 9⟩, ⟨fun _ => 0, 8⟩, ⟨fun _ => 2, 7⟩, ⟨fun _ => 3, 6⟩], fun _ => false⟩] =
        some t ∧
    ∃ d : Distribution ℝ 1, 0 < d.sigma ∧ d.cov.PosDef := by
  refine (Option.isSome_iff_exists.mp (by decide +kernel)).imp fun t ht => ⟨ht, ?_⟩
  obtain ⟨d, -, hsigma, hcov, -⟩ := adaptive_run (l := 4) (s := 1) one_pos (by norm_num)
    lineSolver_lawful rfl (Strategy.fresh_ofParameters _) ht
  exact ⟨d, hsigma, hcov⟩

end AdaptiveStrategy

end CmaesSolenoid.Libcmaes

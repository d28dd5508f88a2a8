import CmaesSolenoid.Interleaving

/-!
# `while` loops that take inputs

The condition is tested before a round takes its input: `loop` returns what the test
found and the inputs it did not take. `none` says that the inputs ran out first or that
a round failed. A loop that returned is a run of its rounds, each from a state in which
the test let it go on.
-/

namespace CmaesSolenoid.WhileLoop
open Interleaving

variable {σ ρ ι : Type}

def loop (stop : σ → Option ρ) (step : σ → ι → Option σ) : σ → List ι → Option (ρ × List ι)
  | s, [] => (stop s).map fun r => (r, [])
  | s, x :: xs =>
    match stop s with
    | some r => some (r, x :: xs)
    | none => (step s x).bind fun t => loop stop step t xs

def round (stop : σ → Option ρ) (step : σ → ι → Option σ) (s : σ) (x : ι) : Option σ :=
  match stop s with
  | some _ => none
  | none => step s x

variable {stop : σ → Option ρ} {step : σ → ι → Option σ} {s t : σ} {r : ρ} {x : ι}
  {xs rest : List ι}

theorem round_eq_some : round stop step s x = some t ↔ stop s = none ∧ step s x = some t := by
  rw [round]
  cases stop s <;> simp

theorem loop_of_stop (h : stop s = some r) (xs : List ι) : loop stop step s xs = some (r, xs) := by
  cases xs with
  | nil => rw [loop, h, Option.map_some]
  | cons x xs => simp only [loop, h]

theorem loop_cons (h : stop s = none) :
    loop stop step s (x :: xs) = (step s x).bind fun t => loop stop step t xs := by
  simp only [loop, h]

theorem loop_eq_some : loop stop step s xs = some (r, rest) ↔
    ∃ used t, xs = used ++ rest ∧ run (round stop step) s used = some t ∧ stop t = some r := by
  constructor
  · intro h
    induction xs generalizing s with
    | nil =>
      obtain ⟨r', hr, heq⟩ := Option.map_eq_some_iff.mp h
      obtain ⟨rfl, rfl⟩ := Prod.mk.inj heq
      exact ⟨[], s, rfl, rfl, hr⟩
    | cons x xs ih =>
      cases hs : stop s with
      | some r' =>
        rw [loop_of_stop hs] at h
        obtain ⟨rfl, rfl⟩ := Prod.mk.inj (Option.some.inj h)
        exact ⟨[], s, rfl, rfl, hs⟩
      | none =>
        rw [loop_cons hs] at h
        obtain ⟨s', hs', h⟩ := Option.bind_eq_some_iff.mp h
        obtain ⟨used, t, rfl, hrun, hstop⟩ := ih h
        exact ⟨x :: used, t, rfl,
          run_cons.mpr ⟨s', round_eq_some.mpr ⟨hs, hs'⟩, hrun⟩, hstop⟩
  · rintro ⟨used, t, rfl, hrun, hstop⟩
    induction used generalizing s with
    | nil => exact loop_of_stop ((Option.some.inj hrun) ▸ hstop) rest
    | cons x used ih =>
      obtain ⟨s', hs', hrun⟩ := run_cons.mp hrun
      obtain ⟨hs, hs'⟩ := round_eq_some.mp hs'
      rw [List.cons_append, loop_cons hs, hs', Option.bind_some]
      exact ih hrun

/-- A loop whose rounds count up to where the test ends it returns by then. -/
theorem loop_returns {inv : σ → Prop} {fair : ι → Prop} {μ : σ → ℕ} {N : ℕ}
    (hstep : ∀ s x, inv s → fair x → ∃ t, step s x = some t ∧ inv t ∧ μ t = μ s + 1)
    (hstop : ∀ s, inv s → N ≤ μ s → stop s ≠ none) (h0 : inv s) (hfair : ∀ x ∈ xs, fair x)
    (hlen : N ≤ μ s + xs.length) :
    ∃ r rest, loop stop step s xs = some (r, rest) ∧ xs.length ≤ rest.length + (N - μ s) := by
  induction xs generalizing s with
  | nil =>
    obtain ⟨r, hr⟩ := Option.ne_none_iff_exists'.mp (hstop s h0 hlen)
    exact ⟨r, [], loop_of_stop hr [], Nat.zero_le _⟩
  | cons x xs ih =>
    cases hs : stop s with
    | some r => exact ⟨r, x :: xs, loop_of_stop hs (x :: xs), Nat.le_add_right _ _⟩
    | none =>
      have hbelow : μ s < N := by
        by_contra hge
        exact hstop s h0 (Nat.le_of_not_lt hge) hs
      obtain ⟨hx, hxs⟩ := List.forall_mem_cons.mp hfair
      obtain ⟨t, ht, hinv, hμ⟩ := hstep s x h0 hx
      rw [List.length_cons] at hlen
      obtain ⟨r, rest, hr, hused⟩ := ih hinv hxs (by omega)
      refine ⟨r, rest, ?_, ?_⟩
      · rw [loop_cons hs, ht, Option.bind_some, hr]
      · rw [List.length_cons]
        omega

end CmaesSolenoid.WhileLoop

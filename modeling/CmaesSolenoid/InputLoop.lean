import Mathlib.Data.Stream.Init
import CmaesSolenoid.Interleaving

/-!
# Loops that take one input a round

A loop whose body takes one input, changes the loop variables and goes round
again or returns. `run` executes it on a finite list of the inputs still to come
and hands back those it did not take; `none` says that it took all of them and
asks for one more, so the loop on an infinite stream returns exactly when `run`
returns on some initial piece of the stream.
-/

namespace CmaesSolenoid.InputLoop

universe u v w

/-- The end of one round: go round again, or return. -/
inductive Flow (σ : Type u) (ρ : Type v)
  | again (s : σ)
  | ret (r : ρ)

variable {σ : Type u} {ρ : Type v} {ι : Type w}

def run (step : σ → ι → Flow σ ρ) : σ → List ι → Option (ρ × List ι)
  | _, [] => none
  | s, x :: xs =>
    match step s x with
    | .again s' => run step s' xs
    | .ret r => some (r, xs)

variable {step : σ → ι → Flow σ ρ} {s s' : σ} {r : ρ} {x : ι}

@[simp] theorem run_nil : run step s [] = none := rfl

theorem run_again (h : step s x = .again s') (xs : List ι) :
    run step s (x :: xs) = run step s' xs := by
  simp only [run, h]

theorem run_ret (h : step s x = .ret r) (xs : List ι) :
    run step s (x :: xs) = some (r, xs) := by
  simp only [run, h]

/-- A loop that has returned does not see what comes later. -/
theorem run_append {xs rest : List ι} (h : run step s xs = some (r, rest)) (ys : List ι) :
    run step s (xs ++ ys) = some (r, rest ++ ys) := by
  induction xs generalizing s with
  | nil => cases h
  | cons x xs ih =>
    rw [List.cons_append]
    cases hx : step s x with
    | again t =>
      rw [run_again hx] at h ⊢
      exact ih h
    | ret r' =>
      rw [run_ret hx] at h ⊢
      obtain ⟨rfl, rfl⟩ := Prod.mk.inj (Option.some.inj h)
      rfl

theorem take_of_append {f : Stream' ι} {n : ℕ} {used rest : List ι}
    (h : f.take n = used ++ rest) : f.take used.length = used := by
  have hlen : used.length ≤ n := by
    have := congrArg List.length h
    simp only [Stream'.length_take, List.length_append] at this
    omega
  have := congrArg (List.take used.length) h
  simpa [Stream'.take_take, Nat.min_eq_right hlen] using this

theorem take_add (f : Stream' ι) (m n : ℕ) : f.take (m + n) = f.take m ++ (f.drop m).take n := by
  induction n with
  | zero => simp
  | succ n ih =>
    rw [← Nat.add_assoc, Stream'.take_succ', Stream'.take_succ', ih, List.append_assoc,
      Stream'.get_drop]

section Rounds

variable {σ ρ ι : Type}

def Flow.next : Flow σ ρ → Option σ
  | again s => some s
  | ret _ => none

/-- The loop variables after these rounds, if the loop has not returned. -/
def rounds (step : σ → ι → Flow σ ρ) (s : σ) (xs : List ι) : Option σ :=
  Interleaving.run (fun s x => (step s x).next) s xs

variable {step : σ → ι → Flow σ ρ} {s t : σ} {r : ρ} {xs rest : List ι}

theorem Flow.next_eq_some {f : Flow σ ρ} : f.next = some t ↔ f = .again t := by
  cases f with
  | again s => simp [next]
  | ret r => simp [next]

theorem rounds_invariant {inv : σ → Prop}
    (hstep : ∀ s x t, inv s → step s x = .again t → inv t) (h0 : inv s)
    (h : rounds step s xs = some t) : inv t :=
  Interleaving.invariant (fun s x t hs hx => hstep s x t hs (Flow.next_eq_some.mp hx)) h0 h

/-- A loop that returns does so in the round after some in which it went on. -/
theorem exists_last_round (h : run step s xs = some (r, rest)) :
    ∃ before x t, xs = before ++ x :: rest ∧ rounds step s before = some t ∧
      step t x = .ret r := by
  induction xs generalizing s with
  | nil => cases h
  | cons x xs ih =>
    cases hx : step s x with
    | again s' =>
      rw [run_again hx] at h
      obtain ⟨before, y, t, rfl, hbefore, hlast⟩ := ih h
      refine ⟨x :: before, y, t, rfl, Interleaving.run_cons.mpr ⟨s', ?_, hbefore⟩, hlast⟩
      rw [hx]
      rfl
    | ret r' =>
      rw [run_ret hx] at h
      obtain ⟨rfl, rfl⟩ := Prod.mk.inj (Option.some.inj h)
      exact ⟨[], x, s, rfl, rfl, hx⟩

end Rounds

end CmaesSolenoid.InputLoop

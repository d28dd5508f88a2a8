import Mathlib.Data.Option.Basic
import Mathlib.Tactic.SplitIfs

/-!
# Stateful programs that may never return

A program in `StateT σ Option` maps a state to its result and the state it
leaves, or to `none` when it never returns. These rules take a run of a
sequential program apart.
-/

namespace CmaesSolenoid.PartialState

variable {σ α β : Type}

theorem pure_eq_some {a b : α} {s s' : σ} :
    (pure a : StateT σ Option α) s = some (b, s') ↔ a = b ∧ s = s' := by
  change some (a, s) = some (b, s') ↔ _
  simp

@[simp] theorem pure_apply (a : α) (s : σ) : (pure a : StateT σ Option α) s = some (a, s) := rfl

theorem bind_get (f : σ → StateT σ Option α) (s : σ) :
    ((get : StateT σ Option σ) >>= f) s = f s s := rfl

theorem bind_apply (m : StateT σ Option α) (f : α → StateT σ Option β) (s : σ) :
    (m >>= f) s = (m s).bind fun out => f out.1 out.2 := rfl

theorem bind_eq_some {m : StateT σ Option α} {f : α → StateT σ Option β} {s s' : σ} {b : β} :
    (m >>= f) s = some (b, s') ↔ ∃ a t, m s = some (a, t) ∧ f a t = some (b, s') := by
  rw [bind_apply, Option.bind_eq_some_iff]
  constructor
  · rintro ⟨⟨a, t⟩, hm, hf⟩
    exact ⟨a, t, hm, hf⟩
  · rintro ⟨a, t, hm, hf⟩
    exact ⟨(a, t), hm, hf⟩

theorem bind_of_eq {m : StateT σ Option α} {f : α → StateT σ Option β} {s t : σ} {a : α}
    (h : m s = some (a, t)) : (m >>= f) s = f a t := by
  rw [bind_apply, h, Option.bind_some]

theorem ite_at (c : Prop) [Decidable c] (m m' : StateT σ Option α) (s : σ) :
    (if c then m else m') s = if c then m s else m' s := by
  split <;> rfl

/-- A run that returned `b` did not leave at an early return of something else. -/
theorem bind_guard {m : StateT σ Option α} {c : α → Prop} [DecidablePred c] {g : α → β}
    {k : α → StateT σ Option β} {s s' : σ} {b : β}
    (h : (m >>= fun a => if c a then pure (g a) else k a) s = some (b, s'))
    (hne : ∀ a, c a → g a ≠ b) : ∃ a t, m s = some (a, t) ∧ ¬ c a ∧ k a t = some (b, s') := by
  obtain ⟨a, t, hm, h⟩ := bind_eq_some.mp h
  rw [ite_at] at h
  split_ifs at h with hc
  · exact absurd (pure_eq_some.mp h).1 (hne a hc)
  · exact ⟨a, t, hm, hc, h⟩

end CmaesSolenoid.PartialState

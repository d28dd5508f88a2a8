import Mathlib.Data.Nat.Notation
import Mathlib.Data.Option.Basic

/-!
# Interleaved runs

`step s a` is the state after action `a`, or `none` where `a` cannot be taken. A
list of actions is a schedule: which of the parties moves next is free, and a
theorem about every schedule holds of every interleaving.
-/

namespace CmaesSolenoid.Interleaving

variable {σ α : Type} (step : σ → α → Option σ)

/-- The state after a schedule, if each of its actions could be taken. -/
def run (s : σ) (as : List α) : Option σ := as.foldlM step s

/-- Every action of the schedule is taken in a state that meets `ok`. -/
def Meets (ok : σ → α → Prop) : σ → List α → Prop
  | _, [] => True
  | s, a :: as => ok s a ∧ ∀ t, step s a = some t → Meets ok t as

variable {step} {s t u : σ} {a : α} {as bs : List α}

@[simp] theorem run_nil : run step s [] = some s := rfl

theorem run_cons :
    run step s (a :: as) = some u ↔ ∃ t, step s a = some t ∧ run step t as = some u :=
  Option.bind_eq_some_iff

theorem run_append (has : run step s as = some t) (hbs : run step t bs = some u) :
    run step s (as ++ bs) = some u := by
  rw [run, List.foldlM_append]
  exact Option.bind_eq_some_iff.mpr ⟨t, has, hbs⟩

theorem run_append_iff :
    run step s (as ++ bs) = some u ↔ ∃ t, run step s as = some t ∧ run step t bs = some u := by
  rw [run, List.foldlM_append]
  exact Option.bind_eq_some_iff

/-- What every allowed step keeps, a schedule of allowed steps keeps. -/
theorem invariant_of_meets {ok : σ → α → Prop} {inv : σ → Prop}
    (hstep : ∀ s a t, ok s a → inv s → step s a = some t → inv t) (h0 : inv s)
    (hok : Meets step ok s as) (h : run step s as = some t) : inv t := by
  induction as generalizing s with
  | nil => exact (Option.some.inj h) ▸ h0
  | cons a as ih =>
    obtain ⟨s', ha, h⟩ := run_cons.mp h
    exact ih (hstep s a s' hok.1 h0 ha) (hok.2 s' ha) h

theorem meets_true : Meets step (fun _ _ => True) s as := by
  induction as generalizing s with
  | nil => trivial
  | cons a as ih => exact ⟨trivial, fun t _ => ih⟩

theorem meets_of_forall {ok : α → Prop} (h : ∀ a ∈ as, ok a) :
    Meets step (fun _ a => ok a) s as := by
  induction as generalizing s with
  | nil => trivial
  | cons a as ih =>
    obtain ⟨ha, has⟩ := List.forall_mem_cons.mp h
    exact ⟨ha, fun t _ => ih has⟩

theorem invariant {inv : σ → Prop} (hstep : ∀ s a t, inv s → step s a = some t → inv t)
    (h0 : inv s) (h : run step s as = some t) : inv t :=
  invariant_of_meets (fun s a t _ => hstep s a t) h0 meets_true h

/-- Where every step uses up some of a measure, so does every schedule. -/
theorem length_le_of_decreasing {inv : σ → Prop} {μ : σ → ℕ}
    (hstep : ∀ s a t, inv s → step s a = some t → inv t ∧ μ t < μ s) (h0 : inv s)
    (h : run step s as = some t) : as.length ≤ μ s := by
  induction as generalizing s with
  | nil => exact Nat.zero_le _
  | cons a as ih =>
    obtain ⟨s', ha, h⟩ := run_cons.mp h
    obtain ⟨hinv, hlt⟩ := hstep s a s' h0 ha
    have := ih hinv h
    rw [List.length_cons]
    omega

/-- Where a step can always be taken from a good state, and leads to a good one exactly when it
is allowed: every state reached is good exactly when every step is allowed. -/
theorem reached_iff_meets {ok : σ → α → Prop} {inv good : σ → Prop} {fair : α → Prop}
    (hstep : ∀ s a, inv s → good s → fair a →
      ∃ t, step s a = some t ∧ inv t ∧ (good t ↔ ok s a))
    (hinv : inv s) (hgood : good s) (hfair : ∀ a ∈ as, fair a) :
    (∀ k t, run step s (as.take k) = some t → good t) ↔ Meets step ok s as := by
  induction as generalizing s with
  | nil =>
    refine iff_of_true (fun k t h => ?_) trivial
    rw [List.take_nil] at h
    exact (Option.some.inj h) ▸ hgood
  | cons a as ih =>
    obtain ⟨ha, has⟩ := List.forall_mem_cons.mp hfair
    obtain ⟨t, ht, hinvt, hok⟩ := hstep s a hinv hgood ha
    have hrest (hgoodt : good t) := ih hinvt hgoodt has
    constructor
    · intro h
      have hgoodt : good t := h 1 t (run_cons.mpr ⟨t, ht, rfl⟩)
      refine ⟨hok.mp hgoodt, fun t' ht' => ?_⟩
      obtain rfl := Option.some.inj (ht.symm.trans ht')
      exact (hrest hgoodt).mp fun k u hu => h (k + 1) u (run_cons.mpr ⟨t, ht, hu⟩)
    · rintro ⟨hallowed, hmeets⟩ k u hu
      cases k with
      | zero => exact (Option.some.inj hu) ▸ hgood
      | succ k =>
        obtain ⟨t', ht', hu⟩ := run_cons.mp hu
        obtain rfl := Option.some.inj (ht.symm.trans ht')
        exact (hrest (hok.mpr hallowed)).mpr (hmeets t ht) k u hu

end CmaesSolenoid.Interleaving

import CmaesSolenoid.BnoThread

/-!
# Stopping the sampling thread

Both threads write `is_running`: the reader stores `true` once, when it starts, and the
destructor stores `false`. Only the sleep in the constructor puts the first store
before the second.
-/

namespace CmaesSolenoid
open Interleaving

namespace BnoThread

def StopStored (s : BnoThread) : Prop := s.main = .join ∨ s.main = .joined

def stepsLeft (s : BnoThread) : ℕ :=
  (if s.main = .joined then 0 else 1) +
    (match s.reader with
    | .test => 1
    | .poll => 2
    | _ => 0)

/-- The stop has taken effect: the flag is down, the reader does not start a round, and
nothing but a poll that does not return keeps the two threads from the end of the join. -/
structure Obeyed (s : BnoThread) : Prop where
  flag : s.isRunning = false
  noRound : ∀ t, step s .reader = some t → t.reader ≠ .poll
  bounded : ∀ later t, run step s later = some t → later.length ≤ 3
  unblocked : s.main ≠ .joined → s.reader ≠ .poll → ∃ a t, step s a = some t

/-- The reader had stored `true` before the destructor stored `false`. -/
structure Settled (s : BnoThread) : Prop where
  stored : s.StopStored
  flag : s.isRunning = false
  started : s.reader = .test ∨ s.reader = .poll ∨ s.reader = .exited

theorem settled_step (s : BnoThread) (a : Thread) (t : BnoThread) (h : s.Settled)
    (hs : step s a = some t) : t.Settled ∧ t.stepsLeft < s.stepsLeft := by
  obtain ⟨hstored, hflag, hstarted⟩ := h
  cases step_eq_some hs with
  | spawn hm => simp [StopStored, hm] at hstored
  | sleep hm => simp [StopStored, hm] at hstored
  | stop hm => simp [StopStored, hm] at hstored
  | join hm hr => exact ⟨⟨.inr rfl, hflag, hstarted⟩, by simp [stepsLeft, hm]⟩
  | start hr => simp [hr] at hstarted
  | again hr hrun => simp [hflag] at hrun
  | exit hr hrun => exact ⟨⟨hstored, hflag, .inr (.inr rfl)⟩, by simp [stepsLeft, hr]⟩
  | poll hr hp => exact ⟨⟨hstored, hflag, .inl rfl⟩, by simp [stepsLeft, hr]⟩

theorem stepsLeft_le (s : BnoThread) : s.stepsLeft ≤ 3 := by
  rw [stepsLeft]
  split_ifs <;> split <;> omega

theorem Settled.obeyed {s : BnoThread} (h : s.Settled) : s.Obeyed where
  flag := h.flag
  noRound := by
    intro t hs hpoll
    have hst := step_eq_some hs
    cases hst with
    | start hr => cases hpoll
    | again hr hrun => simp [h.flag] at hrun
    | exit hr hrun => cases hpoll
    | poll hr hp => cases hpoll
  bounded later t hrun := (length_le_of_decreasing settled_step h hrun).trans s.stepsLeft_le
  unblocked := by
    intro hm hp
    rcases h.started with hr | hr | hr
    · exact ⟨.reader, _, by simp [step, stepReader, hr]; rfl⟩
    · exact absurd hr hp
    · have hj := h.stored.resolve_right hm
      exact ⟨.main, _, by simp [step, stepMain, hj, hr]; rfl⟩

def Spawned (s : BnoThread) : Prop := s.main = .spawn ∨ s.reader ≠ .notSpawned

theorem spawned_step (s : BnoThread) (a : Thread) (t : BnoThread) (h : s.Spawned)
    (hs : step s a = some t) : t.Spawned := by
  cases step_eq_some hs with
  | spawn hm => exact .inr nofun
  | sleep hm => exact .inr (h.resolve_left (by simp [hm]))
  | stop hm => exact .inr (h.resolve_left (by simp [hm]))
  | join hm hr => exact .inr (h.resolve_left (by simp [hm]))
  | _ => exact .inr nofun

/-- What a store of `false` after the reader's own store leads to. -/
theorem settled_of_stop {s t : BnoThread} (h : s.Spawned) (hm : s.main = .stop)
    (hs : step s .main = some t) (hr : s.reader ≠ .start) : t.Settled := by
  cases step_eq_some hs with
  | spawn hm' => simp [hm] at hm'
  | sleep hm' => simp [hm] at hm'
  | join hm' hr' => simp [hm] at hm'
  | stop _ =>
    refine ⟨.inl rfl, rfl, ?_⟩
    have hspawned := h.resolve_left (by simp [hm])
    change s.reader = .test ∨ s.reader = .poll ∨ s.reader = .exited
    cases hreader : s.reader <;> simp_all

def StartedFirst (s : BnoThread) (a : Thread) : Prop :=
  a = .main → s.main = .stop → s.reader ≠ .start

theorem settled_run_step (s : BnoThread) (a : Thread) (t : BnoThread) (hok : StartedFirst s a)
    (h : s.Spawned ∧ (s.StopStored → s.Settled)) (hs : step s a = some t) :
    t.Spawned ∧ (t.StopStored → t.Settled) := by
  obtain ⟨hspawned, hsettled⟩ := h
  refine ⟨spawned_step s a t hspawned hs, fun ht => ?_⟩
  by_cases hbefore : s.StopStored
  · exact (settled_step s a t (hsettled hbefore) hs).1
  cases step_eq_some hs with
  | stop hm => exact settled_of_stop hspawned hm hs (hok rfl hm)
  | spawn hm => simp [StopStored] at ht
  | sleep hm => simp [StopStored] at ht
  | join hm hr => exact absurd (.inl hm) hbefore
  | _ => exact absurd ht hbefore

theorem startedFirst_run {dev : Port} {schedule : List Thread} {s : BnoThread}
    (hmeets : Meets step StartedFirst (constructed dev) schedule)
    (h : run step (constructed dev) schedule = some s) :
    s.Spawned ∧ (s.StopStored → s.Settled) := by
  apply invariant_of_meets settled_run_step ⟨.inl rfl, ?_⟩ hmeets h
  intro hstored
  simp [StopStored, constructed] at hstored

/-- The reader has stored `true` over the destructor's `false`. -/
structure Overruled (s : BnoThread) : Prop where
  main : s.main = .join
  flag : s.isRunning = true
  polling : s.reader = .test ∨ s.reader = .poll

theorem overruled_step (s : BnoThread) (a : Thread) (t : BnoThread) (h : s.Overruled)
    (hs : step s a = some t) : t.Overruled := by
  obtain ⟨hmain, hflag, hpolling⟩ := h
  cases step_eq_some hs with
  | spawn hm => simp [hmain] at hm
  | sleep hm => simp [hmain] at hm
  | stop hm => simp [hmain] at hm
  | join hm hr => simp [hr] at hpolling
  | start hr => simp [hr] at hpolling
  | again hr hrun => exact ⟨hmain, hflag, .inr rfl⟩
  | exit hr hrun => simp [hflag] at hrun
  | poll hr hp => exact ⟨hmain, hflag, .inl rfl⟩

/-- A reader that starts after the destructor's store never sees it: the join waits for ever. -/
theorem overruled_of_late_start {s t : BnoThread} (hm : s.main = .stop) (hr : s.reader = .start)
    (hs : step s .main = some t) : ∃ u, step t .reader = some u ∧
      ∀ later v, run step u later = some v → v.Overruled := by
  rw [step, stepMain, hm] at hs
  cases hs
  refine ⟨_, by simp [step, stepReader, hr]; rfl, fun later v hv => ?_⟩
  exact invariant overruled_step ⟨rfl, rfl, .inl rfl⟩ hv

/-- Whoever stores first: the stop takes effect in every continuation exactly when the
reader's store came before the destructor's. -/
theorem stop_obeyed_iff (dev : Port) :
    (∀ schedule s, Meets step StartedFirst (constructed dev) schedule →
      run step (constructed dev) schedule = some s → s.StopStored → s.Obeyed) ∧
    (∀ schedule s t, run step (constructed dev) schedule = some s → s.main = .stop →
      step s .main = some t →
      ((∀ later u, run step t later = some u → u.Obeyed) ↔ s.reader ≠ .start)) := by
  constructor
  · intro schedule s hmeets hrun hstored
    exact ((startedFirst_run hmeets hrun).2 hstored).obeyed
  · intro schedule s t hrun hm hs
    have hspawned := invariant spawned_step (.inl rfl) hrun
    constructor
    · intro hall hr
      -- the reader's own store is its next step
      obtain ⟨u, hu, hover⟩ := overruled_of_late_start hm hr hs
      have hflag := (hall [.reader] u (run_cons.mpr ⟨u, hu, rfl⟩)).flag
      rw [(hover [] u rfl).flag] at hflag
      cases hflag
    · intro hr later u hu
      have hsettled := settled_of_stop hspawned hm hs hr
      exact (invariant (fun s a t h hs => (settled_step s a t h hs).1) hsettled hu).obeyed

theorem stop_obeyed_iff_started :
    (∃ s, run step (constructed (Port.opened [] [])) [.main, .reader, .main, .main] = some s ∧
      s.Obeyed) ∧
    ∃ t, run step (constructed (Port.opened [] [])) [.main, .main, .main] = some t ∧
      ¬ ∀ later u, run step t later = some u → u.Obeyed := by
  obtain ⟨hruns, hstop⟩ := stop_obeyed_iff (Port.opened [] [])
  constructor
  · refine ⟨_, rfl, hruns [.main, .reader, .main, .main] _ ?_ rfl (.inl rfl)⟩
    simp [Meets, StartedFirst, step, stepMain, stepReader, constructed]
  · refine ⟨_, rfl, fun hall => ?_⟩
    exact (hstop [.main, .main] _ _ rfl rfl rfl).mp hall rfl

/-- The constructor's sleep passes before the reader runs at all. -/
theorem stop_overruled : ¬ ∀ dev schedule s, run step (constructed dev) schedule = some s →
    s.StopStored → s.isRunning = false := by
  intro h
  have hflag := h (Port.opened [] []) [.main, .main, .main, .reader] _ rfl (.inl rfl)
  cases hflag

end BnoThread

end CmaesSolenoid

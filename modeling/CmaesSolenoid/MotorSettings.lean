import CmaesSolenoid.MotorExit
import CmaesSolenoid.Optimiser

/-!
# What the motor is set to while it is measured

`fsphere` sets range and duty of the candidate it is called for and then measures. The
processes of the program are run with all that the `gpio` commands set.
-/

namespace CmaesSolenoid
open Interleaving Libcmaes

structure PwmSettings where
  pwmMode : Bool
  pwmMs : Bool
  pwmc : ℤ
  pwmr : ℤ
  pwm : ℤ
  deriving DecidableEq, Repr

namespace PwmSettings

def apply (g : PwmSettings) : GpioCmd → PwmSettings
  | .modePwm => { g with pwmMode := true }
  | .pwmMs => { g with pwmMs := true }
  | .pwmc divisor => { g with pwmc := divisor }
  | .pwmr range => { g with pwmr := range }
  | .pwm duty => { g with pwm := duty }

def after (cmds : List GpioCmd) (g : PwmSettings) : PwmSettings := cmds.foldl apply g

theorem after_append (cmds cmds' : List GpioCmd) (g : PwmSettings) :
    after (cmds ++ cmds') g = after cmds' (after cmds g) :=
  List.foldl_append

theorem pwm_apply (g : PwmSettings) (c : GpioCmd) : (g.apply c).pwm = c.apply g.pwm := by
  cases c <;> rfl

end PwmSettings

/-- `fsphere`, before it measures. -/
def fsphereCall (x : Point) : PwmCall := .setPwmRangeDuty x.pwmRange x.pwmDuty

def searchCalls (pops : List (List (Evaluation Point ℚ))) : List PwmCall :=
  pops.flatten.map fun e => fsphereCall (phenof e.x)

structure Bench extends Processes where
  settings : PwmSettings

namespace Bench

def started (evaluations : List PwmCall) (g : PwmSettings) : Bench where
  toProcesses := .started evaluations g.pwm
  settings := g

def command (s : Bench) : Mover → List GpioCmd
  | .shell => s.shell.take 1
  | .handlerShell => s.handlerShell.take 1
  | _ => []

def step (s : Bench) (a : Mover) : Option Bench :=
  (s.toProcesses.step a).map fun t =>
    { toProcesses := t, settings := .after (s.command a) s.settings }

def pending (s : Bench) : Option (List PwmCall) :=
  match s.program with
  | .call rest => some rest
  | .pclose rest => some rest
  | _ => none

/-- Until SIGINT the settings are those of the calls made, up to what the one shell has left, and
it has nothing left between the calls. -/
structure Following (calls : List PwmCall) (g : PwmSettings) (s : Bench) : Prop where
  duty : s.duty = s.settings.pwm
  settings : ∀ rest, s.pending = some rest → s.handlerShell = [] ∧ ∃ made ran,
    made ++ rest = calls ∧ ran ++ s.shell = made.flatMap PwmCall.script ∧
      s.settings = .after ran g
  shell : ∀ rest, s.program = .call rest → s.shell = []

variable {calls : List PwmCall} {g : PwmSettings} {s t : Bench} {a : Mover}

theorem step_eq_some : step s a = some t ↔ ∃ u, s.toProcesses.step a = some u ∧
    { toProcesses := u, settings := .after (s.command a) s.settings } = t :=
  Option.map_eq_some_iff

theorem following_started (evaluations : List PwmCall) (g : PwmSettings) :
    Following (mainCalls evaluations) g (started evaluations g) where
  duty := rfl
  settings rest h := by
    obtain rfl := Option.some.inj h
    exact ⟨rfl, [], [], rfl, rfl, rfl⟩
  shell _ _ := rfl

theorem following_step (s : Bench) (a : Mover) (t : Bench) (h : Following calls g s)
    (hst : step s a = some t) : Following calls g t := by
  obtain ⟨u, hu, rfl⟩ := step_eq_some.mp hst
  have hset := h.settings
  simp only [pending] at hset
  cases Processes.step_eq_some hu with
  | @popen c rest hp =>
    rw [hp] at hset
    obtain ⟨hhandler, made, ran, hmade, hran, hsettings⟩ := hset _ rfl
    refine ⟨h.duty, fun rest' hrest => ?_, by simp⟩
    obtain rfl := Option.some.inj hrest
    refine ⟨hhandler, made ++ [c], ran, by simp [hmade], ?_, hsettings⟩
    rw [h.shell _ hp, List.append_nil] at hran
    rw [hran]
    simp
  | done hp => exact ⟨h.duty, by simp [pending], by simp⟩
  | @pclose rest hp hshell =>
    rw [hp] at hset
    exact ⟨h.duty, hset, fun _ _ => hshell⟩
  | handlerPopen hp => exact ⟨h.duty, by simp [pending], by simp⟩
  | handlerExit hp hshell => exact ⟨h.duty, by simp [pending], by simp⟩
  | sigintCall hp => exact ⟨h.duty, by simp [pending], by simp⟩
  | sigintPclose hp => exact ⟨h.duty, by simp [pending], by simp⟩
  | @shell c cs hshell =>
    have hcommand : s.command .shell = [c] := by rw [command, hshell]; rfl
    rw [hcommand]
    refine ⟨?_, fun rest hrest => ?_, fun rest hp => ?_⟩
    · rw [show s.toProcesses.duty = s.settings.pwm from h.duty]
      exact (PwmSettings.pwm_apply s.settings c).symm
    · obtain ⟨hhandler, made, ran, hmade, hran, hsettings⟩ := hset rest hrest
      refine ⟨hhandler, made, ran ++ [c], hmade, ?_, ?_⟩
      · rw [hshell] at hran
        simpa using hran
      · rw [PwmSettings.after_append, ← hsettings]
    · rw [h.shell rest hp] at hshell
      cases hshell
  | @handlerShell c cs hshell =>
    have hcommand : s.command .handlerShell = [c] := by rw [command, hshell]; rfl
    rw [hcommand]
    refine ⟨?_, fun rest hrest => ?_, h.shell⟩
    · rw [show s.toProcesses.duty = s.settings.pwm from h.duty]
      exact (PwmSettings.pwm_apply s.settings c).symm
    · rw [(hset rest hrest).1] at hshell
      cases hshell

theorem after_fsphereCalls (es : List (Evaluation Point ℚ)) (g : PwmSettings) :
    ∃ range duty, PwmSettings.after ((es.map fun e => fsphereCall (phenof e.x)).flatMap
      PwmCall.script) g = { g with pwmr := range, pwm := duty } := by
  induction es generalizing g with
  | nil => exact ⟨g.pwmr, g.pwm, rfl⟩
  | cons e es ih =>
    rw [List.map_cons, List.flatMap_cons, PwmSettings.after_append]
    exact ih _

theorem truncate_mem {x : ℚ} (h : 2 ≤ x ∧ x ≤ 4095) : 2 ≤ truncate x ∧ truncate x ≤ 4095 := by
  rw [truncate_eq_floor (zero_le_two.trans h.1)]
  refine ⟨Int.le_floor.mpr (by exact_mod_cast h.1), ?_⟩
  have := (Int.floor_le x).trans h.2
  exact_mod_cast this

end Bench

end CmaesSolenoid

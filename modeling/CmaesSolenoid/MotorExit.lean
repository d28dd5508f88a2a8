import Mathlib.Data.List.Infix
import Mathlib.Data.Rat.Floor
import CmaesSolenoid.Interleaving

/-!
# The motor and the end of the program

The PWM is set through `gpio` commands that a shell runs for the program. `popen_cmd`
waits for its shell, but SIGINT leaves that wait: `sig_handler` then starts a shell of
its own, and the program ends as soon as this second shell has finished.
-/

namespace CmaesSolenoid
open Interleaving

/-- The `gpio` commands the program uses, all of them about the motor's pin 1. -/
inductive GpioCmd
  | modePwm
  | pwmMs
  | pwmc (divisor : ℤ)
  | pwmr (range : ℤ)
  | pwm (duty : ℤ)
  deriving DecidableEq, Repr

def GpioCmd.apply (duty : ℤ) : GpioCmd → ℤ
  | pwm d => d
  | _ => duty

def dutyAfter (cmds : List GpioCmd) (duty : ℤ) : ℤ := cmds.foldl GpioCmd.apply duty

def truncate (x : ℚ) : ℤ := x.num.tdiv x.den

theorem truncate_eq_floor {x : ℚ} (h : 0 ≤ x) : truncate x = ⌊x⌋ := by
  unfold truncate
  rw [Int.tdiv_eq_ediv_of_nonneg (Rat.num_nonneg.mpr h), Rat.floor_def']

inductive PwmCall
  | setPwmState (isOn : Bool)
  | setPwmRangeDuty (pwmRange pwmDuty : ℚ)
  deriving DecidableEq, Repr

/-- The commands between the semicolons of the string given to `popen_cmd`. -/
def PwmCall.script : PwmCall → List GpioCmd
  | setPwmState true => [.modePwm, .pwmMs, .pwmc 4095]
  | setPwmState false => [.pwm 0]
  | setPwmRangeDuty pwmRange pwmDuty => [.pwmr (truncate pwmRange), .pwm (truncate pwmDuty)]

/-- `main`: the calls between the first and the last are those of the evaluations. -/
def mainCalls (evaluations : List PwmCall) : List PwmCall :=
  .setPwmState true :: (evaluations ++ [.setPwmState false])

/-- Where the program is: before the next of its calls, or in `popen_cmd` waiting for the
shell, or in `sig_handler`, before or in its own `popen_cmd`, or gone. -/
inductive ProgramPc
  | call (rest : List PwmCall)
  | pclose (rest : List PwmCall)
  | handler
  | handlerPclose
  | exited
  deriving DecidableEq, Repr

structure Processes where
  program : ProgramPc
  shell : List GpioCmd
  handlerShell : List GpioCmd
  duty : ℤ
  deriving DecidableEq, Repr

inductive Mover
  | program
  | sigint
  | shell
  | handlerShell
  deriving DecidableEq, Repr

namespace Processes

def started (evaluations : List PwmCall) (duty : ℤ) : Processes where
  program := .call (mainCalls evaluations)
  shell := []
  handlerShell := []
  duty := duty

def stepProgram (s : Processes) : Option Processes :=
  match s.program with
  | .call (c :: rest) => some { s with program := .pclose rest, shell := c.script }
  | .call [] => some { s with program := .exited }
  -- waits for this shell and no other
  | .pclose rest => if s.shell = [] then some { s with program := .call rest } else none
  -- the shell that `popen_cmd` was waiting for is left to itself
  | .handler => some { s with
      program := .handlerPclose
      handlerShell := (PwmCall.setPwmState false).script }
  | .handlerPclose =>
    if s.handlerShell = [] then some { s with program := .exited } else none
  | .exited => none

/-- SIGINT is held back while its handler runs. -/
def stepSigint (s : Processes) : Option Processes :=
  match s.program with
  | .call _ => some { s with program := .handler }
  | .pclose _ => some { s with program := .handler }
  | _ => none

def step (s : Processes) : Mover → Option Processes
  | .program => s.stepProgram
  | .sigint => s.stepSigint
  | .shell =>
    match s.shell with
    | [] => none
    | c :: cs => some { s with shell := cs, duty := c.apply s.duty }
  | .handlerShell =>
    match s.handlerShell with
    | [] => none
    | c :: cs => some { s with handlerShell := cs, duty := c.apply s.duty }

def Off (s : Processes) : Prop :=
  s.program = .exited → s.shell = [] → s.handlerShell = [] → s.duty = 0

end Processes

def Quiet (cmds : List GpioCmd) : Prop := ∀ d, .pwm d ∈ cmds → d = 0

/-- SIGINT finds no command that would turn the motor on. -/
def QuietSigint (s : Processes) (a : Mover) : Prop := a = .sigint → Quiet s.shell

theorem dutyAfter_append (cmds cmds' : List GpioCmd) (duty : ℤ) :
    dutyAfter (cmds ++ cmds') duty = dutyAfter cmds' (dutyAfter cmds duty) :=
  List.foldl_append

theorem Quiet.tail {c : GpioCmd} {cs : List GpioCmd} (h : Quiet (c :: cs)) : Quiet cs :=
  fun d hd => h d (List.mem_cons_of_mem c hd)

theorem Quiet.apply_zero {c : GpioCmd} {cs : List GpioCmd} (h : Quiet (c :: cs)) :
    c.apply 0 = 0 := by
  cases c with
  | pwm d => exact h d List.mem_cons_self
  | _ => rfl

/-- A call sets the duty at most once, and last. -/
theorem duty_last {call : PwmCall} {cmds : List GpioCmd} (hc : cmds <:+ call.script) {d : ℤ}
    (hd : .pwm d ∈ cmds) : ∃ before, cmds = before ++ [.pwm d] := by
  have hscript : ∃ before, call.script = before ++ [.pwm d] := by
    match call with
    | .setPwmState true => simpa [PwmCall.script] using hc.mem hd
    | .setPwmState false =>
      obtain rfl : d = 0 := by simpa [PwmCall.script] using hc.mem hd
      exact ⟨[], rfl⟩
    | .setPwmRangeDuty r x =>
      obtain rfl : d = truncate x := by simpa [PwmCall.script] using hc.mem hd
      exact ⟨[.pwmr (truncate r)], rfl⟩
  obtain ⟨before, hbefore⟩ := hscript
  -- what is left ends like the whole script
  obtain ⟨front, last, rfl⟩ := (List.eq_nil_or_concat' cmds).resolve_left (List.ne_nil_of_mem hd)
  obtain ⟨skipped, hskipped⟩ := hc
  rw [hbefore, ← List.append_assoc] at hskipped
  obtain ⟨-, hlast⟩ := List.append_inj' hskipped rfl
  exact ⟨front, by rw [hlast]⟩

theorem dutyAfter_ne_zero {call : PwmCall} {cmds : List GpioCmd} (hc : cmds <:+ call.script)
    (hq : ¬ Quiet cmds) (duty : ℤ) : dutyAfter cmds duty ≠ 0 := by
  rw [Quiet, not_forall] at hq
  obtain ⟨d, hd⟩ := hq
  obtain ⟨hmem, hne⟩ := Classical.not_imp.mp hd
  obtain ⟨before, rfl⟩ := duty_last hc hmem
  rw [dutyAfter_append]
  exact hne

theorem dutyAfter_mainCalls (evaluations : List PwmCall) (duty : ℤ) :
    dutyAfter ((mainCalls evaluations).flatMap PwmCall.script) duty = 0 := by
  rw [mainCalls, List.flatMap_cons, List.flatMap_append, dutyAfter_append, dutyAfter_append]
  rfl

namespace Processes

inductive Step (s : Processes) : Mover → Processes → Prop
  | popen {c : PwmCall} {rest : List PwmCall} (hp : s.program = .call (c :: rest)) :
      Step s .program { s with program := .pclose rest, shell := c.script }
  | done (hp : s.program = .call []) : Step s .program { s with program := .exited }
  | pclose {rest : List PwmCall} (hp : s.program = .pclose rest) (hs : s.shell = []) :
      Step s .program { s with program := .call rest }
  | handlerPopen (hp : s.program = .handler) : Step s .program { s with
      program := .handlerPclose
      handlerShell := (PwmCall.setPwmState false).script }
  | handlerExit (hp : s.program = .handlerPclose) (hs : s.handlerShell = []) :
      Step s .program { s with program := .exited }
  | sigintCall {rest : List PwmCall} (hp : s.program = .call rest) :
      Step s .sigint { s with program := .handler }
  | sigintPclose {rest : List PwmCall} (hp : s.program = .pclose rest) :
      Step s .sigint { s with program := .handler }
  | shell {c : GpioCmd} {cs : List GpioCmd} (hs : s.shell = c :: cs) :
      Step s .shell { s with shell := cs, duty := c.apply s.duty }
  | handlerShell {c : GpioCmd} {cs : List GpioCmd} (hs : s.handlerShell = c :: cs) :
      Step s .handlerShell { s with handlerShell := cs, duty := c.apply s.duty }

theorem step_eq_some {s t : Processes} {a : Mover} (h : step s a = some t) : Step s a t := by
  cases a with
  | program =>
    rw [step, stepProgram] at h
    split at h
    · cases h
      exact .popen ‹_›
    · cases h
      exact .done ‹_›
    · split_ifs at h with hs
      cases h
      exact .pclose ‹_› hs
    · cases h
      exact .handlerPopen ‹_›
    · split_ifs at h with hs
      cases h
      exact .handlerExit ‹_› hs
    · cases h
  | sigint =>
    rw [step, stepSigint] at h
    split at h <;> cases h
    · exact .sigintCall ‹_›
    · exact .sigintPclose ‹_›
  | shell =>
    rw [step] at h
    split at h <;> cases h
    exact .shell ‹_›
  | handlerShell =>
    rw [step] at h
    split at h <;> cases h
    exact .handlerShell ‹_›

/-- Without SIGINT the commands to come end by turning the motor off; after it, nothing is
left that turns it on again. -/
def Tame (s : Processes) : Prop :=
  match s.program with
  | .call rest => s.shell = [] ∧ s.handlerShell = [] ∧
      dutyAfter (rest.flatMap PwmCall.script) s.duty = 0
  | .pclose rest => s.handlerShell = [] ∧
      dutyAfter (s.shell ++ rest.flatMap PwmCall.script) s.duty = 0
  | .handler => s.handlerShell = [] ∧ Quiet s.shell
  | .handlerPclose => Quiet s.shell ∧ (s.handlerShell = [.pwm 0] ∨ s.handlerShell = [] ∧ s.duty = 0)
  | .exited => Quiet s.shell ∧ s.handlerShell = [] ∧ s.duty = 0

theorem tame_started (evaluations : List PwmCall) (duty : ℤ) : (started evaluations duty).Tame :=
  ⟨rfl, rfl, dutyAfter_mainCalls evaluations duty⟩

theorem tame_shell {s : Processes} {c : GpioCmd} {cs : List GpioCmd} (hs : s.shell = c :: cs)
    (h : s.Tame) : ({ s with shell := cs, duty := c.apply s.duty } : Processes).Tame := by
  rw [Tame, hs] at h
  cases hp : s.program with
  | call rest =>
    rw [hp] at h
    cases h.1
  | pclose rest =>
    rw [hp] at h
    simp only [Tame]
    exact h
  | handler =>
    rw [hp] at h
    simp only [Tame]
    exact ⟨h.1, h.2.tail⟩
  | handlerPclose =>
    rw [hp] at h
    simp only [Tame]
    refine ⟨h.1.tail, h.2.imp_right fun hoff => ⟨hoff.1, ?_⟩⟩
    rw [hoff.2]
    exact h.1.apply_zero
  | exited =>
    rw [hp] at h
    simp only [Tame]
    refine ⟨h.1.tail, h.2.1, ?_⟩
    rw [h.2.2]
    exact h.1.apply_zero

theorem tame_handlerShell {s : Processes} {c : GpioCmd} {cs : List GpioCmd}
    (hs : s.handlerShell = c :: cs) (h : s.Tame) :
    ({ s with handlerShell := cs, duty := c.apply s.duty } : Processes).Tame := by
  rw [Tame, hs] at h
  cases hp : s.program with
  | handlerPclose =>
    rw [hp] at h
    simp only [Tame]
    rcases h.2 with hpwm | ⟨hnil, -⟩
    · obtain ⟨rfl, rfl⟩ := List.cons.inj hpwm
      exact ⟨h.1, .inr ⟨rfl, rfl⟩⟩
    · cases hnil
  | _ =>
    rw [hp] at h
    simp at h

theorem tame_step (s : Processes) (a : Mover) (t : Processes) (hok : QuietSigint s a)
    (h : s.Tame) (hs : step s a = some t) : t.Tame := by
  cases step_eq_some hs with
  | popen hp =>
    rw [Tame, hp] at h
    exact ⟨h.2.1, h.2.2⟩
  | done hp =>
    rw [Tame, hp] at h
    refine ⟨?_, h.2.1, h.2.2⟩
    intro d hd
    rw [h.1] at hd
    cases hd
  | pclose hp hshell =>
    rw [Tame, hp] at h
    refine ⟨hshell, h.1, ?_⟩
    have hduty := h.2
    rwa [hshell] at hduty
  | handlerPopen hp =>
    rw [Tame, hp] at h
    exact ⟨h.2, .inl rfl⟩
  | handlerExit hp hshell =>
    rw [Tame, hp] at h
    refine ⟨h.1, hshell, ?_⟩
    rcases h.2 with hpwm | hoff
    · rw [hshell] at hpwm
      cases hpwm
    · exact hoff.2
  | sigintCall hp =>
    rw [Tame, hp] at h
    exact ⟨h.2.1, hok rfl⟩
  | sigintPclose hp =>
    rw [Tame, hp] at h
    exact ⟨h.1, hok rfl⟩
  | shell hshell => exact tame_shell hshell h
  | handlerShell hshell => exact tame_handlerShell hshell h

theorem Tame.off {s : Processes} (h : s.Tame) : s.Off := by
  intro hp _ _
  rw [Tame, hp] at h
  exact h.2.2

/-- What holds before and after SIGINT: a shell runs the rest of one call, and there is no
other shell until the handler has started one. -/
structure OneCall (s : Processes) : Prop where
  shell : ∃ call : PwmCall, s.shell <:+ call.script
  handlerShell : (∃ rest, s.program = .call rest ∨ s.program = .pclose rest) ∨
    s.program = .handler → s.handlerShell = []

theorem oneCall_step (s : Processes) (a : Mover) (t : Processes) (h : s.OneCall)
    (hs : step s a = some t) : t.OneCall := by
  obtain ⟨⟨call, hcall⟩, hnone⟩ := h
  cases step_eq_some hs with
  | @popen c rest hp =>
    exact ⟨⟨c, List.suffix_rfl⟩, fun _ => hnone (.inl ⟨_, .inl hp⟩)⟩
  | done hp => exact ⟨⟨call, hcall⟩, fun _ => hnone (.inl ⟨_, .inl hp⟩)⟩
  | pclose hp hshell => exact ⟨⟨call, hcall⟩, fun _ => hnone (.inl ⟨_, .inr hp⟩)⟩
  | handlerPopen hp => exact ⟨⟨call, hcall⟩, by simp⟩
  | handlerExit hp hshell => exact ⟨⟨call, hcall⟩, by simp⟩
  | sigintCall hp => exact ⟨⟨call, hcall⟩, fun _ => hnone (.inl ⟨_, .inl hp⟩)⟩
  | sigintPclose hp => exact ⟨⟨call, hcall⟩, fun _ => hnone (.inl ⟨_, .inr hp⟩)⟩
  | @shell c cs hshell =>
    refine ⟨⟨call, ?_⟩, hnone⟩
    rw [hshell] at hcall
    exact (List.suffix_cons c cs).trans hcall
  | @handlerShell c cs hshell =>
    refine ⟨⟨call, hcall⟩, fun hp => ?_⟩
    rw [hnone hp] at hshell
    cases hshell

theorem run_shell (s : Processes) : run step s (List.replicate s.shell.length .shell) =
    some { s with shell := [], duty := dutyAfter s.shell s.duty } := by
  obtain ⟨program, shell, handlerShell, duty⟩ := s
  induction shell generalizing duty with
  | nil => rfl
  | cons c cs ih => exact run_cons.mpr ⟨_, rfl, ih (c.apply duty)⟩

theorem run_handler {s : Processes} (hp : s.program = .handler) :
    run step s ([.program, .handlerShell, .program] ++ List.replicate s.shell.length .shell) =
      some ⟨.exited, [], [], dutyAfter s.shell 0⟩ := by
  obtain ⟨program, shell, handlerShell, duty⟩ := s
  obtain rfl : program = .handler := hp
  exact run_append (t := ⟨.exited, shell, [], 0⟩) rfl (run_shell _)

theorem sigint_eq_some {s t : Processes} (hs : step s .sigint = some t) :
    t = { s with program := .handler } ∧
      ∃ rest, s.program = .call rest ∨ s.program = .pclose rest := by
  cases step_eq_some hs with
  | sigintCall hp => exact ⟨rfl, _, .inl hp⟩
  | sigintPclose hp => exact ⟨rfl, _, .inr hp⟩

def Interrupted (s : Processes) : Prop :=
  s.program = .handler ∨ s.program = .handlerPclose ∨ s.program = .exited

theorem interrupted_step (s : Processes) (a : Mover) (t : Processes) (h : s.Tame ∧ s.Interrupted)
    (hs : step s a = some t) : t.Tame ∧ t.Interrupted := by
  obtain ⟨htame, hint⟩ := h
  constructor
  · apply tame_step s a t _ htame hs
    rintro rfl
    obtain ⟨-, rest, hcall | hpclose⟩ := sigint_eq_some hs
    · simp [Interrupted, hcall] at hint
    · simp [Interrupted, hpclose] at hint
  · cases step_eq_some hs with
    | popen hp => simp [Interrupted, hp] at hint
    | done hp => simp [Interrupted, hp] at hint
    | pclose hp hshell => simp [Interrupted, hp] at hint
    | handlerPopen hp => exact .inr (.inl rfl)
    | handlerExit hp hshell => exact .inr (.inr rfl)
    | sigintCall hp => exact .inl rfl
    | sigintPclose hp => exact .inl rfl
    | shell hshell => exact hint
    | handlerShell hshell => exact hint

/-- The motor is off at the end of every run in which SIGINT finds a quiet shell, and
wherever SIGINT finds another one it may be left on. -/
theorem motor_off_iff (evaluations : List PwmCall) (duty : ℤ) :
    (∀ schedule s, Meets step QuietSigint (started evaluations duty) schedule →
      run step (started evaluations duty) schedule = some s → s.Off) ∧
    (∀ schedule s t, run step (started evaluations duty) schedule = some s →
      step s .sigint = some t →
      ((∀ later u, run step t later = some u → u.Off) ↔ Quiet s.shell)) := by
  constructor
  · intro schedule s hmeets hrun
    exact (invariant_of_meets tame_step (tame_started evaluations duty) hmeets hrun).off
  · intro schedule s t hrun hs
    obtain ⟨rfl, hprogram⟩ := sigint_eq_some hs
    have hone : s.OneCall := by
      apply invariant oneCall_step _ hrun
      exact ⟨⟨.setPwmState true, List.nil_suffix⟩, fun _ => rfl⟩
    constructor
    · intro hoff
      -- the handler's shell first, then what the other one has left
      by_contra hq
      obtain ⟨call, hcall⟩ := hone.shell
      have hend := run_handler (s := { s with program := .handler }) rfl
      exact dutyAfter_ne_zero hcall hq 0 (hoff _ _ hend rfl rfl rfl)
    · intro hq later u hu
      have htame : ({ s with program := .handler } : Processes).Tame :=
        ⟨hone.handlerShell (.inl hprogram), hq⟩
      exact (invariant interrupted_step ⟨htame, .inl rfl⟩ hu).1.off

/-- SIGINT comes while the shell of `set_PWM_range_duty(200,50)` has its second command to
run, and the handler is done before that. -/
def lateShell : List Mover :=
  [.program, .shell, .shell, .shell, .program, .program, .shell,
    .sigint, .program, .handlerShell, .program, .shell]

theorem run_lateShell :
    run step (started [.setPwmRangeDuty 200 50] 0) lateShell = some ⟨.exited, [], [], 50⟩ := by
  decide +kernel

theorem motor_off_iff_quiet :
    Off ⟨.exited, [], [], 0⟩ ∧
    ¬ ∀ later u, run step ⟨.handler, [.pwm 50], [], 0⟩ later = some u → u.Off := by
  obtain ⟨hruns, hsigint⟩ := motor_off_iff [.setPwmRangeDuty 200 50] 0
  constructor
  · refine hruns
      [.program, .shell, .shell, .shell, .program, .program, .shell, .shell,
        .sigint, .program, .handlerShell, .program] _ ?_ (by decide +kernel)
    simp [Meets, QuietSigint, Quiet, step, stepProgram, stepSigint, started, mainCalls,
      PwmCall.script]
  · intro hoff
    have hquiet : Quiet [.pwm 50] := (hsigint
      [.program, .shell, .shell, .shell, .program, .program, .shell]
      ⟨.pclose [.setPwmState false], [.pwm 50], [], 0⟩ _ (by decide +kernel) rfl).mp hoff
    exact absurd (hquiet 50 (by simp)) (by decide)

theorem motor_left_on : ¬ ∀ evaluations duty schedule s,
    run step (started evaluations duty) schedule = some s → s.Off := by
  intro h
  have hoff := h [.setPwmRangeDuty 200 50] 0 lateShell _ run_lateShell rfl rfl rfl
  cases hoff

end Processes

end CmaesSolenoid

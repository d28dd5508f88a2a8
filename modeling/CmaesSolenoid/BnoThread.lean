import Mathlib.Tactic.Linarith
import Mathlib.Tactic.Ring
import CmaesSolenoid.Interleaving
import CmaesSolenoid.LinearAcceleration

/-!
# `bno_thread`: the sampling thread

The main thread constructs a `bno_thread`, calls it and destroys it, while the reader
thread polls the sensor. One step is one access to `is_running` or one section under
the mutex. The calls in between change nothing: what they return is read off the
state they are made in.
-/

namespace CmaesSolenoid
open Interleaving PartialState

inductive Thread
  | main
  | reader
  deriving DecidableEq, Repr

inductive MainPc
  | spawn
  | sleep
  | stop
  | join
  | joined
  deriving DecidableEq, Repr

inductive ReaderPc
  | notSpawned
  | start
  | test
  | poll
  | exited
  deriving DecidableEq, Repr

structure BnoThread where
  mDev : Port
  isOpen : Bool
  m : Xyz
  isRunning : Bool
  main : MainPc
  reader : ReaderPc

namespace BnoThread

def constructed (dev : Port) : BnoThread where
  mDev := dev
  isOpen := true
  m := ⟨0, 0, 0⟩
  isRunning := false
  main := .spawn
  reader := .notSpawned

def stepMain (s : BnoThread) : Option BnoThread :=
  match s.main with
  | .spawn => some { s with main := .sleep, reader := .start }
  -- `usleep(1000)`: nothing makes it wait for the reader
  | .sleep => some { s with main := .stop }
  | .stop => some { s with main := .join, isRunning := false }
  | .join => if s.reader = .exited then some { s with main := .joined } else none
  | .joined => none

/-- `reader_thread`; a poll that never returns is a step that cannot be taken. -/
def stepReader (s : BnoThread) : Option BnoThread :=
  match s.reader with
  | .notSpawned => none
  | .start => some { s with reader := .test, isRunning := true }
  | .test => some { s with reader := if s.isRunning then .poll else .exited }
  -- the result is ignored, the members are its out-parameters
  | .poll => (Bno055Uart.getLinearAcceleration s.m s.mDev).map fun ((_, m), dev) =>
      { s with reader := .test, m := m, mDev := dev }
  | .exited => none

def step (s : BnoThread) : Thread → Option BnoThread
  | .main => s.stepMain
  | .reader => s.stepReader

def getLinaccSqMagnitude (s : BnoThread) : ℚ :=
  if !s.isOpen then -1 else s.m.x * s.m.x + s.m.y * s.m.y + s.m.z * s.m.z

def getLinearAcceleration (s : BnoThread) : Xyz :=
  if !s.isOpen then ⟨-1, -1, -1⟩ else s.m

end BnoThread

def Answer.registers : Option Answer → Option Xyz
  | some (.data ds) => if ds.length < 6 then none else some (Bno055Uart.decodeBlock ds)
  | some (.status _) => none
  | none => none

def Exchange.registers (e : Exchange) : Option Xyz :=
  if e.written = .failed then none
  else Answer.registers ((parseReply 252 e.reply).map Prod.fst)

/-- The register values of the most recent successful poll. -/
def latest (polls : List Exchange) : Option Xyz := (polls.filterMap Exchange.registers).getLast?

def published (polls : List Exchange) : Xyz :=
  match latest polls with
  | some v => v.div 100
  | none => ⟨0, 0, 0⟩

/-- No poll failed after one that had brought something other than zeros. -/
def Undisturbed (polls : List Exchange) : Prop :=
  latest polls = none ∨ latest polls = some ⟨0, 0, 0⟩ ∨
    ∃ e v, polls.getLast? = some e ∧ e.registers = some v

/-- The failed polls after the most recent successful one. -/
def failures (polls : List Exchange) : ℕ :=
  (polls.reverse.takeWhile fun e => e.registers.isNone).length

/-- What the members hold after these polls: every failed one divides them once more. -/
def held (polls : List Exchange) : Xyz :=
  match latest polls with
  | some v => v.div (100 ^ (failures polls + 1))
  | none => ⟨0, 0, 0⟩

def Xyz.sqMagnitude (v : Xyz) : ℚ := v.x * v.x + v.y * v.y + v.z * v.z

theorem Xyz.div_twice (v : Xyz) (a b : ℚ) : (v.div a).div b = v.div (a * b) := by
  simp only [div, div_div]

theorem Xyz.div_of_zero (a : ℚ) : (⟨0, 0, 0⟩ : Xyz).div a = ⟨0, 0, 0⟩ := by
  simp only [div, zero_div]

theorem Xyz.div_eq_self_iff {v : Xyz} : v.div 100 = v ↔ v = ⟨0, 0, 0⟩ := by
  have h (q : ℚ) : q / 100 = q ↔ q = 0 := by
    constructor
    · intro hq
      linarith
    · rintro rfl
      exact zero_div _
  obtain ⟨x, y, z⟩ := v
  simp only [div, mk.injEq, h]

theorem Xyz.sqMagnitude_div (v : Xyz) (a : ℚ) : (v.div a).sqMagnitude = v.sqMagnitude / a ^ 2 := by
  simp only [sqMagnitude, div]
  ring

theorem Xyz.eq_zero_of_sqMagnitude {v : Xyz} (h : v.sqMagnitude = 0) : v = ⟨0, 0, 0⟩ := by
  obtain ⟨x, y, z⟩ := v
  have hx := mul_self_nonneg x
  have hy := mul_self_nonneg y
  have hz := mul_self_nonneg z
  rw [sqMagnitude] at h
  dsimp only at h
  rw [mul_self_eq_zero.mp (by linarith : x * x = 0), mul_self_eq_zero.mp (by linarith : y * y = 0),
    mul_self_eq_zero.mp (by linarith : z * z = 0)]

theorem Exchange.Ended.registers_eq {e : Exchange} {o : Option Answer} (h : e.Ended o) :
    e.registers = Answer.registers o := by
  cases h with
  | failed frame => rfl
  | answered hw ha =>
    have hparse := parseReply_of_spells ha []
    rw [List.append_nil] at hparse
    rw [Exchange.registers, if_neg hw, hparse]
    rfl

theorem latest_success {e : Exchange} {v : Xyz} (h : e.registers = some v)
    (polls : List Exchange) : latest (polls ++ [e]) = some v := by
  simp [latest, h]

theorem latest_failure {e : Exchange} (h : e.registers = none) (polls : List Exchange) :
    latest (polls ++ [e]) = latest polls := by
  simp [latest, h]

theorem failures_success {e : Exchange} {v : Xyz} (h : e.registers = some v)
    (polls : List Exchange) : failures (polls ++ [e]) = 0 := by
  simp [failures, h]

theorem failures_failure {e : Exchange} (h : e.registers = none) (polls : List Exchange) :
    failures (polls ++ [e]) = failures polls + 1 := by
  simp [failures, h]

theorem held_success {e : Exchange} {v : Xyz} (h : e.registers = some v)
    (polls : List Exchange) : held (polls ++ [e]) = v.div 100 := by
  simp only [held, latest_success h, failures_success h, zero_add, pow_one]

theorem held_failure {e : Exchange} (h : e.registers = none) (polls : List Exchange) :
    held (polls ++ [e]) = (held polls).div 100 := by
  simp only [held, latest_failure h, failures_failure h]
  cases latest polls with
  | none => rw [Xyz.div_of_zero]
  | some v => rw [Xyz.div_twice, ← pow_succ]

theorem xyzOutcome_snd (out : Xyz) (o : Option Answer) :
    (Bno055Uart.xyzOutcome out o).2 = (Answer.registers o).getD out := by
  match o with
  | none => rfl
  | some (.status r) => rfl
  | some (.data ds) =>
    rw [Bno055Uart.xyzOutcome, Answer.registers]
    split_ifs <;> rfl

/-- One poll: what a success brings is divided once, what was there is divided again. -/
theorem getLinearAcceleration_held {p p' : Port} (hi : p.isOpen = true) (ho : p.uartOpen = true)
    {polls : List Exchange} {res : ℤ × Xyz}
    (h : Bno055Uart.getLinearAcceleration (held polls) p = some (res, p')) :
    ∃ e, p.Exchanged [e] p' ∧ res.2 = held (polls ++ [e]) := by
  obtain ⟨e, o, -, hended, hex, rfl⟩ := (Bno055Uart.getLinearAcceleration_iff hi ho).mp h
  refine ⟨e, hex, ?_⟩
  rw [xyzOutcome_snd, ← hended.registers_eq]
  cases hv : e.registers with
  | some v => exact (held_success hv polls).symm
  | none => exact (held_failure hv polls).symm

theorem held_eq_published {polls : List Exchange} (h : Undisturbed polls) :
    held polls = published polls := by
  rcases h with h | h | ⟨e, v, hlast, hv⟩
  · simp only [held, published, h]
  · simp only [held, published, h, Xyz.div_of_zero]
  · obtain ⟨before, rfl⟩ := List.getLast?_eq_some_iff.mp hlast
    simp only [held_success hv, published, latest_success hv]

theorem undisturbed_of_sqMagnitude {polls : List Exchange}
    (h : (held polls).sqMagnitude = (published polls).sqMagnitude) : Undisturbed polls := by
  cases hl : latest polls with
  | none => exact .inl hl
  | some v =>
    by_cases hv : v = ⟨0, 0, 0⟩
    · exact .inr (.inl (hl.trans (congrArg some hv)))
    -- the two samples are multiples of one that is not zero, so the factors are equal
    have hf : failures polls = 0 := by
      simp only [held, published, hl, Xyz.sqMagnitude_div, div_eq_mul_inv] at h
      have hq : v.sqMagnitude ≠ 0 := mt Xyz.eq_zero_of_sqMagnitude hv
      have hp := inv_injective (mul_left_cancel₀ hq h)
      rw [← pow_mul, pow_right_inj₀ (by norm_num) (by norm_num)] at hp
      omega
    rcases List.eq_nil_or_concat polls with rfl | ⟨before, e, rfl⟩
    · cases hl
    cases he : e.registers with
    | some w => exact .inr (.inr ⟨e, w, by simp, he⟩)
    | none =>
      rw [List.concat_eq_append, failures_failure he] at hf
      omega

theorem held_iff (polls : List Exchange) : held polls = published polls ↔ Undisturbed polls :=
  ⟨fun h => undisturbed_of_sqMagnitude (congrArg Xyz.sqMagnitude h), held_eq_published⟩

theorem held_sqMagnitude_iff (polls : List Exchange) :
    (held polls).sqMagnitude = (published polls).sqMagnitude ↔ Undisturbed polls :=
  ⟨undisturbed_of_sqMagnitude, fun h => congrArg Xyz.sqMagnitude (held_eq_published h)⟩

namespace BnoThread

inductive Step (s : BnoThread) : Thread → BnoThread → Prop
  | spawn (hs : s.main = .spawn) : Step s .main { s with main := .sleep, reader := .start }
  | sleep (hs : s.main = .sleep) : Step s .main { s with main := .stop }
  | stop (hs : s.main = .stop) : Step s .main { s with main := .join, isRunning := false }
  | join (hs : s.main = .join) (hr : s.reader = .exited) : Step s .main { s with main := .joined }
  | start (hs : s.reader = .start) : Step s .reader { s with reader := .test, isRunning := true }
  | again (hs : s.reader = .test) (hr : s.isRunning = true) :
      Step s .reader { s with reader := .poll }
  | exit (hs : s.reader = .test) (hr : s.isRunning = false) :
      Step s .reader { s with reader := .exited }
  | poll (hs : s.reader = .poll) {n : ℤ} {m : Xyz} {dev : Port}
      (hp : Bno055Uart.getLinearAcceleration s.m s.mDev = some ((n, m), dev)) :
      Step s .reader { s with reader := .test, m := m, mDev := dev }

theorem step_eq_some {s t : BnoThread} {a : Thread} (h : step s a = some t) : Step s a t := by
  cases a with
  | main =>
    rw [step, stepMain] at h
    cases hm : s.main <;> rw [hm] at h <;> dsimp only at h
    case joined => cases h
    case join =>
      split_ifs at h with hr
      cases h
      exact .join hm hr
    all_goals cases h
    · exact .spawn hm
    · exact .sleep hm
    · exact .stop hm
  | reader =>
    rw [step, stepReader] at h
    cases hr : s.reader <;> rw [hr] at h <;> dsimp only at h
    case poll =>
      obtain ⟨⟨⟨n, m⟩, dev⟩, hp, rfl⟩ := Option.map_eq_some_iff.mp h
      exact .poll hr hp
    all_goals cases h
    · exact .start hr
    · split_ifs with hrun
      · exact .again hr hrun
      · exact .exit hr (by simpa using hrun)

/-- The sensor stays open, and the members hold what its polls have left in them. -/
structure Polled (exchanges : List Exchange) (s : BnoThread) : Prop where
  isOpen : s.isOpen = true
  devOpen : s.mDev.isOpen = true
  uartOpen : s.mDev.uartOpen = true
  held : ∃ polls, s.mDev.exchanges = exchanges ++ polls ∧ s.m = held polls

theorem polled_step {exchanges : List Exchange} (s : BnoThread) (a : Thread) (t : BnoThread)
    (h : s.Polled exchanges) (hs : step s a = some t) : t.Polled exchanges := by
  cases step_eq_some hs with
  | poll hr hp =>
    obtain ⟨polls, hex, hm⟩ := h.held
    rw [hm] at hp
    obtain ⟨e, hexe, hres⟩ := getLinearAcceleration_held h.devOpen h.uartOpen hp
    refine ⟨h.isOpen, hexe.isOpen.trans h.devOpen, hexe.uartOpen.trans h.uartOpen,
      polls ++ [e], ?_, hres⟩
    exact hexe.exchanges.trans (by rw [hex, List.append_assoc])
  | _ => exact ⟨h.isOpen, h.devOpen, h.uartOpen, h.held⟩

theorem polled_run {dev : Port} (hi : dev.isOpen = true) (ho : dev.uartOpen = true)
    {schedule : List Thread} {s : BnoThread} (h : run step (constructed dev) schedule = some s) :
    s.Polled dev.exchanges :=
  invariant polled_step ⟨rfl, hi, ho, [], by simp [constructed], rfl⟩ h

/-- In every run a call returns what the most recent successful poll brought exactly when no
later poll has failed, if that was not all zeros: a failure divides the variables again. -/
theorem published_iff (dev : Port) (hi : dev.isOpen = true) (ho : dev.uartOpen = true) :
    (∀ schedule s, run step (constructed dev) schedule = some s →
      ∃ polls, s.mDev.exchanges = dev.exchanges ++ polls ∧
        (s.getLinearAcceleration = published polls ↔ Undisturbed polls) ∧
        (s.getLinaccSqMagnitude = (published polls).sqMagnitude ↔ Undisturbed polls)) ∧
    (∀ (p p' : Port) (out out' : Xyz) (n : ℤ), n < 0 →
      Bno055Uart.getLinearAcceleration out p = some ((n, out'), p') →
      (out' = out ↔ p.isOpen = false ∨ out = ⟨0, 0, 0⟩)) := by
  constructor
  · intro schedule s h
    obtain ⟨hopen, -, -, polls, hex, hm⟩ := polled_run hi ho h
    refine ⟨polls, hex, ?_, ?_⟩
    · simp only [getLinearAcceleration, hopen, Bool.not_true, Bool.false_eq_true, ↓reduceIte, hm]
      exact held_iff polls
    · simp only [getLinaccSqMagnitude, hopen, Bool.not_true, Bool.false_eq_true, ↓reduceIte, hm]
      exact held_sqMagnitude_iff polls
  · intro p p' out out' n hn h
    cases hp : p.isOpen with
    | false =>
      rw [Bno055Uart.getLinearAcceleration_closed hp] at h
      simp only [Option.some.injEq, Prod.mk.injEq] at h
      simp [h.1.2]
    | true =>
      rw [Bno055Uart.getLinearAcceleration_neg hp h hn, Xyz.div_eq_self_iff]
      simp

/-- A sample of (100, 200, 300) and then an error reply. -/
def stalePort : Port := Port.opened
  [.byte 0xbb, .byte 6, .byte 100, .byte 0, .byte 200, .byte 0, .byte 0x2c, .byte 1,
    .byte 0xee, .byte 7]
  [.accepted 4, .accepted 4]

def twoPolls : List Thread := [.main, .reader, .reader, .reader, .reader, .reader]

theorem run_stalePort : ∃ s, run step (constructed stalePort) twoPolls = some s ∧
    published s.mDev.exchanges = ⟨1, 2, 3⟩ ∧
    s.getLinearAcceleration = ⟨1 / 100, 2 / 100, 3 / 100⟩ := by
  have h : (run step (constructed stalePort) twoPolls).map
      (fun s => (published s.mDev.exchanges, s.getLinearAcceleration)) =
      some (⟨1, 2, 3⟩, ⟨1 / 100, 2 / 100, 3 / 100⟩) := by
    decide +kernel
  obtain ⟨s, hrun, hs⟩ := Option.map_eq_some_iff.mp h
  exact ⟨s, hrun, Prod.mk.inj hs⟩

/-- The run of these two polls, and a call that the error reply makes fail. -/
theorem published_iff_twoPolls :
    (∃ s polls, run step (constructed stalePort) twoPolls = some s ∧
      s.mDev.exchanges = stalePort.exchanges ++ polls ∧
      (s.getLinearAcceleration = published polls ↔ Undisturbed polls) ∧
      (s.getLinaccSqMagnitude = (published polls).sqMagnitude ↔ Undisturbed polls)) ∧
    ∃ out' p', Bno055Uart.getLinearAcceleration ⟨1, 2, 3⟩
        (Port.opened [.byte 0xee, .byte 7] [.accepted 4]) = some ((-1, out'), p') ∧
      out' ≠ ⟨1, 2, 3⟩ := by
  constructor
  · obtain ⟨s, hrun, -⟩ := run_stalePort
    obtain ⟨polls, hex, hiff⟩ := (published_iff stalePort rfl rfl).1 twoPolls s hrun
    exact ⟨s, polls, hrun, hex, hiff⟩
  · have hfst : (Bno055Uart.getLinearAcceleration ⟨1, 2, 3⟩
        (Port.opened [.byte 0xee, .byte 7] [.accepted 4])).map (fun out => out.1.1) =
      some (-1) := by
      decide +kernel
    obtain ⟨⟨⟨n, out'⟩, p'⟩, hcall, rfl⟩ := Option.map_eq_some_iff.mp hfst
    refine ⟨out', p', hcall, fun hsame => ?_⟩
    rcases ((published_iff stalePort rfl rfl).2 _ _ _ _ _ (by decide) hcall).mp hsame with h | h
    · cases h
    · exact absurd h (by decide +kernel)

theorem published_stale : ¬ ∀ (dev : Port), dev.isOpen = true → dev.uartOpen = true →
    ∀ schedule s polls, run step (constructed dev) schedule = some s →
      s.mDev.exchanges = dev.exchanges ++ polls → s.getLinearAcceleration = published polls := by
  intro h
  obtain ⟨s, hrun, hpub, hobs⟩ := run_stalePort
  have heq := h stalePort rfl rfl twoPolls s s.mDev.exchanges hrun rfl
  rw [hpub, hobs] at heq
  exact absurd heq (by decide +kernel)

end BnoThread

end CmaesSolenoid

import Mathlib.Algebra.Order.Ring.Int
import Mathlib.Data.List.Basic

/-!
# `rpi_uart`: the descriptor

The life of an `rpi_uart`: it is constructed, `open` is called any number of times, and
the destructor closes `fd`.
-/

namespace CmaesSolenoid

def baud115200 : ℤ := 0o10002

/-- The members that `open` and the destructor use. `opened` only records the descriptors
that `::open` has returned. -/
structure RpiUart where
  fd : ℤ
  mDevBaud : ℤ
  isOpen : Bool
  opened : List ℤ
  deriving DecidableEq, Repr

inductive Construction
  | noDevice
  | device (baud : ℤ)
  deriving DecidableEq, Repr

/-- The results of `::open` and `tcflush` in one call of `open`; a negative descriptor is a
failure. -/
structure OpenCall where
  fd : ℤ
  tcflush : ℤ
  deriving DecidableEq, Repr

namespace RpiUart

/-- `fd` is not initialised: it holds whatever was there. -/
def construct (garbage : ℤ) : Construction → RpiUart
  | .noDevice => ⟨garbage, 0, false, []⟩
  | .device baud => ⟨garbage, if baud = 115200 then baud115200 else 0, false, []⟩

def openDevice (u : RpiUart) (c : OpenCall) : ℤ × RpiUart :=
  if u.mDevBaud = 0 then (-1, u)
  else
    let u := { u with
      fd := c.fd
      opened := if 0 ≤ c.fd then u.opened ++ [c.fd] else u.opened }
    -- 0 is a descriptor, but taken for a failure
    if u.fd ≤ 0 then (-1, u)
    else if c.tcflush ≠ 0 then (-1, u)
    else (0, { u with isOpen := true })

def destroy (u : RpiUart) : List ℤ := [u.fd]

def opens (u : RpiUart) (calls : List OpenCall) : RpiUart :=
  calls.foldl (fun u c => (u.openDevice c).2) u

end RpiUart

/-- Nothing is closed that was not opened, nothing twice, and everything that was opened. -/
structure Owns (opened closed : List ℤ) : Prop where
  ours : ∀ fd ∈ closed, fd ∈ opened
  once : ∀ fd ∈ closed, closed.count fd = 1
  all : ∀ fd ∈ opened, fd ∈ closed

namespace RpiUart

theorem openDevice_unset {u : RpiUart} (h : u.mDevBaud = 0) (c : OpenCall) :
    (u.openDevice c).2 = u := by
  unfold openDevice
  rw [if_pos h]

theorem openDevice_set {u : RpiUart} (h : u.mDevBaud ≠ 0) (c : OpenCall) :
    (u.openDevice c).2.fd = c.fd ∧ (u.openDevice c).2.mDevBaud = u.mDevBaud ∧
      (u.openDevice c).2.opened = u.opened ++ [c.fd].filter (0 ≤ ·) := by
  have hopened : (if 0 ≤ c.fd then u.opened ++ [c.fd] else u.opened) =
      u.opened ++ [c.fd].filter (0 ≤ ·) := by
    by_cases hfd : 0 ≤ c.fd
    · simp [hfd]
    · simp [hfd]
  unfold openDevice
  rw [← hopened, if_neg h]
  dsimp only
  split_ifs <;> exact ⟨rfl, rfl, rfl⟩

theorem opens_unset {u : RpiUart} (h : u.mDevBaud = 0) (calls : List OpenCall) :
    u.opens calls = u := by
  induction calls with
  | nil => rfl
  | cons c calls ih =>
    unfold opens at ih ⊢
    rw [List.foldl_cons, openDevice_unset h, ih]

/-- `fd` is what the last `::open` returned, and nothing is closed on the way. -/
theorem opens_set {u : RpiUart} (h : u.mDevBaud ≠ 0) (calls : List OpenCall) :
    (u.opens calls).fd = (calls.getLast?.map OpenCall.fd).getD u.fd ∧
      (u.opens calls).opened = u.opened ++ (calls.map OpenCall.fd).filter (0 ≤ ·) := by
  induction calls generalizing u with
  | nil => simp [opens]
  | cons c calls ih =>
    obtain ⟨hfd, hbaud, hopened⟩ := openDevice_set h c
    obtain ⟨ihfd, ihopened⟩ := ih (u := (u.openDevice c).2) (by rwa [hbaud])
    unfold opens at ihfd ihopened ⊢
    rw [List.foldl_cons, ihfd, ihopened, hfd, hopened]
    constructor
    · cases calls with
      | nil => rfl
      | cons c' calls => rw [List.getLast?_cons_cons, List.getLast?_eq_some_getLast (by simp)]; rfl
    · rw [List.append_assoc, ← List.filter_append]
      rfl

theorem owns_singleton_iff {opened : List ℤ} {fd : ℤ} :
    Owns opened [fd] ↔ fd ∈ opened ∧ ∀ fd' ∈ opened, fd' = fd := by
  constructor
  · intro h
    exact ⟨h.ours fd List.mem_cons_self, fun fd' hfd' => List.mem_singleton.mp (h.all fd' hfd')⟩
  · rintro ⟨hmem, hall⟩
    constructor
    · intro fd' hfd'
      rwa [List.mem_singleton.mp hfd']
    · intro fd' hfd'
      rw [List.mem_singleton.mp hfd', List.count_singleton_self]
    · intro fd' hfd'
      exact List.mem_singleton.mpr (hall fd' hfd')

theorem owns_opens_unset {u : RpiUart} (h : u.mDevBaud = 0) (hnone : u.opened = [])
    (calls : List OpenCall) : ¬ Owns (u.opens calls).opened (u.opens calls).destroy := by
  unfold destroy
  rw [owns_singleton_iff, opens_unset h, hnone]
  exact fun hown => List.not_mem_nil hown.1

theorem owns_opens_set {u : RpiUart} (h : u.mDevBaud ≠ 0) (hnone : u.opened = [])
    (calls : List OpenCall) :
    Owns (u.opens calls).opened (u.opens calls).destroy ↔
      ∃ last, calls.getLast? = some last ∧ 0 ≤ last.fd ∧
        ∀ call ∈ calls, 0 ≤ call.fd → call.fd = last.fd := by
  obtain ⟨hfd, hopened⟩ := opens_set h calls
  unfold destroy
  rw [owns_singleton_iff, hfd, hopened, hnone, List.nil_append]
  cases hlast : calls.getLast? with
  | none =>
    obtain rfl := List.getLast?_eq_none_iff.mp hlast
    simp
  | some last =>
    have hmem := List.mem_of_getLast? hlast
    simp only [Option.map_some, Option.getD_some, Option.some.injEq, exists_eq_left',
      List.mem_filter, List.mem_map, decide_eq_true_eq]
    constructor
    · rintro ⟨⟨-, hpos⟩, hall⟩
      exact ⟨hpos, fun call hcall hfd => hall call.fd ⟨⟨call, hcall, rfl⟩, hfd⟩⟩
    · rintro ⟨hpos, hall⟩
      refine ⟨⟨⟨last, hmem, rfl⟩, hpos⟩, ?_⟩
      rintro fd ⟨⟨call, hcall, rfl⟩, hfd⟩
      exact hall call hcall hfd

/-- The object owns its descriptor exactly when it was constructed for a device with the right
baud, the last `::open` succeeded, and no other one returned another descriptor. -/
theorem owns_iff (garbage : ℤ) (c : Construction) (calls : List OpenCall) :
    Owns ((construct garbage c).opens calls).opened ((construct garbage c).opens calls).destroy ↔
      c = .device 115200 ∧ ∃ last, calls.getLast? = some last ∧ 0 ≤ last.fd ∧
        ∀ call ∈ calls, 0 ≤ call.fd → call.fd = last.fd := by
  cases c with
  | noDevice =>
    have hnot := owns_opens_unset (u := construct garbage .noDevice) rfl rfl calls
    exact iff_of_false hnot fun h => by cases h.1
  | device baud =>
    by_cases hb : baud = 115200
    · subst hb
      have hset : (construct garbage (.device 115200)).mDevBaud ≠ 0 := by
        change (if (115200 : ℤ) = 115200 then baud115200 else 0) ≠ 0
        decide
      rw [owns_opens_set hset rfl]
      exact ⟨fun h => ⟨rfl, h⟩, fun h => h.2⟩
    · have hnot := owns_opens_unset (u := construct garbage (.device baud)) (if_neg hb) rfl calls
      exact iff_of_false hnot fun h => hb (Construction.device.inj h.1)

/-- A wrong baud: the destructor closes whatever number the member happens to hold. -/
theorem destroy_foreign : ¬ ∀ garbage c calls,
    Owns ((construct garbage c).opens calls).opened
      ((construct garbage c).opens calls).destroy := by
  intro h
  have hours := (h 3 (.device 9600) []).ours 3 List.mem_cons_self
  cases hours

end RpiUart

end CmaesSolenoid

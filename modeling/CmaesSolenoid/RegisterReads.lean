import CmaesSolenoid.LinearAcceleration

/-!
# Register reads that report success

`receive_buf` returns 0 for an acknowledgement and for an empty data reply alike, and the
bytes of the command are still in the buffer that it was given.
-/

namespace CmaesSolenoid
open GappedInput PartialState RpiUart Bno055Uart

def Port.Consumed (p p' : Port) (bytes : List UInt8) : Prop :=
  ∃ used, p.reads = used ++ p'.reads ∧ used.filterMap ReadResult.byte? = bytes

/-- The next exchange of an open port will be answered, with these bytes. -/
def Port.Answers (p : Port) (bytes : List UInt8) (a : Answer) : Prop :=
  (p.isOpen = true ∧ p.uartOpen = true) ∧ ∃ w ws used rest, p.writes = w :: ws ∧ w ≠ .failed ∧
    p.reads = used ++ rest ∧ a.Spells 252 used ∧ used.filterMap ReadResult.byte? = bytes

/-- A `read_register` that returns 0 has taken a data reply of one byte, and returns this byte. -/
def ReadsRegister (p : Port) (reg : ℤ) (value : UInt8) : Prop :=
  ∀ v p', readRegister reg value p = some ((0, v), p') → p.Consumed p' [0xbb, 0x01, v]

/-- A `get_xyz_at_register_block` that returns 0 has taken a data reply of six bytes, and
returns what they say. -/
def ReadsBlock (p : Port) (reg : ℤ) (out : Xyz) : Prop :=
  ∀ v p', getXyzAtRegisterBlock reg out p = some ((0, v), p') →
    ∃ ds, ds.length = 6 ∧ p.Consumed p' (0xbb :: 0x06 :: ds) ∧ v = decodeBlock ds

namespace Port

variable {p p' : Port} {bytes : List UInt8} {a : Answer}

theorem Consumed.unique {bytes' : List UInt8} (h : p.Consumed p' bytes)
    (h' : p.Consumed p' bytes') : bytes = bytes' := by
  obtain ⟨used, hreads, rfl⟩ := h
  obtain ⟨used', hreads', rfl⟩ := h'
  rw [List.append_cancel_right (hreads.symm.trans hreads')]

theorem answers_of_exchanged (hi : p.isOpen = true) (ho : p.uartOpen = true) {e : Exchange}
    (he : e.Ended (some a)) (hex : p.Exchanged [e] p') :
    ∃ bytes, p.Answers bytes a ∧ p.Consumed p' bytes := by
  have hreads : p.reads = e.reply ++ p'.reads := by simpa using hex.reads
  have hwrites : p.writes = e.written :: p'.writes := by simpa using hex.writes
  cases he with
  | @answered frame w used a hw ha =>
    exact ⟨_, ⟨⟨hi, ho⟩, w, p'.writes, used, p'.reads, hwrites, hw, hreads, ha, rfl⟩,
      used, hreads, rfl⟩

theorem Answers.exchanged (h : p.Answers bytes a) (frame : List UInt8) :
    ∃ e p', e.frame = frame ∧ e.Ended (some a) ∧ p.Exchanged [e] p' ∧ p.Consumed p' bytes := by
  obtain ⟨-, w, ws, used, rest, hwrites, hw, hreads, ha, hbytes⟩ := h
  refine ⟨⟨frame, w, used⟩, { p with
    reads := rest
    writes := ws
    exchanges := p.exchanges ++ [⟨frame, w, used⟩] },
    rfl, .answered hw ha, ?_, used, hreads, hbytes⟩
  exact ⟨by simpa using hreads, hwrites, rfl, rfl, rfl, rfl⟩

theorem Answers.data_bytes {ds : List UInt8} (h : p.Answers bytes (.data ds)) :
    ∃ header len, bytes = header :: len :: ds ∧ ds.length = min len.toNat 252 := by
  obtain ⟨-, w, ws, used, rest, -, -, -, ha, rfl⟩ := h
  obtain ⟨header, len, -, hlen, hbytes⟩ := ha.data_bytes
  exact ⟨header, len, hbytes, hlen⟩

theorem Answers.status_bytes {r : ReadResult} (h : p.Answers bytes (.status r)) :
    bytes.head? ≠ some 0xbb := by
  obtain ⟨-, w, ws, used, rest, -, -, -, ha, rfl⟩ := h
  obtain ⟨header, -, hbb, hbytes⟩ := ha.status_bytes
  rw [hbytes]
  simpa using hbb

end Port

namespace Bno055Uart

variable {p p' : Port}

theorem readRegisterBuf_unopened (ho : p.uartOpen = false) (buf : Buf) (reg num : ℤ) :
    ∃ buf', readRegisterBuf buf reg num p = some ((-1, buf'), p) := by
  cases hi : p.isOpen with
  | false => exact ⟨buf, by rw [readRegisterBuf, guard_closed hi]⟩
  | true =>
    refine ⟨buf.fill 0 (readFrame reg num), ?_⟩
    rw [readRegisterBuf_apply hi, transact_unopened ho]

theorem readRegister_unopened (h : ¬ (p.isOpen = true ∧ p.uartOpen = true)) (reg : ℤ)
    (value : UInt8) : readRegister reg value p = some ((-1, value), p) := by
  cases hi : p.isOpen with
  | false => rw [readRegister, guard_closed hi]
  | true =>
    have ho : p.uartOpen = false := by simpa [hi] using h
    obtain ⟨buf', hbuf⟩ := readRegisterBuf_unopened ho p.stack reg 1
    rw [readRegister, guard_isOpen hi, bind_get, bind_of_eq hbuf]
    rfl

theorem getXyzAtRegisterBlock_unopened (h : ¬ (p.isOpen = true ∧ p.uartOpen = true)) (reg : ℤ)
    (out : Xyz) : getXyzAtRegisterBlock reg out p = some ((-1, out), p) := by
  cases hi : p.isOpen with
  | false => rw [getXyzAtRegisterBlock, guard_closed hi]
  | true =>
    have ho : p.uartOpen = false := by simpa [hi] using h
    obtain ⟨buf', hbuf⟩ := readRegisterBuf_unopened ho p.stack reg 6
    rw [getXyzAtRegisterBlock, guard_isOpen hi, bind_get, bind_of_eq hbuf]
    rfl

theorem readsRegister_iff (p : Port) (reg : ℤ) (value : UInt8) :
    ReadsRegister p reg value ↔ ∀ bytes a, p.Answers bytes a →
      a ≠ .status (.byte 0x01) ∧ ∀ ds, a = .data ds → bytes.take 2 = [0xbb, 0x01] := by
  constructor
  · intro h bytes a hans
    have hreturns (hnonneg : 0 ≤ a.value) : bytes = [0xbb, 0x01, firstByte (some a)] := by
      obtain ⟨e, p', hf, he, hex, hcons⟩ := hans.exchanged (readFrame reg 1)
      have hrun := (readRegister_iff hans.1.1 hans.1.2).mpr
        ⟨e, some a, hf, he, hex, (readOutcome_of_nonneg value hnonneg).symm⟩
      exact hcons.unique (h _ _ hrun)
    constructor
    · rintro rfl
      have hbytes := hreturns (by decide)
      apply hans.status_bytes
      rw [hbytes]
      rfl
    · rintro ds rfl
      rw [hreturns (Int.natCast_nonneg _)]
      rfl
  · intro h v p' hrun
    by_cases hopen : p.isOpen = true ∧ p.uartOpen = true
    · obtain ⟨e, o, hf, he, hex, hout⟩ := (readRegister_iff hopen.1 hopen.2).mp hrun
      obtain ⟨a, rfl, hnonneg, rfl⟩ := readOutcome_zero hout.symm
      obtain ⟨bytes, hans, hcons⟩ := Port.answers_of_exchanged hopen.1 hopen.2 he hex
      obtain ⟨hack, hdata⟩ := h bytes a hans
      cases a with
      | status r =>
        have hneg := (Answer.value_neg_iff _).mpr ⟨r, rfl, fun hr => hack (by rw [hr])⟩
        omega
      | data ds =>
        obtain ⟨header, len, rfl, hlen⟩ := hans.data_bytes
        obtain ⟨rfl, rfl⟩ : header = 0xbb ∧ len = 0x01 := by simpa using hdata ds rfl
        obtain ⟨d, rfl⟩ := List.length_eq_one_iff.mp hlen
        exact hcons
    · rw [readRegister_unopened hopen] at hrun
      cases hrun

theorem xyzOutcome_zero {out v : Xyz} {o : Option Answer} (h : xyzOutcome out o = (0, v)) :
    ∃ ds, o = some (.data ds) ∧ 6 ≤ ds.length ∧ v = decodeBlock ds := by
  match o with
  | none => cases h
  | some (.status r) => cases h
  | some (.data ds) =>
    rw [xyzOutcome] at h
    by_cases h6 : ds.length < 6
    · rw [if_pos h6] at h
      cases h
    · rw [if_neg h6] at h
      exact ⟨ds, rfl, not_lt.mp h6, (Prod.mk.inj h).2.symm⟩

theorem readsBlock_iff (p : Port) (reg : ℤ) (out : Xyz) :
    ReadsBlock p reg out ↔ ∀ bytes ds, p.Answers bytes (.data ds) → 6 ≤ ds.length →
      bytes.take 2 = [0xbb, 0x06] := by
  constructor
  · intro h bytes ds hans h6
    have hout : xyzOutcome out (some (.data ds)) = (0, decodeBlock ds) := by
      rw [xyzOutcome, if_neg (not_lt.mpr h6)]
    obtain ⟨e, p', hf, he, hex, hcons⟩ := hans.exchanged (readFrame reg 6)
    have hrun := (getXyzAtRegisterBlock_iff hans.1.1 hans.1.2).mpr
      ⟨e, _, hf, he, hex, hout.symm⟩
    obtain ⟨ds', -, hcons', -⟩ := h _ _ hrun
    rw [hcons.unique hcons']
    rfl
  · intro h v p' hrun
    by_cases hopen : p.isOpen = true ∧ p.uartOpen = true
    · obtain ⟨e, o, hf, he, hex, hout⟩ := (getXyzAtRegisterBlock_iff hopen.1 hopen.2).mp hrun
      obtain ⟨ds, rfl, h6, rfl⟩ := xyzOutcome_zero hout.symm
      obtain ⟨bytes, hans, hcons⟩ := Port.answers_of_exchanged hopen.1 hopen.2 he hex
      obtain ⟨header, len, rfl, hlen⟩ := hans.data_bytes
      obtain ⟨rfl, rfl⟩ : header = 0xbb ∧ len = 0x06 := by simpa using h _ _ hans h6
      exact ⟨ds, hlen, hcons, rfl⟩
    · rw [getXyzAtRegisterBlock_unopened hopen] at hrun
      cases hrun

/-- Both reads, in terms of the reply that is next on the line. -/
theorem reads_genuine_iff (p : Port) (reg : ℤ) (value : UInt8) (out : Xyz) :
    (ReadsRegister p reg value ↔ ∀ bytes a, p.Answers bytes a →
      a ≠ .status (.byte 0x01) ∧ ∀ ds, a = .data ds → bytes.take 2 = [0xbb, 0x01]) ∧
    (ReadsBlock p reg out ↔ ∀ bytes ds, p.Answers bytes (.data ds) → 6 ≤ ds.length →
      bytes.take 2 = [0xbb, 0x06]) :=
  ⟨readsRegister_iff p reg value, readsBlock_iff p reg out⟩

/-- A late acknowledgement is on the line: the register reads as 0xAA. -/
theorem reads_acknowledgement :
    ¬ ∀ p reg value out, ReadsRegister p reg value ∧ ReadsBlock p reg out := by
  intro h
  let p := Port.opened [.byte 0xee, .byte 0x01] [.accepted 4]
  have hans : p.Answers [0xee, 0x01] (.status (.byte 0x01)) :=
    ⟨⟨rfl, rfl⟩, .accepted 4, [], [.byte 0xee, .byte 0x01], [], rfl, by decide, rfl,
      .status (g := []) (by simp) (by decide) (by decide), rfl⟩
  exact ((readsRegister_iff p 0 0).mp (h p 0 0 ⟨0, 0, 0⟩).1 _ _ hans).1 rfl

end Bno055Uart

end CmaesSolenoid

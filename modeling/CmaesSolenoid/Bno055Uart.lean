import CmaesSolenoid.ReplyParser

/-!
# `bno055_uart`: the sensor driver

Every register access is one exchange over the port: a command frame is written
and, unless `write` failed, one answer is taken off the line.
-/

namespace CmaesSolenoid
open PartialState RpiUart

namespace Bno055

def regChipId : ℤ := 0x00
def regChipIdVal : UInt8 := 0xA0
def regAccId : ℤ := 0x01
def regAccIdVal : UInt8 := 0xFB
def regMagId : ℤ := 0x02
def regMagIdVal : UInt8 := 0x32
def regGyrId : ℤ := 0x03
def regGyrIdVal : UInt8 := 0x0F
def pageId : ℤ := 0x07
def page0 : ℤ := 0x0
def linaccXLsb : ℤ := 0x28
def oprMode : ℤ := 0x3D
def operationModeConfig : ℤ := 0x00
def operationModeNdof : ℤ := 0x0C
def pwrMode : ℤ := 0x3E
def powerModeNormal : ℤ := 0x00
def sysTrigger : ℤ := 0x3F
def sysTrigRst : ℤ := 0x20

end Bno055

namespace Bno055Uart
open Bno055

/-- What `read_register_buf` and `write_register` share: the frame is put into the
buffer that will receive the reply, written, and answered. -/
def transact (buf : Buf) (frame : List UInt8) : Run (ℤ × Buf) := do
  let buf := buf.fill 0 frame
  let n ← writeBuf frame
  if n < 0 then
    flushDataBuffers
    return (-1, buf)
  receiveBuf buf 255

def readFrame (registerNumber numToRead : ℤ) : List UInt8 :=
  [0xaa, 1, UInt8.ofInt registerNumber, UInt8.ofInt numToRead]

def writeFrame (registerNumber value : ℤ) : List UInt8 :=
  [0xaa, 0, UInt8.ofInt registerNumber, 1, UInt8.ofInt value]

def readRegisterBuf (buf : Buf) (registerNumber numToRead : ℤ) : Run (ℤ × Buf) := do
  if !(← get).isOpen then return (-1, buf)
  transact buf (readFrame registerNumber numToRead)

def readRegister (registerNumber : ℤ) (value : UInt8) : Run (ℤ × UInt8) := do
  if !(← get).isOpen then return (-1, value)
  let (n, buf) ← readRegisterBuf (← get).stack registerNumber 1
  if n < 0 then return (n, value)
  return (0, buf 0)

def readValueFromRegister (registerNumber : ℤ) : Run UInt8 := do
  let (n, val) ← readRegister registerNumber ((← get).stack 0)
  if n < 0 then return UInt8.ofInt n
  return val

def writeRegister (registerNumber value : ℤ) : Run ℤ := do
  if !(← get).isOpen then return -1
  let (n, _) ← transact (← get).stack (writeFrame registerNumber value)
  return n

def awake : Run ℤ := do
  if !(← get).isOpen then return -1
  writeRegister oprMode operationModeNdof

def sleep : Run ℤ := do
  if !(← get).isOpen then return -1
  writeRegister oprMode operationModeConfig

def readBytes : ℕ → Run Unit
  | 0 => pure ()
  | cnt + 1 => do
    let _ ← readByte
    readBytes cnt

def initPort : Run ℤ := do
  flushDataBuffers
  readBytes 100
  flushDataBuffers
  return 0

/-- The `while` of `hw_reset` for at most so many rounds; it does not return when
they do not suffice. -/
def waitChipId : ℕ → Run Unit
  | 0 => fun _ => none
  | k + 1 => do
    let v ← readValueFromRegister regChipId
    if v ≠ regChipIdVal then waitChipId k

/-- On an open port each round of the `while` uses up a `write` result, see
`waitChipId_stable`. -/
def hwReset : Run ℤ := do
  -- the reset is not answered, so its result is ignored
  let _ ← writeRegister sysTrigger sysTrigRst
  waitChipId ((← get).writes.length + 1)
  let n ← writeRegister pwrMode powerModeNormal
  if n < 0 then return n
  let n ← writeRegister pageId page0
  if n < 0 then return n
  let n ← writeRegister sysTrigger 0x0
  if n < 0 then return n
  return 0

def start : Run ℤ := do
  if !(← get).isOpen then return -1
  let n ← initPort
  if n < 0 then return n
  let n ← writeRegister pageId page0
  if n < 0 then return n
  let uninit := (← get).stack 0
  let (n, chipId) ← readRegister regChipId uninit
  if n ≠ 0 then return -1
  let (n, accId) ← readRegister regAccId uninit
  if n ≠ 0 then return -1
  let (n, magId) ← readRegister regMagId uninit
  if n ≠ 0 then return -1
  let (n, gyrId) ← readRegister regGyrId uninit
  if n ≠ 0 then return -1
  if regChipIdVal ≠ chipId ∨ regAccIdVal ≠ accId ∨ regMagIdVal ≠ magId ∨ regGyrIdVal ≠ gyrId then
    return -1
  let n ← hwReset
  if n ≠ 0 then return -1
  let n ← awake
  if n ≠ 0 then return -1
  return 0

end Bno055Uart

/-- How an exchange ended: without an answer when `write` failed. -/
inductive Exchange.Ended : Exchange → Option Answer → Prop
  | failed (frame : List UInt8) : Ended ⟨frame, .failed, []⟩ none
  | answered {frame : List UInt8} {w : WriteResult} {used : List ReadResult} {a : Answer}
      (hw : w ≠ .failed) (ha : a.Spells 252 used) : Ended ⟨frame, w, used⟩ (some a)

namespace Answer

def result : Option Answer → ℤ
  | none => -1
  | some a => a.value

def resultBuf (buf : Buf) : Option Answer → Buf
  | none => buf
  | some a => a.fills buf

end Answer

/-- Between `p` and `p'` exactly the exchanges `es` took place, in this order. -/
structure Port.Exchanged (p : Port) (es : List Exchange) (p' : Port) : Prop where
  reads : p.reads = es.flatMap Exchange.reply ++ p'.reads
  writes : p.writes = es.map Exchange.written ++ p'.writes
  exchanges : p'.exchanges = p.exchanges ++ es
  isOpen : p'.isOpen = p.isOpen
  uartOpen : p'.uartOpen = p.uartOpen
  stack : p'.stack = p.stack

theorem Port.Exchanged.refl (p : Port) : p.Exchanged [] p :=
  ⟨rfl, rfl, by simp, rfl, rfl, rfl⟩

theorem Port.Exchanged.trans {p p' p'' : Port} {es es' : List Exchange}
    (h : p.Exchanged es p') (h' : p'.Exchanged es' p'') : p.Exchanged (es ++ es') p'' where
  reads := by rw [h.reads, h'.reads, List.flatMap_append, List.append_assoc]
  writes := by rw [h.writes, h'.writes, List.map_append, List.append_assoc]
  exchanges := by rw [h'.exchanges, h.exchanges, List.append_assoc]
  isOpen := h'.isOpen.trans h.isOpen
  uartOpen := h'.uartOpen.trans h.uartOpen
  stack := h'.stack.trans h.stack

theorem Port.Exchanged.split {p p' : Port} (hi : p.isOpen = true) (ho : p.uartOpen = true)
    {es es' : List Exchange} (h : p.Exchanged (es ++ es') p') :
    ∃ t, p.Exchanged es t ∧ (t.isOpen = true ∧ t.uartOpen = true) ∧ t.Exchanged es' p' := by
  refine ⟨{ p with
    reads := es'.flatMap Exchange.reply ++ p'.reads
    writes := es'.map Exchange.written ++ p'.writes
    exchanges := p.exchanges ++ es }, ⟨?_, ?_, rfl, rfl, rfl, rfl⟩, ⟨hi, ho⟩,
    ⟨rfl, rfl, ?_, h.isOpen, h.uartOpen, h.stack⟩⟩
  · rw [h.reads, List.flatMap_append, List.append_assoc]
  · rw [h.writes, List.map_append, List.append_assoc]
  · rw [h.exchanges, List.append_assoc]

theorem Port.Exchanged.ext {p p' p'' : Port} {es : List Exchange}
    (h : p.Exchanged es p') (h' : p.Exchanged es p'') : p' = p'' := by
  have hr := List.append_cancel_left (h.reads.symm.trans h'.reads)
  have hw := List.append_cancel_left (h.writes.symm.trans h'.writes)
  have he := h.exchanges.trans h'.exchanges.symm
  have hi := h.isOpen.trans h'.isOpen.symm
  have hu := h.uartOpen.trans h'.uartOpen.symm
  have hs := h.stack.trans h'.stack.symm
  cases p'
  cases p''
  simp_all

namespace RpiUart

theorem writeBuf_eq_some {p p' : Port} (ho : p.uartOpen = true) {frame : List UInt8} {n : ℤ} :
    writeBuf frame p = some (n, p') ↔
      ∃ w ws, p.writes = w :: ws ∧ n = w.count frame.length ∧
        p' = { p with writes := ws, exchanges := p.exchanges ++ [⟨frame, w, []⟩] } := by
  simp only [writeBuf, ho, Bool.not_true, Bool.false_eq_true, ↓reduceIte]
  cases p.writes with
  | nil => simp
  | cons w ws =>
    simp only [Option.some.injEq, Prod.mk.injEq]
    constructor
    · rintro ⟨rfl, rfl⟩
      exact ⟨w, ws, rfl, rfl, rfl⟩
    · rintro ⟨w', ws', heq, rfl, rfl⟩
      obtain ⟨rfl, rfl⟩ := List.cons.inj heq
      exact ⟨rfl, rfl⟩

end RpiUart

namespace Bno055Uart

theorem transact_apply (buf : Buf) (frame : List UInt8) (p : Port) :
    transact buf frame p = (writeBuf frame p).bind fun out =>
      if out.1 < 0 then some ((-1, buf.fill 0 frame), out.2)
      else receiveBuf (buf.fill 0 frame) 255 out.2 := by
  rw [transact, bind_apply]
  congr 1
  funext out
  rw [ite_at]
  rfl

theorem transact_unopened {p : Port} (ho : p.uartOpen = false) (buf : Buf) (frame : List UInt8) :
    transact buf frame p = some ((-1, buf.fill 0 frame), p) := by
  have hwrite : writeBuf frame p = some (-1, p) := by
    unfold writeBuf
    rw [ho]
    rfl
  rw [transact_apply, hwrite]
  rfl

/-- One transaction on an open port is one exchange. -/
theorem transact_iff {p p' : Port} (ho : p.uartOpen = true) {buf buf' : Buf}
    {frame : List UInt8} {v : ℤ} :
    transact buf frame p = some ((v, buf'), p') ↔
      ∃ e o, e.frame = frame ∧ e.Ended o ∧ p.Exchanged [e] p' ∧ v = Answer.result o ∧
        buf' = Answer.resultBuf (buf.fill 0 frame) o := by
  rw [transact_apply, Option.bind_eq_some_iff]
  constructor
  · rintro ⟨⟨n, p1⟩, hwrite, h⟩
    obtain ⟨w, ws, hws, rfl, rfl⟩ := (writeBuf_eq_some ho).mp hwrite
    by_cases hw : w = .failed
    · rw [if_pos ((WriteResult.count_neg_iff _ _).mpr hw)] at h
      subst hw
      obtain ⟨⟨rfl, rfl⟩, rfl⟩ := by simpa only [Option.some.injEq, Prod.mk.injEq] using h
      exact ⟨_, none, rfl, .failed frame, ⟨rfl, by rw [hws]; rfl, rfl, rfl, rfl, rfl⟩, rfl, rfl⟩
    · rw [if_neg (mt (WriteResult.count_neg_iff _ _).mp hw),
        receiveBuf_eq_some (by decide) (by exact ho)] at h
      obtain ⟨a, used, rest, hreads, ha, hout, rfl⟩ := h
      obtain ⟨rfl, rfl⟩ := Prod.mk.inj hout
      exact ⟨⟨frame, w, used⟩, some a, rfl, .answered hw ha,
        ⟨by simpa using hreads, by rw [hws]; rfl, by simp [addReply_concat], rfl, rfl, rfl⟩,
        rfl, rfl⟩
  · rintro ⟨e, o, rfl, hended, hex, rfl, rfl⟩
    have hws : p.writes = e.written :: p'.writes := by simpa using hex.writes
    refine ⟨_, (writeBuf_eq_some ho).mpr ⟨e.written, p'.writes, hws, rfl, rfl⟩, ?_⟩
    cases hended with
    | failed frame =>
      rw [if_pos ((WriteResult.count_neg_iff _ _).mpr rfl)]
      have hp : p.Exchanged [⟨frame, .failed, []⟩] { p with
          writes := p'.writes, exchanges := p.exchanges ++ [⟨frame, .failed, []⟩] } :=
        ⟨rfl, hws, rfl, rfl, rfl, rfl⟩
      rw [hp.ext hex]
      rfl
    | @answered frame w used a hw ha =>
      rw [if_neg (mt (WriteResult.count_neg_iff _ _).mp hw),
        receiveBuf_eq_some (by decide) (by exact ho)]
      have hreads : p.reads = used ++ p'.reads := by simpa using hex.reads
      have hp : p.Exchanged [⟨frame, w, used⟩] { p with
          reads := p'.reads
          writes := p'.writes
          exchanges := p.exchanges ++ [⟨frame, w, used⟩] } :=
        ⟨by simpa using hreads, hws, rfl, rfl, rfl, rfl⟩
      refine ⟨a, used, p'.reads, hreads, ha, rfl, ?_⟩
      rw [← hp.ext hex]
      simp [addReply_concat]

theorem guard_isOpen {α : Type} {p : Port} (hi : p.isOpen = true) (a : α) (k : Run α) :
    ((get : Run Port) >>= fun q => if (!q.isOpen) = true then pure a else k) p = k p := by
  rw [bind_get, ite_at, if_neg (by simp [hi])]

theorem guard_closed {α : Type} {p : Port} (hi : p.isOpen = false) (a : α) (k : Run α) :
    ((get : Run Port) >>= fun q => if (!q.isOpen) = true then pure a else k) p = some (a, p) := by
  rw [bind_get, ite_at, if_pos (by simp [hi]), pure_apply]

theorem readRegisterBuf_apply {p : Port} (hi : p.isOpen = true) (buf : Buf) (reg num : ℤ) :
    readRegisterBuf buf reg num p = transact buf (readFrame reg num) p := by
  rw [readRegisterBuf, guard_isOpen hi]

theorem writeRegister_iff {p p' : Port} (hi : p.isOpen = true) (ho : p.uartOpen = true)
    {reg value v : ℤ} :
    writeRegister reg value p = some (v, p') ↔
      ∃ e o, e.frame = writeFrame reg value ∧ e.Ended o ∧ p.Exchanged [e] p' ∧
        v = Answer.result o := by
  rw [writeRegister, guard_isOpen hi, bind_get, bind_eq_some]
  constructor
  · rintro ⟨⟨n, buf⟩, t, ht, hv⟩
    obtain ⟨rfl, rfl⟩ := pure_eq_some.mp hv
    obtain ⟨e, o, hf, he, hex, hn, -⟩ := (transact_iff ho).mp ht
    exact ⟨e, o, hf, he, hex, hn⟩
  · rintro ⟨e, o, hf, he, hex, rfl⟩
    exact ⟨_, p', (transact_iff ho).mpr ⟨e, o, hf, he, hex, rfl, rfl⟩, rfl⟩

def firstByte : Option Answer → UInt8
  | some (.data (b :: _)) => b
  | some (.data []) => 0
  | _ => 0xaa

theorem resultBuf_zero (buf : Buf) (frame : List UInt8) (o : Option Answer) :
    Answer.resultBuf (buf.fill 0 (0xaa :: frame)) o 0 = firstByte o := by
  have hcmd : buf.fill 0 (0xaa :: frame) 0 = 0xaa := by
    have h := buf.fill_getElem 0 (0xaa :: frame) 0 (by simp)
    rwa [Nat.cast_zero, add_zero] at h
  match o with
  | none => exact hcmd
  | some (.status _) => exact hcmd
  | some (.data []) =>
    rw [Answer.resultBuf, Answer.fills, List.length_nil, Nat.cast_zero, Buf.store_same]
    rfl
  | some (.data (b :: bs)) =>
    have h := (buf.fill 0 (0xaa :: frame)).fill_getElem 0 (b :: bs) 0 (by simp)
    rw [Nat.cast_zero, add_zero] at h
    rw [Answer.resultBuf, Answer.fills, Buf.store_other _ (by simp; omega), h]
    rfl

def readOutcome (value : UInt8) (o : Option Answer) : ℤ × UInt8 :=
  if Answer.result o < 0 then (Answer.result o, value) else (0, firstByte o)

theorem readOutcome_of_nonneg (value : UInt8) {a : Answer} (h : 0 ≤ a.value) :
    readOutcome value (some a) = (0, firstByte (some a)) := by
  rw [readOutcome, Answer.result, if_neg (not_lt.mpr h)]

theorem readOutcome_zero {value v : UInt8} {o : Option Answer} (h : readOutcome value o = (0, v)) :
    ∃ a, o = some a ∧ 0 ≤ a.value ∧ v = firstByte (some a) := by
  cases o with
  | none => cases h
  | some a =>
    have hnonneg : 0 ≤ a.value := by
      by_contra hneg
      rw [readOutcome, Answer.result, if_pos (not_le.mp hneg)] at h
      have hzero : a.value = 0 := (Prod.mk.inj h).1
      omega
    rw [readOutcome_of_nonneg value hnonneg] at h
    exact ⟨a, rfl, hnonneg, (Prod.mk.inj h).2.symm⟩

theorem readRegister_iff {p p' : Port} (hi : p.isOpen = true) (ho : p.uartOpen = true)
    {reg : ℤ} {value : UInt8} {out : ℤ × UInt8} :
    readRegister reg value p = some (out, p') ↔
      ∃ e o, e.frame = readFrame reg 1 ∧ e.Ended o ∧ p.Exchanged [e] p' ∧
        out = readOutcome value o := by
  have hafter (o : Option Answer) (t : Port) :
      (if Answer.result o < 0 then pure (Answer.result o, value)
        else pure (0, Answer.resultBuf (p.stack.fill 0 (readFrame reg 1)) o 0) :
          Run (ℤ × UInt8)) t = some (readOutcome value o, t) := by
    rw [readOutcome, readFrame, resultBuf_zero]
    split_ifs <;> rfl
  rw [readRegister, guard_isOpen hi, bind_get, bind_eq_some]
  constructor
  · rintro ⟨⟨n, buf⟩, t, ht, h⟩
    rw [readRegisterBuf_apply hi] at ht
    obtain ⟨e, o, hf, he, hex, rfl, rfl⟩ := (transact_iff ho).mp ht
    dsimp only at h
    rw [hafter] at h
    obtain ⟨rfl, rfl⟩ : readOutcome value o = out ∧ t = p' := by simpa using h
    exact ⟨e, o, hf, he, hex, rfl⟩
  · rintro ⟨e, o, hf, he, hex, rfl⟩
    refine ⟨(Answer.result o, Answer.resultBuf (p.stack.fill 0 (readFrame reg 1)) o), p', ?_,
      hafter o p'⟩
    rw [readRegisterBuf_apply hi]
    exact (transact_iff ho).mpr ⟨e, o, hf, he, hex, rfl, rfl⟩

/-- No reply to a failed or refused read looks like an id other than 0xAA and 0. -/
theorem firstByte_expected {o : Option Answer} {id : UInt8} (h : firstByte o = id)
    (haa : id ≠ 0xaa) (h0 : id ≠ 0) : ∃ ds, o = some (.data (id :: ds)) := by
  match o with
  | none => exact absurd h.symm haa
  | some (.status _) => exact absurd h.symm haa
  | some (.data []) => exact absurd h.symm h0
  | some (.data (b :: bs)) => exact ⟨bs, by rw [← h]; rfl⟩

end Bno055Uart

end CmaesSolenoid

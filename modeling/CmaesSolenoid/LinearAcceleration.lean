import Mathlib.Data.List.GetD
import Mathlib.Data.Rat.Defs
import Mathlib.Tactic.IntervalCases
import CmaesSolenoid.ReceiveBuf
import CmaesSolenoid.Bno055Uart

/-!
# Reading the linear acceleration

`double` values are rationals here: a 16-bit reading and its hundredth are read
as the numbers they stand for.
-/

namespace CmaesSolenoid
open GappedInput PartialState

structure Xyz where
  x : ℚ
  y : ℚ
  z : ℚ
  deriving DecidableEq, Repr

def Xyz.div (v : Xyz) (d : ℚ) : Xyz := ⟨v.x / d, v.y / d, v.z / d⟩

namespace Bno055Uart
open Bno055

/-- The operands are promoted to `int`, the result is narrowed to `int16_t`. -/
def mk16 (lsb msb : UInt8) : Int16 :=
  Int16.ofBitVec (((lsb.toBitVec.setWidth 32 &&& 0xFF#32) |||
    ((msb.toBitVec.setWidth 32 <<< 8) &&& 0xFF00#32)).setWidth 16)

/-- The second component is what `*x`, `*y`, `*z` hold on return. -/
def getXyzAtRegisterBlock (startingRegister : ℤ) (out : Xyz) : Run (ℤ × Xyz) := do
  if !(← get).isOpen then return (-1, out)
  let (n, buf) ← readRegisterBuf (← get).stack startingRegister 6
  if n < 0 then return (n, out)
  if n < 6 then return (-1, out)
  return (0, ⟨(mk16 (buf 0) (buf 1)).toInt, (mk16 (buf 2) (buf 3)).toInt,
    (mk16 (buf 4) (buf 5)).toInt⟩)

def getLinearAcceleration (out : Xyz) : Run (ℤ × Xyz) := do
  if !(← get).isOpen then return (-1, out)
  let (n, out) ← getXyzAtRegisterBlock linaccXLsb out
  -- scaled before `n` is looked at
  let out := out.div 100
  if n < 0 then return (n, out)
  return (0, out)

def decodeBlock (ds : List UInt8) : Xyz :=
  ⟨(mk16 (ds.getD 0 0) (ds.getD 1 0)).toInt, (mk16 (ds.getD 2 0) (ds.getD 3 0)).toInt,
    (mk16 (ds.getD 4 0) (ds.getD 5 0)).toInt⟩

/-- The block read succeeds on a data reply of six bytes or more, and on nothing else. -/
def xyzOutcome (out : Xyz) : Option Answer → ℤ × Xyz
  | none => (-1, out)
  | some (.status _) => (-1, out)
  | some (.data ds) => if ds.length < 6 then (-1, out) else (0, decodeBlock ds)

theorem resultBuf_data (buf : Buf) (ds : List UInt8) (j : ℕ) (hj : j < ds.length) :
    Answer.resultBuf buf (some (.data ds)) j = ds.getD j 0 := by
  have h := buf.fill_getElem 0 ds j hj
  rw [zero_add] at h
  rw [Answer.resultBuf, Answer.fills, Buf.store_other _ (by omega), h, List.getD_eq_getElem _ _ hj]

theorem decode_reply (out : Xyz) (o : Option Answer) {buf buf' : Buf}
    (hb : buf' = Answer.resultBuf buf o) (t : Port) :
    (if Answer.result o < 0 then pure (Answer.result o, out)
      else if Answer.result o < 6 then pure (-1, out)
      else pure (0, ⟨(mk16 (buf' 0) (buf' 1)).toInt, (mk16 (buf' 2) (buf' 3)).toInt,
        (mk16 (buf' 4) (buf' 5)).toInt⟩) : Run (ℤ × Xyz)) t = some (xyzOutcome out o, t) := by
  match o with
  | none => rfl
  | some (.status r) =>
    rw [Answer.result, Answer.value, xyzOutcome]
    split_ifs <;> first | rfl | omega
  | some (.data ds) =>
    have hneg : ¬ (ds.length : ℤ) < 0 := by omega
    rw [Answer.result, Answer.value, xyzOutcome, if_neg hneg]
    by_cases h6 : ds.length < 6
    · rw [if_pos (by omega), if_pos h6]
      rfl
    · have hbyte (j : ℕ) (hj : j < 6) : buf' j = ds.getD j 0 := by
        rw [hb]
        exact resultBuf_data _ ds j (by omega)
      rw [if_neg (by omega), if_neg h6, decodeBlock, ← hbyte 0 (by omega), ← hbyte 1 (by omega),
        ← hbyte 2 (by omega), ← hbyte 3 (by omega), ← hbyte 4 (by omega), ← hbyte 5 (by omega)]
      rfl

theorem getXyzAtRegisterBlock_iff {p p' : Port} (hi : p.isOpen = true) (ho : p.uartOpen = true)
    {reg : ℤ} {out : Xyz} {res : ℤ × Xyz} :
    getXyzAtRegisterBlock reg out p = some (res, p') ↔
      ∃ e o, e.frame = readFrame reg 6 ∧ e.Ended o ∧ p.Exchanged [e] p' ∧
        res = xyzOutcome out o := by
  rw [getXyzAtRegisterBlock, guard_isOpen hi, bind_get, bind_eq_some]
  constructor
  · rintro ⟨⟨n, buf⟩, t, ht, h⟩
    rw [readRegisterBuf_apply hi] at ht
    obtain ⟨e, o, hf, he, hex, rfl, rfl⟩ := (transact_iff ho).mp ht
    dsimp only at h
    rw [decode_reply out o rfl] at h
    obtain ⟨rfl, rfl⟩ : xyzOutcome out o = res ∧ t = p' := by simpa using h
    exact ⟨e, o, hf, he, hex, rfl⟩
  · rintro ⟨e, o, hf, he, hex, rfl⟩
    refine ⟨(Answer.result o, Answer.resultBuf (p.stack.fill 0 (readFrame reg 6)) o), p', ?_,
      decode_reply out o rfl p'⟩
    rw [readRegisterBuf_apply hi]
    exact (transact_iff ho).mpr ⟨e, o, hf, he, hex, rfl, rfl⟩

theorem xyzOutcome_fst (out : Xyz) (o : Option Answer) :
    (xyzOutcome out o).1 = 0 ∨ (xyzOutcome out o).1 = -1 := by
  match o with
  | none => exact .inr rfl
  | some (.status r) => exact .inr rfl
  | some (.data ds) =>
    rw [xyzOutcome]
    split_ifs
    · exact .inr rfl
    · exact .inl rfl

theorem scale_outcome (out : Xyz) (o : Option Answer) (t : Port) :
    (if (xyzOutcome out o).1 < 0 then pure ((xyzOutcome out o).1, (xyzOutcome out o).2.div 100)
      else pure (0, (xyzOutcome out o).2.div 100) : Run (ℤ × Xyz)) t =
        some (((xyzOutcome out o).1, (xyzOutcome out o).2.div 100), t) := by
  rcases xyzOutcome_fst out o with h | h
  · rw [h]
    rfl
  · rw [h]
    rfl

theorem getLinearAcceleration_iff {p p' : Port} (hi : p.isOpen = true) (ho : p.uartOpen = true)
    {out : Xyz} {res : ℤ × Xyz} :
    getLinearAcceleration out p = some (res, p') ↔
      ∃ e o, e.frame = readFrame linaccXLsb 6 ∧ e.Ended o ∧ p.Exchanged [e] p' ∧
        res = ((xyzOutcome out o).1, (xyzOutcome out o).2.div 100) := by
  rw [getLinearAcceleration, guard_isOpen hi, bind_eq_some]
  constructor
  · rintro ⟨r, t, ht, h⟩
    obtain ⟨e, o, hf, he, hex, rfl⟩ := (getXyzAtRegisterBlock_iff hi ho).mp ht
    dsimp only at h
    rw [scale_outcome] at h
    obtain ⟨rfl, rfl⟩ := by simpa only [Option.some.injEq, Prod.mk.injEq] using h
    exact ⟨e, o, hf, he, hex, rfl⟩
  · rintro ⟨e, o, hf, he, hex, rfl⟩
    exact ⟨xyzOutcome out o, p', (getXyzAtRegisterBlock_iff hi ho).mpr ⟨e, o, hf, he, hex, rfl⟩,
      scale_outcome out o p'⟩

theorem getXyzAtRegisterBlock_neg {p p' : Port} {reg n : ℤ} {out out' : Xyz}
    (h : getXyzAtRegisterBlock reg out p = some ((n, out'), p')) (hn : n < 0) : out' = out := by
  by_cases hi : p.isOpen = true
  swap
  · rw [getXyzAtRegisterBlock, guard_closed (by simpa using hi)] at h
    exact (Prod.mk.inj (Prod.mk.inj (Option.some.inj h)).1).2.symm
  rw [getXyzAtRegisterBlock, guard_isOpen hi, bind_get] at h
  obtain ⟨⟨n', buf⟩, t, -, h⟩ := bind_eq_some.mp h
  dsimp only at h
  rw [ite_at, ite_at] at h
  split_ifs at h
  · exact (Prod.mk.inj (pure_eq_some.mp h).1).2.symm
  · exact (Prod.mk.inj (pure_eq_some.mp h).1).2.symm
  · obtain ⟨rfl, -⟩ := Prod.mk.inj (pure_eq_some.mp h).1
    omega

/-- A failure on an open port divides the caller's variables all the same. -/
theorem getLinearAcceleration_neg {p p' : Port} (hi : p.isOpen = true) {n : ℤ} {out out' : Xyz}
    (h : getLinearAcceleration out p = some ((n, out'), p')) (hn : n < 0) :
    out' = out.div 100 := by
  rw [getLinearAcceleration, guard_isOpen hi] at h
  obtain ⟨⟨n', v⟩, t, hblock, h⟩ := bind_eq_some.mp h
  dsimp only at h
  rw [ite_at] at h
  split_ifs at h with hneg
  · obtain ⟨rfl, rfl⟩ := Prod.mk.inj (pure_eq_some.mp h).1
    rw [getXyzAtRegisterBlock_neg hblock hneg]
  · obtain ⟨rfl, -⟩ := Prod.mk.inj (pure_eq_some.mp h).1
    omega

theorem getLinearAcceleration_closed {p : Port} (hi : p.isOpen = false) (out : Xyz) :
    getLinearAcceleration out p = some ((-1, out), p) := by
  rw [getLinearAcceleration, guard_closed hi]

def lsb (a : Int16) : UInt8 := UInt8.ofBitVec (a.toBitVec.setWidth 8)
def msb (a : Int16) : UInt8 := UInt8.ofBitVec ((a.toBitVec >>> 8).setWidth 8)

theorem mk16_lsb_msb (a : Int16) : mk16 (lsb a) (msb a) = a := by
  apply Int16.toBitVec_inj.mp
  apply BitVec.eq_of_getLsbD_eq
  intro i hi
  simp only [mk16, lsb, msb]
  interval_cases i <;> simp

def sampleBytes (a b c : Int16) : List UInt8 := [lsb a, msb a, lsb b, msb b, lsb c, msb c]

theorem decodeBlock_sampleBytes (a b c : Int16) :
    decodeBlock (sampleBytes a b c) = ⟨a.toInt, b.toInt, c.toInt⟩ := by
  simp only [decodeBlock, sampleBytes, List.getD_cons_zero, List.getD_cons_succ, mk16_lsb_msb]

/-- One call of `get_linear_acceleration`: what the caller's variables hold, what `write`
makes of the command, and a reply of three register values spread over the `read` calls. -/
structure Poll where
  out : Xyz
  a : Int16
  b : Int16
  c : Int16
  written : WriteResult
  reply : List ReadResult
  inFull : written.count 4 = 4
  answers : Gapped ReadResult.byte? (0xbb :: 6 :: sampleBytes a b c) reply

namespace Poll

def sample (q : Poll) : Xyz := ⟨q.a.toInt / 100, q.b.toInt / 100, q.c.toInt / 100⟩

def exchange (q : Poll) : Exchange := ⟨[0xaa, 1, 0x28, 6], q.written, q.reply⟩

theorem ended (q : Poll) : q.exchange.Ended (some (.data (sampleBytes q.a q.b q.c))) := by
  have hw : q.written ≠ .failed := by
    intro h
    have := q.inFull
    rw [h] at this
    revert this
    decide
  exact .answered hw (.data (.inr rfl) rfl q.answers)

end Poll

theorem getLinearAcceleration_poll {p p' : Port} (hi : p.isOpen = true) (ho : p.uartOpen = true)
    (q : Poll) (hex : p.Exchanged [q.exchange] p') :
    getLinearAcceleration q.out p = some ((0, q.sample), p') := by
  rw [getLinearAcceleration_iff hi ho]
  refine ⟨q.exchange, _, rfl, q.ended, hex, ?_⟩
  rw [xyzOutcome, if_neg (by simp [sampleBytes]), decodeBlock_sampleBytes]
  rfl

/-- Any number of polls, any gaps: every sample is exact and the line never slips. -/
theorem getLinearAcceleration_polls (p : Port) (hi : p.isOpen = true) (ho : p.uartOpen = true)
    (polls : List Poll) (rest : List ReadResult) (ws : List WriteResult)
    (hr : p.reads = polls.flatMap Poll.reply ++ rest)
    (hw : p.writes = polls.map Poll.written ++ ws) :
    ∃ p', (polls.map Poll.out).mapM getLinearAcceleration p =
        some (polls.map fun q => (0, q.sample), p') ∧
      p.Exchanged (polls.map Poll.exchange) p' ∧ p'.reads = rest := by
  induction polls generalizing p with
  | nil => exact ⟨p, rfl, .refl p, by simpa using hr⟩
  | cons q polls ih =>
    -- the port after the first poll has only the other replies to come
    let t : Port := { p with
      reads := polls.flatMap Poll.reply ++ rest
      writes := polls.map Poll.written ++ ws
      exchanges := p.exchanges ++ [q.exchange] }
    have hex : p.Exchanged [q.exchange] t :=
      ⟨by simpa [t, Poll.exchange] using hr, by simpa [t, Poll.exchange] using hw,
        rfl, rfl, rfl, rfl⟩
    obtain ⟨p', hrun, hexs, hrest⟩ := ih t hi ho rfl rfl
    refine ⟨p', ?_, hex.trans hexs, hrest⟩
    rw [List.map_cons, List.mapM_cons, bind_of_eq (getLinearAcceleration_poll hi ho q hex),
      bind_of_eq hrun]
    rfl

theorem getLinearAcceleration_polls_pair :
    ∃ p', ([⟨0, 0, 0⟩, ⟨5, 5, 5⟩] : List Xyz).mapM getLinearAcceleration
        (Port.opened
          [.empty, .byte 0xbb, .byte 6, .byte 0xee, .error, .byte 0xff, .byte 1, .byte 0,
            .byte 0xbb, .byte 0x80,
            .byte 0xbb, .empty, .byte 6, .byte 0, .byte 0, .byte 0, .byte 0, .byte 0, .byte 0]
          [.accepted 4, .accepted 7]) =
      some ([(0, ⟨(-18 : ℤ) / 100, (1 : ℤ) / 100, (-32581 : ℤ) / 100⟩),
        (0, ⟨(0 : ℤ) / 100, (0 : ℤ) / 100, (0 : ℤ) / 100⟩)], p') ∧ p'.reads = [] := by
  obtain ⟨p', hrun, -, hrest⟩ := getLinearAcceleration_polls (Port.opened _ _) rfl rfl
    [⟨⟨0, 0, 0⟩, -18, 1, -32581, .accepted 4,
      [.empty, .byte 0xbb, .byte 6, .byte 0xee, .error, .byte 0xff, .byte 1, .byte 0,
        .byte 0xbb, .byte 0x80], rfl,
      .gap rfl (.value rfl (.value rfl (.value rfl (.gap rfl (.value rfl (.value rfl (.value rfl
        (.value rfl (.value rfl .nil)))))))))⟩,
     ⟨⟨5, 5, 5⟩, 0, 0, 0, .accepted 7,
      [.byte 0xbb, .empty, .byte 6, .byte 0, .byte 0, .byte 0, .byte 0, .byte 0, .byte 0], rfl,
      .value rfl (.gap rfl (.value rfl (.value rfl (.value rfl (.value rfl (.value rfl (.value rfl
        (.value rfl .nil))))))))⟩]
    [] [] rfl rfl
  exact ⟨p', hrun, hrest⟩

end Bno055Uart

end CmaesSolenoid

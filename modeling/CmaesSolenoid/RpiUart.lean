import Mathlib.Algebra.Order.Ring.Int
import CmaesSolenoid.InputLoop
import CmaesSolenoid.GappedInput
import CmaesSolenoid.PartialState

/-!
# `rpi_uart`: the serial port

The operating system's side of the port is a list of the results of the `read`
calls to come and one of the results of the `write` calls to come. The port is
opened with `O_NDELAY`, so a one-byte `read` that finds no data returns at once.
-/

namespace CmaesSolenoid
open InputLoop

/-- One `read(fd,&c,1)`: a byte (`n = 1`), no data (`n = 0`) or `n = -1`.
The last two leave `c` at 0. -/
inductive ReadResult
  | byte (b : UInt8)
  | empty
  | error
  deriving DecidableEq, Repr

namespace ReadResult

def n : ReadResult → ℤ
  | byte _ => 1
  | empty => 0
  | error => -1

def byte? : ReadResult → Option UInt8
  | byte b => some b
  | empty => none
  | error => none

/-- The `char c` of the receive loop after the `read`, promoted to `int`. -/
def c (charInt : UInt8 → ℤ) : ReadResult → ℤ
  | byte b => charInt b
  | empty => 0
  | error => 0

@[simp] theorem byte?_byte (b : UInt8) : (byte b).byte? = some b := rfl

theorem eq_byte {r : ReadResult} {b : UInt8} (h : r.byte? = some b) : r = byte b := by
  cases r <;> simp_all [byte?]

theorem c_of_nothing {r : ReadResult} (h : r.byte? = none) (charInt : UInt8 → ℤ) :
    r.c charInt = 0 := by
  cases r <;> simp_all [byte?, c]

end ReadResult

/-- `char` promoted to `int` where it is unsigned, as on the ARM target. -/
def uchar (b : UInt8) : ℤ := b.toNat

def schar (b : UInt8) : ℤ := b.toInt8.toInt

/-- One `write(fd,buf,len)`: it fails, or takes up to so many bytes. -/
inductive WriteResult
  | failed
  | accepted (k : ℕ)
  deriving DecidableEq, Repr

def WriteResult.count (len : ℕ) : WriteResult → ℤ
  | failed => -1
  | accepted k => (min k len : ℕ)

theorem WriteResult.count_neg_iff (len : ℕ) (w : WriteResult) : w.count len < 0 ↔ w = failed := by
  cases w <;> simp [count]

abbrev Buf := ℤ → UInt8

def Buf.store (buf : Buf) (j : ℤ) (b : UInt8) : Buf := Function.update buf j b

def Buf.fill (buf : Buf) (k : ℤ) : List UInt8 → Buf
  | [] => buf
  | b :: bs => Buf.fill (buf.store k b) (k + 1) bs

theorem Buf.store_same (buf : Buf) (j : ℤ) (b : UInt8) : buf.store j b j = b :=
  Function.update_self _ _ _

theorem Buf.store_other (buf : Buf) {i j : ℤ} (h : i ≠ j) (b : UInt8) :
    buf.store j b i = buf i :=
  Function.update_of_ne h _ _

theorem Buf.fill_before (buf : Buf) {i k : ℤ} (h : i < k) (bs : List UInt8) :
    buf.fill k bs i = buf i := by
  induction bs generalizing buf k with
  | nil => rfl
  | cons b bs ih => rw [fill, ih _ (by omega), store_other _ (by omega)]

theorem Buf.fill_getElem (buf : Buf) (k : ℤ) (bs : List UInt8) (j : ℕ) (hj : j < bs.length) :
    buf.fill k bs (k + j) = bs[j] := by
  induction bs generalizing buf k j with
  | nil => simp at hj
  | cons b bs ih =>
    cases j with
    | zero =>
      rw [fill, Nat.cast_zero, add_zero, fill_before _ (by omega), store_same]
      rfl
    | succ j =>
      rw [fill, List.getElem_cons_succ, ← ih (buf.store k b) (k + 1) j (by simpa using hj)]
      congr 1
      omega

/-- A command frame, what `write` made of it and the `read` results taken as its reply. -/
structure Exchange where
  frame : List UInt8
  written : WriteResult
  reply : List ReadResult
  deriving DecidableEq, Repr

namespace Exchange

def InFull (e : Exchange) : Prop := e.written.count e.frame.length = e.frame.length

instance (e : Exchange) : Decidable e.InFull := inferInstanceAs (Decidable (_ = _))

def replyBytes (e : Exchange) : List UInt8 := e.reply.filterMap ReadResult.byte?

end Exchange

/-- The last command sent is the one a reply belongs to. -/
def addReply (rs : List ReadResult) : List Exchange → List Exchange
  | [] => []
  | [e] => [{ e with reply := e.reply ++ rs }]
  | e :: e' :: es => e :: addReply rs (e' :: es)

theorem addReply_concat (rs : List ReadResult) (es : List Exchange) (e : Exchange) :
    addReply rs (es ++ [e]) = es ++ [{ e with reply := e.reply ++ rs }] := by
  induction es with
  | nil => rfl
  | cons e' es ih =>
    cases es with
    | nil => rfl
    | cons e'' es => simpa [addReply] using ih

/-- The two `is_open` flags of a `bno055_uart` and of its `rpi_uart`, the operating
system's side of the port, and what an uninitialised local array holds.
`exchanges` only records what has gone over the line. -/
structure Port where
  isOpen : Bool
  uartOpen : Bool
  reads : List ReadResult
  writes : List WriteResult
  stack : Buf
  exchanges : List Exchange

def Port.opened (reads : List ReadResult) (writes : List WriteResult) : Port where
  isOpen := true
  uartOpen := true
  reads := reads
  writes := writes
  stack := fun _ => 0
  exchanges := []

def Port.withReads (p : Port) (rs : List ReadResult) : Port := { p with reads := rs }

/-- A run over a port; `none` is a run that waits for ever. -/
abbrev Run := StateT Port Option

namespace RpiUart

/-- `rpi_uart::flush_data_buffers`. Its callers ignore the result; the bytes it throws
away are ones that no later `read` returns. -/
def flushDataBuffers : Run Unit := pure ()

/-- `rpi_uart::read_byte`; with `n = 0` the byte is an uninitialised local. -/
def readByte : Run UInt8 := fun p =>
  match p.reads with
  | [] => none
  | r :: rs =>
    let p := { p with reads := rs }
    match r with
    | .byte b => some (b, p)
    | .empty => some (p.stack 0, p)
    | .error => some (255, p)

def writeBuf (frame : List UInt8) : Run ℤ := fun p =>
  if !p.uartOpen then some (-1, p)
  else
    match p.writes with
    | [] => none
    | w :: ws => some (w.count frame.length,
        { p with writes := ws, exchanges := p.exchanges ++ [⟨frame, w, []⟩] })

structure RxState where
  i : ℤ
  rxLen : ℤ
  waitResponseHeaderStatus : ℤ
  buf : Buf

/-- The end of a round: store and count the byte, test the loop condition and, after
the loop, close the string and return. -/
def receiveTail (bufMaxLen : UInt8) (s : RxState) (r : ReadResult) : Flow RxState (ℤ × Buf) :=
  let s := match r with
    | .byte b => { s with
        buf := if s.i ≥ 2 then s.buf.store (s.i - 2) b else s.buf
        i := s.i + 1 }
    | _ => s
  if s.i < s.rxLen + 2 ∧ s.i < (bufMaxLen.toNat : ℤ) - 1 then .again s
  else
    let buf := s.buf.store (s.i - 2) 0
    if r.n < 0 then .ret (-1, buf)
    else if s.i = 0 then .ret (0, buf)
    else .ret (s.i - 2, buf)

/-- One round of the `do` loop of `rpi_uart::receive_buf`. -/
def receiveRound (charInt : UInt8 → ℤ) (bufMaxLen : UInt8) (s : RxState) (r : ReadResult) :
    Flow RxState (ℤ × Buf) :=
  let c := r.c charInt
  if s.i = 0 ∧ c > 0 ∧ c ≠ 0xbb then
    receiveTail bufMaxLen { s with rxLen := 1, waitResponseHeaderStatus := c } r
  else if s.i = 1 then
    if s.waitResponseHeaderStatus > 0 then
      -- tested also when this `read` delivered nothing
      if c = 0x01 then .ret (0, s.buf) else .ret (-1, s.buf)
    else receiveTail bufMaxLen { s with rxLen := c } r
  else receiveTail bufMaxLen s r

def receiveBuf (buf : Buf) (bufMaxLen : UInt8) : Run (ℤ × Buf) := fun p =>
  if !p.uartOpen then some ((-1, buf), p)
  else
    (run (receiveRound uchar bufMaxLen) ⟨0, 0, 0, buf⟩ p.reads).map fun out =>
      (out.1, { p with
        reads := out.2
        exchanges := addReply (p.reads.take (p.reads.length - out.2.length)) p.exchanges })

end RpiUart

end CmaesSolenoid

import CmaesSolenoid.PolledQueue

/-!
# The Python bridge

`write_read.py` on Python 2: `UART_thread` hands each chunk that it has read to `data_cb`,
which puts it into a queue, and `write_to_uart_get_response` polls the queue until as many
bytes have come as it hopes for.
-/

namespace CmaesSolenoid.PythonBridge
open InputLoop PolledQueue

abbrev Bytes := List UInt8

inductive PyError
  | valueError
  | indexError
  | typeError
  deriving DecidableEq, Repr

def append (txBuf : Bytes) (n : ℤ) : Except PyError Bytes :=
  if 0 ≤ n ∧ n < 256 then .ok (txBuf ++ [UInt8.ofInt n]) else .error .valueError

def item (resp : Bytes) (i : ℕ) : Except PyError UInt8 :=
  match resp[i]? with
  | some b => .ok b
  | none => .error .indexError

/-- `binascii.hexlify(resp)`: it takes a string or a buffer, and `resp` is a list. -/
def hexlify (_ : Bytes) : Except PyError Bytes := .error .typeError

/-- `uart_msg_queue`, and what has been handed to `uart_obj.write`. -/
structure Bridge where
  uartMsgQueue : List Bytes
  written : List Bytes

def clearQ (b : Bridge) : Bridge := { b with uartMsgQueue := [] }

def lenHdrs : ℤ := 2

/-- The body of the waiting loop and the test that follows it. -/
def responseRound (rxLen : ℤ) (respData resp : Bytes) : Flow Bytes Bytes :=
  if ((respData ++ resp).length : ℤ) - lenHdrs < rxLen then .again (respData ++ resp)
  else .ret (respData ++ resp)

/-- `polls` are the chunks that `data_cb` puts into the queue between two looks at it; `none`
is a call that is still waiting after them. -/
def writeToUartGetResponse (txBuf : Bytes) (rxLen : ℤ) (b : Bridge) (polls : List (List Bytes)) :
    Option ((Bytes × Bridge) × List (List Bytes)) :=
  let b := clearQ b
  let b := { b with written := b.written ++ [txBuf] }
  if 0 - lenHdrs < rxLen then
    (run (poll (responseRound rxLen)) (b.uartMsgQueue, []) polls).map fun out =>
      ((out.1.1, { b with uartMsgQueue := out.1.2 }), out.2)
  else some (([], b), polls)

def readFrame (regnum rxLen : ℤ) : Except PyError Bytes := do
  let txBuf ← append [0xaa, 0x01] regnum
  append txBuf rxLen

def writeFrame (regnum dataLen : ℤ) (data : List ℤ) : Except PyError Bytes := do
  let txBuf ← append [0xaa, 0x00] regnum
  let txBuf ← append txBuf dataLen
  data.foldlM append txBuf

def judgeRead (rxLen : ℤ) (resp : Bytes) : Except PyError (Bool × List (Option UInt8)) := do
  if (← item resp 0) ≠ 0xbb then
    -- the argument of `print`
    let _ ← hexlify resp
    return (false, [none])
  if rxLen ≠ (← item resp 1).toNat then return (false, [none])
  return (true, (resp.drop 2).map some)

def judgeWrite (resp : Bytes) : Except PyError (Bool × UInt8) := do
  if (← item resp 0) ≠ 0xee ∨ (← item resp 1) ≠ 0x01 then
    let _ ← hexlify resp
  return (decide ((← item resp 1) = 0x01), ← item resp 1)

def exchange {α : Type} (txBuf : Except PyError Bytes) (rxLen : ℤ)
    (judge : Bytes → Except PyError α) (b : Bridge) (polls : List (List Bytes)) :
    Option ((Except PyError α × Bridge) × List (List Bytes)) :=
  match txBuf with
  | .error e => some ((.error e, b), polls)
  | .ok txBuf => (writeToUartGetResponse txBuf rxLen b polls).map fun out =>
      ((judge out.1.1, out.1.2), out.2)

def readRegister (regnum rxLen : ℤ) (b : Bridge) (polls : List (List Bytes)) :
    Option ((Except PyError (Bool × List (Option UInt8)) × Bridge) × List (List Bytes)) :=
  exchange (readFrame regnum rxLen) rxLen (judgeRead rxLen) b polls

def writeRegister (regnum dataLen : ℤ) (data : List ℤ) (b : Bridge) (polls : List (List Bytes)) :
    Option ((Except PyError (Bool × UInt8) × Bridge) × List (List Bytes)) :=
  exchange (writeFrame regnum dataLen data) 0 judgeWrite b polls

inductive Reply
  | data (ds : Bytes) (fits : ds.length < 256)
  | status (s : UInt8)

def Reply.bytes : Reply → Bytes
  | data ds _ => 0xbb :: UInt8.ofNat ds.length :: ds
  | status s => [0xee, s]

/-- The bytes cut into chunks, and the chunks handed over between the polls of a stream of
polls without end. -/
structure Delivery (bytes : Bytes) where
  polls : Stream' (List Bytes)
  count : ℕ
  nonempty : ∀ msg ∈ (polls.take count).flatten, msg ≠ []
  whole : (polls.take count).flatten.flatten = bytes
  silent : ∀ i, count ≤ i → polls.get i = []

/-- What a read of `rx_len` bytes is to return for the reply. -/
def Reply.readVerdict (rxLen : ℤ) : Reply → Bool × List (Option UInt8)
  | data ds _ => if (ds.length : ℤ) = rxLen then (true, ds.map some) else (false, [none])
  | status _ => (false, [none])

def JudgesRead (regnum rxLen : ℤ) (b : Bridge) (r : Reply) (d : Delivery r.bytes) : Prop :=
  ∃ n b' rest,
    readRegister regnum rxLen b (d.polls.take n) = some ((.ok (r.readVerdict rxLen), b'), rest)

def JudgesWrite (regnum dataLen : ℤ) (data : List ℤ) (b : Bridge) (s : UInt8)
    (d : Delivery (Reply.status s).bytes) : Prop :=
  ∃ n b' rest, writeRegister regnum dataLen data b (d.polls.take n) =
    some ((.ok (decide (s = 0x01), s), b'), rest)

section WaitingLoop

variable {rxLen : ℤ} {respData resp : Bytes} {msgs rest : List Bytes}

theorem response_spec (h : run (responseRound rxLen) respData msgs = some (resp, rest)) :
    resp ++ rest.flatten = respData ++ msgs.flatten ∧ rxLen + lenHdrs ≤ resp.length := by
  induction msgs generalizing respData with
  | nil => cases h
  | cons msg msgs ih =>
    rw [List.flatten_cons, ← List.append_assoc]
    by_cases hshort : ((respData ++ msg).length : ℤ) - lenHdrs < rxLen
    · have hstep : responseRound rxLen respData msg = .again (respData ++ msg) := if_pos hshort
      rw [run_again hstep] at h
      exact ih h
    · have hstep : responseRound rxLen respData msg = .ret (respData ++ msg) := if_neg hshort
      rw [run_ret hstep] at h
      obtain ⟨rfl, rfl⟩ := Prod.mk.inj (Option.some.inj h)
      exact ⟨rfl, by omega⟩

theorem response_exists (hshort : (respData.length : ℤ) < rxLen + lenHdrs)
    (h : rxLen + lenHdrs ≤ (respData ++ msgs.flatten).length) :
    ∃ resp rest, run (responseRound rxLen) respData msgs = some (resp, rest) := by
  induction msgs generalizing respData with
  | nil =>
    rw [List.flatten_nil, List.append_nil] at h
    omega
  | cons msg msgs ih =>
    rw [List.flatten_cons, ← List.append_assoc] at h
    by_cases hmore : ((respData ++ msg).length : ℤ) - lenHdrs < rxLen
    · have hstep : responseRound rxLen respData msg = .again (respData ++ msg) := if_pos hmore
      rw [run_again hstep]
      exact ih (by omega) h
    · have hstep : responseRound rxLen respData msg = .ret (respData ++ msg) := if_neg hmore
      exact ⟨_, _, run_ret hstep _⟩

end WaitingLoop

namespace Delivery

variable {bytes : Bytes} (d : Delivery bytes)

def msgs : List Bytes := (d.polls.take d.count).flatten

theorem take_add (k : ℕ) :
    d.polls.take (d.count + k) = d.polls.take d.count ++ List.replicate k [] := by
  induction k with
  | zero => simp
  | succ k ih =>
    rw [← Nat.add_assoc, Stream'.take_succ', ih, d.silent _ (Nat.le_add_right _ _),
      List.append_assoc, List.replicate_succ']

theorem flatten_take_add (k : ℕ) : (d.polls.take (d.count + k)).flatten = d.msgs := by
  rw [d.take_add, List.flatten_append, List.flatten_replicate_nil, List.append_nil]
  rfl

/-- Polling is reading the chunks in their order, whenever they come. -/
theorem run_poll_iff {step : Bytes → Bytes → Flow Bytes Bytes} {resp : Bytes} :
    (∃ n queue rest, run (poll step) ([], []) (d.polls.take n) = some ((resp, queue), rest)) ↔
      ∃ rest, run step [] d.msgs = some (resp, rest) := by
  constructor
  · rintro ⟨n, queue, rest, h⟩
    have hrun := run_of_poll h
    rw [List.nil_append] at hrun
    -- the first `n` polls together with the rest of the delivery
    have hall := run_append hrun ((d.polls.drop n).take d.count).flatten
    rw [← List.flatten_append, ← InputLoop.take_add, Nat.add_comm n, d.flatten_take_add] at hall
    exact ⟨_, hall⟩
  · rintro ⟨rest, h⟩
    have hmsgs : run step [] ([] ++ (d.polls.take d.count).flatten) = some (resp, rest) := h
    obtain ⟨⟨⟨resp', queue⟩, rest'⟩, hrun, rfl⟩ := poll_of_run hmsgs (Nat.le_refl _)
    rw [← d.take_add] at hrun
    exact ⟨_, queue, rest', hrun⟩

end Delivery

def IsByte (n : ℤ) : Prop := 0 ≤ n ∧ n < 256

theorem append_ok_iff {txBuf : Bytes} {n : ℤ} : (∃ r, append txBuf n = .ok r) ↔ IsByte n := by
  unfold append
  by_cases h : 0 ≤ n ∧ n < 256
  · rw [if_pos h]
    exact iff_of_true ⟨_, rfl⟩ h
  · rw [if_neg h]
    exact iff_of_false (by simp) h

theorem bind_ok_iff {α β : Type} {m : Except PyError α} {k : α → Except PyError β} {P : Prop}
    (h : ∀ a, m = .ok a → ((∃ r, k a = .ok r) ↔ P)) :
    (∃ r, (m >>= k) = .ok r) ↔ (∃ a, m = .ok a) ∧ P := by
  cases m with
  | error e => simp [bind, Except.bind]
  | ok a =>
    change (∃ r, k a = .ok r) ↔ _
    rw [h a rfl]
    simp

theorem readFrame_ok_iff {regnum rxLen : ℤ} :
    (∃ txBuf, readFrame regnum rxLen = .ok txBuf) ↔ IsByte regnum ∧ IsByte rxLen := by
  unfold readFrame
  rw [bind_ok_iff fun _ _ => append_ok_iff, append_ok_iff]

theorem foldlM_append_ok_iff {data : List ℤ} {txBuf : Bytes} :
    (∃ r, data.foldlM append txBuf = .ok r) ↔ ∀ n ∈ data, IsByte n := by
  induction data generalizing txBuf with
  | nil => exact iff_of_true ⟨txBuf, rfl⟩ (by simp)
  | cons n data ih =>
    rw [List.foldlM_cons, bind_ok_iff fun _ _ => ih, append_ok_iff, List.forall_mem_cons]

theorem writeFrame_ok_iff {regnum dataLen : ℤ} {data : List ℤ} :
    (∃ txBuf, writeFrame regnum dataLen data = .ok txBuf) ↔
      IsByte regnum ∧ IsByte dataLen ∧ ∀ n ∈ data, IsByte n := by
  have htail (txBuf : Bytes) :
      (∃ r, (append txBuf dataLen >>= fun txBuf => data.foldlM append txBuf) = .ok r) ↔
        IsByte dataLen ∧ ∀ n ∈ data, IsByte n := by
    rw [bind_ok_iff fun _ _ => foldlM_append_ok_iff, append_ok_iff]
  unfold writeFrame
  rw [bind_ok_iff fun txBuf _ => htail txBuf, append_ok_iff]

theorem writeToUart_eq {rxLen : ℤ} (hrx : 0 ≤ rxLen) (txBuf : Bytes) (b : Bridge)
    (polls : List (List Bytes)) :
    writeToUartGetResponse txBuf rxLen b polls =
      (run (poll (responseRound rxLen)) ([], []) polls).map fun out =>
        ((out.1.1, ⟨out.1.2, b.written ++ [txBuf]⟩), out.2) := by
  unfold writeToUartGetResponse
  rw [if_pos (by unfold lenHdrs; omega)]
  rfl

theorem exchange_returns_iff {α : Type} {bytes : Bytes} (d : Delivery bytes)
    {txBuf : Except PyError Bytes} {rxLen : ℤ} (hrx : 0 ≤ rxLen)
    {judge : Bytes → Except PyError α} {b : Bridge} {v : α} :
    (∃ n b' rest, exchange txBuf rxLen judge b (d.polls.take n) = some ((.ok v, b'), rest)) ↔
      (∃ frame, txBuf = .ok frame) ∧
        ∃ resp rest, run (responseRound rxLen) [] d.msgs = some (resp, rest) ∧
          judge resp = .ok v := by
  cases txBuf with
  | error e =>
    unfold exchange
    simp
  | ok frame =>
    unfold exchange
    dsimp only
    constructor
    · rintro ⟨n, b', rest, h⟩
      rw [writeToUart_eq hrx, Option.map_map, Option.map_eq_some_iff] at h
      obtain ⟨⟨⟨resp, queue⟩, rest'⟩, hrun, heq⟩ := h
      obtain ⟨msgs, hmsgs⟩ := d.run_poll_iff.mp ⟨n, queue, rest', hrun⟩
      exact ⟨⟨frame, rfl⟩, resp, msgs, hmsgs, (Prod.mk.inj (Prod.mk.inj heq).1).1⟩
    · rintro ⟨-, resp, msgs, hmsgs, hjudge⟩
      obtain ⟨n, queue, rest, hrun⟩ := d.run_poll_iff.mpr ⟨msgs, hmsgs⟩
      refine ⟨n, ⟨queue, b.written ++ [frame]⟩, rest, ?_⟩
      rw [writeToUart_eq hrx, hrun, ← hjudge]
      rfl

/-- The loop ends exactly when the reply has as many bytes as it hopes for; then it has
collected that many, or some more. -/
theorem Delivery.response_iff {bytes : Bytes} (d : Delivery bytes) {rxLen : ℤ} (hrx : 0 ≤ rxLen) :
    (∃ resp rest, run (responseRound rxLen) [] d.msgs = some (resp, rest)) ↔
      rxLen + lenHdrs ≤ bytes.length := by
  have hwhole : [] ++ d.msgs.flatten = bytes := d.whole
  constructor
  · rintro ⟨resp, rest, h⟩
    obtain ⟨heq, hlong⟩ := response_spec h
    have hlen := congrArg List.length (heq.trans hwhole)
    rw [List.length_append] at hlen
    omega
  · intro h
    apply response_exists
    · unfold lenHdrs
      rw [List.length_nil]
      omega
    · rwa [hwhole]

theorem Delivery.response_isPrefix {bytes : Bytes} (d : Delivery bytes) {rxLen : ℤ} {resp : Bytes}
    {rest : List Bytes} (h : run (responseRound rxLen) [] d.msgs = some (resp, rest)) :
    resp <+: bytes ∧ rxLen + lenHdrs ≤ resp.length := by
  obtain ⟨heq, hlong⟩ := response_spec h
  exact ⟨⟨_, heq.trans d.whole⟩, hlong⟩

theorem judgeRead_data (rxLen : ℤ) (len : UInt8) (t : Bytes) :
    judgeRead rxLen (0xbb :: len :: t) =
      if rxLen ≠ len.toNat then .ok (false, [none]) else .ok (true, t.map some) := by
  unfold judgeRead
  by_cases h : rxLen = len.toNat
  · simp [item, bind, Except.bind, pure, Except.pure, h]
  · simp [item, bind, Except.bind, pure, Except.pure, h]

theorem judgeRead_verdict {rxLen : ℤ} {ds : Bytes} (fits : ds.length < 256) {resp : Bytes}
    (hrx : 1 ≤ rxLen) (hpre : resp <+: (Reply.data ds fits).bytes)
    (hlong : rxLen + lenHdrs ≤ resp.length) :
    judgeRead rxLen resp = .ok ((Reply.data ds fits).readVerdict rxLen) := by
  unfold lenHdrs at hlong
  obtain ⟨b0, b1, t, rfl⟩ : ∃ b0 b1 t, resp = b0 :: b1 :: t := by
    match resp with
    | [] => simp at hlong; omega
    | [_] => simp at hlong; omega
    | b0 :: b1 :: t => exact ⟨b0, b1, t, rfl⟩
  obtain ⟨rfl, htail⟩ := List.cons_prefix_cons.mp hpre
  obtain ⟨rfl, ht⟩ := List.cons_prefix_cons.mp htail
  have hlen : (UInt8.ofNat ds.length).toNat = ds.length := by
    rw [UInt8.toNat_ofNat']
    omega
  rw [judgeRead_data, hlen, Reply.readVerdict]
  by_cases heq : (ds.length : ℤ) = rxLen
  · have hall : t = ds := by
      apply ht.eq_of_length_le
      rw [List.length_cons, List.length_cons] at hlong
      omega
    rw [if_neg (by simpa using heq.symm), if_pos heq, hall]
  · rw [if_pos (Ne.symm heq), if_neg heq]

theorem judgeWrite_status (s : UInt8) :
    judgeWrite [0xee, s] = if s = 0x01 then .ok (true, s) else .error .typeError := by
  unfold judgeWrite
  by_cases hs : s = 0x01
  · subst hs
    rfl
  · rw [if_neg hs]
    simp [item, hexlify, bind, Except.bind, hs]

theorem judgesRead_iff {regnum rxLen : ℤ} (hrx : 1 ≤ rxLen) (b : Bridge) (r : Reply)
    (d : Delivery r.bytes) : JudgesRead regnum rxLen b r d ↔
      IsByte regnum ∧ ∃ ds fits, r = .data ds fits ∧ rxLen ≤ ds.length := by
  have hreturns : JudgesRead regnum rxLen b r d ↔ _ :=
    exchange_returns_iff d (by omega : 0 ≤ rxLen)
  rw [hreturns, readFrame_ok_iff]
  cases r with
  | status s =>
    constructor
    · rintro ⟨-, resp, rest, hrun, -⟩
      have hlong := (d.response_iff (by omega)).mp ⟨resp, rest, hrun⟩
      change rxLen + 2 ≤ 2 at hlong
      omega
    · rintro ⟨-, ds, fits, h, -⟩
      cases h
  | data ds fits =>
    have hbytes : ((Reply.data ds fits).bytes.length : ℤ) = ds.length + lenHdrs := rfl
    constructor
    · rintro ⟨⟨hreg, -⟩, resp, rest, hrun, -⟩
      have hlong := (d.response_iff (by omega)).mp ⟨resp, rest, hrun⟩
      exact ⟨hreg, ds, fits, rfl, by omega⟩
    · rintro ⟨hreg, ds', fits', h, hlong⟩
      obtain rfl := (Reply.data.inj h)
      have henough : rxLen + lenHdrs ≤ (Reply.data ds fits).bytes.length := by omega
      obtain ⟨resp, rest, hrun⟩ := (d.response_iff (by omega)).mpr henough
      obtain ⟨hpre, hresp⟩ := d.response_isPrefix hrun
      have hbyte : IsByte rxLen := by
        unfold IsByte
        omega
      exact ⟨⟨hreg, hbyte⟩, resp, rest, hrun, judgeRead_verdict fits hrx hpre hresp⟩

theorem judgesWrite_iff {regnum dataLen : ℤ} {data : List ℤ} (b : Bridge) (s : UInt8)
    (d : Delivery (Reply.status s).bytes) : JudgesWrite regnum dataLen data b s d ↔
      (IsByte regnum ∧ IsByte dataLen ∧ ∀ n ∈ data, IsByte n) ∧ s = 0x01 := by
  have hreturns : JudgesWrite regnum dataLen data b s d ↔ _ :=
    exchange_returns_iff d (Int.le_refl 0)
  rw [hreturns, writeFrame_ok_iff]
  have hcollected {resp : Bytes} {rest : List Bytes}
      (h : run (responseRound 0) [] d.msgs = some (resp, rest)) : resp = [0xee, s] := by
    obtain ⟨hpre, hlong⟩ := d.response_isPrefix h
    apply hpre.eq_of_length_le
    change (0 : ℤ) + 2 ≤ resp.length at hlong
    change 2 ≤ resp.length
    omega
  apply and_congr_right
  intro _
  constructor
  · rintro ⟨resp, rest, hrun, hjudge⟩
    rw [hcollected hrun, judgeWrite_status] at hjudge
    by_contra hs
    rw [if_neg hs] at hjudge
    cases hjudge
  · rintro rfl
    obtain ⟨resp, rest, hrun⟩ := (d.response_iff (Int.le_refl 0)).mpr (by decide)
    refine ⟨resp, rest, hrun, ?_⟩
    rw [hcollected hrun]
    rfl

/-- Both calls, however the reply is cut and whenever the chunks come. -/
theorem judges_iff (regnum rxLen dataLen : ℤ) (data : List ℤ) (b : Bridge) (hrx : 1 ≤ rxLen) :
    (∀ (r : Reply) (d : Delivery r.bytes), JudgesRead regnum rxLen b r d ↔
      IsByte regnum ∧ ∃ ds fits, r = .data ds fits ∧ rxLen ≤ ds.length) ∧
    ∀ (s : UInt8) (d : Delivery (Reply.status s).bytes), JudgesWrite regnum dataLen data b s d ↔
      (IsByte regnum ∧ IsByte dataLen ∧ ∀ n ∈ data, IsByte n) ∧ s = 0x01 :=
  ⟨judgesRead_iff hrx b, judgesWrite_iff b⟩

theorem judges_iff_chipId :
    (∀ (r : Reply) (d : Delivery r.bytes), JudgesRead 0x00 1 ⟨[], []⟩ r d ↔
      IsByte 0x00 ∧ ∃ ds fits, r = .data ds fits ∧ 1 ≤ (ds.length : ℤ)) ∧
    ∀ (s : UInt8) (d : Delivery (Reply.status s).bytes), JudgesWrite 0x00 1 [5] ⟨[], []⟩ s d ↔
      (IsByte 0x00 ∧ IsByte 1 ∧ ∀ n ∈ [5], IsByte n) ∧ s = 0x01 :=
  judges_iff 0x00 1 1 [5] ⟨[], []⟩ (by decide)

def Delivery.prompt {bytes : Bytes} (h : bytes ≠ []) : Delivery bytes where
  polls := Stream'.cons [bytes] (Stream'.const [])
  count := 1
  nonempty msg hmsg := by
    obtain rfl : msg = bytes := by simpa [Stream'.take] using hmsg
    exact h
  whole := by simp [Stream'.take]
  silent i hi := by
    obtain ⟨k, rfl⟩ := Nat.exists_eq_add_of_le' hi
    rfl

/-- An error status keeps `read_register` waiting and makes `write_register` raise. -/
theorem judges_errorStatus :
    (¬ ∀ (regnum rxLen : ℤ) (b : Bridge) (r : Reply) (d : Delivery r.bytes),
      IsByte regnum → 1 ≤ rxLen → rxLen < 256 → JudgesRead regnum rxLen b r d) ∧
    ¬ ∀ (regnum dataLen : ℤ) (data : List ℤ) (b : Bridge) (s : UInt8)
      (d : Delivery (Reply.status s).bytes), IsByte regnum → IsByte dataLen →
        (∀ n ∈ data, IsByte n) → JudgesWrite regnum dataLen data b s d := by
  have hzero : IsByte 0 := ⟨by decide, by decide⟩
  have hne : (Reply.status 0x03).bytes ≠ [] := by
    unfold Reply.bytes
    simp
  constructor
  · intro h
    have hread := h 0 1 ⟨[], []⟩ (.status 0x03) (.prompt hne) hzero (by decide) (by decide)
    obtain ⟨-, ds, fits, heq, -⟩ := (judgesRead_iff (by decide) _ _ _).mp hread
    cases heq
  · intro h
    have hwrite := h 0 0 [] ⟨[], []⟩ 0x03 (.prompt hne) hzero hzero (by simp)
    obtain ⟨-, hs⟩ := (judgesWrite_iff _ _ _).mp hwrite
    revert hs
    decide

end CmaesSolenoid.PythonBridge

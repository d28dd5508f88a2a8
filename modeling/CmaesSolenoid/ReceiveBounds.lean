import CmaesSolenoid.RpiUart

/-!
# Where `receive_buf` stores

The length of a reply comes from the line and is read again as long as nothing arrives;
where `char` is signed it may be negative. Nothing is assumed here about how `char` is
promoted to `int`.
-/

namespace CmaesSolenoid
open InputLoop

def Buf.storeAt (buf : Buf) (b : UInt8) : Option ℤ → Buf
  | some j => buf.store j b
  | none => buf

namespace RpiUart

/-- Where a round stores the byte it has read: `buf[i-offset_chars] = c`. -/
def dataIndex (s : RxState) (r : ReadResult) : Option ℤ :=
  if r.n > 0 ∧ s.i ≥ 2 then some (s.i - 2) else none

def nextI (s : RxState) (r : ReadResult) : ℤ := if r.n > 0 then s.i + 1 else s.i

/-- Where a round that ends the loop closes the string, `buf[i-offset_chars] = '\0'`; the two
returns inside the loop do not come there. -/
def nulIndex (charInt : UInt8 → ℤ) (bufMaxLen : UInt8) (s : RxState) (r : ReadResult) : Option ℤ :=
  if s.i = 1 ∧ s.waitResponseHeaderStatus > 0 then none
  else
    match receiveRound charInt bufMaxLen s r with
    | .again _ => none
    | .ret _ => some (nextI s r - 2)

variable {charInt : UInt8 → ℤ} {bufMaxLen : UInt8} {s t : RxState} {r : ReadResult}

def dataStored (s : RxState) (r : ReadResult) : Buf :=
  s.buf.storeAt (r.byte?.getD 0) (dataIndex s r)

theorem receiveTail_eq (bufMaxLen : UInt8) (s : RxState) (r : ReadResult) :
    ∃ v, receiveTail bufMaxLen s r =
      if nextI s r < s.rxLen + 2 ∧ nextI s r < (bufMaxLen.toNat : ℤ) - 1 then
        .again { s with i := nextI s r, buf := dataStored s r }
      else .ret (v, (dataStored s r).store (nextI s r - 2) 0) := by
  have hstored (b : UInt8) : dataStored s (.byte b) =
      if s.i ≥ 2 then s.buf.store (s.i - 2) b else s.buf := by
    unfold dataStored dataIndex ReadResult.n
    by_cases hi : s.i ≥ 2
    · simp [hi, Buf.storeAt]
    · simp [hi, Buf.storeAt]
  unfold receiveTail
  cases r with
  | byte b =>
    refine ⟨if s.i + 1 = 0 then 0 else s.i + 1 - 2, ?_⟩
    rw [hstored]
    simp only [nextI, ReadResult.n, zero_lt_one, ↓reduceIte]
    split_ifs <;> simp_all
  | empty =>
    refine ⟨if s.i = 0 then 0 else s.i - 2, ?_⟩
    simp only [nextI, ReadResult.n, lt_irrefl, ↓reduceIte, dataStored, dataIndex, Buf.storeAt]
    split_ifs <;> simp_all
  | error =>
    refine ⟨-1, ?_⟩
    simp [nextI, ReadResult.n, dataStored, dataIndex, Buf.storeAt]

theorem receiveRound_status (hi : s.i = 1) (hw : s.waitResponseHeaderStatus > 0) (r : ReadResult) :
    ∃ v, receiveRound charInt bufMaxLen s r = .ret (v, s.buf) := by
  refine ⟨if r.c charInt = 0x01 then 0 else -1, ?_⟩
  unfold receiveRound
  simp only [hi, one_ne_zero, false_and, ↓reduceIte, hw]
  split_ifs <;> rfl

def nextRxLen (charInt : UInt8 → ℤ) (s : RxState) (r : ReadResult) : ℤ :=
  if s.i = 0 ∧ r.c charInt > 0 ∧ r.c charInt ≠ 0xbb then 1
  else if s.i = 1 then r.c charInt
  else s.rxLen

def GoesOn (charInt : UInt8 → ℤ) (bufMaxLen : UInt8) (s : RxState) (r : ReadResult) : Prop :=
  nextI s r < nextRxLen charInt s r + 2 ∧ nextI s r < (bufMaxLen.toNat : ℤ) - 1

theorem receiveRound_tail (h : ¬ (s.i = 1 ∧ s.waitResponseHeaderStatus > 0)) (r : ReadResult) :
    ∃ status, receiveRound charInt bufMaxLen s r = receiveTail bufMaxLen
      { s with rxLen := nextRxLen charInt s r, waitResponseHeaderStatus := status } r := by
  unfold receiveRound nextRxLen
  by_cases h0 : s.i = 0 ∧ r.c charInt > 0 ∧ r.c charInt ≠ 0xbb
  · exact ⟨r.c charInt, by simp only [h0, ne_eq, not_false_eq_true, and_self, ↓reduceIte]⟩
  · refine ⟨s.waitResponseHeaderStatus, ?_⟩
    simp only [if_neg h0]
    by_cases h1 : s.i = 1
    · have hw : ¬ s.waitResponseHeaderStatus > 0 := fun hw => h ⟨h1, hw⟩
      simp only [h1, hw, ↓reduceIte]
    · simp only [h1, ↓reduceIte]

theorem receiveRound_again (h : receiveRound charInt bufMaxLen s r = .again t) :
    GoesOn charInt bufMaxLen s r ∧ t.i = nextI s r ∧ t.rxLen = nextRxLen charInt s r ∧
      t.buf = dataStored s r := by
  by_cases hstatus : s.i = 1 ∧ s.waitResponseHeaderStatus > 0
  · obtain ⟨v, hv⟩ := receiveRound_status hstatus.1 hstatus.2 r
    cases hv.symm.trans h
  · obtain ⟨status, htail⟩ := receiveRound_tail hstatus r
    obtain ⟨v, hv⟩ := receiveTail_eq bufMaxLen
      { s with rxLen := nextRxLen charInt s r, waitResponseHeaderStatus := status } r
    have hround := h.symm.trans (htail.trans hv)
    by_cases hmore : GoesOn charInt bufMaxLen s r
    · obtain rfl := Flow.again.inj (hround.trans (if_pos hmore))
      exact ⟨hmore, rfl, rfl, rfl⟩
    · cases hround.trans (if_neg hmore)

theorem receiveRound_ret {out : ℤ × Buf} (h : receiveRound charInt bufMaxLen s r = .ret out) :
    out.2 = (dataStored s r).storeAt 0 (nulIndex charInt bufMaxLen s r) ∧
      ∀ j, nulIndex charInt bufMaxLen s r = some j →
        j = nextI s r - 2 ∧ ¬ GoesOn charInt bufMaxLen s r := by
  by_cases hstatus : s.i = 1 ∧ s.waitResponseHeaderStatus > 0
  · obtain ⟨v, hv⟩ := receiveRound_status hstatus.1 hstatus.2 r
    obtain rfl := Flow.ret.inj (hv.symm.trans h)
    have hdata : dataIndex s r = none := if_neg fun hd => by omega
    have hnul : nulIndex charInt bufMaxLen s r = none := if_pos hstatus
    rw [hnul, dataStored, hdata]
    exact ⟨rfl, fun j hj => by cases hj⟩
  · have hnul : nulIndex charInt bufMaxLen s r = some (nextI s r - 2) := by
      unfold nulIndex
      rw [if_neg hstatus, h]
    obtain ⟨status, htail⟩ := receiveRound_tail hstatus r
    obtain ⟨v, hv⟩ := receiveTail_eq bufMaxLen
      { s with rxLen := nextRxLen charInt s r, waitResponseHeaderStatus := status } r
    have hround := h.symm.trans (htail.trans hv)
    by_cases hmore : GoesOn charInt bufMaxLen s r
    · cases hround.trans (if_pos hmore)
    · obtain rfl := Flow.ret.inj (hround.trans (if_neg hmore))
      rw [hnul]
      exact ⟨rfl, fun j hj => ⟨(Option.some.inj hj).symm, hmore⟩⟩

/-- What holds whenever the loop goes round. -/
structure Receiving (bufMaxLen : UInt8) (s : RxState) : Prop where
  nonneg : 0 ≤ s.i
  room : s.i < (bufMaxLen.toNat : ℤ) - 1
  header : s.i = 0 → s.rxLen = 0

/-- Before the data section `rx_len` is not negative. -/
theorem Receiving.nextRxLen_nonneg (hs : Receiving bufMaxLen s) (hi : nextI s r < 2) :
    0 ≤ nextRxLen charInt s r := by
  unfold nextRxLen
  by_cases h0 : s.i = 0 ∧ r.c charInt > 0 ∧ r.c charInt ≠ 0xbb
  · rw [if_pos h0]
    exact zero_le_one
  · rw [if_neg h0]
    by_cases h1 : s.i = 1
    · have hr : r.byte? = none := by
        cases r with
        | byte b => simp [nextI, ReadResult.n, h1] at hi
        | _ => rfl
      rw [if_pos h1, ReadResult.c_of_nothing hr]
    · rw [if_neg h1, hs.header]
      have hnonneg := hs.nonneg
      unfold nextI at hi
      split_ifs at hi <;> omega

theorem nextI_le (s : RxState) (r : ReadResult) : s.i ≤ nextI s r ∧ nextI s r ≤ s.i + 1 := by
  unfold nextI
  split_ifs <;> omega

theorem receiving_start (hm : 3 ≤ bufMaxLen.toNat) (buf : Buf) :
    Receiving bufMaxLen ⟨0, 0, 0, buf⟩ where
  nonneg := le_rfl
  room := by dsimp only; omega
  header _ := rfl

theorem Receiving.step (hs : Receiving bufMaxLen s)
    (h : receiveRound charInt bufMaxLen s r = .again t) : Receiving bufMaxLen t := by
  obtain ⟨hmore, hi, hlen, -⟩ := receiveRound_again h
  have hle := nextI_le s r
  have hnonneg := hs.nonneg
  constructor
  · omega
  · rw [hi]
    exact hmore.2
  · intro h0
    have hs0 : s.i = 0 := by omega
    have hr : ¬ r.n > 0 := by
      intro hn
      rw [hi, nextI, if_pos hn] at h0
      omega
    have hc : r.c charInt = 0 := by
      cases r with
      | byte b => exact absurd Int.one_pos hr
      | _ => rfl
    rw [hlen, nextRxLen, hc, if_neg (by omega), if_neg (by omega), hs.header hs0]

theorem Receiving.dataIndex_bounds (hs : Receiving bufMaxLen s) {j : ℤ}
    (h : dataIndex s r = some j) : 0 ≤ j ∧ j ≤ (bufMaxLen.toNat : ℤ) - 3 := by
  have hroom := hs.room
  unfold dataIndex at h
  split_ifs at h with hd
  obtain rfl := Option.some.inj h
  omega

/-- The loop does not end before the data section. -/
theorem Receiving.nulIndex_bounds (hs : Receiving bufMaxLen s) (hm : 3 ≤ bufMaxLen.toNat) {j : ℤ}
    (h : nulIndex charInt bufMaxLen s r = some j) : 0 ≤ j ∧ j ≤ (bufMaxLen.toNat : ℤ) - 3 := by
  cases hround : receiveRound charInt bufMaxLen s r with
  | again t =>
    unfold nulIndex at h
    rw [hround] at h
    split_ifs at h
  | ret out =>
    obtain ⟨-, hend⟩ := receiveRound_ret hround
    obtain ⟨rfl, hmore⟩ := hend j h
    have hle := nextI_le s r
    have hroom := hs.room
    have hdata : 2 ≤ nextI s r := by
      by_contra hlt
      apply hmore
      have hlen : 0 ≤ nextRxLen charInt s r := hs.nextRxLen_nonneg (by omega)
      exact ⟨by omega, by omega⟩
    omega

theorem storeAt_other (buf : Buf) (b : UInt8) {k : Option ℤ} {j : ℤ} (h : k ≠ some j) :
    buf.storeAt b k j = buf j := by
  cases k with
  | none => rfl
  | some k => exact Buf.store_other _ (fun hj => h (by rw [hj])) _

theorem Receiving.dataStored_outside (hs : Receiving bufMaxLen s) (r : ReadResult) {j : ℤ}
    (hj : ¬ (0 ≤ j ∧ j ≤ (bufMaxLen.toNat : ℤ) - 3)) : dataStored s r j = s.buf j :=
  storeAt_other _ _ fun hd => hj (hs.dataIndex_bounds hd)

theorem rounds_outside (hm : 3 ≤ bufMaxLen.toNat) {buf : Buf} {rs : List ReadResult}
    (h : rounds (receiveRound charInt bufMaxLen) ⟨0, 0, 0, buf⟩ rs = some s) :
    Receiving bufMaxLen s ∧
      ∀ j, ¬ (0 ≤ j ∧ j ≤ (bufMaxLen.toNat : ℤ) - 3) → s.buf j = buf j := by
  have hround (s : RxState) (r : ReadResult) (t : RxState)
      (hs : Receiving bufMaxLen s ∧
        ∀ j, ¬ (0 ≤ j ∧ j ≤ (bufMaxLen.toNat : ℤ) - 3) → s.buf j = buf j)
      (h : receiveRound charInt bufMaxLen s r = .again t) :
      Receiving bufMaxLen t ∧
        ∀ j, ¬ (0 ≤ j ∧ j ≤ (bufMaxLen.toNat : ℤ) - 3) → t.buf j = buf j := by
    obtain ⟨-, -, -, ht⟩ := receiveRound_again h
    refine ⟨hs.1.step h, fun j hj => ?_⟩
    rw [ht, hs.1.dataStored_outside r hj, hs.2 j hj]
  have hstart : Receiving bufMaxLen ⟨0, 0, 0, buf⟩ ∧
      ∀ j, ¬ (0 ≤ j ∧ j ≤ (bufMaxLen.toNat : ℤ) - 3) → buf j = buf j :=
    ⟨receiving_start hm buf, fun _ _ => rfl⟩
  exact (rounds_invariant hround hstart h :)

theorem run_outside (hm : 3 ≤ bufMaxLen.toNat) {buf : Buf} {rs rest : List ReadResult}
    {out : ℤ × Buf} (h : run (receiveRound charInt bufMaxLen) ⟨0, 0, 0, buf⟩ rs = some (out, rest))
    {j : ℤ} (hj : ¬ (0 ≤ j ∧ j ≤ (bufMaxLen.toNat : ℤ) - 3)) : out.2 j = buf j := by
  obtain ⟨before, r, s, -, hbefore, hlast⟩ := exists_last_round h
  obtain ⟨hinv, hbuf⟩ := rounds_outside hm hbefore
  rw [(receiveRound_ret hlast).1, storeAt_other _ _ fun hn => hj (hinv.nulIndex_bounds hm hn),
    hinv.dataStored_outside r hj, hbuf j hj]

/-- Whatever comes, each round of `receive_buf` stores at these two indices and nowhere else,
both are inside the buffer, and what lies outside is as it was when the call returns. -/
theorem stores_in_bounds (charInt : UInt8 → ℤ) (bufMaxLen : UInt8) (hm : 3 ≤ bufMaxLen.toNat)
    (buf : Buf) (rs : List ReadResult) (s : RxState)
    (hs : rounds (receiveRound charInt bufMaxLen) ⟨0, 0, 0, buf⟩ rs = some s) (r : ReadResult) :
    (∀ t, receiveRound charInt bufMaxLen s r = .again t →
      t.buf = s.buf.storeAt (r.byte?.getD 0) (dataIndex s r)) ∧
    (∀ out, receiveRound charInt bufMaxLen s r = .ret out →
      out.2 = (s.buf.storeAt (r.byte?.getD 0) (dataIndex s r)).storeAt 0
        (nulIndex charInt bufMaxLen s r)) ∧
    (∀ j, dataIndex s r = some j → 0 ≤ j ∧ j ≤ (bufMaxLen.toNat : ℤ) - 3) ∧
    (∀ j, nulIndex charInt bufMaxLen s r = some j → 0 ≤ j ∧ j ≤ (bufMaxLen.toNat : ℤ) - 3) ∧
    ∀ rs out rest, run (receiveRound charInt bufMaxLen) ⟨0, 0, 0, buf⟩ rs = some (out, rest) →
      ∀ j, ¬ (0 ≤ j ∧ j ≤ (bufMaxLen.toNat : ℤ) - 3) → out.2 j = buf j := by
  obtain ⟨hinv, -⟩ := rounds_outside hm hs
  exact ⟨fun t ht => (receiveRound_again ht).2.2.2, fun out hout => (receiveRound_ret hout).1,
    fun _ => hinv.dataIndex_bounds, fun _ => hinv.nulIndex_bounds hm,
    fun _ _ _ hrun _ => run_outside hm hrun⟩

theorem stores_in_bounds_smallest :
    (∀ j, dataIndex ⟨1, 0, 0, fun _ => 0⟩ (.byte 5) = some j → 0 ≤ j ∧ j ≤ (3 : ℤ) - 3) ∧
    ∀ j, nulIndex schar 3 ⟨1, 0, 0, fun _ => 0⟩ (.byte 5) = some j →
      0 ≤ j ∧ j ≤ (3 : ℤ) - 3 := by
  obtain ⟨-, -, hdata, hnul, -⟩ := stores_in_bounds schar 3 (by decide) (fun _ => 0)
    [.byte 0xbb] ⟨1, 0, 0, fun _ => 0⟩ rfl (.byte 5)
  exact ⟨hdata, hnul⟩

end RpiUart

end CmaesSolenoid

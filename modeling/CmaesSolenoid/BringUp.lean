import CmaesSolenoid.Bno055Uart

/-!
# Bring-up of the sensor

`start`, `hw_reset` and `awake` chain about a dozen transactions that are checked
in three different ways. A `BringUp` names the exchanges of a successful run.
-/

namespace CmaesSolenoid
open PartialState RpiUart Bno055Uart Bno055

/-- The exchanges of a `start` in the order they take place. -/
structure BringUp where
  page : Exchange
  chip : Exchange
  acc : Exchange
  mag : Exchange
  gyr : Exchange
  reset : Exchange
  polls : List Exchange
  pwr : Exchange
  pageAgain : Exchange
  trigger : Exchange
  mode : Exchange

namespace BringUp

def exchanges (t : BringUp) : List Exchange :=
  [t.page, t.chip, t.acc, t.mag, t.gyr, t.reset] ++ t.polls ++
    [t.pwr, t.pageAgain, t.trigger, t.mode]

structure Issued (t : BringUp) : Prop where
  page : t.page.frame = writeFrame pageId page0
  chip : t.chip.frame = readFrame regChipId 1
  acc : t.acc.frame = readFrame regAccId 1
  mag : t.mag.frame = readFrame regMagId 1
  gyr : t.gyr.frame = readFrame regGyrId 1
  reset : t.reset.frame = writeFrame sysTrigger sysTrigRst
  polls : ∀ e ∈ t.polls, e.frame = readFrame regChipId 1
  pwr : t.pwr.frame = writeFrame pwrMode powerModeNormal
  pageAgain : t.pageAgain.frame = writeFrame pageId page0
  trigger : t.trigger.frame = writeFrame sysTrigger 0x0
  mode : t.mode.frame = writeFrame oprMode operationModeNdof

/-- Apart from the reset, every command went out whole. -/
def SentInFull (t : BringUp) : Prop :=
  ∀ e ∈ [t.page, t.chip, t.acc, t.mag, t.gyr] ++ t.polls ++
    [t.pwr, t.pageAgain, t.trigger, t.mode], e.InFull

def Acknowledged (t : BringUp) : Prop :=
  ∀ e ∈ [t.page, t.pwr, t.pageAgain, t.trigger, t.mode], e.replyBytes = [0xee, 0x01]

structure IdsRead (t : BringUp) : Prop where
  chip : t.chip.replyBytes = [0xbb, 0x01, regChipIdVal]
  acc : t.acc.replyBytes = [0xbb, 0x01, regAccIdVal]
  mag : t.mag.replyBytes = [0xbb, 0x01, regMagIdVal]
  gyr : t.gyr.replyBytes = [0xbb, 0x01, regGyrIdVal]

def NotRefused (e : Exchange) : Prop :=
  e.Ended (some (.status (.byte 0x01))) ∨ ∃ ds, e.Ended (some (.data ds))

def ReadId (id : UInt8) (e : Exchange) : Prop := ∃ ds, e.Ended (some (.data (id :: ds)))

def Misses (id : UInt8) (e : Exchange) : Prop :=
  ∃ o, e.Ended o ∧ ∀ ds, o ≠ some (.data (id :: ds))

/-- What `start` tests. Only the operation mode has to be answered by 0, which an
acknowledgement and an empty data reply both give. -/
structure Checked (t : BringUp) : Prop where
  configured : ∀ e ∈ [t.page, t.pwr, t.pageAgain, t.trigger], NotRefused e
  chip : ReadId regChipIdVal t.chip
  acc : ReadId regAccIdVal t.acc
  mag : ReadId regMagIdVal t.mag
  gyr : ReadId regGyrIdVal t.gyr
  reset : ∃ o, t.reset.Ended o
  polled : ∃ tries last, t.polls = tries ++ [last] ∧ ReadId regChipIdVal last ∧
    ∀ e ∈ tries, Misses regChipIdVal e
  mode : t.mode.Ended (some (.status (.byte 0x01))) ∨ t.mode.Ended (some (.data []))

/-- What comes over the line of `p` after `init_port`, cut into the exchanges of `t`. -/
structure Supplied (p : Port) (t : BringUp) : Prop where
  isOpen : p.isOpen = true
  uartOpen : p.uartOpen = true
  reads : t.exchanges.flatMap Exchange.reply <+: p.reads.drop 100
  writes : t.exchanges.map Exchange.written <+: p.writes

/-- No command is cut short, and each reply starts as its command asks. -/
structure Orderly (t : BringUp) : Prop where
  sent : t.SentInFull
  configured : ∀ e ∈ [t.page, t.pwr, t.pageAgain, t.trigger, t.mode],
    e.replyBytes.head? = some 0xee
  ids : ∀ e ∈ [t.chip, t.acc, t.mag, t.gyr], e.replyBytes.take 2 = [0xbb, 0x01]

end BringUp

open BringUp

theorem Exchange.Ended.data_bytes {e : Exchange} {ds : List UInt8}
    (h : e.Ended (some (.data ds))) : ∃ header len, (header = 0 ∨ header = 0xbb) ∧
      ds.length = min len.toNat 252 ∧ e.replyBytes = header :: len :: ds := by
  cases h with
  | answered _ ha => exact ha.data_bytes

theorem Exchange.Ended.status_bytes {e : Exchange} {r : ReadResult}
    (h : e.Ended (some (.status r))) : ∃ header, e.replyBytes = header :: r.byte?.toList := by
  cases h with
  | answered _ ha =>
    obtain ⟨header, -, -, hbytes⟩ := ha.status_bytes
    exact ⟨header, hbytes⟩

theorem BringUp.NotRefused.acknowledged {e : Exchange} (h : NotRefused e)
    (hhead : e.replyBytes.head? = some 0xee) : e.replyBytes = [0xee, 0x01] := by
  rcases h with h | ⟨ds, h⟩
  · obtain ⟨header, hbytes⟩ := h.status_bytes
    rw [hbytes] at hhead ⊢
    exact congrArg (· :: [0x01]) (Option.some.inj hhead)
  · obtain ⟨header, len, hheader, -, hbytes⟩ := h.data_bytes
    rw [hbytes] at hhead
    obtain rfl : header = 0xee := Option.some.inj hhead
    exact absurd hheader (by decide)

theorem BringUp.ReadId.bytes {id : UInt8} {e : Exchange} (h : ReadId id e)
    (htake : e.replyBytes.take 2 = [0xbb, 0x01]) : e.replyBytes = [0xbb, 0x01, id] := by
  obtain ⟨ds, h⟩ := h
  obtain ⟨header, len, -, hlen, hbytes⟩ := h.data_bytes
  rw [hbytes] at htake ⊢
  obtain ⟨rfl, rfl⟩ : header = 0xbb ∧ len = 0x01 := by simpa using htake
  obtain rfl : ds = [] := by simpa using hlen
  rfl

theorem BringUp.Orderly.configured_of_checked {t : BringUp} (h : t.Orderly) (hc : t.Checked) :
    t.SentInFull ∧ t.Acknowledged ∧ t.IdsRead := by
  have hmode : NotRefused t.mode := hc.mode.imp_right fun h => ⟨[], h⟩
  have hnr : ∀ e ∈ [t.page, t.pwr, t.pageAgain, t.trigger, t.mode], NotRefused e := by
    have hconfigured := hc.configured
    simp only [List.forall_mem_cons] at hconfigured ⊢
    tauto
  exact ⟨h.sent, fun e he => (hnr e he).acknowledged (h.configured e he),
    ⟨hc.chip.bytes (h.ids _ (by simp)), hc.acc.bytes (h.ids _ (by simp)),
      hc.mag.bytes (h.ids _ (by simp)), hc.gyr.bytes (h.ids _ (by simp))⟩⟩

theorem BringUp.orderly_of_configured {t : BringUp} (hsent : t.SentInFull)
    (hack : t.Acknowledged) (hids : t.IdsRead) : t.Orderly where
  sent := hsent
  configured := fun e he => by
    rw [hack e he]
    rfl
  ids := by simp [hids.chip, hids.acc, hids.mag, hids.gyr]

theorem BringUp.Supplied.exchanged {p : Port} {t : BringUp} (h : t.Supplied p) :
    ∃ p', (p.withReads (p.reads.drop 100)).Exchanged t.exchanges p' := by
  obtain ⟨reads, hreads⟩ := h.reads
  obtain ⟨writes, hwrites⟩ := h.writes
  exact ⟨{ p with reads := reads, writes := writes, exchanges := p.exchanges ++ t.exchanges },
    hreads.symm, hwrites.symm, rfl, rfl, rfl, rfl⟩

theorem BringUp.exchanges_inj {t u : BringUp} (h : t.exchanges = u.exchanges) : t = u := by
  rw [exchanges, exchanges] at h
  obtain ⟨h, hlast⟩ := List.append_inj' h rfl
  obtain ⟨hfirst, hpolls⟩ := List.append_inj h rfl
  cases t
  cases u
  simp_all

theorem answer_of_result {o : Option Answer} (hv : ¬ Answer.result o < 0) :
    o = some (.status (.byte 0x01)) ∨ ∃ ds, o = some (.data ds) := by
  match o with
  | none => simp [Answer.result] at hv
  | some (.data ds) => exact .inr ⟨ds, rfl⟩
  | some (.status r) =>
    left
    by_contra hr
    exact hv ((Answer.value_neg_iff _).mpr ⟨r, rfl, by rintro rfl; exact hr rfl⟩)

theorem notRefused_of_result {e : Exchange} {o : Option Answer} (h : e.Ended o)
    (hv : ¬ Answer.result o < 0) : NotRefused e := by
  rcases answer_of_result hv with rfl | ⟨ds, rfl⟩
  · exact .inl h
  · exact .inr ⟨ds, h⟩

namespace Bno055Uart

theorem writeRegister_closed {p : Port} (hi : p.isOpen = true) (ho : p.uartOpen = false)
    (reg value : ℤ) : writeRegister reg value p = some (-1, p) := by
  rw [writeRegister, guard_isOpen hi, bind_get, bind_of_eq (transact_unopened ho _ _)]
  rfl

theorem writeRegister_notRefused {p p' : Port} (hi : p.isOpen = true) (ho : p.uartOpen = true)
    {reg value n : ℤ} (h : writeRegister reg value p = some (n, p')) (hn : ¬ n < 0) :
    ∃ e, e.frame = writeFrame reg value ∧ p.Exchanged [e] p' ∧ NotRefused e := by
  obtain ⟨e, o, hf, he, hex, rfl⟩ := (writeRegister_iff hi ho).mp h
  exact ⟨e, hf, hex, notRefused_of_result he hn⟩

/-- Only a value of 0 lets `awake` through. -/
theorem writeRegister_zero {p p' : Port} (hi : p.isOpen = true) (ho : p.uartOpen = true)
    {reg value : ℤ} (h : writeRegister reg value p = some (0, p')) :
    ∃ e, e.frame = writeFrame reg value ∧ p.Exchanged [e] p' ∧
      (e.Ended (some (.status (.byte 0x01))) ∨ e.Ended (some (.data []))) := by
  obtain ⟨e, o, hf, he, hex, hv⟩ := (writeRegister_iff hi ho).mp h
  refine ⟨e, hf, hex, ?_⟩
  rcases answer_of_result (by omega : ¬ Answer.result o < 0) with rfl | ⟨ds, rfl⟩
  · exact .inl he
  · obtain rfl : ds = [] := by simpa [Answer.result, Answer.value] using hv.symm
    exact .inr he

def polledValue (value : UInt8) (o : Option Answer) : UInt8 :=
  if (readOutcome value o).1 < 0 then UInt8.ofInt (readOutcome value o).1
  else (readOutcome value o).2

theorem readValueFromRegister_iff {p p' : Port} (hi : p.isOpen = true) (ho : p.uartOpen = true)
    {reg : ℤ} {v : UInt8} :
    readValueFromRegister reg p = some (v, p') ↔
      ∃ e o, e.frame = readFrame reg 1 ∧ e.Ended o ∧ p.Exchanged [e] p' ∧
        v = polledValue (p.stack 0) o := by
  have hafter (o : Option Answer) (t : Port) :
      (if (readOutcome (p.stack 0) o).1 < 0 then pure (UInt8.ofInt (readOutcome (p.stack 0) o).1)
        else pure (readOutcome (p.stack 0) o).2 : Run UInt8) t =
      some (polledValue (p.stack 0) o, t) := by
    rw [polledValue]
    split_ifs <;> rfl
  rw [readValueFromRegister, bind_get, bind_eq_some]
  constructor
  · rintro ⟨out, t, hread, h⟩
    obtain ⟨e, o, hf, he, hex, rfl⟩ := (readRegister_iff hi ho).mp hread
    obtain ⟨rfl, rfl⟩ : polledValue (p.stack 0) o = v ∧ t = p' := by
      simpa using (hafter o t).symm.trans h
    exact ⟨e, o, hf, he, hex, rfl⟩
  · rintro ⟨e, o, hf, he, hex, rfl⟩
    exact ⟨_, p', (readRegister_iff hi ho).mpr ⟨e, o, hf, he, hex, rfl⟩, hafter o p'⟩

theorem result_of_neg {o : Option Answer} (h : Answer.result o < 0) : Answer.result o = -1 := by
  match o with
  | none => rfl
  | some (.data ds) =>
    rw [Answer.result, Answer.value] at h
    omega
  | some (.status r) =>
    rw [Answer.result, Answer.value] at h ⊢
    split_ifs at h ⊢
    · omega
    · rfl

/-- A failed read is seen as 255, so the chip id is only found in data. -/
theorem polledValue_eq_chipId {value : UInt8} {o : Option Answer} :
    polledValue value o = regChipIdVal ↔ ∃ ds, o = some (.data (regChipIdVal :: ds)) := by
  constructor
  · intro h
    rw [polledValue, readOutcome] at h
    by_cases hneg : Answer.result o < 0
    · rw [if_pos hneg, if_pos hneg, result_of_neg hneg] at h
      exact absurd (show UInt8.ofInt (-1) = regChipIdVal from h) (by decide)
    · rw [if_neg hneg, if_neg (lt_irrefl _)] at h
      exact firstByte_expected h (by decide) (by decide)
  · rintro ⟨ds, rfl⟩
    rw [polledValue, readOutcome_of_nonneg value (Int.natCast_nonneg _), if_neg (lt_irrefl _)]
    rfl

/-- The loop of `hw_reset` ends with a read of the chip id; the tries before it may have
ended in any other way, a failed `write` included. -/
theorem waitChipId_eq_some {k : ℕ} {p p' : Port} (hi : p.isOpen = true)
    (ho : p.uartOpen = true) (h : waitChipId k p = some ((), p')) :
    ∃ tries last, p.Exchanged (tries ++ [last]) p' ∧ ReadId regChipIdVal last ∧
      (∀ e ∈ tries, Misses regChipIdVal e) ∧
      ∀ e ∈ tries ++ [last], e.frame = readFrame regChipId 1 := by
  induction k generalizing p with
  | zero => simp [waitChipId] at h
  | succ k ih =>
    rw [waitChipId, bind_eq_some] at h
    obtain ⟨v, t, hread, h⟩ := h
    obtain ⟨e, o, hf, he, hex, rfl⟩ := (readValueFromRegister_iff hi ho).mp hread
    rw [ite_at] at h
    by_cases hid : polledValue (p.stack 0) o = regChipIdVal
    · rw [if_neg (not_not.mpr hid)] at h
      obtain ⟨-, rfl⟩ := pure_eq_some.mp h
      obtain ⟨ds, rfl⟩ := polledValue_eq_chipId.mp hid
      -- no try before this one
      exact ⟨[], e, hex, ⟨ds, he⟩, by simp, by simpa using hf⟩
    · rw [if_pos hid] at h
      obtain ⟨tries, last, hexs, hlast, hmisses, hframes⟩ :=
        ih (hex.isOpen.trans hi) (hex.uartOpen.trans ho) h
      have hmiss : Misses regChipIdVal e :=
        ⟨o, he, fun ds hds => hid (polledValue_eq_chipId.mpr ⟨ds, hds⟩)⟩
      exact ⟨e :: tries, last, hex.trans hexs, hlast, List.forall_mem_cons.mpr ⟨hmiss, hmisses⟩,
        List.forall_mem_cons.mpr ⟨hf, hframes⟩⟩

theorem waitChipId_polls {k : ℕ} {p p' : Port} {tries : List Exchange} {last : Exchange}
    (hk : tries.length < k) (hi : p.isOpen = true) (ho : p.uartOpen = true)
    (hex : p.Exchanged (tries ++ [last]) p') (hlast : ReadId regChipIdVal last)
    (hmisses : ∀ e ∈ tries, Misses regChipIdVal e)
    (hframes : ∀ e ∈ tries ++ [last], e.frame = readFrame regChipId 1) :
    waitChipId k p = some ((), p') := by
  induction tries generalizing k p with
  | nil =>
    obtain ⟨k, rfl⟩ := Nat.exists_eq_succ_of_ne_zero (Nat.ne_of_gt hk)
    obtain ⟨ds, he⟩ := hlast
    have hread := (readValueFromRegister_iff hi ho).mpr
      ⟨last, _, hframes last (List.mem_singleton_self _), he, hex, rfl⟩
    rw [waitChipId, bind_of_eq hread, ite_at,
      if_neg (not_not.mpr (polledValue_eq_chipId.mpr ⟨ds, rfl⟩)), pure_apply]
  | cons e tries ih =>
    obtain ⟨k, rfl⟩ := Nat.exists_eq_succ_of_ne_zero (Nat.ne_of_gt (Nat.zero_lt_of_lt hk))
    obtain ⟨⟨o, he, hmiss⟩, hmisses⟩ := List.forall_mem_cons.mp hmisses
    obtain ⟨hf, hframes⟩ := List.forall_mem_cons.mp hframes
    rw [← List.singleton_append, List.append_assoc] at hex
    obtain ⟨t, hex, ⟨hi', ho'⟩, hexs⟩ := hex.split hi ho
    have hread := (readValueFromRegister_iff hi ho).mpr ⟨e, o, hf, he, hex, rfl⟩
    have hid : polledValue (p.stack 0) o ≠ regChipIdVal := fun h => by
      obtain ⟨ds, hds⟩ := polledValue_eq_chipId.mp h
      exact hmiss ds hds
    rw [waitChipId, bind_of_eq hread, ite_at, if_pos hid]
    exact ih (Nat.lt_of_succ_lt_succ hk) hi' ho' hexs hmisses hframes

/-- Each round on an open port uses up a `write` result, so the bound of `hwReset` is
never what ends the loop. -/
theorem waitChipId_stable {k : ℕ} {p : Port} (hi : p.isOpen = true) (ho : p.uartOpen = true)
    (hk : p.writes.length < k) : waitChipId k p = waitChipId (k + 1) p := by
  induction k generalizing p with
  | zero => omega
  | succ k ih =>
    rw [waitChipId, waitChipId, bind_apply, bind_apply]
    cases hread : readValueFromRegister regChipId p with
    | none => rfl
    | some out =>
      obtain ⟨v, t⟩ := out
      obtain ⟨e, o, -, -, hex, -⟩ := (readValueFromRegister_iff hi ho).mp hread
      have hlen : p.writes.length = t.writes.length + 1 := by
        rw [hex.writes]
        simp
      rw [Option.bind_some, Option.bind_some]
      dsimp only
      rw [ite_at, ite_at, ih (hex.isOpen.trans hi) (hex.uartOpen.trans ho) (by omega)]

theorem readBytes_eq_some {k : ℕ} {p p' : Port} (h : readBytes k p = some ((), p')) :
    p' = p.withReads (p.reads.drop k) := by
  induction k generalizing p with
  | zero => exact (pure_eq_some.mp h).2.symm
  | succ k ih =>
    rw [readBytes, bind_eq_some] at h
    obtain ⟨b, t, hb, h⟩ := h
    have ht : t = p.withReads p.reads.tail := by
      rw [readByte] at hb
      split at hb
      · simp at hb
      · rename_i r rs hr
        rw [hr]
        cases r <;> simpa [Port.withReads] using (Prod.mk.inj (Option.some.inj hb)).2.symm
    rw [ih h, ht]
    simp [Port.withReads]

/-- `init_port` throws away a hundred read results and always succeeds. -/
theorem initPort_eq_some {p p' : Port} {n : ℤ} (h : initPort p = some (n, p')) :
    n = 0 ∧ p' = p.withReads (p.reads.drop 100) := by
  obtain ⟨_, t, h1, h⟩ := bind_eq_some.mp h
  obtain ⟨-, rfl⟩ := pure_eq_some.mp h1
  obtain ⟨⟨⟩, t', h2, h⟩ := bind_eq_some.mp h
  obtain ⟨_, t'', h3, h⟩ := bind_eq_some.mp h
  obtain ⟨-, rfl⟩ := pure_eq_some.mp h3
  obtain ⟨rfl, rfl⟩ := pure_eq_some.mp h
  exact ⟨rfl, readBytes_eq_some h2⟩

theorem readBytes_of_le {k : ℕ} {p : Port} (h : k ≤ p.reads.length) :
    ∃ p', readBytes k p = some ((), p') := by
  induction k generalizing p with
  | zero => exact ⟨p, rfl⟩
  | succ k ih =>
    obtain ⟨r, rs, hr⟩ := List.exists_cons_of_length_pos (Nat.lt_of_lt_of_le k.succ_pos h)
    rw [hr, List.length_cons] at h
    have hbyte : ∃ b, readByte p = some (b, p.withReads rs) := by
      rw [readByte, hr]
      cases r <;> exact ⟨_, rfl⟩
    obtain ⟨b, hb⟩ := hbyte
    rw [readBytes, bind_of_eq hb]
    exact ih (Nat.le_of_succ_le_succ h)

theorem initPort_of_le {p : Port} (h : 100 ≤ p.reads.length) :
    initPort p = some (0, p.withReads (p.reads.drop 100)) := by
  obtain ⟨p', hread⟩ := readBytes_of_le h
  rw [← readBytes_eq_some hread, initPort, flushDataBuffers, bind_of_eq (pure_apply _ _),
    bind_of_eq hread, bind_of_eq (pure_apply _ _), pure_apply]

theorem writeRegister_guard {p p' : Port} (hi : p.isOpen = true) (ho : p.uartOpen = true)
    {reg value : ℤ} {k : ℤ → Run ℤ}
    (h : (writeRegister reg value >>= fun n => if n < 0 then pure n else k n) p = some (0, p')) :
    ∃ e n t, e.frame = writeFrame reg value ∧ p.Exchanged [e] t ∧ NotRefused e ∧
      k n t = some (0, p') := by
  obtain ⟨n, t, hw, hn, hk⟩ := bind_guard h (by intro a ha; omega)
  obtain ⟨e, hf, hex, hnr⟩ := writeRegister_notRefused hi ho hw hn
  exact ⟨e, n, t, hf, hex, hnr, hk⟩

theorem readRegister_guard {p p' : Port} (hi : p.isOpen = true) (ho : p.uartOpen = true)
    {reg : ℤ} {value : UInt8} {k : ℤ × UInt8 → Run ℤ}
    (h : (readRegister reg value >>= fun out =>
      if out.1 ≠ 0 then pure (-1) else k out) p = some (0, p')) :
    ∃ e id t, e.frame = readFrame reg 1 ∧ p.Exchanged [e] t ∧
      (id ≠ 0xaa → id ≠ 0 → ReadId id e) ∧ k (0, id) t = some (0, p') := by
  obtain ⟨⟨n, id⟩, t, hr, hn, hk⟩ := bind_guard h (by simp)
  obtain rfl : n = 0 := not_not.mp hn
  obtain ⟨e, o, hf, he, hex, hout⟩ := (readRegister_iff hi ho).mp hr
  refine ⟨e, id, t, hf, hex, fun haa h0 => ?_, hk⟩
  obtain ⟨a, rfl, -, hid⟩ := readOutcome_zero hout.symm
  obtain ⟨ds, hdata⟩ := firstByte_expected hid.symm haa h0
  exact ⟨ds, hdata ▸ he⟩

theorem readId_of_eq {e : Exchange} {value id : UInt8} (h : id ≠ 0xaa → id ≠ 0 → ReadId id e)
    (heq : value = id) (haa : value ≠ 0xaa) (h0 : value ≠ 0) : ReadId value e := by
  rw [heq] at haa h0 ⊢
  exact h haa h0

theorem writeRegister_pass {p t : Port} (hi : p.isOpen = true) (ho : p.uartOpen = true)
    {reg value : ℤ} {e : Exchange} {k : Run ℤ} (hf : e.frame = writeFrame reg value)
    (h : NotRefused e) (hex : p.Exchanged [e] t) :
    (writeRegister reg value >>= fun n => if n < 0 then pure n else k) p = k t := by
  obtain ⟨o, he, hn⟩ : ∃ o, e.Ended o ∧ ¬ Answer.result o < 0 := by
    rcases h with he | ⟨ds, he⟩
    · exact ⟨_, he, by decide⟩
    · exact ⟨_, he, not_lt.mpr (Int.natCast_nonneg _)⟩
  rw [bind_of_eq ((writeRegister_iff hi ho).mpr ⟨e, o, hf, he, hex, rfl⟩), ite_at, if_neg hn]

theorem readRegister_pass {p t : Port} (hi : p.isOpen = true) (ho : p.uartOpen = true)
    {reg : ℤ} {value id : UInt8} {e : Exchange} {k : ℤ × UInt8 → Run ℤ}
    (hf : e.frame = readFrame reg 1) (h : ReadId id e) (hex : p.Exchanged [e] t) :
    (readRegister reg value >>= fun out =>
      if out.1 ≠ 0 then pure (-1) else k out) p = k (0, id) t := by
  obtain ⟨ds, he⟩ := h
  have hread := (readRegister_iff hi ho).mpr ⟨e, _, hf, he, hex,
    (readOutcome_of_nonneg value (Int.natCast_nonneg _)).symm⟩
  rw [bind_of_eq hread, ite_at, if_neg (not_not.mpr rfl)]
  rfl

theorem hwReset_zero {p p' : Port} (hi : p.isOpen = true) (ho : p.uartOpen = true)
    (h : hwReset p = some (0, p')) :
    ∃ reset tries last pwr page trigger,
      p.Exchanged (reset :: (tries ++ [last]) ++ [pwr, page, trigger]) p' ∧
      (reset.frame = writeFrame sysTrigger sysTrigRst ∧ ∃ o, reset.Ended o) ∧
      (∀ e ∈ tries ++ [last], e.frame = readFrame regChipId 1) ∧
      (ReadId regChipIdVal last ∧ ∀ e ∈ tries, Misses regChipIdVal e) ∧
      (pwr.frame = writeFrame pwrMode powerModeNormal ∧ NotRefused pwr) ∧
      (page.frame = writeFrame pageId page0 ∧ NotRefused page) ∧
      (trigger.frame = writeFrame sysTrigger 0x0 ∧ NotRefused trigger) := by
  obtain ⟨n, t1, hreset, h⟩ := bind_eq_some.mp h
  obtain ⟨reset, o, hfr, hended, hex1, -⟩ := (writeRegister_iff hi ho).mp hreset
  rw [bind_get] at h
  obtain ⟨⟨⟩, t2, hwait, h⟩ := bind_eq_some.mp h
  obtain ⟨tries, last, hex2, hlast, hmisses, hframes⟩ :=
    waitChipId_eq_some (hex1.isOpen.trans hi) (hex1.uartOpen.trans ho) hwait
  have hex := hex1.trans hex2
  obtain ⟨pwr, _, t3, hfp, hex3, hpwr, h⟩ :=
    writeRegister_guard (hex.isOpen.trans hi) (hex.uartOpen.trans ho) h
  replace hex := hex.trans hex3
  obtain ⟨page, _, t4, hfg, hex4, hpage, h⟩ :=
    writeRegister_guard (hex.isOpen.trans hi) (hex.uartOpen.trans ho) h
  replace hex := hex.trans hex4
  obtain ⟨trigger, _, t5, hft, hex5, htrig, h⟩ :=
    writeRegister_guard (hex.isOpen.trans hi) (hex.uartOpen.trans ho) h
  replace hex := hex.trans hex5
  obtain ⟨-, rfl⟩ := pure_eq_some.mp h
  exact ⟨reset, tries, last, pwr, page, trigger, by simpa using hex, ⟨hfr, o, hended⟩, hframes,
    ⟨hlast, hmisses⟩, ⟨hfp, hpwr⟩, ⟨hfg, hpage⟩, ⟨hft, htrig⟩⟩

theorem readIds_guard {p p' : Port} (hi : p.isOpen = true) (ho : p.uartOpen = true)
    {uninit : UInt8} {k : Run ℤ}
    (h : (do
      let (n, chipId) ← readRegister regChipId uninit
      if n ≠ 0 then return -1
      let (n, accId) ← readRegister regAccId uninit
      if n ≠ 0 then return -1
      let (n, magId) ← readRegister regMagId uninit
      if n ≠ 0 then return -1
      let (n, gyrId) ← readRegister regGyrId uninit
      if n ≠ 0 then return -1
      if regChipIdVal ≠ chipId ∨ regAccIdVal ≠ accId ∨ regMagIdVal ≠ magId ∨
          regGyrIdVal ≠ gyrId then
        return -1
      k : Run ℤ) p = some (0, p')) :
    ∃ chip acc mag gyr t, p.Exchanged [chip, acc, mag, gyr] t ∧
      (chip.frame = readFrame regChipId 1 ∧ ReadId regChipIdVal chip) ∧
      (acc.frame = readFrame regAccId 1 ∧ ReadId regAccIdVal acc) ∧
      (mag.frame = readFrame regMagId 1 ∧ ReadId regMagIdVal mag) ∧
      (gyr.frame = readFrame regGyrId 1 ∧ ReadId regGyrIdVal gyr) ∧ k t = some (0, p') := by
  obtain ⟨chip, chipId, t1, hfchip, hex, hchip, h⟩ := readRegister_guard hi ho h
  obtain ⟨acc, accId, t2, hfacc, hex2, hacc, h⟩ :=
    readRegister_guard (hex.isOpen.trans hi) (hex.uartOpen.trans ho) h
  replace hex := hex.trans hex2
  obtain ⟨mag, magId, t3, hfmag, hex3, hmag, h⟩ :=
    readRegister_guard (hex.isOpen.trans hi) (hex.uartOpen.trans ho) h
  replace hex := hex.trans hex3
  obtain ⟨gyr, gyrId, t4, hfgyr, hex4, hgyr, h⟩ :=
    readRegister_guard (hex.isOpen.trans hi) (hex.uartOpen.trans ho) h
  replace hex := hex.trans hex4
  rw [ite_at] at h
  by_cases hids : regChipIdVal ≠ chipId ∨ regAccIdVal ≠ accId ∨ regMagIdVal ≠ magId ∨
      regGyrIdVal ≠ gyrId
  · rw [if_pos hids] at h
    exact absurd (pure_eq_some.mp h).1 (by decide)
  rw [if_neg hids] at h
  simp only [ne_eq, not_or, not_not] at hids
  obtain ⟨hchipId, haccId, hmagId, hgyrId⟩ := hids
  exact ⟨chip, acc, mag, gyr, t4, hex,
    ⟨hfchip, readId_of_eq hchip hchipId (by decide) (by decide)⟩,
    ⟨hfacc, readId_of_eq hacc haccId (by decide) (by decide)⟩,
    ⟨hfmag, readId_of_eq hmag hmagId (by decide) (by decide)⟩,
    ⟨hfgyr, readId_of_eq hgyr hgyrId (by decide) (by decide)⟩, h⟩

theorem start_checked {p p' : Port} (h : start p = some (0, p')) :
    (p.isOpen = true ∧ p.uartOpen = true) ∧ ∃ t : BringUp,
      (p.withReads (p.reads.drop 100)).Exchanged t.exchanges p' ∧ t.Issued ∧ t.Checked := by
  by_cases hi : p.isOpen = true
  swap
  · rw [start, guard_closed (by simpa using hi)] at h
    cases h
  rw [start, guard_isOpen hi] at h
  obtain ⟨n, t0, hinit, -, h⟩ := bind_guard h (by intro a ha; omega)
  obtain ⟨rfl, rfl⟩ := initPort_eq_some hinit
  generalize hp0 : p.withReads (p.reads.drop 100) = p0 at h ⊢
  have hopen : p.isOpen = p0.isOpen ∧ p.uartOpen = p0.uartOpen := by
    rw [← hp0]
    exact ⟨rfl, rfl⟩
  rw [hopen.1] at hi
  -- on a closed `rpi_uart` the first command would already have failed
  have ho : p0.uartOpen = true := by
    by_contra hclosed
    obtain ⟨n, t, hw, hn, -⟩ := bind_guard h (by intro a ha; omega)
    rw [writeRegister_closed hi (by simpa using hclosed)] at hw
    obtain ⟨rfl, -⟩ := Prod.mk.inj (Option.some.inj hw)
    omega
  refine ⟨⟨hopen.1.trans hi, hopen.2.trans ho⟩, ?_⟩
  obtain ⟨page, _, t1, hfpage, hex1, hpage, h⟩ := writeRegister_guard hi ho h
  rw [bind_get] at h
  obtain ⟨chip, acc, mag, gyr, t2, hex2, ⟨hfchip, hchip⟩, ⟨hfacc, hacc⟩, ⟨hfmag, hmag⟩,
    ⟨hfgyr, hgyr⟩, h⟩ := readIds_guard (hex1.isOpen.trans hi) (hex1.uartOpen.trans ho) h
  have hex := hex1.trans hex2
  obtain ⟨n, t3, hreset, hn, h⟩ := bind_guard h (fun _ _ => by decide)
  obtain rfl : n = 0 := not_not.mp hn
  obtain ⟨reset, tries, last, pwr, pageAgain, trigger, hex3, ⟨hfreset, hended⟩, hfpolls,
    hpolled, ⟨hfpwr, hpwr⟩, ⟨hfagain, hagain⟩, ⟨hftrig, htrig⟩⟩ :=
    hwReset_zero (hex.isOpen.trans hi) (hex.uartOpen.trans ho) hreset
  replace hex := hex.trans hex3
  obtain ⟨n, t4, hawake, hn, h⟩ := bind_guard h (fun _ _ => by decide)
  obtain rfl : n = 0 := not_not.mp hn
  obtain ⟨-, rfl⟩ := pure_eq_some.mp h
  have hi3 := hex.isOpen.trans hi
  rw [awake, guard_isOpen hi3] at hawake
  obtain ⟨mode, hfmode, hex4, hmode⟩ :=
    writeRegister_zero hi3 (hex.uartOpen.trans ho) hawake
  replace hex := hex.trans hex4
  exact ⟨⟨page, chip, acc, mag, gyr, reset, tries ++ [last], pwr, pageAgain, trigger, mode⟩,
    by simpa [BringUp.exchanges] using hex,
    ⟨hfpage, hfchip, hfacc, hfmag, hfgyr, hfreset, hfpolls, hfpwr, hfagain, hftrig, hfmode⟩,
    ⟨by simp [hpage, hpwr, hagain, htrig], hchip, hacc, hmag, hgyr, hended,
      ⟨tries, last, rfl, hpolled⟩, hmode⟩⟩

theorem hwReset_of_checked {p p' : Port} {t : BringUp} (hi : p.isOpen = true)
    (ho : p.uartOpen = true) (ht : t.Issued) (hc : t.Checked)
    (hex : p.Exchanged ([t.reset] ++ (t.polls ++ ([t.pwr] ++ ([t.pageAgain] ++ [t.trigger])))) p') :
    hwReset p = some (0, p') := by
  obtain ⟨p1, hex1, ⟨hi1, ho1⟩, hex⟩ := hex.split hi ho
  obtain ⟨p2, hex2, ⟨hi2, ho2⟩, hex⟩ := hex.split hi1 ho1
  obtain ⟨p3, hex3, ⟨hi3, ho3⟩, hex⟩ := hex.split hi2 ho2
  obtain ⟨p4, hex4, ⟨hi4, ho4⟩, hex5⟩ := hex.split hi3 ho3
  obtain ⟨o, hended⟩ := hc.reset
  obtain ⟨tries, last, hpolls, hlast, hmisses⟩ := hc.polled
  have hnr := hc.configured
  -- each poll has used up a `write` result
  have hlen : tries.length < p1.writes.length + 1 := by
    rw [hex2.writes, hpolls, List.length_append, List.length_map, List.length_append]
    omega
  have hwait := waitChipId_polls hlen hi1 ho1 (hpolls ▸ hex2) hlast hmisses
    fun e he => ht.polls e (hpolls ▸ he)
  rw [hwReset, bind_of_eq ((writeRegister_iff hi ho).mpr ⟨_, o, ht.reset, hended, hex1, rfl⟩),
    bind_get, bind_of_eq hwait, writeRegister_pass hi2 ho2 ht.pwr (hnr _ (by simp)) hex3,
    writeRegister_pass hi3 ho3 ht.pageAgain (hnr _ (by simp)) hex4,
    writeRegister_pass hi4 ho4 ht.trigger (hnr _ (by simp)) hex5, pure_apply]

theorem start_of_checked {p p' : Port} {t : BringUp} (hlen : 100 ≤ p.reads.length)
    (hi : p.isOpen = true) (ho : p.uartOpen = true)
    (hex : (p.withReads (p.reads.drop 100)).Exchanged t.exchanges p') (ht : t.Issued)
    (hc : t.Checked) : start p = some (0, p') := by
  have hcut : t.exchanges = [t.page] ++ ([t.chip] ++ ([t.acc] ++ ([t.mag] ++ ([t.gyr] ++
      (([t.reset] ++ (t.polls ++ ([t.pwr] ++ ([t.pageAgain] ++ [t.trigger])))) ++
            [t.mode]))))) := by
    simp [BringUp.exchanges]
  rw [hcut] at hex
  have hi0 : (p.withReads (p.reads.drop 100)).isOpen = true := hi
  have ho0 : (p.withReads (p.reads.drop 100)).uartOpen = true := ho
  obtain ⟨p1, hex1, ⟨hi1, ho1⟩, hex⟩ := hex.split hi0 ho0
  obtain ⟨p2, hex2, ⟨hi2, ho2⟩, hex⟩ := hex.split hi1 ho1
  obtain ⟨p3, hex3, ⟨hi3, ho3⟩, hex⟩ := hex.split hi2 ho2
  obtain ⟨p4, hex4, ⟨hi4, ho4⟩, hex⟩ := hex.split hi3 ho3
  obtain ⟨p5, hex5, ⟨hi5, ho5⟩, hex⟩ := hex.split hi4 ho4
  obtain ⟨p6, hex6, ⟨hi6, ho6⟩, hex7⟩ := hex.split hi5 ho5
  have hawake : awake p6 = some (0, p') := by
    rw [awake, guard_isOpen hi6]
    rcases hc.mode with hmode | hmode
    · exact (writeRegister_iff hi6 ho6).mpr ⟨_, _, ht.mode, hmode, hex7, rfl⟩
    · exact (writeRegister_iff hi6 ho6).mpr ⟨_, _, ht.mode, hmode, hex7, rfl⟩
  rw [start, guard_isOpen hi, bind_of_eq (initPort_of_le hlen), ite_at, if_neg (by decide),
    writeRegister_pass hi0 ho0 ht.page (hc.configured _ (by simp)) hex1, bind_get]
  refine (readRegister_pass hi1 ho1 ht.chip hc.chip hex2).trans ?_
  refine (readRegister_pass hi2 ho2 ht.acc hc.acc hex3).trans ?_
  refine (readRegister_pass hi3 ho3 ht.mag hc.mag hex4).trans ?_
  refine (readRegister_pass hi4 ho4 ht.gyr hc.gyr hex5).trans ?_
  rw [ite_at, if_neg (by simp), bind_of_eq (hwReset_of_checked hi5 ho5 ht hc hex6), ite_at,
    if_neg (by decide), bind_of_eq hawake, ite_at, if_neg (by decide), pure_apply]

/-- `start` returns 0 exactly when the line supplies exchanges that pass its tests. -/
theorem start_eq_zero_iff {p p' : Port} : start p = some (0, p') ↔
    ∃ t : BringUp, t.Supplied p ∧ t.Issued ∧ t.Checked ∧
      (p.withReads (p.reads.drop 100)).Exchanged t.exchanges p' := by
  constructor
  · intro h
    obtain ⟨⟨hi, ho⟩, t, hex, ht, hc⟩ := start_checked h
    exact ⟨t, ⟨hi, ho, ⟨_, hex.reads.symm⟩, ⟨_, hex.writes.symm⟩⟩, ht, hc, hex⟩
  · rintro ⟨t, hs, ht, hc, hex⟩
    refine start_of_checked ?_ hs.isOpen hs.uartOpen hex ht hc
    -- an accepted bring-up has taken replies, so there was more than `init_port` throws away
    by_contra hlen
    have hnil : t.exchanges.flatMap Exchange.reply = [] := by
      have hreads := hs.reads
      rw [List.drop_eq_nil_of_le (by omega)] at hreads
      exact List.prefix_nil.mp hreads
    obtain ⟨ds, he⟩ := hc.chip
    obtain ⟨header, len, -, -, hbytes⟩ := he.data_bytes
    rw [Exchange.replyBytes,
      List.flatMap_eq_nil_iff.mp hnil t.chip (by simp [BringUp.exchanges])] at hbytes
    cases hbytes

/-- A bring-up that succeeds has configured the sensor: apart from the reset every command went
out whole, each configuration write was acknowledged and each id came in a reply of one byte. -/
def Configured (p : Port) : Prop := ∀ p', start p = some (0, p') → ∃ t : BringUp,
  p'.exchanges = p.exchanges ++ t.exchanges ∧ t.Issued ∧ t.SentInFull ∧ t.Acknowledged ∧ t.IdsRead

/-- Exactly where no exchange of a bring-up that passes the tests is out of order. -/
theorem configured_iff (p : Port) :
    Configured p ↔ ∀ t : BringUp, t.Supplied p → t.Issued → t.Checked → t.Orderly := by
  constructor
  · intro h t hs ht hc
    obtain ⟨p', hex⟩ := hs.exchanged
    obtain ⟨u, hu, -, hsent, hack, hids⟩ := h p' (start_eq_zero_iff.mpr ⟨t, hs, ht, hc, hex⟩)
    obtain rfl : t = u :=
      exchanges_inj (List.append_cancel_left (hex.exchanges.symm.trans hu))
    exact orderly_of_configured hsent hack hids
  · intro h p' hrun
    obtain ⟨t, hs, ht, hc, hex⟩ := start_eq_zero_iff.mp hrun
    exact ⟨t, hex.exchanges, ht, (h t hs ht hc).configured_of_checked hc⟩

/-- The first configuration write is answered by empty data, and the chip id comes with a
second byte. -/
def lenientPort : Port := Port.opened
  (List.replicate 100 .empty ++
    [.byte 0xbb, .byte 0,
      .byte 0xbb, .byte 2, .byte 0xa0, .byte 7,
      .byte 0xbb, .byte 1, .byte 0xfb,
      .byte 0xbb, .byte 1, .byte 0x32,
      .byte 0xbb, .byte 1, .byte 0x0f,
      .byte 0xee, .byte 1,
      .byte 0xbb, .byte 1, .byte 0xa0,
      .byte 0xee, .byte 1, .byte 0xee, .byte 1, .byte 0xee, .byte 1, .byte 0xee, .byte 1])
  [.accepted 5, .accepted 4, .accepted 4, .accepted 4, .accepted 4, .accepted 5, .accepted 4,
    .accepted 5, .accepted 5, .accepted 5, .accepted 5]

/-- Every command goes out whole, and still success promises neither the acknowledgements nor
the ids. -/
theorem not_configured_lenientPort :
    ¬ Configured lenientPort ∧ ∃ p', start lenientPort = some (0, p') ∧
      (∀ e ∈ p'.exchanges, e.InFull) ∧ ∀ t : BringUp,
        p'.exchanges = t.exchanges → ¬ t.Acknowledged ∧ ¬ t.IdsRead := by
  have hout : (start lenientPort).map (fun out => (out.1, out.2.exchanges.take 2,
      decide (∀ e ∈ out.2.exchanges, e.InFull))) =
      some (0, [⟨writeFrame pageId page0, .accepted 5, [.byte 0xbb, .byte 0]⟩,
        ⟨readFrame regChipId 1, .accepted 4, [.byte 0xbb, .byte 2, .byte 0xa0, .byte 7]⟩],
        true) := by
    decide +kernel
  obtain ⟨⟨n, p'⟩, hrun, heq⟩ := Option.map_eq_some_iff.mp hout
  obtain ⟨rfl, heq⟩ := Prod.mk.inj heq
  obtain ⟨hfirst, hfull⟩ := Prod.mk.inj heq
  have hfails (t : BringUp) (h : p'.exchanges = t.exchanges) :
      ¬ t.Acknowledged ∧ ¬ t.IdsRead := by
    rw [h] at hfirst
    obtain ⟨hpage, hchip⟩ := List.cons.inj hfirst
    constructor
    · intro hack
      have hbytes := hack t.page (by simp)
      rw [hpage] at hbytes
      exact absurd hbytes (by decide)
    · intro hids
      have hbytes := hids.chip
      rw [(List.cons.inj hchip).1] at hbytes
      exact absurd hbytes (by decide)
  refine ⟨fun h => ?_, p', hrun, of_decide_eq_true hfull, hfails⟩
  obtain ⟨t, hex, -, -, hack, -⟩ := h p' hrun
  exact (hfails t hex).1 hack

end Bno055Uart

end CmaesSolenoid

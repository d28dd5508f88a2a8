import CmaesSolenoid.Bno055Uart

/-!
# When a transaction returns

The device is an infinite stream of read results. `receive_buf` asks for one more
until it has an answer, so whether it returns is a property of the stream alone.
-/

namespace CmaesSolenoid
open InputLoop GappedInput RpiUart Bno055Uart Bno055

/-- A complete reply has arrived: all the announced data, or header and status. -/
inductive CompleteReply : List UInt8 → Prop
  | data {len : UInt8} {ds : List UInt8} (h : ds.length = len.toNat) :
      CompleteReply (0xbb :: len :: ds)
  | status (s : UInt8) : CompleteReply [0xee, s]

def bytesUpTo (f : Stream' ReadResult) (n : ℕ) : List UInt8 :=
  (f.take n).filterMap ReadResult.byte?

/-- No hanging on the stream `f`: `receive_buf` returns after finitely many reads, with a
positive value only for a complete reply, and so does the reset command of `hw_reset`. -/
structure ReturnsOn (p : Port) (buf : Buf) (f : Stream' ReadResult) : Prop where
  receive : ∃ n v buf' p', receiveBuf buf 255 (p.withReads (f.take n)) = some ((v, buf'), p') ∧
    p'.reads = [] ∧ (¬ CompleteReply (bytesUpTo f n) → v ≤ 0)
  reset : ∃ n v p', writeRegister sysTrigger sysTrigRst (p.withReads (f.take n)) = some (v, p')

/-- The device sends a first byte other than 0x00 and 0xBB, or a whole data reply of at
most 252 bytes, or 0x00,0x00. -/
def Answering (f : Stream' ReadResult) : Prop :=
  ∃ n, (∃ h bs, bytesUpTo f n = h :: bs ∧ h ≠ 0 ∧ h ≠ 0xbb) ∨
    (∃ len ds, bytesUpTo f n = 0xbb :: len :: ds ∧ ds.length = len.toNat ∧ len.toNat ≤ 252) ∨
    bytesUpTo f n = [0, 0]

theorem filterMap_header {g : List ReadResult} (hg : ∀ x ∈ g, x.byte? = none) (h : UInt8)
    (rs : List ReadResult) :
    (g ++ .byte h :: rs).filterMap ReadResult.byte? = h :: rs.filterMap ReadResult.byte? := by
  rw [List.filterMap_append, List.filterMap_eq_nil_iff.mpr hg]
  rfl

theorem Answer.Spells.bytes_ne_nil {room : ℕ} {a : Answer} {used : List ReadResult}
    (h : a.Spells room used) : used.filterMap ReadResult.byte? ≠ [] := by
  cases h with
  | status hg _ _ => rw [filterMap_header hg]; simp
  | data _ _ hu => rw [hu.filterMap]; simp

theorem answering_of_spells {f : Stream' ReadResult} {n : ℕ} {a : Answer}
    (ha : a.Spells 252 (f.take n)) (hv : ¬ CompleteReply (bytesUpTo f n) → a.value ≤ 0) :
    Answering f := by
  refine ⟨n, ?_⟩
  generalize hu : f.take n = used at ha
  cases ha with
  | status hg h0 hbb => exact .inl ⟨_, _, by rw [bytesUpTo, hu, filterMap_header hg], h0, hbb⟩
  | @data h len ds _ hh hlen hgap =>
    have hb : bytesUpTo f n = h :: len :: ds := by rw [bytesUpTo, hu, hgap.filterMap]
    rw [hb] at hv ⊢
    rcases hh with rfl | rfl
    · -- 0x00 does not start a reply, so the call may return no data
      have hlt := hv (by rintro ⟨⟩)
      obtain rfl : ds = [] := List.eq_nil_of_length_eq_zero (by simpa [Answer.value] using hlt)
      have hz : len = 0 := by
        apply UInt8.toNat_inj.mp
        rw [List.length_nil] at hlen
        change len.toNat = 0
        omega
      exact .inr (.inr (by rw [hz]))
    · by_cases hfit : len.toNat ≤ 252
      · exact .inr (.inl ⟨len, ds, rfl, by omega, hfit⟩)
      · have hlt := hv (by rintro ⟨hds⟩; omega)
        simp only [Answer.value] at hlt
        omega

theorem spells_of_answering {f : Stream' ReadResult} (h : Answering f) :
    ∃ n a, Answer.Spells 252 a (f.take n) ∧ (¬ CompleteReply (bytesUpTo f n) → a.value ≤ 0) := by
  obtain ⟨n, ⟨hd, bs, hb, h0, hbb⟩ | ⟨len, ds, hb, hlen, hfit⟩ | hb⟩ := h
  · obtain ⟨used, rest, htake, hgap⟩ := gapped_of_filterMap hb
    obtain ⟨g, x, tl, rfl, hg, hx, -⟩ := hgap.uncons
    obtain rfl := ReadResult.eq_byte hx
    -- the stream is infinite, so there is a next `read` after the header
    obtain ⟨r, tl', htl⟩ : ∃ r tl', tl ++ rest ++ [f.get n] = r :: tl' := by
      cases htl : tl ++ rest ++ [f.get n] with
      | nil => simp at htl
      | cons r tl' => exact ⟨r, tl', rfl⟩
    have hcut : f.take (n + 1) = (g ++ [.byte hd, r]) ++ tl' := by
      rw [Stream'.take_succ', htake]
      simp only [List.append_assoc, List.cons_append, List.nil_append] at htl ⊢
      rw [htl]
    refine ⟨(g ++ [.byte hd, r]).length, .status r, ?_, fun _ => ?_⟩
    · rw [take_of_append hcut]
      exact .status hg h0 hbb
    · rw [Answer.value]
      split_ifs <;> omega
  · obtain ⟨used, rest, htake, hgap⟩ := gapped_of_filterMap hb
    have hused := take_of_append htake
    refine ⟨used.length, .data ds, ?_, fun hno => absurd ?_ hno⟩
    · rw [hused]
      exact .data (.inr rfl) (by omega) hgap
    · rw [bytesUpTo, hused, hgap.filterMap]
      exact .data hlen
  · obtain ⟨used, rest, htake, hgap⟩ := gapped_of_filterMap hb
    refine ⟨used.length, .data [], ?_, fun _ => by simp [Answer.value]⟩
    rw [take_of_append htake]
    exact .data (.inl rfl) rfl hgap

theorem writeRegister_returns {p : Port} (hi : p.isOpen = true) (ho : p.uartOpen = true)
    (hw : p.writes ≠ []) {f : Stream' ReadResult} {n : ℕ} {a : Answer}
    (ha : a.Spells 252 (f.take n)) (reg value : ℤ) :
    ∃ n v p', writeRegister reg value (p.withReads (f.take n)) = some (v, p') := by
  obtain ⟨w, ws, hws⟩ := List.exists_cons_of_ne_nil hw
  by_cases hfail : w = .failed
  · subst hfail
    have hp : (p.withReads (f.take 0)).Exchanged [⟨writeFrame reg value, .failed, []⟩] { p with
        reads := []
        writes := ws
        exchanges := p.exchanges ++ [⟨writeFrame reg value, .failed, []⟩] } :=
      ⟨rfl, hws, rfl, rfl, rfl, rfl⟩
    exact ⟨0, _, _, (writeRegister_iff (by exact hi) (by exact ho)).mpr
      ⟨_, _, rfl, .failed _, hp, rfl⟩⟩
  · have hp : (p.withReads (f.take n)).Exchanged [⟨writeFrame reg value, w, f.take n⟩] { p with
        reads := []
        writes := ws
        exchanges := p.exchanges ++ [⟨writeFrame reg value, w, f.take n⟩] } :=
      ⟨by simp [Port.withReads], hws, rfl, rfl, rfl, rfl⟩
    exact ⟨n, _, _, (writeRegister_iff (by exact hi) (by exact ho)).mpr
      ⟨_, _, rfl, .answered hfail ha, hp, rfl⟩⟩

/-- The call returns exactly on the streams that answer: a device that is silent, or stops
inside a data reply, is waited for without end. -/
theorem returnsOn_iff {p : Port} (hi : p.isOpen = true) (ho : p.uartOpen = true)
    (hw : p.writes ≠ []) (buf : Buf) (f : Stream' ReadResult) :
    ReturnsOn p buf f ↔ Answering f := by
  constructor
  · intro h
    obtain ⟨n, v, buf', p', hrun, hnil, hv⟩ := h.receive
    obtain ⟨a, used, rest, hreads, ha, hout, rfl⟩ :=
      (receiveBuf_eq_some (by decide) (by exact ho)).mp hrun
    obtain rfl : rest = [] := hnil
    obtain ⟨rfl, -⟩ := Prod.mk.inj hout
    obtain rfl : f.take n = used := by simpa [Port.withReads] using hreads
    exact answering_of_spells ha hv
  · intro h
    obtain ⟨n, a, ha, hv⟩ := spells_of_answering h
    constructor
    · exact ⟨n, a.value, a.fills buf, _, (receiveBuf_eq_some (by decide) (by exact ho)).mpr
        ⟨a, f.take n, [], by simp [Port.withReads], ha, rfl, rfl⟩, rfl, hv⟩
    · exact writeRegister_returns hi ho hw ha sysTrigger sysTrigRst

theorem returnsOn_acknowledged :
    ReturnsOn (Port.opened [] [.accepted 5]) (fun _ => 0)
      (Stream'.cons .empty (Stream'.cons (.byte 0xee) (Stream'.const (.byte 1)))) :=
  (returnsOn_iff rfl rfl (by decide) _ _).mpr ⟨2, .inl ⟨0xee, [], by decide⟩⟩

/-- A device that never answers, as the reset command of `hw_reset` expects it not to. -/
theorem returnsOn_silent :
    ¬ ∀ (p : Port), p.isOpen = true → p.uartOpen = true → p.writes ≠ [] →
      ∀ (buf : Buf) (f : Stream' ReadResult), ReturnsOn p buf f := by
  intro h
  obtain ⟨n, v, buf', p', hrun, -⟩ :=
    (h (Port.opened [] [.accepted 5]) rfl rfl (by decide) (fun _ => 0)
      (Stream'.const .empty)).receive
  obtain ⟨a, used, rest, hreads, ha, -⟩ :=
    (receiveBuf_eq_some (by decide) (by exact rfl)).mp hrun
  have hquiet (m : ℕ) : bytesUpTo (Stream'.const ReadResult.empty) m = [] := by
    rw [bytesUpTo]
    induction m with
    | zero => rfl
    | succ m ih => rw [Stream'.take_succ', List.filterMap_append, ih, Stream'.get_const]; rfl
  have hbytes := hquiet n
  rw [bytesUpTo, show (Stream'.const ReadResult.empty).take n = used ++ rest from hreads,
    List.filterMap_append, List.append_eq_nil_iff] at hbytes
  exact ha.bytes_ne_nil hbytes.1

end CmaesSolenoid

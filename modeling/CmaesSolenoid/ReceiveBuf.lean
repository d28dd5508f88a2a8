import CmaesSolenoid.ReplyParser

/-!
# Replies under any timing

A complete BNO055 reply, however its bytes are spread over the `read` calls, and
the reply grammar that `receive_buf` accepts when they are not spread at all.
-/

namespace CmaesSolenoid
open GappedInput RpiUart

/-- A complete reply of the BNO055: data, or the two bytes of a status. -/
inductive Reply
  | data (ds : List UInt8) (fits : ds.length ≤ 252)
  | status (s : UInt8)

namespace Reply

def bytes : Reply → List UInt8
  | data ds _ => 0xbb :: UInt8.ofNat ds.length :: ds
  | status s => [0xee, s]

def answer : Reply → Answer
  | data ds _ => .data ds
  | status s => .status (.byte s)

/-- No `read` between the two bytes of a status reply came back empty. -/
def StatusUngapped (r : Reply) (rs : List ReadResult) : Prop :=
  ∀ s, r = status s → ∃ g, rs = g ++ [.byte 0xee, .byte s]

theorem status_gaps {s : UInt8} {rs : List ReadResult}
    (hg : Gapped ReadResult.byte? (status s).bytes rs) :
    ∃ g g', rs = g ++ .byte 0xee :: (g' ++ [.byte s]) ∧
      (∀ x ∈ g, x.byte? = none) ∧ ∀ x ∈ g', x.byte? = none := by
  obtain ⟨g, x, tl, rfl, hidle, hx, htl⟩ := hg.uncons
  obtain ⟨g', y, tl', rfl, hidle', hy, htl'⟩ := htl.uncons
  obtain rfl := htl'.eq_nil
  obtain rfl := ReadResult.eq_byte hx
  obtain rfl := ReadResult.eq_byte hy
  exact ⟨g, g', rfl, hidle, hidle'⟩

theorem spells {r : Reply} {rs : List ReadResult} (hg : Gapped ReadResult.byte? r.bytes rs)
    (hs : r.StatusUngapped rs) : r.answer.Spells 252 rs := by
  cases r with
  | data ds fits =>
    have hlen : (UInt8.ofNat ds.length).toNat = ds.length := by
      rw [UInt8.toNat_ofNat']
      omega
    exact .data (.inr rfl) (by rw [hlen]; omega) hg
  | status s =>
    obtain ⟨g, g', hrs, hidle, hidle'⟩ := status_gaps hg
    obtain ⟨g2, hrs2⟩ := hs s rfl
    rcases List.eq_nil_or_concat g' with rfl | ⟨g3, z, rfl⟩
    · rw [hrs]
      exact .status hidle (by decide) (by decide)
    · -- the result before the status byte would be both a gap and the header
      have heq : (g2 ++ [.byte 0xee]) ++ [.byte s] =
          (g ++ .byte 0xee :: g3 ++ [z]) ++ [ReadResult.byte s] := by
        rw [List.append_assoc g2, List.singleton_append, ← hrs2, hrs]
        simp
      have hz := (List.append_inj' (List.append_inj' heq rfl).1 rfl).2
      obtain rfl : ReadResult.byte 0xee = z := by simpa using hz
      simpa using hidle' (.byte 0xee) (by simp)

theorem gapped_map (r : Reply) : Gapped ReadResult.byte? r.bytes (r.bytes.map .byte) :=
  .of_map ReadResult.byte ReadResult.byte?_byte r.bytes

theorem statusUngapped_map (r : Reply) : r.StatusUngapped (r.bytes.map .byte) := by
  rintro s rfl
  exact ⟨[], rfl⟩

end Reply

/-- What a caller of `receive_buf` and the next transaction can tell: the value
returned, the buffer and the bytes left on the line. -/
def observed (out : (ℤ × Buf) × Port) : ℤ × Buf × List UInt8 :=
  (out.1.1, out.1.2, out.2.reads.filterMap ReadResult.byte?)

theorem receiveBuf_spelled {p : Port} (ho : p.uartOpen = true) (buf : Buf) {a : Answer}
    {used : List ReadResult} (hs : a.Spells 252 used) (rest : List ReadResult) :
    receiveBuf buf 255 (p.withReads (used ++ rest)) = some ((a.value, a.fills buf),
      { p with reads := rest, exchanges := addReply used p.exchanges }) := by
  have hopen : (p.withReads (used ++ rest)).uartOpen = true := ho
  rw [receiveBuf_eq_some (by decide) hopen]
  exact ⟨a, used, rest, rfl, hs, rfl, rfl⟩

/-- The one gap that is not waited for: the status byte is left on the line. -/
theorem receiveBuf_status_gap {p : Port} (ho : p.uartOpen = true) (buf : Buf)
    {g : List ReadResult} (hg : ∀ x ∈ g, x.byte? = none) {z : ReadResult}
    (hz : z.byte? = none) (rest : List ReadResult) :
    (receiveBuf buf 255 (p.withReads (g ++ .byte 0xee :: z :: rest))).map observed =
      some (-1, buf, rest.filterMap ReadResult.byte?) := by
  have hs : (Answer.status z).Spells 252 (g ++ [.byte 0xee, z]) :=
    .status hg (by decide) (by decide)
  have hcut : g ++ .byte 0xee :: z :: rest = (g ++ [.byte 0xee, z]) ++ rest := by simp
  rw [hcut, receiveBuf_spelled ho buf hs]
  have hv : (Answer.status z).value = -1 := by
    rw [Answer.value, ReadResult.c_of_nothing hz]
    rfl
  simp [observed, hv, Answer.fills]

/-- Timing changes nothing exactly when no gap separates the two bytes of a status reply. -/
theorem receiveBuf_timing {r : Reply} {rs : List ReadResult}
    (hg : Gapped ReadResult.byte? r.bytes rs) {p : Port} (ho : p.uartOpen = true) (buf : Buf)
    (rest : List ReadResult) :
    (receiveBuf buf 255 (p.withReads (rs ++ rest))).map observed =
        (receiveBuf buf 255 (p.withReads (r.bytes.map .byte ++ rest))).map observed ↔
      r.StatusUngapped rs := by
  have hprompt := receiveBuf_spelled ho buf (r.spells r.gapped_map r.statusUngapped_map) rest
  constructor
  · rintro h s rfl
    obtain ⟨g, g', rfl, hidle, hidle'⟩ := Reply.status_gaps hg
    cases g' with
    | nil => exact ⟨g, rfl⟩
    | cons z g' =>
      -- the status byte would be on the line on the left and not on the right
      have hgap := receiveBuf_status_gap ho buf hidle (hidle' z (by simp))
        (g' ++ .byte s :: rest)
      rw [hprompt, show g ++ .byte 0xee :: (z :: g' ++ [.byte s]) ++ rest =
        g ++ .byte 0xee :: z :: (g' ++ .byte s :: rest) by simp, hgap] at h
      have hleft := congrArg (fun o => (o.map fun v => v.2.2.length).getD 0) h
      have hnone : g'.filterMap ReadResult.byte? = [] :=
        List.filterMap_eq_nil_iff.mpr fun x hx => hidle' x (by simp [hx])
      simp [observed, hnone] at hleft
  · intro hs
    rw [hprompt, receiveBuf_spelled ho buf (r.spells hg hs)]
    rfl

theorem receiveBuf_timing_ungapped :
    (receiveBuf (fun _ => 0) 255 ((Port.opened [] []).withReads
        ([.empty, .byte 0xbb, .error, .byte 1, .byte 0xa0] ++ [.byte 7]))).map observed =
      (receiveBuf (fun _ => 0) 255 ((Port.opened [] []).withReads
        ([.byte 0xbb, .byte 1, .byte 0xa0] ++ [.byte 7]))).map observed :=
  (receiveBuf_timing (r := .data [0xa0] (by decide))
    (.gap rfl (.value rfl (.gap rfl (.value rfl (.value rfl .nil))))) rfl _ _).mpr
    (by rintro s h; cases h)

theorem receiveBuf_timing_gap :
    ¬ ∀ (r : Reply) (rs : List ReadResult), Gapped ReadResult.byte? r.bytes rs →
      ∀ p : Port, p.uartOpen = true → ∀ (buf : Buf) (rest : List ReadResult),
        (receiveBuf buf 255 (p.withReads (rs ++ rest))).map observed =
          (receiveBuf buf 255 (p.withReads (r.bytes.map .byte ++ rest))).map observed := by
  intro h
  have hack := h (.status 1) [.byte 0xee, .empty, .byte 1] (.value rfl (.gap rfl (.value rfl .nil)))
    (Port.opened [] []) rfl (fun _ => 0) []
  have hvalue := congrArg (Option.map Prod.fst) hack
  revert hvalue
  decide

/-- What the reply grammar asks of `receive_buf` on a stream that starts with `b0`, `b1`:
the data of 0xBB, 0 for the acknowledgement 0xEE,0x01, a negative value otherwise. -/
structure AcceptsGrammar (buf : Buf) (p : Port) (b0 b1 : UInt8) (tail : List UInt8) : Prop where
  data : ∀ ds rest, b0 = 0xbb → tail = ds ++ rest → ds.length = b1.toNat → b1.toNat ≤ 252 →
    ∃ (buf' : Buf) (p' : Port), receiveBuf buf 255 (p.withReads ((b0 :: b1 :: tail).map .byte)) =
        some (((b1.toNat : ℤ), buf'), p') ∧ ∀ j (hj : j < ds.length), buf' j = ds[j]
  acknowledged : b0 = 0xee → b1 = 0x01 →
    ∃ buf' p', receiveBuf buf 255 (p.withReads ((b0 :: b1 :: tail).map .byte)) =
      some ((0, buf'), p')
  rejected : (b0 = 0xee ∧ b1 ≠ 0x01) ∨ (b0 ≠ 0xbb ∧ b0 ≠ 0xee) →
    ∃ v buf' p', receiveBuf buf 255 (p.withReads ((b0 :: b1 :: tail).map .byte)) =
      some ((v, buf'), p') ∧ v < 0

theorem receiveBuf_data_bytes {p : Port} (ho : p.uartOpen = true) (buf : Buf) {len : UInt8}
    {ds : List UInt8} (hlen : ds.length = len.toNat) (hfits : len.toNat ≤ 252) (rest : List UInt8) :
    ∃ (buf' : Buf) (p' : Port),
      receiveBuf buf 255 (p.withReads ((0xbb :: len :: (ds ++ rest)).map .byte)) =
        some (((len.toNat : ℤ), buf'), p') ∧ ∀ j (hj : j < ds.length), buf' j = ds[j] := by
  have hs : (Answer.data ds).Spells 252 ((0xbb :: len :: ds).map .byte) :=
    .data (.inr rfl) (by omega) (.of_map _ ReadResult.byte?_byte _)
  have hrun := receiveBuf_spelled ho buf hs (rest.map .byte)
  rw [← List.map_append, Answer.value, hlen] at hrun
  refine ⟨_, _, hrun, ?_⟩
  intro j hj
  rw [Answer.fills, Buf.store_other _ (by omega)]
  simpa using buf.fill_getElem 0 ds j hj

theorem receiveBuf_status_bytes {p : Port} (ho : p.uartOpen = true) (buf : Buf) {b0 : UInt8}
    (h0 : b0 ≠ 0) (hbb : b0 ≠ 0xbb) (b1 : UInt8) (tail : List UInt8) :
    ∃ p', receiveBuf buf 255 (p.withReads ((b0 :: b1 :: tail).map .byte)) =
      some ((if b1 = 1 then 0 else -1, buf), p') := by
  have hs : (Answer.status (.byte b1)).Spells 252 ([] ++ [.byte b0, .byte b1]) :=
    .status (by simp) h0 hbb
  have hrun := receiveBuf_spelled ho buf hs (tail.map .byte)
  rw [Answer.value_status_byte] at hrun
  exact ⟨_, hrun⟩

theorem receiveBuf_zero_header {p : Port} (ho : p.uartOpen = true) (buf : Buf) (b1 : UInt8)
    (tail : List UInt8) {v : ℤ} {buf' : Buf} {p' : Port}
    (h : receiveBuf buf 255 (p.withReads ((0 :: b1 :: tail).map .byte)) = some ((v, buf'), p')) :
    0 ≤ v := by
  have hopen : (p.withReads ((0 :: b1 :: tail).map .byte)).uartOpen = true := ho
  rw [receiveBuf_eq_some (by decide) hopen] at h
  obtain ⟨a, used, rest, hreads, hspells, hout, -⟩ := h
  obtain ⟨rfl, -⟩ := Prod.mk.inj hout
  cases hspells with
  | data _ _ _ => simp [Answer.value]
  | @status g h r hg h0 _ =>
    -- the header would be the first result on the line
    cases g with
    | nil =>
      obtain ⟨hh, -⟩ : (0 : UInt8) = h ∧ _ := by simpa [Port.withReads] using hreads
      exact absurd hh.symm h0
    | cons x g =>
      obtain ⟨hx, -⟩ : ReadResult.byte 0 = x ∧ _ := by simpa [Port.withReads] using hreads
      simpa [← hx] using hg x (by simp)

/-- The grammar is met exactly on these starts. With a header that is neither 0xBB nor
0xEE the second byte decides, and after 0x00 nothing is ever an error. -/
theorem receiveBuf_grammar {p : Port} (ho : p.uartOpen = true) (buf : Buf) (b0 b1 : UInt8)
    (tail : List UInt8) :
    AcceptsGrammar buf p b0 b1 tail ↔ b0 = 0xbb ∨ b0 = 0xee ∨ (b0 ≠ 0 ∧ b1 ≠ 0x01) := by
  constructor
  · intro h
    by_contra! hno
    obtain ⟨hbb, hee, hstart⟩ := hno
    obtain ⟨v, buf', p', hrun, hneg⟩ := h.rejected (.inr ⟨hbb, hee⟩)
    by_cases h0 : b0 = 0
    · subst h0
      have := receiveBuf_zero_header ho buf b1 tail hrun
      omega
    · obtain ⟨p2, hrun2⟩ := receiveBuf_status_bytes ho buf h0 hbb b1 tail
      rw [if_pos (hstart h0), hrun] at hrun2
      obtain rfl : v = 0 := by simpa using congrArg (fun o => (o.map fun x => x.1.1).getD 0) hrun2
      exact lt_irrefl _ hneg
  · intro hstart
    constructor
    · rintro ds rest rfl rfl hlen hfits
      exact receiveBuf_data_bytes ho buf hlen hfits rest
    · rintro rfl rfl
      obtain ⟨p', hrun⟩ := receiveBuf_status_bytes ho buf (by decide : (0xee : UInt8) ≠ 0)
        (by decide) 1 tail
      exact ⟨buf, p', hrun⟩
    · intro hbad
      have h0 : b0 ≠ 0 := by rintro rfl; revert hbad hstart; simp
      have hbb : b0 ≠ 0xbb := by rintro rfl; revert hbad; simp
      have h1 : b1 ≠ 1 := by
        rintro rfl
        rcases hbad with ⟨-, h⟩ | ⟨hbb, hee⟩
        · exact h rfl
        · rcases hstart with h | h | ⟨-, h⟩
          · exact hbb h
          · exact hee h
          · exact h rfl
      obtain ⟨p', hrun⟩ := receiveBuf_status_bytes ho buf h0 hbb b1 tail
      rw [if_neg h1] at hrun
      exact ⟨-1, buf, p', hrun, by decide⟩

theorem receiveBuf_grammar_nak : AcceptsGrammar (fun _ => 0) (Port.opened [] []) 0xee 7 [] :=
  (receiveBuf_grammar rfl _ _ _ _).mpr (.inr (.inl rfl))

/-- Line noise 0x55,0x01 passes for an acknowledgement. -/
theorem receiveBuf_grammar_noise :
    ¬ ∀ p : Port, p.uartOpen = true → ∀ (buf : Buf) (b0 b1 : UInt8) (tail : List UInt8),
      AcceptsGrammar buf p b0 b1 tail := by
  intro h
  obtain ⟨v, buf', p', hrun, hneg⟩ :=
    (h (Port.opened [] []) rfl (fun _ => 0) 0x55 0x01 []).rejected (.inr (by decide))
  have hv := congrArg (Option.map fun out => out.1.1) hrun
  rw [show (receiveBuf (fun _ => 0) 255 ((Port.opened [] []).withReads
    (([0x55, 0x01] : List UInt8).map .byte))).map (fun out => out.1.1) = some 0 by decide] at hv
  obtain rfl : 0 = v := by simpa using hv
  exact lt_irrefl _ hneg

end CmaesSolenoid

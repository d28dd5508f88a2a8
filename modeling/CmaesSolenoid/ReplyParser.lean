import Mathlib.Tactic.Ring
import Mathlib.Tactic.Tauto
import CmaesSolenoid.RpiUart

/-!
# What `receive_buf` accepts

`parseReply` reads a reply without loop variables: wait for the header; if it is
neither 0x00 nor 0xBB take the result of one more `read`, data or not; otherwise
wait for the length and for that many data bytes, as far as there is room.
`receiveBuf` computes exactly this.
-/

namespace CmaesSolenoid
open InputLoop GappedInput

/-- The two kinds of reply: the one `read` after a status header, or data. -/
inductive Answer
  | status (r : ReadResult)
  | data (ds : List UInt8)
  deriving DecidableEq, Repr

namespace Answer

def value : Answer → ℤ
  | status r => if r.c uchar = 0x01 then 0 else -1
  | data ds => ds.length

def fills (buf : Buf) : Answer → Buf
  | status _ => buf
  | data ds => (buf.fill 0 ds).store ds.length 0

/-- `Spells room a used`: the read results `used` are an answer `a`. -/
inductive Spells (room : ℕ) : Answer → List ReadResult → Prop
  | status {g : List ReadResult} {h : UInt8} {r : ReadResult} (hg : ∀ x ∈ g, x.byte? = none)
      (h0 : h ≠ 0) (hbb : h ≠ 0xbb) : Spells room (status r) (g ++ [.byte h, r])
  | data {h len : UInt8} {ds : List UInt8} {used : List ReadResult} (hh : h = 0 ∨ h = 0xbb)
      (hlen : ds.length = min len.toNat room)
      (hu : Gapped ReadResult.byte? (h :: len :: ds) used) : Spells room (data ds) used

theorem Spells.data_bytes {room : ℕ} {ds : List UInt8} {used : List ReadResult}
    (h : Spells room (.data ds) used) :
    ∃ header len, (header = 0 ∨ header = 0xbb) ∧ ds.length = min len.toNat room ∧
      used.filterMap ReadResult.byte? = header :: len :: ds := by
  cases h with
  | data hh hlen hu => exact ⟨_, _, hh, hlen, hu.filterMap⟩

theorem Spells.status_bytes {room : ℕ} {r : ReadResult} {used : List ReadResult}
    (h : Spells room (.status r) used) :
    ∃ header, header ≠ 0 ∧ header ≠ 0xbb ∧
      used.filterMap ReadResult.byte? = header :: r.byte?.toList := by
  cases h with
  | @status g header r hg h0 hbb =>
    refine ⟨header, h0, hbb, ?_⟩
    rw [List.filterMap_append, List.filterMap_eq_nil_iff.mpr hg]
    cases r <;> rfl

theorem value_status_byte (b : UInt8) : (status (.byte b)).value = if b = 1 then 0 else -1 := by
  have hb : uchar b = 1 ↔ b = 1 := by
    rw [uchar, ← UInt8.toNat_inj]
    exact Nat.cast_eq_one
  simp [value, ReadResult.c, hb]

theorem value_neg_iff (a : Answer) :
    a.value < 0 ↔ ∃ r, a = status r ∧ r ≠ .byte 1 := by
  cases a with
  | data ds => simp [value]
  | status r =>
    cases r with
    | byte b => rw [value_status_byte]; by_cases hb : b = 1 <;> simp [hb]
    | empty => simp [value, ReadResult.c]
    | error => simp [value, ReadResult.c]

end Answer

def parseReply (room : ℕ) (rs : List ReadResult) : Option (Answer × List ReadResult) :=
  (takeValue ReadResult.byte? rs).bind fun (h, rs) =>
    if h = 0 ∨ h = 0xbb then
      (takeValue ReadResult.byte? rs).bind fun (len, rs) =>
        (takeValues ReadResult.byte? (min len.toNat room) rs).map fun (ds, rs) => (.data ds, rs)
    else
      match rs with
      | [] => none
      | r :: rs => some (.status r, rs)

theorem parseReply_of_spells {room : ℕ} {a : Answer} {used : List ReadResult}
    (h : a.Spells room used) (rest : List ReadResult) :
    parseReply room (used ++ rest) = some (a, rest) := by
  cases h with
  | status hg h0 hbb =>
    simp [parseReply, takeValue_append hg (ReadResult.byte?_byte _), h0, hbb]
  | data hh hlen hu =>
    obtain ⟨g, x, tl, rfl, hg, hx, hu⟩ := hu.uncons
    obtain ⟨g', x', tl', rfl, hg', hx', hu⟩ := hu.uncons
    rw [parseReply, List.append_assoc, List.cons_append, takeValue_append hg hx, Option.bind_some]
    dsimp only
    rw [if_pos hh, List.append_assoc, List.cons_append, takeValue_append hg' hx', Option.bind_some]
    dsimp only
    rw [← hlen, takeValues_of_gapped hu, Option.map_some]

theorem spells_of_parseReply {room : ℕ} {rs rest : List ReadResult} {a : Answer}
    (h : parseReply room rs = some (a, rest)) :
    ∃ used, rs = used ++ rest ∧ a.Spells room used := by
  rw [parseReply, Option.bind_eq_some_iff] at h
  obtain ⟨⟨hd, rs1⟩, hhd, h⟩ := h
  obtain ⟨g, x, rfl, hg, hx⟩ := takeValue_eq_some hhd
  dsimp only at h
  split_ifs at h with hc
  · rw [Option.bind_eq_some_iff] at h
    obtain ⟨⟨len, rs2⟩, hlen, h⟩ := h
    obtain ⟨g', x', rfl, hg', hx'⟩ := takeValue_eq_some hlen
    rw [Option.map_eq_some_iff] at h
    obtain ⟨⟨ds, rs3⟩, hds, h⟩ := h
    obtain ⟨rfl, rfl⟩ : Answer.data ds = a ∧ rs3 = rest := by simpa using h
    obtain ⟨hn, used, rfl, hu⟩ := gapped_of_takeValues hds
    exact ⟨g ++ x :: (g' ++ x' :: used), by simp,
      .data hc hn (.cons_of_gap hg hx (.cons_of_gap hg' hx' hu))⟩
  · cases rs1 with
    | nil => simp at h
    | cons r rs1 =>
      obtain ⟨rfl, rfl⟩ : Answer.status r = a ∧ rs1 = rest := by simpa using h
      rw [ReadResult.eq_byte hx]
      exact ⟨g ++ [.byte hd, r], by simp, .status hg (fun e => hc (.inl e)) fun e => hc (.inr e)⟩

namespace RpiUart

variable {bufMaxLen : UInt8} {buf : Buf}

theorem uchar_pos_iff (b : UInt8) : uchar b > 0 ↔ b ≠ 0 := by
  rw [uchar, ne_eq, ← UInt8.toNat_inj]
  change (0 : ℤ) < _ ↔ ¬ b.toNat = 0
  omega

theorem uchar_eq_bb_iff (b : UInt8) : uchar b = 0xbb ↔ b = 0xbb := by
  rw [uchar, ← UInt8.toNat_inj]
  change (b.toNat : ℤ) = 187 ↔ b.toNat = 187
  omega

theorem round_header_gap (hm : 3 ≤ bufMaxLen.toNat) {r : ReadResult} (hr : r.byte? = none) :
    receiveRound uchar bufMaxLen ⟨0, 0, 0, buf⟩ r = .again ⟨0, 0, 0, buf⟩ := by
  cases r with
  | byte b => simp at hr
  | _ => simp [receiveRound, receiveTail, ReadResult.c]; omega

theorem round_header_status (hm : 3 ≤ bufMaxLen.toNat) {h : UInt8} (h0 : h ≠ 0) (hbb : h ≠ 0xbb) :
    receiveRound uchar bufMaxLen ⟨0, 0, 0, buf⟩ (.byte h) = .again ⟨1, 1, uchar h, buf⟩ := by
  have hc : uchar h > 0 ∧ uchar h ≠ 0xbb :=
    ⟨(uchar_pos_iff h).mpr h0, mt (uchar_eq_bb_iff h).mp hbb⟩
  simp only [receiveRound, ReadResult.c, hc, ne_eq, not_false_eq_true, and_self, ↓reduceIte,
    receiveTail]
  simp
  omega

theorem round_header_data (hm : 3 ≤ bufMaxLen.toNat) {h : UInt8} (hh : h = 0 ∨ h = 0xbb) :
    receiveRound uchar bufMaxLen ⟨0, 0, 0, buf⟩ (.byte h) = .again ⟨1, 0, 0, buf⟩ := by
  have hc : ¬ (uchar h > 0 ∧ uchar h ≠ 0xbb) := by
    have := uchar_eq_bb_iff h
    rw [uchar_pos_iff]
    tauto
  simp only [receiveRound, ReadResult.c, true_and, hc, ↓reduceIte, receiveTail]
  simp
  omega

/-- The read after a status header decides, whether or not it delivered a byte. -/
theorem round_status {h : UInt8} (h0 : h ≠ 0) (r : ReadResult) :
    receiveRound uchar bufMaxLen ⟨1, 1, uchar h, buf⟩ r =
      .ret ((Answer.status r).value, buf) := by
  have hpos : uchar h > 0 := (uchar_pos_iff h).mpr h0
  simp only [receiveRound, hpos, ↓reduceIte, Answer.value]
  simp
  split_ifs <;> rfl

theorem round_length_gap (hm : 3 ≤ bufMaxLen.toNat) {r : ReadResult} (hr : r.byte? = none) :
    receiveRound uchar bufMaxLen ⟨1, 0, 0, buf⟩ r = .again ⟨1, 0, 0, buf⟩ := by
  cases r with
  | byte b => simp at hr
  | _ => simp [receiveRound, receiveTail, ReadResult.c]; omega

theorem round_data (s : RxState) (hi : 2 ≤ s.i) (r : ReadResult) :
    receiveRound uchar bufMaxLen s r = receiveTail bufMaxLen s r := by
  have h0 : s.i ≠ 0 := by omega
  have h1 : s.i ≠ 1 := by omega
  simp only [receiveRound, h0, h1, false_and, ↓reduceIte]

theorem tail_gap {s : RxState} {r : ReadResult} (hr : r.byte? = none)
    (hs : s.i < s.rxLen + 2 ∧ s.i < (bufMaxLen.toNat : ℤ) - 1) :
    receiveTail bufMaxLen s r = .again s := by
  cases r with
  | byte b => simp at hr
  | _ => simp only [receiveTail, hs, and_self, ↓reduceIte]

theorem run_data (bufMaxLen : UInt8) (len k m : ℕ)
    (hm : k + (m + 1) = min len (bufMaxLen.toNat - 3))
    (buf : Buf) (rs : List ReadResult) :
    run (receiveRound uchar bufMaxLen) ⟨k + 2, len, 0, buf⟩ rs =
      (takeValues ReadResult.byte? (m + 1) rs).map fun out =>
        ((((k + (m + 1) : ℕ) : ℤ), (buf.fill k out.1).store (k + (m + 1) : ℕ) 0), out.2) := by
  induction rs generalizing k m buf with
  | nil => rfl
  | cons r rs ih =>
    have hmore : (k : ℤ) + 2 < len + 2 ∧ (k : ℤ) + 2 < (bufMaxLen.toNat : ℤ) - 1 := by omega
    cases hr : r.byte? with
    | none =>
      have hstep : receiveRound uchar bufMaxLen ⟨k + 2, len, 0, buf⟩ r =
          .again ⟨k + 2, len, 0, buf⟩ := by
        rw [round_data _ (by dsimp only; omega)]
        exact tail_gap hr hmore
      rw [takeValues_gap hr, run_again hstep, ih k m hm]
    | some b =>
      rw [takeValues_value hr]
      obtain rfl := ReadResult.eq_byte hr
      have hpos : (k : ℤ) + 2 ≥ 2 := by omega
      have hstep : receiveRound uchar bufMaxLen ⟨k + 2, len, 0, buf⟩ (.byte b) =
          if (k : ℤ) + 2 + 1 < len + 2 ∧ (k : ℤ) + 2 + 1 < (bufMaxLen.toNat : ℤ) - 1
          then .again ⟨k + 2 + 1, len, 0, buf.store k b⟩
          else .ret (k + 1, (buf.store k b).store (k + 1) 0) := by
        have hend : (k : ℤ) + 2 + 1 - 2 = k + 1 := by omega
        have hne : (k : ℤ) + 2 + 1 ≠ 0 := by omega
        rw [round_data _ (by dsimp only; omega)]
        simp only [receiveTail, hpos, ↓reduceIte, add_sub_cancel_right, hend, hne, ReadResult.n]
        rfl
      cases m with
      | zero =>
        rw [if_neg (by omega)] at hstep
        rw [run_ret hstep]
        simp [Buf.fill]
      | succ m =>
        rw [if_pos (by omega)] at hstep
        rw [run_again hstep]
        have hk : (k : ℤ) + 2 + 1 = ((k + 1 : ℕ) : ℤ) + 2 := by push_cast; ring
        have hn : k + 1 + (m + 1) = k + (m + 1 + 1) := by ring
        rw [hk, ih (k + 1) m (by omega), Option.map_map, hn]
        rfl

theorem run_header_status (hm : 3 ≤ bufMaxLen.toNat) {h : UInt8} (h0 : h ≠ 0) (hbb : h ≠ 0xbb)
    (rs : List ReadResult) :
    run (receiveRound uchar bufMaxLen) ⟨0, 0, 0, buf⟩ (.byte h :: rs) =
      match rs with
      | [] => none
      | r :: rs => some (((Answer.status r).value, buf), rs) := by
  rw [run_again (round_header_status hm h0 hbb)]
  cases rs with
  | nil => rfl
  | cons r rs => exact run_ret (round_status h0 r) rs

theorem run_length (hm : 3 ≤ bufMaxLen.toNat) (len : UInt8) (rs : List ReadResult) :
    run (receiveRound uchar bufMaxLen) ⟨1, 0, 0, buf⟩ (.byte len :: rs) =
      (takeValues ReadResult.byte? (min len.toNat (bufMaxLen.toNat - 3)) rs).map fun out =>
        (((Answer.data out.1).value, (Answer.data out.1).fills buf), out.2) := by
  have hstep : receiveRound uchar bufMaxLen ⟨1, 0, 0, buf⟩ (.byte len) =
      if (2 : ℤ) < len.toNat + 2 ∧ (2 : ℤ) < (bufMaxLen.toNat : ℤ) - 1
      then .again ⟨2, len.toNat, 0, buf⟩ else .ret (0, buf.store 0 0) := by
    simp only [receiveRound, ReadResult.c, receiveTail, uchar]
    simp
    rfl
  rcases hn : min len.toNat (bufMaxLen.toNat - 3) with _ | m
  · rw [if_neg (by omega)] at hstep
    rw [run_ret hstep]
    simp [Answer.value, Answer.fills, Buf.fill]
  · rw [if_pos (by omega)] at hstep
    rw [run_again hstep]
    have hdata := run_data bufMaxLen len.toNat 0 m (by omega) buf rs
    rw [Nat.cast_zero, zero_add] at hdata
    rw [hdata]
    apply Option.map_congr
    rintro ⟨ds, rest⟩ hout
    have hlen := (gapped_of_takeValues hout).1
    simp [Answer.value, Answer.fills, hlen]

theorem run_length_gapped (hm : 3 ≤ bufMaxLen.toNat) (rs : List ReadResult) :
    run (receiveRound uchar bufMaxLen) ⟨1, 0, 0, buf⟩ rs =
      ((takeValue ReadResult.byte? rs).bind fun (len, rs) =>
        (takeValues ReadResult.byte? (min len.toNat (bufMaxLen.toNat - 3)) rs).map
          fun (ds, rs) => (Answer.data ds, rs)).map fun out =>
        ((out.1.value, out.1.fills buf), out.2) := by
  induction rs with
  | nil => rfl
  | cons r rs ih =>
    cases hr : r.byte? with
    | none => rw [run_again (round_length_gap hm hr), ih, takeValue_gap hr]
    | some len =>
      obtain rfl := ReadResult.eq_byte hr
      rw [takeValue_value hr, Option.bind_some, run_length hm, Option.map_map]
      rfl

/-- **The loop of `receive_buf` is the parser**, for every stream of read results. -/
theorem run_receiveRound (hm : 3 ≤ bufMaxLen.toNat) (buf : Buf) (rs : List ReadResult) :
    run (receiveRound uchar bufMaxLen) ⟨0, 0, 0, buf⟩ rs =
      (parseReply (bufMaxLen.toNat - 3) rs).map fun out =>
        ((out.1.value, out.1.fills buf), out.2) := by
  induction rs with
  | nil => rfl
  | cons r rs ih =>
    cases hr : r.byte? with
    | none => rw [run_again (round_header_gap hm hr), ih, parseReply, parseReply, takeValue_gap hr]
    | some h =>
      obtain rfl := ReadResult.eq_byte hr
      rw [parseReply, takeValue_value hr, Option.bind_some]
      dsimp only
      by_cases hh : h = 0 ∨ h = 0xbb
      · rw [if_pos hh, run_again (round_header_data hm hh)]
        exact run_length_gapped hm rs
      · obtain ⟨h0, hbb⟩ := not_or.mp hh
        rw [if_neg hh, run_header_status hm h0 hbb]
        cases rs <;> rfl

/-- A call of `receive_buf` on an open port: it takes one answer off the line. -/
theorem receiveBuf_eq_some (hm : 3 ≤ bufMaxLen.toNat) {p p' : Port} (ho : p.uartOpen = true)
    {out : ℤ × Buf} :
    receiveBuf buf bufMaxLen p = some (out, p') ↔
      ∃ (a : Answer) (used rest : List ReadResult), p.reads = used ++ rest ∧
        a.Spells (bufMaxLen.toNat - 3) used ∧
        out = (a.value, a.fills buf) ∧
        p' = { p with reads := rest, exchanges := addReply used p.exchanges } := by
  have htake (used rest : List ReadResult) :
      (used ++ rest).take ((used ++ rest).length - rest.length) = used := by simp
  simp only [receiveBuf, ho, Bool.not_true, Bool.false_eq_true, ↓reduceIte, run_receiveRound hm,
    Option.map_map, Option.map_eq_some_iff, Function.comp_apply]
  constructor
  · rintro ⟨⟨a, rest⟩, hparse, heq⟩
    obtain ⟨used, hreads, hspells⟩ := spells_of_parseReply hparse
    obtain ⟨rfl, rfl⟩ := Prod.mk.inj heq
    exact ⟨a, used, rest, hreads, hspells, rfl, by rw [hreads, htake]⟩
  · rintro ⟨a, used, rest, hreads, hspells, rfl, rfl⟩
    refine ⟨(a, rest), ?_, by rw [hreads, htake]⟩
    rw [hreads]
    exact parseReply_of_spells hspells rest

end RpiUart

end CmaesSolenoid

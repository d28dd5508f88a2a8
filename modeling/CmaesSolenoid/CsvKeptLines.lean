import CmaesSolenoid.CsvUpdates

/-!
# What an update keeps of a file

Loading stops at the first piece it cannot read, the constructor does not tell, and the
next update writes what has been loaded.
-/

namespace CmaesSolenoid
open LineBuffer

namespace CsvReader
open Ascii

/-- The key and the value of a line `key,value` of at most 1000 characters; the line may
end with CR. -/
def wellFormedLine (line : Str) : Option Entry :=
  let text := if line.getLast? = some cr then line.dropLast else line
  match breakAt comma text with
  | none => none
  | some (key, val) => if Plain key val ∧ text.length ≤ 1000 then some ⟨key, val⟩ else none

def lastWellFormed (content key : Str) : Option Str :=
  ((content.splitOn lf).filterMap wellFormedLine).reverse.dlookup key

/-- The entry is read from some piece, every piece before it can be read, and no later
one that is read is for the same key. -/
def Reached (lines : List Str) (key val : Str) : Prop :=
  ∃ before line after, lines = before ++ line :: after ∧
    (∀ line' ∈ before, readable line' = true) ∧ lineKind line = .entry key val ∧
    ∀ e ∈ loadedEntries after, e.1 ≠ key

theorem dlookup_reverse_eq_none {es : List Entry} {key : Str} :
    es.reverse.dlookup key = none ↔ ∀ e ∈ es, e.1 ≠ key := by
  rw [List.dlookup_eq_none, List.ne_key]
  constructor
  · exact fun h e he heq => h e (List.mem_reverse.mpr he) heq.symm
  · exact fun h e he heq => h e (List.mem_reverse.mp he) heq.symm

theorem entriesOf_singleton {line key val : Str} (h : lineKind line = .entry key val) :
    entriesOf [line] = [⟨key, val⟩] := by
  unfold entriesOf
  rw [List.filterMap_cons_some (by rw [h]; rfl)]
  rfl

theorem reached_iff {lines : List Str} {key val : Str} :
    Reached lines key val ↔ (loadedEntries lines).reverse.dlookup key = some val := by
  constructor
  · rintro ⟨before, line, after, rfl, hbefore, hline, hafter⟩
    rw [loadedEntries_append hbefore, loadedEntries_cons (readable_of_entry hline),
      entriesOf_singleton hline, List.reverse_append, List.reverse_append, List.dlookup_append,
      List.dlookup_append, dlookup_reverse_eq_none.mpr hafter, Option.none_or,
      List.reverse_singleton, List.dlookup_cons_eq]
    rfl
  · intro h
    induction lines with
    | nil => cases h
    | cons line lines ih =>
      cases hread : readable line with
      | false =>
        rw [loadedEntries_cons_of_not hread] at h
        cases h
      | true =>
        rw [loadedEntries_cons hread, List.reverse_append, List.dlookup_append] at h
        cases hlater : (loadedEntries lines).reverse.dlookup key with
        | some val' =>
          rw [hlater, Option.some_or] at h
          obtain ⟨before, line', after, rfl, hbefore, hrest⟩ := ih (hlater.trans h)
          exact ⟨line :: before, line', after, rfl,
            List.forall_mem_cons.mpr ⟨hread, hbefore⟩, hrest⟩
        | none =>
          rw [hlater, Option.none_or] at h
          have hmem := List.mem_reverse.mp (List.of_mem_dlookup h)
          obtain ⟨line', hline', hentry⟩ := mem_entriesOf.mp hmem
          rw [List.mem_singleton] at hline'
          subst hline'
          exact ⟨[], line', lines, rfl, by simp, hentry, dlookup_reverse_eq_none.mp hlater⟩

namespace Plain

variable {key val : Str}

theorem take (h : Plain key val) (n : ℕ) : Plain key (val.take n) where
  keyPlain := h.keyPlain
  valPlain c hc hmem := h.valPlain c hc (List.mem_of_mem_take hmem)
  keyStart := h.keyStart

theorem record_eq (h : Plain key val) :
    record key val = (key ++ comma :: (val ++ [lf])).take bufSize :=
  record_of_notMem (h.keyPlain nul (by simp)) (h.valPlain nul (by simp))

theorem record_take (h : Plain key val) (hkey : key.length + 1 < bufSize) :
    ∃ n, Fits key (val.take n) ∧ record key val = record key (val.take n) := by
  rcases Nat.lt_or_ge (key.length + val.length) bufSize with hfits | hlong
  · refine ⟨val.length, ?_, ?_⟩
    · rw [List.take_length]
      exact ⟨hkey, hfits⟩
    · rw [List.take_length]
  · obtain ⟨n, hn⟩ := Nat.exists_eq_add_of_lt hkey
    have hlen : (val.take (n + 1)).length = n + 1 := List.length_take_of_le (by omega)
    have hfits : Fits key (val.take (n + 1)) := by
      unfold Fits
      rw [hlen]
      omega
    refine ⟨n + 1, hfits, ?_⟩
    rw [((h.take _).storable hfits).record_buffer (by omega), h.record_eq, List.take_append,
      List.take_of_length_le (by omega)]
    congr 1
    rw [show bufSize - key.length = n + 2 by omega, List.take_succ_cons,
      List.take_append_of_le_length (by omega)]

theorem ownText (h : Plain key val) (hkey : key.length + 1 < bufSize) : OwnText key val := by
  obtain ⟨n, hfits, hrecord⟩ := h.record_take hkey
  have hs := (h.take n).storable hfits
  unfold OwnText
  rw [hrecord, pieces_of_full (by decide) hs.full]
  intro piece hpiece
  rw [List.mem_singleton] at hpiece
  subst hpiece
  exact ⟨hs.full, ownPiece_iff.mpr (.inr ⟨_, hs.lineKind_record⟩)⟩

/-- With a key that fills the buffer there is no room for a value. -/
theorem record_cut (h : Plain key val) (hkey : bufSize ≤ key.length + 1) :
    record key val = (key ++ [comma]).take bufSize := by
  rw [h.record_eq, List.append_cons, List.take_append_of_le_length]
  simpa using hkey

theorem notMem_record_long (h : Plain key val) (hkey : bufSize ≤ key.length + 1) {c : UInt8}
    (hc : c ∈ [cr, lf, nul]) : c ∉ record key val := by
  intro hmem
  rw [h.record_cut hkey] at hmem
  rcases List.mem_append.mp (List.mem_of_mem_take hmem) with hmem | hmem
  · exact h.keyPlain c (List.mem_cons_of_mem _ hc) hmem
  · rw [List.mem_singleton] at hmem
    subst hmem
    revert hc
    decide

theorem lineKind_record_long (h : Plain key val) (hkey : bufSize ≤ key.length + 1) :
    lineKind (record key val) = .malformed := by
  have hloaded : loadedString (record key val) = record key val :=
    loadedString_eq_self (h.notMem_record_long hkey (by simp)) fun hl =>
      h.notMem_record_long hkey (by simp) (List.mem_of_getLast? hl)
  have hhead : (record key val).head? ≠ some numberSign := by
    have hpos : 0 < key.length := by
      unfold bufSize at hkey
      omega
    obtain ⟨c, t, rfl⟩ := List.exists_cons_of_length_pos hpos
    rw [h.record_cut hkey]
    exact h.keyStart
  unfold lineKind
  rw [hloaded, if_neg (record_ne_nil key val), if_neg hhead, h.record_cut hkey]
  rcases Nat.lt_or_ge key.length bufSize with hlt | hge
  · have hfits : (key ++ [comma]).length ≤ bufSize := by
      rw [List.length_append, List.length_singleton]
      omega
    rw [List.take_of_length_le hfits, breakAt_append (h.keyPlain comma (by simp))]
    rfl
  · rw [List.take_append_of_le_length hge, breakAt_of_notMem]
    intro hmem
    exact h.keyPlain comma (by simp) (List.mem_of_mem_take hmem)

theorem record_long (h : Plain key val) (hkey : bufSize ≤ key.length + 1) :
    Full lf bufSize (record key val) ∧ readable (record key val) = false := by
  have hlen : (record key val).length = bufSize := by
    rw [h.record_cut hkey]
    exact List.length_take_of_le (by simpa using hkey)
  refine ⟨.inr ⟨h.notMem_record_long hkey (by simp), hlen⟩, ?_⟩
  unfold readable
  rw [h.lineKind_record_long hkey]

end Plain

theorem construct_long {s : CsvReader} {key val : Str} {m : StringMap}
    (h : Plain key val) (hkey : bufSize ≤ key.length + 1)
    (hm : construct (s.addKeyValuePair .listed .success key val).file = .ok m) (other : Str) :
    m.lookup other = none := by
  obtain ⟨hfull, hread⟩ := h.record_long hkey
  obtain ⟨text, htext⟩ : ∃ text, (s.addKeyValuePair .listed .success key val).file =
      some (header ++ (record key val ++ text)) := by
    rw [addKeyValuePair_file]
    unfold IterationOrder.listed serialise bufs
    rw [AList.entries_insert]
    exact ⟨_, rfl⟩
  rw [htext] at hm
  rw [lookup_header_append hm, pieces_append (by decide) hfull, loadedEntries_cons_of_not hread]
  rfl

/-- An update with a plain pair keeps the last value of every other key with a well-formed line
exactly when this value is the last one read before the first piece that cannot be read,
and the pair's own key leaves room in the buffer. -/
theorem addKeyValuePair_keeps_iff {content key val : Str} {m : StringMap}
    (hm : construct (some content) = .ok m) (hplain : Plain key val) :
    (∀ order other value, other ≠ key → lastWellFormed content other = some value →
      ∃ m', construct
          ((⟨m, some content⟩ : CsvReader).addKeyValuePair order .success key val).file = .ok m' ∧
        m'.lookup other = some value) ↔
      ∀ other value, other ≠ key → lastWellFormed content other = some value →
        key.length + 1 < bufSize ∧ Reached (pieces lf bufSize content) other value := by
  have hs : Reloads ⟨m, some content⟩ := ⟨m, hm, fun _ => rfl⟩
  constructor
  · intro h other value hne hline
    obtain ⟨m', hm', hlookup⟩ := h .listed other value hne hline
    have hshort : key.length + 1 < bufSize := by
      by_contra hlong
      rw [construct_long hplain (Nat.le_of_not_lt hlong) hm'] at hlookup
      cases hlookup
    obtain ⟨m'', hm'', hkept⟩ := add_keeps hs .listed (hplain.ownText hshort)
    obtain rfl := Except.ok.inj (hm'.symm.trans hm'')
    refine ⟨hshort, reached_iff.mpr ?_⟩
    rw [← lookup_of_construct hm, ← hlookup]
    exact (hkept other hne).symm
  · intro h order other value hne hline
    obtain ⟨hshort, hreached⟩ := h other value hne hline
    obtain ⟨m', hm', hkept⟩ := add_keeps hs order (hplain.ownText hshort)
    refine ⟨m', hm', ?_⟩
    rw [hkept other hne]
    exact (lookup_of_construct hm other).trans (reached_iff.mp hreached)

theorem addKeyValuePair_keeps_mixedFile :
    (∀ order other value, other ≠ [99] → lastWellFormed mixedFile other = some value →
      ∃ m', construct ((⟨mixedMap, some mixedFile⟩ : CsvReader).addKeyValuePair order .success
          [99] [53]).file = .ok m' ∧ m'.lookup other = some value) ↔
      ∀ other value, other ≠ [99] → lastWellFormed mixedFile other = some value →
        ([99] : Str).length + 1 < bufSize ∧
          Reached (pieces lf bufSize mixedFile) other value :=
  addKeyValuePair_keeps_iff (show construct (some mixedFile) = .ok mixedMap from rfl) (by decide)

/-- The lines `x` and `b,1`. -/
def malformedFirst : Str := [120, 10, 98, 44, 49, 10]

/-- Adding `a` loses `b`. -/
theorem addKeyValuePair_loses : ¬ ∀ (content key val : Str) (m : StringMap),
    construct (some content) = .ok m → Plain key val →
      ∀ order other value, other ≠ key → lastWellFormed content other = some value →
        ∃ m', construct
            ((⟨m, some content⟩ : CsvReader).addKeyValuePair order .success key val).file = .ok m' ∧
          m'.lookup other = some value := by
  intro h
  have hline : lastWellFormed malformedFirst [98] = some [49] := by decide
  obtain ⟨m', hm', hlookup⟩ := h malformedFirst [97] [49] ∅ rfl (by decide) .listed [98] [49]
    (by decide) hline
  obtain rfl : AList.singleton [97] [49] = m' := Except.ok.inj hm'
  cases hlookup

end CsvReader

end CmaesSolenoid

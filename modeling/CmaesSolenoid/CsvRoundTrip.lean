import CmaesSolenoid.CsvLoading

/-!
# Writing and loading again

What loading can produce, an entry is written as one full piece that loads as this entry
again. So a map of such entries survives being written, and every loaded map is one.
-/

namespace CmaesSolenoid
open LineBuffer

namespace CsvReader
open Ascii

/-- An entry that the file can hold. -/
structure Storable (key val : Str) : Prop where
  keyNul : nul ∉ key
  keyLf : lf ∉ key
  keyComma : comma ∉ key
  keyStart : key.head? ≠ some numberSign
  valNul : nul ∉ val
  valLf : lf ∉ val
  valComma : comma ∉ val
  valEnd : val.getLast? ≠ some cr
  keyFits : key.length + 1 < bufSize
  fits : key.length + val.length < bufSize

theorem lineKind_entry_iff {line key val : Str} :
    lineKind line = .entry key val ↔ ∃ rest, loadedString line = key ++ comma :: rest ∧
      comma ∉ key ∧ rest ≠ [] ∧ (loadedString line).head? ≠ some numberSign ∧
      val = rstrip (firstField rest) := by
  unfold lineKind
  constructor
  · intro h
    split at h
    · cases h
    split at h
    · cases h
    cases hb : breakAt comma (loadedString line) with
    | none =>
      rw [hb] at h
      cases h
    | some r =>
      obtain ⟨k, rest⟩ := r
      rw [hb] at h
      dsimp only at h
      split at h
      · cases h
      · obtain ⟨rfl, rfl⟩ := LineKind.entry.inj h
        obtain ⟨heq, hk⟩ := breakAt_eq_some hb
        exact ⟨rest, heq, hk, by assumption, by assumption, rfl⟩
  · rintro ⟨rest, heq, hk, hr, hhead, rfl⟩
    rw [if_neg (by simp [heq]), if_neg hhead, heq, breakAt_append hk]
    dsimp only
    rw [if_neg hr]

theorem firstField_isPrefix (s : Str) : firstField s <+: s := by
  unfold firstField
  cases hb : breakAt comma s with
  | none => exact List.prefix_rfl
  | some r =>
    obtain ⟨a, b⟩ := r
    obtain ⟨rfl, -⟩ := breakAt_eq_some hb
    exact List.prefix_append _ _

theorem comma_notMem_firstField (s : Str) : comma ∉ firstField s := by
  unfold firstField
  cases hb : breakAt comma s with
  | none =>
    intro h
    obtain ⟨a, b, heq, ha⟩ := List.eq_append_cons_of_mem h
    rw [show s = a ++ comma :: b from heq, breakAt_append ha] at hb
    cases hb
  | some r => exact (breakAt_eq_some hb).2

theorem firstField_eq_self {s : Str} (h : comma ∉ s) : firstField s = s := by
  unfold firstField
  rw [breakAt_of_notMem h]
  rfl

theorem rstrip_isPrefix (s : Str) : rstrip s <+: s := List.rdropWhile_prefix _ _

theorem rstrip_getLast? (s : Str) {c : UInt8} (h : (rstrip s).getLast? = some c) :
    c ≠ cr ∧ c ≠ lf := by
  have hne : rstrip s ≠ [] := by
    intro hnil
    rw [hnil] at h
    cases h
  have hlast := List.rdropWhile_last_not _ s hne
  rw [List.getLast?_eq_some_getLast hne, Option.some.injEq] at h
  subst h
  simpa [rstrip] using hlast

theorem rstrip_eq_self {s : Str} (hcr : s.getLast? ≠ some cr) (hlf : s.getLast? ≠ some lf) :
    rstrip s = s := by
  unfold rstrip
  rw [List.rdropWhile_eq_self_iff]
  intro hne
  rw [List.getLast?_eq_some_getLast hne] at hcr hlf
  simpa using ⟨by simpa using hcr, by simpa using hlf⟩

theorem dropLast_subset_of_isPrefix {s t : Str} (h : s <+: t) : s.dropLast ⊆ t.dropLast := by
  obtain ⟨u, rfl⟩ := h
  cases u with
  | nil => rw [List.append_nil]; exact fun _ => id
  | cons c u =>
    rw [List.dropLast_append_cons]
    exact fun x hx => List.mem_append_left _ (List.dropLast_subset _ hx)

theorem notMem_of_dropLast {s : Str} {c : UInt8} (h : c ∉ s.dropLast) (hl : s.getLast? ≠ some c) :
    c ∉ s := by
  rcases List.eq_nil_or_concat s with rfl | ⟨t, d, rfl⟩
  · simp
  · simp at h hl ⊢
    exact ⟨h, fun heq => hl heq.symm⟩

theorem storable_of_lineKind {line key val : Str} (hl : line.length ≤ bufSize)
    (hlf : lf ∉ line.dropLast) (h : lineKind line = .entry key val) : Storable key val := by
  obtain ⟨rest, heq, hcomma, hrest, hhead, rfl⟩ := lineKind_entry_iff.mp h
  have hpre : key ++ comma :: rest <+: line :=
    heq ▸ (loadedString_isPrefix line).trans (List.takeWhile_prefix _)
  have hnul : nul ∉ key ++ comma :: rest := heq ▸ nul_notMem_loadedString line
  have hval : rstrip (firstField rest) <+: rest := (rstrip_isPrefix _).trans (firstField_isPrefix _)
  have hlf' : lf ∉ key ++ (comma :: rest).dropLast := by
    rw [← List.dropLast_append_cons]
    exact fun hmem => hlf (dropLast_subset_of_isPrefix hpre hmem)
  have hlen : key.length + 1 + rest.length ≤ bufSize := by
    have := hpre.length_le
    rw [List.length_append, List.length_cons] at this
    omega
  have hpos := List.length_pos_iff.mpr hrest
  have hvlen := hval.length_le
  constructor
  · exact fun hm => hnul (List.mem_append_left _ hm)
  · exact fun hm => hlf' (List.mem_append_left _ hm)
  · exact hcomma
  · intro hk
    apply hhead
    rw [heq, List.head?_append, hk]
    rfl
  · exact fun hm => hnul (by simp [hval.subset hm])
  · apply notMem_of_dropLast
    · intro hm
      have hsub := dropLast_subset_of_isPrefix hval hm
      apply hlf'
      rw [List.dropLast_cons_of_ne_nil hrest]
      simp [hsub]
    · exact fun hlast => (rstrip_getLast? _ hlast).2 rfl
  · exact fun hm => comma_notMem_firstField rest ((rstrip_isPrefix _).subset hm)
  · exact fun hlast => (rstrip_getLast? _ hlast).1 rfl
  · omega
  · omega

theorem loadedString_eq_self {line : Str} (hnul : nul ∉ line) (hcr : line.getLast? ≠ some cr) :
    loadedString line = line := by
  unfold loadedString
  rw [cString_eq_self hnul, if_neg hcr]

theorem record_of_notMem {key val : Str} (hkey : nul ∉ key) (hval : nul ∉ val) :
    record key val = (key ++ comma :: (val ++ [lf])).take bufSize := by
  unfold record
  rw [cString_eq_self hkey, cString_eq_self hval]

namespace Storable

variable {key val : Str}

theorem rstrip_val (h : Storable key val) : rstrip val = val :=
  rstrip_eq_self h.valEnd fun hlast => h.valLf (List.mem_of_getLast? hlast)

theorem record_line (h : Storable key val) (hl : key.length + val.length + 1 < bufSize) :
    record key val = (key ++ comma :: val) ++ [lf] := by
  rw [record_of_notMem h.keyNul h.valNul, List.take_of_length_le]
  · simp
  · simp
    omega

/-- The end of the line is cut off: the buffer is full. -/
theorem record_buffer (h : Storable key val) (hl : key.length + val.length + 1 = bufSize) :
    record key val = key ++ comma :: val := by
  have hassoc : key ++ comma :: (val ++ [lf]) = (key ++ comma :: val) ++ [lf] := by simp
  rw [record_of_notMem h.keyNul h.valNul, hassoc, List.take_left']
  simp
  omega

theorem lf_notMem (h : Storable key val) : lf ∉ key ++ comma :: val := by
  have hlf : lf ≠ comma := by decide
  simp [h.keyLf, h.valLf, hlf]

theorem full (h : Storable key val) : Full lf bufSize (record key val) := by
  have hfits := h.fits
  rcases Nat.lt_or_ge (key.length + val.length + 1) bufSize with hl | hl
  · rw [h.record_line hl]
    exact .inl ⟨_, rfl, h.lf_notMem, by simp; omega⟩
  · rw [h.record_buffer (by omega)]
    exact .inr ⟨h.lf_notMem, by simp; omega⟩

theorem lineKind_of_string (h : Storable key val) {line : Str} (rest : Str)
    (hline : loadedString line = key ++ comma :: rest) (hrest : rest ≠ [])
    (hval : rstrip (firstField rest) = val) : lineKind line = .entry key val := by
  refine lineKind_entry_iff.mpr ⟨rest, hline, h.keyComma, hrest, ?_, hval.symm⟩
  rw [hline, List.head?_append]
  cases hk : key.head? with
  | none =>
    change some comma ≠ some numberSign
    decide
  | some c =>
    have hstart := h.keyStart
    rwa [hk] at hstart

/-- A written entry loads as itself. -/
theorem lineKind_record (h : Storable key val) : lineKind (record key val) = .entry key val := by
  have hfits := h.fits
  have hnul : nul ∉ key ++ comma :: val := by
    have hn : nul ≠ comma := by decide
    simp [h.keyNul, h.valNul, hn]
  rcases Nat.lt_or_ge (key.length + val.length + 1) bufSize with hl | hl
  · rw [h.record_line hl]
    have hcomma : comma ∉ val ++ [lf] := by
      have hc : comma ≠ lf := by decide
      simp [h.valComma, hc]
    apply h.lineKind_of_string (val ++ [lf])
    · rw [loadedString_eq_self]
      · simp
      · have hn : nul ≠ lf := by decide
        rw [List.mem_append, not_or]
        exact ⟨hnul, by simpa using hn⟩
      · rw [List.getLast?_concat]
        decide
    · simp
    · rw [firstField_eq_self hcomma]
      unfold rstrip
      rw [List.rdropWhile_concat_pos _ _ _ (by decide)]
      exact h.rstrip_val
  · have hkey := h.keyFits
    have hne : val ≠ [] := by
      rintro rfl
      rw [List.length_nil] at hl
      omega
    rw [h.record_buffer (by omega)]
    apply h.lineKind_of_string val
    · rw [loadedString_eq_self hnul]
      rw [List.getLast?_append_of_ne_nil _ (by simp), List.getLast?_cons_of_ne_nil hne]
      exact h.valEnd
    · exact hne
    · rw [firstField_eq_self h.valComma]
      exact h.rstrip_val

end Storable

def serialise (newMap : StringMap) : Str := (bufs newMap).flatten

theorem record_length_le (key val : Str) : (record key val).length ≤ bufSize :=
  List.length_take_le _ _

theorem record_ne_nil (key val : Str) : record key val ≠ [] := by
  unfold record
  rw [ne_eq, List.take_eq_nil_iff]
  simp [bufSize]

theorem mem_bufs {newMap : StringMap} {buf : Str} (h : buf ∈ bufs newMap) :
    buf = header ∨ ∃ e ∈ newMap.entries, buf = record e.1 e.2 := by
  unfold bufs at h
  rw [List.mem_cons, List.mem_map] at h
  rcases h with h | ⟨e, he, rfl⟩
  · exact .inl h
  · exact .inr ⟨e, he, rfl⟩

theorem buf_fits {newMap : StringMap} {buf : Str} (h : buf ∈ bufs newMap) :
    buf ≠ [] ∧ buf.length ≤ bufSize := by
  obtain rfl | ⟨e, -, rfl⟩ := mem_bufs h
  · decide
  · exact ⟨record_ne_nil _ _, record_length_le _ _⟩

theorem writeBufs_success {texts : List Str} (h : ∀ buf ∈ texts, buf ≠ [] ∧ buf.length ≤ bufSize) :
    writeBufs (fun _ => bufSize) texts = (true, texts.flatten) := by
  induction texts with
  | nil => rfl
  | cons buf texts ih =>
    obtain ⟨⟨hne, hl⟩, htexts⟩ := List.forall_mem_cons.mp h
    have hpos := List.length_pos_iff.mpr hne
    unfold writeBufs
    rw [ih htexts, if_neg (by omega), List.take_of_length_le hl]
    rfl

theorem writeOut_success (newMap : StringMap) (file : Option Str) :
    writeOutHashToFile .success newMap file = (true, some (serialise newMap)) := by
  have hbufs : writeBufs FileOps.success.fwrite (bufs newMap) = (true, serialise newMap) :=
    writeBufs_success fun _ => buf_fits
  unfold writeOutHashToFile
  rw [hbufs]
  rfl

theorem header_full : Full lf bufSize header :=
  .inl ⟨[35, 32, 107, 101, 121, 44, 118, 97, 108, 117, 101], rfl, by decide, by decide⟩

theorem pieces_serialise {newMap : StringMap}
    (h : ∀ e ∈ newMap.entries, Full lf bufSize (record e.1 e.2)) :
    pieces lf bufSize (serialise newMap) = bufs newMap := by
  have hfull : ∀ buf ∈ bufs newMap, Full lf bufSize buf := by
    intro buf hbuf
    obtain rfl | ⟨e, he, rfl⟩ := mem_bufs hbuf
    · exact header_full
    · exact h e he
  exact pieces_flatten (by decide) hfull

/-- The map does not depend on the order in which different keys are entered. -/
theorem lookup_insertAll_entries (m : StringMap) (key : Str) :
    (StringMap.insertAll ∅ m.entries).lookup key = m.lookup key := by
  rw [StringMap.lookup_insertAll, AList.lookup_empty, Option.or_none]
  exact (List.perm_dlookup key m.nodupKeys (List.reverse_perm _).symm).symm

theorem lineKind_header : lineKind header = .comment := by decide

theorem readable_header : readable header = true := by decide

theorem Storable.readable_record {key val : Str} (h : Storable key val) :
    readable (record key val) = true :=
  readable_of_entry h.lineKind_record

theorem entriesOf_records {es : List Entry} (h : ∀ e ∈ es, Storable e.1 e.2) :
    entriesOf (es.map fun e => record e.1 e.2) = es := by
  unfold entriesOf
  rw [List.filterMap_map]
  conv_rhs => rw [← List.filterMap_some (l := es)]
  apply List.filterMap_congr
  intro e he
  rw [Function.comp_apply, (h e he).lineKind_record]
  rfl

theorem entriesOf_header_cons (lines : List Str) :
    entriesOf (header :: lines) = entriesOf lines := by
  unfold entriesOf
  rw [List.filterMap_cons_none]
  rw [lineKind_header]
  rfl

theorem parse_serialise {m : StringMap} (h : ∀ e ∈ m.entries, Storable e.1 e.2) :
    parseCsvFile ∅ (some (serialise m)) = .ok (true, StringMap.insertAll ∅ m.entries) := by
  have hread : ∀ line ∈ bufs m, readable line = true := by
    intro line hline
    obtain rfl | ⟨e, he, rfl⟩ := mem_bufs hline
    · exact readable_header
    · exact (h e he).readable_record
  change parseLines ∅ (pieces lf bufSize (serialise m)) = _
  rw [pieces_serialise fun e he => (h e he).full, parseLines_of_readable ∅ hread]
  unfold bufs
  rw [entriesOf_header_cons, entriesOf_records h]

theorem storable_of_mem_loadedEntries {content : Str} {e : Entry}
    (h : e ∈ loadedEntries (pieces lf bufSize content)) : Storable e.1 e.2 := by
  obtain ⟨line, hline, hentry⟩ := mem_entriesOf.mp h
  have hmem := (List.takeWhile_prefix _).subset hline
  apply storable_of_lineKind _ _ hentry
  · exact length_le_of_mem_pieces (by decide) hmem
  · exact notMem_dropLast_of_mem_pieces (by decide) hmem

theorem storable_of_parse {file : Option Str} {returned : Bool} {m : StringMap}
    (h : parseCsvFile ∅ file = .ok (returned, m)) {key val : Str} (hv : m.lookup key = some val) :
    Storable key val := by
  cases file with
  | none =>
    obtain ⟨-, rfl⟩ := Prod.mk.inj (Except.ok.inj h)
    rw [AList.lookup_empty] at hv
    cases hv
  | some content =>
    obtain rfl := parseLines_ok h
    rw [StringMap.lookup_insertAll, AList.lookup_empty, Option.or_none] at hv
    have hmem := List.mem_reverse.mp (List.of_mem_dlookup hv)
    exact storable_of_mem_loadedEntries hmem

theorem lookup_of_mem_entries {m : StringMap} {e : Entry} (h : e ∈ m.entries) :
    m.lookup e.1 = some e.2 :=
  List.mem_dlookup m.nodupKeys h

theorem lookup_iterate (order : IterationOrder) (m : StringMap) (key : Str) :
    (order.iterate m).lookup key = m.lookup key :=
  AList.perm_lookup (order.perm m)

/-- Whatever has been loaded, also up to a malformed line, is written and loaded back
unchanged. -/
theorem parseCsvFile_normalises {file : Option Str} {returned : Bool} {m : StringMap}
    (h : parseCsvFile ∅ file = .ok (returned, m)) (order : IterationOrder) (old : Option Str) :
    ∃ m', parseCsvFile ∅ (writeOutHashToFile .success (order.iterate m) old).2 = .ok (true, m') ∧
      ∀ key, m'.lookup key = m.lookup key := by
  have hstorable : ∀ e ∈ (order.iterate m).entries, Storable e.1 e.2 := by
    intro e he
    apply storable_of_parse h
    rw [← lookup_iterate order m]
    exact lookup_of_mem_entries he
  rw [writeOut_success]
  refine ⟨_, parse_serialise hstorable, fun key => ?_⟩
  rw [lookup_insertAll_entries, lookup_iterate]

/-- The lines `a,1` with CR LF, `b,2,3`, `x` and `c,4`. -/
def mixedFile : Str := [97, 44, 49, 13, 10, 98, 44, 50, 44, 51, 10, 120, 10, 99, 44, 52]

def mixedMap : StringMap := AList.insert [98] [50] (AList.insert [97] [49] ∅)

theorem parseCsvFile_normalises_mixedFile : ∃ m',
    parseCsvFile ∅ (writeOutHashToFile .success (IterationOrder.listed.iterate mixedMap) none).2 =
      .ok (true, m') ∧ ∀ key, m'.lookup key = mixedMap.lookup key :=
  parseCsvFile_normalises (show parseCsvFile ∅ (some mixedFile) = .ok (false, mixedMap) from rfl)
    .listed none

structure Plain (key val : Str) : Prop where
  keyPlain : ∀ c ∈ [comma, cr, lf, nul], c ∉ key
  valPlain : ∀ c ∈ [comma, cr, lf, nul], c ∉ val
  keyStart : key.head? ≠ some numberSign

theorem plain_iff {key val : Str} : Plain key val ↔
    ([comma, cr, lf, nul].all (fun c => c ∉ key ∧ c ∉ val) = true ∧
      key.head? ≠ some numberSign) := by
  simp only [List.all_eq_true, decide_eq_true_eq]
  constructor
  · exact fun h => ⟨fun c hc => ⟨h.keyPlain c hc, h.valPlain c hc⟩, h.keyStart⟩
  · exact fun h => ⟨fun c hc => (h.1 c hc).1, fun c hc => (h.1 c hc).2, h.2⟩

instance (key val : Str) : Decidable (Plain key val) := decidable_of_iff _ plain_iff.symm

/-- The record has a comma, something behind it and no more than the buffer holds. -/
def Fits (key val : Str) : Prop :=
  key.length + 1 < bufSize ∧ key.length + val.length < bufSize

theorem Plain.storable {key val : Str} (h : Plain key val) (hf : Fits key val) :
    Storable key val where
  keyNul := h.keyPlain nul (by simp)
  keyLf := h.keyPlain lf (by simp)
  keyComma := h.keyPlain comma (by simp)
  keyStart := h.keyStart
  valNul := h.valPlain nul (by simp)
  valLf := h.valPlain lf (by simp)
  valComma := h.valPlain comma (by simp)
  valEnd hlast := h.valPlain cr (by simp) (List.mem_of_getLast? hlast)
  keyFits := hf.1
  fits := hf.2

theorem construct_ok {file : Option Str} {m : StringMap} :
    construct file = .ok m ↔ ∃ returned, parseCsvFile ∅ file = .ok (returned, m) := by
  unfold construct
  cases parseCsvFile ∅ file with
  | error e => simp [bind, Except.bind]
  | ok r =>
    obtain ⟨returned, m'⟩ := r
    change Except.ok m' = Except.ok m ↔ _
    simp

theorem lookup_of_construct {content : Str} {m : StringMap} (h : construct (some content) = .ok m)
    (key : Str) :
    m.lookup key = (loadedEntries (pieces lf bufSize content)).reverse.dlookup key := by
  obtain ⟨returned, hparse⟩ := construct_ok.mp h
  have hm : m = _ := parseLines_ok hparse
  rw [hm, StringMap.lookup_insertAll, AList.lookup_empty, Option.or_none]

theorem fits_of_construct {file : Option Str} {m : StringMap} (h : construct file = .ok m)
    {key val : Str} (hv : m.lookup key = some val) : Fits key val := by
  obtain ⟨returned, hparse⟩ := construct_ok.mp h
  have hstorable := storable_of_parse hparse hv
  exact ⟨hstorable.keyFits, hstorable.fits⟩

/-- A map survives being written exactly when each of its entries fits into the buffer. -/
theorem reload_iff {m : StringMap} (hm : ∀ e ∈ m.entries, Plain e.1 e.2)
    (order : IterationOrder) (old : Option Str) :
    (∃ m', construct (writeOutHashToFile .success (order.iterate m) old).2 = .ok m' ∧
      ∀ key, m'.lookup key = m.lookup key) ↔ ∀ e ∈ m.entries, Fits e.1 e.2 := by
  constructor
  · rintro ⟨m', hm', hsame⟩ e he
    exact fits_of_construct hm' ((hsame e.1).trans (lookup_of_mem_entries he))
  · intro hfits
    have hstorable : ∀ e ∈ (order.iterate m).entries, Storable e.1 e.2 := by
      intro e he
      have he' := (order.perm m).subset he
      exact (hm e he').storable (hfits e he')
    rw [writeOut_success]
    refine ⟨_, construct_ok.mpr ⟨true, parse_serialise hstorable⟩, fun key => ?_⟩
    rw [lookup_insertAll_entries, lookup_iterate]

theorem reload_iff_mixedMap :
    (∃ m', construct (writeOutHashToFile .success (IterationOrder.listed.iterate mixedMap) none).2 =
      .ok m' ∧ ∀ key, m'.lookup key = mixedMap.lookup key) ↔
      ∀ e ∈ mixedMap.entries, Fits e.1 e.2 := by
  refine reload_iff (fun e he => ?_) .listed none
  obtain rfl | rfl : e = ⟨[98], [50]⟩ ∨ e = ⟨[97], [49]⟩ := by simpa [mixedMap] using he
  · decide
  · decide

def longEntry (n : ℕ) : StringMap := AList.singleton [97] (List.replicate n 98)

theorem lookup_longEntry (n : ℕ) : (longEntry n).lookup [97] = some (List.replicate n 98) := rfl

theorem plain_longEntry (n : ℕ) : ∀ e ∈ (longEntry n).entries, Plain e.1 e.2 := by
  intro e he
  obtain rfl : e = ⟨[97], List.replicate n 98⟩ := by simpa [longEntry] using he
  have hone : Plain [97] [98] := by decide
  refine ⟨hone.keyPlain, fun c hc hmem => ?_, hone.keyStart⟩
  obtain rfl := List.eq_of_mem_replicate hmem
  exact hone.valPlain 98 hc (by decide)

/-- A key of one character and a value of 1022: the record is cut. -/
theorem reload_cut : ¬ ∀ (m : StringMap), (∀ e ∈ m.entries, Plain e.1 e.2) →
    ∀ (order : IterationOrder) (old : Option Str),
      ∃ m', construct (writeOutHashToFile .success (order.iterate m) old).2 = .ok m' ∧
        ∀ key, m'.lookup key = m.lookup key := by
  intro h
  obtain ⟨m', hm', hsame⟩ := h (longEntry 1022) (plain_longEntry 1022) .listed none
  have hfits := fits_of_construct hm' ((hsame [97]).trans (lookup_longEntry 1022))
  have hlen : ([97] : Str).length + (List.replicate 1022 98 : Str).length < bufSize := hfits.2
  rw [List.length_replicate] at hlen
  exact absurd hlen (by decide)

end CsvReader

end CmaesSolenoid

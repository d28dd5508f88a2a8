import CmaesSolenoid.CsvRoundTrip

/-!
# Adding an entry to a store

`add_key_value_pair` writes the whole map again. What becomes of the other entries depends
on the text that the new pair is written as, and on what had been loaded before.
-/

namespace CmaesSolenoid
open LineBuffer

namespace CsvReader
open Ascii

/-- A fresh `csv_reader` on the file finds the map. -/
def Reloads (s : CsvReader) : Prop :=
  ∃ m, construct s.file = .ok m ∧ ∀ key, m.lookup key = s.mMap.lookup key

/-- Adding the pair to any store leaves a fresh `csv_reader` every other key as it was. -/
def KeepsOthers (key val : Str) : Prop :=
  ∀ (order : IterationOrder) (s : CsvReader), s.Reloads →
    ∃ m, construct (s.addKeyValuePair order .success key val).file = .ok m ∧
      ∀ other, other ≠ key → m.lookup other = s.mMap.lookup other

def ownPiece (key piece : Str) : Bool :=
  match lineKind piece with
  | .comment => true
  | .entry key' _ => decide (key' = key)
  | _ => false

/-- The text of the pair stands on its own: whole pieces that are comments or entries
for its key. -/
def OwnText (key val : Str) : Prop :=
  ∀ piece ∈ pieces lf bufSize (record key val), Full lf bufSize piece ∧ ownPiece key piece = true

theorem ownPiece_iff {key piece : Str} : ownPiece key piece = true ↔
    lineKind piece = .comment ∨ ∃ val, lineKind piece = .entry key val := by
  unfold ownPiece
  cases hk : lineKind piece with
  | entry key' val => simp
  | _ => simp

theorem readable_of_ownPiece {key piece : Str} (h : ownPiece key piece = true) :
    readable piece = true := by
  unfold readable
  rcases ownPiece_iff.mp h with hk | ⟨val, hk⟩
  · rw [hk]
  · rw [hk]

theorem entry_of_not_own {key piece : Str} (hread : readable piece = true)
    (hown : ownPiece key piece ≠ true) :
    ∃ e : Entry, lineKind piece = .entry e.1 e.2 ∧ e.1 ≠ key := by
  rw [Ne, ownPiece_iff] at hown
  unfold readable at hread
  cases hk : lineKind piece with
  | entry key' val =>
    refine ⟨⟨key', val⟩, rfl, fun hkey => hown (.inr ⟨val, ?_⟩)⟩
    rw [hk]
    exact congrArg (LineKind.entry · val) hkey
  | comment => exact absurd (.inl hk) hown
  | blank => simp [hk] at hread
  | malformed => simp [hk] at hread

theorem entriesOf_own {key : Str} {lines : List Str} (h : ∀ line ∈ lines, ownPiece key line = true)
    {e : Entry} (he : e ∈ entriesOf lines) : e.1 = key := by
  obtain ⟨line, hline, hk⟩ := mem_entriesOf.mp he
  rcases ownPiece_iff.mp (h line hline) with hc | ⟨val, hv⟩
  · rw [hc] at hk
    cases hk
  · rw [hv] at hk
    exact (LineKind.entry.inj hk).1.symm

theorem exists_entries {m : StringMap} {key val : Str} (h : m.lookup key = some val) :
    ∃ before after : List Entry, m.entries = before ++ ⟨key, val⟩ :: after ∧
      ∀ e ∈ before ++ after, e.1 ≠ key := by
  have hmem : (⟨key, val⟩ : Entry) ∈ m.entries := List.of_mem_dlookup h
  obtain ⟨before, after, heq⟩ := List.append_of_mem hmem
  refine ⟨before, after, heq, fun e he hkey => ?_⟩
  have hnd := m.nodupKeys
  rw [heq] at hnd
  have hperm : (before ++ (⟨key, val⟩ : Entry) :: after).Perm (⟨key, val⟩ :: (before ++ after)) :=
    List.perm_middle
  have hcons := (List.perm_nodupKeys hperm).mp hnd
  have hkeys : e.1 ∈ (before ++ after).keys := List.mem_keys_of_mem he
  rw [hkey] at hkeys
  exact (List.nodupKeys_cons.mp hcons).1 hkeys

theorem dlookup_skip {key other : Str} (hne : other ≠ key) {mid : List Entry}
    (hmid : ∀ e ∈ mid, e.1 = key) (before after : List Entry) :
    (before ++ mid ++ after).reverse.dlookup other = (before ++ after).reverse.dlookup other := by
  have hnone : mid.reverse.dlookup other = none := by
    rw [List.dlookup_eq_none]
    intro hmem
    obtain ⟨val, hval⟩ := List.exists_of_mem_keys hmem
    exact hne (hmid _ (List.mem_reverse.mp hval))
  rw [List.reverse_append, List.reverse_append, List.reverse_append, List.dlookup_append,
    List.dlookup_append, List.dlookup_append, hnone, Option.none_or]

theorem parse_ownText {m : StringMap} {key val : Str} {before after : List Entry}
    (heq : m.entries = before ++ ⟨key, val⟩ :: after)
    (hstorable : ∀ e ∈ before ++ after, Storable e.1 e.2) (hown : OwnText key val) :
    parseCsvFile ∅ (some (serialise m)) = .ok (true, StringMap.insertAll ∅
      (before ++ entriesOf (pieces lf bufSize (record key val)) ++ after)) := by
  obtain ⟨hbefore, hafter⟩ := List.forall_mem_append.mp hstorable
  have htexts : serialise m = ([header] ++ before.map (fun e => record e.1 e.2) ++
      pieces lf bufSize (record key val) ++ after.map fun e => record e.1 e.2).flatten := by
    unfold serialise bufs
    rw [heq, List.map_append, List.map_cons, List.flatten_append, List.flatten_append,
      List.flatten_append, flatten_pieces (by decide)]
    simp
  have hrecord {es : List Entry} (hes : ∀ e ∈ es, Storable e.1 e.2) :
      ∀ line ∈ es.map fun e => record e.1 e.2, Full lf bufSize line ∧ readable line = true := by
    intro line hline
    obtain ⟨e, he, rfl⟩ := List.mem_map.mp hline
    exact ⟨(hes e he).full, (hes e he).readable_record⟩
  have hall : ∀ line ∈ [header] ++ before.map (fun e => record e.1 e.2) ++
      pieces lf bufSize (record key val) ++ after.map (fun e => record e.1 e.2),
      Full lf bufSize line ∧ readable line = true := by
    intro line hline
    rw [List.mem_append, List.mem_append, List.mem_append, List.mem_singleton] at hline
    rcases hline with ((rfl | hline) | hline) | hline
    · exact ⟨header_full, readable_header⟩
    · exact hrecord hbefore line hline
    · exact ⟨(hown line hline).1, readable_of_ownPiece (hown line hline).2⟩
    · exact hrecord hafter line hline
  have hp := pieces_flatten (by decide) fun line h => (hall line h).1
  change parseLines ∅ (pieces lf bufSize (serialise m)) = _
  rw [htexts, hp, parseLines_of_readable ∅ fun line h => (hall line h).2, entriesOf_append,
    entriesOf_append, List.singleton_append, entriesOf_header_cons, entriesOf_records hbefore,
    entriesOf_records hafter]

theorem addKeyValuePair_file (order : IterationOrder) (key val : Str) (s : CsvReader) :
    (s.addKeyValuePair order .success key val).file =
      some (serialise (order.iterate (s.mMap.insert key val))) := by
  unfold addKeyValuePair
  rw [writeOut_success]

theorem Reloads.storable {s : CsvReader} (h : s.Reloads) {key val : Str}
    (hv : s.mMap.lookup key = some val) : Storable key val := by
  obtain ⟨m, hm, hsame⟩ := h
  obtain ⟨returned, hparse⟩ := construct_ok.mp hm
  exact storable_of_parse hparse ((hsame key).trans hv)

/-- A pair whose text stands on its own changes no other entry. -/
theorem add_keeps {s : CsvReader} (hs : s.Reloads) (order : IterationOrder) {key val : Str}
    (hown : OwnText key val) :
    ∃ m, construct (s.addKeyValuePair order .success key val).file = .ok m ∧
      ∀ other, other ≠ key → m.lookup other = s.mMap.lookup other := by
  have hnew : (order.iterate (s.mMap.insert key val)).lookup key = some val := by
    rw [lookup_iterate]
    exact AList.lookup_insert _
  obtain ⟨before, after, heq, hothers⟩ := exists_entries hnew
  have hlookup {other : Str} (hne : other ≠ key) :
      (order.iterate (s.mMap.insert key val)).lookup other = s.mMap.lookup other := by
    rw [lookup_iterate]
    exact AList.lookup_insert_ne hne
  have hstorable : ∀ e ∈ before ++ after, Storable e.1 e.2 := by
    intro e he
    apply hs.storable
    rw [← hlookup (hothers e he)]
    apply lookup_of_mem_entries
    rw [heq, List.mem_append, List.mem_cons]
    exact (List.mem_append.mp he).imp_right .inr
  rw [addKeyValuePair_file]
  refine ⟨_, construct_ok.mpr ⟨true, parse_ownText heq hstorable hown⟩, fun other hne => ?_⟩
  have hmid : ∀ e ∈ entriesOf (pieces lf bufSize (record key val)), e.1 = key :=
    fun e he => entriesOf_own (fun line h => (hown line h).2) he
  have hsingle : ∀ e ∈ ([⟨key, val⟩] : List Entry), e.1 = key := by simp
  rw [StringMap.lookup_insertAll, dlookup_skip hne hmid, ← hlookup hne,
    ← lookup_insertAll_entries (order.iterate _), StringMap.lookup_insertAll, heq,
    List.append_cons, dlookup_skip hne hsingle]

/-- A store with the one entry `d`, without a value. -/
def tagged (d : UInt8) : CsvReader where
  mMap := AList.singleton [d] []
  file := some (serialise (AList.singleton [d] []))

theorem storable_tag {d : UInt8} (hd : d ∈ ([97, 98, 99] : Str)) : Storable [d] [] := by
  rcases List.mem_cons.mp hd with rfl | hd
  · constructor <;> decide
  rcases List.mem_cons.mp hd with rfl | hd
  · constructor <;> decide
  obtain rfl := List.mem_singleton.mp hd
  constructor <;> decide

theorem reloads_of_storable {m : StringMap} (h : ∀ e ∈ m.entries, Storable e.1 e.2) :
    Reloads ⟨m, some (serialise m)⟩ :=
  ⟨_, construct_ok.mpr ⟨true, parse_serialise h⟩, lookup_insertAll_entries m⟩

theorem tagged_reloads {d : UInt8} (hd : d ∈ ([97, 98, 99] : Str)) : (tagged d).Reloads := by
  apply reloads_of_storable
  intro e he
  obtain rfl : e = ⟨[d], []⟩ := by simpa using he
  exact storable_tag hd

theorem loadedEntries_header_cons (lines : List Str) :
    loadedEntries (header :: lines) = loadedEntries lines := by
  rw [loadedEntries_cons readable_header, entriesOf_header_cons]
  rfl

theorem pieces_header_append (text : Str) :
    pieces lf bufSize (header ++ text) = header :: pieces lf bufSize text :=
  pieces_append (by decide) header_full text

theorem lookup_header_append {text : Str} {m : StringMap}
    (h : construct (some (header ++ text)) = .ok m) (key : Str) :
    m.lookup key = (loadedEntries (pieces lf bufSize text)).reverse.dlookup key := by
  have hm := lookup_of_construct h key
  rwa [pieces_header_append, loadedEntries_header_cons] at hm

theorem KeepsOthers.tag_reached {key val : Str} (h : KeepsOthers key val) {d : UInt8}
    (hd : d ∈ ([97, 98, 99] : Str)) (hne : [d] ≠ key) :
    ⟨[d], []⟩ ∈ loadedEntries (pieces lf bufSize (record key val ++ record [d] [])) := by
  obtain ⟨m, hm, hsame⟩ := h .listed (tagged d) (tagged_reloads hd)
  have hfile : ((tagged d).addKeyValuePair .listed .success key val).file =
      some (header ++ (record key val ++ record [d] [])) := by
    have hnot : key ∉ (AList.singleton [d] [] : StringMap) := by
      rw [AList.mem_keys, AList.keys_singleton, List.mem_singleton]
      exact Ne.symm hne
    rw [addKeyValuePair_file]
    unfold IterationOrder.listed tagged serialise bufs
    rw [AList.entries_insert_of_notMem hnot]
    simp
  rw [hfile] at hm
  have htag : (tagged d).mMap.lookup [d] = some [] := List.dlookup_cons_eq _ _ _
  have hlookup := (hsame [d] hne).trans htag
  rw [lookup_header_append hm] at hlookup
  exact List.mem_reverse.mp (List.of_mem_dlookup hlookup)

/-- No other key comes to be. -/
theorem KeepsOthers.loaded_own {key val : Str} (h : KeepsOthers key val) {e : Entry}
    (he : e ∈ loadedEntries (pieces lf bufSize (record key val))) : e.1 = key := by
  by_contra hne
  have hempty : Reloads ⟨∅, some (serialise ∅)⟩ := reloads_of_storable (by simp)
  obtain ⟨m, hm, hsame⟩ := h .listed _ hempty
  have hfile : ((⟨∅, some (serialise ∅)⟩ : CsvReader).addKeyValuePair .listed .success key val).file
      = some (header ++ record key val) := by
    rw [addKeyValuePair_file]
    unfold IterationOrder.listed serialise bufs
    simp
  rw [hfile] at hm
  have hlookup := hsame e.1 hne
  rw [lookup_header_append hm, AList.lookup_empty, List.dlookup_eq_none] at hlookup
  exact hlookup (List.mem_keys_of_mem (List.mem_reverse.mpr he))

theorem exists_tag (key rest : Str) :
    ∃ d ∈ ([97, 98, 99] : Str), [d] ≠ key ∧ rest.head? ≠ some d := by
  by_contra! h
  have ha := h 97 (by decide)
  have hb := h 98 (by decide)
  have hc := h 99 (by decide)
  by_cases hka : ([97] : Str) = key
  · subst hka
    have hhead := (hb (by decide)).symm.trans (hc (by decide))
    exact absurd hhead (by decide)
  · by_cases hkb : ([98] : Str) = key
    · subst hkb
      have hhead := (ha hka).symm.trans (hc (by decide))
      exact absurd hhead (by decide)
    · have hhead := (ha hka).symm.trans (hb hkb)
      exact absurd hhead (by decide)

/-- Behind a rest, the tag's record never starts a piece. -/
theorem pieces_rest_tag {rest : Str} (hne : rest ≠ []) (hn : lf ∉ rest)
    (hl : rest.length < bufSize) {d : UInt8} (hd : d ≠ lf) {piece : Str}
    (hp : piece ∈ pieces lf bufSize (rest ++ [d, comma, lf])) :
    piece.head? = rest.head? ∨ piece.head? = some comma ∨ piece.head? = some lf := by
  have hhead (t : Str) : (rest ++ t).head? = rest.head? := List.head?_append_of_ne_nil _ hne
  have hdlf : lf ∉ rest ++ [d] := by simp [hn, hd.symm]
  have hclf : lf ∉ rest ++ [d, comma] := by simp [hn, hd.symm]; decide
  have hline : Full lf bufSize [comma, lf] := .inl ⟨[comma], rfl, by decide, by decide⟩
  have hend : Full lf bufSize [lf] := .inl ⟨[], rfl, by decide, by decide⟩
  rcases Nat.lt_trichotomy (rest.length + 2) bufSize with hlt | heq | hgt
  · have hfull : Full lf bufSize (rest ++ [d, comma, lf]) :=
      .inl ⟨rest ++ [d, comma], by simp, hclf, by simpa using hlt⟩
    rw [pieces_of_full (by decide) hfull, List.mem_singleton] at hp
    subst hp
    exact .inl (hhead _)
  · have hfull : Full lf bufSize (rest ++ [d, comma]) := .inr ⟨hclf, by simpa using heq⟩
    have hparts : rest ++ [d, comma, lf] = (rest ++ [d, comma]) ++ [lf] := by simp
    rw [hparts, pieces_append (by decide) hfull, pieces_of_full (by decide) hend,
      List.mem_pair] at hp
    obtain rfl | rfl := hp
    · exact .inl (hhead _)
    · exact .inr (.inr rfl)
  · have hfull : Full lf bufSize (rest ++ [d]) := .inr ⟨hdlf, by simp; omega⟩
    have hparts : rest ++ [d, comma, lf] = (rest ++ [d]) ++ [comma, lf] := by simp
    rw [hparts, pieces_append (by decide) hfull, pieces_of_full (by decide) hline,
      List.mem_pair] at hp
    obtain rfl | rfl := hp
    · exact .inl (hhead _)
    · exact .inr (.inl rfl)

theorem head?_of_entry {line : Str} {d : UInt8} {val : Str}
    (h : lineKind line = .entry [d] val) : line.head? = some d := by
  obtain ⟨rest, heq, -⟩ := lineKind_entry_iff.mp h
  have hpre : [d] ++ comma :: rest <+: line :=
    heq ▸ (loadedString_isPrefix line).trans (List.takeWhile_prefix _)
  obtain ⟨t, rfl⟩ := hpre
  rfl

theorem loadedEntries_stop {key : Str} {before after : List Str} {piece : Str}
    (hbefore : ∀ line ∈ before, ownPiece key line = true) (hpiece : readable piece = false)
    {e : Entry} (he : e ∈ loadedEntries (before ++ piece :: after)) : e.1 = key := by
  rw [loadedEntries_append fun line h => readable_of_ownPiece (hbefore line h)] at he
  rw [loadedEntries_cons_of_not hpiece, List.append_nil] at he
  exact entriesOf_own hbefore he

/-- The full pieces of the text can be read, and have no entry for another key. -/
theorem KeepsOthers.own {key val : Str} (h : KeepsOthers key val) {ps : List Str} {rest : Str}
    (htext : record key val = ps.flatten ++ rest) (hps : ∀ p ∈ ps, Full lf bufSize p) :
    ∀ p ∈ ps, ownPiece key p = true := by
  by_contra! hbad
  obtain ⟨p, hmem, hp⟩ := hbad
  -- the first piece that is neither a comment nor an entry for the key
  have hsome : (ps.find? fun p => !ownPiece key p).isSome := by
    rw [List.find?_isSome]
    exact ⟨p, hmem, by simpa using hp⟩
  obtain ⟨q, hq⟩ := Option.isSome_iff_exists.mp hsome
  obtain ⟨hqown, before, after, rfl, hbefore⟩ := List.find?_eq_some_iff_append.mp hq
  have hown : ∀ line ∈ before, ownPiece key line = true := by simpa using hbefore
  cases hread : readable q with
  | false =>
    obtain ⟨d, hd, hne, -⟩ := exists_tag key []
    have htag := h.tag_reached hd hne
    rw [htext, List.append_assoc, pieces_flatten_append (by decide) hps, List.append_assoc,
      List.cons_append] at htag
    exact hne (loadedEntries_stop hown hread htag)
  | true =>
    obtain ⟨e, he, hne⟩ := entry_of_not_own hread (by simpa using hqown)
    apply hne
    apply h.loaded_own
    rw [htext, pieces_flatten_append (by decide) hps, List.append_assoc, List.cons_append,
      loadedEntries_append fun line hline => readable_of_ownPiece (hown line hline)]
    apply List.mem_append_right
    rw [loadedEntries_cons hread]
    exact List.mem_append_left _ (mem_entriesOf.mpr ⟨q, List.mem_singleton_self q, he⟩)

/-- Nothing is left over that the next record would be joined to. -/
theorem KeepsOthers.rest_nil {key val : Str} (h : KeepsOthers key val) {ps : List Str}
    {rest : Str} (htext : record key val = ps.flatten ++ rest)
    (hps : ∀ p ∈ ps, Full lf bufSize p) (hn : lf ∉ rest) (hl : rest.length < bufSize) :
    rest = [] := by
  by_contra hne
  have hown := h.own htext hps
  obtain ⟨d, hd, hkey, hhead⟩ := exists_tag key rest
  have htag := h.tag_reached hd hkey
  have hrecord : record [d] [] = [d, comma, lf] := by
    have hs := storable_tag hd
    rw [hs.record_line (by simp [bufSize])]
    simp
  rw [htext, List.append_assoc, pieces_flatten_append (by decide) hps,
    loadedEntries_append fun line hline => readable_of_ownPiece (hown line hline),
    List.mem_append, hrecord] at htag
  rcases htag with htag | htag
  · exact hkey (entriesOf_own hown htag)
  · obtain ⟨q, hq, hentry⟩ := mem_entriesOf.mp htag
    have hqhead := head?_of_entry hentry
    have hdne : ∀ d ∈ ([97, 98, 99] : Str), ∀ c ∈ [lf, comma], d ≠ c := by
      simp [lf, comma]
    have hmem := (List.takeWhile_prefix _).subset hq
    rcases pieces_rest_tag hne hn hl (hdne d hd lf (by simp)) hmem with hc | hc | hc
    · exact hhead (hc.symm.trans hqhead)
    · exact hdne d hd comma (by simp) (Option.some.inj (hqhead.symm.trans hc))
    · exact hdne d hd lf (by simp) (Option.some.inj (hqhead.symm.trans hc))

/-- Adding a pair leaves every other entry of every store as it was exactly when the text of
the pair stands on its own. -/
theorem keepsOthers_iff (key val : Str) : KeepsOthers key val ↔ OwnText key val := by
  constructor
  · intro h
    obtain ⟨ps, rest, htext, hps, hn, hl⟩ := exists_pieces lf (show 0 < bufSize by decide)
      (record key val)
    have hown := h.own htext hps
    have hrest := h.rest_nil htext hps hn hl
    have hpieces : pieces lf bufSize (record key val) = ps := by
      rw [htext, hrest, List.append_nil, pieces_flatten (by decide) hps]
    unfold OwnText
    rw [hpieces]
    exact fun p hp => ⟨hps p hp, hown p hp⟩
  · exact fun hown order s hs => add_keeps hs order hown

/-- The value `x`, LF, `b,1` of the key `a`. -/
def forgingValue : Str := [120, 10, 98, 44, 49]

theorem keepsOthers_forged : ¬ ∀ key val, KeepsOthers key val := by
  intro h
  have hentry : (⟨[98], [49]⟩ : Entry) ∈
      loadedEntries (pieces lf bufSize (record [97] forgingValue)) := by decide
  exact absurd ((h [97] forgingValue).loaded_own hentry) (by decide)

end CsvReader

end CmaesSolenoid

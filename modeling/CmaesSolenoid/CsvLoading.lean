import Mathlib.Data.List.DropRight
import CmaesSolenoid.CsvReader

/-!
# What `csv_reader` loads

`lineKind` says without streams and loops what `parse_csv_file` makes of one piece of the
file. The map it loads holds the last entry for each key among the pieces before the first
one it cannot read.
-/

namespace CmaesSolenoid
open LineBuffer

/-- The kinds of pieces: nothing to look at, which throws; a comment; no key and value;
or an entry. -/
inductive LineKind
  | blank
  | comment
  | malformed
  | entry (key val : Str)
  deriving DecidableEq, Repr

namespace CsvReader
open Ascii

def loadedString (line : Str) : Str :=
  if (cString line).getLast? = some cr then (cString line).dropLast else cString line

def rstrip (s : Str) : Str := s.rdropWhile fun c => c = cr ∨ c = lf

def firstField (s : Str) : Str := (breakAt comma s).elim s Prod.fst

def lineKind (line : Str) : LineKind :=
  if loadedString line = [] then .blank
  else if (loadedString line).head? = some numberSign then .comment
  else
    match breakAt comma (loadedString line) with
    | none => .malformed
    | some (key, rest) => if rest = [] then .malformed else .entry key (rstrip (firstField rest))

theorem charAt_concat (s : Str) (c : UInt8) : charAt (s ++ [c]) s.length = .ok c := by
  simp [charAt]

theorem strip_returns (val : Str) (size : ℕ) (h : size ≤ val.length) :
    ∃ r, stripStringEndingCrLf val size = .ok r := by
  induction size generalizing val with
  | zero => exact ⟨_, rfl⟩
  | succ size ih =>
    have hc : charAt val size = .ok val[size] := by
      unfold charAt
      rw [List.getElem?_eq_getElem h]
    unfold stripStringEndingCrLf
    rw [hc]
    simp only [bind, Except.bind]
    split
    · exact ih _ (by simp; omega)
    · exact ⟨_, rfl⟩

theorem strip_eq_rstrip (val : Str) :
    stripStringEndingCrLf val val.length = .ok ((rstrip val).length, rstrip val) := by
  induction val using List.reverseRecOn with
  | nil => rfl
  | append_singleton s c ih =>
    rw [List.length_append, List.length_singleton]
    unfold stripStringEndingCrLf rstrip
    rw [charAt_concat, List.take_left' rfl, ih]
    by_cases hc : c = cr ∨ c = lf
    · rw [List.rdropWhile_concat_pos _ _ _ (by simpa using hc)]
      simp [bind, Except.bind, hc, rstrip]
    · rw [List.rdropWhile_concat_neg _ _ _ (by simpa using hc)]
      simp [bind, Except.bind, hc]
      rfl

theorem nul_notMem_cString (s : Str) : nul ∉ cString s := by
  intro h
  simpa using List.mem_takeWhile_imp h

theorem cString_eq_self {s : Str} (h : nul ∉ s) : cString s = s := by
  unfold cString
  rw [List.takeWhile_eq_self_iff]
  intro c hc
  simpa using ne_of_mem_of_not_mem hc h

theorem loadedString_isPrefix (line : Str) : loadedString line <+: cString line := by
  unfold loadedString
  split
  · exact List.dropLast_prefix _
  · exact List.prefix_rfl

theorem nul_notMem_loadedString (line : Str) : nul ∉ loadedString line :=
  fun h => nul_notMem_cString line ((loadedString_isPrefix line).subset h)

theorem nul_notMem_firstField {s : Str} (h : nul ∉ s) : nul ∉ firstField s := by
  unfold firstField
  cases hb : breakAt comma s with
  | none => exact h
  | some r =>
    obtain ⟨a, b⟩ := r
    obtain ⟨rfl, -⟩ := breakAt_eq_some hb
    exact fun ha => h (List.mem_append_left _ ha)

theorem getline_eq {str : Str} (hs : str ≠ []) :
    getline comma ⟨str, false⟩ = match breakAt comma str with
      | none => some (str, ⟨[], true⟩)
      | some (field, rest) => some (field, ⟨rest, false⟩) := by
  unfold getline
  exact if_neg (by simpa using hs)

theorem getline_firstField {rest : Str} (hr : rest ≠ []) :
    ∃ ss, getline comma ⟨rest, false⟩ = some (firstField rest, ss) := by
  unfold firstField
  rw [getline_eq hr]
  cases breakAt comma rest with
  | none => exact ⟨_, rfl⟩
  | some r => exact ⟨_, rfl⟩

theorem parseFields_eq (mMap : StringMap) {str : Str} (hs : str ≠ []) (hnul : nul ∉ str) :
    parseFields mMap str = match breakAt comma str with
      | none => .ok none
      | some (key, rest) =>
        if rest = [] then .ok none
        else .ok (some (mMap.insert key (rstrip (firstField rest)))) := by
  unfold parseFields
  rw [getline_eq hs]
  cases hb : breakAt comma str with
  | none => rfl
  | some r =>
    obtain ⟨key, rest⟩ := r
    obtain ⟨rfl, -⟩ := breakAt_eq_some hb
    dsimp only
    by_cases hr : rest = []
    · subst hr
      rfl
    · obtain ⟨ss, hss⟩ := getline_firstField hr
      have hfield : nul ∉ firstField rest :=
        nul_notMem_firstField fun h => hnul (by simp [h])
      have hlen : strlen (firstField rest) = (firstField rest).length := by
        rw [strlen, cString_eq_self hfield]
      rw [hss, if_neg hr]
      dsimp only
      rw [hlen, strip_eq_rstrip]
      rfl

/-- One round of the loop, by the kind of its piece. -/
theorem parseLine_eq (mMap : StringMap) (line : Str) :
    parseLine mMap line = match lineKind line with
      | .blank => .error ⟨0, 0⟩
      | .comment => .ok (some mMap)
      | .malformed => .ok none
      | .entry key val => .ok (some (mMap.insert key val)) := by
  have hnul := nul_notMem_loadedString line
  unfold lineKind
  change (isHeaderLine (loadedString line) >>= fun b =>
    if b = true then pure (some mMap) else parseFields mMap (loadedString line)) = _
  cases hstr : loadedString line with
  | nil => rfl
  | cons c str =>
    rw [hstr] at hnul
    have hne : c :: str ≠ [] := by simp
    have hhead : (c :: str).head? = some numberSign ↔ c = numberSign := by simp
    rw [if_neg hne]
    change (if decide (c = numberSign) = true then pure (some mMap)
      else parseFields mMap (c :: str)) = _
    by_cases hc : c = numberSign
    · rw [if_pos (by simpa using hc), if_pos (hhead.mpr hc)]
      rfl
    · rw [if_neg (by simpa using hc), if_neg (mt hhead.mp hc), parseFields_eq mMap hne hnul]
      cases breakAt comma (c :: str) with
      | none => rfl
      | some r =>
        obtain ⟨key, rest⟩ := r
        dsimp only
        split_ifs <;> rfl

end CsvReader

abbrev Entry := Sigma fun _ : Str => Str

def LineKind.asEntry : LineKind → Option Entry
  | entry key val => some ⟨key, val⟩
  | _ => none

def StringMap.insertAll (m : StringMap) (es : List Entry) : StringMap :=
  es.foldl (fun m e => m.insert e.1 e.2) m

theorem StringMap.lookup_insertAll (es : List Entry) (m : StringMap) (key : Str) :
    (m.insertAll es).lookup key = (es.reverse.dlookup key).or (m.lookup key) := by
  induction es generalizing m with
  | nil => rfl
  | cons e es ih =>
    obtain ⟨k, v⟩ := e
    change (StringMap.insertAll (m.insert k v) es).lookup key = _
    rw [ih, List.reverse_cons, List.dlookup_append, Option.or_assoc]
    congr 1
    by_cases hk : key = k
    · subst hk
      rw [AList.lookup_insert, List.dlookup_cons_eq]
      rfl
    · rw [AList.lookup_insert_ne hk, List.dlookup_cons_ne _ _ hk]
      rfl

namespace CsvReader
open Ascii

def readable (line : Str) : Bool :=
  match lineKind line with
  | .comment => true
  | .entry _ _ => true
  | _ => false

def entriesOf (lines : List Str) : List Entry := lines.filterMap fun line => (lineKind line).asEntry

theorem mem_entriesOf {lines : List Str} {e : Entry} :
    e ∈ entriesOf lines ↔ ∃ line ∈ lines, lineKind line = .entry e.1 e.2 := by
  unfold entriesOf
  rw [List.mem_filterMap]
  constructor
  · rintro ⟨line, hline, he⟩
    refine ⟨line, hline, ?_⟩
    cases hk : lineKind line with
    | entry key val =>
      rw [hk] at he
      obtain rfl : (⟨key, val⟩ : Entry) = e := Option.some.inj he
      rfl
    | _ =>
      rw [hk] at he
      cases he
  · rintro ⟨line, hline, hk⟩
    refine ⟨line, hline, ?_⟩
    rw [hk]
    rfl

theorem entriesOf_append (lines lines' : List Str) :
    entriesOf (lines ++ lines') = entriesOf lines ++ entriesOf lines' :=
  List.filterMap_append

/-- The entries before the first piece that cannot be read. -/
def loadedEntries (lines : List Str) : List Entry := entriesOf (lines.takeWhile readable)

theorem loadedEntries_append {lines lines' : List Str} (h : ∀ line ∈ lines, readable line = true) :
    loadedEntries (lines ++ lines') = entriesOf lines ++ loadedEntries lines' := by
  unfold loadedEntries
  rw [List.takeWhile_append_of_pos h, entriesOf_append]

theorem loadedEntries_cons {line : Str} (h : readable line = true) (lines : List Str) :
    loadedEntries (line :: lines) = entriesOf [line] ++ loadedEntries lines := by
  have hline : ∀ line' ∈ [line], readable line' = true := by simpa using h
  exact loadedEntries_append hline

theorem loadedEntries_cons_of_not {line : Str} (h : readable line = false) (lines : List Str) :
    loadedEntries (line :: lines) = [] := by
  unfold loadedEntries
  rw [List.takeWhile_cons_of_neg (by simp [h])]
  rfl

theorem readable_of_entry {line key val : Str} (h : lineKind line = .entry key val) :
    readable line = true := by
  unfold readable
  rw [h]

/-- Loading goes up to the first piece that cannot be read. -/
theorem parseLines_eq (mMap : StringMap) (lines : List Str) :
    parseLines mMap lines = match lines.find? fun line => !readable line with
      | none => .ok (true, mMap.insertAll (loadedEntries lines))
      | some line =>
        if lineKind line = .blank then .error ⟨0, 0⟩
        else .ok (false, mMap.insertAll (loadedEntries lines)) := by
  induction lines generalizing mMap with
  | nil => rfl
  | cons line lines ih =>
    unfold parseLines loadedEntries
    rw [parseLine_eq, List.find?_cons, List.takeWhile_cons]
    cases hk : lineKind line with
    | blank =>
      have hr : readable line = false := by simp [readable, hk]
      simp [hr, hk, bind, Except.bind]
    | comment =>
      have hr : readable line = true := by simp [readable, hk]
      simp [hr, hk, bind, Except.bind, ih, LineKind.asEntry, loadedEntries, entriesOf]
    | malformed =>
      have hr : readable line = false := by simp [readable, hk]
      simp [hr, hk, bind, Except.bind]
      rfl
    | entry key val =>
      have hr : readable line = true := by simp [readable, hk]
      simp [hr, hk, bind, Except.bind, ih, LineKind.asEntry, loadedEntries, entriesOf,
        StringMap.insertAll]

theorem parseLines_ok {mMap m : StringMap} {lines : List Str} {returned : Bool}
    (h : parseLines mMap lines = .ok (returned, m)) :
    m = mMap.insertAll (loadedEntries lines) := by
  rw [parseLines_eq] at h
  split at h
  · exact (Prod.mk.inj (Except.ok.inj h)).2.symm
  · split at h
    · cases h
    · exact (Prod.mk.inj (Except.ok.inj h)).2.symm

theorem parseLines_of_readable (mMap : StringMap) {lines : List Str}
    (h : ∀ line ∈ lines, readable line = true) :
    parseLines mMap lines = .ok (true, mMap.insertAll (entriesOf lines)) := by
  have hfind : lines.find? (fun line => !readable line) = none := by
    rw [List.find?_eq_none]
    intro line hline
    simp [h line hline]
  rw [parseLines_eq, hfind, loadedEntries, List.takeWhile_eq_self_iff.mpr h]

/-- The piece is empty as a C string, or a lone CR. -/
def StartsBlank (line : Str) : Prop :=
  line.head? = some nul ∨ line = [cr] ∨ line.take 2 = [cr, nul]

theorem cString_eq_nil_iff (s : Str) : cString s = [] ↔ s = [] ∨ s.head? = some nul := by
  cases s with
  | nil => simp [cString]
  | cons c s =>
    unfold cString
    by_cases hc : c = nul
    · simp [hc]
    · simp [hc]

theorem lineKind_eq_blank {line : Str} : lineKind line = .blank ↔ loadedString line = [] := by
  unfold lineKind
  constructor
  · intro h
    by_contra hl
    rw [if_neg hl] at h
    split at h
    · cases h
    · split at h
      · cases h
      · split at h <;> cases h
  · intro h
    rw [if_pos h]

theorem lineKind_blank_iff {line : Str} (hne : line ≠ []) :
    lineKind line = .blank ↔ StartsBlank line := by
  rw [lineKind_eq_blank]
  obtain ⟨c, s, rfl⟩ := List.exists_cons_of_ne_nil hne
  unfold loadedString StartsBlank
  by_cases hc : c = nul
  · simp [cString, hc]
  · have hcons : cString (c :: s) = c :: cString s := by
      unfold cString
      rw [List.takeWhile_cons_of_pos (by simpa using hc)]
    have hblank : (cString s = [] ∧ c = cr) ↔ (c :: s = [cr] ∨ (c :: s).take 2 = [cr, nul]) := by
      rw [cString_eq_nil_iff]
      cases s with
      | nil => simp
      | cons d s => simp [and_comm]
    have hhead : (c :: s).head? ≠ some nul := by simpa using hc
    rw [hcons, ← hblank]
    cases hs : cString s with
    | nil =>
      by_cases hcr : c = cr
      · simp [hcr]
      · simp [hcr, hc]
    | cons d t => simp [hc]; split <;> simp

/-- Loading throws exactly when the first piece that it cannot read starts with NUL, or
with CR and then NUL or its end. Stripping a value never throws. -/
theorem parseCsvFile_returns_iff (mMap : StringMap) (content : Str) :
    ((∃ r, parseCsvFile mMap (some content) = .ok r) ↔
      ∀ p, ((pieces lf bufSize content).find? fun line => !readable line) = some p →
        ¬ StartsBlank p) ∧
    ∀ val : Str, ∃ r, stripStringEndingCrLf val (strlen val) = .ok r := by
  refine ⟨?_, fun val => strip_returns val _ (List.takeWhile_prefix _).length_le⟩
  change (∃ r, parseLines mMap (pieces lf bufSize content) = .ok r) ↔ _
  rw [parseLines_eq]
  cases hfind : (pieces lf bufSize content).find? fun line => !readable line with
  | none => simp
  | some p =>
    have hne := ne_nil_of_mem_pieces (by decide) (List.mem_of_find?_eq_some hfind)
    simp only [Option.some.injEq, forall_eq']
    rw [← lineKind_blank_iff hne]
    split
    · simpa
    · simpa

theorem parseCsvFile_throws : ¬ ∀ mMap content, ∃ r, parseCsvFile mMap (some content) = .ok r := by
  intro h
  obtain ⟨r, hr⟩ := h ∅ [nul]
  cases hr

end CsvReader

end CmaesSolenoid

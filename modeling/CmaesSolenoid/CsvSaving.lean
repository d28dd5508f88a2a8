import CmaesSolenoid.CsvRoundTrip

/-!
# Failing saves

`add_key_value_pair` and `remove_key` change the map first and then write the file in
place, one record after the other. They do not look at the outcome.
-/

namespace CmaesSolenoid

namespace CsvReader

inductive Update
  | addKeyValuePair (key val : Str)
  | removeKey (key : Str)

namespace Update

def newMap (mMap : StringMap) : Update → StringMap
  | addKeyValuePair key val => mMap.insert key val
  | removeKey key => mMap.erase key

/-- `remove_key` returns early when there is nothing to remove. -/
def Skips (mMap : StringMap) : Update → Prop
  | addKeyValuePair _ _ => False
  | removeKey key => key ∉ mMap

end Update

def update (order : IterationOrder) (ops : FileOps) (s : CsvReader) : Update → CsvReader
  | .addKeyValuePair key val => s.addKeyValuePair order ops key val
  | .removeKey key => s.removeKey order ops key

/-- The first `n` of the buffers are accepted as a whole, and the next one not at all. -/
def AcceptsFirst (fwrite : ℕ → ℕ) (texts : List Str) (n : ℕ) : Prop :=
  (∀ i buf, i < n → texts[i]? = some buf → buf.length ≤ fwrite i) ∧
    (n < texts.length → fwrite n = 0)

def Holds (file : Option Str) (m : StringMap) : Prop :=
  ∃ order : IterationOrder, file = some (serialise (order.iterate m))

theorem writeBufs_accepted {fwrite : ℕ → ℕ} {texts : List Str} {n : ℕ}
    (hne : ∀ buf ∈ texts, buf ≠ []) (hn : n ≤ texts.length) (h : AcceptsFirst fwrite texts n) :
    writeBufs fwrite texts = (decide (n = texts.length), (texts.take n).flatten) := by
  induction texts generalizing fwrite n with
  | nil =>
    obtain rfl : n = 0 := by simpa using hn
    rfl
  | cons buf texts ih =>
    obtain ⟨hbuf, htexts⟩ := List.forall_mem_cons.mp hne
    have hpos := List.length_pos_iff.mpr hbuf
    obtain ⟨hwhole, hrefused⟩ := h
    unfold writeBufs
    cases n with
    | zero =>
      have hzero := hrefused (by simp)
      rw [if_pos (by omega)]
      simp
    | succ n =>
      have hlen := hwhole 0 buf (by omega) rfl
      have hrest : AcceptsFirst (fun i => fwrite (i + 1)) texts n := by
        refine ⟨fun i buf' hi hget => hwhole (i + 1) buf' (by omega) hget, fun hlt => ?_⟩
        apply hrefused
        rw [List.length_cons]
        omega
      rw [if_neg (by omega), ih htexts (by simpa using hn) hrest, List.take_of_length_le hlen]
      simp

theorem writeOut_accepted {ops : FileOps} {newMap : StringMap} (file : Option Str) {n : ℕ}
    (hopen : ops.fopen = true) (hclose : ops.fclose = none) (hn : n ≤ (bufs newMap).length)
    (h : AcceptsFirst ops.fwrite (bufs newMap) n) :
    writeOutHashToFile ops newMap file =
      (decide (n = (bufs newMap).length), some ((bufs newMap).take n).flatten) := by
  have hne : ∀ buf ∈ bufs newMap, buf ≠ [] := fun buf hbuf => (buf_fits hbuf).1
  unfold writeOutHashToFile FileOps.fcloseValue FileOps.written
  rw [hopen, hclose, writeBufs_accepted hne hn h]
  by_cases hall : n = (bufs newMap).length
  · simp [hall]
  · simp [hall]

theorem writeOut_closed {ops : FileOps} (newMap : StringMap) (file : Option Str)
    (hopen : ops.fopen = false) : writeOutHashToFile ops newMap file = (false, file) := by
  unfold writeOutHashToFile
  rw [hopen]
  rfl

theorem update_skips {u : Update} {s : CsvReader} (h : u.Skips s.mMap) (order : IterationOrder)
    (ops : FileOps) : s.update order ops u = s := by
  cases u with
  | addKeyValuePair key val => exact absurd h id
  | removeKey key =>
    have habsent : key ∉ s.mMap := h
    change s.removeKey order ops key = s
    unfold removeKey
    rw [if_pos habsent]

theorem update_saves {u : Update} {s : CsvReader} (h : ¬ u.Skips s.mMap) (order : IterationOrder)
    (ops : FileOps) : s.update order ops u =
      ⟨u.newMap s.mMap, (writeOutHashToFile ops (order.iterate (u.newMap s.mMap)) s.file).2⟩ := by
  cases u with
  | addKeyValuePair key val => rfl
  | removeKey key =>
    have hpresent : ¬ key ∉ s.mMap := h
    change s.removeKey order ops key = _
    unfold removeKey
    rw [if_neg hpresent]
    rfl

theorem newMap_skips {u : Update} {m : StringMap} (h : u.Skips m) : u.newMap m = m := by
  cases u with
  | addKeyValuePair key val => exact absurd h id
  | removeKey key =>
    ext1
    exact List.kerase_of_notMem_keys h

/-- The map always becomes the new one. The file stays as it was when it does not open, and
otherwise holds what was written before the first refused write: all of the new map when
none is refused. -/
theorem update_file (order : IterationOrder) (ops : FileOps) (s : CsvReader) (u : Update) :
    (s.update order ops u).mMap = u.newMap s.mMap ∧
    (u.Skips s.mMap ∨ ops.fopen = false → (s.update order ops u).file = s.file) ∧
    (¬ u.Skips s.mMap → ops.fopen = true → ops.fclose = none →
      ∀ n ≤ (bufs (order.iterate (u.newMap s.mMap))).length,
        AcceptsFirst ops.fwrite (bufs (order.iterate (u.newMap s.mMap))) n →
          (s.update order ops u).file =
              some ((bufs (order.iterate (u.newMap s.mMap))).take n).flatten ∧
            (n = (bufs (order.iterate (u.newMap s.mMap))).length →
              Holds (s.update order ops u).file (s.update order ops u).mMap)) := by
  by_cases hskips : u.Skips s.mMap
  · rw [update_skips hskips]
    exact ⟨(newMap_skips hskips).symm, fun _ => rfl, fun h => absurd hskips h⟩
  · rw [update_saves hskips]
    refine ⟨rfl, fun h => ?_, fun _ hopen hclose n hn h => ?_⟩
    · rw [writeOut_closed _ _ (h.resolve_left hskips)]
    · rw [writeOut_accepted _ hopen hclose hn h]
      refine ⟨rfl, fun hall => ⟨order, ?_⟩⟩
      unfold serialise
      rw [hall, List.take_length]

def fullDisk : FileOps where
  fopen := true
  fwrite i := if i = 0 then bufSize else 0
  fclose := none

theorem entries_of_serialise_header {m : StringMap} (h : serialise m = header) :
    m.entries = [] := by
  unfold serialise bufs at h
  rw [List.flatten_cons, List.append_right_eq_self, List.flatten_eq_nil_iff] at h
  apply List.eq_nil_iff_forall_not_mem.mpr
  intro e he
  exact record_ne_nil e.1 e.2 (h _ (List.mem_map_of_mem he))

/-- A save that is cut off behind the header. -/
theorem update_truncates :
    ¬ ∀ (order : IterationOrder) (ops : FileOps) (s : CsvReader) (u : Update),
      Holds s.file s.mMap →
        ((s.update order ops u).file = s.file ∨
          Holds (s.update order ops u).file (u.newMap s.mMap)) ∧
        Holds (s.update order ops u).file (s.update order ops u).mMap := by
  intro h
  have hs : Holds (some (serialise (longEntry 1))) (longEntry 1) := ⟨.listed, rfl⟩
  obtain ⟨-, order, hfile⟩ := h .listed fullDisk ⟨longEntry 1, some (serialise (longEntry 1))⟩
    (.addKeyValuePair [98] [50]) hs
  have hnil := entries_of_serialise_header (Option.some.inj hfile).symm
  have hperm := order.perm ((longEntry 1).insert [98] [50])
  rw [show (order.iterate ((longEntry 1).insert [98] [50])).entries = [] from hnil] at hperm
  exact absurd hperm.length_eq (by decide)

end CsvReader

end CmaesSolenoid

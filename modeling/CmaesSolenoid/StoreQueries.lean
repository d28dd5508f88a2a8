import CmaesSolenoid.ConfigStore
import CmaesSolenoid.Interleaving

/-!
# Queries on the stores

A lookup of a missing key enters it, with an empty string. Runs with and without some more
lookups are compared.
-/

namespace CmaesSolenoid

structure Stores where
  csv : CsvReader
  config : Config

inductive Query
  | getKeyValue (key : Str)
  | getVal (s : Str)
  | getIntKey (s : Str)

/-- The calls of a program; one that saves comes with what happens to its file operations. -/
inductive Call
  | addKeyValuePair (ops : CsvReader.FileOps) (key val : Str)
  | removeKey (ops : CsvReader.FileOps) (key : Str)
  | doesKeyExist (key : Str)
  | getHash
  | setKeyVal (s v : Str)
  | delKey (s : Str)
  | query (q : Query)

inductive Result
  | done
  | bool (b : Bool)
  | string (s : Str)
  | int (n : Option ℤ)
  | hash (m : StringMap)
  deriving DecidableEq

namespace Stores

def ask (s : Stores) : Query → Result × Stores
  | .getKeyValue key =>
    (.string (s.csv.getKeyValue key).1, { s with csv := (s.csv.getKeyValue key).2 })
  | .getVal key => (.string (s.config.getVal key).1, { s with config := (s.config.getVal key).2 })
  | .getIntKey key =>
    (.int (s.config.getIntKey key).1, { s with config := (s.config.getIntKey key).2 })

variable (order : IterationOrder)

def call (s : Stores) : Call → Result × Stores
  | .addKeyValuePair ops key val =>
    (.done, { s with csv := s.csv.addKeyValuePair order ops key val })
  | .removeKey ops key => (.done, { s with csv := s.csv.removeKey order ops key })
  | .doesKeyExist key => (.bool (s.csv.doesKeyExist key), s)
  | .getHash => (.hash s.csv.getHash, s)
  | .setKeyVal key v => (.done, { s with config := s.config.setKeyVal key v })
  | .delKey key => (.bool (s.config.delKey key).1, { s with config := (s.config.delKey key).2 })
  | .query q => s.ask q

end Stores

inductive Item
  | own (c : Call)
  | extra (q : Query)

def Item.isOwn : Item → Bool
  | own _ => true
  | extra _ => false

namespace Stores

variable (order : IterationOrder)

/-- The results of the program's own calls, and the stores at the end. -/
def runItems : Stores → List Item → List Result × Stores
  | s, [] => ([], s)
  | s, .own c :: items =>
    ((s.call order c).1 :: (runItems (s.call order c).2 items).1,
      (runItems (s.call order c).2 items).2)
  | s, .extra q :: items => runItems (s.ask q).2 items

def itemStep (s : Stores) : Item → Option Stores
  | .own c => some (s.call order c).2
  | .extra q => some (s.ask q).2

end Stores

def Query.Present (s : Stores) : Query → Prop
  | getKeyValue key => key ∈ s.csv.mMap
  | getVal key => key ∈ s.config.mMap
  | getIntKey key => key ∈ s.config.mMap

/-- An additional query is for a key that is there. -/
def Item.Harmless (s : Stores) : Item → Prop
  | own _ => True
  | extra q => q.Present s

theorem StringMap.subscript_eq_self_iff {m : StringMap} {key : Str} :
    m.subscript key = m ↔ key ∈ m := by
  unfold StringMap.subscript
  by_cases h : key ∈ m
  · rw [if_pos h]
    exact iff_of_true rfl h
  · rw [if_neg h]
    refine iff_of_false (fun heq => h ?_) h
    rw [← heq]
    exact AList.mem_insert _ |>.mpr (.inl rfl)

namespace Stores

theorem ask_eq_self_iff {s : Stores} {q : Query} : (s.ask q).2 = s ↔ q.Present s := by
  obtain ⟨⟨m, file⟩, ⟨m'⟩⟩ := s
  cases q with
  | getKeyValue key =>
    unfold ask CsvReader.getKeyValue Query.Present
    simp [StringMap.subscript_eq_self_iff]
  | getVal key =>
    unfold ask Config.getVal Query.Present
    simp [StringMap.subscript_eq_self_iff]
  | getIntKey key =>
    unfold ask Config.getIntKey Config.getVal Query.Present
    simp [StringMap.subscript_eq_self_iff]

variable {order : IterationOrder}

/-- Additional queries for keys that are there are not noticed: one call after the other,
both runs are in the same state. -/
theorem runItems_harmless {s : Stores} {items : List Item}
    (h : Interleaving.Meets (itemStep order) Item.Harmless s items) :
    runItems order s items = runItems order s (items.filter Item.isOwn) := by
  induction items generalizing s with
  | nil => rfl
  | cons item items ih =>
    obtain ⟨hitem, hrest⟩ := h
    cases item with
    | own c =>
      have hnext := ih (hrest (s.call order c).2 rfl)
      rw [List.filter_cons_of_pos rfl]
      unfold runItems
      rw [hnext]
    | extra q =>
      have hsame : (s.ask q).2 = s := ask_eq_self_iff.mpr hitem
      have hnext := ih (hrest (s.ask q).2 rfl)
      rw [hsame] at hnext
      rw [List.filter_cons_of_neg (by simp [Item.isOwn]), ← hnext]
      change runItems order (s.ask q).2 items = _
      rw [hsame]

/-- In every run whose additional queries are for keys that are there, the results of the
other calls, the maps and the file are those without these queries; and no other query goes
unnoticed by every program. -/
theorem extra_unnoticed (order : IterationOrder) :
    (∀ s items, Interleaving.Meets (itemStep order) Item.Harmless s items →
      runItems order s items = runItems order s (items.filter Item.isOwn)) ∧
    ∀ s q, (∀ items, runItems order s (.extra q :: items) = runItems order s items) ↔
      q.Present s := by
  refine ⟨fun s items => runItems_harmless, fun s q => ?_⟩
  rw [← ask_eq_self_iff]
  constructor
  · intro h
    exact congrArg Prod.snd (h [])
  · intro hsame items
    change runItems order (s.ask q).2 items = _
    rw [hsame]

/-- Asking for the value of a missing key makes it exist. -/
theorem extra_noticed : ¬ ∀ (order : IterationOrder) (s : Stores) (items : List Item),
    runItems order s items = runItems order s (items.filter Item.isOwn) := by
  intro h
  have hrun := h .listed ⟨⟨∅, none⟩, ⟨∅⟩⟩ [.extra (.getKeyValue [97]), .own (.doesKeyExist [97])]
  have hresults := congrArg Prod.fst hrun
  revert hresults
  decide

end Stores

end CmaesSolenoid

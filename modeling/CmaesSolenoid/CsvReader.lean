import Mathlib.Data.List.AList
import CmaesSolenoid.LineBuffer

/-!
# `csv_reader`: the persistent store

A map that is read from a file of lines `key,value` and written back as a whole after
every change. Strings and files are lists of bytes, and a file that does not exist is
`none`.
-/

namespace CmaesSolenoid
open LineBuffer

/-- A `std::string`, a C string in a buffer, or the content of a file. -/
abbrev Str := List UInt8

namespace Ascii

def nul : UInt8 := 0
def lf : UInt8 := 10
def cr : UInt8 := 13
def numberSign : UInt8 := 35
def comma : UInt8 := 44

end Ascii

abbrev StringMap := AList fun _ : Str => Str

def StringMap.subscript (m : StringMap) (key : Str) : StringMap :=
  if key ∈ m then m else m.insert key []

/-- The order in which an `unordered_map` hands out its entries. -/
structure IterationOrder where
  iterate : StringMap → StringMap
  perm : ∀ m, (iterate m).entries.Perm m.entries

def IterationOrder.listed : IterationOrder where
  iterate m := m
  perm _ := .refl _

/-- `std::out_of_range`, from `at(pos)` on a string of this size. -/
structure OutOfRange where
  pos : ℕ
  size : ℕ
  deriving DecidableEq, Repr

namespace CsvReader
open Ascii

def charAt (str : Str) (pos : ℕ) : Except OutOfRange UInt8 :=
  match str[pos]? with
  | some c => .ok c
  | none => .error ⟨pos, str.length⟩

/-- What `string(buf)`, `%s` and `strlen` take a buffer for: it ends at the first NUL. -/
def cString (buf : Str) : Str := buf.takeWhile (· ≠ nul)

def strlen (buf : Str) : ℕ := (cString buf).length

structure StringStream where
  rest : Str
  eof : Bool

/-- `getline(ss, field, delim)`; it fails, and with it every later one, when there is
nothing to extract, not even a delimiter. -/
def getline (delim : UInt8) (ss : StringStream) : Option (Str × StringStream) :=
  if ss.eof ∨ ss.rest = [] then none
  else
    match breakAt delim ss.rest with
    | none => some (ss.rest, ⟨[], true⟩)
    | some (field, rest) => some (field, ⟨rest, false⟩)

def isHeaderLine (str : Str) : Except OutOfRange Bool := do
  return decide ((← charAt str 0) = numberSign)

/-- The size returned and the string left. -/
def stripStringEndingCrLf (str : Str) : ℕ → Except OutOfRange (ℕ × Str)
  | 0 => return (0, str)
  | size + 1 => do
    if (← charAt str size) = cr ∨ (← charAt str size) = lf then
      stripStringEndingCrLf (str.take size) size
    else return (size + 1, str)

/-- The end of a round: the two `getline` calls and the entry; `none` is the error return. -/
def parseFields (mMap : StringMap) (str : Str) : Except OutOfRange (Option StringMap) :=
  match getline comma ⟨str, false⟩ with
  | none => return none
  | some (key, ss) =>
    match getline comma ss with
    | none => return none
    | some (val, _) => do
      let (_, val) ← stripStringEndingCrLf val (strlen val)
      return some (mMap.insert key val)

def parseLine (mMap : StringMap) (line : Str) : Except OutOfRange (Option StringMap) := do
  let str := cString line
  let str := if str.getLast? = some cr then str.dropLast else str
  if ← isHeaderLine str then return some mMap
  parseFields mMap str

def parseLines (mMap : StringMap) : List Str → Except OutOfRange (Bool × StringMap)
  | [] => return (true, mMap)
  | line :: lines => do
    match ← parseLine mMap line with
    | none => return (false, mMap)
    | some mMap => parseLines mMap lines

/-- What `fgets` can put into `char line[1024]`, and `snprintf` into `char buf[1024]`. -/
def bufSize : ℕ := 1023

def parseCsvFile (mMap : StringMap) : Option Str → Except OutOfRange (Bool × StringMap)
  | none => return (false, mMap)
  | some content => parseLines mMap (pieces lf bufSize content)

/-- The constructor does not look at what `parse_csv_file` returns. -/
def construct (file : Option Str) : Except OutOfRange StringMap := do
  let (_, mMap) ← parseCsvFile ∅ file
  return mMap

def header : Str := [35, 32, 107, 101, 121, 44, 118, 97, 108, 117, 101, 10]

/-- `snprintf(buf, 1024, "%s,%s\n", ...)` -/
def record (key val : Str) : Str := (cString key ++ comma :: (cString val ++ [lf])).take bufSize

/-- How the file operations of one save end: whether the file opens, how many bytes each
`fwrite` accepts at most and, when `fclose` fails, how many of the accepted bytes have
reached the file. -/
structure FileOps where
  fopen : Bool
  fwrite : ℕ → ℕ
  fclose : Option ℕ

namespace FileOps

def success : FileOps where
  fopen := true
  fwrite := fun _ => bufSize
  fclose := none

def fcloseValue (ops : FileOps) : ℤ := if ops.fclose.isSome then -1 else 0

def written (ops : FileOps) (accepted : Str) : Str :=
  match ops.fclose with
  | none => accepted
  | some kept => accepted.take kept

end FileOps

/-- The `fwrite` calls: whether the last one was reached, and what they accepted. -/
def writeBufs (fwrite : ℕ → ℕ) : List Str → Bool × Str
  | [] => (true, [])
  | buf :: bufs =>
    if min (fwrite 0) buf.length = 0 then (false, [])
    else
      ((writeBufs (fun i => fwrite (i + 1)) bufs).1,
        buf.take (fwrite 0) ++ (writeBufs (fun i => fwrite (i + 1)) bufs).2)

def bufs (newMap : StringMap) : List Str :=
  header :: newMap.entries.map fun entry => record entry.1 entry.2

def writeOutHashToFile (ops : FileOps) (newMap : StringMap) (file : Option Str) :
    Bool × Option Str :=
  if !ops.fopen then (false, file)
  else
    let (finished, accepted) := writeBufs ops.fwrite (bufs newMap)
    if !finished then (false, some (ops.written accepted))
    -- a failing `fclose` is not positive
    else if ops.fcloseValue > 0 then (false, some (ops.written accepted))
    else (true, some (ops.written accepted))

end CsvReader

structure CsvReader where
  mMap : StringMap
  file : Option Str

namespace CsvReader

variable (order : IterationOrder)

def addKeyValuePair (ops : FileOps) (key val : Str) (s : CsvReader) : CsvReader where
  mMap := s.mMap.insert key val
  file := (writeOutHashToFile ops (order.iterate (s.mMap.insert key val)) s.file).2

def removeKey (ops : FileOps) (key : Str) (s : CsvReader) : CsvReader :=
  if key ∉ s.mMap then s
  else
    { mMap := s.mMap.erase key
      file := (writeOutHashToFile ops (order.iterate (s.mMap.erase key)) s.file).2 }

def getHash (s : CsvReader) : StringMap := s.mMap

def doesKeyExist (key : Str) (s : CsvReader) : Bool := decide (key ∈ s.mMap)

def getKeyValue (key : Str) (s : CsvReader) : Str × CsvReader :=
  (((s.mMap.subscript key).lookup key).getD [], { s with mMap := s.mMap.subscript key })

end CsvReader

end CmaesSolenoid

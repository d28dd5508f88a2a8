import Mathlib.Algebra.Order.Ring.Int
import CmaesSolenoid.CsvReader

/-!
# `config`: the volatile store

Unlike `csv_reader` it has no file. Its lookups use `map[key]` as well.
-/

namespace CmaesSolenoid

def isSpace (c : UInt8) : Bool := c = 32 ∨ (9 ≤ c ∧ c ≤ 13)

def isDigit (c : UInt8) : Bool := 48 ≤ c ∧ c ≤ 57

def digitsValue (ds : Str) : ℤ := ds.foldl (fun n d => 10 * n + (d.toNat - 48 : ℤ)) 0

/-- `atoi`, where the number is an `int`; beyond that its value is not defined. -/
def atoi (buf : Str) : Option ℤ :=
  let str := (CsvReader.cString buf).dropWhile isSpace
  let value :=
    match str with
    | 45 :: str => -digitsValue (str.takeWhile isDigit)
    | 43 :: str => digitsValue (str.takeWhile isDigit)
    | str => digitsValue (str.takeWhile isDigit)
  if -2 ^ 31 ≤ value ∧ value < 2 ^ 31 then some value else none

structure Config where
  mMap : StringMap

namespace Config

def getVal (s : Str) (c : Config) : Str × Config :=
  (((c.mMap.subscript s).lookup s).getD [], ⟨c.mMap.subscript s⟩)

def setKeyVal (s v : Str) (c : Config) : Config := ⟨c.mMap.insert s v⟩

/-- `erase` returns the number of entries it has removed. -/
def delKey (s : Str) (c : Config) : Bool × Config := (decide (s ∈ c.mMap), ⟨c.mMap.erase s⟩)

def getIntKey (s : Str) (c : Config) : Option ℤ × Config := (atoi (c.getVal s).1, (c.getVal s).2)

end Config

end CmaesSolenoid

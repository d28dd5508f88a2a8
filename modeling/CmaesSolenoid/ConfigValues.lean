import Mathlib.Data.Nat.Digits.Lemmas
import CmaesSolenoid.ConfigStore
import CmaesSolenoid.CsvLoading

/-!
# Values in `config`

Numbers and flags are kept as text. Whatever calls were made, of whatever threads, a value
read is that of the last call that wrote or deleted its key.
-/

namespace CmaesSolenoid

def digit (d : ℕ) : UInt8 := UInt8.ofNat (48 + d)

def decimal (n : ℕ) : Str := if n = 0 then [digit 0] else (Nat.digits 10 n).reverse.map digit

def formatInt (v : ℤ) : Str := if v < 0 then 45 :: decimal v.natAbs else decimal v.natAbs

def snprintfInt (size : ℕ) (v : ℤ) : Str := (formatInt v).take (size - 1)

theorem digit_toNat {d : ℕ} (h : d < 10) : (digit d).toNat = 48 + d := by
  rw [digit, UInt8.toNat_ofNat']
  omega

theorem isDigit_digit {d : ℕ} (h : d < 10) : isDigit (digit d) := by
  simp only [isDigit, decide_eq_true_eq, UInt8.le_iff_toNat_le, digit_toNat h]
  exact ⟨Nat.le_add_right _ _, by simp; omega⟩

theorem isDigit_decimal (n : ℕ) : ∀ c ∈ decimal n, isDigit c := by
  intro c hc
  rw [decimal] at hc
  split_ifs at hc
  · exact List.mem_singleton.mp hc ▸ isDigit_digit (by decide)
  · obtain ⟨d, hd, rfl⟩ := List.mem_map.mp hc
    exact isDigit_digit (Nat.digits_lt_base (by decide) (List.mem_reverse.mp hd))

theorem decimal_ne_nil (n : ℕ) : decimal n ≠ [] := by
  rw [decimal]
  split_ifs with h
  · exact List.cons_ne_nil _ _
  · simpa using Nat.digits_ne_nil_iff_ne_zero.mpr h

theorem foldr_digits {ds : List ℕ} (h : ∀ d ∈ ds, d < 10) :
    ds.foldr (fun d n => 10 * n + ((digit d).toNat - 48 : ℤ)) 0 = Nat.ofDigits 10 ds := by
  induction ds with
  | nil => rfl
  | cons d ds ih =>
    obtain ⟨hd, hds⟩ := List.forall_mem_cons.mp h
    rw [List.foldr_cons, ih hds, digit_toNat hd, Nat.ofDigits]
    push_cast
    ring

theorem digitsValue_decimal (n : ℕ) : digitsValue (decimal n) = n := by
  rw [decimal]
  split_ifs with h
  · rw [h]
    rfl
  · rw [digitsValue, List.foldl_map, List.foldl_reverse,
      foldr_digits fun d => Nat.digits_lt_base (by decide)]
    exact_mod_cast Nat.ofDigits_digits 10 n

theorem takeWhile_decimal (n : ℕ) : (decimal n).takeWhile isDigit = decimal n :=
  List.takeWhile_eq_self_iff.mpr (isDigit_decimal n)

theorem nul_notMem_decimal (n : ℕ) : Ascii.nul ∉ decimal n := fun h =>
  absurd (isDigit_decimal n _ h) (by decide)

theorem nul_notMem_formatInt (v : ℤ) : Ascii.nul ∉ formatInt v := by
  rw [formatInt]
  split_ifs
  · simpa using ⟨by decide, nul_notMem_decimal v.natAbs⟩
  · exact nul_notMem_decimal v.natAbs

theorem of_isDigit {c : UInt8} (h : isDigit c) : isSpace c = false ∧ c ≠ 45 ∧ c ≠ 43 := by
  refine ⟨?_, ?_, ?_⟩
  · have hlow : (48 : UInt8).toNat = 48 := rfl
    have hhigh : (13 : UInt8).toNat = 13 := rfl
    have hspace : (32 : UInt8).toNat = 32 := rfl
    simp only [isDigit, decide_eq_true_eq, UInt8.le_iff_toNat_le] at h
    simp only [isSpace, decide_eq_false_iff_not, UInt8.le_iff_toNat_le, ← UInt8.toNat_inj]
    omega
  · rintro rfl
    revert h
    decide
  · rintro rfl
    revert h
    decide

theorem atoi_formatInt {v : ℤ} (h : -2 ^ 31 ≤ v ∧ v < 2 ^ 31) : atoi (formatInt v) = some v := by
  rw [atoi, CsvReader.cString_eq_self (nul_notMem_formatInt v), formatInt]
  have hif (x : ℤ) (hx : x = v) : (if -2 ^ 31 ≤ x ∧ x < 2 ^ 31 then some x else none) = some v := by
    rw [hx, if_pos h]
  by_cases hneg : v < 0
  · have hvalue : -(v.natAbs : ℤ) = v := by omega
    rw [if_pos hneg, List.dropWhile_cons_of_neg (by decide)]
    refine hif _ ?_
    change -digitsValue ((decimal v.natAbs).takeWhile isDigit) = v
    rw [takeWhile_decimal, digitsValue_decimal, hvalue]
  · have hvalue : (v.natAbs : ℤ) = v := by omega
    have hdigits := digitsValue_decimal v.natAbs
    have htake := takeWhile_decimal v.natAbs
    obtain ⟨c, cs, hcs⟩ := List.exists_cons_of_ne_nil (decimal_ne_nil v.natAbs)
    obtain ⟨hspace, hminus, hplus⟩ :=
      of_isDigit (isDigit_decimal v.natAbs c (hcs ▸ List.mem_cons_self))
    rw [hcs] at hdigits htake
    rw [if_neg hneg, hcs, List.dropWhile_cons_of_neg (by simp [hspace])]
    refine hif _ ?_
    split
    · cases ‹_ = _›
      exact absurd rfl hminus
    · cases ‹_ = _›
      exact absurd rfl hplus
    · rw [htake, hdigits, hvalue]

theorem length_decimal {n : ℕ} (h : n < 10 ^ 10) : (decimal n).length ≤ 10 := by
  rw [decimal]
  split_ifs
  · exact Nat.le_of_lt (by decide)
  · rw [List.length_map, List.length_reverse]
    exact (Nat.digits_length_le_iff (by decide) n).mpr h

theorem snprintfInt_eq {v : ℤ} (h : -2 ^ 31 ≤ v ∧ v < 2 ^ 31) : snprintfInt 80 v = formatInt v := by
  have hlen : (decimal v.natAbs).length ≤ 10 := length_decimal (by omega)
  rw [snprintfInt, List.take_of_length_le]
  rw [formatInt]
  split_ifs
  · rw [List.length_cons]
    omega
  · omega

namespace Config

def setIntKey (s : Str) (v : Int32) (c : Config) : Config := c.setKeyVal s (snprintfInt 80 v.toInt)

def falseText : Str := [102, 97, 108, 115, 101]
def trueText : Str := [116, 114, 117, 101]

/-- `none` is the failed assertion. -/
def getBoolKey (s : Str) (c : Config) : Option Bool × Config :=
  let v := (c.getVal s).1
  (if v = falseText then some false else if v = trueText then some true else none, (c.getVal s).2)

end Config

inductive ConfigCall
  | getVal (s : Str)
  | setKeyVal (s v : Str)
  | delKey (s : Str)
  | getBoolKey (s : Str)
  | getIntKey (s : Str)
  | setIntKey (s : Str) (v : Int32)
  deriving DecidableEq

namespace ConfigCall

def apply (c : Config) : ConfigCall → Config
  | getVal s => (c.getVal s).2
  | setKeyVal s v => c.setKeyVal s v
  | delKey s => (c.delKey s).2
  | getBoolKey s => (c.getBoolKey s).2
  | getIntKey s => (c.getIntKey s).2
  | setIntKey s v => c.setIntKey s v

/-- What the call puts in place of the value of `key`: nothing, where it deletes it. -/
def written (key : Str) : ConfigCall → Option Str
  | setKeyVal s v => if s = key then some v else none
  | setIntKey s v => if s = key then some (snprintfInt 80 v.toInt) else none
  | delKey s => if s = key then some [] else none
  | _ => none

end ConfigCall

namespace Config

variable {c : Config} {key : Str}

def value (c : Config) (key : Str) : Str := (c.mMap.lookup key).getD []

theorem getVal_fst (key : Str) (c : Config) : (c.getVal key).1 = c.value key := by
  rw [getVal, value, StringMap.subscript]
  split_ifs with h
  · rfl
  · rw [AList.lookup_insert, AList.lookup_eq_none.mpr h]
    rfl

theorem value_getVal (key' key : Str) (c : Config) : (c.getVal key').2.value key = c.value key := by
  rw [value, value, getVal, StringMap.subscript]
  split_ifs with h
  · rfl
  · by_cases heq : key = key'
    · rw [heq, AList.lookup_insert, AList.lookup_eq_none.mpr h]
      rfl
    · rw [AList.lookup_insert_ne heq]

theorem value_setKeyVal (s v key : Str) (c : Config) :
    (c.setKeyVal s v).value key = if s = key then v else c.value key := by
  rw [value, value, setKeyVal]
  split_ifs with h
  · rw [h, AList.lookup_insert]
    rfl
  · rw [AList.lookup_insert_ne (Ne.symm h)]

theorem value_delKey (s key : Str) (c : Config) :
    (c.delKey s).2.value key = if s = key then [] else c.value key := by
  rw [value, value, delKey]
  split_ifs with h
  · rw [h, AList.lookup_erase]
    rfl
  · rw [AList.lookup_erase_ne (Ne.symm h)]

theorem value_apply (call : ConfigCall) (key : Str) (c : Config) :
    (call.apply c).value key = (call.written key).getD (c.value key) := by
  cases call with
  | getVal s => exact value_getVal s key c
  | getBoolKey s => exact value_getVal s key c
  | getIntKey s => exact value_getVal s key c
  | setKeyVal s v =>
    rw [ConfigCall.written]
    refine (value_setKeyVal s v key c).trans ?_
    split_ifs <;> rfl
  | setIntKey s v =>
    rw [ConfigCall.written]
    refine (value_setKeyVal s _ key c).trans ?_
    split_ifs <;> rfl
  | delKey s =>
    rw [ConfigCall.written]
    refine (value_delKey s key c).trans ?_
    split_ifs <;> rfl

def lastWrite (key : Str) (calls : List ConfigCall) : Option ConfigCall :=
  (calls.filter fun call => (call.written key).isSome).getLast?

theorem value_calls (calls : List ConfigCall) (key : Str) (c : Config) :
    (calls.foldl ConfigCall.apply c).value key =
      ((lastWrite key calls).bind (ConfigCall.written key)).getD (c.value key) := by
  induction calls using List.reverseRecOn with
  | nil => rfl
  | append_singleton calls call ih =>
    rw [List.foldl_append, List.foldl_cons, List.foldl_nil, value_apply, ih, lastWrite, lastWrite,
      List.filter_append]
    cases h : call.written key with
    | none => simp [h]
    | some text => simp [h]

/-- After any calls a number reads as it was set, text as `atoi` takes it and a key that was
deleted as 0; no other call makes a difference. -/
theorem config_reads_back (calls : List ConfigCall) (key : Str) (c : Config) :
    ((calls.foldl ConfigCall.apply c).getVal key).1 =
        ((lastWrite key calls).bind (ConfigCall.written key)).getD (c.value key) ∧
      ((calls.foldl ConfigCall.apply c).getIntKey key).1 = match lastWrite key calls with
        | some (.setIntKey _ v) => some v.toInt
        | some (.setKeyVal _ v) => atoi v
        | some _ => some 0
        | none => atoi (c.value key) := by
  have hvalue := value_calls calls key c
  refine ⟨(getVal_fst key _).trans hvalue, ?_⟩
  rw [getIntKey, getVal_fst, hvalue]
  cases hlast : lastWrite key calls with
  | none => rfl
  | some call =>
    have hmem := List.mem_of_getLast? hlast
    obtain ⟨text, htext⟩ := Option.isSome_iff_exists.mp (List.mem_filter.mp hmem).2
    rw [Option.bind_some, htext, Option.getD_some]
    cases call with
    | setIntKey s v =>
      obtain ⟨-, h⟩ := Option.ite_none_right_eq_some.mp htext
      have hv : -2 ^ 31 ≤ v.toInt ∧ v.toInt < 2 ^ 31 := ⟨v.le_toInt, v.toInt_lt⟩
      rw [← Option.some.inj h, snprintfInt_eq hv]
      exact atoi_formatInt hv
    | setKeyVal s v =>
      obtain ⟨-, h⟩ := Option.ite_none_right_eq_some.mp htext
      exact congrArg atoi (Option.some.inj h).symm
    | delKey s =>
      obtain ⟨-, h⟩ := Option.ite_none_right_eq_some.mp htext
      exact (congrArg atoi (Option.some.inj h).symm).trans rfl
    | _ => cases htext

end Config

end CmaesSolenoid

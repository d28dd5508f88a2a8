import CmaesSolenoid.CsvLoading
import CmaesSolenoid.RpiUart

/-!
# `file_helper`: a file as a whole

A byte string is written to a file with one `fwrite`, and a file is read into the caller's
memory with one `fread`, without the CR and LF at its end.
-/

namespace CmaesSolenoid.FileHelper
open Ascii CsvReader

def stripEndingCrLf (str : Buf) : ℕ → ℕ × Buf
  | 0 => (0, str)
  | size + 1 =>
    if str size = cr ∨ str size = lf then stripEndingCrLf (str.store size 0) size
    else (size + 1, str)

/-- How the file operations of one read end: whether the file opens, how many bytes `fread`
delivers at most, and what `fclose` returns. -/
structure ReadOps where
  fopen : Bool
  fread : ℕ
  fclose : ℤ

/-- `file_helper_get_file_contents`: the value returned, the memory at `contents`, and
`*written`, which is `none` for a null pointer. -/
def getFileContents (ops : ReadOps) (file : Option Str) (contents : Buf) (written : Option ℕ) :
    Bool × Buf × Option ℕ :=
  match file with
  | none => (false, contents, written)
  | some content =>
    if !ops.fopen then (false, contents, written)
    else
      let lSize := content.length
      let contents := contents.fill 0 (content.take ops.fread)
      if min ops.fread lSize ≠ lSize then (false, contents, written)
      else if ops.fclose > 0 then (false, contents, written)
      else
        let contents := contents.store lSize 0
        let (size, contents) := stripEndingCrLf contents lSize
        (true, contents, written.map fun _ => size)

def storeContentsToFile (ops : FileOps) (contents : Str) (file : Option Str) :
    Bool × Option Str :=
  if !ops.fopen then (false, file)
  else
    let accepted := contents.take (ops.fwrite 0)
    if min (ops.fwrite 0) contents.length = 0 then (false, some (ops.written accepted))
    else if ops.fcloseValue > 0 then (false, some (ops.written accepted))
    else (true, some (ops.written accepted))

/-- `fwrite` accepts so many bytes at most, and everything else succeeds. -/
def accepting (k : ℕ) : FileOps := { FileOps.success with fwrite := fun _ => k }

def readAll (file : Option Str) : ReadOps where
  fopen := true
  fread := (file.getD []).length
  fclose := 0

def Begins (buf : Buf) (s : Str) : Prop := ∀ (i : ℕ) (h : i < s.length), buf i = s[i]

/-- Reading the file gives `c` without the CR and LF at its end, its length and a NUL. -/
def ReadsBack (file : Option Str) (c : Str) : Prop :=
  ∀ contents written, ∃ contents',
    getFileContents (readAll file) file contents (some written) =
      (true, contents', some (rstrip c).length) ∧
    Begins contents' (rstrip c) ∧ contents' (rstrip c).length = nul

/-- Storing succeeds exactly when the file holds all of `c`, and then it is read back. -/
structure Agrees (k : ℕ) (c : Str) (file : Option Str) : Prop where
  returns : (storeContentsToFile (accepting k) c file).1 = true ↔
    (storeContentsToFile (accepting k) c file).2 = some c
  reads : (storeContentsToFile (accepting k) c file).2 = some c →
    ReadsBack (storeContentsToFile (accepting k) c file).2 c

theorem Begins.store {buf : Buf} {s : Str} (h : Begins buf s) (b : UInt8) :
    Begins (buf.store s.length b) s := by
  intro i hi
  rw [Buf.store_other _ (by omega), h i hi]

theorem begins_fill (buf : Buf) (s : Str) : Begins (buf.fill 0 s) s := by
  intro i hi
  have h := buf.fill_getElem 0 s i hi
  rwa [zero_add] at h

theorem stripEndingCrLf_eq (c : Str) {buf : Buf} (h : Begins buf c) (hnul : buf c.length = nul) :
    ∃ buf', stripEndingCrLf buf c.length = ((rstrip c).length, buf') ∧ Begins buf' (rstrip c) ∧
      buf' (rstrip c).length = nul := by
  induction c using List.reverseRecOn generalizing buf with
  | nil => exact ⟨buf, rfl, h, hnul⟩
  | append_singleton c x ih =>
    have hx : buf c.length = x := by
      have hlast := h c.length (by simp)
      rwa [List.getElem_concat_length rfl] at hlast
    have hc : Begins buf c := by
      intro i hi
      have hi' := h i (by rw [List.length_append]; omega)
      rwa [List.getElem_append_left hi] at hi'
    rw [List.length_append, List.length_singleton]
    unfold stripEndingCrLf rstrip
    rw [hx]
    by_cases hstrip : x = cr ∨ x = lf
    · rw [if_pos hstrip, List.rdropWhile_concat_pos _ _ _ (by simpa using hstrip)]
      exact ih (hc.store 0) (Buf.store_same _ _ _)
    · rw [if_neg hstrip, List.rdropWhile_concat_neg _ _ _ (by simpa using hstrip)]
      refine ⟨buf, ?_, h, hnul⟩
      rw [List.length_append, List.length_singleton]

theorem readsBack_self (c : Str) : ReadsBack (some c) c := by
  intro contents written
  obtain ⟨contents', hstrip, hbegins, hnul⟩ :=
    stripEndingCrLf_eq c ((begins_fill contents c).store 0) (Buf.store_same _ _ _)
  refine ⟨contents', ?_, hbegins, hnul⟩
  have hall : (readAll (some c)).fread = c.length := rfl
  unfold getFileContents
  dsimp only
  rw [hall, List.take_length, Nat.min_self, if_neg (by simp [readAll]), if_neg (by simp),
    if_neg (by simp [readAll])]
  change (true, (stripEndingCrLf _ _).2, some (stripEndingCrLf _ _).1) = _
  rw [hstrip]

theorem storeContentsToFile_accepting (k : ℕ) (c : Str) (file : Option Str) :
    storeContentsToFile (accepting k) c file = (decide (min k c.length ≠ 0), some (c.take k)) := by
  unfold storeContentsToFile accepting FileOps.success FileOps.fcloseValue FileOps.written
  by_cases hnone : min k c.length = 0
  · simp [hnone]
  · simp [hnone]

/-- What the file holds is read back in any case, so only the value returned matters. -/
theorem agrees_iff_returns (k : ℕ) (c : Str) (file : Option Str) :
    Agrees k c file ↔ (min k c.length ≠ 0 ↔ c.length ≤ k) := by
  have hreturns : (min k c.length ≠ 0 ↔ c.length ≤ k) ↔
      ((storeContentsToFile (accepting k) c file).1 = true ↔
        (storeContentsToFile (accepting k) c file).2 = some c) := by
    rw [storeContentsToFile_accepting, decide_eq_true_iff, Option.some.injEq,
      List.take_eq_self_iff]
  rw [hreturns]
  constructor
  · exact fun h => h.returns
  · intro h
    refine ⟨h, fun hc => ?_⟩
    rw [hc]
    exact readsBack_self c

/-- The one test of `fwrite` is right exactly for a string that is not empty and of which all or
nothing is accepted. -/
theorem agrees_iff (k : ℕ) (c : Str) (file : Option Str) :
    Agrees k c file ↔ c ≠ [] ∧ (k = 0 ∨ c.length ≤ k) := by
  rw [agrees_iff_returns]
  by_cases hne : c = []
  · simp [hne]
  · have hpos : 0 < c.length := List.length_pos_iff.mpr hne
    constructor
    · intro h
      refine ⟨hne, ?_⟩
      by_cases hk : k = 0
      · exact .inl hk
      · exact .inr (h.mp (by omega))
    · rintro ⟨-, rfl | hall⟩
      · omega
      · omega

/-- The empty string is stored, and called a failure. -/
theorem agrees_empty : ¬ ∀ k c file, Agrees k c file := by
  intro h
  have hempty := (h 0 [] none).returns
  revert hempty
  decide

end CmaesSolenoid.FileHelper

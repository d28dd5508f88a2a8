import Mathlib.Algebra.Order.BigOperators.Group.List
import Mathlib.Algebra.Order.Ring.Nat
import CmaesSolenoid.CsvLoading

/-!
# `popen_cmd`

A command is run, and what it prints is collected in the global `retBuf`, up to the second
line with `::` in it. No bound is checked: whether the text fits depends on the command.
-/

namespace CmaesSolenoid.Canakit
open LineBuffer Ascii CsvReader

def retBufSize : ℕ := 512

/-- What `fgets` can put into `char lbuf[128]`. -/
def lbufSize : ℕ := 127

def marker : Str := [58, 58]

def strstr (haystack needle : Str) : Option Str := seek needle (cString haystack)

def marked (lbuf : Str) : Bool := (strstr lbuf marker).isSome

/-- The variables of the read loop, and the text in `retBuf` whether or not it fits. -/
structure ReadState where
  done : ℕ
  cnt : ℕ
  retBuf : Str

/-- A round of the `while` loop in which `fgets` has delivered a piece. -/
def readRound (s : ReadState) (lbuf : Str) : ReadState where
  retBuf := s.retBuf ++ cString lbuf
  done := if marked lbuf then s.done + 1 else s.done
  cnt := s.cnt + 1

def readLoop (s : ReadState) : List Str → ReadState
  | [] => s
  | lbuf :: pieces =>
    if s.done < 2 then
      let s := readRound s lbuf
      if s.cnt > 1000 then s else readLoop s pieces
    else s

def retBufAfter (output : Str) (rounds : ℕ) : Str :=
  (readLoop ⟨0, 0, []⟩ ((pieces lf lbufSize output).take rounds)).retBuf

/-- How one call turns out: `popen` fails, or the command prints something and ends. What an
output that does not fit does to the program is not defined. -/
inductive Popen
  | failed
  | ran (output : Str) (status : ℤ) (fits : output.length < retBufSize)

def popenCmd (retBuf : Str) : Popen → ℤ × Str
  -- `retBuf` is cleared behind this exit
  | .failed => (1, retBuf)
  | .ran output status _ =>
    (if status ≠ 0 then 1 else 0, retBufAfter output (pieces lf lbufSize output).length)

/-- The pieces of an output that are read. -/
def heardPieces (output : Str) : List Str :=
  (upTo marked 2 (pieces lf lbufSize output)).take 1001

def heard (output : Str) : Str := ((heardPieces output).map cString).flatten

theorem readLoop_retBuf (s : ReadState) (hcnt : s.cnt ≤ 1000) (ps : List Str) :
    (readLoop s ps).retBuf = s.retBuf ++
      (((upTo marked (2 - s.done) ps).take (1001 - s.cnt)).map cString).flatten := by
  induction ps generalizing s with
  | nil => simp [readLoop]
  | cons lbuf ps ih =>
    unfold readLoop
    by_cases hdone : s.done < 2
    · obtain ⟨k, hk⟩ : ∃ k, 2 - s.done = k + 1 := ⟨1 - s.done, by omega⟩
      obtain ⟨n, hn⟩ : ∃ n, 1001 - s.cnt = n + 1 := ⟨1000 - s.cnt, by omega⟩
      have hleft : 2 - (readRound s lbuf).done = if marked lbuf then k else k + 1 := by
        change 2 - (if marked lbuf then s.done + 1 else s.done) = _
        split_ifs <;> omega
      have hnext : (readRound s lbuf).cnt = s.cnt + 1 := rfl
      rw [if_pos hdone, hk, hn, upTo, List.take_succ_cons, List.map_cons, List.flatten_cons,
        ← List.append_assoc]
      dsimp only
      by_cases hlast : (readRound s lbuf).cnt > 1000
      · obtain rfl : n = 0 := by omega
        rw [if_pos hlast, List.take_zero, List.map_nil, List.flatten_nil, List.append_nil]
        rfl
      · obtain rfl : n = 1001 - (readRound s lbuf).cnt := by omega
        rw [if_neg hlast, ih _ (by omega), hleft]
        rfl
    · have hzero : 2 - s.done = 0 := by omega
      rw [if_neg hdone, hzero, upTo_zero]
      simp

/-- The text after any number of rounds comes from the pieces that have been read by then. -/
theorem retBufAfter_eq (output : Str) (rounds : ℕ) :
    retBufAfter output rounds =
      (((upTo marked 2 ((pieces lf lbufSize output).take rounds)).take 1001).map
        cString).flatten := by
  unfold retBufAfter
  rw [readLoop_retBuf _ (Nat.zero_le _)]
  rfl

theorem retBufAfter_end (output : Str) :
    retBufAfter output (pieces lf lbufSize output).length = heard output := by
  rw [retBufAfter_eq, List.take_length]
  rfl

theorem retBufAfter_isPrefix (output : Str) (rounds : ℕ) :
    retBufAfter output rounds <+: heard output := by
  have hread := upTo_isPrefix_of_isPrefix marked
    (List.take_prefix rounds (pieces lf lbufSize output)) 2
  obtain ⟨more, hmore⟩ := List.prefix_take_iff.mpr
    ⟨(List.take_prefix 1001 _).trans hread, List.length_take_le 1001 _⟩
  rw [retBufAfter_eq, heard, heardPieces, ← hmore, List.map_append, List.flatten_append]
  exact List.prefix_append _ _

theorem heard_length (output : Str) :
    (heard output).length = ((heardPieces output).map strlen).sum := by
  rw [heard, List.length_flatten, List.map_map]
  rfl

theorem flatten_lbufs (output : Str) : (pieces lf lbufSize output).flatten = output :=
  flatten_pieces (by decide) output

theorem heardPieces_isPrefix (output : Str) :
    heardPieces output <+: pieces lf lbufSize output :=
  (List.take_prefix _ _).trans (upTo_isPrefix _ _ _)

theorem heard_length_le (output : Str) : (heard output).length ≤ output.length := by
  obtain ⟨unread, hunread⟩ := heardPieces_isPrefix output
  have hall := flatten_lbufs output
  rw [← hunread, List.flatten_append] at hall
  have hcut : ((heardPieces output).map strlen).sum ≤ ((heardPieces output).map List.length).sum :=
    List.sum_le_sum fun lbuf _ => (List.takeWhile_sublist _).length_le
  calc (heard output).length = ((heardPieces output).map strlen).sum := heard_length output
    _ ≤ (heardPieces output).flatten.length := by rwa [List.length_flatten]
    _ ≤ output.length := by
      conv_rhs => rw [← hall, List.length_append]
      exact Nat.le_add_right _ _

theorem nul_notMem_heard (output : Str) : nul ∉ heard output := by
  unfold heard
  intro hmem
  obtain ⟨text, htext, hnul⟩ := List.mem_flatten.mp hmem
  obtain ⟨lbuf, -, rfl⟩ := List.mem_map.mp htext
  exact nul_notMem_cString lbuf hnul

/-- A short text without `::` is taken over as it is. -/
theorem heard_eq_self {output : Str} (hm : ¬ marker <:+: output) (hn : nul ∉ output)
    (hl : output.length ≤ 1001) : heard output = output := by
  have hpiece (lbuf : Str) (hmem : lbuf ∈ pieces lf lbufSize output) : lbuf <:+: output := by
    rw [← flatten_lbufs output]
    exact List.infix_of_mem_flatten hmem
  have hcut (lbuf : Str) (hmem : lbuf ∈ pieces lf lbufSize output) : cString lbuf = lbuf :=
    cString_eq_self fun hnul => hn ((hpiece lbuf hmem).subset hnul)
  have hread : heardPieces output = pieces lf lbufSize output := by
    unfold heardPieces
    rw [upTo_eq_self, List.take_of_length_le ((length_pieces_le (by decide) output).trans hl)]
    intro lbuf hmem
    rw [marked, strstr, hcut lbuf hmem, Bool.eq_false_iff]
    exact fun hsome => hm ((seek_isSome_iff.mp hsome).trans (hpiece lbuf hmem))
  unfold heard
  rw [hread, List.map_congr_left hcut, List.map_id', flatten_lbufs]

/-- The text and its NUL fit at every round exactly if the pieces that are read fit together,
and so do all outputs that are shorter than the buffer. -/
theorem retBuf_fits_iff (output : Str) :
    ((∀ rounds, (retBufAfter output rounds).length + 1 ≤ retBufSize) ↔
      ((heardPieces output).map strlen).sum < retBufSize) ∧
    (output.length < retBufSize →
      ∀ rounds, (retBufAfter output rounds).length + 1 ≤ retBufSize) := by
  have hle (rounds : ℕ) : (retBufAfter output rounds).length ≤ (heard output).length :=
    (retBufAfter_isPrefix output rounds).length_le
  rw [← heard_length]
  refine ⟨⟨fun h => ?_, fun h rounds => (hle rounds).trans_lt h⟩, fun h rounds => ?_⟩
  · rw [← retBufAfter_end]
    exact h _
  · exact ((hle rounds).trans (heard_length_le output)).trans_lt h

/-- Six hundred characters without an end of line. -/
theorem retBuf_overrun :
    ¬ ∀ rounds, (retBufAfter (List.replicate 600 98) rounds).length + 1 ≤ retBufSize := by
  intro h
  have hall := h (pieces lf lbufSize (List.replicate 600 98)).length
  rw [retBufAfter_end, heard_eq_self, List.length_replicate] at hall
  · exact absurd hall (by decide)
  · intro hm
    exact absurd (List.eq_of_mem_replicate (hm.subset (List.mem_cons_self ..))) (by decide)
  · exact fun hn => absurd (List.eq_of_mem_replicate hn) (by decide)
  · rw [List.length_replicate]
    omega

end CmaesSolenoid.Canakit

import Mathlib.Data.List.DropRight

/-!
# Bounded histories

A history that drops its oldest entry when it has grown too long holds the most recent
entries and no others, also when its bound grows by at most one from push to push.
-/

universe u

namespace RecentHistory

variable {α : Type u} {all hist : List α} {b b' : ℕ} {x : α}

/-- One more entry, and without the oldest if there are then too many. -/
def push (bound : ℕ) (hist : List α) (x : α) : List α :=
  let hist := hist ++ [x]
  if hist.length > bound then hist.tail else hist

theorem length_rtake (all : List α) (b : ℕ) : (all.rtake b).length = min b all.length := by
  rw [List.rtake, List.length_drop]
  omega

/-- From the recent entries up to one bound to those up to the next. -/
theorem push_rtake (hle : b ≤ b') (hstep : b' ≤ b + 1) (hpos : 0 < b') :
    push b' (all.rtake b) x = (all ++ [x]).rtake b' := by
  have hlen := length_rtake all b
  rw [push]
  simp only [List.length_append, List.length_singleton, hlen]
  split_ifs with hfull
  · -- the oldest entry goes
    rw [List.rtake, List.rtake, List.tail_append_of_ne_nil]
    · rw [List.tail_drop, List.length_append, List.length_singleton,
        List.drop_append_of_le_length (by omega)]
      congr 2
      omega
    · apply List.ne_nil_of_length_pos
      rw [List.length_drop]
      omega
  · rw [List.rtake, List.rtake, List.length_append, List.length_singleton,
      List.drop_append_of_le_length (by omega)]
    congr 2
    omega

theorem push_rtake_self (hpos : 0 < b) : push b (all.rtake b) x = (all ++ [x]).rtake b :=
  push_rtake le_rfl (Nat.le_succ b) hpos

theorem getLast?_push (hpos : 0 < b) : (push b hist x).getLast? = some x := by
  rw [push]
  split_ifs with h
  · have hne : hist ≠ [] := by
      rintro rfl
      simp only [List.nil_append, List.length_singleton] at h
      omega
    rw [List.tail_append_of_ne_nil hne, List.getLast?_concat]
  · exact List.getLast?_concat

theorem map_rtake {β : Type*} (f : α → β) : (all.rtake b).map f = (all.map f).rtake b := by
  rw [List.rtake, List.rtake, List.map_drop, List.length_map]

theorem rtake_rtake_of_le (h : b ≤ b') : (all.rtake b').rtake b = all.rtake b := by
  rw [List.rtake, length_rtake, List.rtake, List.drop_drop, List.rtake]
  congr 1
  omega

theorem mem_of_mem_rtake (h : x ∈ all.rtake b) : x ∈ all :=
  List.mem_of_mem_drop h

end RecentHistory

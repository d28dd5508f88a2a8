import CmaesSolenoid.LinearAcceleration
import CmaesSolenoid.MotorExit

/-!
# The sampling test program

The program polls the sensor for ever and prints how many good polls it makes in a second.
How many polls there are between two measurements of this rate depends on the last one.
Arithmetic is exact and counts do not overflow.
-/

namespace CmaesSolenoid
open Interleaving

structure Timeval where
  tvSec : ℤ
  tvUsec : ℤ
  deriving DecidableEq, Repr

def Timeval.micros (t : Timeval) : ℤ := t.tvSec * 1000000 + t.tvUsec

/-- One round: the value returned by `get_linear_acceleration` with its out-parameters, and
what the clock says behind it. Only a round that measures looks at the clock. -/
structure Poll where
  n : ℤ
  sample : Xyz
  t2 : Timeval
  deriving DecidableEq, Repr

namespace SamplingRate

def wantUpdateHz : ℚ := 1 / 3

def rateOneOver : ℚ := 1 / wantUpdateHz

structure LoopState where
  fps : ℚ
  loopCntr : ℤ
  badCntr : ℤ
  maxMag : ℚ
  deriving DecidableEq, Repr

def start : LoopState := ⟨50, 0, 0, 0⟩

def LoopState.modulus (s : LoopState) : ℤ := truncate (rateOneOver * s.fps)

def delta (t1 t2 : Timeval) : ℚ :=
  ((t2.tvSec - t1.tvSec) * 1000 + (t2.tvUsec - t1.tvUsec) / 1000) / 1000

/-- The largest magnitude is printed, and forgotten little by little. -/
def LoopState.trackMax (s : LoopState) (v : Xyz) : LoopState :=
  let magnitudeSq := v.x * v.x + v.y * v.y + v.z * v.z
  let maxMag := if magnitudeSq > s.maxMag then magnitudeSq else s.maxMag
  { s with maxMag := maxMag * (9999 / 10000) }

/-- One round of the `do` loop; `none` is a division by zero. -/
def mainRound (t1 : Timeval) (s : LoopState) (p : Poll) : Option LoopState :=
  if p.n < 0 then some { s with badCntr := s.badCntr + 1 }
  else
    let s := { s.trackMax p.sample with loopCntr := s.loopCntr + 1 }
    if s.modulus = 0 then none
    else if s.loopCntr.tmod s.modulus = 0 then some { s with fps := s.loopCntr / delta t1 p.t2 }
    else some s

def Increasing (t1 : Timeval) (polls : List Poll) : Prop :=
  (t1.micros :: polls.map fun p => p.t2.micros).Pairwise (· < ·)

def Measures (s : LoopState) (p : Poll) : Prop :=
  0 ≤ p.n ∧ (s.loopCntr + 1).tmod s.modulus = 0

/-- If the rate is measured, it is at least one good poll in three seconds. -/
def FastEnough (t1 : Timeval) (s : LoopState) (p : Poll) : Prop :=
  Measures s p → delta t1 p.t2 ≤ 3 * (s.loopCntr + 1)

theorem truncate_ne_zero_iff {x : ℚ} (h : 0 ≤ x) : truncate x ≠ 0 ↔ 1 ≤ x := by
  have hfloor : 0 ≤ ⌊x⌋ := Int.floor_nonneg.mpr h
  have hone : 1 ≤ ⌊x⌋ ↔ 1 ≤ x := by
    rw [Int.le_floor, Int.cast_one]
  rw [truncate_eq_floor h, ← hone]
  omega

theorem delta_eq (t1 t2 : Timeval) : delta t1 t2 = (t2.micros - t1.micros) / 1000000 := by
  unfold delta Timeval.micros
  push_cast
  ring

theorem rateOneOver_eq : rateOneOver = 3 := by
  norm_num [rateOneOver, wantUpdateHz]

theorem modulus_measured {loopCntr : ℤ} (hl : 0 < loopCntr) {t1 t2 : Timeval}
    (ht : t1.micros < t2.micros) :
    truncate (rateOneOver * (loopCntr / delta t1 t2)) ≠ 0 ↔ delta t1 t2 ≤ 3 * loopCntr := by
  have hdelta : 0 < delta t1 t2 := by
    rw [delta_eq]
    have hlt : (t1.micros : ℚ) < t2.micros := by exact_mod_cast ht
    linarith
  have hloop : (0 : ℚ) < loopCntr := by exact_mod_cast hl
  have heq : rateOneOver * (loopCntr / delta t1 t2) = 3 * loopCntr / delta t1 t2 := by
    rw [rateOneOver_eq, mul_div_assoc]
  rw [heq, truncate_ne_zero_iff (by positivity), le_div_iff₀ hdelta, one_mul]

/-- From a modulus other than zero every round comes to its end, and to zero only by a slow
measurement. -/
theorem mainRound_spec {t1 : Timeval} {s : LoopState} {p : Poll} (hl : 0 ≤ s.loopCntr)
    (hm : s.modulus ≠ 0) (ht : t1.micros < p.t2.micros) :
    ∃ t, mainRound t1 s p = some t ∧ 0 ≤ t.loopCntr ∧ (t.modulus ≠ 0 ↔ FastEnough t1 s p) := by
  unfold mainRound FastEnough Measures
  by_cases hbad : p.n < 0
  · rw [if_pos hbad]
    refine ⟨_, rfl, hl, iff_of_true hm fun h => ?_⟩
    omega
  · rw [if_neg hbad]
    have hmod : ({ s.trackMax p.sample with loopCntr := s.loopCntr + 1 } : LoopState).modulus =
        s.modulus := rfl
    dsimp only
    rw [hmod, if_neg hm]
    by_cases hmeasure : (s.loopCntr + 1).tmod s.modulus = 0
    · rw [if_pos hmeasure]
      have hspec := modulus_measured (by omega : 0 < s.loopCntr + 1) ht
      push_cast at hspec
      refine ⟨_, rfl, by dsimp only; omega, ?_⟩
      unfold LoopState.modulus at hmeasure ⊢
      push_cast
      rw [hspec]
      exact ⟨fun hfast _ => hfast, fun h => h ⟨not_lt.mp hbad, hmeasure⟩⟩
    · rw [if_neg hmeasure]
      refine ⟨_, rfl, by dsimp only; omega, iff_of_true hm fun h => ?_⟩
      exact absurd h.2 hmeasure

/-- The modulus is never zero exactly in the runs in which every measured rate is at least one
good poll in three seconds. -/
theorem modulus_ne_zero_iff (t1 : Timeval) (polls : List Poll) (h : Increasing t1 polls) :
    (∀ k s, run (mainRound t1) start (polls.take k) = some s → s.modulus ≠ 0) ↔
      Meets (mainRound t1) (FastEnough t1) start polls := by
  have hafter : ∀ p ∈ polls, t1.micros < p.t2.micros := fun p hp =>
    (List.pairwise_cons.mp h).1 _ (List.mem_map_of_mem hp)
  have hstart : start.modulus ≠ 0 := by
    decide +kernel
  have hstep (s : LoopState) (p : Poll) (hl : 0 ≤ s.loopCntr) (hm : s.modulus ≠ 0)
      (hp : t1.micros < p.t2.micros) := mainRound_spec hl hm hp
  exact reached_iff_meets hstep (le_refl 0) hstart hafter

def slowPolls (count : ℕ) : List Poll :=
  (List.range count).map fun i : ℕ => ⟨0, ⟨0, 0, 0⟩, ⟨4 * (i + 1), 0⟩⟩

theorem increasing_slowPolls (count : ℕ) : Increasing ⟨0, 0⟩ (slowPolls count) := by
  unfold Increasing slowPolls Timeval.micros
  rw [List.map_map, List.pairwise_cons, List.pairwise_map]
  constructor
  · intro t ht
    obtain ⟨i, -, rfl⟩ := List.mem_map.mp ht
    dsimp only [Function.comp_apply]
    omega
  · apply List.pairwise_lt_range.imp
    intro i j hij
    dsimp only [Function.comp_apply]
    omega

theorem modulus_ne_zero_iff_slowPolls :
    (∀ k s, run (mainRound ⟨0, 0⟩) start ((slowPolls 150).take k) = some s → s.modulus ≠ 0) ↔
      Meets (mainRound ⟨0, 0⟩) (FastEnough ⟨0, 0⟩) start (slowPolls 150) :=
  modulus_ne_zero_iff ⟨0, 0⟩ (slowPolls 150) (increasing_slowPolls 150)

/-- The first measurement, after ten minutes, makes the modulus zero. -/
theorem modulus_eq_zero : ¬ ∀ t1 polls, Increasing t1 polls →
    ∀ k s, run (mainRound t1) start (polls.take k) = some s → s.modulus ≠ 0 := by
  intro h
  have hrun : (run (mainRound ⟨0, 0⟩) start ((slowPolls 150).take 150)).map LoopState.modulus =
      some 0 := by
    decide +kernel
  obtain ⟨s, hs, hzero⟩ := Option.map_eq_some_iff.mp hrun
  exact h ⟨0, 0⟩ (slowPolls 150) (increasing_slowPolls 150) 150 s hs hzero

end SamplingRate

end CmaesSolenoid

import CmaesSolenoid.BnoThread
import CmaesSolenoid.Mean

/-!
# `record_avg_mag_for_ms`: the fitness measurement

The clock is read at the top of each round, and the sampling thread is asked for a sample
when the time is not up. Arithmetic is exact, and the count does not overflow.
-/

namespace CmaesSolenoid
open InputLoop Mean

/-- What `atof` returns, times 1000. -/
inductive Millis
  | finite (q : ℚ)
  | inf
  | negInf
  | nan
  deriving DecidableEq, Repr

def Millis.reached (ms : Millis) (count : ℤ) : Bool :=
  match ms with
  | finite q => decide (q ≤ count)
  | inf => false
  | negInf => true
  | nan => false

/-- A round: the clock in nanoseconds, and the `bno_thread` when it is asked. -/
structure Round where
  stop : ℤ
  thread : BnoThread

namespace Measurement

def elapsed (start : ℤ) (r : Round) : ℤ := (r.stop - start).tdiv 1000000

def getLinaccMag (s : BnoThread) : ℚ :=
  let v := s.getLinearAcceleration
  v.x * v.x + v.y * v.y + v.z * v.z

structure Sums where
  measCnt : ℕ
  sum : ℚ

/-- `sum/(double)meas_cnt`; without a measurement this is 0.0/0.0, which is not a number. -/
def Sums.avgMag (s : Sums) : Option ℚ := if s.measCnt = 0 then none else some (s.sum / s.measCnt)

def measureRound (ms : Millis) (start : ℤ) (s : Sums) (r : Round) : Flow Sums (Option ℚ) :=
  if ms.reached (elapsed start r) then .ret s.avgMag
  else
    let magnitudeSq := getLinaccMag r.thread
    if magnitudeSq ≥ 0 then .again ⟨s.measCnt + 1, s.sum + magnitudeSq⟩ else .again s

def recordAvgMagForMs (ms : Millis) (start : ℤ) (rounds : List Round) :
    Option (Option ℚ × List Round) :=
  run (measureRound ms start) ⟨0, 0⟩ rounds

/-- The squared magnitudes of the samples whose read did not fail. -/
def genuine (rounds : List Round) : List ℚ :=
  (rounds.filter fun r => r.thread.isOpen).map fun r => r.thread.m.sqMagnitude

/-- The call returns after `n` samples with the mean of the genuine ones, which lies between
two of them. -/
structure ReturnsMean (ms : Millis) (start : ℤ) (f : Stream' Round) (n : ℕ) : Prop where
  samples : genuine (f.take n) ≠ []
  returns : recordAvgMagForMs ms start (f.take (n + 1)) =
    some (some (mean (genuine (f.take n))), [])
  above : ∃ x ∈ genuine (f.take n), x ≤ mean (genuine (f.take n))
  below : ∃ x ∈ genuine (f.take n), mean (genuine (f.take n)) ≤ x

/-- The time is up for the first time after `n` samples. -/
def TimeUp (ms : Millis) (start : ℤ) (f : Stream' Round) (n : ℕ) : Prop :=
  (∀ r ∈ f.take n, ms.reached (elapsed start r) = false) ∧
    ms.reached (elapsed start (f.get n)) = true

/-- (-1)² + (-1)² + (-1)² is not negative: the value of a failed read is counted. -/
theorem getLinaccMag_closed {s : BnoThread} (h : s.isOpen = false) : getLinaccMag s = 3 := by
  unfold getLinaccMag BnoThread.getLinearAcceleration
  rw [h]
  norm_num

theorem getLinaccMag_open {s : BnoThread} (h : s.isOpen = true) :
    getLinaccMag s = s.m.sqMagnitude := by
  unfold getLinaccMag BnoThread.getLinearAcceleration
  rw [h]
  rfl

theorem getLinaccMag_nonneg (s : BnoThread) : 0 ≤ getLinaccMag s := by
  unfold getLinaccMag
  exact add_nonneg (add_nonneg (mul_self_nonneg _) (mul_self_nonneg _)) (mul_self_nonneg _)

theorem magnitudes_perm (rounds : List Round) :
    (rounds.map fun r => getLinaccMag r.thread).Perm
      (genuine rounds ++ List.replicate (rounds.countP fun r => !r.thread.isOpen) 3) := by
  have hsplit := (List.filter_append_perm (fun r : Round => r.thread.isOpen) rounds).map
    fun r => getLinaccMag r.thread
  apply hsplit.symm.trans
  rw [List.map_append]
  apply List.Perm.of_eq
  congr 1
  · unfold genuine
    apply List.map_congr_left
    intro r hr
    exact getLinaccMag_open (List.mem_filter.mp hr).2
  · rw [List.eq_replicate_iff, List.length_map, List.countP_eq_length_filter]
    refine ⟨rfl, fun q hq => ?_⟩
    obtain ⟨r, hr, rfl⟩ := List.mem_map.mp hq
    exact getLinaccMag_closed (by simpa using (List.mem_filter.mp hr).2)

variable {ms : Millis} {start : ℤ} {f : Stream' Round} {n : ℕ}

theorem measureRound_sample {r : Round} (h : ms.reached (elapsed start r) = false) (s : Sums) :
    measureRound ms start s r = .again ⟨s.measCnt + 1, s.sum + getLinaccMag r.thread⟩ := by
  unfold measureRound
  rw [h, if_neg (by simp), if_pos (getLinaccMag_nonneg r.thread)]

theorem measureRound_stop {r : Round} (h : ms.reached (elapsed start r) = true) (s : Sums) :
    measureRound ms start s r = .ret s.avgMag := by
  unfold measureRound
  rw [if_pos h]

theorem run_samples {rounds : List Round}
    (h : ∀ r ∈ rounds, ms.reached (elapsed start r) = false) (s : Sums) (rest : List Round) :
    run (measureRound ms start) s (rounds ++ rest) = run (measureRound ms start)
      ⟨s.measCnt + rounds.length, s.sum + (rounds.map fun r => getLinaccMag r.thread).sum⟩
      rest := by
  induction rounds generalizing s with
  | nil => simp
  | cons r rounds ih =>
    obtain ⟨hr, hrounds⟩ := List.forall_mem_cons.mp h
    rw [List.cons_append, run_again (measureRound_sample hr s), ih hrounds]
    congr 2
    · rw [List.length_cons, add_assoc, add_comm 1]
    · rw [List.map_cons, List.sum_cons, add_assoc]

theorem timeUp_of_run {s : Sums} {rounds : List Round} {avg : Option ℚ}
    (h : run (measureRound ms start) s rounds = some (avg, [])) :
    ∃ sampled last, rounds = sampled ++ [last] ∧
      (∀ r ∈ sampled, ms.reached (elapsed start r) = false) ∧
      ms.reached (elapsed start last) = true := by
  induction rounds generalizing s with
  | nil => cases h
  | cons r rounds ih =>
    cases hr : ms.reached (elapsed start r) with
    | true =>
      rw [run_ret (measureRound_stop hr s)] at h
      obtain ⟨-, rfl⟩ := Prod.mk.inj (Option.some.inj h)
      exact ⟨[], r, rfl, by simp, hr⟩
    | false =>
      rw [run_again (measureRound_sample hr s)] at h
      obtain ⟨sampled, last, rfl, hsampled, hlast⟩ := ih h
      exact ⟨r :: sampled, last, rfl, List.forall_mem_cons.mpr ⟨hr, hsampled⟩, hlast⟩

theorem timeUp_iff :
    (∃ avg, recordAvgMagForMs ms start (f.take (n + 1)) = some (avg, [])) ↔
      TimeUp ms start f n := by
  unfold recordAvgMagForMs TimeUp
  rw [Stream'.take_succ']
  constructor
  · rintro ⟨avg, h⟩
    obtain ⟨sampled, last, heq, hsampled, hlast⟩ := timeUp_of_run h
    obtain ⟨rfl, hget⟩ := List.append_inj' heq rfl
    obtain rfl := List.singleton_inj.mp hget
    exact ⟨hsampled, hlast⟩
  · rintro ⟨hsampled, hlast⟩
    rw [run_samples hsampled, run_ret (measureRound_stop hlast _)]
    exact ⟨_, rfl⟩

/-- What it returns then is the mean of all the values, failed reads included. -/
theorem recordAvgMag_eq (h : TimeUp ms start f n) (hn : n ≠ 0) :
    recordAvgMagForMs ms start (f.take (n + 1)) =
      some (some (mean ((f.take n).map fun r => getLinaccMag r.thread)), []) := by
  unfold recordAvgMagForMs
  rw [Stream'.take_succ', run_samples h.1, run_ret (measureRound_stop h.2 _), zero_add, zero_add,
    Stream'.length_take]
  unfold Sums.avgMag mean
  rw [if_neg hn, List.length_map, Stream'.length_take]

theorem ne_zero_of_genuine (h : genuine (f.take n) ≠ []) : n ≠ 0 := by
  rintro rfl
  exact h rfl

theorem mean_magnitudes_iff (h : genuine (f.take n) ≠ []) :
    mean ((f.take n).map fun r => getLinaccMag r.thread) = mean (genuine (f.take n)) ↔
      (∀ r ∈ f.take n, r.thread.isOpen = true) ∨ mean (genuine (f.take n)) = 3 := by
  rw [mean_perm (magnitudes_perm _), mean_append_replicate_iff h, List.countP_eq_zero]
  simp

theorem returnsMean_at_iff : ReturnsMean ms start f n ↔
    TimeUp ms start f n ∧ genuine (f.take n) ≠ [] ∧
      ((∀ r ∈ f.take n, r.thread.isOpen = true) ∨ mean (genuine (f.take n)) = 3) := by
  constructor
  · intro h
    have hup := timeUp_iff.mp ⟨_, h.returns⟩
    have heq := (recordAvgMag_eq hup (ne_zero_of_genuine h.samples)).symm.trans h.returns
    refine ⟨hup, h.samples, (mean_magnitudes_iff h.samples).mp ?_⟩
    simpa using heq
  · rintro ⟨hup, hne, hmean⟩
    refine ⟨hne, ?_, exists_le_mean hne, exists_mean_le hne⟩
    rw [recordAvgMag_eq hup (ne_zero_of_genuine hne), (mean_magnitudes_iff hne).mpr hmean]

/-- The measurement is a genuine mean exactly when the time is up at some test but not at the
first, a read before it succeeds, and none fails unless the mean is 3 by coincidence. -/
theorem returnsMean_iff (ms : Millis) (start : ℤ) (f : Stream' Round) :
    (∃ n, ReturnsMean ms start f n) ↔ ∃ n, TimeUp ms start f n ∧ genuine (f.take n) ≠ [] ∧
      ((∀ r ∈ f.take n, r.thread.isOpen = true) ∨ mean (genuine (f.take n)) = 3) :=
  exists_congr fun _ => returnsMean_at_iff

def stillRound : Round := ⟨0, .constructed (Port.opened [] [])⟩

/-- `atof` makes 0 of a text that is no number: 0 is divided by 0. -/
theorem recordAvgMag_nan : ¬ ∀ (ms : Millis) (start : ℤ) (f : Stream' Round),
    start ≤ (f.get 0).stop → (∀ i, (f.get i).stop ≤ (f.get (i + 1)).stop) →
      ∃ n, ReturnsMean ms start f n := by
  intro h
  obtain ⟨n, hn⟩ := h (.finite 0) 0 (Stream'.const stillRound) le_rfl fun _ => le_rfl
  obtain ⟨hbefore, -⟩ := timeUp_iff.mp ⟨_, hn.returns⟩
  obtain ⟨k, rfl⟩ := Nat.exists_eq_succ_of_ne_zero (ne_zero_of_genuine hn.samples)
  have hfirst := hbefore stillRound List.mem_cons_self
  revert hfirst
  decide

end Measurement

end CmaesSolenoid

import Mathlib.Algebra.Order.Floor.Ring
import Mathlib.Tactic.FieldSimp
import Mathlib.Tactic.Linarith
import Mathlib.Tactic.Positivity
import CmaesSolenoid.Folding

/-!
# `libcmaes`: bounds by piecewise quadratic functions

`pwqBoundStrategy`, in exact arithmetic. The line is folded onto an interval somewhat
larger than that between the bounds, and its ends are bent onto the bounds.
-/

namespace CmaesSolenoid.Libcmaes
open Folding

variable {K : Type} [Field K] [LinearOrder K] [IsStrictOrderedRing K]

structure PwqBound (K : Type) [LT K] where
  lbounds : K
  ubounds : K
  lt : lbounds < ubounds

namespace PwqBound

variable (b : PwqBound K)

def al : K := min (1 / 2 * (b.ubounds - b.lbounds)) (1 / 20 * (1 + |b.lbounds|))

def au : K := min (1 / 2 * (b.ubounds - b.lbounds)) (1 / 20 * (1 + |b.ubounds|))

def xlow : K := b.lbounds - 2 * b.al - 1 / 2 * (b.ubounds - b.lbounds)

def xup : K := b.ubounds + 2 * b.au + 1 / 2 * (b.ubounds - b.lbounds)

def r : K := 2 * (b.ubounds - b.lbounds + b.al + b.au)

theorem al_pos : 0 < b.al := by
  have := b.lt
  have := abs_nonneg b.lbounds
  exact lt_min (by linarith) (by linarith)

theorem au_pos : 0 < b.au := by
  have := b.lt
  have := abs_nonneg b.ubounds
  exact lt_min (by linarith) (by linarith)

theorem add_al_le : b.lbounds + b.al ≤ b.ubounds - b.au := by
  have hal : b.al ≤ 1 / 2 * (b.ubounds - b.lbounds) := min_le_left _ _
  have hau : b.au ≤ 1 / 2 * (b.ubounds - b.lbounds) := min_le_left _ _
  linarith

omit [IsStrictOrderedRing K] in
theorem r_eq : b.r = 2 * (b.ubounds + b.au - (b.lbounds - b.al)) := by
  rw [r]
  ring

theorem r_pos : 0 < b.r := by
  have := b.lt
  have := b.al_pos
  have := b.au_pos
  rw [r]
  linarith

theorem xup_eq : b.xup = b.xlow + b.r := by
  rw [xup, xlow, r]
  ring

def bend (y : K) : K :=
  if y < b.lbounds + b.al then
    b.lbounds + (y - (b.lbounds - b.al)) * (y - (b.lbounds - b.al)) / 4 / b.al
  else if y > b.ubounds - b.au then
    b.ubounds - (y - (b.ubounds + b.au)) * (y - (b.ubounds + b.au)) / 4 / b.au
  else y

/-- `sqrt` is that of the C library. -/
def toInternalRepresentation (sqrt : K → K) (y : K) : K :=
  if y < b.lbounds + b.al then
    b.lbounds - b.al + 2 * sqrt (b.al * |b.lbounds - y|)
  else if y > b.ubounds - b.au then
    b.ubounds + b.au - 2 * sqrt (b.au * |y - b.ubounds|)
  else y

/-- What the C library says of the square root. -/
def IsSqrt (sqrt : K → K) : Prop := ∀ x, 0 ≤ x → 0 ≤ sqrt x ∧ sqrt x * sqrt x = x

section

variable {sqrt : K → K} {a s t v y : K}

theorem IsSqrt.eq (h : IsSqrt sqrt) (ht : 0 ≤ t) (heq : v = t * t) : sqrt v = t := by
  have hv : 0 ≤ v := heq ▸ mul_nonneg ht ht
  obtain ⟨hpos, hsq⟩ := h v hv
  exact (mul_self_inj hpos ht).mp (hsq.trans heq)

theorem IsSqrt.lt (h : IsSqrt sqrt) (ha : 0 < a) (hs : 0 ≤ s) (hlt : s < a) :
    sqrt (a * s) < a := by
  obtain ⟨hpos, hsq⟩ := h (a * s) (mul_nonneg ha.le hs)
  by_contra hle
  rw [not_lt] at hle
  have hge : a * a ≤ a * s := hsq ▸ mul_self_le_mul_self ha.le hle
  exact absurd (le_of_mul_le_mul_left hge ha) (not_le.mpr hlt)

theorem quadratic_lt (ha : 0 < a) (h0 : 0 ≤ t) (ht : t < 2 * a) : t * t / 4 / a < a := by
  rw [div_div, div_lt_iff₀ (by positivity)]
  nlinarith

theorem sqrt_quadratic (h : IsSqrt sqrt) (ha : 0 < a) (h0 : 0 ≤ t) :
    2 * sqrt (a * (t * t / 4 / a)) = t := by
  have hhalf : sqrt (a * (t * t / 4 / a)) = t / 2 := by
    apply h.eq (by linarith)
    field_simp
    ring
  rw [hhalf]
  ring

theorem quadratic_sqrt (h : IsSqrt sqrt) (ha : 0 < a) (hs : 0 ≤ s) :
    2 * sqrt (a * s) * (2 * sqrt (a * s)) / 4 / a = s := by
  have hsq := (h (a * s) (mul_nonneg ha.le hs)).2
  have hfour : 2 * sqrt (a * s) * (2 * sqrt (a * s)) = 4 * (sqrt (a * s) * sqrt (a * s)) := by
    ring
  rw [hfour, hsq]
  field_simp

/-- `to_f_representation` stays within the bounds, and its inverse finds the point. -/
theorem bend_spec (h : IsSqrt sqrt) (hlo : b.lbounds - b.al ≤ y) (hhi : y ≤ b.ubounds + b.au) :
    b.lbounds ≤ b.bend y ∧ b.bend y ≤ b.ubounds ∧
      b.toInternalRepresentation sqrt (b.bend y) = y := by
  have hal := b.al_pos
  have hau := b.au_pos
  have hends := b.add_al_le
  by_cases hleft : y < b.lbounds + b.al
  · have hbend : b.bend y =
        b.lbounds + (y - (b.lbounds - b.al)) * (y - (b.lbounds - b.al)) / 4 / b.al := by
      rw [bend, if_pos hleft]
    have ht : 0 ≤ y - (b.lbounds - b.al) := by linarith
    have hq := quadratic_lt hal ht (by linarith)
    have hq0 : 0 ≤ (y - (b.lbounds - b.al)) * (y - (b.lbounds - b.al)) / 4 / b.al := by positivity
    rw [hbend]
    refine ⟨by linarith, by linarith, ?_⟩
    rw [toInternalRepresentation, if_pos (by linarith), sub_add_cancel_left, abs_neg,
      abs_of_nonneg hq0, sqrt_quadratic h hal ht]
    ring
  · by_cases hright : y > b.ubounds - b.au
    · have hbend : b.bend y =
          b.ubounds - (y - (b.ubounds + b.au)) * (y - (b.ubounds + b.au)) / 4 / b.au := by
        rw [bend, if_neg hleft, if_pos hright]
      have hsq : (y - (b.ubounds + b.au)) * (y - (b.ubounds + b.au)) =
          (b.ubounds + b.au - y) * (b.ubounds + b.au - y) := by ring
      have ht : 0 ≤ b.ubounds + b.au - y := by linarith
      have hq := quadratic_lt hau ht (by linarith)
      have hq0 : 0 ≤ (b.ubounds + b.au - y) * (b.ubounds + b.au - y) / 4 / b.au := by positivity
      rw [hbend, hsq]
      refine ⟨by linarith, by linarith, ?_⟩
      rw [toInternalRepresentation, if_neg (by linarith), if_pos (by linarith), sub_sub_cancel_left,
        abs_neg, abs_of_nonneg hq0, sqrt_quadratic h hau ht]
      ring
    · have hbend : b.bend y = y := by rw [bend, if_neg hleft, if_neg hright]
      rw [hbend, toInternalRepresentation, if_neg hleft, if_neg hright]
      exact ⟨by linarith, by linarith, rfl⟩

theorem toInternal_spec (h : IsSqrt sqrt) (hlo : b.lbounds ≤ v) (hhi : v ≤ b.ubounds) :
    b.lbounds - b.al ≤ b.toInternalRepresentation sqrt v ∧
      b.toInternalRepresentation sqrt v ≤ b.ubounds + b.au ∧
      b.bend (b.toInternalRepresentation sqrt v) = v := by
  have hal := b.al_pos
  have hau := b.au_pos
  have hends := b.add_al_le
  by_cases hleft : v < b.lbounds + b.al
  · have hs : 0 ≤ v - b.lbounds := by linarith
    have hint : b.toInternalRepresentation sqrt v =
        b.lbounds - b.al + 2 * sqrt (b.al * (v - b.lbounds)) := by
      rw [toInternalRepresentation, if_pos hleft, abs_sub_comm, abs_of_nonneg hs]
    have hlt := h.lt hal hs (by linarith)
    have hpos := (h (b.al * (v - b.lbounds)) (by positivity)).1
    rw [hint]
    refine ⟨by linarith, by linarith, ?_⟩
    rw [bend, if_pos (by linarith), add_sub_cancel_left, quadratic_sqrt h hal hs]
    ring
  · by_cases hright : v > b.ubounds - b.au
    · have hs : 0 ≤ b.ubounds - v := by linarith
      have hint : b.toInternalRepresentation sqrt v =
          b.ubounds + b.au - 2 * sqrt (b.au * (b.ubounds - v)) := by
        rw [toInternalRepresentation, if_neg hleft, if_pos hright, abs_sub_comm, abs_of_nonneg hs]
      have hlt := h.lt hau hs (by linarith)
      have hpos := (h (b.au * (b.ubounds - v)) (by positivity)).1
      rw [hint]
      refine ⟨by linarith, by linarith, ?_⟩
      rw [bend, if_neg (by linarith), if_pos (by linarith), sub_sub_cancel_left, neg_mul_neg,
        quadratic_sqrt h hau hs]
      ring
    · have hint : b.toInternalRepresentation sqrt v = v := by
        rw [toInternalRepresentation, if_neg hleft, if_neg hright]
      rw [hint, bend, if_neg hleft, if_neg hright]
      exact ⟨by linarith, by linarith, rfl⟩

end

variable [FloorRing K]

/-- `static_cast<int>`; undefined where the number without its fraction is no `int`. -/
def staticCastInt (q : K) : Option ℤ :=
  let n := if 0 ≤ q then ⌊q⌋ else ⌈q⌉
  if -2 ^ 31 ≤ n ∧ n < 2 ^ 31 then some n else none

def shiftUp (x : K) : Option K :=
  if x < b.xlow then
    (staticCastInt ((b.xlow - x) / b.r)).map fun n : ℤ => x + b.r * (1 + n)
  else some x

def shiftDown (x : K) : Option K :=
  if x > b.xup then
    (staticCastInt ((x - b.xup) / b.r)).map fun n : ℤ => x - b.r * (1 + n)
  else some x

def turnBack (x : K) : K :=
  let x := if x < b.lbounds - b.al then x + 2 * (b.lbounds - b.al - x) else x
  if x > b.ubounds + b.au then x - 2 * (x - b.ubounds - b.au) else x

/-- `none` where a cast is undefined or the fatal error is logged. -/
def shiftIntoFeasible (x : K) : Option K := do
  let x ← b.shiftUp x
  let x ← b.shiftDown x
  let x := b.turnBack x
  if x < b.lbounds - b.al - 1e-15 ∨ x > b.ubounds + b.au + 1e-15 then none
  else some x

/-- As far as the casts go. -/
def InReach (x : K) : Prop := b.xlow - 2 ^ 31 * b.r < x ∧ x < b.xup + 2 ^ 31 * b.r

omit [IsStrictOrderedRing K] in
theorem staticCastInt_of_lt {q : K} (h0 : 0 ≤ q) (h : q < 2 ^ 31) :
    staticCastInt q = some ⌊q⌋ := by
  have hfloor : 0 ≤ ⌊q⌋ := Int.floor_nonneg.mpr h0
  have hlt : ⌊q⌋ < 2 ^ 31 := Int.floor_lt.mpr (by exact_mod_cast h)
  simp only [staticCastInt, if_pos h0]
  rw [if_pos ⟨by omega, hlt⟩]

theorem staticCastInt_of_le {q : K} (h : 2 ^ 31 ≤ q) : staticCastInt q = none := by
  have h0 : 0 ≤ q := le_trans (by positivity) h
  have hle : 2 ^ 31 ≤ ⌊q⌋ := Int.le_floor.mpr (by exact_mod_cast h)
  simp only [staticCastInt, if_pos h0]
  rw [if_neg (by omega)]

theorem shiftUp_spec {x : K} (h : b.xlow - 2 ^ 31 * b.r < x) :
    ∃ n : ℤ, b.shiftUp x = some (x + n * b.r) ∧ b.xlow ≤ x + n * b.r ∧
      (n = 0 ∨ x + n * b.r ≤ b.xup) := by
  have hr := b.r_pos
  rw [shiftUp]
  split_ifs with hlow
  · have hq0 : 0 ≤ (b.xlow - x) / b.r := div_nonneg (by linarith) hr.le
    have hq : (b.xlow - x) / b.r < 2 ^ 31 := by
      rw [div_lt_iff₀ hr]
      linarith
    have hfloor := (le_div_iff₀ hr).mp (Int.floor_le ((b.xlow - x) / b.r))
    have hnext := (div_lt_iff₀ hr).mp (Int.lt_floor_add_one ((b.xlow - x) / b.r))
    have hup := b.xup_eq
    refine ⟨1 + ⌊(b.xlow - x) / b.r⌋, ?_, ?_, .inr ?_⟩
    · rw [staticCastInt_of_lt hq0 hq, Option.map_some]
      push_cast
      rw [mul_comm]
    · push_cast
      linarith
    · push_cast
      linarith
  · refine ⟨0, ?_, ?_, .inl rfl⟩
    · rw [Int.cast_zero, zero_mul, add_zero]
    · rw [Int.cast_zero, zero_mul, add_zero]
      exact not_lt.mp hlow

theorem shiftDown_spec {x : K} (hlow : b.xlow ≤ x) (h : x < b.xup + 2 ^ 31 * b.r) :
    ∃ n : ℤ, b.shiftDown x = some (x + n * b.r) ∧ b.xlow ≤ x + n * b.r ∧
      x + n * b.r ≤ b.xup := by
  have hr := b.r_pos
  rw [shiftDown]
  split_ifs with hhigh
  · have hq0 : 0 ≤ (x - b.xup) / b.r := div_nonneg (by linarith) hr.le
    have hq : (x - b.xup) / b.r < 2 ^ 31 := by
      rw [div_lt_iff₀ hr]
      linarith
    have hfloor := (le_div_iff₀ hr).mp (Int.floor_le ((x - b.xup) / b.r))
    have hnext := (div_lt_iff₀ hr).mp (Int.lt_floor_add_one ((x - b.xup) / b.r))
    have hup := b.xup_eq
    refine ⟨-(1 + ⌊(x - b.xup) / b.r⌋), ?_, ?_, ?_⟩
    · rw [staticCastInt_of_lt hq0 hq, Option.map_some]
      push_cast
      ring_nf
    · push_cast
      linarith
    · push_cast
      linarith
  · refine ⟨0, ?_, ?_, ?_⟩
    · rw [Int.cast_zero, zero_mul, add_zero]
    · rwa [Int.cast_zero, zero_mul, add_zero]
    · rw [Int.cast_zero, zero_mul, add_zero]
      exact not_lt.mp hhigh

/-- Within that period a point is turned back once at most, and then it is inside. -/
theorem turnBack_spec {x : K} (hlow : b.xlow ≤ x) (hup : x ≤ b.xup) :
    Folds (b.lbounds - b.al) (b.ubounds + b.au) x (b.turnBack x) := by
  have hlt := b.lt
  have hal := b.al_pos
  have hau := b.au_pos
  rw [xlow] at hlow
  rw [xup] at hup
  by_cases hleft : x < b.lbounds - b.al
  · have hturn : b.turnBack x = 2 * (b.lbounds - b.al) - x := by
      simp only [turnBack, if_pos hleft]
      rw [if_neg (by linarith)]
      ring
    rw [hturn]
    have hself : Folds (b.lbounds - b.al) (b.ubounds + b.au) (2 * (b.lbounds - b.al) - x)
        (2 * (b.lbounds - b.al) - x) := Folds.self (by linarith) (by linarith)
    have hmirror := hself.mirror
    rwa [sub_sub_cancel] at hmirror
  · by_cases hright : x > b.ubounds + b.au
    · have hturn : b.turnBack x = 2 * (b.ubounds + b.au) - x := by
        simp only [turnBack, if_neg hleft, if_pos hright]
        ring
      rw [hturn]
      have hself : Folds (b.lbounds - b.al) (b.ubounds + b.au) (2 * (b.ubounds + b.au) - x)
          (2 * (b.ubounds + b.au) - x) := Folds.self (by linarith) (by linarith)
      have hmirror := hself.mirror_hi
      rwa [sub_sub_cancel] at hmirror
    · have hturn : b.turnBack x = x := by
        simp only [turnBack, if_neg hleft, if_neg hright]
      rw [hturn]
      exact Folds.self (not_lt.mp hleft) (not_lt.mp hright)

/-- The fatal error is never logged. -/
theorem exists_shift {x : K} (h : b.InReach x) :
    ∃ z, b.shiftIntoFeasible x = some z ∧
      Folds (b.lbounds - b.al) (b.ubounds + b.au) x z := by
  have hr := b.r_pos
  obtain ⟨n, hup, hlow, hn⟩ := b.shiftUp_spec h.1
  have hhigh : x + n * b.r < b.xup + 2 ^ 31 * b.r := by
    rcases hn with rfl | hle
    · rw [Int.cast_zero, zero_mul, add_zero]
      exact h.2
    · have : 0 < 2 ^ 31 * b.r := by positivity
      linarith
  obtain ⟨m, hdown, hlow', hup'⟩ := b.shiftDown_spec hlow hhigh
  have hfold := b.turnBack_spec hlow' hup'
  refine ⟨b.turnBack (x + n * b.r + m * b.r), ?_, ?_⟩
  · have hinside := hfold.lo_le
    have hinside' := hfold.le_hi
    have hslack : (0 : K) < 1e-15 := by norm_num
    simp only [shiftIntoFeasible, hup, hdown, Option.bind_eq_bind, Option.bind_some]
    rw [if_neg (by rw [not_or, not_lt, not_lt]; constructor <;> linarith)]
  · -- the shifts were whole periods
    have hback := hfold.add_period (-(n + m))
    rw [← b.r_eq] at hback
    have heq : x + n * b.r + m * b.r + ((-(n + m) : ℤ) : K) * b.r = x := by
      push_cast
      ring
    rwa [heq] at hback

theorem shiftIntoFeasible_of_not {x : K} (h : ¬ b.InReach x) : b.shiftIntoFeasible x = none := by
  have hr := b.r_pos
  have hup := b.xup_eq
  rw [InReach, not_and_or, not_lt, not_lt] at h
  rcases h with h | h
  · have hcast : staticCastInt ((b.xlow - x) / b.r) = none := by
      apply staticCastInt_of_le
      rw [le_div_iff₀ hr]
      linarith
    have hlow : x < b.xlow := by linarith
    simp [shiftIntoFeasible, shiftUp, hlow, hcast]
  · have hcast : staticCastInt ((x - b.xup) / b.r) = none := by
      apply staticCastInt_of_le
      rw [le_div_iff₀ hr]
      linarith
    have hlow : ¬ x < b.xlow := by linarith
    have hhigh : x > b.xup := by linarith
    simp [shiftIntoFeasible, shiftUp, shiftDown, hlow, hhigh, hcast]

theorem shiftIntoFeasible_eq_some {x z : K} : b.shiftIntoFeasible x = some z ↔
    b.InReach x ∧ Folds (b.lbounds - b.al) (b.ubounds + b.au) x z := by
  have hlt : b.lbounds - b.al < b.ubounds + b.au := by
    have := b.lt
    have := b.al_pos
    have := b.au_pos
    linarith
  by_cases h : b.InReach x
  · obtain ⟨z', hz', hfold⟩ := b.exists_shift h
    rw [hz', Option.some.injEq]
    exact ⟨fun heq => ⟨h, heq ▸ hfold⟩, fun hz => hfold.unique hlt hz.2⟩
  · simp [b.shiftIntoFeasible_of_not h, h]

def toFRepresentation (x : K) : Option K := (b.shiftIntoFeasible x).map b.bend

theorem inReach_of_mem {x : K} (hlo : b.lbounds - b.al ≤ x) (hhi : x ≤ b.ubounds + b.au) :
    b.InReach x := by
  have hlt := b.lt
  have hal := b.al_pos
  have hau := b.au_pos
  have hfar : 0 < 2 ^ 31 * b.r := mul_pos (by positivity) b.r_pos
  rw [InReach, xlow, xup]
  constructor <;> linarith

/-- A point is sent to `v` exactly when `v` is within the bounds and the point is folded onto the
internal representation of `v`, as far as the casts go. -/
theorem toFRepresentation_iff {sqrt : K → K} (h : IsSqrt sqrt) {x v : K} :
    b.toFRepresentation x = some v ↔ b.InReach x ∧ b.lbounds ≤ v ∧ v ≤ b.ubounds ∧
      Folds (b.lbounds - b.al) (b.ubounds + b.au) x (b.toInternalRepresentation sqrt v) := by
  rw [toFRepresentation, Option.map_eq_some_iff]
  constructor
  · rintro ⟨z, hz, rfl⟩
    obtain ⟨hreach, hfold⟩ := b.shiftIntoFeasible_eq_some.mp hz
    obtain ⟨hlo, hhi, hback⟩ := b.bend_spec h hfold.lo_le hfold.le_hi
    exact ⟨hreach, hlo, hhi, hback.symm ▸ hfold⟩
  · rintro ⟨hreach, hlo, hhi, hfold⟩
    exact ⟨_, b.shiftIntoFeasible_eq_some.mpr ⟨hreach, hfold⟩, (b.toInternal_spec h hlo hhi).2.2⟩

theorem bend_eq_self_iff {y : K} :
    b.bend y = y ↔ b.lbounds + b.al ≤ y ∧ y ≤ b.ubounds - b.au := by
  have hal := b.al_pos
  have hau := b.au_pos
  have hends := b.add_al_le
  by_cases hleft : y < b.lbounds + b.al
  · refine iff_of_false ?_ fun h => absurd h.1 (not_le.mpr hleft)
    rw [bend, if_pos hleft]
    intro heq
    have hsq : (y - (b.lbounds - b.al)) * (y - (b.lbounds - b.al)) / 4 / b.al =
        y - b.lbounds := by linarith
    rw [div_div, div_eq_iff (by positivity)] at hsq
    nlinarith [mul_self_pos.mpr (sub_neg.mpr hleft).ne]
  · by_cases hright : y > b.ubounds - b.au
    · refine iff_of_false ?_ fun h => absurd h.2 (not_le.mpr hright)
      rw [bend, if_neg hleft, if_pos hright]
      intro heq
      have hsq : (y - (b.ubounds + b.au)) * (y - (b.ubounds + b.au)) / 4 / b.au =
          b.ubounds - y := by linarith
      rw [div_div, div_eq_iff (by positivity)] at hsq
      nlinarith [mul_self_pos.mpr (sub_pos.mpr hright).ne']
    · rw [bend, if_neg hleft, if_neg hright]
      exact iff_of_true rfl ⟨not_lt.mp hleft, not_lt.mp hright⟩

theorem toFRepresentation_self_iff {x : K} (hlo : b.lbounds ≤ x) (hhi : x ≤ b.ubounds) :
    b.toFRepresentation x = some x ↔ b.lbounds + b.al ≤ x ∧ x ≤ b.ubounds - b.au := by
  have hlo' : b.lbounds - b.al ≤ x := by linarith [b.al_pos]
  have hhi' : x ≤ b.ubounds + b.au := by linarith [b.au_pos]
  have hshift : b.shiftIntoFeasible x = some x :=
    b.shiftIntoFeasible_eq_some.mpr ⟨b.inReach_of_mem hlo' hhi', Folds.self hlo' hhi'⟩
  rw [toFRepresentation, hshift, Option.map_some, Option.some.injEq]
  exact b.bend_eq_self_iff

end PwqBound

end CmaesSolenoid.Libcmaes

import Mathlib.Tactic.Linarith
import Mathlib.Tactic.Ring

/-!
# A counter that wraps

A counter of a fixed width starts somewhere, is increased by a positive step, and stops once it is
no longer below a limit.
-/

namespace Libtt.Foundation

/-- The least number of positive steps from `initial` to at least `limit`. -/
def IsTripCount (initial limit step : Int) (trips : Nat) : Prop :=
  (initial < limit → initial + (trips - 1) * step < limit ∧ limit ≤ initial + trips * step) ∧
    (limit ≤ initial → trips = 0)

/-- No step from below the limit leaves the range below `half`. -/
def StaysInRange (half initial limit step : Int) : Prop :=
  ∀ count : Nat, initial + count * step < limit → initial + (count + 1) * step < half

/-- Residues in range are themselves. -/
theorem bmod_within {half : Nat} {value : Int} (low : -half ≤ value) (high : value < half) :
    value.bmod (2 * half) = value :=
  Int.bmod_eq_of_le_mul_two (by push_cast; omega) (by push_cast; omega)

/-- Residues one range up wrap to the one below. -/
theorem bmod_above {half : Nat} {value : Int} (low : half ≤ value) (high : value < 3 * half) :
    value.bmod (2 * half) = value - 2 * half := by
  have wrapped : (value - (2 * half : Nat)).bmod (2 * half) = value - (2 * half : Nat) :=
    bmod_within (by push_cast; omega) (by push_cast; omega)
  rw [Int.sub_bmod_right] at wrapped
  rw [wrapped]
  push_cast
  rfl

/-- A counter run: where it starts, how it goes on, and where it stops. -/
structure CounterRun (half : Nat) (initial limit step : Int) (last : Nat) (counter : Nat → Int) :
    Prop where
  start : counter 0 = initial
  next : ∀ count < last, counter (count + 1) = (counter count + step).bmod (2 * half)
  below : ∀ count < last, counter count < limit
  stop : limit ≤ counter last
  positive : 0 < step
  initialLow : -half ≤ initial
  limitHigh : limit < half
  stepHigh : step < half

namespace CounterRun

variable {half : Nat} {initial limit step : Int} {last : Nat} {counter : Nat → Int}

/-- Until the first overflow the counter is exact. -/
theorem exact (run : CounterRun half initial limit step last counter) {count : Nat}
    (within : count ≤ last) (small : initial + count * step < half) :
    counter count = initial + count * step := by
  induction count with
  | zero => rw [run.start]; simp
  | succ count ih =>
    have positive := run.positive
    have low := run.initialLow
    have grows : (0 : Int) ≤ count * step := Int.mul_nonneg (by omega) (by omega)
    push_cast at small ⊢
    have before : initial + count * step < half := by linarith
    rw [run.next count (by omega), ih (by omega) before, bmod_within (by linarith) (by linarith)]
    ring

section

variable (run : CounterRun half initial limit step last counter) {trips : Nat}
  (isTripCount : IsTripCount initial limit step trips)
include run isTripCount

/-- The counter stops no earlier than in exact arithmetic. -/
theorem trips_le : trips ≤ last := by
  by_contra early
  have below : initial < limit := by
    by_contra above
    rw [isTripCount.2 (by omega)] at early
    omega
  obtain ⟨less, -⟩ := isTripCount.1 below
  have positive := run.positive
  have few : (last : Int) * step ≤ (trips - 1) * step :=
    mul_le_mul_of_nonneg_right (by omega) positive.le
  have exact := run.exact (Nat.le_refl last) (by linarith [run.limitHigh])
  have stop := run.stop
  linarith

/-- Without overflow the counter stops exactly there. -/
theorem trips_eq (stays : StaysInRange half initial limit step) : trips = last := by
  refine Nat.le_antisymm (run.trips_le isTripCount) ?_
  by_contra later
  have below : initial < limit := run.start ▸ run.below 0 (by omega)
  obtain ⟨less, reached⟩ := isTripCount.1 below
  have some : trips ≠ 0 := by
    rintro rfl
    simp at reached
    omega
  have previous : initial + ((trips - 1 : Nat) : Int) * step < limit := by
    push_cast [Nat.one_le_iff_ne_zero.mpr some]
    exact less
  have inRange := stays (trips - 1) previous
  have last : ((trips - 1 : Nat) : Int) + 1 = trips := by omega
  rw [last] at inRange
  have exact := run.exact (by omega) inRange
  have still := run.below trips (by omega)
  omega

/-- With overflow the counter is below the limit after these steps. -/
theorem below_of_overflow (overflows : ¬StaysInRange half initial limit step) :
    counter trips < limit := by
  unfold StaysInRange at overflows
  push Not at overflows
  obtain ⟨count, small, large⟩ := overflows
  have positive := run.positive
  have below : initial < limit := by
    have grows : (0 : Int) ≤ count * step := Int.mul_nonneg (by omega) (by omega)
    linarith
  obtain ⟨less, reached⟩ := isTripCount.1 below
  have some : trips ≠ 0 := by
    rintro rfl
    simp at reached
    omega
  -- The step that overflows is the last of the exact steps.
  have few : (count : Int) < trips := by
    by_contra many
    have more : (trips : Int) * step ≤ count * step :=
      mul_le_mul_of_nonneg_right (by omega) positive.le
    linarith
  have many : (trips : Int) ≤ count + 1 := by
    by_contra few
    have more : ((count : Int) + 1) * step ≤ (trips - 1) * step :=
      mul_le_mul_of_nonneg_right (by omega) positive.le
    linarith [run.limitHigh]
  obtain rfl : trips = count + 1 := by omega
  have within := run.trips_le isTripCount
  rw [run.next count (by omega), run.exact (by omega) (by linarith [run.limitHigh])]
  have sum : initial + count * step + step = initial + (count + 1) * step := by ring
  have top : initial + (count + 1) * step < 3 * half := by
    rw [← sum]
    linarith [run.limitHigh, run.stepHigh]
  rw [sum, bmod_above large top]
  linarith [run.limitHigh, run.stepHigh]

/-- The counter stops after the exact number of steps if and only if none overflows. -/
theorem trips_eq_iff :
    counter trips = counter last ↔ StaysInRange half initial limit step := by
  constructor
  · intro same
    by_contra overflows
    have below := run.below_of_overflow isTripCount overflows
    have stop := run.stop
    omega
  · intro stays
    rw [run.trips_eq isTripCount stays]

end

end CounterRun

end Libtt.Foundation

import Mathlib.Data.Int.Log
import Mathlib.Data.Rat.Floor
import Libtt.Foundation.BinaryFloat

/-!
# Rounding rational numbers to floats

Where an expression of floats is only looked at as numbers, each of its operations rounds what it
would be in exact arithmetic.
-/
namespace Libtt.Foundation

/-- The integer nearest to a number, the even one of two. -/
def roundEven (number : ℚ) : ℤ :=
  let rest := number - ⌊number⌋
  if rest < 1 / 2 then ⌊number⌋
  else if 1 / 2 < rest then ⌊number⌋ + 1
  else if ⌊number⌋ % 2 = 0 then ⌊number⌋ else ⌊number⌋ + 1

theorem roundEven_error (number : ℚ) : |(roundEven number : ℚ) - number| ≤ 1 / 2 := by
  have least := Int.floor_le number
  have most := Int.lt_floor_add_one number
  unfold roundEven
  dsimp only
  split_ifs with below above even
  · rw [abs_le]
    constructor <;> linarith
  · push_cast
    rw [abs_le]
    constructor <;> linarith
  · rw [abs_le]
    constructor <;> linarith
  · push_cast
    rw [abs_le]
    constructor <;> linarith

theorem roundEven_intCast (number : ℤ) : roundEven number = number := by
  simp [roundEven]

namespace BinaryFormat

variable (format : BinaryFormat)

/-- The distance of floats around a number. -/
def quantum (number : ℚ) : ℚ :=
  2 ^ (max (Int.log 2 |number|) (1 - format.bias) - format.fractionBits)

/-- The float nearest to a number that is not too large for one. -/
def round (number : ℚ) : ℚ :=
  roundEven (number / format.quantum number) * format.quantum number

theorem quantum_pos (number : ℚ) : 0 < format.quantum number := zpow_pos (by norm_num) _

/-- Floats are as close as their magnitudes, or the least of them, allow. -/
theorem quantum_le {number : ℚ} (positive : 0 < |number|) :
    format.quantum number ≤ |number| / 2 ^ format.fractionBits + format.unit := by
  have unit := format.unit_pos
  have relative : 0 ≤ |number| / 2 ^ format.fractionBits := by positivity
  rcases le_total (Int.log 2 |number|) (1 - format.bias) with small | normal
  · have same : format.quantum number = format.unit := by
      rw [quantum, max_eq_right small]
      rfl
    linarith
  · rw [quantum, max_eq_left normal, zpow_sub₀ (by norm_num), zpow_natCast]
    have least : (2 : ℚ) ^ Int.log 2 |number| ≤ |number| := by
      exact_mod_cast Int.zpow_log_le_self (by norm_num : 1 < 2) positive
    have divided := div_le_div_of_nonneg_right least (by positivity : (0 : ℚ) ≤
      2 ^ format.fractionBits)
    linarith

/-- The error of one rounding. -/
theorem round_error (number : ℚ) : |format.round number - number| ≤
    |number| / 2 ^ (format.fractionBits + 1) + format.unit / 2 := by
  rcases (abs_nonneg number).eq_or_lt with zero | positive
  · have unit := format.unit_pos
    have isZero := abs_eq_zero.mp zero.symm
    rw [isZero, BinaryFormat.round, zero_div, ← Int.cast_zero, roundEven_intCast]
    simp only [Int.cast_zero, zero_mul, sub_zero, abs_zero, zero_div, zero_add]
    linarith
  have quantumPositive := format.quantum_pos number
  have most := format.quantum_le positive
  have error := roundEven_error (number / format.quantum number)
  have scaled : format.round number - number =
      ((roundEven (number / format.quantum number) : ℚ) - number / format.quantum number) *
        format.quantum number := by
    rw [sub_mul, div_mul_cancel₀ _ quantumPositive.ne']
    rfl
  rw [scaled, abs_mul, abs_of_pos quantumPositive, pow_succ]
  calc _ ≤ 1 / 2 * format.quantum number := mul_le_mul_of_nonneg_right error quantumPositive.le
    _ ≤ 1 / 2 * (|number| / 2 ^ format.fractionBits + format.unit) := by linarith
    _ = _ := by
      field_simp

/-- Integers that fit a significand are floats. -/
theorem round_natCast {number : Nat} (less : number < 2 ^ (format.fractionBits + 1)) :
    format.round number = number := by
  have positive := format.quantum_pos number
  have wide := format.bias_pos
  have whole : ∃ units : ℤ, (number : ℚ) / format.quantum number = units := by
    have most : max (Int.log 2 |(number : ℚ)|) (1 - format.bias) ≤ format.fractionBits := by
      apply max_le
      · rw [Nat.abs_cast, Int.log_natCast]
        have log := Nat.log_lt_of_lt_pow' (b := 2) (Nat.succ_ne_zero _) less
        omega
      · omega
    obtain ⟨units, isUnits⟩ := Int.le.dest most
    refine ⟨number * 2 ^ units, ?_⟩
    have exponent : max (Int.log 2 |(number : ℚ)|) (1 - format.bias) - format.fractionBits =
        -(units : ℤ) := by omega
    rw [quantum, exponent, zpow_neg, zpow_natCast, div_inv_eq_mul]
    push_cast
    rfl
  obtain ⟨units, isUnits⟩ := whole
  rw [BinaryFormat.round, isUnits, roundEven_intCast, ← isUnits, div_mul_cancel₀ _ positive.ne']

end BinaryFormat

end Libtt.Foundation

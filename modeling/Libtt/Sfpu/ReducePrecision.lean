import Mathlib.Algebra.Order.Field.Basic
import Mathlib.Algebra.Order.Field.Power
import Mathlib.Tactic.Linarith
import Libtt.Foundation.BitFields
import Libtt.Foundation.FloatUnits
import Libtt.Sfpu.Unit

/-!
# `reduce_precision`

`calculate_reduce_precision`, in one lane, on the bits of a float of any layout of 16 or 32 bits.
What it should return is stated on the numbers: rounding to nearest even at the target's fraction,
then overflow and underflow by the target's exponents.
-/
namespace Libtt.Sfpu

open Libtt.Foundation

/-- `EXPONENT_MASK`. -/
def exponentMask (inputExponentBits inputMantissaBits : Nat) : Word :=
  ((1#32 <<< inputExponentBits) - 1#32) <<< inputMantissaBits

/-- Add 0111..., plus one if the last kept bit is set, then truncate. -/
def roundMantissa (inputMantissaBits mantissaBits : Nat) (bits : Word) : Word :=
  if mantissaBits < inputMantissaBits then
    let lastKeptBit := 1#32 <<< (inputMantissaBits - mantissaBits)
    let bias := (lastKeptBit >>> 1) - 1#32
    let bias := if bits &&& lastKeptBit ≠ 0#32 then lastKeptBit >>> 1 else bias
    (bits + bias) &&& ~~~(lastKeptBit - 1#32)
  else bits

/-- Infinity past the target's largest exponent, zero below its smallest. -/
def limitExponent (inputExponentBits inputMantissaBits exponentBits : Nat) (bits : Word) : Word :=
  if exponentBits < inputExponentBits then
    let signBit := 1#32 <<< (1 + inputExponentBits + inputMantissaBits - 1)
    let exponentMask := exponentMask inputExponentBits inputMantissaBits
    let inputBias := (1#32 <<< (inputExponentBits - 1)) - 1#32
    let reducedBias := (1#32 <<< (exponentBits - 1)) - 1#32
    let maxExponent := (inputBias + reducedBias) <<< inputMantissaBits
    let minExponent := (inputBias - reducedBias) <<< inputMantissaBits
    let exponent := bits &&& exponentMask
    let signedZero := bits &&& signBit
    if maxExponent.slt exponent then signedZero ||| exponentMask
    else if exponent.sle minExponent then signedZero
    else bits
  else bits

/-- `calculate_reduce_precision`, on what Dst holds. -/
def calculateReducePrecision (inputExponentBits inputMantissaBits exponentBits mantissaBits : Nat)
    (raw : Word) : Word :=
  let width := 1 + inputExponentBits + inputMantissaBits
  let signBit := 1#32 <<< (width - 1)
  let exponentMask := exponentMask inputExponentBits inputMantissaBits
  let input := if width = 16 then raw &&& 0xFFFF#32 else raw
  let bits := roundMantissa inputMantissaBits mantissaBits input
  let bits := limitExponent inputExponentBits inputMantissaBits exponentBits bits
  -- rounding and the exponent handling can turn NaN into a number or infinity
  let bits := if exponentMask.slt (input &&& (signBit - 1#32)) then input else bits
  if width = 16 then bits &&& 0xFFFF#32 else bits

/-- The layout of a float: a sign, an exponent field and a fraction. -/
structure FloatLayout where
  exponentBits : Nat
  mantissaBits : Nat

namespace FloatLayout

variable (layout : FloatLayout)

def magnitudeBits : Nat := layout.exponentBits + layout.mantissaBits

def magnitude (bits : Nat) : Nat := bits % 2 ^ layout.magnitudeBits

/-- The sign bit in its place. -/
def sign (bits : Nat) : Nat := bits / 2 ^ layout.magnitudeBits * 2 ^ layout.magnitudeBits

/-- The exponent bias, and the largest exponent of a number. -/
def bias (exponentBits : Nat) : Nat := 2 ^ (exponentBits - 1) - 1

def infinity : Nat := (2 ^ layout.exponentBits - 1) * 2 ^ layout.mantissaBits

def IsNaN (bits : Nat) : Prop := layout.infinity < layout.magnitude bits

/-- The number of a magnitude. Infinity counts as the power of two after the largest number. -/
def size (magnitude : Nat) : ℚ :=
  floatUnits layout.mantissaBits magnitude *
    2 ^ ((1 : ℤ) - bias layout.exponentBits - layout.mantissaBits)

/-- A magnitude nearest to another among those with so many bits of fraction; of two, the one whose
last bit kept is zero. -/
structure NearestEven (mantissaBits magnitude rounded : Nat) : Prop where
  kept : 2 ^ (layout.mantissaBits - mantissaBits) ∣ rounded
  nearest : ∀ other, 2 ^ (layout.mantissaBits - mantissaBits) ∣ other →
    |layout.size rounded - layout.size magnitude| ≤ |layout.size other - layout.size magnitude|
  even : ∀ other, 2 ^ (layout.mantissaBits - mantissaBits) ∣ other → other ≠ rounded →
    |layout.size rounded - layout.size magnitude| = |layout.size other - layout.size magnitude| →
      Even (rounded / 2 ^ (layout.mantissaBits - mantissaBits))

/-- A magnitude with the target's exponents: infinity past its largest one, zero below its smallest
normal number. -/
def limited (exponentBits rounded : Nat) : Nat :=
  if exponentBits < layout.exponentBits then
    if (2 : ℚ) ^ ((bias exponentBits : ℤ) + 1) ≤ layout.size rounded then layout.infinity
    else if layout.size rounded < (2 : ℚ) ^ ((1 : ℤ) - bias exponentBits) then 0
    else rounded
  else rounded

/-- The bits of a float with its precision reduced: NaNs stay. -/
structure Reduced (exponentBits mantissaBits bits result : Nat) : Prop where
  nan : layout.IsNaN bits → result = bits
  number : ¬layout.IsNaN bits → ∃ rounded,
    layout.NearestEven mantissaBits (layout.magnitude bits) rounded ∧
      result = layout.sign bits + layout.limited exponentBits rounded

/-- Round a magnitude to a multiple of a power of two, ties to the even multiple. -/
def roundAt (dropped magnitude : Nat) : Nat :=
  if dropped = 0 then magnitude
  else (magnitude + (2 ^ (dropped - 1) - 1) + magnitude / 2 ^ dropped % 2) / 2 ^ dropped *
    2 ^ dropped

/-- What the sum with the bias carries to. -/
theorem roundAt_eq {dropped : Nat} (positive : dropped ≠ 0) (block : Nat) {rest : Nat}
    (less : rest < 2 ^ dropped) : roundAt dropped (block * 2 ^ dropped + rest) =
      if rest < 2 ^ (dropped - 1) ∨ (rest = 2 ^ (dropped - 1) ∧ block % 2 = 0) then
        block * 2 ^ dropped
      else (block + 1) * 2 ^ dropped := by
  obtain ⟨half, rfl⟩ := Nat.exists_eq_succ_of_ne_zero positive
  rw [roundAt, if_neg positive, Nat.succ_sub_one, add_half_div block less]
  split <;> rfl

/-- Distances in units of the least subnormal number. -/
theorem abs_size_sub (left right : Nat) :
    |layout.size left - layout.size right| =
      |(floatUnits layout.mantissaBits left : ℚ) - floatUnits layout.mantissaBits right| *
        2 ^ ((1 : ℤ) - bias layout.exponentBits - layout.mantissaBits) := by
  have positive : (0 : ℚ) < 2 ^ ((1 : ℤ) - bias layout.exponentBits - layout.mantissaBits) :=
    zpow_pos (by norm_num) _
  rw [size, size, ← sub_mul, abs_mul, abs_of_pos positive]

/-- Which of the two multiples around a magnitude is nearest. -/
theorem nearest_of_block {low high number other gap half rest : ℚ} (isHigh : high = low + 2 * half * gap)
    (isNumber : number = low + rest * gap) (positive : 0 < gap) (nonneg : 0 ≤ rest)
    (less : rest < 2 * half) (outside : other ≤ low ∨ high ≤ other) :
    (rest ≤ half → |low - number| ≤ |other - number|) ∧
    (half ≤ rest → |high - number| ≤ |other - number|) ∧
    (rest ≤ half → other ≠ low → |low - number| = |other - number| → rest = half) ∧
    (half ≤ rest → other ≠ high → |high - number| = |other - number| → rest = half) := by
  have toLow : |low - number| = rest * gap := by
    rw [isNumber, abs_of_nonpos (by nlinarith)]
    ring
  have toHigh : |high - number| = (2 * half - rest) * gap := by
    rw [isNumber, isHigh, abs_of_nonneg (by nlinarith)]
    ring
  rcases outside with below | above
  · have toOther : |other - number| = low - other + rest * gap := by
      rw [isNumber, abs_of_nonpos (by nlinarith)]
      ring
    refine ⟨fun _ => by linarith, fun most => by nlinarith, fun _ different same => ?_,
      fun most _ same => ?_⟩
    · exact absurd (by linarith) different
    · by_contra unequal
      have more : half < rest := lt_of_le_of_ne most (Ne.symm unequal)
      nlinarith
  · have toOther : |other - number| = other - high + (2 * half - rest) * gap := by
      rw [isNumber, abs_of_nonneg (by nlinarith), isHigh]
      ring
    refine ⟨fun most => by nlinarith, fun _ => by linarith, fun most _ same => ?_,
      fun _ different same => ?_⟩
    · by_contra unequal
      have fewer : rest < half := lt_of_le_of_ne most unequal
      nlinarith
    · exact absurd (by linarith) different

/-- Adding the bias and truncating rounds to nearest even. -/
theorem roundAt_nearestEven (mantissaBits magnitude : Nat) :
    layout.NearestEven mantissaBits magnitude
      (roundAt (layout.mantissaBits - mantissaBits) magnitude) := by
  have scale : (0 : ℚ) < 2 ^ ((1 : ℤ) - bias layout.exponentBits - layout.mantissaBits) :=
    zpow_pos (by norm_num) _
  have mono := floatUnits_strictMono layout.mantissaBits
  generalize isDropped : layout.mantissaBits - mantissaBits = dropped
  by_cases none : dropped = 0
  · subst none
    rw [roundAt, if_pos rfl]
    refine ⟨by rw [isDropped, Nat.pow_zero]; exact one_dvd _, fun _ _ => ?_,
      fun other _ different same => ?_⟩
    · rw [sub_self, abs_zero]
      exact abs_nonneg _
    · rw [sub_self, abs_zero, abs_size_sub] at same
      have equal := abs_eq_zero.mp ((mul_eq_zero.mp same.symm).resolve_right scale.ne')
      exact absurd (mono.injective (Nat.cast_injective (sub_eq_zero.mp equal))) different
  · obtain ⟨half, isHalf⟩ := Nat.exists_eq_succ_of_ne_zero none
    have double : 2 ^ dropped = 2 * 2 ^ half := by rw [isHalf, Nat.pow_succ, Nat.mul_comm]
    have half_eq : dropped - 1 = half := by omega
    -- the magnitude lies between two multiples, and the units grow evenly between them
    obtain ⟨block, rest, less, rfl⟩ : ∃ block rest, rest < 2 ^ dropped ∧
        magnitude = block * 2 ^ dropped + rest :=
      ⟨_, _, Nat.mod_lt _ (Nat.two_pow_pos dropped), (Nat.div_add_mod' magnitude _).symm⟩
    have within : dropped ≤ layout.mantissaBits := by omega
    let gap := 2 ^ (block * 2 ^ dropped / 2 ^ layout.mantissaBits - 1)
    have isNumber : (floatUnits layout.mantissaBits (block * 2 ^ dropped + rest) : ℚ) =
        floatUnits layout.mantissaBits (block * 2 ^ dropped) + (rest : ℚ) * (gap : Nat) := by
      rw [floatUnits_add within block less.le, Nat.cast_add, Nat.cast_mul]
    have isHigh : (floatUnits layout.mantissaBits ((block + 1) * 2 ^ dropped) : ℚ) =
        floatUnits layout.mantissaBits (block * 2 ^ dropped) +
          2 * ((2 ^ half : Nat) : ℚ) * (gap : Nat) := by
      have whole : ((2 ^ dropped : Nat) : ℚ) = 2 * ((2 ^ half : Nat) : ℚ) := by
        rw [double, Nat.cast_mul, Nat.cast_ofNat]
      rw [Nat.succ_mul, floatUnits_add within block (Nat.le_refl _), Nat.cast_add, Nat.cast_mul,
        whole]
    have positive : (0 : ℚ) < (gap : Nat) := Nat.cast_pos.mpr (Nat.two_pow_pos _)
    have lessHalf : (rest : ℚ) < 2 * ((2 ^ half : Nat) : ℚ) := by
      rw [double] at less
      exact_mod_cast less
    have outside {other : Nat} (multiple : 2 ^ dropped ∣ other) :
        (floatUnits layout.mantissaBits other : ℚ) ≤
            floatUnits layout.mantissaBits (block * 2 ^ dropped) ∨
          (floatUnits layout.mantissaBits ((block + 1) * 2 ^ dropped) : ℚ) ≤
            floatUnits layout.mantissaBits other := by
      obtain ⟨count, rfl⟩ := multiple
      rw [Nat.mul_comm]
      rcases Nat.lt_or_ge block count with more | most
      · exact .inr (Nat.cast_le.mpr (mono.monotone (Nat.mul_le_mul_right _ more)))
      · exact .inl (Nat.cast_le.mpr (mono.monotone (Nat.mul_le_mul_right _ most)))
    have decide {other : Nat} (multiple : 2 ^ dropped ∣ other) :=
      nearest_of_block isHigh isNumber positive (Nat.cast_nonneg rest) lessHalf (outside multiple)
    have distinct {left right : Nat} (different : left ≠ right) :
        (floatUnits layout.mantissaBits left : ℚ) ≠ floatUnits layout.mantissaBits right :=
      fun same => different (mono.injective (Nat.cast_injective same))
    have tie (same : (rest : ℚ) = ((2 ^ half : Nat) : ℚ)) : rest = 2 ^ half := Nat.cast_injective same
    rw [roundAt_eq none block less, half_eq]
    split
    · rename_i down
      have most : (rest : ℚ) ≤ ((2 ^ half : Nat) : ℚ) := Nat.cast_le.mpr (by omega)
      refine ⟨by rw [isDropped]; exact Dvd.intro_left _ rfl, fun other multiple => ?_,
        fun other multiple different same => ?_⟩
      · rw [isDropped] at multiple
        rw [abs_size_sub, abs_size_sub]
        exact mul_le_mul_of_nonneg_right ((decide multiple).1 most) scale.le
      · rw [isDropped] at multiple ⊢
        rw [abs_size_sub, abs_size_sub] at same
        have middle := tie ((decide multiple).2.2.1 most (distinct different)
          (mul_right_cancel₀ scale.ne' same))
        rw [Nat.mul_div_cancel _ (Nat.two_pow_pos _), Nat.even_iff]
        omega
    · rename_i up
      have least : ((2 ^ half : Nat) : ℚ) ≤ rest := Nat.cast_le.mpr (by omega)
      refine ⟨by rw [isDropped]; exact Dvd.intro_left _ rfl, fun other multiple => ?_,
        fun other multiple different same => ?_⟩
      · rw [isDropped] at multiple
        rw [abs_size_sub, abs_size_sub]
        exact mul_le_mul_of_nonneg_right ((decide multiple).2.1 least) scale.le
      · rw [isDropped] at multiple ⊢
        rw [abs_size_sub, abs_size_sub] at same
        have middle := tie ((decide multiple).2.2.2 least (distinct different)
          (mul_right_cancel₀ scale.ne' same))
        rw [Nat.mul_div_cancel _ (Nat.two_pow_pos _), Nat.even_iff]
        omega

/-- The limits of the target, on the exponent field. -/
theorem limited_eq {exponentBits : Nat} (rounded : Nat) : layout.limited exponentBits rounded =
    if exponentBits < layout.exponentBits then
      if bias layout.exponentBits + bias exponentBits < rounded / 2 ^ layout.mantissaBits then
        layout.infinity
      else if rounded / 2 ^ layout.mantissaBits ≤
          bias layout.exponentBits - bias exponentBits then 0
      else rounded
    else rounded := by
  unfold limited
  split
  · rename_i narrower
    have smaller : bias exponentBits ≤ bias layout.exponentBits := by
      exact Nat.sub_le_sub_right (Nat.pow_le_pow_right (by decide) (by omega)) 1
    -- a size is under a power of two where the exponent field is
    have below (exponent : Nat) (power : ℤ)
        (same : power = (exponent : ℤ) + 1 - bias layout.exponentBits) :
        layout.size rounded < (2 : ℚ) ^ power ↔ rounded / 2 ^ layout.mantissaBits ≤ exponent := by
      rw [← floatUnits_lt_iff, size, ← Nat.cast_lt (α := ℚ), Nat.cast_pow, Nat.cast_ofNat,
        ← zpow_natCast, ← lt_div_iff₀ (zpow_pos (by norm_num) _), ← zpow_sub₀ (by norm_num)]
      have exponents : power - (1 - (bias layout.exponentBits : ℤ) - layout.mantissaBits) =
          ((layout.mantissaBits + exponent : Nat) : ℤ) := by
        rw [same]
        push_cast
        ring
      rw [exponents]
    have above := below (bias layout.exponentBits + bias exponentBits) (bias exponentBits + 1)
      (by push_cast; ring)
    have under := below (bias layout.exponentBits - bias exponentBits) (1 - bias exponentBits)
      (by rw [Nat.cast_sub smaller]; ring)
    simp only [← not_lt, above, under]
    simp only [not_le, not_lt]
  · rfl

end FloatLayout

namespace FloatLayout

variable (layout : FloatLayout)

/-- A multiple is rounded to itself. -/
theorem roundAt_multiple (dropped block : Nat) :
    roundAt dropped (block * 2 ^ dropped) = block * 2 ^ dropped := by
  by_cases none : dropped = 0
  · rw [roundAt, if_pos none]
  · have rounds := roundAt_eq none block (Nat.two_pow_pos dropped)
    rwa [if_pos (.inl (Nat.two_pow_pos _)), Nat.add_zero] at rounds

/-- Rounding goes to a multiple, and not past one. -/
theorem roundAt_le (dropped : Nat) {magnitude limit : Nat} (most : magnitude ≤ limit * 2 ^ dropped) :
    ∃ block, roundAt dropped magnitude = block * 2 ^ dropped ∧ block ≤ limit := by
  by_cases none : dropped = 0
  · subst none
    exact ⟨magnitude, by rw [roundAt, if_pos rfl, Nat.pow_zero, Nat.mul_one],
      by rwa [Nat.pow_zero, Nat.mul_one] at most⟩
  · have positive := Nat.two_pow_pos dropped
    have below := Nat.mod_lt magnitude positive
    have rounds := roundAt_eq none (magnitude / 2 ^ dropped) below
    have whole := Nat.div_add_mod' magnitude (2 ^ dropped)
    rw [whole] at rounds
    have blockMost : magnitude / 2 ^ dropped ≤ limit := Nat.div_le_of_le_mul (by rwa [Nat.mul_comm])
    split at rounds
    · exact ⟨_, rounds, blockMost⟩
    · rename_i up
      refine ⟨_, rounds, ?_⟩
      -- something is left over, so the multiple is not the limit yet
      by_contra past
      have same : magnitude / 2 ^ dropped = limit := by omega
      rw [same] at whole
      have none : magnitude % 2 ^ dropped = 0 := by omega
      exact up (.inl (none ▸ Nat.two_pow_pos _))

/-- Infinity, as a multiple of the last kept bit. -/
theorem infinity_multiple (mantissaBits : Nat) : ∃ limit,
    layout.infinity = limit * 2 ^ (layout.mantissaBits - mantissaBits) := by
  refine ⟨(2 ^ layout.exponentBits - 1) * 2 ^ (min mantissaBits layout.mantissaBits), ?_⟩
  rw [infinity, Nat.mul_assoc, ← Nat.pow_add]
  congr 2
  omega

theorem infinity_lt : layout.infinity < 2 ^ layout.magnitudeBits := by
  have exponents := Nat.two_pow_pos layout.exponentBits
  rw [infinity, magnitudeBits, Nat.pow_add]
  exact Nat.mul_lt_mul_of_pos_right (by omega) (Nat.two_pow_pos _)

/-- The limits give infinity, zero or what they limit. -/
theorem limited_cases (exponentBits rounded : Nat) :
    layout.limited exponentBits rounded = layout.infinity ∨
      layout.limited exponentBits rounded = 0 ∨ layout.limited exponentBits rounded = rounded := by
  unfold limited
  split_ifs <;> simp

/-- What was limited stays. -/
theorem limited_limited (exponentBits rounded : Nat) :
    layout.limited exponentBits (layout.limited exponentBits rounded) =
      layout.limited exponentBits rounded := by
  by_cases narrower : exponentBits < layout.exponentBits
  swap
  · simp only [limited, if_neg narrower]
  have top : layout.infinity / 2 ^ layout.mantissaBits = 2 ^ layout.exponentBits - 1 :=
    Nat.mul_div_cancel _ (Nat.two_pow_pos _)
  have biases : bias layout.exponentBits + bias exponentBits < 2 ^ layout.exponentBits - 1 := by
    have double : 2 ^ layout.exponentBits = 2 * 2 ^ (layout.exponentBits - 1) := by
      rw [Nat.mul_comm, ← Nat.pow_succ]
      congr 1
      omega
    have smaller : 2 ^ (exponentBits - 1) ≤ 2 ^ (layout.exponentBits - 1) :=
      Nat.pow_le_pow_right (by decide) (by omega)
    have positive := Nat.two_pow_pos (exponentBits - 1)
    unfold bias
    omega
  rw [limited_eq layout rounded, if_pos narrower]
  split_ifs with above under
  · rw [limited_eq, if_pos narrower, if_pos (top ▸ biases)]
  · rw [limited_eq, if_pos narrower, Nat.zero_div, if_neg (Nat.not_lt_zero _),
      if_pos (Nat.zero_le _)]
  · rw [limited_eq, if_pos narrower, if_neg above, if_neg under]

/-- The bits that reducing the precision gives. -/
def reducedBits (exponentBits mantissaBits bits : Nat) : Nat :=
  if layout.infinity < layout.magnitude bits then bits
  else layout.sign bits + layout.limited exponentBits
      (roundAt (layout.mantissaBits - mantissaBits) (layout.magnitude bits))

/-- They are what they should be. -/
theorem reducedBits_reduced (exponentBits mantissaBits bits : Nat) :
    layout.Reduced exponentBits mantissaBits bits
      (layout.reducedBits exponentBits mantissaBits bits) where
  nan isNaN := if_pos isNaN
  number isNumber := ⟨_, layout.roundAt_nearestEven mantissaBits _, if_neg isNumber⟩

/-- A sign and a magnitude that fits. -/
theorem magnitude_sign_add (bits : Nat) {magnitude : Nat}
    (fits : magnitude < 2 ^ layout.magnitudeBits) :
    layout.magnitude (layout.sign bits + magnitude) = magnitude ∧
      layout.sign (layout.sign bits + magnitude) = layout.sign bits := by
  have positive := Nat.two_pow_pos layout.magnitudeBits
  rw [FloatLayout.magnitude, sign, sign, Nat.mul_comm, Nat.mul_add_mod, Nat.mod_eq_of_lt fits,
    Nat.mul_add_div positive, Nat.div_eq_of_lt fits, Nat.add_zero, Nat.mul_comm]
  exact ⟨rfl, rfl⟩

/-- The magnitude of what is reduced is a number's or infinity, and a multiple. -/
theorem limited_round (exponentBits mantissaBits : Nat) {magnitude : Nat}
    (number : magnitude ≤ layout.infinity) : ∃ block,
    layout.limited exponentBits (roundAt (layout.mantissaBits - mantissaBits) magnitude) =
      block * 2 ^ (layout.mantissaBits - mantissaBits) ∧
    block * 2 ^ (layout.mantissaBits - mantissaBits) ≤ layout.infinity := by
  obtain ⟨limit, isLimit⟩ := layout.infinity_multiple mantissaBits
  obtain ⟨block, rounds, most⟩ :=
    roundAt_le (layout.mantissaBits - mantissaBits) (number.trans isLimit.le)
  rcases layout.limited_cases exponentBits
    (roundAt (layout.mantissaBits - mantissaBits) magnitude) with same | same | same
  · exact ⟨limit, same.trans isLimit, isLimit.ge⟩
  · exact ⟨0, by rw [same, Nat.zero_mul], by rw [Nat.zero_mul]; exact Nat.zero_le _⟩
  · exact ⟨block, same.trans rounds, isLimit ▸ Nat.mul_le_mul_right _ most⟩

/-- Reducing the precision once more changes nothing. -/
theorem reducedBits_reducedBits (exponentBits mantissaBits bits : Nat) :
    layout.reducedBits exponentBits mantissaBits
        (layout.reducedBits exponentBits mantissaBits bits) =
      layout.reducedBits exponentBits mantissaBits bits := by
  by_cases isNaN : layout.infinity < layout.magnitude bits
  · simp only [reducedBits, if_pos isNaN]
  · obtain ⟨block, isBlock, most⟩ :=
      layout.limited_round exponentBits mantissaBits (Nat.not_lt.mp isNaN)
    obtain ⟨sameMagnitude, sameSign⟩ :=
      layout.magnitude_sign_add bits (Nat.lt_of_le_of_lt most layout.infinity_lt)
    have limitedAgain := layout.limited_limited exponentBits
      (roundAt (layout.mantissaBits - mantissaBits) (layout.magnitude bits))
    rw [isBlock] at limitedAgain
    rw [reducedBits.eq_def layout _ _ bits, if_neg isNaN, isBlock, reducedBits, sameMagnitude,
      sameSign, if_neg (Nat.not_lt.mpr most), roundAt_multiple, limitedAgain]

/-- A sign and what fits a magnitude are as wide as the float. -/
theorem reducedBits_lt (exponentBits mantissaBits : Nat) {bits : Nat}
    (fits : bits < 2 ^ (layout.magnitudeBits + 1)) :
    layout.reducedBits exponentBits mantissaBits bits < 2 ^ (layout.magnitudeBits + 1) := by
  unfold reducedBits
  split
  · exact fits
  · rename_i number
    obtain ⟨block, isBlock, most⟩ :=
      layout.limited_round exponentBits mantissaBits (Nat.not_lt.mp number)
    have less := Nat.lt_of_le_of_lt most layout.infinity_lt
    have signs : bits / 2 ^ layout.magnitudeBits ≤ 1 :=
      Nat.le_of_lt_succ (Nat.div_lt_of_lt_mul (by rwa [← Nat.pow_succ]))
    have signed := Nat.mul_le_mul_right (2 ^ layout.magnitudeBits) signs
    rw [isBlock, sign, Nat.pow_succ]
    omega

end FloatLayout

section Bits

-- the input has `e` exponent bits and `m` mantissa bits, as in e5m2
variable {e m exponentBits mantissaBits : Nat}

theorem infinity_eq (exponentBits mantissaBits : Nat) :
    (2 ^ exponentBits - 1) * 2 ^ mantissaBits =
      2 ^ (exponentBits + mantissaBits) - 2 ^ mantissaBits := by
  rw [Nat.sub_mul, Nat.one_mul, Nat.pow_add]

section

variable (fits : e + m < 32)
include fits

theorem toNat_exponentMask :
    (exponentMask e m).toNat = (2 ^ e - 1) * 2 ^ m := by
  have mantissas := Nat.two_pow_pos m
  have less : 2 ^ (e + m) < 2 ^ 32 :=
    Nat.pow_lt_pow_right (by decide) fits
  have small : 2 ^ e < 2 ^ 32 := Nat.pow_lt_pow_right (by decide) (by omega)
  have mask : 2 ^ e - 1 < 2 ^ 32 := by omega
  have shifted : (2 ^ e - 1) * 2 ^ m < 2 ^ 32 := by
    rw [infinity_eq]
    omega
  rw [exponentMask, one_shiftLeft_sub (by omega), BitVec.toNat_shiftLeft, BitVec.toNat_ofNat,
    Nat.mod_eq_of_lt mask, Nat.shiftLeft_eq, Nat.mod_eq_of_lt shifted]

/-- The exponent field of a word, in its place. -/
theorem toNat_and_exponentMask (bits : Word) :
    (bits &&& exponentMask e m).toNat = bits.toNat / 2 ^ m % 2 ^ e * 2 ^ m := by
  have masked := and_shiftLeft bits.toNat (2 ^ e - 1) m
  rw [Nat.shiftLeft_eq, Nat.and_two_pow_sub_one_eq_mod, Nat.shiftLeft_eq,
    Nat.shiftRight_eq_div_pow] at masked
  rw [BitVec.toNat_and, toNat_exponentMask fits, masked]

/-- Rounding leaves the sign, and rounds the magnitude of a number or an infinity. -/
theorem toNat_roundMantissa {bits : Word} {sign magnitude : Nat} (signs : sign < 2)
    (split : bits.toNat = sign * 2 ^ (e + m) + magnitude)
    (number : magnitude ≤ (2 ^ e - 1) * 2 ^ m) :
    (roundMantissa m mantissaBits bits).toNat = sign * 2 ^ (e + m) +
        FloatLayout.roundAt (m - mantissaBits) magnitude := by
  by_cases kept : m ≤ mantissaBits
  · rw [roundMantissa, if_neg (by omega), split, FloatLayout.roundAt, if_pos (by omega)]
  obtain ⟨half, isDropped⟩ : ∃ half, m - mantissaBits = half + 1 :=
    ⟨m - mantissaBits - 1, by omega⟩
  have positive := Nat.two_pow_pos half
  have room : 2 ^ (half + 1) ≤ 2 ^ m :=
    Nat.pow_le_pow_right (by decide) (by omega)
  have words : 2 * 2 ^ (e + m) ≤ 2 ^ 32 := by
    rw [Nat.mul_comm, ← Nat.pow_succ]
    exact Nat.pow_le_pow_right (by decide) fits
  have signed : sign * 2 ^ (e + m) ≤ 1 * 2 ^ (e + m) := Nat.mul_le_mul_right _ (by omega)
  rw [infinity_eq] at number
  -- the bias by the last kept bit
  let last := bits.toNat / 2 ^ (half + 1) % 2
  have lastKept : (1#32 <<< (half + 1)).toNat = 2 ^ (half + 1) :=
    toNat_one_shiftLeft (by omega)
  have halfKept : (1#32 <<< (half + 1) >>> 1).toNat = 2 ^ half := by
    rw [BitVec.toNat_ushiftRight, lastKept, Nat.shiftRight_eq_div_pow]
    omega
  have lower : (1#32 <<< (half + 1) >>> 1 - 1#32).toNat = 2 ^ half - 1 := by
    rw [BitVec.toNat_sub_of_le, halfKept]
    · rfl
    · rw [BitVec.le_def, halfKept]
      exact positive
  have bias : (if bits &&& 1#32 <<< (half + 1) ≠ 0#32 then 1#32 <<< (half + 1) >>> 1
      else 1#32 <<< (half + 1) >>> 1 - 1#32).toNat = 2 ^ half - 1 + last := by
    rw [if_congr (and_one_shiftLeft_ne_zero bits (by omega)) rfl rfl]
    by_cases isSet : bits.toNat / 2 ^ (half + 1) % 2 = 1
    · rw [if_pos isSet, halfKept]
      omega
    · rw [if_neg isSet, lower]
      omega
  have sum : (bits + if bits &&& 1#32 <<< (half + 1) ≠ 0#32 then 1#32 <<< (half + 1) >>> 1
      else 1#32 <<< (half + 1) >>> 1 - 1#32).toNat =
      sign * 2 ^ (e + m) + (magnitude + (2 ^ half - 1 + last)) := by
    rw [BitVec.toNat_add, bias, split, Nat.add_assoc]
    exact Nat.mod_eq_of_lt (by omega)
  -- truncation leaves the sign, which is a multiple of the last kept bit
  obtain ⟨count, isCount⟩ : 2 ^ (half + 1) ∣ 2 ^ (e + m) :=
    Nat.pow_dvd_pow 2 (by omega)
  have truncated : (sign * 2 ^ (e + m) +
      (magnitude + (2 ^ half - 1 + last))) / 2 ^ (half + 1) * 2 ^ (half + 1) =
      sign * 2 ^ (e + m) +
        (magnitude + (2 ^ half - 1 + last)) / 2 ^ (half + 1) * 2 ^ (half + 1) := by
    rw [isCount, Nat.mul_left_comm, Nat.mul_add_div (Nat.two_pow_pos _), Nat.add_mul]
    ring
  have rounds : (magnitude + (2 ^ half - 1 + last)) / 2 ^ (half + 1) * 2 ^ (half + 1) =
      FloatLayout.roundAt (half + 1) magnitude := by
    rw [FloatLayout.roundAt, if_neg (Nat.succ_ne_zero half), Nat.add_sub_cancel]
    by_cases inside : half + 1 < e + m
    · have same : last = magnitude / 2 ^ (half + 1) % 2 := by
        have even : count % 2 = 0 := by
          have factor : 2 ^ (e + m) = 2 ^ (half + 1) * 2 ^ (e + m - (half + 1)) := by
            rw [← Nat.pow_add, Nat.add_sub_cancel' inside.le]
          have isPower := Nat.eq_of_mul_eq_mul_left (Nat.two_pow_pos _) (isCount.symm.trans factor)
          rw [isPower, Nat.pow_mod, Nat.mod_self, Nat.zero_pow (by omega)]
        show bits.toNat / 2 ^ (half + 1) % 2 = _
        rw [split, isCount, Nat.mul_left_comm, Nat.mul_add_div (Nat.two_pow_pos _), Nat.add_mod,
          Nat.mul_mod, even, Nat.mul_zero, Nat.zero_mod, Nat.zero_add, Nat.mod_mod]
      rw [← same, Nat.add_assoc]
    · -- without an exponent field only zero is a number
      have zero : magnitude = 0 := by
        have all : e + m ≤ m := by omega
        have powers : 2 ^ (e + m) ≤ 2 ^ m :=
          Nat.pow_le_pow_right (by decide) all
        omega
      have none : (0 + (2 ^ half - 1 + last)) / 2 ^ (half + 1) = 0 := Nat.div_eq_of_lt (by omega)
      have none' : (0 + (2 ^ half - 1) + 0 / 2 ^ (half + 1) % 2) / 2 ^ (half + 1) = 0 :=
        Nat.div_eq_of_lt (by rw [Nat.zero_div]; omega)
      rw [zero, none, none']
  rw [roundMantissa, if_pos (by omega), isDropped]
  dsimp only
  rw [one_shiftLeft_sub (by omega), toNat_and_not_low _ (by omega), sum, truncated, rounds]

end

/-- A bias of the format constants. -/
theorem toNat_bias {bits : Nat} (fits : bits < 32) :
    (1#32 <<< (bits - 1) - 1#32).toNat = FloatLayout.bias bits := by
  have less : 2 ^ (bits - 1) < 2 ^ 32 := Nat.pow_lt_pow_right (by decide) (by omega)
  rw [one_shiftLeft_sub (by omega), BitVec.toNat_ofNat]
  exact Nat.mod_eq_of_lt (by omega)

/-- The target's limits leave the sign, and limit the magnitude of a number or an infinity. -/
theorem toNat_limitExponent (fits : e + m < 32) {bits : Word}
    {sign magnitude : Nat} (signs : sign < 2)
    (split : bits.toNat = sign * 2 ^ (e + m) + magnitude)
    (number : magnitude ≤ (2 ^ e - 1) * 2 ^ m) :
    (limitExponent e m exponentBits bits).toNat = sign * 2 ^ (e + m) +
        FloatLayout.limited ⟨e, m⟩ exponentBits magnitude := by
  rw [FloatLayout.limited_eq]
  by_cases narrower : exponentBits < e
  swap
  · rw [limitExponent, if_neg narrower, if_neg narrower, split]
  have mantissas := Nat.two_pow_pos m
  have exponents := Nat.two_pow_pos e
  have whole : 2 ^ (e + m) = 2 ^ e * 2 ^ m := Nat.pow_add ..
  have words : 2 ^ (e + m) ≤ 2 ^ 31 :=
    Nat.pow_le_pow_right (by decide) (by omega)
  have room : 2 ^ m ≤ 2 ^ (e + m) :=
    Nat.pow_le_pow_right (by decide) (by omega)
  have infinite := infinity_eq e m
  have infinityLess : (2 ^ e - 1) * 2 ^ m < 2 ^ (e + m) := by
    omega
  have magnitudeLess := Nat.lt_of_le_of_lt number infinityLess
  let exponent := magnitude / 2 ^ m
  have exponentLess : exponent < 2 ^ e := by
    apply Nat.div_lt_of_lt_mul
    rw [Nat.mul_comm, ← whole]
    exact magnitudeLess
  -- what the masks take
  have field : (bits &&& exponentMask e m).toNat = exponent * 2 ^ m := by
    rw [toNat_and_exponentMask fits, split, whole, ← Nat.mul_assoc,
      Nat.mul_comm (sign * _), Nat.mul_add_div mantissas, Nat.mul_comm sign,
      Nat.mul_add_mod, Nat.mod_eq_of_lt exponentLess]
  have signed : (bits &&& 1#32 <<< (1 + e + m - 1)).toNat = sign * 2 ^ (e + m) := by
    have place : 1 + e + m - 1 = e + m := by omega
    have quotient : (sign * 2 ^ (e + m) + magnitude) / 2 ^ (e + m) = sign := by
      rw [Nat.mul_comm, Nat.mul_add_div (Nat.two_pow_pos _), Nat.div_eq_of_lt magnitudeLess,
        Nat.add_zero]
    rw [place, toNat_and_one_shiftLeft bits fits, split, quotient, Nat.mod_eq_of_lt signs]
  -- the limits
  have smaller : FloatLayout.bias exponentBits ≤ FloatLayout.bias e := by
    exact Nat.sub_le_sub_right (Nat.pow_le_pow_right (by decide) (by omega)) 1
  have biases : FloatLayout.bias e + FloatLayout.bias exponentBits < 2 ^ e := by
    have double : 2 ^ e = 2 * 2 ^ (e - 1) := by
      rw [Nat.mul_comm, ← Nat.pow_succ]
      congr 1
      omega
    have isBias : FloatLayout.bias e = 2 ^ (e - 1) - 1 := rfl
    omega
  have shifted {word : Word} (less : word.toNat < 2 ^ e) :
      (word <<< m).toNat = word.toNat * 2 ^ m ∧ word.toNat * 2 ^ m < 2 ^ (e + m) := by
    have product : word.toNat * 2 ^ m < 2 ^ (e + m) := by
      rw [whole]
      exact Nat.mul_lt_mul_of_pos_right less mantissas
    rw [BitVec.toNat_shiftLeft, Nat.shiftLeft_eq]
    exact ⟨Nat.mod_eq_of_lt (by omega), product⟩
  have inputBias := toNat_bias (show e < 32 by omega)
  have reducedBias := toNat_bias (show exponentBits < 32 by omega)
  have sum : (1#32 <<< (e - 1) - 1#32 + (1#32 <<< (exponentBits - 1) - 1#32)).toNat =
      FloatLayout.bias e + FloatLayout.bias exponentBits := by
    have small : 2 ^ e < 2 ^ 32 := Nat.pow_lt_pow_right (by decide) (by omega)
    rw [BitVec.toNat_add, inputBias, reducedBias, Nat.mod_eq_of_lt (by omega)]
  have difference : (1#32 <<< (e - 1) - 1#32 - (1#32 <<< (exponentBits - 1) - 1#32)).toNat =
      FloatLayout.bias e - FloatLayout.bias exponentBits := by
    rw [BitVec.toNat_sub_of_le, inputBias, reducedBias]
    rw [BitVec.le_def, inputBias, reducedBias]
    exact smaller
  obtain ⟨most, mostLess⟩ := shifted (sum ▸ biases)
  obtain ⟨least, leastLess⟩ := shifted (difference.trans_lt (by omega))
  rw [sum] at most mostLess
  rw [difference] at least leastLess
  have fieldLess : exponent * 2 ^ m < 2 ^ 31 := by
    have product := Nat.mul_lt_mul_of_pos_right exponentLess mantissas
    omega
  have above := slt_of_lt (most.trans_lt (by omega)) (field.trans_lt fieldLess)
  have under := sle_of_lt (field.trans_lt fieldLess) (least.trans_lt (by omega))
  rw [most, field] at above
  rw [least, field] at under
  rw [limitExponent, if_pos narrower, if_pos narrower]
  dsimp only
  rw [above, under]
  simp only [decide_eq_true_eq, Nat.mul_lt_mul_right mantissas, Nat.mul_le_mul_right_iff mantissas]
  split_ifs
  · rw [BitVec.toNat_or, signed, toNat_exponentMask fits, or_eq_add _ infinityLess]
    rfl
  · rw [signed, Nat.add_zero]
  · exact split

/-- The static assertions of the kernel. -/
structure Supported (inputExponentBits inputMantissaBits exponentBits : Nat) : Prop where
  width : 1 + inputExponentBits + inputMantissaBits = 16 ∨
    1 + inputExponentBits + inputMantissaBits = 32
  exponentBits : 1 ≤ exponentBits

/-- The input's width drops nothing, or the upper half. -/
theorem toNat_narrow (width : 1 + e + m = 16 ∨
      1 + e + m = 32) (word : Word) :
    (if 1 + e + m = 16 then word &&& 0xFFFF#32 else word).toNat = word.toNat % 2 ^ (e + m + 1) := by
  have place : e + m + 1 = 1 + e + m := by omega
  rw [place]
  rcases width with narrow | wide
  · rw [if_pos narrow, narrow]
    exact toNat_and_low word 16 (by decide)
  · rw [if_neg (by omega), wide]
    exact (Nat.mod_eq_of_lt word.isLt).symm

/-- What the kernel computes, field by field. -/
theorem toNat_calculateReducePrecision (supported : Supported e m exponentBits) (raw : Word) :
    (calculateReducePrecision e m exponentBits mantissaBits raw).toNat =
      FloatLayout.reducedBits ⟨e, m⟩ exponentBits mantissaBits (raw.toNat % 2 ^ (e + m + 1)) := by
  have fits : e + m < 32 := by
    have width := supported.width
    omega
  have isInput := toNat_narrow supported.width raw
  have inputLess : raw.toNat % 2 ^ (e + m + 1) < 2 ^ (e + m + 1) := Nat.mod_lt _ (Nat.two_pow_pos _)
  let layout : FloatLayout := ⟨e, m⟩
  have resultLess := layout.reducedBits_lt exponentBits mantissaBits inputLess
  have powers : 2 ^ (e + m) ≤ 2 ^ 31 :=
    Nat.pow_le_pow_right (by decide) (by omega)
  rw [calculateReducePrecision, toNat_narrow supported.width]
  generalize (if 1 + e + m = 16 then raw &&& 0xFFFF#32 else raw) = input at isInput
  generalize raw.toNat % 2 ^ (e + m + 1) = bits at *
  have magnitudeLess : layout.magnitude bits < 2 ^ (e + m) :=
    Nat.mod_lt _ (Nat.two_pow_pos _)
  -- the NaN test
  have masked : (input &&& (1#32 <<< (1 + e + m - 1) - 1#32)).toNat = layout.magnitude bits := by
    have place : 1 + e + m - 1 = e + m := by omega
    rw [place, one_shiftLeft_sub fits, toNat_and_low _ _ (by omega), isInput]
    rfl
  have infinityLess := layout.infinity_lt
  have mask : (exponentMask e m).toNat = layout.infinity :=
    toNat_exponentMask fits
  have test := slt_of_lt (mask.trans_lt (infinityLess.trans_le powers))
    (masked.trans_lt (magnitudeLess.trans_le powers))
  rw [mask, masked] at test
  rw [test]
  have same : (if decide (layout.infinity < layout.magnitude bits) = true then input
      else limitExponent e m exponentBits (roundMantissa m mantissaBits input)).toNat =
      layout.reducedBits exponentBits mantissaBits bits := by
    unfold FloatLayout.reducedBits
    by_cases isNaN : layout.infinity < layout.magnitude bits
    · rw [if_pos (decide_eq_true isNaN), if_pos isNaN, isInput]
    · have number := Nat.not_lt.mp isNaN
      have signs : bits / 2 ^ (e + m) < 2 :=
        Nat.div_lt_of_lt_mul (by rwa [← Nat.pow_succ])
      have split : input.toNat = bits / 2 ^ (e + m) * 2 ^ (e + m) + layout.magnitude bits :=
        isInput.trans (Nat.div_add_mod' bits _).symm
      have rounded : (roundMantissa m mantissaBits input).toNat = _ :=
        toNat_roundMantissa fits signs split number
      obtain ⟨limit, isLimit⟩ := layout.infinity_multiple mantissaBits
      obtain ⟨block, rounds, most⟩ :=
        FloatLayout.roundAt_le (m - mantissaBits) (number.trans isLimit.le)
      have small : FloatLayout.roundAt (m - mantissaBits) (layout.magnitude bits) ≤
          (2 ^ e - 1) * 2 ^ m :=
        rounds ▸ (Nat.mul_le_mul_right _ most).trans isLimit.ge
      rw [if_neg (by simpa using isNaN), if_neg isNaN,
        toNat_limitExponent fits signs rounded small]
      rfl
  rw [same]
  exact Nat.mod_eq_of_lt resultLess

end Bits

/-- `reduce_precision` rounds as it should for every layout and target, and what it returns is a
fixed point. -/
theorem reduce_precision (inputExponentBits inputMantissaBits exponentBits mantissaBits : Nat)
    (supported : Supported inputExponentBits inputMantissaBits exponentBits) (raw : Word) :
    FloatLayout.Reduced ⟨inputExponentBits, inputMantissaBits⟩ exponentBits mantissaBits
        (raw.toNat % 2 ^ (1 + inputExponentBits + inputMantissaBits))
        (calculateReducePrecision inputExponentBits inputMantissaBits exponentBits mantissaBits
          raw).toNat ∧
      calculateReducePrecision inputExponentBits inputMantissaBits exponentBits mantissaBits
          (calculateReducePrecision inputExponentBits inputMantissaBits exponentBits mantissaBits
            raw) =
        calculateReducePrecision inputExponentBits inputMantissaBits exponentBits mantissaBits
          raw := by
  have computes (word : Word) : (calculateReducePrecision inputExponentBits inputMantissaBits
      exponentBits mantissaBits word).toNat = _ := toNat_calculateReducePrecision supported word
  have place : 1 + inputExponentBits + inputMantissaBits =
      inputExponentBits + inputMantissaBits + 1 := by omega
  have bits := Nat.mod_lt raw.toNat (Nat.two_pow_pos (inputExponentBits + inputMantissaBits + 1))
  have less : FloatLayout.reducedBits ⟨inputExponentBits, inputMantissaBits⟩ exponentBits
      mantissaBits (raw.toNat % 2 ^ (inputExponentBits + inputMantissaBits + 1)) <
      2 ^ (inputExponentBits + inputMantissaBits + 1) :=
    FloatLayout.reducedBits_lt _ exponentBits mantissaBits bits
  refine ⟨?_, ?_⟩
  · rw [computes, place]
    exact FloatLayout.reducedBits_reduced _ _ _ _
  · apply BitVec.eq_of_toNat_eq
    rw [computes, computes, Nat.mod_eq_of_lt less, FloatLayout.reducedBits_reducedBits]

theorem reduce_precision_bfloat16 :
    Supported 8 7 5 ∧ FloatLayout.Reduced ⟨8, 7⟩ 5 2 0x3FCC
      (calculateReducePrecision 8 7 5 2 0x3FCC#32).toNat := by
  have supported : Supported 8 7 5 := ⟨.inl rfl, by decide⟩
  exact ⟨supported, (reduce_precision 8 7 5 2 supported 0x3FCC#32).1⟩

end Libtt.Sfpu

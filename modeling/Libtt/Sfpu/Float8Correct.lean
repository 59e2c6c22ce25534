import Libtt.Foundation.BitFields
import Libtt.Sfpu.Float8

/-!
# Float8 conversions are correctly rounded

The sums with half a unit round to nearest even on either side of the smallest normal number, on
the magnitudes as natural numbers; the words carry those.
-/
namespace Libtt.Sfpu

open Libtt.Foundation BinaryFormat

namespace Float8

variable (format : Float8)

theorem layout_units (magnitude : Nat) :
    format.layout.units magnitude = floatUnits format.M magnitude := by
  cases format <;> rfl

/-- How far the least subnormal number of a float is below that of the format. -/
def scale : Nat := 150 - format.BIAS - format.M

/-- The number of a float's magnitude, in units of the format. -/
def number (magnitude : Nat) : ℚ := binary32.units magnitude / 2 ^ format.scale

theorem layout_unit : binary32.unit = format.layout.unit / 2 ^ format.scale := by
  cases format <;> norm_num [unit, binary32, layout, bias, scale, M, BIAS]

theorem abs_value_number (input : Nat) : |binary32.value input| =
    format.number (binary32.magnitude input) * format.layout.unit := by
  rw [abs_value, layout_unit, number, div_mul_eq_mul_div, mul_div_assoc]

/-- The parts that a number is put together from decide how it is rounded. -/
theorem nearestEven_of_parts {number : ℚ} {floor half rest : Nat}
    (isNumber : number = format.layout.units floor +
      (rest : ℚ) / (2 * half) * 2 ^ (floor / 2 ^ format.layout.fractionBits - 1))
    (less : rest < 2 * half) : format.NearestEven (number * format.layout.unit)
      (if rest < half ∨ rest = half ∧ floor % 2 = 0 then floor else floor + 1) := by
  have unit := format.layout.unit_pos
  have rounded := format.layout.roundUp_eq isNumber less
  have same : (if rest < half ∨ rest = half ∧ floor % 2 = 0 then floor else floor + 1) =
      format.layout.roundUp number floor := by
    rw [rounded.2.2]
    split <;> split <;> omega
  have distance (other : Nat) : |format.size other - number * format.layout.unit| =
      |(format.layout.units other : ℚ) - number| * format.layout.unit := by
    rw [size, ← sub_mul, abs_mul, abs_of_pos unit]
  intro other
  rw [same, distance, distance]
  have nearest := format.layout.roundUp_nearest rounded.1 rounded.2.1 other
  exact ⟨mul_le_mul_of_nonneg_right nearest.1 unit.le, fun tie =>
    nearest.2 (mul_right_cancel₀ unit.ne' tie)⟩

/-- A float's units, with the bits that a narrower fraction keeps and those that it drops. -/
theorem units_parts {fractionBits dropped : Nat} (bits : fractionBits + dropped = 23)
    (above exponent : Nat) {kept rest : Nat} (keptLess : kept < 2 ^ fractionBits)
    (restLess : rest < 2 ^ dropped) :
    (binary32.units ((above + exponent + 1) * 2 ^ 23 + (kept * 2 ^ dropped + rest)) : ℚ) /
        2 ^ (above + dropped) =
      floatUnits fractionBits ((exponent + 1) * 2 ^ fractionBits + kept) +
        (rest : ℚ) / 2 ^ dropped * 2 ^ exponent := by
  have whole : 2 ^ 23 = 2 ^ fractionBits * 2 ^ dropped := by rw [← Nat.pow_add, bits]
  have low : kept * 2 ^ dropped + rest < 2 ^ 23 := by
    have next : (kept + 1) * 2 ^ dropped ≤ 2 ^ fractionBits * 2 ^ dropped :=
      Nat.mul_le_mul_right _ keptLess
    rw [Nat.succ_mul] at next
    omega
  have wide : binary32.units ((above + exponent + 1) * 2 ^ 23 + (kept * 2 ^ dropped + rest)) =
      (2 ^ 23 + (kept * 2 ^ dropped + rest)) * 2 ^ (above + exponent) := by
    have high : ((above + exponent + 1) * 2 ^ 23 + (kept * 2 ^ dropped + rest)) / 2 ^ 23 =
        above + exponent + 1 := by omega
    have fraction : ((above + exponent + 1) * 2 ^ 23 + (kept * 2 ^ dropped + rest)) % 2 ^ 23 =
        kept * 2 ^ dropped + rest := by omega
    rw [units, show binary32.fractionBits = 23 from rfl, high, fraction,
      if_neg (Nat.succ_ne_zero _), Nat.add_sub_cancel]
  have narrow : floatUnits fractionBits ((exponent + 1) * 2 ^ fractionBits + kept) =
      (2 ^ fractionBits + kept) * 2 ^ exponent := by
    have high : ((exponent + 1) * 2 ^ fractionBits + kept) / 2 ^ fractionBits = exponent + 1 := by
      rw [Nat.mul_comm, Nat.mul_add_div (Nat.two_pow_pos _), Nat.div_eq_of_lt keptLess,
        Nat.add_zero]
    have fraction : ((exponent + 1) * 2 ^ fractionBits + kept) % 2 ^ fractionBits = kept := by
      rw [Nat.mul_comm, Nat.mul_add_mod, Nat.mod_eq_of_lt keptLess]
    rw [floatUnits, high, fraction, if_neg (Nat.succ_ne_zero _), Nat.add_sub_cancel]
  rw [wide, narrow, whole, pow_add]
  push_cast
  field_simp
  ring

/-- What the kernel rounds a magnitude to, before it looks for an overflow. -/
def rounded (magnitude : Nat) : Nat :=
  if magnitude < (128 - format.BIAS) * 2 ^ 23 then
    let shift := min 31 (151 - format.BIAS - format.M - magnitude / 2 ^ 23)
    let significand := 2 ^ 23 + magnitude % 2 ^ 23
    (significand + (2 ^ (shift - 1) - 1) + significand / 2 ^ shift % 2) / 2 ^ shift
  else
    (magnitude + (2 ^ (22 - format.M) - 1) + magnitude / 2 ^ (23 - format.M) % 2) /
      2 ^ (23 - format.M) - (127 - format.BIAS) * 2 ^ format.M

/-- The constants of a format: the fraction that is dropped, and how far the exponents are moved. -/
theorem constants : ∃ more half above, format.M = more + 1 ∧ 22 - format.M = half ∧
    23 - format.M = half + 1 ∧ format.M + (half + 1) = 23 ∧ 127 - format.BIAS = above ∧
    128 - format.BIAS = above + 1 ∧ format.scale = above + (half + 1) ∧
    format.layout.fractionBits = format.M := by
  cases format
  · exact ⟨2, 19, 120, rfl, rfl, rfl, rfl, rfl, rfl, rfl, rfl⟩
  · exact ⟨1, 20, 112, rfl, rfl, rfl, rfl, rfl, rfl, rfl, rfl⟩

/-- How far the subnormal numbers are below those of a float. -/
theorem sizes : format.scale = 140 ∧ format.BIAS = 7 ∧ format.M = 3 ∨
    format.scale = 133 ∧ format.BIAS = 15 ∧ format.M = 2 := by
  cases format <;> decide

/-- Magnitudes from the smallest normal number on. -/
theorem rounded_normal {magnitude : Nat} (least : (128 - format.BIAS) * 2 ^ 23 ≤ magnitude) :
    format.NearestEven (format.number magnitude * format.layout.unit)
      (format.rounded magnitude) := by
  obtain ⟨more, half, above, isMore, isHalf, isDropped, bits, isAbove, isFirst, isScale,
    isFraction⟩ := format.constants
  rw [rounded, if_neg (Nat.not_lt.mpr least), isHalf, isDropped, isAbove]
  have whole : 2 ^ 23 = 2 ^ format.M * 2 ^ (half + 1) := by rw [← Nat.pow_add, bits]
  obtain ⟨exponent, isExponent⟩ : ∃ exponent, magnitude / 2 ^ 23 = above + exponent + 1 :=
    ⟨magnitude / 2 ^ 23 - (above + 1), by omega⟩
  obtain ⟨kept, rest, keptLess, restLess, fraction⟩ : ∃ kept rest, kept < 2 ^ format.M ∧
      rest < 2 ^ (half + 1) ∧ magnitude % 2 ^ 23 = kept * 2 ^ (half + 1) + rest := by
    refine ⟨magnitude % 2 ^ 23 / 2 ^ (half + 1), magnitude % 2 ^ 23 % 2 ^ (half + 1), ?_,
      Nat.mod_lt _ (Nat.two_pow_pos _), (Nat.div_add_mod' _ _).symm⟩
    rw [Nat.div_lt_iff_lt_mul (Nat.two_pow_pos _), ← whole]
    exact Nat.mod_lt _ (by decide)
  have split : magnitude = (above + exponent + 1) * 2 ^ 23 + (kept * 2 ^ (half + 1) + rest) := by
    omega
  have parts := units_parts bits above exponent keptLess restLess
  rw [← split, ← isScale] at parts
  obtain ⟨code, isCode⟩ : ∃ code, code = (exponent + 1) * 2 ^ format.M + kept := ⟨_, rfl⟩
  rw [← isCode] at parts
  have blocks : magnitude = (above * 2 ^ format.M + code) * 2 ^ (half + 1) + rest := by
    rw [split, whole, isCode]
    ring
  have high : code / 2 ^ format.M - 1 = exponent := by
    rw [isCode, Nat.mul_comm, Nat.mul_add_div (Nat.two_pow_pos _), Nat.div_eq_of_lt keptLess,
      Nat.add_zero, Nat.add_sub_cancel]
  have isNumber : format.number magnitude = format.layout.units code +
      (rest : ℚ) / (2 * (2 ^ half : Nat)) * 2 ^ (code / 2 ^ format.layout.fractionBits - 1) := by
    rw [layout_units, isFraction, high, number, parts, pow_succ', Nat.cast_pow, Nat.cast_ofNat]
  have nearest := format.nearestEven_of_parts isNumber (by rwa [← Nat.pow_succ'])
  have parity : (above * 2 ^ format.M + code) % 2 = code % 2 := by
    rw [isMore, Nat.pow_succ, ← Nat.mul_assoc, Nat.mul_add_mod_self_right]
  have sums : (if rest < 2 ^ half ∨ rest = 2 ^ half ∧ code % 2 = 0 then above * 2 ^ format.M + code
      else above * 2 ^ format.M + code + 1) - above * 2 ^ format.M =
      if rest < 2 ^ half ∨ rest = 2 ^ half ∧ code % 2 = 0 then code else code + 1 := by
    split <;> omega
  rw [← sums, ← parity, ← add_half_div _ restLess, ← blocks] at nearest
  exact nearest

/-- Magnitudes of less than half the least subnormal number. -/
theorem rounded_tiny {magnitude : Nat} (below : magnitude < (format.scale - 30) * 2 ^ 23) :
    format.NearestEven (format.number magnitude * format.layout.unit)
      (format.rounded magnitude) := by
  have small : binary32.units magnitude < 2 ^ (format.scale - 1) := by
    have grows := binary32.units_strictMono below
    cases format
    · exact grows.trans_le (by decide)
    · exact grows.trans_le (by decide)
  have isZero : format.rounded magnitude = 0 := by
    have bounds : magnitude < (128 - format.BIAS) * 2 ^ 23 ∧
        31 ≤ 151 - format.BIAS - format.M - magnitude / 2 ^ 23 := by
      have sizes := format.sizes
      omega
    rw [rounded, if_pos bounds.1]
    dsimp only
    rw [Nat.min_eq_left bounds.2, Nat.div_eq_of_lt (by omega : 2 ^ 23 + magnitude % 2 ^ 23 < 2 ^ 31)]
    exact Nat.div_eq_of_lt (by omega)
  have double : 2 ^ format.scale = 2 * 2 ^ (format.scale - 1) := by
    cases format <;> rfl
  have isNumber : format.number magnitude = format.layout.units 0 +
      (binary32.units magnitude : ℚ) / (2 * (2 ^ (format.scale - 1) : Nat)) *
        2 ^ (0 / 2 ^ format.layout.fractionBits - 1) := by
    have cast : (2 : ℚ) ^ format.scale = 2 * (2 ^ (format.scale - 1) : Nat) := by
      exact_mod_cast double
    rw [number, units_zero, Nat.zero_div, cast]
    simp
  have nearest := format.nearestEven_of_parts isNumber (by omega)
  rw [if_pos (.inl small)] at nearest
  rwa [isZero]

/-- Magnitudes that are rounded to a multiple of the least subnormal number. -/
theorem rounded_subnormal {magnitude : Nat} (least : (format.scale - 30) * 2 ^ 23 ≤ magnitude)
    (most : magnitude < (128 - format.BIAS) * 2 ^ 23) :
    format.NearestEven (format.number magnitude * format.layout.unit)
      (format.rounded magnitude) := by
  have sizes := format.sizes
  have normal : magnitude / 2 ^ 23 ≠ 0 := by omega
  obtain ⟨shift, isShift, isMin, bound⟩ : ∃ shift, format.scale = shift + magnitude / 2 ^ 23 ∧
      min 31 (151 - format.BIAS - format.M - magnitude / 2 ^ 23) = shift + 1 ∧
      24 ≤ format.M + (shift + 1) :=
    ⟨format.scale - magnitude / 2 ^ 23, by omega, by omega, by omega⟩
  rw [rounded, if_pos most]
  dsimp only
  rw [isMin, Nat.add_sub_cancel]
  obtain ⟨floor, rest, restLess, split⟩ : ∃ floor rest, rest < 2 ^ (shift + 1) ∧
      2 ^ 23 + magnitude % 2 ^ 23 = floor * 2 ^ (shift + 1) + rest :=
    ⟨_, _, Nat.mod_lt _ (Nat.two_pow_pos _), (Nat.div_add_mod' _ _).symm⟩
  have floorLess : floor < 2 ^ format.M := by
    have most : 2 ^ 24 ≤ 2 ^ format.M * 2 ^ (shift + 1) := by
      rw [← Nat.pow_add]
      exact Nat.pow_le_pow_right (by decide) bound
    refine Nat.lt_of_mul_lt_mul_right (a := 2 ^ (shift + 1)) ?_
    omega
  have small : floor / 2 ^ format.M = 0 := Nat.div_eq_of_lt floorLess
  have isNumber : format.number magnitude = format.layout.units floor +
      (rest : ℚ) / (2 * (2 ^ shift : Nat)) * 2 ^ (floor / 2 ^ format.layout.fractionBits - 1) := by
    have isFraction : format.layout.fractionBits = format.M := by cases format <;> rfl
    have units : binary32.units magnitude =
        (floor * 2 ^ (shift + 1) + rest) * 2 ^ (magnitude / 2 ^ 23 - 1) := by
      rw [← split]
      exact if_neg normal
    obtain ⟨exponent, isExponent⟩ := Nat.exists_eq_succ_of_ne_zero normal
    rw [number, units, layout_units, floatUnits, isFraction, small, if_pos rfl,
      Nat.mod_eq_of_lt floorLess, isShift, isExponent, Nat.succ_sub_one, Nat.zero_sub, pow_zero,
      mul_one, show shift + exponent.succ = shift + 1 + exponent by omega, pow_add, pow_succ']
    push_cast
    field_simp
    ring
  have nearest := format.nearestEven_of_parts isNumber (by rwa [← Nat.pow_succ'])
  rw [← add_half_div _ restLess, ← split] at nearest
  exact nearest

/-- What a finite magnitude is rounded to. -/
theorem rounded_nearest (magnitude : Nat) :
    format.NearestEven (format.number magnitude * format.layout.unit)
      (format.rounded magnitude) := by
  by_cases tiny : magnitude < (format.scale - 30) * 2 ^ 23
  · exact format.rounded_tiny tiny
  by_cases subnormal : magnitude < (128 - format.BIAS) * 2 ^ 23
  · exact format.rounded_subnormal (Nat.not_lt.mp tiny) subnormal
  · exact format.rounded_normal (Nat.not_lt.mp subnormal)

end Float8

theorem shft_right (word : Word) {amount : Word} (positive : amount.toNat ≠ 0)
    (less : amount.toNat < 32) : shft word (-amount) = word >>> amount.toNat := by
  have negative : (-amount).slt 0#32 = true := by
    rw [BitVec.slt, decide_eq_true_iff, BitVec.toInt_eq_toNat_cond, BitVec.toNat_neg]
    simp
    omega
  rw [shft, if_pos negative, BitVec.neg_neg, Nat.mod_eq_of_lt less]

theorem shft_left (word : Word) {amount : Word} (less : amount.toNat < 32) :
    shft word amount = word <<< amount.toNat := by
  have positive : amount.slt 0#32 = false := by
    rw [slt_of_lt (by omega) (by decide)]
    simp
  rw [shft, if_neg (by rw [positive]; decide), Nat.mod_eq_of_lt less]

theorem toNat_and_one (word : Word) : (word &&& 1#32).toNat = word.toNat % 2 :=
  toNat_and_low word 1 (by decide)

/-- A comparison that limits a word. -/
theorem toNat_limit {limit word : Word} (limitLess : limit.toNat < 2 ^ 31)
    (less : word.toNat < 2 ^ 31) :
    (if limit.slt word then limit else word).toNat = min limit.toNat word.toNat := by
  rw [slt_of_lt limitLess less]
  by_cases more : limit.toNat < word.toNat
  · rw [if_pos (decide_eq_true more), Nat.min_eq_left more.le]
  · rw [if_neg (by simpa using more), Nat.min_eq_right (Nat.not_lt.mp more)]

/-- The sum that rounds, in a word. -/
theorem toNat_rounding {word : Word} {half : Nat} (shift : half < 31)
    (less : word.toNat < 2 ^ 31) : ((word + (word >>> (half + 1) &&& 1#32) +
        (1#32 <<< half - 1#32)) >>> (half + 1)).toNat =
      (word.toNat + (2 ^ half - 1) + word.toNat / 2 ^ (half + 1) % 2) / 2 ^ (half + 1) := by
  have power : 2 ^ half ≤ 2 ^ 30 := Nat.pow_le_pow_right (by decide) (by omega)
  have bit : (word >>> (half + 1) &&& 1#32).toNat = word.toNat / 2 ^ (half + 1) % 2 := by
    rw [toNat_and_one, BitVec.toNat_ushiftRight, Nat.shiftRight_eq_div_pow]
  have below : (1#32 <<< half - 1#32).toNat = 2 ^ half - 1 := by
    rw [one_shiftLeft_sub (by omega), BitVec.toNat_ofNat, Nat.mod_eq_of_lt (by omega)]
  rw [BitVec.toNat_ushiftRight, Nat.shiftRight_eq_div_pow, BitVec.toNat_add, BitVec.toNat_add, bit,
    below, Nat.mod_eq_of_lt (a := word.toNat + _) (by omega), Nat.mod_eq_of_lt (by omega)]
  congr 1
  omega

namespace Float8

variable (format : Float8)

theorem toNat_topCode : (topCode format.M format.hasInf).toNat = format.top := by
  cases format <;> decide

/-- Subnormal results. -/
theorem toNat_subnormal {magnitude : Word}
    (most : magnitude.toNat < (128 - format.BIAS) * 2 ^ 23) :
    let shift := BitVec.ofNat 32 (151 - format.BIAS - format.M) - shft magnitude (-23#32)
    let shift := if (31#32).slt shift then 31#32 else shift
    let significand := magnitude &&& 0x7fffff#32 ||| 0x800000#32
    (shft (significand + (shft 1#32 (shift - 1#32) - 1#32) +
      (shft significand (0#32 - shift) &&& 1#32)) (0#32 - shift)).toNat =
      format.rounded magnitude.toNat := by
  intro shift clamped significand
  have exponent : (shft magnitude (-23#32)).toNat = magnitude.toNat / 2 ^ 23 := by
    exact Nat.shiftRight_eq_div_pow ..
  have exponents : 23 ≤ 151 - format.BIAS - format.M - magnitude.toNat / 2 ^ 23 + 2 ∧
      magnitude.toNat / 2 ^ 23 < 151 - format.BIAS - format.M ∧
      151 - format.BIAS - format.M < 2 ^ 31 := by
    have sizes := format.sizes
    omega
  have isShift : shift.toNat = 151 - format.BIAS - format.M - magnitude.toNat / 2 ^ 23 := by
    have total : (BitVec.ofNat 32 (151 - format.BIAS - format.M)).toNat =
        151 - format.BIAS - format.M := by
      rw [BitVec.toNat_ofNat, Nat.mod_eq_of_lt (by omega)]
    rw [BitVec.toNat_sub_of_le, total, exponent]
    rw [BitVec.le_def, total, exponent]
    omega
  have isClamped : clamped.toNat =
      min 31 (151 - format.BIAS - format.M - magnitude.toNat / 2 ^ 23) := by
    rw [← isShift]
    exact toNat_limit (by decide) (by omega)
  have isSignificand : significand.toNat = 2 ^ 23 + magnitude.toNat % 2 ^ 23 := by
    have low : (magnitude &&& 0x7fffff#32).toNat = magnitude.toNat % 2 ^ 23 :=
      toNat_and_low magnitude 23 (by decide)
    rw [BitVec.toNat_or, low, Nat.or_comm]
    exact or_eq_add 1 (Nat.mod_lt magnitude.toNat (show 0 < 2 ^ 23 by decide))
  obtain ⟨half, isHalf, halfLess⟩ : ∃ half, clamped.toNat = half + 1 ∧ half < 31 :=
    ⟨clamped.toNat - 1, by omega, by omega⟩
  have isLeft : shft 1#32 (clamped - 1#32) = 1#32 <<< half := by
    have amount : (clamped - 1#32).toNat = half := by
      rw [BitVec.toNat_sub_of_le (by rw [BitVec.le_def, isHalf]; simp), isHalf]
      rfl
    rw [shft_left _ (by omega), amount]
  rw [BitVec.zero_sub, isLeft, shft_right _ (by omega) (by omega),
    shft_right _ (by omega) (by omega), isHalf,
    BitVec.add_assoc, BitVec.add_comm (_ - _), ← BitVec.add_assoc, toNat_rounding halfLess (by omega), isSignificand, rounded, if_pos most]
  dsimp only
  rw [← isClamped, isHalf, Nat.add_sub_cancel]

/-- Normal results. -/
theorem toNat_normal {magnitude : Word} (least : (128 - format.BIAS) * 2 ^ 23 ≤ magnitude.toNat)
    (number : magnitude.toNat < 2 ^ 31) :
    (shft (magnitude + (shft magnitude (-BitVec.ofNat 32 (23 - format.M)) &&& 1#32) +
        (1#32 <<< (23 - format.M - 1) - 1#32)) (-BitVec.ofNat 32 (23 - format.M)) -
      BitVec.ofNat 32 (127 - format.BIAS) <<< format.M).toNat = format.rounded magnitude.toNat := by
  have dropped : 23 - format.M = 22 - format.M + 1 ∧ 22 - format.M < 31 := by
    cases format <;> decide
  have amount : (BitVec.ofNat 32 (23 - format.M)).toNat = 22 - format.M + 1 := by
    cases format <;> decide
  have offset : (BitVec.ofNat 32 (127 - format.BIAS) <<< format.M).toNat =
      (127 - format.BIAS) * 2 ^ format.M := by
    cases format <;> decide
  have isRounded : (shft (magnitude + (shft magnitude (-BitVec.ofNat 32 (23 - format.M)) &&& 1#32) +
      (1#32 <<< (23 - format.M - 1) - 1#32)) (-BitVec.ofNat 32 (23 - format.M))).toNat =
        (magnitude.toNat + (2 ^ (22 - format.M) - 1) +
          magnitude.toNat / 2 ^ (22 - format.M + 1) % 2) / 2 ^ (22 - format.M + 1) := by
    rw [shft_right _ (by omega) (by omega), shft_right _ (by omega) (by omega), amount, dropped.1,
      Nat.add_sub_cancel, toNat_rounding dropped.2 number]
  have enough : (127 - format.BIAS) * 2 ^ format.M ≤
      (magnitude.toNat + (2 ^ (22 - format.M) - 1) +
        magnitude.toNat / 2 ^ (22 - format.M + 1) % 2) / 2 ^ (22 - format.M + 1) := by
    rw [Nat.le_div_iff_mul_le (Nat.two_pow_pos _)]
    cases format
    · change 121 * 2 ^ 23 ≤ _ at least
      change 120 * 2 ^ 3 * 2 ^ 20 ≤ magnitude.toNat + (2 ^ 19 - 1) + magnitude.toNat / 2 ^ 20 % 2
      omega
    · change 113 * 2 ^ 23 ≤ _ at least
      change 112 * 2 ^ 2 * 2 ^ 21 ≤ magnitude.toNat + (2 ^ 20 - 1) + magnitude.toNat / 2 ^ 21 % 2
      omega
  rw [BitVec.toNat_sub_of_le, isRounded, offset, rounded, if_neg (Nat.not_lt.mpr least), dropped.1]
  rw [BitVec.le_def, isRounded, offset]
  exact enough

/-- A rounded magnitude fits a word with room for its sign. -/
theorem rounded_lt {magnitude : Nat} (most : magnitude ≤ 255 * 2 ^ 23) :
    format.rounded magnitude < 2 ^ 31 := by
  unfold rounded
  split
  · dsimp only
    generalize min 31 (151 - format.BIAS - format.M - magnitude / 2 ^ 23) = shift
    have power := Nat.two_pow_pos shift
    have half : 2 ^ (shift - 1) ≤ 2 ^ shift := Nat.pow_le_pow_right (by decide) (by omega)
    apply Nat.div_lt_of_lt_mul
    omega
  · have quotient := Nat.div_le_self (magnitude + (2 ^ (22 - format.M) - 1) +
      magnitude / 2 ^ (23 - format.M) % 2) (2 ^ (23 - format.M))
    have power : 2 ^ (22 - format.M) ≤ 2 ^ 22 := Nat.pow_le_pow_right (by decide) (by omega)
    omega

/-- The code that the kernel computes, field by field. -/
theorem toNat_calculateFp32ToFp8 (input : Word) :
    (calculateFp32ToFp8 format.M format.BIAS format.hasInf input).toNat =
      input.toNat / 2 ^ 31 * 2 ^ 7 +
        if format.hasInf = true ∧ 255 * 2 ^ 23 < input.toNat % 2 ^ 31 then 0x7f
        else min (format.rounded (min (255 * 2 ^ 23) (input.toNat % 2 ^ 31))) format.top := by
  have isMagnitude : (input &&& 0x7fffffff#32).toNat = input.toNat % 2 ^ 31 :=
    toNat_and_low input 31 (by decide)
  have magnitudeLess : input.toNat % 2 ^ 31 < 2 ^ 31 := Nat.mod_lt _ (by decide)
  rw [calculateFp32ToFp8]
  obtain ⟨magnitude, isClamped⟩ : ∃ magnitude : Word,
      (if (0x7f800000#32).slt (input &&& 0x7fffffff#32) then 0x7f800000#32
        else input &&& 0x7fffffff#32) = magnitude := ⟨_, rfl⟩
  have clamped : magnitude.toNat = min (255 * 2 ^ 23) (input.toNat % 2 ^ 31) := by
    rw [← isClamped, toNat_limit (by decide) (by omega), isMagnitude]
    rfl
  rw [isClamped]
  have numberLess : magnitude.toNat < 2 ^ 31 := by omega
  have first : (BitVec.ofNat 32 (128 - format.BIAS) <<< 23).toNat =
      (128 - format.BIAS) * 2 ^ 23 := by cases format <;> decide
  -- the code before the limit
  have chosen {low high : Word}
      (isLow : magnitude.toNat < (128 - format.BIAS) * 2 ^ 23 →
        low.toNat = format.rounded magnitude.toNat)
      (isHigh : (128 - format.BIAS) * 2 ^ 23 ≤ magnitude.toNat →
        high.toNat = format.rounded magnitude.toNat) :
      (if magnitude.slt (BitVec.ofNat 32 (128 - format.BIAS) <<< 23) then low else high).toNat =
        format.rounded magnitude.toNat := by
    rw [slt_of_lt numberLess (by omega), first]
    by_cases subnormal : magnitude.toNat < (128 - format.BIAS) * 2 ^ 23
    · rw [if_pos (decide_eq_true subnormal), isLow subnormal]
    · rw [if_neg (by simpa using subnormal), isHigh (Nat.not_lt.mp subnormal)]
  have isCode := chosen format.toNat_subnormal fun least => format.toNat_normal least numberLess
  have topLess : format.top < 2 ^ 7 := by cases format <;> decide
  have limitLess : (topCode format.M format.hasInf).toNat < 2 ^ 31 :=
    format.toNat_topCode.trans_lt (topLess.trans (by decide))
  have limited := toNat_limit limitLess (isCode.trans_lt (format.rounded_lt (by omega)))
  rw [isCode, toNat_topCode, Nat.min_comm] at limited
  have special := slt_of_lt (show (0x7f800000#32).toNat < 2 ^ 31 by decide)
    (isMagnitude.trans_lt magnitudeLess)
  rw [isMagnitude, show (0x7f800000#32).toNat = 255 * 2 ^ 23 from rfl] at special
  have signBit : (shft input (-24#32) &&& 0x80#32).toNat = input.toNat / 2 ^ 31 * 2 ^ 7 := by
    rw [shft_right _ (by decide) (by decide), show 0x80#32 = 1#32 <<< 7 from rfl,
      toNat_and_one_shiftLeft _ (by decide), BitVec.toNat_ushiftRight, Nat.shiftRight_eq_div_pow]
    change input.toNat / 2 ^ 24 / 2 ^ 7 % 2 * 2 ^ 7 = _
    omega
  rw [special, BitVec.toNat_or, signBit, ← clamped]
  simp only [Bool.and_eq_true, decide_eq_true_eq]
  by_cases nan : format.hasInf = true ∧ 255 * 2 ^ 23 < input.toNat % 2 ^ 31
  · rw [if_pos nan, if_pos nan, Nat.or_comm]
    exact or_eq_add (input.toNat / 2 ^ 31) (show 0x7f < 2 ^ 7 by decide)
  · rw [if_neg nan, if_neg nan, limited, Nat.or_comm]
    exact or_eq_add (input.toNat / 2 ^ 31) ((Nat.min_le_right ..).trans_lt topLess)

theorem top_lt : format.top < 2 ^ 7 := by cases format <;> decide

/-- Infinity goes past the largest number. -/
theorem top_le_rounded : format.top ≤ format.rounded (255 * 2 ^ 23) := by
  cases format <;> decide

theorem encodes (input : Word) : format.Encodes input.toNat
    (calculateFp32ToFp8 format.M format.BIAS format.hasInf input).toNat := by
  have isCode := format.toNat_calculateFp32ToFp8 input
  generalize (calculateFp32ToFp8 format.M format.BIAS format.hasInf input).toNat = code at *
  have topLess := format.top_lt
  have past := format.top_le_rounded
  obtain ⟨low, isLow⟩ : ∃ low, (if format.hasInf = true ∧ 255 * 2 ^ 23 < input.toNat % 2 ^ 31 then
      0x7f else min (format.rounded (min (255 * 2 ^ 23) (input.toNat % 2 ^ 31))) format.top) = low :=
    ⟨_, rfl⟩
  have lowLess : low < 2 ^ 7 := by
    rw [← isLow]
    split
    · decide
    · omega
  have isMagnitude : magnitude code = low := by
    unfold magnitude
    omega
  have isNaN : binary32.IsNaN input.toNat ↔ 255 * 2 ^ 23 < input.toNat % 2 ^ 31 :=
    binary32.isNaN_iff
  have isInfinite : binary32.IsInfinite input.toNat ↔ input.toNat % 2 ^ 31 = 255 * 2 ^ 23 :=
    binary32.isInfinite_iff
  have isFinite : binary32.IsFinite input.toNat ↔ input.toNat % 2 ^ 31 < 255 * 2 ^ 23 :=
    binary32.isFinite_iff
  refine ⟨by omega, ?_, ?_, ?_, ?_⟩
  · show code / 2 ^ 7 % 2 = 1 ↔ input.toNat / 2 ^ 31 % 2 = 1
    omega
  · intro nan
    rw [isNaN] at nan
    rw [Nat.min_eq_left nan.le, Nat.min_eq_right past] at isLow
    unfold IsNaN IsFinite IsInfinite
    rw [isMagnitude, ← isLow]
    cases format
    · rw [if_neg (by simp [hasInf])]
      decide
    · rw [if_pos ⟨rfl, nan⟩]
      decide
  · intro infinite
    rw [isInfinite] at infinite
    rw [if_neg (by omega), infinite, Nat.min_self, Nat.min_eq_right past] at isLow
    rw [isMagnitude, isLow]
  · intro finite
    rw [isFinite] at finite
    rw [if_neg (by omega), Nat.min_eq_right finite.le] at isLow
    refine ⟨format.rounded (input.toNat % 2 ^ 31), ?_, isMagnitude.trans isLow.symm⟩
    rw [abs_value_number]
    exact format.rounded_nearest _

/-- A float whose bits have a sign put on. -/
theorem decodes_of_bits {code : Nat} {bits : Word} (less : bits.toNat < 2 ^ 31)
    (byte : code < 2 ^ 8) {output : Nat} (isOutput : output = code / 2 ^ 7 * 2 ^ 31 + bits.toNat)
    (nan : format.IsNaN code → binary32.infinity < bits.toNat)
    (infinite : format.IsInfinite code → bits.toNat = binary32.infinity)
    (number : format.IsFinite code → bits.toNat < binary32.infinity ∧
      (binary32.units bits.toNat : ℚ) * binary32.unit = format.size (magnitude code)) :
    format.Decodes code output := by
  have isMagnitude : binary32.magnitude output = bits.toNat := by
    show output % 2 ^ 31 = _
    omega
  have sign : binary32.Negative output ↔ Negative code := by
    show output / 2 ^ 31 % 2 = 1 ↔ code / 2 ^ 7 % 2 = 1
    omega
  refine ⟨sign, fun isNaN => ?_, fun isInfinite => ?_, fun isFinite => ⟨?_, ?_⟩⟩
  · rw [isNaN_iff, isMagnitude]
    exact nan isNaN
  · rw [isInfinite_iff, isMagnitude]
    exact infinite isInfinite
  · rw [isFinite_iff, isMagnitude]
    exact (number isFinite).1
  · have layoutSign : format.layout.Negative code ↔ Negative code := by cases format <;> rfl
    have layoutMagnitude : format.layout.magnitude code = magnitude code := by cases format <;> rfl
    rw [value, value_eq, value_eq, isMagnitude, mul_assoc, (number isFinite).2, layoutMagnitude,
      mul_assoc]
    simp only [sign.trans layoutSign.symm, size]

/-- What a subnormal magnitude is multiplied by. -/
def power : Word := BitVec.ofNat 32 (128 - format.BIAS - format.M) <<< 23

theorem power_value : ¬binary32.Negative format.power.toNat ∧
    binary32.IsFinite format.power.toNat ∧ binary32.fraction format.power.toNat = 0 ∧
      binary32.exponent format.power.toNat ≠ 0 ∧
      binary32.value format.power.toNat = format.layout.unit := by
  cases format
  case' e4m3fn => rw [show e4m3fn.power.toNat = 0x3b000000 from rfl]
  case' e5m2 => rw [show e5m2.power.toNat = 0x37800000 from rfl]
  all_goals
    refine ⟨by decide, Nat.lt_of_sub_pos (by decide), by decide, by decide, ?_⟩
    norm_num [BinaryFormat.value, significand, exponent, fraction, BinaryFormat.magnitude,
      BinaryFormat.Negative, binary32, bias, unit, layout]

/-- The bits of a positive float. -/
theorem units_of_plus {bits : Word} {number : ℚ} (plus : ¬binary32.Negative bits.toNat)
    (finite : binary32.IsFinite bits.toNat) (isValue : binary32.value bits.toNat = number) :
    bits.toNat < binary32.infinity ∧ (binary32.units bits.toNat : ℚ) * binary32.unit = number := by
  have isMagnitude : binary32.magnitude bits.toNat = bits.toNat := by
    have high : ¬bits.toNat / 2 ^ 31 % 2 = 1 := plus
    show bits.toNat % 2 ^ 31 = _
    omega
  rw [isFinite_iff, isMagnitude] at finite
  rw [value_eq, if_neg plus, one_mul, isMagnitude] at isValue
  exact ⟨finite, isValue⟩

/-- A subnormal magnitude times the smallest subnormal number. -/
theorem subnormal_product {lane : FloatLane} (exact : lane.Exact) {magnitude : Word}
    (subnormal : magnitude.toNat < 2 ^ format.M) :
    (lane.mul (lane.convert magnitude) format.power).toNat < binary32.infinity ∧
      (binary32.units (lane.mul (lane.convert magnitude) format.power).toNat : ℚ) *
        binary32.unit = format.size magnitude.toNat := by
  have small : magnitude.toNat < 8 := by
    cases format
    · exact subnormal
    · exact subnormal.trans (by decide)
  obtain ⟨plus, finite, isValue⟩ := exact.convert magnitude (by omega)
  obtain ⟨powerPlus, powerFinite, noFraction, powerNormal, isPower⟩ := format.power_value
  have unitLeast : (2 : ℚ) ^ (-126 : ℤ) ≤ format.layout.unit ∧ format.layout.unit ≤ 1 := by
    cases format <;> norm_num [unit, bias, layout]
  have range : binary32.value (lane.convert magnitude).toNat = 0 ∨
      2 ^ (-126 : ℤ) ≤ binary32.value (lane.convert magnitude).toNat ∧
      2 ^ (-126 : ℤ) ≤ binary32.value (lane.convert magnitude).toNat * format.layout.unit ∧
      binary32.value (lane.convert magnitude).toNat * format.layout.unit < 2 ^ (128 : ℤ) := by
    rw [isValue]
    rcases Nat.eq_zero_or_pos magnitude.toNat with zero | positive
    · exact .inl (by rw [zero, Nat.cast_zero])
    · have one : (1 : ℚ) ≤ magnitude.toNat := by exact_mod_cast positive
      have most : (magnitude.toNat : ℚ) ≤ 8 := by exact_mod_cast small.le
      have tiny : (2 : ℚ) ^ (-126 : ℤ) ≤ 1 := by norm_num
      have large : (8 : ℚ) * 1 < 2 ^ (128 : ℤ) := by norm_num
      have unit := format.layout.unit_pos.le
      exact .inr ⟨tiny.trans one, unitLeast.1.trans (le_mul_of_one_le_left unit one),
        (mul_le_mul most unitLeast.2 unit (by norm_num)).trans_lt large⟩
  rw [← isPower] at range
  obtain ⟨productPlus, productFinite, product⟩ := exact.mul (lane.convert magnitude) format.power
    plus powerPlus finite powerFinite noFraction powerNormal range
  rw [isValue, isPower] at product
  obtain ⟨less, units⟩ := units_of_plus productPlus productFinite product
  refine ⟨less, units.trans ?_⟩
  rw [size, layout_units, floatUnits, Nat.div_eq_of_lt subnormal, if_pos rfl,
    Nat.mod_eq_of_lt subnormal]

/-- A normal magnitude in the fields of a float. -/
theorem normal_bits {magnitude : Word} (normal : 2 ^ format.M ≤ magnitude.toNat)
    (less : magnitude.toNat < 2 ^ 7) :
    let bits := shft magnitude (BitVec.ofNat 32 (23 - format.M)) +
      BitVec.ofNat 32 (127 - format.BIAS) <<< 23
    bits.toNat < binary32.infinity ∧
      (binary32.units bits.toNat : ℚ) * binary32.unit = format.size magnitude.toNat := by
  intro bits
  obtain ⟨more, half, above, isMore, isHalf, isDropped, width, isAbove, isFirst, isScale,
    isFraction⟩ := format.constants
  obtain ⟨exponent, kept, keptLess, split⟩ : ∃ exponent kept, kept < 2 ^ format.M ∧
      magnitude.toNat = (exponent + 1) * 2 ^ format.M + kept := by
    have positive := Nat.div_pos normal (Nat.two_pow_pos _)
    refine ⟨magnitude.toNat / 2 ^ format.M - 1, magnitude.toNat % 2 ^ format.M,
      Nat.mod_lt _ (Nat.two_pow_pos _), ?_⟩
    rw [Nat.sub_add_cancel positive, Nat.div_add_mod']
  have whole : 2 ^ 23 = 2 ^ format.M * 2 ^ (half + 1) := by rw [← Nat.pow_add, width]
  have isBits : bits.toNat = (above + exponent + 1) * 2 ^ 23 + (kept * 2 ^ (half + 1) + 0) := by
    have amount : (BitVec.ofNat 32 (23 - format.M)).toNat = half + 1 := by
      rw [isDropped, BitVec.toNat_ofNat, Nat.mod_eq_of_lt (by omega)]
    have offset : (BitVec.ofNat 32 (127 - format.BIAS) <<< 23).toNat = above * 2 ^ 23 := by
      rw [← isAbove]
      cases format <;> rfl
    have bound : magnitude.toNat * 2 ^ (half + 1) ≤ 2 ^ 7 * 2 ^ 22 :=
      Nat.mul_le_mul less.le (Nat.pow_le_pow_right (by decide) (by omega))
    have amountLess : (BitVec.ofNat 32 (23 - format.M)).toNat < 32 := by omega
    have productLess : magnitude.toNat * 2 ^ (half + 1) < 2 ^ 32 := by omega
    rw [BitVec.toNat_add, shft_left _ amountLess, BitVec.toNat_shiftLeft, amount, offset,
      Nat.shiftLeft_eq, Nat.mod_eq_of_lt productLess, Nat.mod_eq_of_lt (by omega), split, whole]
    ring
  have parts := units_parts width above exponent keptLess (Nat.two_pow_pos (half + 1))
  rw [← isBits, ← isScale, Nat.cast_zero, zero_div, zero_mul, add_zero, ← split] at parts
  refine ⟨?_, ?_⟩
  · have high : (exponent + 1) * 2 ^ format.M < 2 ^ 7 := by omega
    have exponentLess : above + exponent + 1 < 255 := by
      cases format
      · change (exponent + 1) * 2 ^ 3 < 2 ^ 7 at high
        omega
      · change (exponent + 1) * 2 ^ 2 < 2 ^ 7 at high
        omega
    have low : kept * 2 ^ (half + 1) < 2 ^ 23 := by
      rw [whole]
      exact Nat.mul_lt_mul_of_pos_right keptLess (Nat.two_pow_pos _)
    show bits.toNat < 255 * 2 ^ 23
    omega
  · rw [size, layout_units, layout_unit, ← parts]
    ring

/-- The tests of a code's class. -/
theorem top_tests {magnitudeBits : Word} (less : magnitudeBits.toNat < 2 ^ 7) :
    (magnitudeBits = topCode format.M format.hasInf ↔ magnitudeBits.toNat = format.top) ∧
      ((topCode format.M format.hasInf - if format.hasInf then 0#32 else 1#32).slt
        magnitudeBits = true ↔ format.top ≤ magnitudeBits.toNat ∧
          ¬(format.hasInf = true ∧ magnitudeBits.toNat = format.top)) := by
  refine ⟨by rw [← BitVec.toNat_inj, toNat_topCode], ?_⟩
  cases format
  · rw [show topCode e4m3fn.M e4m3fn.hasInf - (if e4m3fn.hasInf then 0#32 else 1#32) = 0x7e#32 from
      rfl, slt_of_lt (by decide) (by omega), decide_eq_true_iff]
    change 0x7e < _ ↔ 0x7f ≤ _ ∧ ¬(false = true ∧ _)
    simp only [Bool.false_eq_true, false_and, not_false_eq_true, and_true]
    omega
  · rw [show topCode e5m2.M e5m2.hasInf - (if e5m2.hasInf then 0#32 else 1#32) = 0x7c#32 from
      rfl, slt_of_lt (by decide) (by omega), decide_eq_true_iff]
    change 0x7c < _ ↔ 0x7c ≤ _ ∧ ¬(true = true ∧ _ = 0x7c)
    simp only [true_and]
    omega

theorem decodes {lane : FloatLane} (exact : lane.Exact) {code : Word} (byte : code.toNat < 2 ^ 8) :
    format.Decodes code.toNat
      (calculateFp8ToFp32 lane format.M format.BIAS format.hasInf code).toNat := by
  have isMagnitude : (code &&& 0x7f#32).toNat = magnitude code.toNat :=
    toNat_and_low code 7 (by decide)
  have less : (code &&& 0x7f#32).toNat < 2 ^ 7 := isMagnitude.trans_lt (Nat.mod_lt _ (by decide))
  have isSign : (shft (code &&& 0x80#32) 24#32).toNat = code.toNat / 2 ^ 7 * 2 ^ 31 := by
    have bit : (code &&& 0x80#32).toNat = code.toNat / 2 ^ 7 % 2 * 2 ^ 7 :=
      toNat_and_one_shiftLeft code (show 7 < 32 by decide)
    rw [shft_left _ (by decide), BitVec.toNat_shiftLeft, bit, Nat.shiftLeft_eq]
    change code.toNat / 2 ^ 7 % 2 * 2 ^ 7 * 2 ^ 24 % 2 ^ 32 = _
    omega
  obtain ⟨isTop, isPast⟩ := format.top_tests less
  rw [calculateFp8ToFp32]
  generalize code &&& 0x7f#32 = magnitudeBits at *
  -- the bits of a number
  have chosen : ∃ bits, (if magnitudeBits.slt (1#32 <<< format.M) then
        lane.mul (lane.convert magnitudeBits) (BitVec.ofNat 32 (128 - format.BIAS - format.M) <<< 23)
      else shft magnitudeBits (BitVec.ofNat 32 (23 - format.M)) +
        BitVec.ofNat 32 (127 - format.BIAS) <<< 23) = bits ∧
      bits.toNat < binary32.infinity ∧
      (binary32.units bits.toNat : ℚ) * binary32.unit = format.size magnitudeBits.toNat := by
    have bound : (1#32 <<< format.M).toNat = 2 ^ format.M := by cases format <;> rfl
    have boundLess : 2 ^ format.M < 2 ^ 31 := by cases format <;> decide
    rw [slt_of_lt (by omega) (by omega), bound]
    by_cases subnormal : magnitudeBits.toNat < 2 ^ format.M
    · rw [if_pos (decide_eq_true subnormal)]
      exact ⟨_, rfl, format.subnormal_product exact subnormal⟩
    · rw [if_neg (by simpa using subnormal)]
      exact ⟨_, rfl, format.normal_bits (Nat.not_lt.mp subnormal) less⟩
  obtain ⟨number, isNumber, numberLess, numberUnits⟩ := chosen
  rw [isNumber]
  have infinityLess : binary32.infinity < 2 ^ 31 := by decide
  have joined {bits : Word} (bitsLess : bits.toNat < 2 ^ 31) :
      (bits ||| shft (code &&& 0x80#32) 24#32).toNat =
        code.toNat / 2 ^ 7 * 2 ^ 31 + bits.toNat := by
    rw [BitVec.toNat_or, isSign, Nat.or_comm]
    exact or_eq_add (code.toNat / 2 ^ 7) bitsLess
  have classes : format.IsFinite code.toNat ∨ format.IsInfinite code.toNat ∨
      format.IsNaN code.toNat := by
    by_cases finite : format.IsFinite code.toNat
    · exact .inl finite
    by_cases infinite : format.IsInfinite code.toNat
    · exact .inr (.inl infinite)
    · exact .inr (.inr ⟨finite, infinite⟩)
  have isFinite : format.IsFinite code.toNat ↔ magnitudeBits.toNat < format.top := by
    rw [isMagnitude]
    rfl
  have isInfinite : format.IsInfinite code.toNat ↔
      format.hasInf = true ∧ magnitudeBits.toNat = format.top := by
    rw [isMagnitude]
    rfl
  rcases classes with finite | infinite | nan
  · have noTop : ¬(format.hasInf && magnitudeBits == topCode format.M format.hasInf) = true := by
      rw [isFinite] at finite
      rw [Bool.and_eq_true, beq_iff_eq, isTop]
      omega
    rw [isFinite] at finite
    rw [if_neg (mt isPast.mp (by omega)), if_neg noTop]
    refine format.decodes_of_bits (by omega) byte (joined (by omega)) (fun nan => ?_)
      (fun infinite => ?_) (fun _ => ⟨numberLess, isMagnitude ▸ numberUnits⟩)
    · exact absurd (isFinite.mpr finite) nan.1
    · have same := (isInfinite.mp infinite).2
      omega
  · have both := isInfinite.mp infinite
    have top : (format.hasInf && magnitudeBits == topCode format.M format.hasInf) = true := by
      rw [Bool.and_eq_true, beq_iff_eq, isTop]
      exact both
    rw [if_neg (mt isPast.mp fun past => past.2 both), if_pos top]
    refine format.decodes_of_bits (by decide) byte (joined (by decide)) (fun nan => ?_)
      (fun _ => rfl) (fun finite => ?_)
    · exact absurd infinite nan.2
    · rw [isFinite] at finite
      omega
  · have past := isPast.mpr ⟨Nat.not_lt.mp (mt isFinite.mpr nan.1), mt isInfinite.mpr nan.2⟩
    rw [if_pos past]
    exact format.decodes_of_bits (by decide) byte (joined (by decide)) (fun _ => by decide)
      (fun infinite => absurd infinite nan.2) (fun finite => absurd finite nan.1)

/-- What is encoded from a decoded code is that code. -/
theorem eq_of_decodes {code output result : Nat} (byte : code < 2 ^ 8)
    (decodes : format.Decodes code output) (encodes : format.Encodes output result)
    (numeric : ¬format.IsNaN code) : result = code := by
  have signs : result / 2 ^ 7 % 2 = 1 ↔ code / 2 ^ 7 % 2 = 1 := encodes.sign.trans decodes.sign
  have resultByte := encodes.byte
  have magnitudes : magnitude result = magnitude code := by
    by_cases finite : format.IsFinite code
    · obtain ⟨isFinite, isValue⟩ := decodes.number finite
      obtain ⟨rounded, nearest, isResult⟩ := encodes.number isFinite
      have layoutMagnitude : format.layout.magnitude code = magnitude code := by
        cases format <;> rfl
      have isSize : |binary32.value output| = format.size (magnitude code) := by
        rw [isValue, value, abs_value, layoutMagnitude, size]
      have distance := (nearest (magnitude code)).1
      rw [isSize, sub_self, abs_zero, abs_nonpos_iff, sub_eq_zero, size, size] at distance
      have same : rounded = magnitude code := format.layout.units_strictMono.injective
        (Nat.cast_injective (mul_right_cancel₀ format.layout.unit_pos.ne' distance))
      rw [isResult, same, Nat.min_eq_left (Nat.le_of_lt finite)]
    · have infinite : format.IsInfinite code := by
        by_contra other
        exact numeric ⟨finite, other⟩
      rw [encodes.infinite (decodes.infinite infinite), infinite.2]
  unfold magnitude at magnitudes
  omega

end Float8

/-- Conversions to float8 are correctly rounded, those from float8 are exact, and they undo each
other but for NaNs. -/
theorem fp8_conversions (lane : FloatLane) (exact : lane.Exact) (format : Float8) :
    (∀ input : Word, format.Encodes input.toNat
      (calculateFp32ToFp8 format.M format.BIAS format.hasInf input).toNat) ∧
    ∀ code : Word, code.toNat < 2 ^ 8 →
      format.Decodes code.toNat
        (calculateFp8ToFp32 lane format.M format.BIAS format.hasInf code).toNat ∧
      (¬format.IsNaN code.toNat → calculateFp32ToFp8 format.M format.BIAS format.hasInf
        (calculateFp8ToFp32 lane format.M format.BIAS format.hasInf code) = code) := by
  refine ⟨format.encodes, fun code byte => ⟨format.decodes exact byte, fun numeric => ?_⟩⟩
  apply BitVec.eq_of_toNat_eq
  exact format.eq_of_decodes byte (format.decodes exact byte) (format.encodes _) numeric

/-- Integers as floats, and floats times powers of two. -/
def exactLane : FloatLane where
  convert integer :=
    if integer.toNat = 0 then 0#32
    else BitVec.ofNat 32 ((126 + integer.toNat.log2) * 2 ^ 23 +
      integer.toNat * 2 ^ (23 - integer.toNat.log2))
  mul number power :=
    if number = 0#32 then 0#32 else BitVec.ofNat 32 (number.toNat + power.toNat - 127 * 2 ^ 23)

/-- A positive normal float. -/
theorem value_normal {exponent fraction : Nat} (positive : exponent ≠ 0) (less : exponent < 255)
    (fractionLess : fraction < 2 ^ 23) :
    ¬binary32.Negative (exponent * 2 ^ 23 + fraction) ∧
      binary32.IsFinite (exponent * 2 ^ 23 + fraction) ∧
      binary32.value (exponent * 2 ^ 23 + fraction) =
        (2 ^ 23 + fraction) * 2 ^ ((exponent : ℤ) - 150) := by
  have magnitude : binary32.magnitude (exponent * 2 ^ 23 + fraction) =
      exponent * 2 ^ 23 + fraction := by
    show _ % 2 ^ 31 = _
    omega
  have plus : ¬binary32.Negative (exponent * 2 ^ 23 + fraction) := by
    show ¬(_ / 2 ^ 31 % 2 = 1)
    omega
  have isExponent : binary32.exponent (exponent * 2 ^ 23 + fraction) = exponent := by
    show _ / 2 ^ 23 = _
    omega
  have isFraction : binary32.fraction (exponent * 2 ^ 23 + fraction) = fraction := by
    show _ % 2 ^ 23 = _
    omega
  refine ⟨plus, ?_, ?_⟩
  · show binary32.exponent _ < 255
    rw [isExponent]
    exact less
  · rw [BinaryFormat.value, if_neg plus, significand, isExponent, isFraction, if_neg positive,
      max_eq_left (by omega)]
    have place : (exponent : ℤ) - binary32.bias - binary32.fractionBits = exponent - 150 := by
      show (exponent : ℤ) - 127 - 23 = _
      ring
    rw [place]
    push_cast
    rw [one_mul]
    rfl

theorem value_zero : ¬binary32.Negative 0 ∧ binary32.IsFinite 0 ∧ binary32.value 0 = 0 := by
  refine ⟨by decide, Nat.lt_of_sub_pos (by decide), ?_⟩
  rw [value_eq]
  simp [BinaryFormat.magnitude, units_zero]

/-- The fields of a positive float. -/
theorem fields_of_plus {word : Word} (plus : ¬binary32.Negative word.toNat) :
    word.toNat = binary32.exponent word.toNat * 2 ^ 23 + binary32.fraction word.toNat ∧
      binary32.fraction word.toNat < 2 ^ 23 := by
  have high : ¬word.toNat / 2 ^ 31 % 2 = 1 := plus
  show word.toNat = word.toNat % 2 ^ 31 / 2 ^ 23 * 2 ^ 23 + word.toNat % 2 ^ 31 % 2 ^ 23 ∧
    word.toNat % 2 ^ 31 % 2 ^ 23 < 2 ^ 23
  omega

/-- The product with a power of two adds the exponents. -/
theorem product_normal {exponent power fraction : Nat} (fractionLess : fraction < 2 ^ 23)
    (least : (2 : ℚ) ^ (-126 : ℤ) ≤ (2 ^ 23 + fraction) * 2 ^ ((exponent : ℤ) - 150) *
      (2 ^ 23 * 2 ^ ((power : ℤ) - 150)))
    (most : (2 ^ 23 + fraction : ℚ) * 2 ^ ((exponent : ℤ) - 150) *
      (2 ^ 23 * 2 ^ ((power : ℤ) - 150)) < 2 ^ (128 : ℤ)) :
    ∃ sum, exponent + power = sum + 127 ∧ sum ≠ 0 ∧ sum < 255 ∧
      (2 ^ 23 + fraction : ℚ) * 2 ^ ((exponent : ℤ) - 150) * (2 ^ 23 * 2 ^ ((power : ℤ) - 150)) =
        (2 ^ 23 + fraction) * 2 ^ ((sum : ℤ) - 150) := by
  have isProduct : (2 ^ 23 + fraction : ℚ) * 2 ^ ((exponent : ℤ) - 150) *
      (2 ^ 23 * 2 ^ ((power : ℤ) - 150)) =
        (2 ^ 23 + fraction) * 2 ^ ((exponent : ℤ) + power - 277) := by
    have powers : (2 : ℚ) ^ ((exponent : ℤ) - 150) * (2 ^ 23 * 2 ^ ((power : ℤ) - 150)) =
        2 ^ ((exponent : ℤ) + power - 277) := by
      rw [← zpow_natCast, ← zpow_add₀ (by norm_num), ← zpow_add₀ (by norm_num)]
      congr 1
      ring
    rw [mul_assoc, powers]
  have base : (1 : ℚ) < 2 := by norm_num
  have positive : (0 : ℚ) < 2 ^ ((exponent : ℤ) + power - 277) := by positivity
  have low : (2 : ℚ) ^ (-126 : ℤ) < 2 ^ ((24 : ℤ) + (exponent + power - 277)) := by
    rw [zpow_add₀ (by norm_num)]
    refine (least.trans_eq isProduct).trans_lt (mul_lt_mul_of_pos_right ?_ positive)
    have cast : (fraction : ℚ) < 2 ^ 23 := by exact_mod_cast fractionLess
    have double : (2 : ℚ) ^ (24 : ℤ) = 2 ^ 23 + 2 ^ 23 := by norm_num
    rw [double]
    exact (add_lt_add_iff_left _).mpr cast
  have high : (2 : ℚ) ^ ((23 : ℤ) + (exponent + power - 277)) < 2 ^ (128 : ℤ) := by
    rw [zpow_add₀ (by norm_num)]
    refine lt_of_le_of_lt (mul_le_mul_of_nonneg_right ?_ positive.le) (isProduct ▸ most)
    exact le_add_of_nonneg_right (Nat.cast_nonneg _)
  have lowExponent := (zpow_lt_zpow_iff_right₀ base).mp low
  have highExponent := (zpow_lt_zpow_iff_right₀ base).mp high
  refine ⟨exponent + power - 127, by omega, by omega, by omega, ?_⟩
  rw [isProduct, show ((exponent + power - 127 : Nat) : ℤ) - 150 = exponent + power - 277 by omega]

theorem exactLane_exact : exactLane.Exact := by
  constructor
  · intro integer less
    by_cases zero : integer.toNat = 0
    · have converted : exactLane.convert integer = 0#32 := if_pos zero
      rw [converted, zero, Nat.cast_zero]
      exact value_zero
    · obtain ⟨log, isLog⟩ : ∃ log, integer.toNat.log2 = log := ⟨_, rfl⟩
      have least : 2 ^ log ≤ integer.toNat := isLog ▸ Nat.log2_self_le zero
      have most : integer.toNat < 2 ^ (log + 1) := isLog ▸ Nat.lt_log2_self
      have logLess : log < 24 := (Nat.pow_lt_pow_iff_right (by decide)).mp (least.trans_lt less)
      have whole : 2 ^ 23 = 2 ^ log * 2 ^ (23 - log) := by
        rw [← Nat.pow_add, Nat.add_sub_cancel' (by omega)]
      have low : 2 ^ 23 ≤ integer.toNat * 2 ^ (23 - log) :=
        whole.le.trans (Nat.mul_le_mul_right _ least)
      have high : integer.toNat * 2 ^ (23 - log) < 2 * 2 ^ 23 := by
        rw [whole, ← Nat.mul_assoc, ← Nat.pow_succ']
        exact Nat.mul_lt_mul_of_pos_right most (Nat.two_pow_pos _)
      obtain ⟨fraction, isFraction⟩ := Nat.exists_eq_add_of_le low
      have converted : (exactLane.convert integer).toNat = (127 + log) * 2 ^ 23 + fraction := by
        show (if integer.toNat = 0 then 0#32 else _).toNat = _
        rw [if_neg zero, isLog, isFraction, BitVec.toNat_ofNat, Nat.mod_eq_of_lt (by omega)]
        omega
      obtain ⟨plus, finite, isValue⟩ := value_normal (show 127 + log ≠ 0 by omega)
        (by omega) (show fraction < 2 ^ 23 by omega)
      rw [converted]
      refine ⟨plus, finite, isValue.trans ?_⟩
      have cast : (2 ^ 23 + fraction : ℚ) = integer.toNat * 2 ^ (23 - log) := by
        exact_mod_cast isFraction.symm
      rw [cast, mul_assoc, ← zpow_natCast, ← zpow_add₀ (by norm_num),
        show ((23 - log : Nat) : ℤ) + ((127 + log : Nat) - 150) = 0 by omega, zpow_zero, mul_one]
  · intro number power plus powerPlus finite powerFinite noFraction powerNormal range
    by_cases zero : number = 0#32
    · have product : exactLane.mul number power = 0#32 := if_pos zero
      rw [product, zero, show (0#32).toNat = 0 from rfl, value_zero.2.2, zero_mul]
      exact ⟨value_zero.1, value_zero.2.1, rfl⟩
    · obtain ⟨isNumber, fractionLess⟩ := fields_of_plus plus
      obtain ⟨isPower, -⟩ := fields_of_plus powerPlus
      rw [noFraction, Nat.add_zero] at isPower
      have nonzero : number.toNat ≠ 0 := fun same => zero (BitVec.eq_of_toNat_eq same)
      have isMagnitude : binary32.magnitude number.toNat = number.toNat := by
        have high : ¬number.toNat / 2 ^ 31 % 2 = 1 := plus
        show number.toNat % 2 ^ 31 = _
        omega
      have isUnits : binary32.value number.toNat = binary32.units number.toNat * binary32.unit := by
        rw [value_eq, if_neg plus, one_mul, isMagnitude]
      obtain ⟨normal, least, most⟩ := range.resolve_left fun none => by
        rw [isUnits] at none
        have units := Nat.cast_eq_zero.mp
          ((mul_eq_zero.mp none).resolve_right binary32.unit_pos.ne')
        exact nonzero (binary32.units_strictMono.injective (units.trans binary32.units_zero.symm))
      have positive : binary32.exponent number.toNat ≠ 0 := by
        intro subnormal
        rw [subnormal, Nat.zero_mul, Nat.zero_add] at isNumber
        have units : (binary32.units number.toNat : ℚ) < 2 ^ 23 := by
          exact_mod_cast binary32.units_strictMono (isNumber.trans_lt fractionLess)
        have small := mul_lt_mul_of_pos_right units binary32.unit_pos
        rw [← isUnits] at small
        have edge : (2 : ℚ) ^ 23 * binary32.unit = 2 ^ (-126 : ℤ) := by
          norm_num [unit, binary32, bias]
        exact absurd normal (not_le.mpr (edge ▸ small))
      obtain ⟨-, -, numberValue⟩ := value_normal positive finite fractionLess
      obtain ⟨-, -, powerValue⟩ := value_normal powerNormal powerFinite (show 0 < 2 ^ 23 by decide)
      rw [← isNumber] at numberValue
      rw [Nat.add_zero, ← isPower, Nat.cast_zero, add_zero] at powerValue
      rw [numberValue, powerValue] at least most
      obtain ⟨sum, isSum, sumPositive, sumLess, isProduct⟩ :=
        product_normal fractionLess least most
      have product : (exactLane.mul number power).toNat =
          sum * 2 ^ 23 + binary32.fraction number.toNat := by
        show (if number = 0#32 then 0#32 else _).toNat = _
        rw [if_neg zero, BitVec.toNat_ofNat, Nat.mod_eq_of_lt] <;> omega
      obtain ⟨productPlus, productFinite, productValue⟩ :=
        value_normal sumPositive sumLess fractionLess
      rw [product, numberValue, powerValue, isProduct]
      exact ⟨productPlus, productFinite, productValue⟩

theorem fp8_conversions_subnormal : exactLane.Exact ∧ (3#32).toNat < 2 ^ 8 ∧
    ¬Float8.e4m3fn.IsNaN (3#32).toNat ∧ Float8.e4m3fn.Decodes (3#32).toNat
      (calculateFp8ToFp32 exactLane 3 7 false 3#32).toNat ∧
    calculateFp32ToFp8 3 7 false (calculateFp8ToFp32 exactLane 3 7 false 3#32) = 3#32 := by
  have byte : (3#32).toNat < 2 ^ 8 := by decide
  have numeric : ¬Float8.e4m3fn.IsNaN (3#32).toNat := fun nan => nan.1 (Nat.lt_of_sub_pos (by decide))
  obtain ⟨decodes, back⟩ := (fp8_conversions exactLane exactLane_exact .e4m3fn).2 3#32 byte
  exact ⟨exactLane_exact, byte, numeric, decodes, back numeric⟩

end Libtt.Sfpu

import Libtt.Foundation.FloatOrder
import Libtt.Sfpu.Float8Correct

/-!
# Rounding to Bfp4

`bfp4_typecast_rounding.patch`: a face of bfloat16 is rounded to what the packer keeps of it, three
bits of each magnitude against the largest exponent of a face row. A register is four sub-rows of
eight lanes, the even or the odd columns of four face rows.
-/
namespace Libtt.Sfpu

open Libtt.Foundation Libtt.Foundation.BinaryFormat

/-- `sfpi::exexp` with the bias. -/
def exexp (value : Word) : Word := value >>> 23 &&& 0xff#32

/-- `sfpi::setexp`. -/
def setexp (value exponent : Word) : Word :=
  (value &&& ~~~(0xff#32 <<< 23)) ||| (exponent &&& 0xff#32) <<< 23

/-- `round_fp16b_to_bfp4b`. -/
def roundFp16bToBfp4b (lane : FloatLane) (value sharedExp : Word) : Word :=
  let exp := exexp value
  let distance := sharedExp - exp
  let distance := if (4#32).slt distance then 4#32 else distance
  let x := shft value (-16#32) &&& 0x7f#32 ||| 0x80#32
  let y := shft x (4#32 - distance)
  let q := shft (y + 0xff#32 + (shft y (-9#32) &&& 1#32)) (-9#32)
  let q := if (7#32).slt q then 7#32 else q
  if q ≠ 0#32 ∧ exp ≠ 0#32 then
    let magnitude := lane.convert q
    let result := setexp magnitude (exexp magnitude + sharedExp - 129#32)
    if value.slt 0#32 then result ^^^ 0x80000000#32 else result
  else 0#32

/-- `sfpi::max`, by sign and magnitude. -/
def maxLane (left right : Word) : Word :=
  if binary32.signedMagnitude left.toNat < binary32.signedMagnitude right.toNat then right else left

/-- `sfpi::subvec_shflror1`: each sub-row rotated right by one lane. -/
def subvecShflror1 (lanes : Lanes) : Lanes := fun i j => lanes i (j - 1)

/-- The largest exponents of the rows, in each lane. -/
def rowMax (lo hi : Lanes) : Lanes :=
  let max (left right : Lanes) : Lanes := fun i j => maxLane (left i j) (right i j)
  let rowMax := max (fun i j => lo i j &&& 0x7f800000#32) (fun i j => hi i j &&& 0x7f800000#32)
  let rotated := subvecShflror1 rowMax
  let rowMax := max rowMax rotated
  let rotated := subvecShflror1 (subvecShflror1 rowMax)
  let rowMax := max rowMax rotated
  let rotated := subvecShflror1 (subvecShflror1 (subvecShflror1 (subvecShflror1 rowMax)))
  max rowMax rotated

/-- Rounds a band of four rows; `dst_reg[i]` is at address `2 * i` of the face. -/
def roundBand (lane : FloatLane) (face : Nat) (dst : Dst) (band : Nat) : Dst :=
  let lo := dst.load (16 * face + 4 * band)
  let hi := dst.load (16 * face + 4 * band + 2)
  let sharedExp : Lanes := fun i j => exexp (rowMax lo hi i j)
  let dst := dst.store (16 * face + 4 * band) fun i j =>
    roundFp16bToBfp4b lane (lo i j) (sharedExp i j)
  dst.store (16 * face + 4 * band + 2) fun i j => roundFp16bToBfp4b lane (hi i j) (sharedExp i j)

/-- `calculate_typecast_fp16b_to_bfp4b` on a face. -/
def calculateTypecastFp16bToBfp4b (lane : FloatLane) (face : Nat) (dst : Dst) : Dst :=
  (List.range 4).foldl (roundBand lane face) dst

/-- The exponents of a face row. -/
def rowExponents (dst : Dst) (row : Nat) : Set Nat :=
  Set.range fun column => binary32.exponent (dst row column).toNat

/-- A finite bfloat16 in a lane. -/
structure IsFp16b (value : Word) : Prop where
  low : value.toNat % 2 ^ 16 = 0
  finite : binary32.IsFinite value.toNat

/-- The seven bits of the mantissa. -/
def mantissa (value : Word) : Nat := binary32.fraction value.toNat / 2 ^ 16

/-- The integer nearest to a number; of two, the even one. -/
def NearestEvenInteger (number : ℚ) (rounded : Nat) : Prop :=
  ∀ other : Nat, |(rounded : ℚ) - number| ≤ |(other : ℚ) - number| ∧
    (|(rounded : ℚ) - number| = |(other : ℚ) - number| → other = rounded ∨ rounded % 2 = 0)

/-- What the packer keeps of a magnitude: three bits, at the place of the shared exponent. -/
def packBfp4b (sharedExp : Nat) (value : Word) : Nat :=
  if binary32.exponent value.toNat = 0 then 0
  else (2 ^ 7 + mantissa value) / 2 ^ (5 + (sharedExp - binary32.exponent value.toNat))

/-- The number that a sign and three bits stand for against a shared exponent. -/
def bfp4bValue (sharedExp : Nat) (negative : Prop) [Decidable negative] (q : Nat) : ℚ :=
  (if negative then -1 else 1) * q * 2 ^ ((sharedExp : ℤ) - 129)

/-- A value is rounded against a shared exponent. -/
structure RoundsToBfp4b (sharedExp : Nat) (value result : Word) : Prop where
  isFp16b : IsFp16b result
  rounded : ∃ rounded q : Nat, NearestEvenInteger ((2 ^ 7 + mantissa value) *
      2 ^ ((binary32.exponent value.toNat : ℤ) - sharedExp - 5)) rounded ∧
    q = (if binary32.exponent value.toNat = 0 then 0 else min 7 rounded) ∧
    binary32.value result.toNat = bfp4bValue sharedExp (binary32.Negative value.toNat) q
  exponent : binary32.exponent result.toNat ≤ sharedExp
  packed : packBfp4b sharedExp result ≤ 7 ∧ binary32.value result.toNat =
    bfp4bValue sharedExp (binary32.Negative result.toNat) (packBfp4b sharedExp result)

end Libtt.Sfpu

/-! ## Rounding against a shared exponent -/
namespace Libtt.Sfpu

open Libtt.Foundation Libtt.Foundation.BinaryFormat

/-- What is at most a half away is nearest, and where it is a half away the even one is. -/
theorem nearestEven_of_error {number : ℚ} {rounded : Nat} (error : |rounded - number| ≤ 1 / 2)
    (even : |rounded - number| = 1 / 2 → rounded % 2 = 0) : NearestEvenInteger number rounded := by
  intro other
  by_cases same : other = rounded
  · rw [same]
    exact ⟨le_rfl, fun _ => .inl rfl⟩
  have apart : (1 : ℚ) ≤ |(other : ℚ) - rounded| := by
    have whole : (1 : ℤ) ≤ |(other : ℤ) - rounded| :=
      Int.one_le_abs (sub_ne_zero.mpr (by exact_mod_cast same))
    exact_mod_cast whole
  have triangle : |(other : ℚ) - rounded| ≤ |(other : ℚ) - number| + |(rounded : ℚ) - number| := by
    rw [abs_sub_comm (rounded : ℚ)]
    exact abs_sub_le _ _ _
  constructor
  · linarith
  · intro tie
    exact .inr (even (by linarith))

/-- The sum that rounds divides to nearest even. -/
theorem nearestEven_div (number half : Nat) :
    NearestEvenInteger ((number : ℚ) / 2 ^ (half + 1))
      ((number + (2 ^ half - 1) + number / 2 ^ (half + 1) % 2) / 2 ^ (half + 1)) := by
  obtain ⟨block, rest, less, split⟩ : ∃ block rest, rest < 2 ^ (half + 1) ∧
      number = block * 2 ^ (half + 1) + rest :=
    ⟨_, _, Nat.mod_lt _ (Nat.two_pow_pos _), (Nat.div_add_mod' number _).symm⟩
  have positive : (0 : ℚ) < 2 ^ (half + 1) := by positivity
  have double : (2 : ℚ) ^ (half + 1) = 2 * 2 ^ half := pow_succ' 2 half
  have isNumber : (number : ℚ) / 2 ^ (half + 1) = block + (rest : ℚ) / 2 ^ (half + 1) := by
    rw [split]
    push_cast
    rw [add_div, mul_div_cancel_right₀ _ positive.ne']
  have restNonneg : (0 : ℚ) ≤ (rest : ℚ) / 2 ^ (half + 1) := by positivity
  have restLess : (rest : ℚ) / 2 ^ (half + 1) < 1 := by
    rw [div_lt_one positive]
    exact_mod_cast less
  have isHalf : (1 : ℚ) / 2 * 2 ^ (half + 1) = 2 ^ half := by rw [double]; ring
  rw [isNumber]
  rw [split, add_half_div block less]
  by_cases down : rest < 2 ^ half ∨ rest = 2 ^ half ∧ block % 2 = 0
  · have most : (rest : ℚ) / 2 ^ (half + 1) ≤ 1 / 2 := by
      rw [div_le_iff₀ positive, isHalf]
      exact_mod_cast (show rest ≤ 2 ^ half by omega)
    have error : |(block : ℚ) - (block + (rest : ℚ) / 2 ^ (half + 1))| =
        (rest : ℚ) / 2 ^ (half + 1) := by
      rw [sub_add_cancel_left, abs_neg, abs_of_nonneg restNonneg]
    rw [if_pos down]
    apply nearestEven_of_error
    · rwa [error]
    · intro tie
      rw [error, div_eq_iff positive.ne', isHalf] at tie
      have restHalf : rest = 2 ^ half := by exact_mod_cast tie
      omega
  · have least : 1 / 2 ≤ (rest : ℚ) / 2 ^ (half + 1) := by
      rw [le_div_iff₀ positive, isHalf]
      exact_mod_cast (show 2 ^ half ≤ rest by omega)
    have error : |((block + 1 : Nat) : ℚ) - (block + (rest : ℚ) / 2 ^ (half + 1))| =
        1 - (rest : ℚ) / 2 ^ (half + 1) := by
      push_cast
      rw [add_sub_add_left_eq_sub, abs_of_pos (sub_pos.mpr restLess)]
    rw [if_neg down]
    apply nearestEven_of_error
    · rw [error]
      linarith
    · intro tie
      have isTie : (rest : ℚ) / 2 ^ (half + 1) = 1 / 2 := by linarith
      rw [div_eq_iff positive.ne', isHalf] at isTie
      have restHalf : rest = 2 ^ half := by exact_mod_cast isTie
      omega

/-- The rounded magnitude, up to what three bits hold. -/
def roundedQ (sharedExp exponent mantissa : Nat) : Nat :=
  let y := (2 ^ 7 + mantissa) * 2 ^ (4 - min 4 (sharedExp - exponent))
  (y + 0xff + y / 2 ^ 9 % 2) / 2 ^ 9

/-- Past a distance of four everything rounds to zero. -/
theorem roundedQ_nearest {sharedExp exponent mantissa : Nat} (most : exponent ≤ sharedExp)
    (less : mantissa < 2 ^ 7) :
    NearestEvenInteger ((2 ^ 7 + mantissa) * 2 ^ ((exponent : ℤ) - sharedExp - 5))
      (roundedQ sharedExp exponent mantissa) := by
  obtain ⟨distance, isDistance⟩ : ∃ distance, sharedExp = exponent + distance :=
    Nat.exists_eq_add_of_le most
  have isPower : (2 : ℚ) ^ ((exponent : ℤ) - sharedExp - 5) = 1 / 2 ^ (distance + 5) := by
    rw [isDistance, show (exponent : ℤ) - (exponent + distance : Nat) - 5 = -(distance + 5 : Nat) by
      omega, zpow_neg, zpow_natCast, one_div]
  rw [isPower, roundedQ, isDistance, Nat.add_sub_cancel_left]
  by_cases near : distance ≤ 4
  · have isNumber : ((2 : ℚ) ^ 7 + mantissa) * (1 / 2 ^ (distance + 5)) =
        (((2 ^ 7 + mantissa) * 2 ^ (4 - distance) : Nat) : ℚ) / 2 ^ (8 + 1) := by
      have powers : (2 : ℚ) ^ (8 + 1) = 2 ^ (4 - distance) * 2 ^ (distance + 5) := by
        rw [← pow_add]
        congr 1
        omega
      rw [powers]
      field_simp
      norm_num
    rw [isNumber, Nat.min_eq_right near]
    exact nearestEven_div _ 8
  · have isZero : ((2 ^ 7 + mantissa) * 2 ^ (4 - min 4 distance) + 0xff +
        (2 ^ 7 + mantissa) * 2 ^ (4 - min 4 distance) / 2 ^ 9 % 2) / 2 ^ 9 = 0 := by
      rw [Nat.min_eq_left (by omega)]
      omega
    have small : ((2 : ℚ) ^ 7 + mantissa) * (1 / 2 ^ (distance + 5)) < 1 / 2 := by
      have grows : (2 : ℚ) ^ 9 ≤ 2 ^ (distance + 5) := pow_le_pow_right₀ (by norm_num) (by omega)
      have bound : (mantissa : ℚ) < 2 ^ 7 := by exact_mod_cast less
      rw [mul_one_div, div_lt_iff₀ (by positivity)]
      linarith
    have nonneg : (0 : ℚ) ≤ (2 ^ 7 + mantissa) * (1 / 2 ^ (distance + 5)) := by positivity
    rw [isZero]
    apply nearestEven_of_error
    · rw [Nat.cast_zero, zero_sub, abs_neg, abs_of_nonneg nonneg]
      exact small.le
    · intro _
      rfl

theorem roundedQ_le (sharedExp exponent : Nat) {mantissa : Nat} (less : mantissa < 2 ^ 7) :
    roundedQ sharedExp exponent mantissa ≤ 8 := by
  have power : 2 ^ (4 - min 4 (sharedExp - exponent)) ≤ 2 ^ 4 :=
    Nat.pow_le_pow_right (by decide) (Nat.sub_le _ _)
  have bound : (2 ^ 7 + mantissa) * 2 ^ (4 - min 4 (sharedExp - exponent)) ≤ 255 * 2 ^ 4 :=
    Nat.mul_le_mul (by omega) power
  unfold roundedQ
  dsimp only
  omega

/-- The largest magnitudes of a row keep their exponent. -/
theorem four_le_roundedQ (sharedExp mantissa : Nat) :
    4 ≤ roundedQ sharedExp sharedExp mantissa := by
  rw [roundedQ, Nat.sub_self]
  change 4 ≤ ((2 ^ 7 + mantissa) * 2 ^ 4 + 0xff + (2 ^ 7 + mantissa) * 2 ^ 4 / 2 ^ 9 % 2) / 2 ^ 9
  omega

/-- A bfloat16 by its fields. -/
structure Fp16bFields (value : Word) (sign exponent mantissa : Nat) : Prop where
  sign_lt : sign < 2
  exponent_lt : exponent < 255
  mantissa_lt : mantissa < 2 ^ 7
  isWord : value.toNat = sign * 2 ^ 31 + exponent * 2 ^ 23 + mantissa * 2 ^ 16

namespace Fp16bFields

variable {value : Word} {sign exponent mantissa : Nat}

theorem exponent_eq (fields : Fp16bFields value sign exponent mantissa) :
    binary32.exponent value.toNat = exponent := by
  obtain ⟨signLess, exponentLess, mantissaLess, isWord⟩ := fields
  show value.toNat % 2 ^ 31 / 2 ^ 23 = exponent
  omega

theorem mantissa_eq (fields : Fp16bFields value sign exponent mantissa) :
    Sfpu.mantissa value = mantissa := by
  obtain ⟨signLess, exponentLess, mantissaLess, isWord⟩ := fields
  show value.toNat % 2 ^ 31 % 2 ^ 23 / 2 ^ 16 = mantissa
  omega

theorem negative_iff (fields : Fp16bFields value sign exponent mantissa) :
    binary32.Negative value.toNat ↔ sign = 1 := by
  obtain ⟨signLess, exponentLess, mantissaLess, isWord⟩ := fields
  show value.toNat / 2 ^ 31 % 2 = 1 ↔ sign = 1
  omega

theorem isFp16b (fields : Fp16bFields value sign exponent mantissa) : IsFp16b value := by
  constructor
  · obtain ⟨signLess, exponentLess, mantissaLess, isWord⟩ := fields
    omega
  · show binary32.exponent value.toNat < 255
    rw [fields.exponent_eq]
    exact fields.exponent_lt

/-- The number, where the exponent is not the lowest. -/
theorem value_eq (fields : Fp16bFields value sign exponent mantissa) (normal : exponent ≠ 0) :
    binary32.value value.toNat = (if sign = 1 then -1 else 1) *
      (2 ^ 7 + mantissa) * 2 ^ ((exponent : ℤ) - 134) := by
  have isFraction : binary32.fraction value.toNat = mantissa * 2 ^ 16 := by
    obtain ⟨signLess, exponentLess, mantissaLess, isWord⟩ := fields
    show value.toNat % 2 ^ 31 % 2 ^ 23 = mantissa * 2 ^ 16
    omega
  have isPower : (2 : ℚ) ^ ((exponent : ℤ) - 134) = 2 ^ 16 * 2 ^ ((exponent : ℤ) - 150) := by
    rw [← zpow_natCast, ← zpow_add₀ (by norm_num)]
    congr 1
    ring
  rw [BinaryFormat.value, significand, fields.exponent_eq, isFraction, if_neg normal,
    max_eq_left (by omega),
    show (binary32.bias : ℤ) = 127 from rfl, show binary32.fractionBits = 23 from rfl, isPower]
  simp only [fields.negative_iff]
  push_cast
  ring_nf

end Fp16bFields

theorem zero_fields : Fp16bFields 0#32 0 0 0 :=
  ⟨by decide, by decide, by decide, rfl⟩

theorem IsFp16b.fields {value : Word} (isFp16b : IsFp16b value) :
    ∃ sign, Fp16bFields value sign (binary32.exponent value.toNat) (mantissa value) := by
  have low := isFp16b.low
  have finite : value.toNat % 2 ^ 31 / 2 ^ 23 < 255 := isFp16b.finite
  have isExponent : binary32.exponent value.toNat = value.toNat % 2 ^ 31 / 2 ^ 23 := rfl
  have isMantissa : mantissa value = value.toNat % 2 ^ 31 % 2 ^ 23 / 2 ^ 16 := rfl
  exact ⟨value.toNat / 2 ^ 31, by omega, by omega, by omega, by omega⟩

theorem toNat_exexp (value : Word) : (exexp value).toNat = binary32.exponent value.toNat := by
  have low : (value >>> 23 &&& 0xff#32).toNat = (value >>> 23).toNat % 2 ^ 8 :=
    toNat_and_low (value >>> 23) 8 (by decide)
  rw [exexp, low, BitVec.toNat_ushiftRight, Nat.shiftRight_eq_div_pow]
  show value.toNat / 2 ^ 23 % 2 ^ 8 = value.toNat % 2 ^ 31 / 2 ^ 23
  omega

/-- The mantissa of a small integer's float, by the place of its highest bit. -/
def smallMantissa (q : Nat) : Nat := q * 2 ^ (7 - q.log2) - 2 ^ 7

/-- A small integer as a float. -/
theorem convert_small {lane : FloatLane} (exact : lane.Exact) {q : Word} (positive : q ≠ 0#32)
    (most : q.toNat ≤ 7) :
    (lane.convert q).toNat = (127 + q.toNat.log2) * 2 ^ 23 + smallMantissa q.toNat * 2 ^ 16 := by
  obtain ⟨plus, finite, isValue⟩ := exact.convert q (by omega)
  obtain ⟨less, isUnits⟩ := Float8.units_of_plus plus finite isValue
  have isUnit : binary32.unit = 1 / 2 ^ 149 := by
    norm_num [unit, binary32, bias]
  have scaled : binary32.units (lane.convert q).toNat = q.toNat * 2 ^ 149 := by
    rw [isUnit, mul_one_div, div_eq_iff (by positivity)] at isUnits
    exact_mod_cast isUnits
  have nonzero : q.toNat ≠ 0 := by
    intro zero
    exact positive (BitVec.eq_of_toNat_eq zero)
  apply binary32.units_strictMono.injective
  rw [scaled]
  generalize q.toNat = number at *
  have cases : number = 1 ∨ number = 2 ∨ number = 3 ∨ number = 4 ∨ number = 5 ∨ number = 6 ∨
      number = 7 := by omega
  rcases cases with rfl | rfl | rfl | rfl | rfl | rfl | rfl <;> rfl

/-- A magnitude with another exponent. -/
theorem toNat_setexp {magnitude exponent : Word} (plus : magnitude.toNat < 2 ^ 31)
    (less : exponent.toNat < 2 ^ 8) : (setexp magnitude exponent).toNat =
      exponent.toNat * 2 ^ 23 + magnitude.toNat % 2 ^ 23 := by
  have kept : (magnitude &&& ~~~(0xff#32 <<< 23)).toNat = magnitude.toNat % 2 ^ 23 := by
    have mask : ~~~(0xff#32 <<< 23) = 1#32 <<< 31 ||| BitVec.ofNat 32 (2 ^ 23 - 1) := rfl
    have high : (magnitude &&& 1#32 <<< 31) = 0#32 := by
      apply BitVec.eq_of_toNat_eq
      rw [toNat_and_one_shiftLeft magnitude (by decide), Nat.div_eq_of_lt plus]
      rfl
    rw [mask, BitVec.and_or_distrib_left, high, BitVec.zero_or]
    exact toNat_and_low magnitude 23 (by decide)
  have low : (exponent &&& 0xff#32).toNat = exponent.toNat := by
    have isLow : (exponent &&& 0xff#32).toNat = exponent.toNat % 2 ^ 8 :=
      toNat_and_low exponent 8 (by decide)
    rw [isLow, Nat.mod_eq_of_lt less]
  rw [setexp, BitVec.toNat_or, kept, BitVec.toNat_shiftLeft, low, Nat.shiftLeft_eq,
    Nat.mod_eq_of_lt (a := exponent.toNat * 2 ^ 23) (by omega), Nat.or_comm]
  exact or_eq_add exponent.toNat (Nat.mod_lt magnitude.toNat (show 0 < 2 ^ 23 by decide))

/-- The distance from the shared exponent, where it is limited. -/
theorem toNat_distance {exponent sharedExp : Word} (most : exponent.toNat ≤ sharedExp.toNat)
    (less : sharedExp.toNat < 2 ^ 31) :
    (if (4#32).slt (sharedExp - exponent) then 4#32 else sharedExp - exponent).toNat =
      min 4 (sharedExp.toNat - exponent.toNat) := by
  have difference : (sharedExp - exponent).toNat = sharedExp.toNat - exponent.toNat :=
    BitVec.toNat_sub_of_le (BitVec.le_def.mpr most)
  rw [toNat_limit (by decide) (by omega), difference]
  rfl

/-- The mantissa with its hidden bit. -/
theorem Fp16bFields.toNat_significand {value : Word} {sign exponent mantissa : Nat}
    (fields : Fp16bFields value sign exponent mantissa) :
    (shft value (-16#32) &&& 0x7f#32 ||| 0x80#32).toNat = 2 ^ 7 + mantissa := by
  obtain ⟨signLess, exponentLess, mantissaLess, isWord⟩ := fields
  have low : (shft value (-16#32) &&& 0x7f#32).toNat = (shft value (-16#32)).toNat % 2 ^ 7 :=
    toNat_and_low _ 7 (by decide)
  have shifted : (shft value (-16#32)).toNat = value.toNat / 2 ^ 16 := by
    exact Nat.shiftRight_eq_div_pow ..
  have isLow : (shft value (-16#32)).toNat % 2 ^ 7 = mantissa := by omega
  rw [BitVec.toNat_or, low, isLow, Nat.or_comm]
  exact or_eq_add 1 mantissaLess

/-- The sum that rounds, above the bits that are dropped. -/
theorem toNat_roundedSum {x distance : Word} (significand : x.toNat < 2 ^ 8)
    (near : distance.toNat ≤ 4) :
    let y := shft x (4#32 - distance)
    (shft (y + 0xff#32 + (shft y (-9#32) &&& 1#32)) (-9#32)).toNat =
      (x.toNat * 2 ^ (4 - distance.toNat) + 0xff +
        x.toNat * 2 ^ (4 - distance.toNat) / 2 ^ 9 % 2) / 2 ^ 9 := by
  intro y
  have amount : (4#32 - distance).toNat = 4 - distance.toNat :=
    BitVec.toNat_sub_of_le (BitVec.le_def.mpr near)
  have power : 2 ^ (4 - distance.toNat) ≤ 2 ^ 4 :=
    Nat.pow_le_pow_right (by decide) (Nat.sub_le _ _)
  have bound : x.toNat * 2 ^ (4 - distance.toNat) ≤ 255 * 2 ^ 4 :=
    Nat.mul_le_mul (by omega) power
  have isY : y.toNat = x.toNat * 2 ^ (4 - distance.toNat) := by
    show (shft x (4#32 - distance)).toNat = _
    rw [shft_left _ (by omega), amount, BitVec.toNat_shiftLeft, Nat.shiftLeft_eq,
      Nat.mod_eq_of_lt (by omega)]
  have rounded := @toNat_rounding y 8 (by decide) (by omega)
  rw [isY] at rounded
  have reordered : y + 0xff#32 + (y >>> (8 + 1) &&& 1#32) =
      y + (y >>> (8 + 1) &&& 1#32) + (1#32 <<< 8 - 1#32) := by
    rw [BitVec.add_assoc, BitVec.add_comm 0xff#32, ← BitVec.add_assoc]
    rfl
  rw [shft_right y (by decide) (by decide), shft_right _ (by decide) (by decide),
    show (9#32 : Word).toNat = 8 + 1 from rfl, reordered]
  exact rounded

/-- The sign put on a magnitude. -/
theorem toNat_withSign {value result : Word} {sign exponent mantissa : Nat}
    (fields : Fp16bFields value sign exponent mantissa) (plus : result.toNat < 2 ^ 31) :
    (if value.slt 0#32 then result ^^^ 0x80000000#32 else result).toNat =
      sign * 2 ^ 31 + result.toNat := by
  obtain ⟨signLess, exponentLess, mantissaLess, isWord⟩ := fields
  have signTest : value.slt 0#32 = decide (sign = 1) := by
    rw [BitVec.slt, BitVec.toInt_eq_toNat_cond]
    simp only [BitVec.toInt_zero, decide_eq_decide]
    omega
  rw [signTest]
  by_cases negative : sign = 1
  · have disjoint : result &&& 0x80000000#32 = 0#32 := by
      apply BitVec.eq_of_toNat_eq
      have bit := @toNat_and_one_shiftLeft 32 31 result (by decide)
      rw [Nat.div_eq_of_lt plus] at bit
      exact bit
    have flipped : result ^^^ 0x80000000#32 = result ||| 0x80000000#32 := by
      ext i inside
      have bit : (result &&& 0x80000000#32)[i] = (0#32)[i] := by rw [disjoint]
      rw [BitVec.getElem_and, BitVec.getElem_zero] at bit
      rw [BitVec.getElem_xor, BitVec.getElem_or]
      revert bit
      cases result[i] <;> cases (0x80000000#32)[i] <;> decide
    rw [if_pos (decide_eq_true negative), flipped,
      ← BitVec.add_eq_or_of_and_eq_zero _ _ disjoint, BitVec.toNat_add, negative,
      show (0x80000000#32).toNat = 2 ^ 31 from rfl]
    omega
  · rw [if_neg (by simpa using negative)]
    omega

/-- The magnitude that the packer keeps of a value. -/
def keptQ (sharedExp exponent mantissa : Nat) : Nat :=
  if exponent = 0 then 0 else min 7 (roundedQ sharedExp exponent mantissa)

theorem small_parts {q : Nat} (positive : q ≠ 0) (most : q ≤ 7) :
    smallMantissa q < 2 ^ 7 ∧ q.log2 ≤ 2 ∧ (4 ≤ q → q.log2 = 2) := by
  have cases : q = 1 ∨ q = 2 ∨ q = 3 ∨ q = 4 ∨ q = 5 ∨ q = 6 ∨ q = 7 := by omega
  rcases cases with rfl | rfl | rfl | rfl | rfl | rfl | rfl <;> decide

theorem small_significand {q : Nat} (positive : q ≠ 0) (most : q ≤ 7) :
    2 ^ 7 + smallMantissa q = q * 2 ^ (7 - q.log2) := by
  have cases : q = 1 ∨ q = 2 ∨ q = 3 ∨ q = 4 ∨ q = 5 ∨ q = 6 ∨ q = 7 := by omega
  rcases cases with rfl | rfl | rfl | rfl | rfl | rfl | rfl <;> decide

/-- A small integer's float with its exponent moved. -/
theorem toNat_moved {lane : FloatLane} (exact : lane.Exact) {q sharedExp : Word}
    (positive : q ≠ 0#32) (most : q.toNat ≤ 7) (least : 3 ≤ sharedExp.toNat)
    (number : sharedExp.toNat < 255) :
    (setexp (lane.convert q) (exexp (lane.convert q) + sharedExp - 129#32)).toNat =
      (sharedExp.toNat - 2 + q.toNat.log2) * 2 ^ 23 + smallMantissa q.toNat * 2 ^ 16 := by
  have nonzero : q.toNat ≠ 0 := by
    intro zero
    exact positive (BitVec.eq_of_toNat_eq zero)
  have isMagnitude := convert_small exact positive most
  obtain ⟨mantissaLess, logLess, _⟩ := small_parts nonzero most
  have isExponent : (exexp (lane.convert q)).toNat = 127 + q.toNat.log2 := by
    rw [toNat_exexp, isMagnitude]
    show _ % 2 ^ 31 / 2 ^ 23 = _
    omega
  have sum : (exexp (lane.convert q) + sharedExp).toNat = 127 + q.toNat.log2 + sharedExp.toNat := by
    rw [BitVec.toNat_add, isExponent, Nat.mod_eq_of_lt (by omega)]
  have enough : 129#32 ≤ exexp (lane.convert q) + sharedExp := by
    rw [BitVec.le_def, sum]
    show 129 ≤ _
    omega
  have newExponent : (exexp (lane.convert q) + sharedExp - 129#32).toNat =
      sharedExp.toNat - 2 + q.toNat.log2 := by
    rw [BitVec.toNat_sub_of_le enough, sum]
    show _ - 129 = _
    omega
  rw [toNat_setexp (by omega) (by omega), newExponent, isMagnitude]
  omega

section

variable {lane : FloatLane} {value : Word} {sign exponent mantissa : Nat} (exact : lane.Exact)
  (fields : Fp16bFields value sign exponent mantissa)
include exact fields

/-- What a value becomes, by what its magnitude is rounded to. -/
theorem toNat_placed {sharedExp q : Word} (least : 3 ≤ sharedExp.toNat)
    (number : sharedExp.toNat < 255) (small : q.toNat ≤ 7) :
    (if q ≠ 0#32 ∧ exexp value ≠ 0#32 then
      let magnitude := lane.convert q
      let result := setexp magnitude (exexp magnitude + sharedExp - 129#32)
      if value.slt 0#32 then result ^^^ 0x80000000#32 else result
    else 0#32).toNat =
      let q := if exponent = 0 then 0 else q.toNat
      if q = 0 then 0
      else sign * 2 ^ 31 +
        ((sharedExp.toNat - 2 + q.log2) * 2 ^ 23 + smallMantissa q * 2 ^ 16) := by
  have zeroExponent : exexp value = 0#32 ↔ exponent = 0 := by
    rw [← BitVec.toNat_inj, toNat_exexp, fields.exponent_eq]
    rfl
  have zeroQ : q = 0#32 ↔ q.toNat = 0 := by
    rw [← BitVec.toNat_inj]
    rfl
  by_cases normal : exponent = 0
  · have none : ¬(q ≠ 0#32 ∧ exexp value ≠ 0#32) := fun both => both.2 (zeroExponent.mpr normal)
    rw [if_neg none, if_pos normal, if_pos rfl]
    rfl
  rw [if_neg normal]
  by_cases zero : q = 0#32
  · have none : ¬(q ≠ 0#32 ∧ exexp value ≠ 0#32) := fun both => both.1 zero
    rw [if_neg none, if_pos (zeroQ.mp zero)]
    rfl
  · have moved := toNat_moved exact zero small least number
    have some : q ≠ 0#32 ∧ exexp value ≠ 0#32 := ⟨zero, mt zeroExponent.mp normal⟩
    obtain ⟨smallLess, logLess, _⟩ := small_parts (mt zeroQ.mpr zero) small
    rw [if_pos some, if_neg (mt zeroQ.mpr zero), toNat_withSign fields (by omega), moved]

/-- What a value is rounded to. -/
theorem toNat_round {sharedExp : Word} (most : exponent ≤ sharedExp.toNat)
    (least : 3 ≤ sharedExp.toNat) (number : sharedExp.toNat < 255) :
    (roundFp16bToBfp4b lane value sharedExp).toNat =
      let q := keptQ sharedExp.toNat exponent mantissa
      if q = 0 then 0
      else sign * 2 ^ 31 +
        ((sharedExp.toNat - 2 + q.log2) * 2 ^ 23 + smallMantissa q * 2 ^ 16) := by
  have isExponent : (exexp value).toNat = exponent := by rw [toNat_exexp, fields.exponent_eq]
  have isDistance := toNat_distance (isExponent.trans_le most) (by omega)
  have isX := fields.toNat_significand
  have mantissaLess := fields.mantissa_lt
  have isSum := toNat_roundedSum (isX.trans_lt (by omega))
    (isDistance.trans_le (Nat.min_le_left _ _))
  rw [isX, isDistance, isExponent] at isSum
  have bound := roundedQ_le sharedExp.toNat exponent mantissaLess
  have isQ := @toNat_limit 7#32 _ (by decide) (isSum.trans_lt (by
    show roundedQ sharedExp.toNat exponent mantissa < 2 ^ 31
    omega))
  rw [isSum] at isQ
  have placed := toNat_placed exact fields least number (isQ.trans_le (Nat.min_le_left _ _))
  rw [isQ] at placed
  exact placed

end

theorem keptQ_le (sharedExp exponent mantissa : Nat) :
    keptQ sharedExp exponent mantissa ≤ 7 := by
  unfold keptQ
  split
  · exact Nat.zero_le _
  · exact Nat.min_le_left _ _

/-- A word by the fields of what a value is rounded to. -/
structure Bfp4bFields (sharedExp : Nat) (result : Word) (sign q : Nat) : Prop where
  small : q ≤ 7
  zero : q = 0 → result = 0#32
  fields : q ≠ 0 → Fp16bFields result sign (sharedExp - 2 + q.log2) (smallMantissa q)

theorem round_fields {lane : FloatLane} (exact : lane.Exact) {value sharedExp : Word}
    {sign exponent mantissa : Nat} (fields : Fp16bFields value sign exponent mantissa)
    (most : exponent ≤ sharedExp.toNat) (least : 3 ≤ sharedExp.toNat)
    (number : sharedExp.toNat < 255) :
    Bfp4bFields sharedExp.toNat (roundFp16bToBfp4b lane value sharedExp) sign
      (keptQ sharedExp.toNat exponent mantissa) := by
  have isWord := toNat_round exact fields most least number
  have small := keptQ_le sharedExp.toNat exponent mantissa
  constructor
  · exact small
  · intro zero
    rw [if_pos zero] at isWord
    exact BitVec.eq_of_toNat_eq isWord
  · intro nonzero
    rw [if_neg nonzero] at isWord
    obtain ⟨mantissaLess, logLess, _⟩ := small_parts nonzero small
    exact ⟨fields.sign_lt, by omega, mantissaLess, by rw [isWord, Nat.add_assoc]⟩

namespace Bfp4bFields

variable {sharedExp : Nat} {result : Word} {sign q : Nat}

theorem isFp16b (kept : Bfp4bFields sharedExp result sign q) : IsFp16b result := by
  by_cases zero : q = 0
  · rw [kept.zero zero]
    exact zero_fields.isFp16b
  · exact (kept.fields zero).isFp16b

section

variable (kept : Bfp4bFields sharedExp result sign q) (least : 3 ≤ sharedExp)
include kept least

theorem value_eq :
    binary32.value result.toNat = bfp4bValue sharedExp (sign = 1) q := by
  by_cases zero : q = 0
  · rw [kept.zero zero, zero]
    simp [bfp4bValue, value, significand, BinaryFormat.exponent, fraction, magnitude]
  obtain ⟨_, logLess, _⟩ := small_parts zero kept.small
  have normal : sharedExp - 2 + q.log2 ≠ 0 := by omega
  have isPower : (2 : ℚ) ^ ((sharedExp : ℤ) - 129) =
      2 ^ (7 - q.log2) * 2 ^ (((sharedExp - 2 + q.log2 : Nat) : ℤ) - 134) := by
    rw [← zpow_natCast, ← zpow_add₀ (by norm_num)]
    congr 1
    omega
  have isQ : (2 : ℚ) ^ 7 + smallMantissa q = q * 2 ^ (7 - q.log2) := by
    exact_mod_cast small_significand zero kept.small
  rw [(kept.fields zero).value_eq normal, bfp4bValue, isPower, mul_assoc, isQ]
  ring

theorem exponent_le :
    binary32.exponent result.toNat ≤ sharedExp := by
  by_cases zero : q = 0
  · rw [kept.zero zero, zero_fields.exponent_eq]
    exact Nat.zero_le _
  · obtain ⟨_, logLess, _⟩ := small_parts zero kept.small
    rw [(kept.fields zero).exponent_eq]
    omega

theorem exponent_of_four_le (large : 4 ≤ q) : binary32.exponent result.toNat = sharedExp := by
  obtain ⟨_, _, isLog⟩ := small_parts (by omega : q ≠ 0) kept.small
  rw [(kept.fields (by omega)).exponent_eq, isLog large]
  omega

/-- The packer keeps what is left. -/
theorem pack_eq :
    packBfp4b sharedExp result = q := by
  by_cases zero : q = 0
  · rw [kept.zero zero, zero]
    rfl
  obtain ⟨_, logLess, _⟩ := small_parts zero kept.small
  have normal : sharedExp - 2 + q.log2 ≠ 0 := by omega
  have dropped : 5 + (sharedExp - (sharedExp - 2 + q.log2)) = 7 - q.log2 := by omega
  rw [packBfp4b, (kept.fields zero).exponent_eq, (kept.fields zero).mantissa_eq,
    if_neg normal, small_significand zero kept.small, dropped,
    Nat.mul_div_cancel _ (Nat.two_pow_pos _)]

/-- Rounding again keeps the magnitude. -/
theorem keptQ_eq (nonzero : q ≠ 0) :
    keptQ sharedExp (sharedExp - 2 + q.log2) (smallMantissa q) = q := by
  obtain ⟨_, logLess, _⟩ := small_parts nonzero kept.small
  have small := kept.small
  have normal : sharedExp - 2 + q.log2 ≠ 0 := by omega
  have distance : min 4 (sharedExp - (sharedExp - 2 + q.log2)) = 2 - q.log2 := by omega
  have shifted : q * 2 ^ (7 - q.log2) * 2 ^ (4 - (2 - q.log2)) = q * 2 ^ 9 := by
    rw [Nat.mul_assoc, ← Nat.pow_add]
    congr 2
    omega
  rw [keptQ, if_neg normal, roundedQ, distance, small_significand nonzero small, shifted]
  omega

end

end Bfp4bFields

section

variable {lane : FloatLane} (exact : lane.Exact) {value sharedExp : Word} (isFp16b : IsFp16b value)
  (most : binary32.exponent value.toNat ≤ sharedExp.toNat) (least : 3 ≤ sharedExp.toNat)
  (number : sharedExp.toNat < 255)
include exact isFp16b most least number

theorem roundsToBfp4b :
    RoundsToBfp4b sharedExp.toNat value (roundFp16bToBfp4b lane value sharedExp) := by
  obtain ⟨sign, fields⟩ := isFp16b.fields
  have kept := round_fields exact fields most least number
  have isValue := kept.value_eq least
  constructor
  · exact kept.isFp16b
  · have nearest := roundedQ_nearest most fields.mantissa_lt
    refine ⟨_, _, nearest, rfl, ?_⟩
    rw [isValue]
    simp only [bfp4bValue, fields.negative_iff, keptQ]
  · exact kept.exponent_le least
  · rw [kept.pack_eq least]
    constructor
    · exact kept.small
    · rw [isValue]
      by_cases zero : keptQ sharedExp.toNat (binary32.exponent value.toNat) (mantissa value) = 0
      · simp [bfp4bValue, zero]
      · simp only [bfp4bValue, (kept.fields zero).negative_iff]

/-- A second rounding changes nothing. -/
theorem round_round :
    roundFp16bToBfp4b lane (roundFp16bToBfp4b lane value sharedExp) sharedExp =
      roundFp16bToBfp4b lane value sharedExp := by
  obtain ⟨sign, fields⟩ := isFp16b.fields
  have kept := round_fields exact fields most least number
  apply BitVec.eq_of_toNat_eq
  by_cases zero : keptQ sharedExp.toNat (binary32.exponent value.toNat) (mantissa value) = 0
  · rw [kept.zero zero]
    exact toNat_round exact zero_fields (Nat.zero_le _) least number
  · have again := kept.fields zero
    have bound := kept.exponent_le least
    rw [again.exponent_eq] at bound
    have isAgain := toNat_round exact again bound least number
    rw [kept.keptQ_eq least zero] at isAgain
    exact isAgain.trans (toNat_round exact fields most least number).symm

end

end Libtt.Sfpu

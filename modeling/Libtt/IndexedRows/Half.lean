import Libtt.Foundation.BinaryFloat
import Libtt.Foundation.BitFields
import Libtt.Foundation.Loop

/-!
# Half-precision elements of a scatter

The conversions of `indexed_rows_common.hpp`, by which elements of 16 bits are combined in single
precision. A float is its bits.
-/
namespace Libtt.IndexedRows

open Libtt.Foundation

/-- `bf16_to_f32`. -/
def bf16ToF32 (bits : BitVec 16) : BitVec 32 := bits.setWidth 32 <<< 16

/-- `f32_to_bf16`. -/
def f32ToBf16 (u : BitVec 32) : BitVec 16 :=
  if u &&& 0x7f800000#32 = 0x7f800000#32 ∧ u &&& 0x007fffff#32 ≠ 0#32 then
    ((u >>> 16) ||| 0x0040#32).setWidth 16
  else
    let lsb := (u >>> 16) &&& 1#32
    let u := u + (0x7fff#32 + lsb)
    (u >>> 16).setWidth 16

/-- The loop that finds the leading one of a subnormal `mant`, and counts in `shift`. -/
def normalize : Nat → BitVec 32 × BitVec 32 → Option (BitVec 32 × BitVec 32) :=
  loop (fun (mant, _) => some (mant &&& 0x400#32 == 0#32))
    (fun (mant, shift) => some (mant <<< 1, shift + 1#32))

/-- `f16_to_f32`, with fuel for its loop. -/
def f16ToF32 (fuel : Nat) (bits : BitVec 16) : Option (BitVec 32) :=
  let sign := (bits.setWidth 32 &&& 0x8000#32) <<< 16
  let exp := (bits >>> 10).setWidth 32 &&& 0x1f#32
  let mant := bits.setWidth 32 &&& 0x3ff#32
  if exp = 0#32 then
    if mant = 0#32 then some sign
    else (normalize fuel (mant, 0#32)).map fun (mant, shift) =>
      let mant := mant &&& 0x3ff#32
      sign ||| ((127#32 - 15#32 + 1#32 - shift) <<< 23) ||| (mant <<< 13)
  else if exp = 31#32 then some (sign ||| 0x7f800000#32 ||| (mant <<< 13))
  else some (sign ||| ((exp + 127#32 - 15#32) <<< 23) ||| (mant <<< 13))

/-- `f32_to_f16`. -/
def f32ToF16 (u : BitVec 32) : BitVec 16 :=
  let sign := ((u >>> 16) &&& 0x8000#32).setWidth 16
  let exp := (u >>> 23) &&& 0xff#32
  let mant := u &&& 0x7fffff#32
  if exp = 0xff#32 then
    sign ||| 0x7c00#16 |||
      (if mant ≠ 0#32 then 0x0200#32 ||| (mant >>> 13) else 0#32).setWidth 16
  else
    let e : Int := exp.toNat - 127 + 15
    if 31 ≤ e then sign ||| 0x7c00#16
    else if e ≤ 0 then
      if e < -10 then sign
      else
        -- A subnormal result: the implicit one is shifted in, then rounded.
        let mant := mant ||| 0x800000#32
        let shift := (14 - e).toNat
        let half := 1#32 <<< (shift - 1)
        let rem := mant &&& ((1#32 <<< shift) - 1#32)
        let r := mant >>> shift
        let r := if half < rem ∨ rem = half ∧ r &&& 1#32 ≠ 0#32 then r + 1#32 else r
        sign ||| r.setWidth 16
    else
      let r := (BitVec.ofInt 32 e <<< 10) ||| (mant >>> 13)
      let rem := mant &&& 0x1fff#32
      -- A carry may move into the exponent.
      let r := if 0x1000#32 < rem ∨ rem = 0x1000#32 ∧ r &&& 1#32 ≠ 0#32 then r + 1#32 else r
      sign ||| r.setWidth 16

end Libtt.IndexedRows

/-! ## Half-precision conversions round to nearest even -/
namespace Libtt.IndexedRows

open Libtt.Foundation Libtt.Foundation.BinaryFormat

/-- The sign bit of a word, where a half-precision word has it. -/
theorem toNat_sign (u : BitVec 32) :
    (((u >>> 16) &&& 0x8000#32).setWidth 16).toNat = u.toNat / 2 ^ 31 * 2 ^ 15 := by
  have high := and_shiftLeft (u.toNat >>> 16) 1 15
  have sign : u.toNat / 2 ^ 31 < 2 := by omega
  rw [← Nat.shiftRight_add, Nat.and_one_is_mod, Nat.shiftLeft_eq, Nat.shiftLeft_eq,
    Nat.shiftRight_eq_div_pow _ 31, Nat.mod_eq_of_lt sign] at high
  exact (congrArg (· % 2 ^ 16) high).trans (Nat.mod_eq_of_lt (by omega))

theorem toNat_sign_or (u : BitVec 32) {low : BitVec 16} (fits : low.toNat < 2 ^ 15) :
    (((u >>> 16) &&& 0x8000#32).setWidth 16 ||| low).toNat =
      u.toNat / 2 ^ 31 * 2 ^ 15 + low.toNat := by
  rw [BitVec.toNat_or, toNat_sign, or_eq_add _ fits]

theorem negative16_iff {sign low : Nat} (isSign : sign < 2) (fits : low < 2 ^ 15) :
    binary16.Negative (sign * 2 ^ 15 + low) ↔ sign = 1 := by
  show (sign * 2 ^ 15 + low) / 2 ^ 15 % 2 = 1 ↔ _
  omega

theorem magnitude16_eq {sign low : Nat} (fits : low < 2 ^ 15) :
    binary16.magnitude (sign * 2 ^ 15 + low) = low := by
  show (sign * 2 ^ 15 + low) % 2 ^ 15 = _
  omega

theorem negative32_iff (u : BitVec 32) : binary32.Negative u.toNat ↔ u.toNat / 2 ^ 31 = 1 := by
  show u.toNat / 2 ^ 31 % 2 = 1 ↔ _
  omega

theorem binary16_unit : binary32.unit = binary16.unit / 2 ^ 125 := by
  norm_num [unit, binary32, binary16, bias]

/-- The magnitude of a single-precision word, in units of the half-precision format. -/
def halfUnits (u : BitVec 32) : ℚ := binary32.units (u.toNat % 2 ^ 31) / 2 ^ 125

theorem abs_value_halfUnits (u : BitVec 32) :
    |binary32.value u.toNat| = halfUnits u * binary16.unit := by
  rw [abs_value, binary16_unit, halfUnits, div_mul_eq_mul_div, mul_div_assoc]
  rfl

theorem units_single {u : BitVec 32} (normal : u.toNat % 2 ^ 31 / 2 ^ 23 ≠ 0) :
    binary32.units (u.toNat % 2 ^ 31) =
      (2 ^ 23 + u.toNat % 2 ^ 23) * 2 ^ (u.toNat % 2 ^ 31 / 2 ^ 23 - 1) := by
  have low : u.toNat % 2 ^ 31 % 2 ^ 23 = u.toNat % 2 ^ 23 := by omega
  exact (if_neg normal).trans (by rw [show binary32.fractionBits = 23 from rfl, low])

theorem units_fields {e fraction : Nat} (normal : 0 < e) (less : fraction < 2 ^ 23) :
    binary32.units (e * 2 ^ 23 + fraction) = (2 ^ 23 + fraction) * 2 ^ (e - 1) := by
  have exponent : (e * 2 ^ 23 + fraction) / 2 ^ 23 = e := by omega
  have low : (e * 2 ^ 23 + fraction) % 2 ^ 23 = fraction := by omega
  rw [BinaryFormat.units, show binary32.fractionBits = 23 from rfl, exponent, low,
    if_neg normal.ne']

theorem units_of_subnormal {magnitude : Nat} (less : magnitude < 2 ^ 10) :
    binary16.units magnitude = magnitude :=
  (if_pos (Nat.div_eq_of_lt less)).trans (Nat.mod_eq_of_lt less)

/-- The exponent field of a single-precision word. -/
theorem toNat_exp (u : BitVec 32) :
    ((u >>> 23) &&& 0xff#32).toNat = u.toNat % 2 ^ 31 / 2 ^ 23 := by
  rw [show 0xff#32 = BitVec.ofNat 32 (2 ^ 8 - 1) from rfl, toNat_and_low _ 8 (by decide),
    BitVec.toNat_ushiftRight, Nat.shiftRight_eq_div_pow]
  omega

/-- The fraction field of a single-precision word. -/
theorem toNat_mant (u : BitVec 32) :
    (u &&& 0x7fffff#32).toNat = u.toNat % 2 ^ 31 % 2 ^ 23 := by
  rw [show 0x7fffff#32 = BitVec.ofNat 32 (2 ^ 23 - 1) from rfl, toNat_and_low _ 23 (by decide)]
  omega

/-- The choice between two neighbours, as the conversions make it. -/
theorem toNat_choice (r rem half : BitVec 32) (room : r.toNat < 2 ^ 31) :
    (if half < rem ∨ rem = half ∧ r &&& 1#32 ≠ 0#32 then r + 1#32 else r).toNat =
      if half.toNat < rem.toNat ∨ rem.toNat = half.toNat ∧ r.toNat % 2 = 1 then r.toNat + 1
      else r.toNat := by
  have odd : r &&& 1#32 ≠ 0#32 ↔ r.toNat % 2 = 1 := by
    have low := toNat_and_low r 1 (by decide)
    rw [show BitVec.ofNat 32 (2 ^ 1 - 1) = 1#32 from rfl] at low
    rw [ne_eq, ← BitVec.toNat_inj, low]
    simp
  simp only [odd, BitVec.lt_def, ← BitVec.toNat_inj]
  split
  · rw [BitVec.toNat_add]
    exact Nat.mod_eq_of_lt (by simp; omega)
  · rfl

/-- A finite number between two half-precision neighbours. -/
theorem rounds_of_low {u : BitVec 32} {result : BitVec 16} (floor half rest : Nat)
    (finite : u.toNat % 2 ^ 31 / 2 ^ 23 < 255) (isFloor : floor < 31 * 2 ^ 10)
    (isNumber : halfUnits u = binary16.units floor + (rest : ℚ) / (2 * half) *
      2 ^ (floor / 2 ^ 10 - 1)) (less : rest < 2 * half)
    (isResult : result.toNat = u.toNat / 2 ^ 31 * 2 ^ 15 +
      if half < rest ∨ rest = half ∧ floor % 2 = 1 then floor + 1 else floor) :
    RoundsToNearestEven binary32 binary16 u.toNat result.toNat := by
  have rounded := binary16.roundUp_eq isNumber less
  rw [← rounded.2.2] at isResult
  have fits : binary16.roundUp (halfUnits u) floor < 2 ^ 15 := by
    unfold roundUp
    split <;> omega
  refine binary16.roundsToNearestEven_of_between finite (abs_value_halfUnits u) ?_ isFloor
    rounded.1 rounded.2.1 ?_
  · rw [isResult, negative16_iff (by omega) fits, negative32_iff]
  · rw [isResult, magnitude16_eq fits]

/-- Numbers of less than half the least subnormal. -/
theorem f32ToF16_tiny {u : BitVec 32} (small : u.toNat % 2 ^ 31 / 2 ^ 23 < 102) :
    RoundsToNearestEven binary32 binary16 u.toNat (f32ToF16 u).toNat := by
  have isResult : (f32ToF16 u).toNat = u.toNat / 2 ^ 31 * 2 ^ 15 := by
    unfold f32ToF16
    rw [if_neg (by rw [← BitVec.toNat_inj, toNat_exp]; simp; omega), toNat_exp,
      if_neg (by omega), if_pos (by omega), if_pos (by omega), toNat_sign]
  have below : binary32.units (u.toNat % 2 ^ 31) < 2 ^ 124 :=
    binary32.units_strictMono (show _ < 102 * 2 ^ 23 by omega)
  refine rounds_of_low 0 (2 ^ 124) (binary32.units (u.toNat % 2 ^ 31)) (by omega) (by decide) ?_
    (by omega) ?_
  · rw [halfUnits, units_zero]
    norm_num
  · rw [isResult, if_neg (by omega), Nat.add_zero]

/-- Numbers that are rounded to a multiple of the least subnormal. -/
theorem f32ToF16_subnormal {u : BitVec 32} (least : 102 ≤ u.toNat % 2 ^ 31 / 2 ^ 23)
    (most : u.toNat % 2 ^ 31 / 2 ^ 23 ≤ 112) :
    RoundsToNearestEven binary32 binary16 u.toNat (f32ToF16 u).toNat := by
  obtain ⟨shift, isShift⟩ : ∃ shift, shift + u.toNat % 2 ^ 31 / 2 ^ 23 = 126 :=
    ⟨126 - u.toNat % 2 ^ 31 / 2 ^ 23, by omega⟩
  have bounds : 14 ≤ shift ∧ shift ≤ 24 := by omega
  have powers : 2 ^ 14 ≤ 2 ^ shift ∧ 2 ^ shift ≤ 2 ^ 24 :=
    ⟨Nat.pow_le_pow_right (by decide) bounds.1, Nat.pow_le_pow_right (by decide) bounds.2⟩
  have halves : 2 ^ shift = 2 * 2 ^ (shift - 1) := by
    rw [← Nat.pow_succ']
    congr 1
    omega
  have implicit : (u &&& 0x7fffff#32 ||| 0x800000#32).toNat = 2 ^ 23 + u.toNat % 2 ^ 23 := by
    have low : u.toNat % 2 ^ 31 % 2 ^ 23 < 2 ^ 23 := Nat.mod_lt _ (by decide)
    rw [BitVec.toNat_or, toNat_mant, Nat.or_comm]
    exact (or_eq_add 1 low).trans (by omega)
  generalize isMant : 2 ^ 23 + u.toNat % 2 ^ 23 = mant at implicit
  have isHalf : (1#32 <<< (shift - 1)).toNat = 2 ^ (shift - 1) := by
    rw [BitVec.toNat_shiftLeft, Nat.shiftLeft_eq, show (1#32).toNat = 1 from rfl, Nat.one_mul,
      Nat.mod_eq_of_lt (by omega)]
  have isMask : 1#32 <<< shift - 1#32 = BitVec.ofNat 32 (2 ^ shift - 1) := by
    have one : (1#32 <<< shift).toNat = 2 ^ shift := by
      rw [BitVec.toNat_shiftLeft, Nat.shiftLeft_eq, show (1#32).toNat = 1 from rfl, Nat.one_mul,
        Nat.mod_eq_of_lt (by omega)]
    rw [← BitVec.toNat_inj, BitVec.toNat_sub_of_le (by rw [BitVec.le_def, one]; simp; omega), one,
      BitVec.toNat_ofNat (2 ^ shift - 1), Nat.mod_eq_of_lt (by omega)]
    rfl
  have floorLess : mant / 2 ^ shift < 2 ^ 10 := by
    rw [Nat.div_lt_iff_lt_mul (by omega)]
    omega
  have isUnits : halfUnits u = (mant : ℚ) / 2 ^ shift := by
    have scale : (2 : ℚ) ^ 125 = 2 ^ (125 - shift) * 2 ^ shift := by
      rw [← pow_add]
      congr 1
      omega
    rw [halfUnits, units_single (by omega), isMant, scale,
      show u.toNat % 2 ^ 31 / 2 ^ 23 - 1 = 125 - shift by omega, Nat.cast_mul, Nat.cast_pow,
      Nat.cast_ofNat, mul_comm, mul_div_mul_left _ _ (by positivity)]
  refine rounds_of_low (mant / 2 ^ shift) (2 ^ (shift - 1)) (mant % 2 ^ shift) (by omega)
    (by omega) ?_ (halves ▸ Nat.mod_lt _ (Nat.two_pow_pos _)) ?_
  · have whole : (mant : ℚ) = 2 ^ shift * (mant / 2 ^ shift : Nat) + (mant % 2 ^ shift : Nat) := by
      exact_mod_cast (Nat.div_add_mod mant (2 ^ shift)).symm
    have same : (2 * (2 ^ (shift - 1) : Nat) : ℚ) = 2 ^ shift := by exact_mod_cast halves.symm
    rw [isUnits, same, units_of_subnormal floorLess, Nat.div_eq_of_lt floorLess, Nat.zero_sub,
      pow_zero, mul_one, whole, add_div, mul_div_cancel_left₀ _ (by positivity)]
  · have exponent : (14 - (((u.toNat % 2 ^ 31 / 2 ^ 23 : Nat) : Int) - 127 + 15)).toNat = shift := by
      omega
    unfold f32ToF16
    dsimp only
    rw [if_neg (by rw [← BitVec.toNat_inj, toNat_exp]; simp; omega), toNat_exp,
      if_neg (by omega), if_pos (by omega), if_neg (by omega), exponent, isMask]
    have choice := toNat_choice ((u &&& 0x7fffff#32 ||| 0x800000#32) >>> shift)
      ((u &&& 0x7fffff#32 ||| 0x800000#32) &&& BitVec.ofNat 32 (2 ^ shift - 1))
      (1#32 <<< (shift - 1))
      (by rw [BitVec.toNat_ushiftRight, implicit, Nat.shiftRight_eq_div_pow]; omega)
    rw [toNat_and_low _ _ (by omega), BitVec.toNat_ushiftRight, implicit, isHalf,
      Nat.shiftRight_eq_div_pow] at choice
    rw [toNat_sign_or, BitVec.toNat_setWidth, choice, Nat.mod_eq_of_lt]
    · split <;> omega
    · rw [BitVec.toNat_setWidth, choice, Nat.mod_eq_of_lt] <;> split <;> omega

/-- Numbers that keep their exponent, or have a carry move into it. -/
theorem f32ToF16_normal {u : BitVec 32} (least : 113 ≤ u.toNat % 2 ^ 31 / 2 ^ 23)
    (most : u.toNat % 2 ^ 31 / 2 ^ 23 ≤ 142) :
    RoundsToNearestEven binary32 binary16 u.toNat (f32ToF16 u).toNat := by
  obtain ⟨e, isE⟩ : ∃ e, u.toNat % 2 ^ 31 / 2 ^ 23 = 113 + e := Nat.exists_eq_add_of_le least
  obtain ⟨kept, isKept⟩ : ∃ kept, u.toNat % 2 ^ 23 / 2 ^ 13 = kept := ⟨_, rfl⟩
  obtain ⟨rest, isRest⟩ : ∃ rest, u.toNat % 2 ^ 13 = rest := ⟨_, rfl⟩
  have fraction : u.toNat % 2 ^ 23 = 2 ^ 13 * kept + rest := by omega
  have keptLess : kept < 2 ^ 10 := by omega
  have isFloor : ((BitVec.ofInt 32 ((e : Int) + 1) <<< 10) |||
      ((u &&& 0x7fffff#32) >>> 13)).toNat = (e + 1) * 2 ^ 10 + kept := by
    have high : (BitVec.ofInt 32 ((e : Int) + 1)).toNat = e + 1 := by
      rw [BitVec.toNat_ofInt]
      omega
    rw [BitVec.toNat_or, BitVec.toNat_shiftLeft, high, Nat.shiftLeft_eq,
      Nat.mod_eq_of_lt (by omega), BitVec.toNat_ushiftRight, toNat_mant,
      Nat.shiftRight_eq_div_pow, show u.toNat % 2 ^ 31 % 2 ^ 23 / 2 ^ 13 = kept by omega,
      or_eq_add _ keptLess]
  have exponent : ((e + 1) * 2 ^ 10 + kept) / 2 ^ 10 = e + 1 := by omega
  have units : binary16.units ((e + 1) * 2 ^ 10 + kept) = (2 ^ 10 + kept) * 2 ^ e := by
    have low : ((e + 1) * 2 ^ 10 + kept) % 2 ^ 10 = kept := by omega
    rw [BinaryFormat.units, show binary16.fractionBits = 10 from rfl, exponent, low,
      if_neg (Nat.succ_ne_zero e), Nat.add_sub_cancel]
  refine rounds_of_low ((e + 1) * 2 ^ 10 + kept) (2 ^ 12) rest (by omega) (by omega) ?_ (by omega) ?_
  · rw [halfUnits, units_single (by omega), units, exponent, isE, fraction,
      show 113 + e - 1 = 112 + e by omega, Nat.add_sub_cancel, pow_add]
    push_cast
    ring
  · unfold f32ToF16
    rw [if_neg (by rw [← BitVec.toNat_inj, toNat_exp]; simp; omega), toNat_exp,
      if_neg (by omega), if_neg (by omega), isE,
      show ((113 + e : Nat) : Int) - 127 + 15 = e + 1 by omega]
    have isRem : (u &&& 0x7fffff#32 &&& 0x1fff#32).toNat = rest := by
      rw [show 0x1fff#32 = BitVec.ofNat 32 (2 ^ 13 - 1) from rfl, toNat_and_low _ _ (by decide),
        toNat_mant]
      omega
    have choice := toNat_choice ((BitVec.ofInt 32 ((e : Int) + 1) <<< 10) |||
      ((u &&& 0x7fffff#32) >>> 13)) (u &&& 0x7fffff#32 &&& 0x1fff#32) 0x1000#32 (by omega)
    rw [isFloor, isRem, show (0x1000#32).toNat = 2 ^ 12 from rfl] at choice
    rw [toNat_sign_or, BitVec.toNat_setWidth, choice, Nat.mod_eq_of_lt]
    · split <;> omega
    · rw [BitVec.toNat_setWidth, choice, Nat.mod_eq_of_lt] <;> split <;> omega

/-- Numbers past the greatest half-precision number. -/
theorem f32ToF16_large {u : BitVec 32} (least : 143 ≤ u.toNat % 2 ^ 31 / 2 ^ 23)
    (finite : u.toNat % 2 ^ 31 / 2 ^ 23 < 255) :
    RoundsToNearestEven binary32 binary16 u.toNat (f32ToF16 u).toNat := by
  have isResult : (f32ToF16 u).toNat = u.toNat / 2 ^ 31 * 2 ^ 15 + 31 * 2 ^ 10 := by
    unfold f32ToF16
    rw [if_neg (by rw [← BitVec.toNat_inj, toNat_exp]; simp; omega), toNat_exp,
      if_pos (by omega), toNat_sign_or _ (by decide)]
    rfl
  have above : 2 ^ 165 ≤ binary32.units (u.toNat % 2 ^ 31) :=
    binary32.units_strictMono.monotone (show 143 * 2 ^ 23 ≤ _ by omega)
  refine binary16.roundsToNearestEven_of_overflow finite (abs_value_halfUnits u) ?_ ?_ ?_
  · rw [isResult, negative16_iff (by omega) (by decide), negative32_iff]
  · rw [halfUnits, le_div_iff₀ (by positivity), show binary16.units binary16.infinity = 2 ^ 40 from rfl]
    exact_mod_cast above
  · rw [isResult, isInfinite_iff, magnitude16_eq (by decide)]
    rfl

/-- Infinities and NaNs. -/
theorem f32ToF16_special {u : BitVec 32} (special : u.toNat % 2 ^ 31 / 2 ^ 23 = 255) :
    RoundsToNearestEven binary32 binary16 u.toNat (f32ToF16 u).toNat := by
  have isExp : (u >>> 23) &&& 0xff#32 = 0xff#32 := by
    rw [← BitVec.toNat_inj, toNat_exp, special]
    rfl
  have infinite : ¬binary32.IsFinite u.toNat := fun finite => Nat.ne_of_lt finite special
  by_cases fraction : u &&& 0x7fffff#32 = 0#32
  · have isResult : (f32ToF16 u).toNat = u.toNat / 2 ^ 31 * 2 ^ 15 + 31 * 2 ^ 10 := by
      unfold f32ToF16
      rw [if_pos isExp, if_neg (not_not.mpr fraction), BitVec.setWidth_zero, BitVec.or_zero,
        toNat_sign_or _ (by decide)]
      rfl
    have isInfinite : binary16.IsInfinite (f32ToF16 u).toNat := by
      rw [isResult, isInfinite_iff, magnitude16_eq (by decide)]
      rfl
    have low : u.toNat % 2 ^ 31 % 2 ^ 23 = 0 := by
      rw [← toNat_mant, fraction]
      rfl
    refine ⟨iff_of_false (fun nan => nan.2 isInfinite.2) (fun nan => nan.2 low), fun _ => ?_,
      fun _ => isInfinite, fun finite => absurd finite infinite, fun finite => absurd finite infinite⟩
    rw [isResult, negative16_iff (by omega) (by decide), negative32_iff]
  · have low : u.toNat % 2 ^ 31 % 2 ^ 23 ≠ 0 := by
      rw [← toNat_mant]
      exact fun zero => fraction (BitVec.toNat_inj.mp zero)
    have isNaN : binary32.IsNaN u.toNat := ⟨special, low⟩
    obtain ⟨payload, isPayload⟩ : ∃ payload,
        0x0200#32 ||| ((u &&& 0x7fffff#32) >>> 13) = payload := ⟨_, rfl⟩
    have payloadBits : payload.toNat = 2 ^ 9 ||| u.toNat % 2 ^ 31 % 2 ^ 23 / 2 ^ 13 := by
      rw [← isPayload, BitVec.toNat_or, BitVec.toNat_ushiftRight, toNat_mant,
        Nat.shiftRight_eq_div_pow]
      rfl
    have quiet : 2 ^ 9 ≤ payload.toNat := payloadBits ▸ Nat.left_le_or
    have fits : payload.toNat < 2 ^ 10 := payloadBits ▸ Nat.or_lt_two_pow (by decide) (by omega)
    have isLow : (0x7c00#16 ||| payload.setWidth 16).toNat = 31 * 2 ^ 10 + payload.toNat := by
      rw [BitVec.toNat_or, BitVec.toNat_setWidth, Nat.mod_eq_of_lt (by omega)]
      exact or_eq_add 31 fits
    have isResult : (f32ToF16 u).toNat =
        u.toNat / 2 ^ 31 * 2 ^ 15 + (31 * 2 ^ 10 + payload.toNat) := by
      unfold f32ToF16
      rw [if_pos isExp, if_pos fraction, isPayload, BitVec.or_assoc,
        toNat_sign_or _ (by omega), isLow]
    refine ⟨iff_of_true ?_ isNaN, fun numeric => absurd isNaN numeric,
      fun infinity => absurd infinity.2 low, fun finite => absurd finite infinite,
      fun finite => absurd finite infinite⟩
    rw [isResult, isNaN_iff, magnitude16_eq (by omega), show binary16.infinity = 31 * 2 ^ 10 from rfl]
    omega

theorem f32ToF16_rounds (u : BitVec 32) :
    RoundsToNearestEven binary32 binary16 u.toNat (f32ToF16 u).toNat := by
  by_cases tiny : u.toNat % 2 ^ 31 / 2 ^ 23 < 102
  · exact f32ToF16_tiny tiny
  by_cases subnormal : u.toNat % 2 ^ 31 / 2 ^ 23 ≤ 112
  · exact f32ToF16_subnormal (by omega) subnormal
  by_cases normal : u.toNat % 2 ^ 31 / 2 ^ 23 ≤ 142
  · exact f32ToF16_normal (by omega) normal
  by_cases finite : u.toNat % 2 ^ 31 / 2 ^ 23 < 255
  · exact f32ToF16_large (by omega) finite
  · exact f32ToF16_special (by omega)

theorem bfloat16_unit : binary32.unit = bfloat16.unit / 2 ^ 16 := by
  norm_num [unit, binary32, bfloat16, bias]

/-- The test of `f32_to_bf16` for a NaN. -/
theorem isNaN_test (u : BitVec 32) :
    (u &&& 0x7f800000#32 = 0x7f800000#32 ∧ u &&& 0x007fffff#32 ≠ 0#32) ↔
      binary32.IsNaN u.toNat := by
  have high := and_shiftLeft u.toNat 255 23
  have exp := toNat_exp u
  rw [BitVec.toNat_and, BitVec.toNat_ushiftRight] at exp
  rw [show (0xff#32).toNat = 255 from rfl] at exp
  rw [exp, Nat.shiftLeft_eq, Nat.shiftLeft_eq] at high
  have special : u &&& 0x7f800000#32 = 0x7f800000#32 ↔ u.toNat % 2 ^ 31 / 2 ^ 23 = 255 := by
    rw [← BitVec.toNat_inj, BitVec.toNat_and]
    rw [show (0x7f800000#32).toNat = 255 * 2 ^ 23 from rfl, high]
    omega
  have fraction : u &&& 0x007fffff#32 ≠ 0#32 ↔ u.toNat % 2 ^ 31 % 2 ^ 23 ≠ 0 := by
    rw [ne_eq, ← BitVec.toNat_inj, toNat_mant]
    rfl
  rw [special, fraction]
  rfl

/-- The two formats of 8 exponent bits: 16 bits more of a fraction are less than a unit. -/
theorem units_bfloat16 (u : BitVec 32) : binary32.units (u.toNat % 2 ^ 31) =
    bfloat16.units (u.toNat % 2 ^ 31 / 2 ^ 16) * 2 ^ 16 +
      u.toNat % 2 ^ 16 * 2 ^ (u.toNat % 2 ^ 31 / 2 ^ 16 / 2 ^ 7 - 1) := by
  have exponent : u.toNat % 2 ^ 31 / 2 ^ 16 / 2 ^ 7 = u.toNat % 2 ^ 31 / 2 ^ 23 := by omega
  have low : u.toNat % 2 ^ 31 % 2 ^ 23 =
      u.toNat % 2 ^ 31 / 2 ^ 16 % 2 ^ 7 * 2 ^ 16 + u.toNat % 2 ^ 16 := by omega
  rw [BinaryFormat.units, BinaryFormat.units, show binary32.fractionBits = 23 from rfl,
    show bfloat16.fractionBits = 7 from rfl, exponent, low]
  split
  · rename_i zero
    rw [zero, Nat.zero_sub, Nat.pow_zero, Nat.mul_one]
  · ring

theorem f32ToBf16_nan {u : BitVec 32} (nan : binary32.IsNaN u.toNat) :
    bfloat16.IsNaN (f32ToBf16 u).toNat := by
  have isResult : (f32ToBf16 u).toNat = (u.toNat / 2 ^ 16 ||| 2 ^ 6) := by
    unfold f32ToBf16
    rw [if_pos ((isNaN_test u).mpr nan), BitVec.toNat_setWidth, BitVec.toNat_or,
      BitVec.toNat_ushiftRight, Nat.shiftRight_eq_div_pow]
    exact Nat.mod_eq_of_lt (Nat.or_lt_two_pow (by omega) (by decide))
  rw [isNaN_iff] at nan ⊢
  have split : bfloat16.magnitude (f32ToBf16 u).toNat = (u.toNat / 2 ^ 16 % 2 ^ 15 ||| 2 ^ 6) := by
    rw [isResult]
    exact Nat.or_mod_two_pow
  rw [split]
  have least : 255 * 2 ^ 7 ≤ u.toNat / 2 ^ 16 % 2 ^ 15 := by
    have less : 255 * 2 ^ 23 < u.toNat % 2 ^ 31 := nan
    omega
  show 255 * 2 ^ 7 < _
  rcases least.lt_or_eq with more | equal
  · exact more.trans_le Nat.left_le_or
  · rw [← equal]
    decide

theorem f32ToBf16_rounds (u : BitVec 32) :
    RoundsToNearestEven binary32 bfloat16 u.toNat (f32ToBf16 u).toNat := by
  by_cases nan : binary32.IsNaN u.toNat
  · exact ⟨iff_of_true (f32ToBf16_nan nan) nan, fun numeric => absurd nan numeric,
      fun infinite => absurd infinite.2 nan.2, fun finite => absurd nan.1 (Nat.ne_of_lt finite),
      fun finite => absurd nan.1 (Nat.ne_of_lt finite)⟩
  have most : u.toNat % 2 ^ 31 ≤ 255 * 2 ^ 23 := by
    rw [isNaN_iff, not_lt] at nan
    exact nan
  have isResult : (f32ToBf16 u).toNat = u.toNat / 2 ^ 31 * 2 ^ 15 +
      (u.toNat % 2 ^ 31 + 0x7fff + u.toNat / 2 ^ 16 % 2) / 2 ^ 16 := by
    have lsb : ((u >>> 16) &&& 1#32).toNat = u.toNat / 2 ^ 16 % 2 := by
      rw [show 1#32 = BitVec.ofNat 32 (2 ^ 1 - 1) from rfl, toNat_and_low _ _ (by decide),
        BitVec.toNat_ushiftRight, Nat.shiftRight_eq_div_pow, Nat.pow_one]
    unfold f32ToBf16
    rw [if_neg (mt (isNaN_test u).mp nan)]
    simp only [BitVec.toNat_setWidth, BitVec.toNat_ushiftRight, BitVec.toNat_add, lsb,
      Nat.shiftRight_eq_div_pow, BitVec.toNat_ofNat]
    omega
  have fits : (u.toNat % 2 ^ 31 + 0x7fff + u.toNat / 2 ^ 16 % 2) / 2 ^ 16 < 2 ^ 15 := by omega
  have sign : bfloat16.Negative (f32ToBf16 u).toNat ↔ binary32.Negative u.toNat := by
    rw [isResult, negative32_iff]
    exact negative16_iff (by omega) fits
  have magnitude : bfloat16.magnitude (f32ToBf16 u).toNat =
      (u.toNat % 2 ^ 31 + 0x7fff + u.toNat / 2 ^ 16 % 2) / 2 ^ 16 := by
    rw [isResult]
    exact magnitude16_eq fits
  rcases most.lt_or_eq with finite | infinite
  · have isFinite : binary32.IsFinite u.toNat := binary32.isFinite_iff.mpr finite
    have isNumber : (binary32.units (u.toNat % 2 ^ 31) / 2 ^ 16 : ℚ) =
        bfloat16.units (u.toNat % 2 ^ 31 / 2 ^ 16) + ((u.toNat % 2 ^ 16 : Nat) : ℚ) /
          (2 * (2 ^ 15 : Nat)) * 2 ^ (u.toNat % 2 ^ 31 / 2 ^ 16 / 2 ^ 7 - 1) := by
      rw [div_eq_iff (by norm_num), units_bfloat16]
      push_cast
      ring
    have rounded := bfloat16.roundUp_eq isNumber (by omega)
    refine bfloat16.roundsToNearestEven_of_between isFinite ?_ sign ?_ rounded.1 rounded.2.1 ?_
    · rw [abs_value, bfloat16_unit, div_mul_eq_mul_div, mul_div_assoc]
      rfl
    · show _ < 255 * 2 ^ 7
      omega
    · rw [magnitude, rounded.2.2]
      split <;> omega
  · have isInfinite : bfloat16.IsInfinite (f32ToBf16 u).toNat := by
      rw [isInfinite_iff, magnitude, show bfloat16.infinity = 255 * 2 ^ 7 from rfl]
      omega
    have notFinite : ¬binary32.IsFinite u.toNat := by
      rw [isFinite_iff, not_lt]
      exact infinite.ge
    exact ⟨iff_of_false (fun isNaN => isNaN.2 isInfinite.2) nan, fun _ => sign,
      fun _ => isInfinite, fun finite => absurd finite notFinite,
      fun finite => absurd finite notFinite⟩

theorem bf16ToF32_same (bits : BitVec 16) :
    SameNumber bfloat16 binary32 bits.toNat (bf16ToF32 bits).toNat := by
  have isResult : (bf16ToF32 bits).toNat = bits.toNat * 2 ^ 16 := by
    rw [bf16ToF32, BitVec.toNat_shiftLeft, BitVec.toNat_setWidth, Nat.shiftLeft_eq]
    omega
  refine SameNumber.of_units ?_ ?_ ?_ fun _ => ?_
  · rw [isNaN_iff, isNaN_iff]
    show 255 * 2 ^ 23 < (bf16ToF32 bits).toNat % 2 ^ 31 ↔ 255 * 2 ^ 7 < bits.toNat % 2 ^ 15
    omega
  · show (bf16ToF32 bits).toNat / 2 ^ 31 % 2 = 1 ↔ bits.toNat / 2 ^ 15 % 2 = 1
    omega
  · rw [isInfinite_iff, isInfinite_iff]
    show (bf16ToF32 bits).toNat % 2 ^ 31 = 255 * 2 ^ 23 ↔ bits.toNat % 2 ^ 15 = 255 * 2 ^ 7
    omega
  · have units := units_bfloat16 (bf16ToF32 bits)
    rw [show (bf16ToF32 bits).toNat % 2 ^ 31 / 2 ^ 16 = bits.toNat % 2 ^ 15 by omega,
      show (bf16ToF32 bits).toNat % 2 ^ 16 = 0 by omega, Nat.zero_mul, Nat.add_zero] at units
    rw [show binary32.magnitude (bf16ToF32 bits).toNat = (bf16ToF32 bits).toNat % 2 ^ 31 from rfl,
      show bfloat16.magnitude bits.toNat = bits.toNat % 2 ^ 15 from rfl, units, bfloat16_unit]
    push_cast
    field_simp
    ring

/-- A float that is rounded back from the wider format has its own bits again. -/
theorem bits_eq {narrow : BinaryFormat} (width : narrow.exponentBits + narrow.fractionBits = 15)
    {bits result : BitVec 16} {wide : BitVec 32}
    (same : SameNumber narrow binary32 bits.toNat wide.toNat)
    (rounds : RoundsToNearestEven binary32 narrow wide.toNat result.toNat)
    (numeric : ¬narrow.IsNaN bits.toNat) : result = bits := by
  have back := RoundsToNearestEven.eq_of_sameNumber narrow same rounds numeric
  unfold BinaryFormat.magnitude Negative at back
  rw [width] at back
  have bound := result.isLt
  apply BitVec.eq_of_toNat_eq
  omega

/-- The test of the loop: the leading one is not yet at bit 10. -/
theorem leading_test {mant : BitVec 32} (most : mant.toNat < 2 ^ 11) :
    (mant &&& 0x400#32 == 0#32) = decide (mant.toNat < 2 ^ 10) := by
  have high := and_shiftLeft mant.toNat 1 10
  rw [Nat.and_one_is_mod, Nat.shiftLeft_eq, Nat.shiftLeft_eq, Nat.shiftRight_eq_div_pow] at high
  have bit : (mant &&& 0x400#32).toNat = mant.toNat / 2 ^ 10 % 2 * 2 ^ 10 := by
    exact high
  rw [Bool.eq_iff_iff, beq_iff_eq, decide_eq_true_iff, ← BitVec.toNat_inj, bit]
  simp only [BitVec.toNat_ofNat]
  omega

/-- The loop moves a subnormal's leading one to bit 10, and counts how far. -/
theorem normalize_eq (mant shift : BitVec 32) (left fuel : Nat) (enough : left < fuel)
    (least : 2 ^ (10 - left) ≤ mant.toNat) (most : mant.toNat < 2 ^ 11) (few : left ≤ 10) :
    ∃ count ≤ left, ∃ normal : BitVec 32, normal.toNat = mant.toNat * 2 ^ count ∧
      2 ^ 10 ≤ normal.toNat ∧ normal.toNat < 2 ^ 11 ∧
      normalize fuel (mant, shift) = some (normal, shift + BitVec.ofNat 32 count) := by
  induction left generalizing mant shift fuel with
  | zero =>
    obtain ⟨fuel, rfl⟩ := Nat.exists_eq_succ_of_ne_zero (by omega : fuel ≠ 0)
    refine ⟨0, le_rfl, mant, by omega, least, most, ?_⟩
    have done : (mant &&& 0x400#32 == 0#32) = false := by
      rw [leading_test most, decide_eq_false]
      exact Nat.not_lt.mpr least
    simp only [normalize, loop, done, BitVec.add_zero]
  | succ left ih =>
    obtain ⟨fuel, rfl⟩ := Nat.exists_eq_succ_of_ne_zero (by omega : fuel ≠ 0)
    by_cases small : mant.toNat < 2 ^ 10
    · have shifted : (mant <<< 1).toNat = mant.toNat * 2 := by
        rw [BitVec.toNat_shiftLeft, Nat.shiftLeft_eq]
        omega
      have doubles : 2 ^ (10 - left) = 2 ^ (10 - (left + 1)) * 2 := by
        rw [← Nat.pow_succ]
        congr 1
        omega
      obtain ⟨count, less, normal, isNormal, leading, bound, runs⟩ :=
        ih (mant <<< 1) (shift + 1#32) fuel (by omega) (by omega) (by omega) (by omega)
      refine ⟨count + 1, by omega, normal, ?_, leading, bound, ?_⟩
      · rw [isNormal, shifted, Nat.pow_succ']
        ring
      · have again : (mant &&& 0x400#32 == 0#32) = true := by
          rw [leading_test most, decide_eq_true small]
        have next : shift + BitVec.ofNat 32 (count + 1) = shift + 1#32 + BitVec.ofNat 32 count := by
          rw [BitVec.ofNat_add, BitVec.add_assoc, BitVec.add_comm 1#32]
        simp only [normalize, loop, again, Option.bind_some]
        rw [next]
        exact runs
    · refine ⟨0, Nat.zero_le _, mant, by omega, Nat.not_lt.mp small, most, ?_⟩
      have done : (mant &&& 0x400#32 == 0#32) = false := by
        rw [leading_test most, decide_eq_false small]
      simp only [normalize, loop, done, BitVec.add_zero]

/-- A single-precision word made of a sign, an exponent and a fraction. -/
theorem toNat_fields {sign exp mant : BitVec 32} {negative : Nat}
    (isSign : sign.toNat = negative * 2 ^ 31) (expLess : exp.toNat < 2 ^ 8)
    (mantLess : mant.toNat < 2 ^ 10) :
    (sign ||| (exp <<< 23) ||| (mant <<< 13)).toNat =
      negative * 2 ^ 31 + (exp.toNat * 2 ^ 23 + mant.toNat * 2 ^ 13) := by
  have isExp : (exp <<< 23).toNat = exp.toNat * 2 ^ 23 := by
    rw [BitVec.toNat_shiftLeft, Nat.shiftLeft_eq, Nat.mod_eq_of_lt (by omega)]
  have isMant : (mant <<< 13).toNat = mant.toNat * 2 ^ 13 := by
    rw [BitVec.toNat_shiftLeft, Nat.shiftLeft_eq, Nat.mod_eq_of_lt (by omega)]
  have low : exp.toNat * 2 ^ 23 ||| mant.toNat * 2 ^ 13 =
      exp.toNat * 2 ^ 23 + mant.toNat * 2 ^ 13 := or_eq_add _ (by omega)
  have high : exp.toNat * 2 ^ 23 + mant.toNat * 2 ^ 13 < 2 ^ 31 := by omega
  rw [BitVec.or_assoc, BitVec.toNat_or, BitVec.toNat_or, isSign, isExp, isMant, low,
    or_eq_add _ high]

/-- A wide float with the sign and the units of a half-precision one is the same number. -/
theorem same_of_magnitude {bits : BitVec 16} {single : BitVec 32} {magnitude : Nat}
    (isSingle : single.toNat = bits.toNat / 2 ^ 15 * 2 ^ 31 + magnitude)
    (fits : magnitude < 2 ^ 31)
    (nan : 255 * 2 ^ 23 < magnitude ↔ 31 * 2 ^ 10 < bits.toNat % 2 ^ 15)
    (infinite : magnitude = 255 * 2 ^ 23 ↔ bits.toNat % 2 ^ 15 = 31 * 2 ^ 10)
    (finite : bits.toNat % 2 ^ 15 < 31 * 2 ^ 10 →
      binary32.units magnitude = binary16.units (bits.toNat % 2 ^ 15) * 2 ^ 125) :
    SameNumber binary16 binary32 bits.toNat single.toNat := by
  have low : binary32.magnitude single.toNat = magnitude := by
    show single.toNat % 2 ^ 31 = magnitude
    omega
  refine SameNumber.of_units ?_ ?_ ?_ fun isFinite => ?_
  · rw [isNaN_iff, isNaN_iff, low]
    exact nan
  · rw [negative32_iff]
    show _ ↔ bits.toNat / 2 ^ 15 % 2 = 1
    omega
  · rw [isInfinite_iff, isInfinite_iff, low]
    exact infinite
  · rw [low, finite (binary16.isFinite_iff.mp isFinite), binary16_unit]
    rw [Nat.cast_mul, Nat.cast_pow, Nat.cast_ofNat, mul_assoc, mul_div_assoc',
      mul_div_cancel_left₀ _ (by norm_num)]
    rfl

/-- Half-precision words are exact in single precision, and the loop for subnormals ends. -/
theorem f16ToF32_same (bits : BitVec 16) {fuel : Nat} (enough : 10 < fuel) :
    ∃ single, f16ToF32 fuel bits = some single ∧
      SameNumber binary16 binary32 bits.toNat single.toNat := by
  have wide : (bits.setWidth 32).toNat = bits.toNat := by
    rw [BitVec.toNat_setWidth, Nat.mod_eq_of_lt (by omega)]
  have isSign : ((bits.setWidth 32 &&& 0x8000#32) <<< 16).toNat = bits.toNat / 2 ^ 15 * 2 ^ 31 := by
    have high := and_shiftLeft bits.toNat 1 15
    rw [Nat.and_one_is_mod, Nat.shiftLeft_eq, Nat.shiftLeft_eq, Nat.shiftRight_eq_div_pow] at high
    have bit : (bits.setWidth 32 &&& 0x8000#32).toNat = bits.toNat / 2 ^ 15 % 2 * 2 ^ 15 := by
      exact high
    rw [BitVec.toNat_shiftLeft, bit, Nat.shiftLeft_eq]
    omega
  have isExp : ((bits >>> 10).setWidth 32 &&& 0x1f#32).toNat = bits.toNat % 2 ^ 15 / 2 ^ 10 := by
    rw [show 0x1f#32 = BitVec.ofNat 32 (2 ^ 5 - 1) from rfl, toNat_and_low _ _ (by decide),
      BitVec.toNat_setWidth, BitVec.toNat_ushiftRight, Nat.shiftRight_eq_div_pow]
    omega
  have isMant : (bits.setWidth 32 &&& 0x3ff#32).toNat = bits.toNat % 2 ^ 10 := by
    rw [show 0x3ff#32 = BitVec.ofNat 32 (2 ^ 10 - 1) from rfl, toNat_and_low _ _ (by decide), wide]
  unfold f16ToF32
  generalize (bits.setWidth 32 &&& 0x8000#32) <<< 16 = sign at *
  generalize (bits >>> 10).setWidth 32 &&& 0x1f#32 = exp at *
  generalize bits.setWidth 32 &&& 0x3ff#32 = mant at *
  by_cases subnormal : exp = 0#32
  · rw [if_pos subnormal]
    have expZero : bits.toNat % 2 ^ 15 / 2 ^ 10 = 0 := by
      rw [← isExp, subnormal]
      rfl
    by_cases zero : mant = 0#32
    · rw [if_pos zero]
      have mantZero : bits.toNat % 2 ^ 10 = 0 := by
        rw [← isMant, zero]
        rfl
      refine ⟨sign, rfl, same_of_magnitude (isSign.trans (Nat.add_zero _).symm) (by decide)
        (by omega) (by omega) fun _ => ?_⟩
      rw [show bits.toNat % 2 ^ 15 = 0 by omega, units_zero, units_zero, Nat.zero_mul]
    · rw [if_neg zero]
      have positive : 0 < mant.toNat := Nat.pos_of_ne_zero fun none => zero (BitVec.toNat_inj.mp none)
      obtain ⟨count, few, normal, isNormal, leading, fits, runs⟩ :=
        normalize_eq mant 0#32 10 fuel enough positive (by omega) le_rfl
      rw [runs, Option.map_some]
      dsimp only
      have exponent : (127#32 - 15#32 + 1#32 - (0#32 + BitVec.ofNat 32 count)).toNat =
          113 - count := by
        have isCount : (0#32 + BitVec.ofNat 32 count).toNat = count := by
          rw [BitVec.zero_add, BitVec.toNat_ofNat, Nat.mod_eq_of_lt (by omega)]
        rw [show 127#32 - 15#32 + 1#32 = 113#32 from rfl, BitVec.toNat_sub_of_le, isCount]
        · rfl
        · rw [BitVec.le_def, isCount]
          show count ≤ 113
          omega
      have fraction : (normal &&& 0x3ff#32).toNat = normal.toNat - 2 ^ 10 := by
        rw [show 0x3ff#32 = BitVec.ofNat 32 (2 ^ 10 - 1) from rfl, toNat_and_low _ _ (by decide)]
        omega
      refine ⟨_, rfl, same_of_magnitude (toNat_fields isSign (by omega) (by omega)) (by omega)
        (by omega) (by omega) fun _ => ?_⟩
      rw [exponent, fraction, units_fields (by omega) (by omega),
        units_of_subnormal (by omega), show bits.toNat % 2 ^ 15 = mant.toNat by omega]
      have joined : 2 ^ 23 + (normal.toNat - 2 ^ 10) * 2 ^ 13 = normal.toNat * 2 ^ 13 := by omega
      calc (2 ^ 23 + (normal.toNat - 2 ^ 10) * 2 ^ 13) * 2 ^ (113 - count - 1)
          = normal.toNat * 2 ^ 13 * 2 ^ (112 - count) := by
            rw [joined, show 113 - count - 1 = 112 - count by omega]
        _ = mant.toNat * (2 ^ count * 2 ^ 13 * 2 ^ (112 - count)) := by
            rw [isNormal]
            ring
        _ = mant.toNat * 2 ^ 125 := by
            rw [← Nat.pow_add, ← Nat.pow_add, show count + 13 + (112 - count) = 125 by omega]
  · rw [if_neg subnormal]
    have expNonzero : bits.toNat % 2 ^ 15 / 2 ^ 10 ≠ 0 := by
      rw [← isExp]
      exact fun none => subnormal (BitVec.toNat_inj.mp none)
    by_cases special : exp = 31#32
    · rw [if_pos special]
      have expSpecial : bits.toNat % 2 ^ 15 / 2 ^ 10 = 31 := by
        rw [← isExp, special]
        rfl
      have isSingle : (sign ||| (255#32 <<< 23) ||| (mant <<< 13)).toNat =
          bits.toNat / 2 ^ 15 * 2 ^ 31 + (255 * 2 ^ 23 + mant.toNat * 2 ^ 13) :=
        toNat_fields isSign (by decide) (by omega)
      exact ⟨_, rfl, same_of_magnitude isSingle (by omega) (by omega) (by omega) (by omega)⟩
    · rw [if_neg special]
      have expOther : bits.toNat % 2 ^ 15 / 2 ^ 10 ≠ 31 := by
        rw [← isExp]
        exact fun same => special (BitVec.toNat_inj.mp same)
      have exponent : (exp + 127#32 - 15#32).toNat = bits.toNat % 2 ^ 15 / 2 ^ 10 + 112 := by
        simp only [BitVec.toNat_sub, BitVec.toNat_add, BitVec.toNat_ofNat, isExp]
        omega
      refine ⟨_, rfl, same_of_magnitude (toNat_fields isSign (by omega) (by omega)) (by omega)
        (by omega) (by omega) fun _ => ?_⟩
      rw [exponent, isMant, units_fields (by omega) (by omega)]
      obtain ⟨e, isE⟩ := Nat.exists_eq_succ_of_ne_zero expNonzero
      have units : binary16.units (bits.toNat % 2 ^ 15) =
          (2 ^ 10 + bits.toNat % 2 ^ 10) * 2 ^ e := by
        have low : bits.toNat % 2 ^ 15 % 2 ^ 10 = bits.toNat % 2 ^ 10 := by omega
        rw [BinaryFormat.units, show binary16.fractionBits = 10 from rfl, isE, low,
          if_neg (Nat.succ_ne_zero e), Nat.succ_sub_one]
      rw [units, isE, show e.succ + 112 - 1 = e + 112 by omega, Nat.pow_add]
      ring

/-- The conversions of a scatter's half-precision combines. To 16 bits they round to nearest even,
and map NaNs and only NaNs to NaNs; to 32 bits they are exact and end, and undo nothing. -/
theorem half_conversions :
    (∀ u : BitVec 32, RoundsToNearestEven binary32 binary16 u.toNat (f32ToF16 u).toNat) ∧
    (∀ u : BitVec 32, RoundsToNearestEven binary32 bfloat16 u.toNat (f32ToBf16 u).toNat) ∧
    (∀ (bits : BitVec 16) (fuel : Nat), 10 < fuel → ∃ single, f16ToF32 fuel bits = some single ∧
      SameNumber binary16 binary32 bits.toNat single.toNat ∧
      (¬binary16.IsNaN bits.toNat → f32ToF16 single = bits)) ∧
    (∀ bits : BitVec 16, SameNumber bfloat16 binary32 bits.toNat (bf16ToF32 bits).toNat ∧
      (¬bfloat16.IsNaN bits.toNat → f32ToBf16 (bf16ToF32 bits) = bits)) := by
  refine ⟨f32ToF16_rounds, f32ToBf16_rounds, fun bits fuel enough => ?_, fun bits => ?_⟩
  · obtain ⟨single, isSingle, same⟩ := f16ToF32_same bits enough
    exact ⟨single, isSingle, same, bits_eq rfl same (f32ToF16_rounds single)⟩
  · have same := bf16ToF32_same bits
    exact ⟨same, bits_eq rfl same (f32ToBf16_rounds _)⟩

theorem half_conversions_subnormal :
    10 < 11 ∧ ¬binary16.IsNaN (3#16).toNat ∧ ∃ single, f16ToF32 11 3#16 = some single ∧
      SameNumber binary16 binary32 (3#16).toNat single.toNat ∧ f32ToF16 single = 3#16 := by
  have numeric : ¬binary16.IsNaN (3#16).toNat := fun nan => absurd nan.1 (by decide)
  obtain ⟨single, isSingle, same, back⟩ := half_conversions.2.2.1 3#16 11 (by decide)
  exact ⟨by decide, numeric, single, isSingle, same, back numeric⟩

end Libtt.IndexedRows

import Mathlib.Data.BitVec
import Mathlib.Tactic.Ring
import Libtt.Sfpu.Unit

/-!
# Integer power

`pow_int32`, in one lane: square-and-multiply over the exponent's bits from the highest, with
multiplications put together from products of 23 bits. A branch of the source takes effect in the
lanes where its condition holds.
-/
namespace Libtt.Sfpu

/-- The halves of a product of 46 bits. -/
inductive FractionalHalf
  | low | high
  deriving DecidableEq, Repr

/-- `sfpi::fractional_mul`. -/
abbrev FractionalMul := Word → Word → FractionalHalf → Word

/-- It gives a half of the product of the operands' low 23 bits. -/
structure FractionalMul.Exact (fractionalMul : FractionalMul) : Prop where
  low : ∀ a b, (fractionalMul a b .low).toNat =
    a.toNat % 2 ^ 23 * (b.toNat % 2 ^ 23) % 2 ^ 23
  high : ∀ a b, (fractionalMul a b .high).toNat =
    a.toNat % 2 ^ 23 * (b.toNat % 2 ^ 23) / 2 ^ 23

section

variable (fractionalMul : FractionalMul)

/-- `mul_uint32_wrapping`. -/
def mulUint32Wrapping (a b : Word) : Word :=
  let high := fractionalMul (a >>> 23) b .low
  let high := high + fractionalMul a (b >>> 23) .low
  let high := high + fractionalMul a b .high
  fractionalMul a b .low + (high <<< 23)

/-- `square_uint32_wrapping`. -/
def squareUint32Wrapping (a : Word) : Word :=
  let cross := fractionalMul (a >>> 23) a .low
  let high := fractionalMul a a .high
  let high := high + (cross + cross)
  fractionalMul a a .low + (high <<< 23)

/-- A turn of the loop over the exponent's bits. -/
def powTurn (base : Word) (state : Word × Word) : Word × Word :=
  let (result, bits) := state
  let result := squareUint32Wrapping fractionalMul result
  let result := if bits.slt 0#32 then mulUint32Wrapping fractionalMul result base else result
  (result, bits <<< 1)

/-- `pow_int32`. -/
def powInt32 (isUnsigned : Bool) (base exponent : Word) : Word :=
  let result := ((powTurn fractionalMul base)^[32] (1#32, exponent)).1
  if !isUnsigned && exponent.slt 0#32 then
    if base = 1#32 then 1#32
    else if base = -1#32 then
      if exponent &&& 1#32 ≠ 0#32 then -1#32 else 1#32
    else 0#32
  else result

/-- A product modulo `whole` from those of the operands' parts below and above `part`. -/
theorem split_product {part whole : Nat} (divides : whole ∣ part * part) (a b : Nat) :
    a % part * (b % part) % part + (a / part % part * (b % part) % part +
      a % part * (b / part % part) % part + a % part * (b % part) / part) * part ≡
    a * b [MOD whole] := by
  -- a factor of `part` in front leaves what a product is modulo `part`
  have shifted {left right : Nat} (same : left ≡ right [MOD part]) :
      left * part ≡ right * part [MOD whole] :=
    (same.mul_right' part).of_dvd divides
  have upper : a / part % part * (b % part) % part ≡ a / part * (b % part) [MOD part] :=
    (Nat.mod_modEq _ _).trans ((Nat.mod_modEq _ _).mul_right _)
  have lower : a % part * (b / part % part) % part ≡ a % part * (b / part) [MOD part] :=
    (Nat.mod_modEq _ _).trans ((Nat.mod_modEq _ _).mul_left _)
  have cross := shifted (upper.add lower)
  have squares : a / part * (b / part) * (part * part) ≡ 0 [MOD whole] :=
    Nat.modEq_zero_iff_dvd.mpr (divides.mul_left _)
  have low := Nat.div_add_mod' (a % part * (b % part)) part
  have product : a * b = a % part * (b % part) + (a / part * (b % part) +
      a % part * (b / part)) * part + a / part * (b / part) * (part * part) := by
    conv_lhs => rw [← Nat.div_add_mod' a part, ← Nat.div_add_mod' b part]
    ring
  calc
    _ = a % part * (b % part) / part * part + a % part * (b % part) % part +
        (a / part % part * (b % part) % part + a % part * (b / part % part) % part) * part := by
      ring
    _ = a % part * (b % part) +
        (a / part % part * (b % part) % part + a % part * (b / part % part) % part) * part := by
      rw [low]
    _ ≡ a % part * (b % part) + (a / part * (b % part) + a % part * (b / part)) * part
        [MOD whole] := cross.add_left _
    _ ≡ a * b [MOD whole] := by
      rw [product]
      exact (squares.add_left _).symm

variable {fractionalMul} (exact : fractionalMul.Exact)
include exact

/-- `mul_uint32_wrapping` multiplies modulo 2 ^ 32. -/
theorem mulUint32Wrapping_eq (a b : Word) : mulUint32Wrapping fractionalMul a b = a * b := by
  apply BitVec.eq_of_toNat_eq
  have divides : 2 ^ 32 ∣ 2 ^ 23 * 2 ^ 23 := by norm_num
  have split := split_product divides a.toNat b.toNat
  simp only [mulUint32Wrapping, BitVec.toNat_add, BitVec.toNat_shiftLeft, BitVec.toNat_mul,
    exact.low, exact.high, BitVec.toNat_ushiftRight, Nat.shiftRight_eq_div_pow,
    Nat.shiftLeft_eq]
  rw [← split]
  simp only [Nat.add_mod, Nat.mul_mod, Nat.mod_mod]

/-- `square_uint32_wrapping` squares modulo 2 ^ 32. -/
theorem squareUint32Wrapping_eq (a : Word) : squareUint32Wrapping fractionalMul a = a * a := by
  rw [← mulUint32Wrapping_eq exact]
  have cross : fractionalMul a (a >>> 23) .low = fractionalMul (a >>> 23) a .low := by
    apply BitVec.eq_of_toNat_eq
    rw [exact.low, exact.low, Nat.mul_comm]
  simp only [squareUint32Wrapping, mulUint32Wrapping, cross]
  rw [BitVec.add_comm (fractionalMul a a .high)]

/-- After some turns the result is the base to the power that the exponent's highest bits make. -/
theorem powTurn_iterate (base exponent : Word) (turns : Nat) (most : turns ≤ 32) :
    (powTurn fractionalMul base)^[turns] (1#32, exponent) =
      (base ^ (exponent.toNat / 2 ^ (32 - turns)), exponent <<< turns) := by
  induction turns with
  | zero =>
    have none : exponent.toNat / 2 ^ 32 = 0 := Nat.div_eq_of_lt exponent.isLt
    rw [Function.iterate_zero, id, Nat.sub_zero, none, pow_zero, BitVec.shiftLeft_zero]
    rfl
  | succ turns ih =>
    have fewer : 32 - turns = 32 - (turns + 1) + 1 := by omega
    have halves : exponent.toNat / 2 ^ (32 - turns) =
        exponent.toNat / 2 ^ (32 - (turns + 1)) / 2 := by
      rw [fewer, Nat.pow_succ, Nat.div_div_eq_div_mul]
    -- the highest bit left is the next of the exponent
    have next : (exponent <<< turns).slt 0#32 =
        decide (exponent.toNat / 2 ^ (32 - (turns + 1)) % 2 = 1) := by
      rw [BitVec.slt_zero_eq_msb, BitVec.msb_eq_getLsbD_last, BitVec.getLsbD_shiftLeft,
        BitVec.getLsbD, Nat.testBit_eq_decide_div_mod_eq]
      have inside : 32 - 1 < 32 := by decide
      have above : ¬ 32 - 1 < turns := by omega
      simp only [inside, above, decide_true, decide_false, Bool.not_false, Bool.and_true,
        Bool.true_and, show 32 - 1 - turns = 32 - (turns + 1) by omega]
    rw [Function.iterate_succ_apply', ih (by omega)]
    generalize exponent.toNat / 2 ^ (32 - (turns + 1)) = leading at halves next
    have square : base ^ (leading / 2) * base ^ (leading / 2) = base ^ (leading / 2 * 2) := by
      rw [← pow_add, Nat.mul_two]
    simp only [powTurn, next, squareUint32Wrapping_eq exact, mulUint32Wrapping_eq exact, halves,
      square, BitVec.shiftLeft_add]
    congr 1
    by_cases odd : leading % 2 = 1
    · rw [if_pos (by simpa using odd), ← pow_succ]
      congr 1
      omega
    · rw [if_neg (by simpa using odd)]
      congr 1
      omega

/-- The loop leaves the base to the power of the exponent. -/
theorem powTurn_all (base exponent : Word) :
    ((powTurn fractionalMul base)^[32] (1#32, exponent)).1 = base ^ exponent.toNat := by
  rw [powTurn_iterate exact base exponent 32 (Nat.le_refl 32), Nat.sub_self, pow_zero, Nat.div_one]

end

/-- Powers of words are powers modulo 2 ^ 32. -/
theorem toNat_pow (base : Word) (exponent : Nat) :
    (base ^ exponent).toNat = base.toNat ^ exponent % 2 ^ 32 := by
  induction exponent with
  | zero =>
    rfl
  | succ exponent ih =>
    rw [pow_succ, pow_succ, BitVec.toNat_mul, ih, Nat.mod_mul_mod]

/-- A signed word is negative where its comparison with zero says so. -/
theorem slt_zero_iff (word : Word) : word.slt 0#32 = true ↔ word.toInt < 0 := by
  rw [BitVec.slt_iff_toInt_lt, BitVec.toInt_zero]

/-- The lowest bit of a signed word is its parity. -/
theorem lowBit_iff (word : Word) : word &&& 1#32 ≠ 0#32 ↔ ¬Even word.toInt := by
  have low : (word &&& 1#32).toNat = word.toNat % 2 := by
    exact Nat.and_one_is_mod _
  have parity : word.toInt % 2 = (word.toNat % 2 : Nat) := by
    rw [BitVec.toInt_eq_toNat_cond]
    split <;> omega
  rw [Int.even_iff, parity, ne_eq, ← BitVec.toNat_inj, low, BitVec.toNat_zero]
  omega

/-- Integer power is exact modulo 2 ^ 32; a negative exponent gives 1 for a base of 1, 1 or -1 for
a base of -1, and 0 for any other. -/
theorem pow_int32 (fractionalMul : FractionalMul) (exact : fractionalMul.Exact)
    (base exponent : Word) :
    (powInt32 fractionalMul true base exponent).toNat =
        base.toNat ^ exponent.toNat % 2 ^ 32 ∧
      (0 ≤ exponent.toInt → (powInt32 fractionalMul false base exponent).toNat =
        base.toNat ^ exponent.toNat % 2 ^ 32) ∧
      (exponent.toInt < 0 → (powInt32 fractionalMul false base exponent).toInt =
        if base.toInt = 1 then 1
        else if base.toInt = -1 then (if Even exponent.toInt then 1 else -1) else 0) := by
  refine ⟨?_, fun nonnegative => ?_, fun negative => ?_⟩
  · rw [powInt32, powTurn_all exact, Bool.not_true, Bool.false_and, if_neg (by decide),
      toNat_pow]
  · have notLess : exponent.slt 0#32 = false := by
      rw [Bool.eq_false_iff, ne_eq, slt_zero_iff]
      omega
    rw [powInt32, powTurn_all exact, notLess, Bool.and_false, if_neg (by decide),
      toNat_pow]
  · have less := (slt_zero_iff exponent).mpr negative
    have one : base = 1#32 ↔ base.toInt = 1 := by rw [← BitVec.toInt_inj]; rfl
    have minusOne : base = -1#32 ↔ base.toInt = -1 := by rw [← BitVec.toInt_inj]; rfl
    rw [powInt32, less, Bool.not_false, Bool.true_and, if_pos rfl]
    simp only [one, minusOne, lowBit_iff]
    split_ifs <;> rfl

/-- Products of 23 bits and their halves. -/
def fractionalMulHalves : FractionalMul := fun a b half =>
  let product := a.toNat % 2 ^ 23 * (b.toNat % 2 ^ 23)
  BitVec.ofNat 32 (if half = .low then product % 2 ^ 23 else product / 2 ^ 23)

theorem fractionalMulHalves_exact : fractionalMulHalves.Exact := by
  constructor <;> intro a b
  · have small : a.toNat % 2 ^ 23 * (b.toNat % 2 ^ 23) % 2 ^ 23 < 2 ^ 32 :=
      Nat.lt_trans (Nat.mod_lt _ (by norm_num)) (Nat.pow_lt_pow_right (by decide) (by decide))
    rw [fractionalMulHalves, if_pos rfl, BitVec.toNat_ofNat, Nat.mod_eq_of_lt small]
  · have bound : a.toNat % 2 ^ 23 * (b.toNat % 2 ^ 23) < 2 ^ 23 * 2 ^ 23 :=
      Nat.mul_lt_mul'' (Nat.mod_lt _ (by norm_num)) (Nat.mod_lt _ (by norm_num))
    have small : a.toNat % 2 ^ 23 * (b.toNat % 2 ^ 23) / 2 ^ 23 < 2 ^ 32 :=
      Nat.lt_trans (Nat.div_lt_of_lt_mul bound) (Nat.pow_lt_pow_right (by decide) (by decide))
    rw [fractionalMulHalves, if_neg (by decide), BitVec.toNat_ofNat, Nat.mod_eq_of_lt small]

theorem pow_int32_seven : fractionalMulHalves.Exact ∧
      (powInt32 fractionalMulHalves true 7#32 13#32).toNat = 7 ^ 13 % 2 ^ 32 ∧
      (powInt32 fractionalMulHalves false (-1#32) (-3#32)).toInt = -1 := by
  obtain ⟨isUnsigned, -, -⟩ := pow_int32 fractionalMulHalves fractionalMulHalves_exact 7#32 13#32
  obtain ⟨-, -, negative⟩ := pow_int32 fractionalMulHalves fractionalMulHalves_exact (-1#32) (-3#32)
  have odd : ¬Even (-3#32).toInt := by decide
  refine ⟨fractionalMulHalves_exact, isUnsigned, (negative (by decide)).trans ?_⟩
  rw [if_neg (by decide), if_pos (by decide), if_neg odd]

end Libtt.Sfpu

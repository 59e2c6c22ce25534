import Mathlib.Algebra.Order.Ring.WithTop
import Mathlib.Data.Int.ConditionallyCompleteOrder
import Libtt.Foundation.BinaryFloat

/-!
# The order of floats

A float that is no NaN is a number or an infinity. Floats are ordered by these, and -0, which is the
number +0 is, comes before it.
-/
namespace Libtt.Foundation.BinaryFormat

variable (format : BinaryFormat)

instance (encoding : Nat) : Decidable (format.IsInfinite encoding) :=
  inferInstanceAs (Decidable (_ ∧ _))

instance (encoding : Nat) : Decidable (format.IsNaN encoding) :=
  inferInstanceAs (Decidable (_ ∧ _))

/-- The number or the infinity that a float is. -/
def extended (encoding : Nat) : WithBot (WithTop ℚ) :=
  if format.IsInfinite encoding then if format.Negative encoding then ⊥ else ((⊤ : WithTop ℚ) :)
  else ((format.value encoding : WithTop ℚ) :)

/-- Not above: less as a number, or the same one and not +0 where the other is -0. -/
def AtMost (left right : Nat) : Prop :=
  format.extended left < format.extended right ∨
    format.extended left = format.extended right ∧ (format.Negative left ∨ ¬format.Negative right)

/-- The magnitude with the float's sign. -/
def signedMagnitude (encoding : Nat) : ℤ :=
  if format.Negative encoding then -format.magnitude encoding else format.magnitude encoding

/-- A signed magnitude in units of the least subnormal number. -/
def signedUnits (magnitude : ℤ) : ℤ :=
  if magnitude < 0 then -format.units magnitude.natAbs else format.units magnitude.natAbs

theorem signedUnits_strictMono : StrictMono format.signedUnits := by
  intro left right less
  have grows {low high : Nat} (below : low < high) : format.units low < format.units high :=
    format.units_strictMono below
  unfold signedUnits
  split <;> split
  · have units := grows (show right.natAbs < left.natAbs by omega)
    omega
  · have units := grows (show 0 < left.natAbs by omega)
    omega
  · omega
  · have units := grows (show left.natAbs < right.natAbs by omega)
    omega

/-- What a signed magnitude stands for. -/
def ofSigned (magnitude : ℤ) : WithBot (WithTop ℚ) :=
  if magnitude.natAbs = format.infinity then if magnitude < 0 then ⊥ else ((⊤ : WithTop ℚ) :)
  else ((format.signedUnits magnitude * format.unit : ℚ) : WithTop ℚ)

theorem extended_eq (encoding : Nat) :
    format.extended encoding = format.ofSigned (format.signedMagnitude encoding) := by
  have same : (format.signedMagnitude encoding).natAbs = format.magnitude encoding := by
    unfold signedMagnitude
    split <;> omega
  have positive := format.infinity_pos
  rw [extended, ofSigned, same]
  by_cases infinite : format.magnitude encoding = format.infinity
  · rw [if_pos (format.isInfinite_iff.mpr infinite), if_pos infinite]
    by_cases negative : format.Negative encoding
    · rw [if_pos negative, if_pos]
      rw [signedMagnitude, if_pos negative]
      omega
    · rw [if_neg negative, if_neg]
      rw [signedMagnitude, if_neg negative]
      omega
  · rw [if_neg (mt format.isInfinite_iff.mp infinite), if_neg infinite, value_eq]
    have units : (format.signedUnits (format.signedMagnitude encoding) : ℚ) =
        (if format.Negative encoding then -1 else 1) *
          format.units (format.magnitude encoding) := by
      rw [signedUnits, same]
      by_cases negative : format.Negative encoding
      · rw [signedMagnitude, if_pos negative, if_pos negative]
        by_cases zero : format.magnitude encoding = 0
        · simp [zero, units_zero]
        · rw [if_pos (by omega)]
          push_cast
          ring
      · rw [signedMagnitude, if_neg negative, if_neg negative, if_neg (by omega)]
        push_cast
        ring
    rw [units]

theorem ofSigned_lt {left right : ℤ} (leftMost : left.natAbs ≤ format.infinity)
    (rightMost : right.natAbs ≤ format.infinity) (less : left < right) :
    format.ofSigned left < format.ofSigned right := by
  have positive := format.infinity_pos
  unfold ofSigned
  by_cases leftInfinite : left.natAbs = format.infinity
  · rw [if_pos leftInfinite, if_pos (by omega)]
    by_cases rightInfinite : right.natAbs = format.infinity
    · rw [if_pos rightInfinite, if_neg (by omega)]
      exact WithBot.bot_lt_coe _
    · rw [if_neg rightInfinite]
      exact WithBot.bot_lt_coe _
  rw [if_neg leftInfinite]
  by_cases rightInfinite : right.natAbs = format.infinity
  · rw [if_pos rightInfinite, if_neg (by omega), WithBot.coe_lt_coe]
    exact WithTop.coe_lt_top _
  · rw [if_neg rightInfinite, WithBot.coe_lt_coe, WithTop.coe_lt_coe]
    exact mul_lt_mul_of_pos_right (Int.cast_lt.mpr (format.signedUnits_strictMono less))
      format.unit_pos

variable {left right : Nat}

theorem signedMagnitude_le (numeric : ¬format.IsNaN left) :
    (format.signedMagnitude left).natAbs ≤ format.infinity := by
  rw [isNaN_iff] at numeric
  unfold signedMagnitude
  split <;> omega

/-- Floats that are no NaNs compare by their signed magnitudes. -/
theorem extended_lt_iff (leftNumeric : ¬format.IsNaN left) (rightNumeric : ¬format.IsNaN right) :
    format.extended left < format.extended right ↔
      format.signedMagnitude left < format.signedMagnitude right := by
  have leftMost := format.signedMagnitude_le leftNumeric
  have rightMost := format.signedMagnitude_le rightNumeric
  rw [extended_eq, extended_eq]
  rcases lt_trichotomy (format.signedMagnitude left) (format.signedMagnitude right) with
    less | same | greater
  · exact iff_of_true (format.ofSigned_lt leftMost rightMost less) less
  · rw [same]
    exact iff_of_false (lt_irrefl _) (lt_irrefl _)
  · exact iff_of_false (format.ofSigned_lt rightMost leftMost greater).asymm greater.asymm

theorem extended_eq_iff (leftNumeric : ¬format.IsNaN left) (rightNumeric : ¬format.IsNaN right) :
    format.extended left = format.extended right ↔
      format.signedMagnitude left = format.signedMagnitude right := by
  constructor
  · intro same
    have notLess := mt (format.extended_lt_iff leftNumeric rightNumeric).mpr same.not_lt
    have notGreater := mt (format.extended_lt_iff rightNumeric leftNumeric).mpr same.not_gt
    omega
  · intro same
    rw [extended_eq, extended_eq, same]

/-- The place of a float in the order. -/
def rank (encoding : Nat) : ℤ :=
  if format.Negative encoding then -format.magnitude encoding - 1 else format.magnitude encoding

theorem atMost_iff (leftNumeric : ¬format.IsNaN left) (rightNumeric : ¬format.IsNaN right) :
    format.AtMost left right ↔ format.rank left ≤ format.rank right := by
  rw [AtMost, format.extended_lt_iff leftNumeric rightNumeric,
    format.extended_eq_iff leftNumeric rightNumeric, signedMagnitude, signedMagnitude, rank, rank]
  split <;> split <;> rename_i leftSign rightSign <;>
    simp only [leftSign, rightSign, not_true, not_false_eq_true, or_true, or_false, and_true,
      and_false] <;> omega

/-- Floats of one place are one float. -/
theorem eq_of_rank (leftLess : left < 2 ^ (format.exponentBits + format.fractionBits + 1))
    (rightLess : right < 2 ^ (format.exponentBits + format.fractionBits + 1))
    (same : format.rank left = format.rank right) : left = right := by
  have signBit {encoding : Nat}
      (less : encoding < 2 ^ (format.exponentBits + format.fractionBits + 1)) :
      encoding / 2 ^ (format.exponentBits + format.fractionBits) < 2 :=
    Nat.div_lt_of_lt_mul (less.trans_eq (Nat.pow_succ ..))
  have signs : format.Negative left ↔ format.Negative right := by
    unfold rank at same
    split at same <;> split at same <;> rename_i isLeft isRight <;>
      simp only [isLeft, isRight] <;> omega
  have magnitudes : format.magnitude left = format.magnitude right := by
    rw [rank, rank] at same
    simp only [signs] at same
    split at same <;> omega
  have high : left / 2 ^ (format.exponentBits + format.fractionBits) =
      right / 2 ^ (format.exponentBits + format.fractionBits) := by
    rw [Negative, Negative, Nat.mod_eq_of_lt (signBit leftLess),
      Nat.mod_eq_of_lt (signBit rightLess)] at signs
    have leftBit := signBit leftLess
    have rightBit := signBit rightLess
    generalize left / 2 ^ (format.exponentBits + format.fractionBits) = leftHigh at *
    generalize right / 2 ^ (format.exponentBits + format.fractionBits) = rightHigh at *
    omega
  rw [← Nat.div_add_mod left (2 ^ (format.exponentBits + format.fractionBits)), high]
  exact (congrArg (_ + ·) magnitudes).trans (Nat.div_add_mod right _)

/-- Floats that are one number or one infinity are ordered alike in either format. -/
theorem SameNumber.extended {source target : BinaryFormat} {original result : Nat}
    (same : SameNumber source target original result) (numeric : ¬source.IsNaN original) :
    target.extended result = source.extended original := by
  unfold BinaryFormat.extended
  by_cases infinite : source.IsInfinite original
  · rw [if_pos infinite, if_pos (same.infinite.mpr infinite)]
    simp only [same.sign]
  · rw [if_neg infinite, if_neg (mt same.infinite.mp infinite),
      same.finite ((source.finite_or_infinite numeric).resolve_right infinite)]

theorem SameNumber.atMost_iff {source target : BinaryFormat} {left right left' right' : Nat}
    (leftSame : SameNumber source target left left')
    (rightSame : SameNumber source target right right') (leftNumeric : ¬source.IsNaN left)
    (rightNumeric : ¬source.IsNaN right) :
    target.AtMost left' right' ↔ source.AtMost left right := by
  unfold AtMost
  rw [leftSame.extended leftNumeric, rightSame.extended rightNumeric, leftSame.sign,
    rightSame.sign]

namespace RoundsToNearestEven

variable {source target : BinaryFormat} {left right left' right' : Nat}
  (leftRounds : RoundsToNearestEven source target left left')
  (rightRounds : RoundsToNearestEven source target right right')
  (leftNumeric : ¬source.IsNaN left) (rightNumeric : ¬source.IsNaN right)
include leftRounds rightRounds leftNumeric rightNumeric

/-- Of two numbers on one side of zero the nearer to zero is not rounded further away: else both
would be half way between the two results, and they are different. -/
theorem magnitude_le (signs : source.Negative left ↔ source.Negative right)
    (less : source.magnitude left < source.magnitude right) :
    target.magnitude left' ≤ target.magnitude right' := by
  by_contra! greater
  have most := mt leftRounds.nan.mp leftNumeric
  rw [isNaN_iff] at most
  have rightFinite' : target.IsFinite right' := by
    rw [isFinite_iff]
    omega
  have notInfinite : ¬target.IsInfinite right' := by
    rw [isInfinite_iff]
    omega
  have rightFinite : source.IsFinite right := (source.finite_or_infinite rightNumeric).resolve_right
    (mt rightRounds.infinite notInfinite)
  have leftFinite : source.IsFinite left := by
    rw [isFinite_iff] at rightFinite ⊢
    omega
  have rightBelow := not_le.mp (mt (rightRounds.overflows rightFinite) notInfinite)
  have grows {format : BinaryFormat} {low high : Nat}
      (below : format.magnitude low < format.magnitude high) :
      |format.value low| < |format.value high| := by
    rw [abs_value, abs_value]
    exact mul_lt_mul_of_pos_right (Nat.cast_lt.mpr (format.units_strictMono below)) format.unit_pos
  have numbers := grows less
  have results := grows greater
  have leftNearest := leftRounds.nearest leftFinite (numbers.trans rightBelow)
  have rightNearest := rightRounds.nearest rightFinite rightBelow
  have leftCloser := sq_le_sq.mpr (leftNearest.2 right' rightFinite').1
  have rightCloser := sq_le_sq.mpr (rightNearest.2 left' leftNearest.1).1
  have signed (format : BinaryFormat) (encoding : Nat) : format.value encoding =
      (if format.Negative encoding then -1 else 1) * |format.value encoding| := by
    rw [abs_value, ← mul_assoc]
    exact format.value_eq encoding
  rw [signed target left', signed target right', signed source left] at leftCloser
  rw [signed target left', signed target right', signed source right] at rightCloser
  simp only [leftRounds.sign leftNumeric, rightRounds.sign rightNumeric, signs, ← mul_sub,
    mul_pow] at leftCloser rightCloser
  have product := mul_pos (sub_pos.mpr numbers) (sub_pos.mpr results)
  split at leftCloser <;> rename_i sign <;> simp only [sign, if_true, if_false] at rightCloser <;>
    nlinarith only [leftCloser, rightCloser, product]

/-- Rounding keeps the order, also of zeros and infinities. -/
theorem atMost (alike : source.rank left = source.rank right → left' = right')
    (ordered : source.AtMost left right) : target.AtMost left' right' := by
  rw [target.atMost_iff (mt leftRounds.nan.mp leftNumeric) (mt rightRounds.nan.mp rightNumeric)]
  rw [source.atMost_iff leftNumeric rightNumeric] at ordered
  rcases ordered.eq_or_lt with same | less
  · rw [alike same]
  have leftSign := leftRounds.sign leftNumeric
  have rightSign := rightRounds.sign rightNumeric
  unfold rank at less ⊢
  simp only [leftSign, rightSign]
  by_cases leftNegative : source.Negative left
  · by_cases rightNegative : source.Negative right
    · have magnitudes := magnitude_le rightRounds leftRounds rightNumeric leftNumeric
        (iff_of_true rightNegative leftNegative)
        (by simp only [leftNegative, rightNegative, if_true] at less; omega)
      simp only [leftNegative, rightNegative, if_true]
      omega
    · simp only [leftNegative, rightNegative, if_true, if_false]
      omega
  · have rightPositive : ¬source.Negative right := fun rightNegative => by
      simp only [leftNegative, rightNegative, if_true, if_false] at less
      omega
    have magnitudes := magnitude_le leftRounds rightRounds leftNumeric rightNumeric
      (iff_of_false leftNegative rightPositive)
      (by simp only [leftNegative, rightPositive, if_false] at less; omega)
    simp only [leftNegative, rightPositive, if_false]
    omega

end RoundsToNearestEven

end Libtt.Foundation.BinaryFormat

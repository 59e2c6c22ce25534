import Mathlib.Algebra.Order.Field.Basic
import Mathlib.Algebra.Order.Field.Power
import Mathlib.Tactic.FieldSimp
import Mathlib.Tactic.Linarith
import Libtt.Foundation.FloatUnits

/-!
# Binary interchange formats

A float is its encoding: a sign bit, a biased exponent and a fraction.
-/
namespace Libtt.Foundation

/-- A binary interchange format of IEEE 754. -/
structure BinaryFormat where
  exponentBits : Nat
  fractionBits : Nat
  exponentBits_two : 2 ≤ exponentBits
  fractionBits_pos : 0 < fractionBits

namespace BinaryFormat

variable (format : BinaryFormat)

def binary16 : BinaryFormat := ⟨5, 10, by decide, by decide⟩
def binary32 : BinaryFormat := ⟨8, 23, by decide, by decide⟩
def bfloat16 : BinaryFormat := ⟨8, 7, by decide, by decide⟩

def bias : Nat := 2 ^ (format.exponentBits - 1) - 1

/-- The exponent field of infinities and NaNs. -/
def specialExponent : Nat := 2 ^ format.exponentBits - 1

/-- The encoding of a float without its sign. -/
def magnitude (encoding : Nat) : Nat :=
  encoding % 2 ^ (format.exponentBits + format.fractionBits)

def Negative (encoding : Nat) : Prop :=
  encoding / 2 ^ (format.exponentBits + format.fractionBits) % 2 = 1

def exponent (encoding : Nat) : Nat := format.magnitude encoding / 2 ^ format.fractionBits
def fraction (encoding : Nat) : Nat := format.magnitude encoding % 2 ^ format.fractionBits

def IsNaN (encoding : Nat) : Prop :=
  format.exponent encoding = format.specialExponent ∧ format.fraction encoding ≠ 0

def IsInfinite (encoding : Nat) : Prop :=
  format.exponent encoding = format.specialExponent ∧ format.fraction encoding = 0

def IsFinite (encoding : Nat) : Prop := format.exponent encoding < format.specialExponent

instance (encoding : Nat) : Decidable (format.Negative encoding) :=
  inferInstanceAs (Decidable (_ = _))

/-- The significand, as an integer: subnormal numbers have no implicit one. -/
def significand (encoding : Nat) : Nat :=
  if format.exponent encoding = 0 then format.fraction encoding
  else 2 ^ format.fractionBits + format.fraction encoding

/-- The number that a finite encoding stands for. -/
def value (encoding : Nat) : ℚ :=
  (if format.Negative encoding then -1 else 1) * format.significand encoding *
    2 ^ ((max (format.exponent encoding) 1 : ℤ) - format.bias - format.fractionBits)

/-- The least magnitude that rounds to infinity: `2 ^ emax * (2 - 2 ^ (-fractionBits) / 2)`. -/
def overflow : ℚ := 2 ^ (format.bias : ℤ) * (2 - 2 ^ (-(format.fractionBits : ℤ)) / 2)

/-- A finite encoding nearest to a number; of two, the one with the even significand. -/
def Nearest (number : ℚ) (encoding : Nat) : Prop :=
  format.IsFinite encoding ∧ ∀ other, format.IsFinite other →
    |format.value encoding - number| ≤ |format.value other - number| ∧
    (|format.value encoding - number| = |format.value other - number| →
      format.value other = format.value encoding ∨ format.significand encoding % 2 = 0)

/-- `roundTiesToEven`: a float of one format, and the float of another that it is rounded to. -/
structure RoundsToNearestEven (source target : BinaryFormat) (original result : Nat) : Prop where
  nan : target.IsNaN result ↔ source.IsNaN original
  sign : ¬source.IsNaN original → (target.Negative result ↔ source.Negative original)
  infinite : source.IsInfinite original → target.IsInfinite result
  overflows : source.IsFinite original → target.overflow ≤ |source.value original| →
    target.IsInfinite result
  nearest : source.IsFinite original → |source.value original| < target.overflow →
    target.Nearest (source.value original) result

/-- Two floats that are the same number, the same infinity, or NaNs. -/
structure SameNumber (source target : BinaryFormat) (original result : Nat) : Prop where
  nan : target.IsNaN result ↔ source.IsNaN original
  sign : target.Negative result ↔ source.Negative original
  infinite : target.IsInfinite result ↔ source.IsInfinite original
  finite : source.IsFinite original → target.value result = source.value original

/-- The least subnormal number. -/
def unit : ℚ := 2 ^ ((1 : ℤ) - format.bias - format.fractionBits)

/-- A magnitude in units of the least subnormal number. -/
def units (magnitude : Nat) : Nat :=
  if magnitude / 2 ^ format.fractionBits = 0 then magnitude % 2 ^ format.fractionBits
  else (2 ^ format.fractionBits + magnitude % 2 ^ format.fractionBits) *
    2 ^ (magnitude / 2 ^ format.fractionBits - 1)

theorem unit_pos : 0 < format.unit := zpow_pos (by norm_num) _

/-- The encoding of infinity. -/
def infinity : Nat := format.specialExponent * 2 ^ format.fractionBits

theorem specialExponent_eq : format.specialExponent = 2 * format.bias + 1 := by
  have two := format.exponentBits_two
  have double : 2 ^ format.exponentBits = 2 * 2 ^ (format.exponentBits - 1) := by
    rw [← Nat.pow_succ']
    congr 1
    omega
  have positive := Nat.two_pow_pos (format.exponentBits - 1)
  unfold specialExponent bias
  omega

theorem bias_pos : 0 < format.bias := by
  have more : 2 ^ 1 ≤ 2 ^ (format.exponentBits - 1) :=
    Nat.pow_le_pow_right (by decide) (by have := format.exponentBits_two; omega)
  unfold bias
  omega

theorem magnitude_lt (encoding : Nat) :
    format.magnitude encoding < 2 ^ (format.exponentBits + format.fractionBits) :=
  Nat.mod_lt _ (Nat.two_pow_pos _)

theorem isFinite_iff {encoding : Nat} :
    format.IsFinite encoding ↔ format.magnitude encoding < format.infinity :=
  Nat.div_lt_iff_lt_mul (Nat.two_pow_pos _)

theorem isInfinite_iff {encoding : Nat} :
    format.IsInfinite encoding ↔ format.magnitude encoding = format.infinity := by
  have whole := Nat.div_add_mod (format.magnitude encoding) (2 ^ format.fractionBits)
  constructor
  · rintro ⟨exponent, fraction⟩
    rw [← whole, infinity, ← exponent, Nat.mul_comm]
    exact (congrArg (_ + ·) fraction).trans (Nat.add_zero _)
  · intro same
    refine ⟨?_, ?_⟩
    · rw [exponent, same, infinity, Nat.mul_div_cancel _ (Nat.two_pow_pos _)]
    · rw [fraction, same, infinity, Nat.mul_mod_left]

theorem isNaN_iff {encoding : Nat} :
    format.IsNaN encoding ↔ format.infinity < format.magnitude encoding := by
  have below : format.exponent encoding ≤ format.specialExponent := by
    have fits := format.magnitude_lt encoding
    rw [Nat.pow_add] at fits
    have less := (Nat.div_lt_iff_lt_mul (Nat.two_pow_pos format.fractionBits)).mpr fits
    unfold exponent specialExponent
    omega
  have finite : format.exponent encoding < format.specialExponent ↔ _ := format.isFinite_iff
  have infinite : (format.exponent encoding = _ ∧ format.fraction encoding = 0) ↔ _ :=
    format.isInfinite_iff
  unfold IsNaN
  omega

theorem units_succ (magnitude : Nat) : format.units (magnitude + 1) =
    format.units magnitude + 2 ^ (magnitude / 2 ^ format.fractionBits - 1) :=
  floatUnits_succ format.fractionBits magnitude

theorem units_strictMono : StrictMono format.units := floatUnits_strictMono format.fractionBits

theorem units_zero : format.units 0 = 0 := by simp [units]

theorem value_eq (encoding : Nat) : format.value encoding =
    (if format.Negative encoding then -1 else 1) * format.units (format.magnitude encoding) *
      format.unit := by
  rw [value, mul_assoc, mul_assoc]
  congr 1
  unfold significand units unit fraction exponent
  split
  · rename_i zero
    rw [zero]
    simp
  · rename_i positive
    obtain ⟨e, isE⟩ := Nat.exists_eq_succ_of_ne_zero positive
    rw [isE, Nat.succ_sub_one, Nat.cast_mul, Nat.cast_pow, mul_assoc, Nat.cast_ofNat,
      ← zpow_natCast, ← zpow_add₀ (by norm_num)]
    congr 2
    rw [max_eq_left (by omega)]
    push_cast
    ring

theorem abs_value (encoding : Nat) :
    |format.value encoding| = format.units (format.magnitude encoding) * format.unit := by
  have positive : 0 ≤ (format.units (format.magnitude encoding) : ℚ) * format.unit :=
    mul_nonneg (Nat.cast_nonneg _) format.unit_pos.le
  rw [value_eq]
  split
  · rw [neg_one_mul, neg_mul, abs_neg, abs_of_nonneg positive]
  · rw [one_mul, abs_of_nonneg positive]

/-- Floats of one sign and one magnitude are one number. -/
theorem SameNumber.of_units {source target : BinaryFormat} {original result : Nat}
    (nan : target.IsNaN result ↔ source.IsNaN original)
    (sign : target.Negative result ↔ source.Negative original)
    (infinite : target.IsInfinite result ↔ source.IsInfinite original)
    (finite : source.IsFinite original →
      (target.units (target.magnitude result) : ℚ) * target.unit =
        source.units (source.magnitude original) * source.unit) :
    SameNumber source target original result := by
  refine ⟨nan, sign, infinite, fun isFinite => ?_⟩
  rw [value_eq, value_eq, mul_assoc, finite isFinite, ← mul_assoc]
  simp only [sign]

theorem infinity_pos : 0 < format.infinity := by
  have special := format.specialExponent_eq
  exact Nat.mul_pos (by omega) (Nat.two_pow_pos _)

theorem infinity_even : format.infinity % 2 = 0 := by
  obtain ⟨more, isMore⟩ := Nat.exists_eq_succ_of_ne_zero format.fractionBits_pos.ne'
  rw [infinity, isMore, Nat.pow_succ, ← Nat.mul_assoc, Nat.mul_mod_left]

/-- The greatest finite magnitude and the next encoding have `overflow` in their middle. -/
theorem overflow_eq {largest : Nat} (isLargest : largest + 1 = format.infinity) :
    2 * format.overflow = (format.units largest + format.units (largest + 1)) * format.unit := by
  have special := format.specialExponent_eq
  have bias := format.bias_pos
  have powers := Nat.two_pow_pos format.fractionBits
  have atInfinity : format.units (largest + 1) =
      2 ^ format.fractionBits * 2 ^ (2 * format.bias) := by
    rw [isLargest, units, infinity, Nat.mul_div_cancel _ powers, Nat.mul_mod_left, special,
      if_neg (Nat.succ_ne_zero _), Nat.add_zero, Nat.add_sub_cancel]
  have high : largest / 2 ^ format.fractionBits = 2 * format.bias := by
    have split : largest = 2 * format.bias * 2 ^ format.fractionBits +
        (2 ^ format.fractionBits - 1) := by
      rw [infinity, special, Nat.succ_mul] at isLargest
      omega
    rw [split, Nat.mul_comm, Nat.mul_add_div powers, Nat.div_eq_of_lt (by omega), Nat.add_zero]
  have gap := format.units_succ largest
  rw [high] at gap
  have spread : (format.units largest : ℚ) =
      2 ^ format.fractionBits * 2 ^ (2 * format.bias) - 2 ^ (2 * format.bias - 1) := by
    rw [eq_sub_iff_add_eq]
    exact_mod_cast gap.symm.trans atInfinity
  have ulp : (2 : ℚ) ^ (2 * format.bias - 1) = 2 ^ format.bias * 2 ^ format.bias / 2 := by
    rw [eq_div_iff (by norm_num), ← pow_succ, ← pow_add]
    congr 1
    omega
  have scale : format.unit = 2 / (2 ^ format.bias * 2 ^ format.fractionBits) := by
    rw [unit, zpow_sub₀ (by norm_num), zpow_sub₀ (by norm_num), zpow_one, zpow_natCast,
      zpow_natCast, div_div]
  rw [spread, atInfinity, overflow, ulp, scale, zpow_neg, zpow_natCast, zpow_natCast]
  push_cast
  field_simp
  ring

theorem significand_even (encoding : Nat) :
    format.significand encoding % 2 = format.magnitude encoding % 2 := by
  obtain ⟨more, isMore⟩ := Nat.exists_eq_succ_of_ne_zero format.fractionBits_pos.ne'
  have low : format.fraction encoding % 2 = format.magnitude encoding % 2 := by
    rw [fraction, isMore, Nat.pow_succ, Nat.mod_mul_left_mod]
  unfold significand
  split
  · exact low
  · rw [isMore, Nat.pow_succ, Nat.mul_add_mod_self_right, low]

/-- The neighbour that a number of units above `floor` is rounded to. -/
def roundUp (number : ℚ) (floor : Nat) : Nat :=
  if (format.units floor + format.units (floor + 1) : ℚ) < 2 * number ∨
      (format.units floor + format.units (floor + 1) : ℚ) = 2 * number ∧ floor % 2 = 1 then
    floor + 1
  else floor

theorem roundUp_nearest {number : ℚ} {floor : Nat} (low : format.units floor ≤ number)
    (high : number ≤ format.units (floor + 1)) (other : Nat) :
    |(format.units (format.roundUp number floor) : ℚ) - number| ≤ |format.units other - number| ∧
    (|(format.units (format.roundUp number floor) : ℚ) - number| = |format.units other - number| →
      other = format.roundUp number floor ∨ format.roundUp number floor % 2 = 0) := by
  have mono := format.units_strictMono.monotone
  have apart : other ≤ floor ∨ floor + 1 ≤ other := by omega
  have below : ∀ m ≤ floor, |(format.units m : ℚ) - number| = number - format.units m :=
    fun m less => by
      have units : (format.units m : ℚ) ≤ format.units floor := Nat.cast_le.mpr (mono less)
      rw [abs_of_nonpos (by linarith), neg_sub]
  have above : ∀ m, floor + 1 ≤ m → |(format.units m : ℚ) - number| = format.units m - number :=
    fun m less => by
      have units : (format.units (floor + 1) : ℚ) ≤ format.units m := Nat.cast_le.mpr (mono less)
      rw [abs_of_nonneg (by linarith)]
  have same : ∀ m, (format.units other : ℚ) = format.units m → other = m :=
    fun m equal => format.units_strictMono.injective (Nat.cast_injective equal)
  unfold roundUp
  split
  · rename_i up
    rw [above _ le_rfl]
    rcases apart with less | more
    · have units : (format.units other : ℚ) ≤ format.units floor := Nat.cast_le.mpr (mono less)
      rw [below _ less]
      refine ⟨by rcases up with up | up <;> linarith [up], fun tie => .inr ?_⟩
      rcases up with up | up
      · linarith
      · omega
    · have units : (format.units (floor + 1) : ℚ) ≤ format.units other := Nat.cast_le.mpr (mono more)
      rw [above _ more]
      exact ⟨by linarith, fun tie => .inl (same _ (by linarith))⟩
  · rename_i down
    rw [not_or, not_lt, not_and] at down
    rw [below _ le_rfl]
    rcases apart with less | more
    · have units : (format.units other : ℚ) ≤ format.units floor := Nat.cast_le.mpr (mono less)
      rw [below _ less]
      exact ⟨by linarith, fun tie => .inl (same _ (by linarith))⟩
    · have units : (format.units (floor + 1) : ℚ) ≤ format.units other := Nat.cast_le.mpr (mono more)
      rw [above _ more]
      refine ⟨by linarith [down.1], fun tie => .inr ?_⟩
      have middle := down.2 (le_antisymm (by linarith) down.1)
      omega

/-- The low bits that are dropped decide as the number's place between its neighbours. -/
theorem roundUp_eq {number : ℚ} {floor half rest : Nat}
    (isNumber : number = format.units floor +
      (rest : ℚ) / (2 * half) * 2 ^ (floor / 2 ^ format.fractionBits - 1))
    (less : rest < 2 * half) :
    format.units floor ≤ number ∧ number ≤ format.units (floor + 1) ∧
      format.roundUp number floor =
        if half < rest ∨ rest = half ∧ floor % 2 = 1 then floor + 1 else floor := by
  have positive : (0 : ℚ) < 2 * half := by exact_mod_cast (by omega : 0 < 2 * half)
  have gap : (0 : ℚ) < 2 ^ (floor / 2 ^ format.fractionBits - 1) := by positivity
  have next : (format.units (floor + 1) : ℚ) =
      format.units floor + 2 ^ (floor / 2 ^ format.fractionBits - 1) := by
    exact_mod_cast format.units_succ floor
  generalize (2 : ℚ) ^ (floor / 2 ^ format.fractionBits - 1) = ulp at *
  have part : 0 ≤ (rest : ℚ) / (2 * half) := div_nonneg (Nat.cast_nonneg _) positive.le
  have whole : (rest : ℚ) / (2 * half) ≤ 1 := by
    rw [div_le_one positive]
    exact_mod_cast less.le
  refine ⟨by rw [isNumber]; nlinarith, by rw [isNumber, next]; nlinarith, ?_⟩
  have above : (format.units floor + format.units (floor + 1) : ℚ) < 2 * number ↔ half < rest := by
    rw [isNumber, next, ← sub_pos, show 2 * (format.units floor + (rest : ℚ) / (2 * half) * ulp) -
      (format.units floor + (format.units floor + ulp)) =
        (2 * ((rest : ℚ) / (2 * half)) - 1) * ulp by ring, mul_pos_iff_of_pos_right gap, sub_pos,
      ← mul_div_assoc, one_lt_div positive, mul_lt_mul_iff_of_pos_left (by norm_num), Nat.cast_lt]
  have middle : (format.units floor + format.units (floor + 1) : ℚ) = 2 * number ↔ rest = half := by
    rw [isNumber, next, eq_comm, ← sub_eq_zero,
      show 2 * (format.units floor + (rest : ℚ) / (2 * half) * ulp) -
      (format.units floor + (format.units floor + ulp)) =
        (2 * ((rest : ℚ) / (2 * half)) - 1) * ulp by ring, mul_eq_zero_iff_right gap.ne', sub_eq_zero,
      ← mul_div_assoc, div_eq_one_iff_eq positive.ne', mul_right_inj' (by norm_num), Nat.cast_inj]
  unfold roundUp
  simp only [above, middle]

/-- What is nearest among magnitudes is nearest among floats. -/
theorem nearest_of_magnitude {source : BinaryFormat} {original result : Nat} {number : ℚ}
    (scaled : |source.value original| = number * format.unit)
    (sign : format.Negative result ↔ source.Negative original)
    (finite : format.IsFinite result)
    (nearest : ∀ other,
      |(format.units (format.magnitude result) : ℚ) - number| ≤ |format.units other - number| ∧
      (|(format.units (format.magnitude result) : ℚ) - number| = |format.units other - number| →
        other = format.magnitude result ∨ format.magnitude result % 2 = 0)) :
    format.Nearest (source.value original) result := by
  have unit := format.unit_pos
  have positive : 0 ≤ number := by
    have magnitude := abs_nonneg (source.value original)
    rw [scaled] at magnitude
    exact nonneg_of_mul_nonneg_left magnitude unit
  have isNumber : source.value original =
      (if source.Negative original then -1 else 1) * (number * format.unit) := by
    rw [← scaled, abs_value, value_eq, mul_assoc]
  -- With the same sign the distance is that of the magnitudes, else that of the negated magnitude.
  have near : ∀ other, (format.Negative other ↔ source.Negative original) →
      |format.value other - source.value original| =
        |(format.units (format.magnitude other) : ℚ) - number| * format.unit := by
    intro other same
    rw [isNumber, value_eq, ← abs_of_pos unit, ← abs_mul, abs_of_pos unit, sub_mul]
    by_cases negative : source.Negative original
    · rw [if_pos negative, if_pos (same.mpr negative), ← abs_neg]
      congr 1
      ring
    · rw [if_neg negative, if_neg (mt same.mp negative)]
      congr 1
      ring
  have far : ∀ other, ¬(format.Negative other ↔ source.Negative original) →
      |format.value other - source.value original| =
        ((format.units (format.magnitude other) : ℚ) + number) * format.unit := by
    intro other differs
    have sum : 0 ≤ ((format.units (format.magnitude other) : ℚ) + number) * format.unit :=
      mul_nonneg (add_nonneg (Nat.cast_nonneg _) positive) unit.le
    rw [isNumber, value_eq]
    by_cases negative : source.Negative original
    · have plus : ¬format.Negative other := fun minus => differs (iff_of_true minus negative)
      rw [if_pos negative, if_neg plus, ← abs_of_nonneg sum]
      congr 1
      ring
    · have minus : format.Negative other := by
        by_contra plus
        exact differs (iff_of_false plus negative)
      rw [if_neg negative, if_pos minus, ← abs_of_nonneg sum, ← abs_neg]
      congr 1
      ring
  refine ⟨finite, fun other _ => ?_⟩
  have least := nearest (format.magnitude other)
  rw [near result sign]
  by_cases same : format.Negative other ↔ source.Negative original
  · rw [near other same]
    refine ⟨mul_le_mul_of_nonneg_right least.1 unit.le, fun tie => ?_⟩
    rcases least.2 (mul_right_cancel₀ unit.ne' tie) with equal | even
    · refine .inl ?_
      rw [value_eq, value_eq, equal]
      simp only [same, sign]
    · exact .inr ((format.significand_even result).trans even)
  · rw [far other same]
    have units : (0 : ℚ) ≤ format.units (format.magnitude other) := Nat.cast_nonneg _
    have wider : |(format.units (format.magnitude other) : ℚ) - number| ≤
        format.units (format.magnitude other) + number := by
      rw [abs_le]
      constructor <;> linarith
    refine ⟨mul_le_mul_of_nonneg_right (least.1.trans wider) unit.le, fun tie => .inr ?_⟩
    rw [significand_even]
    have tie := mul_right_cancel₀ unit.ne' tie
    rcases least.2 (le_antisymm least.1 (wider.trans_eq tie.symm)) with equal | even
    · have zero : (format.units (format.magnitude result) : ℚ) = 0 := by
        rw [equal] at tie units
        rcases le_total (format.units (format.magnitude result) : ℚ) number with less | more
        · rw [abs_of_nonpos (by linarith)] at tie
          linarith
        · rw [abs_of_nonneg (by linarith)] at tie
          have atZero := (nearest 0).1
          rw [format.units_zero, Nat.cast_zero, zero_sub, abs_neg, abs_of_nonneg positive,
            abs_of_nonneg (by linarith)] at atZero
          linarith
      have none : format.magnitude result = 0 :=
        format.units_strictMono.injective ((Nat.cast_eq_zero.mp zero).trans format.units_zero.symm)
      rw [none]
    · exact even

section

variable {source : BinaryFormat} {original result : Nat} {number : ℚ}
  (finite : source.IsFinite original) (scaled : |source.value original| = number * format.unit)
  (sign : format.Negative result ↔ source.Negative original)
include finite scaled sign

/-- A finite float is rounded to the nearer of the two neighbours that it is between. -/
theorem roundsToNearestEven_of_between {floor : Nat} (isFloor : floor < format.infinity)
    (low : format.units floor ≤ number) (high : number ≤ format.units (floor + 1))
    (rounded : format.magnitude result = format.roundUp number floor) :
    RoundsToNearestEven source format original result := by
  have infinityEven := format.infinity_even
  have numeric : ¬source.IsNaN original := fun nan => absurd nan.1 (Nat.ne_of_lt finite)
  have reached : format.roundUp number floor ≤ format.infinity := by
    unfold roundUp
    split <;> omega
  have least : ∀ largest, largest + 1 = format.infinity →
      (format.overflow ≤ |source.value original| ↔
        (format.units largest + format.units (largest + 1) : ℚ) ≤ 2 * number) := by
    intro largest isLargest
    have middle := format.overflow_eq isLargest
    rw [scaled, ← mul_le_mul_iff_of_pos_left (by norm_num : (0 : ℚ) < 2), middle, ← mul_assoc,
      mul_le_mul_iff_of_pos_right format.unit_pos]
  obtain ⟨largest, isLargest⟩ : ∃ largest, largest + 1 = format.infinity :=
    ⟨format.infinity - 1, Nat.sub_add_cancel format.infinity_pos⟩
  have grows : (format.units largest : ℚ) < format.units (largest + 1) :=
    Nat.cast_lt.mpr (format.units_strictMono (Nat.lt_succ_self largest))
  refine ⟨iff_of_false ?_ numeric, fun _ => sign, fun infinite => ?_, fun _ overflows => ?_,
    fun _ below => ?_⟩
  · rw [isNaN_iff, rounded]
    omega
  · exact absurd infinite.1 (Nat.ne_of_lt finite)
  · rw [least largest isLargest] at overflows
    have last : floor = largest := by
      by_contra before
      have bound : (format.units (floor + 1) : ℚ) ≤ format.units largest :=
        Nat.cast_le.mpr (format.units_strictMono.monotone (by omega))
      linarith
    rw [isInfinite_iff, rounded, roundUp, last, if_pos, isLargest]
    rcases overflows.lt_or_eq with more | equal
    · exact .inl more
    · exact .inr ⟨equal, by omega⟩
  · have fits : format.roundUp number floor < format.infinity := by
      rw [← not_le, least largest isLargest, not_le] at below
      unfold roundUp
      split
      · rename_i up
        by_contra full
        obtain rfl : floor = largest := by omega
        rcases up with up | up <;> linarith [up]
      · exact isFloor
    refine format.nearest_of_magnitude scaled sign (format.isFinite_iff.mpr (rounded ▸ fits)) ?_
    rw [rounded]
    exact format.roundUp_nearest low high

/-- A finite float from infinity's place on is rounded to infinity. -/
theorem roundsToNearestEven_of_overflow (above : format.units format.infinity ≤ number)
    (infinite : format.IsInfinite result) :
    RoundsToNearestEven source format original result := by
  have numeric : ¬source.IsNaN original := fun nan => absurd nan.1 (Nat.ne_of_lt finite)
  obtain ⟨largest, isLargest⟩ : ∃ largest, largest + 1 = format.infinity :=
    ⟨format.infinity - 1, Nat.sub_add_cancel format.infinity_pos⟩
  have overflows : format.overflow ≤ |source.value original| := by
    have middle := format.overflow_eq isLargest
    have grows : (format.units largest : ℚ) < format.units format.infinity :=
      Nat.cast_lt.mpr (format.units_strictMono (by omega))
    have scales := mul_le_mul_of_nonneg_right (show (format.units largest +
      format.units (largest + 1) : ℚ) ≤ 2 * number by rw [isLargest]; linarith) format.unit_pos.le
    linarith
  exact ⟨iff_of_false (fun nan => nan.2 infinite.2) numeric, fun _ => sign, fun _ => infinite,
    fun _ _ => infinite, fun _ below => absurd overflows (not_le.mpr below)⟩

end

theorem finite_or_infinite {encoding : Nat} (numeric : ¬format.IsNaN encoding) :
    format.IsFinite encoding ∨ format.IsInfinite encoding := by
  rw [isNaN_iff] at numeric
  rw [isFinite_iff, isInfinite_iff]
  omega

theorem abs_value_lt_overflow {encoding : Nat} (finite : format.IsFinite encoding) :
    |format.value encoding| < format.overflow := by
  obtain ⟨largest, isLargest⟩ : ∃ largest, largest + 1 = format.infinity :=
    ⟨format.infinity - 1, Nat.sub_add_cancel format.infinity_pos⟩
  rw [isFinite_iff] at finite
  have most : (format.units (format.magnitude encoding) : ℚ) ≤ format.units largest :=
    Nat.cast_le.mpr (format.units_strictMono.monotone (by omega))
  have grows : (format.units largest : ℚ) < format.units (largest + 1) :=
    Nat.cast_lt.mpr (format.units_strictMono (Nat.lt_succ_self largest))
  have middle := format.overflow_eq isLargest
  have scales := mul_lt_mul_of_pos_right (show (2 * format.units (format.magnitude encoding) : ℚ) <
    format.units largest + format.units (largest + 1) by linarith) format.unit_pos
  rw [← middle, mul_assoc, ← abs_value] at scales
  linarith

/-- A float that is rounded from a wider format without loss is what it was. -/
theorem RoundsToNearestEven.eq_of_sameNumber {source : BinaryFormat} {original wide result : Nat}
    (same : SameNumber format source original wide)
    (rounds : RoundsToNearestEven source format wide result)
    (numeric : ¬format.IsNaN original) : format.magnitude result = format.magnitude original ∧
      (format.Negative result ↔ format.Negative original) := by
  have wideNumeric : ¬source.IsNaN wide := fun nan => numeric (same.nan.mp nan)
  refine ⟨?_, (rounds.sign wideNumeric).trans same.sign⟩
  rcases format.finite_or_infinite numeric with finite | infinite
  · have wideFinite : source.IsFinite wide :=
      (source.finite_or_infinite wideNumeric).resolve_right fun infinite =>
        absurd (same.infinite.mp infinite).1 (Nat.ne_of_lt finite)
    have equal := same.finite finite
    have nearest := rounds.nearest wideFinite (equal ▸ format.abs_value_lt_overflow finite)
    have distance := (nearest.2 original finite).1
    rw [equal, sub_self, abs_zero, abs_nonpos_iff, sub_eq_zero] at distance
    have units := congrArg abs distance
    rw [abs_value, abs_value] at units
    exact format.units_strictMono.injective
      (Nat.cast_injective (mul_right_cancel₀ format.unit_pos.ne' units))
  · have infinity := rounds.infinite (same.infinite.mpr infinite)
    rw [isInfinite_iff] at infinite infinity
    rw [infinity, infinite]

end BinaryFormat

end Libtt.Foundation

import Mathlib.Data.Int.ModEq
import Mathlib.Tactic.Positivity
import Mathlib.Tactic.Ring

/-!
# Integers of StableHLO

An integer type has a width and a signedness.
-/
namespace Libtt.StableHlo

structure IntegerType where
  width : Nat
  signed : Bool
  positive : 0 < width

theorem positive8 : 0 < 8 := by decide

theorem positive32 : 0 < 32 := by decide

namespace IntegerType

variable (type : IntegerType)

abbrev Word := BitVec type.width

/-- The number that a word stands for. -/
def read (word : type.Word) : Int := if type.signed then word.toInt else word.toNat

/-- The least number of the type. -/
def least : Int := if type.signed then -2 ^ (type.width - 1) else 0

/-- The largest number of the type. -/
def largest : Nat := if type.signed then 2 ^ (type.width - 1) - 1 else 2 ^ type.width - 1

/-- How many numbers the type has. -/
def count : Nat := 2 ^ type.width

/-- A constant, whose excess bits are dropped. -/
def constant (value : Int) : type.Word := BitVec.ofInt type.width value

def divide (left right : type.Word) : type.Word :=
  if type.signed then left.sdiv right else left.udiv right

def remainder (left right : type.Word) : type.Word :=
  if type.signed then left.srem right else left.umod right

def maximum (left right : type.Word) : type.Word :=
  if type.read left ≤ type.read right then right else left

def minimum (left right : type.Word) : type.Word :=
  if type.read left ≤ type.read right then left else right

def clamp (min operand max : type.Word) : type.Word :=
  type.minimum (type.maximum operand min) max

variable {type}

theorem count_pos : 0 < type.count := Nat.two_pow_pos _

theorem count_signed : 2 ^ (type.width - 1) * 2 = type.count := by
  rw [count, ← Nat.pow_succ, Nat.succ_eq_add_one, Nat.sub_add_cancel type.positive]

/-- The numbers of the type are one after the other. -/
theorem range_count : (type.largest : Int) + 1 - type.least = type.count := by
  have half := type.count_signed
  have positive := Nat.two_pow_pos (type.width - 1)
  have all := type.count_pos
  rw [largest, least]
  split
  · push_cast [Nat.cast_sub positive, ← half]
    ring
  · rw [count] at all ⊢
    push_cast [Nat.cast_sub all]
    ring

/-- Half of the numbers are nonnegative, or all. -/
theorem count_cases : type.count = 2 * (type.largest + 1) ∨ type.count = type.largest + 1 := by
  have half := type.count_signed
  have positive := Nat.two_pow_pos (type.width - 1)
  have all := type.count_pos
  rw [largest]
  split
  · omega
  · rw [count] at all ⊢
    omega

theorem least_le : type.least ≤ 0 := by
  rw [least]
  split
  · exact neg_nonpos.mpr (by positivity)
  · exact le_refl 0

theorem largest_lt : type.largest < type.count := by
  have range := type.range_count
  have least := type.least_le
  omega

theorem least_le_read (word : type.Word) : type.least ≤ type.read word := by
  rw [least, read]
  split
  · exact BitVec.le_toInt word
  · exact Int.natCast_nonneg _

theorem read_le_largest (word : type.Word) : type.read word ≤ type.largest := by
  have positive := Nat.two_pow_pos (type.width - 1)
  rw [largest, read]
  split
  · have bound := BitVec.toInt_lt (x := word)
    push_cast [Nat.cast_sub positive]
    omega
  · have bound := word.isLt
    omega

/-- A word stands for its unsigned value, up to whole turns. -/
theorem read_modEq (word : type.Word) : type.read word ≡ word.toNat [ZMOD type.count] := by
  rw [read]
  split
  · rw [BitVec.toInt_eq_toNat_cond]
    split
    · rfl
    · exact Int.modEq_iff_dvd.mpr ⟨1, by rw [count]; push_cast; ring⟩
  · rfl

/-- Words that stand for congruent numbers are the same. -/
theorem read_injective {left right : type.Word}
    (same : type.read left ≡ type.read right [ZMOD type.count]) : left = right := by
  have values := (read_modEq left).symm.trans (same.trans (read_modEq right))
  have naturals := Int.natCast_modEq_iff.mp values
  refine BitVec.eq_of_toNat_eq ?_
  have small : left.toNat % type.count = left.toNat := Nat.mod_eq_of_lt left.isLt
  have smallToo : right.toNat % type.count = right.toNat := Nat.mod_eq_of_lt right.isLt
  rw [← small, ← smallToo]
  exact naturals

/-- Congruent numbers of the type are the same. -/
theorem eq_of_modEq {left right : Int} (same : left ≡ right [ZMOD type.count])
    (least : type.least ≤ left) (large : left ≤ type.largest) (leastToo : type.least ≤ right)
    (largeToo : right ≤ type.largest) : left = right := by
  have range := type.range_count
  have divides := Int.modEq_iff_dvd.mp same
  have small : |right - left| < type.count := abs_lt.mpr ⟨by omega, by omega⟩
  have zero := Int.eq_zero_of_abs_lt_dvd divides small
  omega

theorem read_constant_modEq (value : Int) :
    type.read (type.constant value) ≡ value [ZMOD type.count] := by
  refine (read_modEq _).trans ?_
  rw [constant, BitVec.toNat_ofInt, count]
  have positive : (0 : Int) < (2 ^ type.width : Nat) := by positivity
  rw [Int.toNat_of_nonneg (Int.emod_nonneg _ positive.ne')]
  exact Int.mod_modEq _ _

/-- A constant of the type stands for itself. -/
theorem read_constant {value : Int} (least : type.least ≤ value) (large : value ≤ type.largest) :
    type.read (type.constant value) = value :=
  eq_of_modEq (read_constant_modEq value) (least_le_read _) (read_le_largest _) least large

theorem constant_read (word : type.Word) : type.constant (type.read word) = word :=
  read_injective (read_constant_modEq _)

theorem add_eq (left right : type.Word) :
    left + right = type.constant (type.read left + type.read right) := by
  refine read_injective ((read_modEq _).trans (Int.ModEq.trans ?_ (read_constant_modEq _).symm))
  rw [BitVec.toNat_add]
  push_cast
  exact (Int.mod_modEq _ _).trans ((read_modEq left).add (read_modEq right)).symm

/-- Natural numbers of the type. -/
theorem read_constant_nat {value : Nat} (large : value ≤ type.largest) :
    type.read (type.constant value) = value :=
  read_constant (le_trans least_le (Int.natCast_nonneg _)) (Int.ofNat_le.mpr large)

theorem toNat_constant {value : Nat} (large : value ≤ type.largest) :
    (type.constant value).toNat = value := by
  rw [constant, BitVec.ofInt_natCast, BitVec.toNat_ofNat]
  exact Nat.mod_eq_of_lt (lt_of_le_of_lt large largest_lt)

theorem msb_constant {value : Nat} (isSigned : type.signed) (large : value ≤ type.largest) :
    (type.constant value).msb = false := by
  rw [BitVec.msb_eq_false_iff_two_mul_lt, toNat_constant large]
  rw [largest, if_pos isSigned] at large
  have positive := Nat.two_pow_pos (type.width - 1)
  have half := type.count_signed
  rw [count] at half
  omega

theorem divide_constant {left right : Nat} (large : left ≤ type.largest)
    (largeToo : right ≤ type.largest) :
    type.divide (type.constant left) (type.constant right) = type.constant (left / right : Nat) := by
  have quotient : left / right ≤ type.largest := le_trans (Nat.div_le_self _ _) large
  have unsigned : (type.constant left).udiv (type.constant right) =
      type.constant (left / right : Nat) := by
    refine BitVec.eq_of_toNat_eq ?_
    rw [toNat_constant quotient, BitVec.udiv_eq, BitVec.toNat_udiv, toNat_constant large,
      toNat_constant largeToo]
  rw [divide]
  split
  case isTrue isSigned =>
    rw [BitVec.sdiv_eq, msb_constant isSigned large, msb_constant isSigned largeToo]
    exact unsigned
  case isFalse => exact unsigned

theorem remainder_constant {left right : Nat} (large : left ≤ type.largest)
    (largeToo : right ≤ type.largest) :
    type.remainder (type.constant left) (type.constant right) =
      type.constant (left % right : Nat) := by
  have rest : left % right ≤ type.largest := le_trans (Nat.mod_le _ _) large
  have unsigned : (type.constant left).umod (type.constant right) =
      type.constant (left % right : Nat) := by
    refine BitVec.eq_of_toNat_eq ?_
    rw [toNat_constant rest, BitVec.umod_eq, BitVec.toNat_umod, toNat_constant large,
      toNat_constant largeToo]
  rw [remainder]
  split
  case isTrue isSigned =>
    rw [BitVec.srem_eq, msb_constant isSigned large, msb_constant isSigned largeToo]
    exact unsigned
  case isFalse => exact unsigned

theorem read_maximum (left right : type.Word) :
    type.read (type.maximum left right) = max (type.read left) (type.read right) := by
  rw [maximum]
  split <;> omega

theorem read_minimum (left right : type.Word) :
    type.read (type.minimum left right) = min (type.read left) (type.read right) := by
  rw [minimum]
  split <;> omega

theorem read_clamp (low operand high : type.Word) :
    type.read (type.clamp low operand high) =
      min (max (type.read operand) (type.read low)) (type.read high) := by
  rw [clamp, read_minimum, read_maximum]

end IntegerType

end Libtt.StableHlo

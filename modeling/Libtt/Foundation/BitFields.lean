import Mathlib.Data.Nat.Bitwise

/-!
# Fields of machine words

Masks and shifts of machine words as divisions and remainders of their numbers.
-/
namespace Libtt.Foundation

/-- The low bits of a word. -/
theorem toNat_and_low (word : BitVec w) (count : Nat) (fits : count ≤ w) :
    (word &&& BitVec.ofNat w (2 ^ count - 1)).toNat = word.toNat % 2 ^ count := by
  have less : 2 ^ count - 1 < 2 ^ w := by
    have powers := Nat.pow_le_pow_right (show 0 < 2 by decide) fits
    have positive := Nat.two_pow_pos count
    omega
  rw [BitVec.toNat_and, BitVec.toNat_ofNat, Nat.mod_eq_of_lt less,
    Nat.and_two_pow_sub_one_eq_mod]

/-- Bits that stand above the others are added to them. -/
theorem or_eq_add (high : Nat) {low bits : Nat} (fits : low < 2 ^ bits) :
    high * 2 ^ bits ||| low = high * 2 ^ bits + low := by
  rw [Nat.mul_comm, Nat.two_pow_add_eq_or_of_lt fits]

/-- A mask that is shifted takes a field in its place. -/
theorem and_shiftLeft (number mask bits : Nat) :
    number &&& (mask <<< bits) = ((number >>> bits) &&& mask) <<< bits := by
  refine Nat.eq_of_testBit_eq fun i => ?_
  rw [Nat.testBit_and, Nat.testBit_shiftLeft, Nat.testBit_shiftLeft, Nat.testBit_and,
    Nat.testBit_shiftRight]
  by_cases more : bits ≤ i
  · rw [Nat.add_sub_cancel' more, decide_eq_true more, Bool.true_and, Bool.true_and]
  · rw [decide_eq_false more, Bool.false_and, Bool.false_and, Bool.and_false]

/-- A single bit. -/
theorem toNat_one_shiftLeft {w bit : Nat} (fits : bit < w) :
    (1#w <<< bit).toNat = 2 ^ bit := by
  have less : 2 ^ bit < 2 ^ w := Nat.pow_lt_pow_right (by decide) fits
  have one : 1 < 2 ^ w := Nat.one_lt_two_pow (by omega)
  rw [BitVec.toNat_shiftLeft, BitVec.toNat_ofNat, Nat.mod_eq_of_lt one, Nat.shiftLeft_eq,
    Nat.one_mul, Nat.mod_eq_of_lt less]

/-- All bits below a single one. -/
theorem one_shiftLeft_sub {w bit : Nat} (fits : bit < w) :
    1#w <<< bit - 1#w = BitVec.ofNat w (2 ^ bit - 1) := by
  apply BitVec.eq_of_toNat_eq
  have less : 2 ^ bit < 2 ^ w := Nat.pow_lt_pow_right (by decide) fits
  have positive := Nat.two_pow_pos bit
  have one : 1 < 2 ^ w := Nat.one_lt_two_pow (by omega)
  rw [BitVec.toNat_sub_of_le, toNat_one_shiftLeft fits, BitVec.toNat_ofNat, BitVec.toNat_ofNat,
    Nat.mod_eq_of_lt one, Nat.mod_eq_of_lt (by omega)]
  rw [BitVec.le_def, toNat_one_shiftLeft fits, BitVec.toNat_ofNat, Nat.mod_eq_of_lt one]
  exact positive

/-- A single bit of a word, in its place. -/
theorem toNat_and_one_shiftLeft {w bit : Nat} (word : BitVec w) (fits : bit < w) :
    (word &&& 1#w <<< bit).toNat = word.toNat / 2 ^ bit % 2 * 2 ^ bit := by
  have masked := and_shiftLeft word.toNat 1 bit
  rw [Nat.shiftLeft_eq 1, Nat.one_mul, Nat.and_one_is_mod, Nat.shiftRight_eq_div_pow,
    Nat.shiftLeft_eq] at masked
  rw [BitVec.toNat_and, toNat_one_shiftLeft fits, masked]

/-- Whether a single bit of a word is set. -/
theorem and_one_shiftLeft_ne_zero {w bit : Nat} (word : BitVec w) (fits : bit < w) :
    word &&& 1#w <<< bit ≠ 0#w ↔ word.toNat / 2 ^ bit % 2 = 1 := by
  have positive := Nat.two_pow_pos bit
  rw [ne_eq, ← BitVec.toNat_inj, toNat_and_one_shiftLeft word fits, BitVec.toNat_ofNat,
    Nat.zero_mod, Nat.mul_eq_zero]
  omega

/-- A word with its low bits cleared. -/
theorem toNat_and_not_low {w : Nat} (word : BitVec w) {count : Nat} (fits : count ≤ w) :
    (word &&& ~~~BitVec.ofNat w (2 ^ count - 1)).toNat = word.toNat / 2 ^ count * 2 ^ count := by
  have low := toNat_and_low word count fits
  have split : (word &&& ~~~BitVec.ofNat w (2 ^ count - 1)).toNat +
      (word &&& BitVec.ofNat w (2 ^ count - 1)).toNat = word.toNat := by
    have disjoint : (word &&& ~~~BitVec.ofNat w (2 ^ count - 1)) &&&
        (word &&& BitVec.ofNat w (2 ^ count - 1)) = 0#w := by
      ext i inside
      simp only [BitVec.getElem_and, BitVec.getElem_not, BitVec.getElem_zero]
      cases word[i] <;> cases (BitVec.ofNat w (2 ^ count - 1))[i] <;> rfl
    rw [← BitVec.toNat_add_of_and_eq_zero disjoint, BitVec.add_eq_or_of_and_eq_zero _ _ disjoint]
    congr 1
    ext i inside
    simp only [BitVec.getElem_or, BitVec.getElem_and, BitVec.getElem_not]
    cases word[i] <;> cases (BitVec.ofNat w (2 ^ count - 1))[i] <;> rfl
  have whole := Nat.div_add_mod' word.toNat (2 ^ count)
  omega

/-- A word without its highest bit is not negative. -/
theorem toInt_of_lt {word : BitVec 32} (less : word.toNat < 2 ^ 31) :
    word.toInt = word.toNat := by
  rw [BitVec.toInt_eq_toNat_cond, if_pos (by omega)]

/-- Words without their highest bit compare alike with a sign and without. -/
theorem slt_of_lt {left right : BitVec 32} (leftLess : left.toNat < 2 ^ 31)
    (rightLess : right.toNat < 2 ^ 31) : left.slt right = decide (left.toNat < right.toNat) := by
  rw [BitVec.slt, toInt_of_lt leftLess, toInt_of_lt rightLess]
  simp

theorem sle_of_lt {left right : BitVec 32} (leftLess : left.toNat < 2 ^ 31)
    (rightLess : right.toNat < 2 ^ 31) : left.sle right = decide (left.toNat ≤ right.toNat) := by
  rw [BitVec.sle, toInt_of_lt leftLess, toInt_of_lt rightLess]
  simp

end Libtt.Foundation

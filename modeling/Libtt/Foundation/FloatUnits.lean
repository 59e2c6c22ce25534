import Mathlib.Tactic.Ring

/-!
# Magnitudes of floats

The magnitude of a float, its exponent field above its fraction, in units of the least subnormal
number.
-/
namespace Libtt.Foundation

/-- A magnitude with so many bits of fraction, in units of the least subnormal number. -/
def floatUnits (fractionBits magnitude : Nat) : Nat :=
  if magnitude / 2 ^ fractionBits = 0 then magnitude % 2 ^ fractionBits
  else (2 ^ fractionBits + magnitude % 2 ^ fractionBits) * 2 ^ (magnitude / 2 ^ fractionBits - 1)

theorem floatUnits_succ (fractionBits magnitude : Nat) :
    floatUnits fractionBits (magnitude + 1) =
      floatUnits fractionBits magnitude + 2 ^ (magnitude / 2 ^ fractionBits - 1) := by
  have positive := Nat.two_pow_pos fractionBits
  have below := Nat.mod_lt magnitude positive
  have whole := Nat.div_add_mod magnitude (2 ^ fractionBits)
  by_cases carry : magnitude % 2 ^ fractionBits + 1 = 2 ^ fractionBits
  · have next : magnitude + 1 = 2 ^ fractionBits * (magnitude / 2 ^ fractionBits + 1) := by
      rw [Nat.mul_add, Nat.mul_one]
      omega
    have high : (magnitude + 1) / 2 ^ fractionBits = magnitude / 2 ^ fractionBits + 1 := by
      rw [next, Nat.mul_div_cancel_left _ positive]
    have low : (magnitude + 1) % 2 ^ fractionBits = 0 := by rw [next, Nat.mul_mod_right]
    rw [floatUnits, floatUnits, high, low, if_neg (Nat.succ_ne_zero _), Nat.add_sub_cancel,
      Nat.add_zero]
    by_cases zero : magnitude / 2 ^ fractionBits = 0
    · rw [if_pos zero, zero]
      omega
    · obtain ⟨e, isE⟩ := Nat.exists_eq_succ_of_ne_zero zero
      rw [if_neg zero, isE, Nat.succ_sub_one, Nat.pow_succ, ← Nat.succ_mul]
      rw [show (2 ^ fractionBits + magnitude % 2 ^ fractionBits).succ = 2 ^ fractionBits * 2 by
        omega]
      ring
  · have high : (magnitude + 1) / 2 ^ fractionBits = magnitude / 2 ^ fractionBits := by
      rw [Nat.add_div positive, Nat.div_eq_of_lt (by omega : 1 < _)]
      rw [Nat.mod_eq_of_lt (by omega : 1 < _), if_neg (by omega)]
      rfl
    have low : (magnitude + 1) % 2 ^ fractionBits = magnitude % 2 ^ fractionBits + 1 := by
      rw [Nat.add_mod, Nat.mod_eq_of_lt (by omega : 1 < _), Nat.mod_eq_of_lt (by omega)]
    rw [floatUnits, floatUnits, high, low]
    split
    · rename_i zero
      rw [zero, Nat.zero_sub, Nat.pow_zero]
    · rw [← Nat.add_assoc, Nat.succ_mul]

theorem floatUnits_strictMono (fractionBits : Nat) : StrictMono (floatUnits fractionBits) :=
  strictMono_nat_of_lt_succ fun magnitude => by
    rw [floatUnits_succ]
    exact Nat.lt_add_of_pos_right (Nat.two_pow_pos _)

/-- Up to the next multiple of a power of two that divides a binade, the units grow evenly. -/
theorem floatUnits_add {fractionBits dropped : Nat} (within : dropped ≤ fractionBits)
    (block : Nat) {rest : Nat} (most : rest ≤ 2 ^ dropped) :
    floatUnits fractionBits (block * 2 ^ dropped + rest) =
      floatUnits fractionBits (block * 2 ^ dropped) +
        rest * 2 ^ (block * 2 ^ dropped / 2 ^ fractionBits - 1) := by
  induction rest with
  | zero => simp
  | succ rest ih =>
    have split : 2 ^ fractionBits = 2 ^ dropped * 2 ^ (fractionBits - dropped) := by
      rw [← Nat.pow_add, Nat.add_sub_cancel' within]
    have none : rest / 2 ^ dropped = 0 := Nat.div_eq_of_lt (by omega)
    have same : (block * 2 ^ dropped + rest) / 2 ^ fractionBits =
        block * 2 ^ dropped / 2 ^ fractionBits := by
      rw [split, ← Nat.div_div_eq_div_mul, ← Nat.div_div_eq_div_mul,
        Nat.mul_div_cancel _ (Nat.two_pow_pos dropped), Nat.add_comm,
        Nat.add_mul_div_right _ _ (Nat.two_pow_pos dropped), none, Nat.zero_add]
    rw [← Nat.add_assoc, floatUnits_succ, same, ih (by omega), Nat.succ_mul, Nat.add_assoc]

/-- The binade of a magnitude, by its units. -/
theorem floatUnits_lt_iff (fractionBits magnitude exponent : Nat) :
    floatUnits fractionBits magnitude < 2 ^ (fractionBits + exponent) ↔
      magnitude / 2 ^ fractionBits ≤ exponent := by
  have positive := Nat.two_pow_pos fractionBits
  have below := Nat.mod_lt magnitude positive
  have grows : 2 ^ fractionBits ≤ 2 ^ (fractionBits + exponent) :=
    Nat.pow_le_pow_right (by decide) (Nat.le_add_right _ _)
  unfold floatUnits
  split
  · rename_i zero
    rw [zero]
    exact iff_of_true (by omega) (Nat.zero_le _)
  · rename_i nonzero
    obtain ⟨e, isE⟩ := Nat.exists_eq_succ_of_ne_zero nonzero
    rw [isE, Nat.succ_sub_one]
    constructor
    · intro less
      by_contra above
      have more : 2 ^ (fractionBits + exponent) ≤ 2 ^ fractionBits * 2 ^ e := by
        rw [← Nat.pow_add]
        exact Nat.pow_le_pow_right (by decide) (by omega)
      have least : 2 ^ fractionBits * 2 ^ e ≤
          (2 ^ fractionBits + magnitude % 2 ^ fractionBits) * 2 ^ e :=
        Nat.mul_le_mul_right _ (Nat.le_add_right _ _)
      omega
    · intro most
      calc
        (2 ^ fractionBits + magnitude % 2 ^ fractionBits) * 2 ^ e < 2 ^ (fractionBits + 1) * 2 ^ e :=
          Nat.mul_lt_mul_of_pos_right (by omega) (Nat.two_pow_pos e)
        _ = 2 ^ (fractionBits + (e + 1)) := by rw [← Nat.pow_add]; congr 1; omega
        _ ≤ 2 ^ (fractionBits + exponent) := Nat.pow_le_pow_right (by decide) (by omega)

/-- A bias below a half, plus the last bit kept, carries where rounding goes up. -/
theorem add_half_div {half : Nat} (block : Nat) {rest : Nat} (less : rest < 2 ^ (half + 1)) :
    (block * 2 ^ (half + 1) + rest + (2 ^ half - 1) +
        (block * 2 ^ (half + 1) + rest) / 2 ^ (half + 1) % 2) / 2 ^ (half + 1) =
      if rest < 2 ^ half ∨ (rest = 2 ^ half ∧ block % 2 = 0) then block else block + 1 := by
  have power := Nat.two_pow_pos half
  have double : 2 ^ (half + 1) = 2 * 2 ^ half := by rw [Nat.pow_succ, Nat.mul_comm]
  have quotient : (block * 2 ^ (half + 1) + rest) / 2 ^ (half + 1) = block := by
    rw [Nat.mul_comm, Nat.mul_add_div (by omega), Nat.div_eq_of_lt less, Nat.add_zero]
  have parity := Nat.mod_two_eq_zero_or_one block
  have grow : (block + 1) * 2 ^ (half + 1) = block * 2 ^ (half + 1) + 2 ^ (half + 1) := by ring
  have grow' : (block + 1 + 1) * 2 ^ (half + 1) =
      block * 2 ^ (half + 1) + 2 * 2 ^ (half + 1) := by ring
  rw [quotient]
  split
  · exact Nat.div_eq_of_lt_le (by omega) (by omega)
  · exact Nat.div_eq_of_lt_le (by omega) (by omega)

end Libtt.Foundation

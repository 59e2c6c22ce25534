import Mathlib.Tactic.Ring

/-!
# Products from limb products

A product of two numbers of two limbs each, from the halves of the four limb products.
-/

namespace Libtt.Foundation

variable (base x y : Nat)

/-- The terms of a product at the limb radix. -/
def limbMiddle : Nat :=
  x % base * (y % base) / base + x / base * (y % base) % base + x % base * (y / base) % base

/-- The terms of a product at the square of the limb radix. -/
def limbHigh : Nat :=
  x / base * (y / base) + x / base * (y % base) / base + x % base * (y / base) / base

/-- A product from its limb terms. -/
theorem mul_eq_limbs :
    x * y = limbHigh base x y * (base * base) + limbMiddle base x y * base +
      x % base * (y % base) % base := by
  have first : x = base * (x / base) + x % base := (Nat.div_add_mod x base).symm
  have second : y = base * (y / base) + y % base := (Nat.div_add_mod y base).symm
  have cross := Nat.div_add_mod (x / base * (y % base)) base
  have other := Nat.div_add_mod (x % base * (y / base)) base
  have low := Nat.div_add_mod (x % base * (y % base)) base
  calc
    x * y = (base * (x / base) + x % base) * (base * (y / base) + y % base) := by
      rw [← first, ← second]
    _ = x / base * (y / base) * (base * base) + x / base * (y % base) * base +
        x % base * (y / base) * base + x % base * (y % base) := by ring
    _ = x / base * (y / base) * (base * base) +
        (base * (x / base * (y % base) / base) + x / base * (y % base) % base) * base +
        (base * (x % base * (y / base) / base) + x % base * (y / base) % base) * base +
        (base * (x % base * (y % base) / base) + x % base * (y % base) % base) := by
      rw [cross, other, low]
    _ = _ := by
      rw [limbHigh, limbMiddle]
      ring

variable {base x y}

/-- The high word of a product. -/
theorem mul_div_limbs {narrow wide : Nat} (radix : base = narrow * wide) (positive : 0 < base) :
    x * y / (base * narrow) = limbHigh base x y * wide + limbMiddle base x y / narrow := by
  have positiveNarrow : 0 < narrow := Nat.pos_of_ne_zero fun zero => by simp [radix, zero] at positive
  have low : x % base * (y % base) % base < base := Nat.mod_lt _ positive
  have square : limbHigh base x y * (base * base) = limbHigh base x y * wide * (base * narrow) := by
    conv => lhs; rw [show base * base = base * (narrow * wide) by rw [← radix]]
    ring
  rw [mul_eq_limbs base x y, Nat.add_assoc, square, Nat.add_comm,
    Nat.add_mul_div_right _ _ (Nat.mul_pos positive positiveNarrow), ← Nat.div_div_eq_div_mul,
    Nat.add_comm (limbMiddle base x y * base), Nat.add_mul_div_right _ _ positive,
    Nat.div_eq_of_lt low, Nat.zero_add, Nat.add_comm]

/-- The terms at the limb radix are three halves of limb products. -/
theorem limbMiddle_lt {base : Nat} (positive : 0 < base) (x y : Nat) :
    limbMiddle base x y < 3 * base := by
  have first : x % base * (y % base) / base < base :=
    Nat.div_lt_of_lt_mul (Nat.mul_lt_mul'' (Nat.mod_lt _ positive) (Nat.mod_lt _ positive))
  have second : x / base * (y % base) % base < base := Nat.mod_lt _ positive
  have third : x % base * (y / base) % base < base := Nat.mod_lt _ positive
  rw [limbMiddle]
  omega

end Libtt.Foundation

import Libtt.Rng.Kernel
import Libtt.Sfpu.MulhiUint32

/-!
# The kernel's words

The unrolled Threefry is the reference loop with the first key addition made by the caller; the
products put together from 23-bit halves are the high and low words of the product.
-/

namespace Libtt.Rng

open Libtt.Sfpu hiding Word

theorem threefryRounds_eq (r0 r1 r2 r3 : Nat) (x : Word × Word) :
    [r0, r1, r2, r3].foldl threefryRound x = threefryRounds r0 r1 r2 r3 x := rfl

/-- The kernel's Threefry, given the counter plus the first key words. -/
theorem threefryKeyed_eq (k0 k1 c0 c1 : Word) :
    threefryKeyed (c0 + k0, c1 + k1) k0 k1 (k0 ^^^ k1 ^^^ 0x1BD11BDA#32) =
      threefry k0 k1 c0 c1 := by
  have range : List.range 5 = [0, 1, 2, 3, 4] := rfl
  have even : ∀ i, i % 2 = 0 → rotations i = [13, 15, 26, 6] := fun i even => if_pos even
  have odd : ∀ i, i % 2 = 1 → rotations i = [17, 29, 16, 24] := fun i odd => if_neg (by omega)
  simp only [threefry, threefryKeyed, range, List.foldl_cons, List.foldl_nil, even 0 rfl, odd 1 rfl,
    even 2 rfl, odd 3 rfl, even 4 rfl, ← threefryRounds_eq, keyWord, Nat.reduceAdd, Nat.reduceMod,
    BitVec.add_assoc]
  rfl

/-- `mulhilo` is the high and the low word of the product. -/
theorem mulhilo_eq (multiplier x : Word) :
    mulhilo multiplier x = (mulHigh multiplier x, multiplier * x) := by
  have exact := fractionalMulHalves_exact
  have upper : fractionalMul (x >>> 23) (multiplier >>> 23) +
      fractionalMulHigh (x >>> 23) multiplier + fractionalMulHigh x (multiplier >>> 23) =
        mulhiUpper fractionalMulHalves x multiplier := rfl
  have lower : fractionalMulHigh x multiplier + fractionalMul (x >>> 23) multiplier +
      fractionalMul x (multiplier >>> 23) = mulhiLower fractionalMulHalves x multiplier := by
    rw [BitVec.add_assoc, BitVec.add_comm]
    rfl
  have low : fractionalMul x multiplier + mulhiLower fractionalMulHalves x multiplier <<< 23 =
      mulUint32Wrapping fractionalMulHalves x multiplier := rfl
  rw [mulhilo, upper, lower, low, mulUint32Wrapping_eq exact, BitVec.mul_comm x]
  refine Prod.ext (BitVec.eq_of_toNat_eq ?_) rfl
  have high := (toNat_mulhi x multiplier exact).1
  rw [mulHigh, BitVec.toNat_ofNat, Nat.mul_comm multiplier.toNat, ← high]
  exact (Nat.mod_eq_of_lt (mulhi fractionalMulHalves x multiplier).isLt).symm

end Libtt.Rng

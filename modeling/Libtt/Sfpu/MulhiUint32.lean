import Libtt.Foundation.LimbProduct
import Libtt.Sfpu.PowInt32

/-!
# High words of products

`mulhi_uint32` multiplies eight slots of two tiles of Dst into a third. A word has a limb of 23 bits
and one of 9 above it, and the high word of a product is put together from the halves of the limb
products; the lowest of them is left out.
-/
namespace Libtt.Sfpu

open Libtt.Foundation

namespace State

variable (unit : State)

/-- `SFPSHFT` of a source by an immediate, to the right where that is negative. -/
def sfpshftImm (imm : BitVec 12) (source target : Nat) : State :=
  unit.set target fun i j =>
    if imm.msb then unit.read source i j >>> (-imm).toNat else unit.read source i j <<< imm.toNat

/-- `SFPMUL24` with zero as its addend. -/
def sfpmul24 (fractionalMul : FractionalMul) (left right target : Nat) (half : FractionalHalf) :
    State :=
  unit.set target fun i j => fractionalMul (unit.read left i j) (unit.read right i j) half

/-- `SFPIADD` of a register. -/
def sfpiaddRegister (source target : Nat) : State :=
  unit.set target fun i j => unit.read target i j + unit.read source i j

/-- A turn of the loop of `mulhi_uint32`. `ADDR_MOD_6` goes on to the next slot. -/
def mulhiTurn (fractionalMul : FractionalMul) (in0 in1 out : Nat) : State :=
  let unit := unit.sfpload 0 (in0 * 64)
  let unit := unit.sfpshftImm (-23) 0 1
  let unit := unit.sfpload 2 (in1 * 64)
  let unit := unit.sfpshftImm (-23) 2 3
  let unit := unit.sfpmul24 fractionalMul 1 3 4 .low
  let unit := unit.sfpmul24 fractionalMul 1 2 5 .high
  let unit := unit.sfpiaddRegister 5 4
  let unit := unit.sfpmul24 fractionalMul 0 3 5 .high
  let unit := unit.sfpiaddRegister 5 4
  let unit := unit.sfpshftImm 14 4 4
  let unit := unit.sfpmul24 fractionalMul 1 2 5 .low
  let unit := unit.sfpmul24 fractionalMul 0 3 6 .low
  let unit := unit.sfpiaddRegister 6 5
  let unit := unit.sfpmul24 fractionalMul 0 2 6 .high
  let unit := unit.sfpiaddRegister 6 5
  let unit := unit.sfpshftImm (-9) 5 5
  let unit := unit.sfpiaddRegister 5 4
  let unit := unit.sfpstore 4 (out * 64)
  { unit with counter := unit.counter + 2 }

/-- `mulhi_uint32`. -/
def mulhiUint32 (fractionalMul : FractionalMul) (in0 in1 out : Nat) : State :=
  (fun unit : State => unit.mulhiTurn fractionalMul in0 in1 out)^[8] unit

end State

section

variable (fractionalMul : FractionalMul) (a b : Word)

/-- The sum that is shifted to the left. -/
def mulhiUpper : Word :=
  fractionalMul (a >>> 23) (b >>> 23) .low + fractionalMul (a >>> 23) b .high +
    fractionalMul a (b >>> 23) .high

/-- The sum that is shifted to the right. -/
def mulhiLower : Word :=
  fractionalMul (a >>> 23) b .low + fractionalMul a (b >>> 23) .low + fractionalMul a b .high

/-- What a lane stores. -/
def mulhi : Word := mulhiUpper fractionalMul a b <<< 14 + mulhiLower fractionalMul a b >>> 9

/-- The sums of a lane, and the shift to the left, are those of the numbers. -/
structure MulhiExact : Prop where
  upper : (mulhiUpper fractionalMul a b).toNat = (fractionalMul (a >>> 23) (b >>> 23) .low).toNat +
    (fractionalMul (a >>> 23) b .high).toNat + (fractionalMul a (b >>> 23) .high).toNat
  lower : (mulhiLower fractionalMul a b).toNat = (fractionalMul (a >>> 23) b .low).toNat +
    (fractionalMul a (b >>> 23) .low).toNat + (fractionalMul a b .high).toNat
  shift : (mulhiUpper fractionalMul a b <<< 14).toNat =
    (mulhiUpper fractionalMul a b).toNat * 2 ^ 14
  sum : (mulhi fractionalMul a b).toNat = (mulhiUpper fractionalMul a b <<< 14).toNat +
    (mulhiLower fractionalMul a b >>> 9).toNat

variable {fractionalMul} (exact : fractionalMul.Exact)

/-- The high limb of a word. -/
theorem toNat_limb : (a >>> 23).toNat = a.toNat / 2 ^ 23 := by
  rw [BitVec.toNat_ushiftRight, Nat.shiftRight_eq_div_pow]

theorem limb_lt : a.toNat / 2 ^ 23 < 2 ^ 9 :=
  Nat.div_lt_of_lt_mul (by have := a.isLt; omega)

theorem limb_mod : a.toNat / 2 ^ 23 % 2 ^ 23 = a.toNat / 2 ^ 23 :=
  Nat.mod_eq_of_lt (Nat.lt_trans (limb_lt a) (by decide))

include exact

/-- The upper sum takes the terms at the square of the limb radix, and no carry leaves it. -/
theorem toNat_mulhiUpper :
    (mulhiUpper fractionalMul a b).toNat = limbHigh (2 ^ 23) a.toNat b.toNat ∧
      limbHigh (2 ^ 23) a.toNat b.toNat = (fractionalMul (a >>> 23) (b >>> 23) .low).toNat +
        (fractionalMul (a >>> 23) b .high).toNat + (fractionalMul a (b >>> 23) .high).toNat := by
  have product : a.toNat / 2 ^ 23 * (b.toNat / 2 ^ 23) < 2 ^ 9 * 2 ^ 9 :=
    Nat.mul_lt_mul'' (limb_lt a) (limb_lt b)
  have first : a.toNat / 2 ^ 23 * (b.toNat % 2 ^ 23) / 2 ^ 23 < 2 ^ 9 :=
    Nat.div_lt_of_lt_mul (Nat.mul_comm (2 ^ 9) _ ▸
      Nat.mul_lt_mul'' (limb_lt a) (Nat.mod_lt _ (by decide)))
  have second : a.toNat % 2 ^ 23 * (b.toNat / 2 ^ 23) / 2 ^ 23 < 2 ^ 9 :=
    Nat.div_lt_of_lt_mul (Nat.mul_lt_mul'' (Nat.mod_lt _ (by decide)) (limb_lt b))
  simp only [mulhiUpper, BitVec.toNat_add, exact.low, exact.high, toNat_limb, limb_mod, limbHigh,
    Nat.mod_eq_of_lt (Nat.lt_trans product (show 2 ^ 9 * 2 ^ 9 < 2 ^ 23 by decide)), and_true]
  omega

/-- The lower sum takes the terms at the limb radix, and no carry leaves it. -/
theorem toNat_mulhiLower :
    (mulhiLower fractionalMul a b).toNat = limbMiddle (2 ^ 23) a.toNat b.toNat ∧
      limbMiddle (2 ^ 23) a.toNat b.toNat = (fractionalMul (a >>> 23) b .low).toNat +
        (fractionalMul a (b >>> 23) .low).toNat + (fractionalMul a b .high).toNat := by
  have bound := limbMiddle_lt (show 0 < 2 ^ 23 by decide) a.toNat b.toNat
  rw [limbMiddle] at bound ⊢
  simp only [mulhiLower, BitVec.toNat_add, exact.low, exact.high, toNat_limb, limb_mod]
  omega

/-- A lane stores the high word of the product, and none of its sums loses a carry. -/
theorem toNat_mulhi : (mulhi fractionalMul a b).toNat = a.toNat * b.toNat / 2 ^ 32 ∧
    MulhiExact fractionalMul a b := by
  obtain ⟨upper, upperSum⟩ := toNat_mulhiUpper a b exact
  obtain ⟨lower, lowerSum⟩ := toNat_mulhiLower a b exact
  have word : 2 ^ 32 = 2 ^ 23 * 2 ^ 9 := by decide
  have parts : a.toNat * b.toNat / 2 ^ 32 =
      limbHigh (2 ^ 23) a.toNat b.toNat * 2 ^ 14 + limbMiddle (2 ^ 23) a.toNat b.toNat / 2 ^ 9 := by
    rw [word, mul_div_limbs (show 2 ^ 23 = 2 ^ 9 * 2 ^ 14 by decide) (by decide)]
  have fits : a.toNat * b.toNat / 2 ^ 32 < 2 ^ 32 :=
    Nat.div_lt_of_lt_mul (Nat.mul_lt_mul'' a.isLt b.isLt)
  have right : (mulhiLower fractionalMul a b >>> 9).toNat =
      limbMiddle (2 ^ 23) a.toNat b.toNat / 2 ^ 9 := by
    rw [BitVec.toNat_ushiftRight, lower, Nat.shiftRight_eq_div_pow]
  have shift : (mulhiUpper fractionalMul a b <<< 14).toNat =
      (mulhiUpper fractionalMul a b).toNat * 2 ^ 14 := by
    rw [BitVec.toNat_shiftLeft, Nat.shiftLeft_eq, upper]
    exact Nat.mod_eq_of_lt (Nat.lt_of_le_of_lt (Nat.le_add_right _ _) (parts ▸ fits))
  have sum : (mulhi fractionalMul a b).toNat = (mulhiUpper fractionalMul a b <<< 14).toNat +
      (mulhiLower fractionalMul a b >>> 9).toNat := by
    rw [mulhi, BitVec.toNat_add, shift, right, upper]
    exact Nat.mod_eq_of_lt (parts ▸ fits)
  refine ⟨?_, upper.trans upperSum, lower.trans lowerSum, shift, sum⟩
  rw [sum, shift, right, upper, parts]

end

section

variable (fractionalMul : FractionalMul) (in0 in1 out : Nat) (unit : State)

/-- What a slot of the results gets. -/
def mulhiLanes (slot : Nat) : Lanes := fun i j =>
  mulhi fractionalMul (unit.dst.load (in0 * 64 + slot) i j) (unit.dst.load (in1 * 64 + slot) i j)

/-- A turn stores the slot of its address. -/
theorem mulhiTurn_eq :
    (unit.mulhiTurn fractionalMul in0 in1 out).dst = unit.dst.store (out * 64 + unit.counter)
        (mulhiLanes fractionalMul in0 in1 unit unit.counter) ∧
      (unit.mulhiTurn fractionalMul in0 in1 out).counter = unit.counter + 2 :=
  ⟨rfl, rfl⟩

/-- After some turns their slots are stored, and the others are as they were. -/
theorem mulhiTurn_iterate {turns : Nat} (most : turns ≤ 8) :
    let after := (fun unit : State => unit.mulhiTurn fractionalMul in0 in1 out)^[turns] unit
    after.counter = unit.counter + 2 * turns ∧
      (∀ d < turns, after.dst.load (out * 64 + (unit.counter + 2 * d)) =
        mulhiLanes fractionalMul in0 in1 unit (unit.counter + 2 * d)) ∧
      ∀ addr, (∀ d < turns, addr / 2 ≠ (out * 64 + (unit.counter + 2 * d)) / 2) →
        after.dst.load addr = unit.dst.load addr := by
  induction turns with
  | zero => simp
  | succ turns ih =>
    obtain ⟨counter, stored, others⟩ := ih (by omega)
    rw [Function.iterate_succ_apply']
    generalize (fun unit : State => unit.mulhiTurn fractionalMul in0 in1 out)^[turns] unit = after
      at counter stored others
    obtain ⟨dst, next⟩ := mulhiTurn_eq fractionalMul in0 in1 out after
    rw [counter] at dst next
    -- the slots that the turn reads are not among those stored before
    have lanes : mulhiLanes fractionalMul in0 in1 after (unit.counter + 2 * turns) =
        mulhiLanes fractionalMul in0 in1 unit (unit.counter + 2 * turns) := by
      unfold mulhiLanes
      rw [others _ fun d less => by omega, others _ fun d less => by omega]
    refine ⟨next, fun d less => ?_, fun addr apart => ?_⟩
    · rw [dst, Dst.load_store_slot, lanes]
      rcases Nat.lt_succ_iff_lt_or_eq.mp less with before | rfl
      · rw [if_neg (by omega), stored d before]
      · rw [if_pos rfl]
    · rw [dst, Dst.load_store_slot, if_neg (apart turns (Nat.lt_succ_self turns))]
      exact others addr fun d less => apart d (Nat.lt_succ_of_lt less)

end

/-- Each lane of the result tile gets the high word of the product of those of the operands, and
none of the sums on the way loses a carry. -/
theorem mulhi_uint32 {fractionalMul : FractionalMul} (exact : fractionalMul.Exact)
    (in0 in1 out : Nat) (unit : State) {d : Nat} (turn : d < 8) (i : Fin 4) (j : Fin 8) :
    let a := unit.dst.load (in0 * 64 + (unit.counter + 2 * d)) i j
    let b := unit.dst.load (in1 * 64 + (unit.counter + 2 * d)) i j
    ((unit.mulhiUint32 fractionalMul in0 in1 out).dst.load
        (out * 64 + (unit.counter + 2 * d)) i j).toNat = a.toNat * b.toNat / 2 ^ 32 ∧
      MulhiExact fractionalMul a b := by
  intro a b
  obtain ⟨-, stored, -⟩ := mulhiTurn_iterate fractionalMul in0 in1 out unit (Nat.le_refl 8)
  rw [State.mulhiUint32, stored d turn]
  exact toNat_mulhi a b exact

theorem mulhi_uint32_largest :
    let unit : State := ⟨fun _ _ _ => 0, fun _ _ => 0xFFFFFFFF#32, 16⟩
    fractionalMulHalves.Exact ∧ 3 < 8 ∧
      ((unit.mulhiUint32 fractionalMulHalves 0 1 2).dst.load (2 * 64 + (16 + 2 * 3)) 1 2).toNat =
        0xFFFFFFFE := by
  intro unit
  have high := mulhi_uint32 fractionalMulHalves_exact 0 1 2 unit (show 3 < 8 by decide) 1 2
  exact ⟨fractionalMulHalves_exact, by decide, high.1.trans (by decide)⟩

end Libtt.Sfpu

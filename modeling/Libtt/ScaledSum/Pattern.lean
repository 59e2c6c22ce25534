import Libtt.Foundation.FloatRounding
import Libtt.SliceFusions.Meaning
import Libtt.StableHlo.Reduce

/-!
# Scaled sums as means

`ScaledSumToMeanPattern` of `tt_mlir_ttir_glue_fusions.patch`.
-/
namespace Libtt.ScaledSum

open Libtt.Foundation Libtt.StableHlo
open Libtt.Foundation.BinaryFormat (binary32)
open Libtt.SliceFusions (TensorType)

variable {ε : Type}

/-- A number of type `float`. -/
inductive Single where
  | finite (number : ℚ)
  | infinite (negative : Bool)
  | nan
  deriving DecidableEq

namespace Single

/-- The float for a number. -/
def ofNumber (number : ℚ) : Single :=
  if binary32.overflow ≤ |number| then .infinite (number < 0) else .finite (binary32.round number)

/-- `1.0f / divisor`, where a zero is a positive one. -/
def reciprocal : Single → Single
  | .finite divisor => if divisor = 0 then .infinite false else ofNumber (1 / divisor)
  | .infinite _ => .finite 0
  | .nan => .nan

/-- `std::abs`. -/
def abs : Single → Single
  | .finite number => .finite |number|
  | .infinite _ => .infinite false
  | .nan => .nan

/-- Multiplication by a positive float. -/
def scale (factor : ℚ) : Single → Single
  | .finite number => ofNumber (number * factor)
  | .infinite negative => .infinite negative
  | .nan => .nan

/-- `std::max` of a finite float and another: the second where the first is less. -/
def max (first : ℚ) : Single → Single
  | .finite second => .finite (if first < second then second else first)
  | .infinite false => .infinite false
  | .infinite true | .nan => .finite first

end Single

/-- `SumOp` without the places where it stands. -/
structure SumOp (ε : Type) where
  input : Nat
  inputType : TensorType ε
  dimArg : Option (List Nat)
  keepDim : Bool
  type : TensorType ε
  hasOneUse : Bool

structure MeanOp (ε : Type) where
  input : Nat
  dimArg : List Nat
  keepDim : Bool
  type : TensorType ε

structure FullOp (ε : Type) where
  type : TensorType ε
  fillValue : Single

/-- `MultiplyOp` or `DivOp`. -/
inductive ScaleKind where
  | multiply
  | div
  deriving DecidableEq

/-- An operation on what a sum and a constant define; the constant may be laid out anew, or
broadcast, before it gets there. -/
structure ScaleOp (ε : Type) where
  kind : ScaleKind
  lhs : Option (SumOp ε)
  rhs : Option (FullOp ε)
  type : TensorType ε

/-- The shape of what is reduced. -/
def reducedShape (shape dims : List Nat) (keepDim : Bool) : List Nat :=
  if keepDim then shape.mapIdx fun d size => if d ∈ dims then 1 else size else without dims 0 shape

/-- A sum over dimensions of its input, each once. -/
def SumOp.Verifies (sumOp : SumOp ε) : Prop :=
  ∀ dims, sumOp.dimArg = some dims → dims.Nodup ∧ (∀ d ∈ dims, d < sumOp.inputType.shape.length) ∧
    sumOp.type.shape = reducedShape sumOp.inputType.shape dims sumOp.keepDim

/-- `FLOAT_TOLERANCE`. -/
def FLOAT_TOLERANCE : ℚ := binary32.round (1 / 10000)

/-- Functions that the pattern calls. -/
structure Helpers (ε : Type) where
  isFullOpWithValue : FullOp ε → Single → Single → Bool
  createMeanOp : SumOp ε → List Nat → MeanOp ε

/-- How many elements are summed, in 64 bits. -/
def reducedProduct (inputShape reduceDims : List Nat) : ℤ :=
  reduceDims.foldl (fun (product : ℤ) dim => (product * inputShape.getD dim 0).bmod (2 ^ 64)) 1

def expectedValue (kind : ScaleKind) (product : ℤ) : Single :=
  match kind with
  | .div => Single.ofNumber product
  | .multiply => (Single.ofNumber product).reciprocal

def tolerance (expected : Single) : Single :=
  Single.max FLOAT_TOLERANCE (expected.abs.scale FLOAT_TOLERANCE)

def isValidScale (helpers : Helpers ε) (kind : ScaleKind) (fullOp : FullOp ε)
    (inputShape reduceDims : List Nat) : Bool :=
  let expected := expectedValue kind (reducedProduct inputShape reduceDims)
  helpers.isFullOpWithValue fullOp expected (tolerance expected)

/-- The operation that replaces `scaleOp`. -/
def matchAndRewrite (helpers : Helpers ε) (scaleOp : ScaleOp ε) : Option (MeanOp ε) :=
  match scaleOp.lhs, scaleOp.rhs with
  | some sumOp, some fullOp =>
    match sumOp.dimArg with
    | some reduceDims =>
      if sumOp.hasOneUse && isValidScale helpers scaleOp.kind fullOp sumOp.inputType.shape reduceDims
      then some (helpers.createMeanOp sumOp reduceDims)
      else none
    | none => none
  | _, _ => none

/-- What the pattern relies on: a constant has a value up to a tolerance where its distance to the
value, as a float, is no larger, and a mean is made in the place of the sum. -/
structure Helpers.Documented (helpers : Helpers ε) : Prop where
  withinTolerance {fullOp : FullOp ε} {expected tolerance : ℚ} :
    helpers.isFullOpWithValue fullOp (.finite expected) (.finite tolerance) = true →
      ∃ fill, fullOp.fillValue = .finite fill ∧ binary32.round |fill - expected| ≤ tolerance
  meanOfSum (sumOp : SumOp ε) (reduceDims : List Nat) :
    helpers.createMeanOp sumOp reduceDims =
      ⟨sumOp.input, reduceDims, sumOp.keepDim, sumOp.type⟩

/-- The elements that are reduced to one. -/
def summands (dims : List Nat) (keepDim : Bool) (operand : Tensor ℚ) (index : List Nat) : List ℚ :=
  (positions dims 0 operand.shape (if keepDim then without dims 0 index else index)).map operand.data

/-- An element of a mean. -/
def MeanOp.eval (meanOp : MeanOp ε) (operand : Tensor ℚ) (index : List Nat) : ℚ :=
  (summands meanOp.dimArg meanOp.keepDim operand index).sum /
    (summands meanOp.dimArg meanOp.keepDim operand index).length

/-- An element of a sum, scaled by a constant. -/
def ScaleKind.eval (kind : ScaleKind) (sum fill : ℚ) : ℚ :=
  match kind with
  | .multiply => sum * fill
  | .div => sum / fill

/-- The scale of a mean. -/
def ScaleKind.ofMean (kind : ScaleKind) (count : ℚ) : ℚ :=
  match kind with
  | .multiply => 1 / count
  | .div => count

end Libtt.ScaledSum

/-! ## What a scaled sum needs to be taken for a mean -/
namespace Libtt.ScaledSum

open Libtt.Foundation Libtt.StableHlo
open Libtt.Foundation.BinaryFormat (binary32)
open Libtt.SliceFusions (TensorType)

variable {ε : Type}

theorem length_positions (dims : List Nat) (dim : Nat) (shape index : List Nat) :
    (positions dims dim shape index).length =
      ((List.range shape.length).map fun d =>
        if dim + d ∈ dims then shape.getD d 0 else 1).prod := by
  induction shape generalizing dim index with
  | nil => rfl
  | cons size shape ih =>
    have rest (index : List Nat) : (positions dims (dim + 1) shape index).length =
        ((List.range shape.length).map fun d =>
          if dim + (d + 1) ∈ dims then (size :: shape).getD (d + 1) 0 else 1).prod := by
      rw [ih]
      congr 2
      funext d
      rw [List.getD_cons_succ, show dim + 1 + d = dim + (d + 1) by omega]
    rw [positions, List.length_cons, List.range_succ_eq_map, List.map_cons, List.prod_cons,
      List.map_map]
    by_cases reduced : dim ∈ dims
    · rw [if_pos reduced, List.length_flatMap]
      simp only [List.length_map, rest, List.map_const', List.length_range, List.sum_replicate,
        Nat.add_zero, if_pos reduced, List.getD_cons_zero]
      rfl
    · rw [if_neg reduced, List.length_map, rest]
      simp only [Nat.add_zero, if_neg reduced, one_mul]
      rfl

/-- Dimensions out of a shape, each once, are those of it that are listed. -/
theorem prod_reduced {dims shape : List Nat} (once : dims.Nodup)
    (inside : ∀ d ∈ dims, d < shape.length) :
    ((List.range shape.length).map fun d => if d ∈ dims then shape.getD d 0 else 1).prod =
      (dims.map fun d => shape.getD d 0).prod := by
  have listed (all : List Nat) : (all.map fun d => if d ∈ dims then shape.getD d 0 else 1).prod =
      ((all.filter (· ∈ dims)).map fun d => shape.getD d 0).prod := by
    induction all with
    | nil => rfl
    | cons d all ih =>
      rw [List.map_cons, List.prod_cons, ih]
      by_cases reduced : d ∈ dims
      · rw [if_pos reduced, List.filter_cons_of_pos (by simpa using reduced), List.map_cons,
          List.prod_cons]
      · rw [if_neg reduced, List.filter_cons_of_neg (by simpa using reduced), one_mul]
  rw [listed]
  apply List.Perm.prod_eq
  apply List.Perm.map
  apply (List.perm_ext_iff_of_nodup (List.nodup_range.filter _) once).mpr
  intro d
  simp only [List.mem_filter, List.mem_range, decide_eq_true_eq]
  constructor
  · exact And.right
  · intro member
    exact ⟨inside d member, member⟩

/-- How many elements each sum adds. -/
def count (shape dims : List Nat) : Nat := (dims.map fun d => shape.getD d 0).prod

theorem length_summands {dims : List Nat} {operand : Tensor ℚ} (once : dims.Nodup)
    (inside : ∀ d ∈ dims, d < operand.shape.length) (keepDim : Bool) (index : List Nat) :
    (summands dims keepDim operand index).length = count operand.shape dims := by
  rw [summands, List.length_map, length_positions, count, ← prod_reduced once inside]
  simp only [Nat.zero_add]

/-- The product in 64 bits is the number of elements where that fits. -/
theorem reducedProduct_eq (shape dims : List Nat) (fits : count shape dims < 2 ^ 63) :
    reducedProduct shape dims = count shape dims := by
  have wrapped (dims : List Nat) (product : ℤ) :
      dims.foldl (fun (product : ℤ) dim => (product * shape.getD dim 0).bmod (2 ^ 64))
          (product.bmod (2 ^ 64)) =
        (product * count shape dims).bmod (2 ^ 64) := by
    induction dims generalizing product with
    | nil => simp [count]
    | cons dim dims ih =>
      rw [List.foldl_cons, Int.bmod_mul_bmod, ih]
      congr 1
      simp only [count, List.map_cons, List.prod_cons]
      push_cast
      ring
  have whole := wrapped dims 1
  rw [show (1 : ℤ).bmod (2 ^ 64) = 1 from rfl, one_mul] at whole
  rw [reducedProduct, whole]
  apply Int.bmod_eq_of_le
  · omega
  · omega

theorem round_error32 (number : ℚ) :
    |binary32.round number - number| ≤ |number| / 2 ^ 24 + 1 / 10 ^ 40 := by
  have error := binary32.round_error number
  have unit : binary32.unit / 2 ≤ 1 / 10 ^ 40 := by
    norm_num [BinaryFormat.unit, BinaryFormat.bias, binary32]
  have width : binary32.fractionBits + 1 = 24 := rfl
  rw [width] at error
  linarith

/-- Numbers far below the largest float are rounded. -/
theorem ofNumber_eq {number : ℚ} (less : |number| < 2 ^ 100) :
    Single.ofNumber number = .finite (binary32.round number) := by
  have large : (2 : ℚ) ^ 100 ≤ binary32.overflow := by
    norm_num [BinaryFormat.overflow, BinaryFormat.bias, binary32]
  exact if_neg (not_le.mpr (less.trans_le large))

theorem FLOAT_TOLERANCE_bounds :
    1 / 10000 - 1 / 10 ^ 11 ≤ FLOAT_TOLERANCE ∧ FLOAT_TOLERANCE ≤ 1 / 10000 + 1 / 10 ^ 11 := by
  have error := round_error32 (1 / 10000)
  rw [abs_le, abs_of_pos (by norm_num)] at error
  unfold FLOAT_TOLERANCE
  constructor <;> linarith

/-- The expected scale is that of a mean up to roundings. -/
theorem expectedValue_eq (kind : ScaleKind) {n : Nat} (positive : 0 < n) (fits : n < 2 ^ 63) :
    ∃ expected, expectedValue kind n = .finite expected ∧ 0 < expected ∧ expected < 2 ^ 64 ∧
      |expected - kind.ofMean n| ≤ kind.ofMean n / 7500000 := by
  have least : (1 : ℚ) ≤ n := by exact_mod_cast positive
  have most : (n : ℚ) < 2 ^ 63 := by exact_mod_cast fits
  have small : |((n : ℤ) : ℚ)| < 2 ^ 100 := by
    rw [Int.cast_natCast, Nat.abs_cast]
    linarith
  have error := round_error32 n
  rw [Nat.abs_cast] at error
  obtain ⟨below, above⟩ := abs_le.mp error
  have isDivisor : Single.ofNumber ((n : ℤ) : ℚ) = .finite (binary32.round n) := by
    rw [ofNumber_eq small, Int.cast_natCast]
  generalize binary32.round n = divisor at *
  cases kind with
  | div =>
    refine ⟨divisor, isDivisor, by linarith, by linarith, ?_⟩
    rw [ScaleKind.ofMean, abs_le]
    constructor <;> linarith
  | multiply =>
    have divisorPositive : 0 < divisor := by linarith
    have meanLeast : 1 / 2 ^ 63 ≤ 1 / (n : ℚ) := one_div_le_one_div_of_le (by linarith) most.le
    have meanMost : 1 / (n : ℚ) ≤ 1 := (div_le_one (by linarith)).mpr least
    have inverseMost : 1 / divisor ≤ 1 / n * (1 + 1 / 15000000) := by
      have bound : n * (1 - 1 / 16000000) ≤ divisor := by linarith
      calc 1 / divisor ≤ 1 / (n * (1 - 1 / 16000000)) :=
            one_div_le_one_div_of_le (by linarith) bound
        _ = 1 / n * (1 / (1 - 1 / 16000000)) := (one_div_mul_one_div _ _).symm
        _ ≤ 1 / n * (1 + 1 / 15000000) := by
            apply mul_le_mul_of_nonneg_left (by norm_num)
            positivity
    have inverseLeast : 1 / n * (1 - 1 / 15000000) ≤ 1 / divisor := by
      have bound : divisor ≤ n * (1 + 1 / 16000000) := by linarith
      calc 1 / (n : ℚ) * (1 - 1 / 15000000) ≤ 1 / n * (1 / (1 + 1 / 16000000)) := by
            apply mul_le_mul_of_nonneg_left (by norm_num)
            positivity
        _ = 1 / (n * (1 + 1 / 16000000)) := one_div_mul_one_div _ _
        _ ≤ 1 / divisor := one_div_le_one_div_of_le divisorPositive bound
    have inversePositive : 0 < 1 / divisor := one_div_pos.mpr divisorPositive
    have rounded := round_error32 (1 / divisor)
    rw [abs_of_pos inversePositive] at rounded
    obtain ⟨roundedBelow, roundedAbove⟩ := abs_le.mp rounded
    have isExpected : expectedValue .multiply n = .finite (binary32.round (1 / divisor)) := by
      rw [expectedValue, isDivisor, Single.reciprocal, if_neg divisorPositive.ne', ofNumber_eq]
      rw [abs_of_pos inversePositive]
      linarith
    refine ⟨_, isExpected, by linarith, by linarith, ?_⟩
    rw [ScaleKind.ofMean, abs_le]
    constructor <;> linarith

/-- The tolerance is a ten-thousandth of the scale, or of one. -/
theorem tolerance_eq {expected : ℚ} (positive : 0 < expected) (less : expected < 2 ^ 64) :
    ∃ most, tolerance (.finite expected) = .finite most ∧
      most ≤ 1000001 / 10 ^ 10 * max 1 expected ∧ 999999 / 10 ^ 10 * max 1 expected ≤ most := by
  obtain ⟨least, most⟩ := FLOAT_TOLERANCE_bounds
  have product : expected * FLOAT_TOLERANCE ≤ expected * (1 / 10000 + 1 / 10 ^ 11) :=
    mul_le_mul_of_nonneg_left most positive.le
  have productLeast : expected * (1 / 10000 - 1 / 10 ^ 11) ≤ expected * FLOAT_TOLERANCE :=
    mul_le_mul_of_nonneg_left least positive.le
  have productPositive : 0 < expected * FLOAT_TOLERANCE := by
    apply mul_pos positive
    linarith
  have error := round_error32 (expected * FLOAT_TOLERANCE)
  rw [abs_of_pos productPositive] at error
  have small : |expected * FLOAT_TOLERANCE| < 2 ^ 100 := by
    rw [abs_of_pos productPositive]
    linarith
  have one := le_max_left 1 expected
  have other := le_max_right 1 expected
  obtain ⟨below, above⟩ := abs_le.mp error
  refine ⟨if FLOAT_TOLERANCE < binary32.round (expected * FLOAT_TOLERANCE) then
      binary32.round (expected * FLOAT_TOLERANCE) else FLOAT_TOLERANCE, ?_, ?_, ?_⟩
  · rw [tolerance, Single.abs, abs_of_pos positive, Single.scale, ofNumber_eq small]
    rfl
  · split <;> linarith
  · rcases max_choice 1 expected with isOne | isExpected
    · split <;> linarith
    · split <;> linarith

/-- A distance that is rounded to the tolerance at most. -/
theorem le_of_round_le {distance most : ℚ} (nonneg : 0 ≤ distance)
    (rounded : binary32.round distance ≤ most) (least : 1 / 10 ^ 10 ≤ most) :
    distance ≤ most * (1 + 1 / 10 ^ 7) := by
  have error := round_error32 distance
  rw [abs_of_nonneg nonneg] at error
  obtain ⟨below, -⟩ := abs_le.mp error
  linarith

/-- How far an accepted constant is from what is expected. -/
theorem accepted {helpers : Helpers ε} (documented : helpers.Documented) {kind : ScaleKind}
    {fullOp : FullOp ε} {shape dims : List Nat} (positive : 0 < count shape dims)
    (fits : count shape dims < 2 ^ 63)
    (valid : isValidScale helpers kind fullOp shape dims = true) :
    ∃ fill expected, fullOp.fillValue = .finite fill ∧
      expectedValue kind (count shape dims) = .finite expected ∧
      |expected - kind.ofMean (count shape dims)| ≤ kind.ofMean (count shape dims) / 7500000 ∧
      |fill - expected| ≤ 1000002 / 10 ^ 10 * max 1 expected := by
  obtain ⟨expected, isExpected, expectedPositive, expectedLess, near⟩ :=
    expectedValue_eq kind positive fits
  obtain ⟨most, isMost, bound, -⟩ := tolerance_eq expectedPositive expectedLess
  rw [isValidScale, reducedProduct_eq _ _ fits, isExpected] at valid
  rw [isMost] at valid
  obtain ⟨fill, isFill, within⟩ := documented.withinTolerance valid
  refine ⟨fill, expected, isFill, isExpected, near, ?_⟩
  have one := le_max_left 1 expected
  rcases le_total (1 / 10 ^ 10) most with least | little
  · have distance := le_of_round_le (abs_nonneg _) within least
    linarith
  · have distance := le_of_round_le (abs_nonneg _) (within.trans little) le_rfl
    linarith

/-- The constant is the scale of a mean up to the tolerance. -/
theorem near_of_accepted {mean expected fill : ℚ}
    (near : |expected - mean| ≤ mean / 7500000)
    (within : |fill - expected| ≤ 1000002 / 10 ^ 10 * max 1 expected) :
    |fill - mean| ≤ 1002 / 10 ^ 7 * max 1 mean := by
  have one := le_max_left 1 mean
  have other := le_max_right 1 mean
  obtain ⟨below, above⟩ := abs_le.mp near
  have largest : max 1 expected ≤ max 1 mean * (1 + 1 / 7500000) :=
    max_le (by linarith) (by linarith)
  obtain ⟨withinBelow, withinAbove⟩ := abs_le.mp within
  rw [abs_le]
  constructor <;> linarith

/-- A scale of twice that of the mean is too far away. -/
theorem double_not_accepted {n : Nat} (positive : 0 < n) (less : n < 10000) {expected : ℚ}
    (near : |expected - 1 / n| ≤ 1 / n / 7500000)
    (within : |binary32.round (2 / n) - expected| ≤ 1000002 / 10 ^ 10 * max 1 expected) :
    False := by
  have most : (n : ℚ) ≤ 9999 := by exact_mod_cast Nat.le_of_lt_succ less
  have least : (1 : ℚ) ≤ n := by exact_mod_cast positive
  have meanLeast : 1 / 9999 ≤ 1 / (n : ℚ) := one_div_le_one_div_of_le (by linarith) most
  have meanMost : 1 / (n : ℚ) ≤ 1 := (div_le_one (by linarith)).mpr least
  have double : (2 : ℚ) / n = 2 * (1 / n) := by ring
  have error := round_error32 (2 * (1 / n))
  have doublePositive : 0 < 2 * (1 / (n : ℚ)) := by linarith
  rw [abs_of_pos doublePositive] at error
  rw [double] at within
  obtain ⟨below, -⟩ := abs_le.mp error
  obtain ⟨-, nearAbove⟩ := abs_le.mp near
  have largest : max 1 expected ≤ 1 + 1 / 7500000 := max_le (by norm_num) (by linarith)
  obtain ⟨-, withinAbove⟩ := abs_le.mp within
  linarith

/-- A divisor of one less is too far away. -/
theorem pred_not_accepted {n : Nat} (less : n < 10000) {expected : ℚ}
    (isExpected : expectedValue .div n = .finite expected)
    (within : |(n - 1 : ℚ) - expected| ≤ 1000002 / 10 ^ 10 * max 1 expected) : False := by
  have most : (n : ℚ) ≤ 9999 := by exact_mod_cast Nat.le_of_lt_succ less
  have exact : binary32.round n = n := binary32.round_natCast (less.trans (by decide))
  have small : |(n : ℚ)| < 2 ^ 100 := by
    rw [Nat.abs_cast]
    linarith
  rw [expectedValue, Int.cast_natCast, ofNumber_eq small, exact] at isExpected
  rw [← Single.finite.inj isExpected] at within
  have largest : max 1 (n : ℚ) ≤ 9999 := max_le (by norm_num) most
  have distance : |(n - 1 : ℚ) - n| = 1 := by
    rw [sub_sub_cancel_left, abs_neg, abs_one]
  linarith

/-- What the error of a scaled sum is measured against: the scale is off by a part of one, the
divisor by a part of itself. -/
def ScaleKind.magnitude (kind : ScaleKind) (sum : ℚ) (n : Nat) : ℚ :=
  match kind with
  | .multiply => |sum|
  | .div => |sum / n|

/-- The error of a scaled sum as a mean, in exact arithmetic. -/
theorem eval_near {kind : ScaleKind} {n : Nat} (positive : 0 < n) {fill : ℚ}
    (near : |fill - kind.ofMean n| ≤ 1002 / 10 ^ 7 * max 1 (kind.ofMean n)) (sum : ℚ) :
    |kind.eval sum fill - sum / n| ≤ 1003 / 10 ^ 7 * kind.magnitude sum n := by
  have least : (1 : ℚ) ≤ n := by exact_mod_cast positive
  have nonneg := abs_nonneg sum
  cases kind with
  | multiply =>
    have meanMost : 1 / (n : ℚ) ≤ 1 := (div_le_one (by linarith)).mpr least
    have distance : ScaleKind.multiply.eval sum fill - sum / n = sum * (fill - 1 / n) := by
      rw [ScaleKind.eval, mul_sub, mul_one_div]
    rw [ScaleKind.ofMean, max_eq_left meanMost] at near
    rw [distance, abs_mul, ScaleKind.magnitude]
    calc |sum| * |fill - 1 / n| ≤ |sum| * (1002 / 10 ^ 7 * 1) :=
          mul_le_mul_of_nonneg_left near nonneg
      _ ≤ 1003 / 10 ^ 7 * |sum| := by linarith
  | div =>
    rw [ScaleKind.ofMean, max_eq_right least] at near
    obtain ⟨below, -⟩ := abs_le.mp near
    have fillPositive : 0 < fill := by linarith
    have distance : ScaleKind.div.eval sum fill - sum / n = sum / n * ((n - fill) / fill) := by
      rw [ScaleKind.eval]
      field_simp
    have relative : |(n - fill) / fill| ≤ 1003 / 10 ^ 7 := by
      rw [abs_div, abs_of_pos fillPositive, abs_sub_comm, div_le_iff₀ fillPositive]
      linarith
    rw [distance, abs_mul, ScaleKind.magnitude, mul_comm]
    exact mul_le_mul_of_nonneg_right relative (abs_nonneg _)

/-- When the pattern applies, and to what. -/
theorem matchAndRewrite_some {helpers : Helpers ε} {scaleOp : ScaleOp ε} {meanOp : MeanOp ε}
    (rewritten : matchAndRewrite helpers scaleOp = some meanOp) :
    ∃ sumOp fullOp dims, scaleOp.lhs = some sumOp ∧ scaleOp.rhs = some fullOp ∧
      sumOp.dimArg = some dims ∧
      isValidScale helpers scaleOp.kind fullOp sumOp.inputType.shape dims = true ∧
      meanOp = helpers.createMeanOp sumOp dims := by
  unfold matchAndRewrite at rewritten
  split at rewritten
  · rename_i sumOp fullOp isSum isFull
    split at rewritten
    · rename_i dims isDims
      split at rewritten
      · rename_i accepted
        exact ⟨sumOp, fullOp, dims, isSum, isFull, isDims, (Bool.and_eq_true_iff.mp accepted).2,
          (Option.some.inj rewritten).symm⟩
      · cases rewritten
    · cases rewritten
  · cases rewritten

/-- A scaled sum that is replaced by a mean is that mean up to the tolerance; below ten thousand
summands neither twice the scale nor one less as the divisor is taken for it. -/
theorem scaled_sum_to_mean {helpers : Helpers ε} (documented : helpers.Documented)
    {scaleOp : ScaleOp ε} {meanOp : MeanOp ε}
    (verifies : ∀ sumOp, scaleOp.lhs = some sumOp → sumOp.Verifies)
    (rewritten : matchAndRewrite helpers scaleOp = some meanOp) :
    ∃ sumOp fullOp, scaleOp.lhs = some sumOp ∧ scaleOp.rhs = some fullOp ∧
      meanOp = ⟨sumOp.input, meanOp.dimArg, sumOp.keepDim, sumOp.type⟩ ∧
      sumOp.dimArg = some meanOp.dimArg ∧
      (scaleOp.type = sumOp.type → meanOp.type = scaleOp.type) ∧
      (∀ operand : Tensor ℚ, operand.shape = sumOp.inputType.shape → ∀ index,
        (summands meanOp.dimArg meanOp.keepDim operand index).length =
          count sumOp.inputType.shape meanOp.dimArg) ∧
      ∀ n, n = count sumOp.inputType.shape meanOp.dimArg → 0 < n → n < 2 ^ 63 →
        ∃ fill, fullOp.fillValue = .finite fill ∧
          |fill - scaleOp.kind.ofMean n| ≤ 1002 / 10 ^ 7 * max 1 (scaleOp.kind.ofMean n) ∧
          (∀ operand : Tensor ℚ, operand.shape = sumOp.inputType.shape → ∀ index,
            |scaleOp.kind.eval (summands meanOp.dimArg meanOp.keepDim operand index).sum fill -
                meanOp.eval operand index| ≤
              1003 / 10 ^ 7 * scaleOp.kind.magnitude
                (summands meanOp.dimArg meanOp.keepDim operand index).sum n) ∧
          (n < 10000 → match scaleOp.kind with
            | .multiply => fill ≠ binary32.round (2 / n)
            | .div => fill ≠ n - 1) := by
  obtain ⟨sumOp, fullOp, dims, isSum, isFull, isDims, valid, rfl⟩ := matchAndRewrite_some rewritten
  obtain ⟨once, inside, -⟩ := verifies sumOp isSum dims isDims
  rw [documented.meanOfSum]
  have lengths (operand : Tensor ℚ) (sameShape : operand.shape = sumOp.inputType.shape)
      (index : List Nat) : (summands dims sumOp.keepDim operand index).length =
        count sumOp.inputType.shape dims := by
    rw [← sameShape]
    exact length_summands once (sameShape ▸ inside) sumOp.keepDim index
  refine ⟨sumOp, fullOp, isSum, isFull, rfl, isDims, Eq.symm, lengths, ?_⟩
  rintro n rfl positive fits
  obtain ⟨fill, expected, isFill, isExpected, near, within⟩ :=
    accepted documented positive fits valid
  have nearMean := near_of_accepted near within
  refine ⟨fill, isFill, nearMean, ?_, ?_⟩
  · intro operand sameShape index
    rw [MeanOp.eval, lengths operand sameShape index]
    exact eval_near positive nearMean _
  · intro less
    cases isKind : scaleOp.kind with
    | multiply =>
      rw [isKind] at near
      rintro rfl
      exact double_not_accepted positive less near within
    | div =>
      rw [isKind] at isExpected
      rintro rfl
      exact pred_not_accepted less isExpected within

/-- Finite floats whose distance is a tolerance at most. -/
def isWithin : Single → Single → Single → Bool
  | .finite fill, .finite expected, .finite tolerance =>
    decide (binary32.round |fill - expected| ≤ tolerance)
  | _, _, _ => false

/-- Functions as the pattern relies on them. -/
def comparing : Helpers ε where
  isFullOpWithValue fullOp := isWithin fullOp.fillValue
  createMeanOp sumOp reduceDims := ⟨sumOp.input, reduceDims, sumOp.keepDim, sumOp.type⟩

theorem comparing_documented : (comparing : Helpers ε).Documented := by
  constructor
  · intro fullOp expected tolerance accepted
    have within : isWithin fullOp.fillValue (.finite expected) (.finite tolerance) = true := accepted
    cases isFill : fullOp.fillValue with
    | finite fill =>
      rw [isFill] at within
      exact ⟨fill, rfl, of_decide_eq_true within⟩
    | infinite negative =>
      rw [isFill] at within
      cases within
    | nan =>
      rw [isFill] at within
      cases within
  · intro sumOp reduceDims
    rfl

/-- A vector with the sum of its elements. -/
def sumOver (n : Nat) : SumOp Unit := ⟨0, ⟨[n], ()⟩, some [0], false, ⟨[], ()⟩, true⟩

def scaleBy (kind : ScaleKind) (n : Nat) (fill : ℚ) (shape : List Nat) : ScaleOp Unit :=
  ⟨kind, some (sumOver n), some ⟨⟨shape, ()⟩, .finite fill⟩, ⟨shape, ()⟩⟩

theorem sumOver_verifies (n : Nat) : (sumOver n).Verifies := by
  rintro dims isDims
  rw [← Option.some.inj isDims]
  exact ⟨List.nodup_singleton 0, by simp [sumOver], rfl⟩

/-- A constant that is close enough. -/
theorem scaleBy_accepted {kind : ScaleKind} {n : Nat} {fill : ℚ} (shape : List Nat)
    (positive : 0 < n) (fits : n < 2 ^ 63)
    (close : |fill - kind.ofMean n| ≤ 9 / 10 ^ 5 * max 1 (kind.ofMean n)) :
    matchAndRewrite comparing (scaleBy kind n fill shape) = some ⟨0, [0], false, ⟨[], ()⟩⟩ := by
  obtain ⟨expected, isExpected, expectedPositive, expectedLess, near⟩ :=
    expectedValue_eq kind positive fits
  obtain ⟨most, isMost, -, least⟩ := tolerance_eq expectedPositive expectedLess
  have isCount : count [n] [0] = n := by simp [count]
  have product := reducedProduct_eq [n] [0] (isCount.symm ▸ fits)
  have accepted : isValidScale (comparing : Helpers Unit) kind ⟨⟨shape, ()⟩, .finite fill⟩ [n] [0] =
      true := by
    rw [isValidScale, product, isCount, isExpected, isMost]
    apply decide_eq_true
    have error := round_error32 |fill - expected|
    rw [abs_abs] at error
    obtain ⟨-, above⟩ := abs_le.mp error
    obtain ⟨nearBelow, nearAbove⟩ := abs_le.mp near
    have one := le_max_left 1 expected
    have other := le_max_right 1 expected
    have largest : max 1 (kind.ofMean n) ≤ max 1 expected * (1 + 1 / 7000000) :=
      max_le (by linarith) (by linarith)
    have triangle : |fill - expected| ≤ |fill - kind.ofMean n| + |expected - kind.ofMean n| := by
      rw [abs_sub_comm expected]
      exact abs_sub_le _ _ _
    linarith
  rw [matchAndRewrite]
  simp only [scaleBy, sumOver, accepted, Bool.and_self, if_true]
  rfl

/-- Twice the scale and one less as the divisor are taken for those of a mean of twenty thousand
elements, and a mean of the shape of a sum replaces one that the divisor broadcasts. -/
theorem wrong_scales_accepted :
    matchAndRewrite comparing (scaleBy .multiply 20000 (binary32.round (2 / 20000)) []) =
        some ⟨0, [0], false, ⟨[], ()⟩⟩ ∧
      binary32.round (2 / 20000) ≠ binary32.round (1 / 20000) ∧
      matchAndRewrite comparing (scaleBy .div 20000 19999 []) = some ⟨0, [0], false, ⟨[], ()⟩⟩ ∧
      matchAndRewrite comparing (scaleBy .div 2 2 [4]) = some ⟨0, [0], false, ⟨[], ()⟩⟩ ∧
      (scaleBy .div 2 2 [4]).type = ⟨[4], ()⟩ := by
  have double := round_error32 (2 / 20000)
  have single := round_error32 (1 / 20000)
  rw [abs_of_pos (by norm_num : (0 : ℚ) < 1 / 20000)] at single
  obtain ⟨doubleBelow, doubleAbove⟩ := abs_le.mp double
  obtain ⟨singleBelow, singleAbove⟩ := abs_le.mp single
  refine ⟨scaleBy_accepted [] (by decide) (by decide) ?_, ?_,
    scaleBy_accepted [] (by decide) (by decide) ?_,
    scaleBy_accepted [4] (by decide) (by decide) ?_, rfl⟩
  · have one := le_max_left 1 (ScaleKind.multiply.ofMean (20000 : Nat))
    rw [show ScaleKind.multiply.ofMean (20000 : Nat) = 1 / 20000 from rfl] at one ⊢
    rw [abs_le]
    constructor <;> linarith
  · intro same
    linarith
  · norm_num [ScaleKind.ofMean]
  · norm_num [ScaleKind.ofMean]

theorem scaled_sum_to_mean_four : ∃ sumOp fullOp meanOp,
    matchAndRewrite comparing (scaleBy .div 4 4 []) = some meanOp ∧
      (scaleBy .div 4 4 []).lhs = some sumOp ∧ (scaleBy .div 4 4 []).rhs = some fullOp ∧
      meanOp.type = sumOp.type := by
  have rewritten : matchAndRewrite comparing (scaleBy .div 4 4 []) =
      some ⟨0, [0], false, ⟨[], ()⟩⟩ := by
    apply scaleBy_accepted [] (by decide) (by decide)
    norm_num [ScaleKind.ofMean]
  obtain ⟨sumOp, fullOp, isSum, isFull, isMean, -⟩ := scaled_sum_to_mean comparing_documented
    (fun sumOp isSum => Option.some.inj isSum ▸ sumOver_verifies 4) rewritten
  exact ⟨sumOp, fullOp, _, rewritten, isSum, isFull, congrArg MeanOp.type isMean⟩

end Libtt.ScaledSum

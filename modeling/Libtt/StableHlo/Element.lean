import Libtt.StableHlo.Integer
import Libtt.StableHlo.Permute

/-!
# Elements of StableHLO tensors

An element is an integer, or a float of some format.
-/
namespace Libtt.StableHlo

deriving instance DecidableEq for IntegerType

/-- A float format. Its numbers are in their order, zero at 0; negative zero, where the format has
one, is at -1. The checked formats are those that `checkInitValue` reads: bf16, f16, f32, f64. -/
structure FloatFormat where
  least : Int
  greatest : Int
  fractionBits : Nat
  bias : Nat
  hasInfinities : Bool
  checked : Bool
  zero_mem : least ≤ 0 ∧ 0 ≤ greatest
  deriving DecidableEq

inductive FloatValue (format : FloatFormat) where
  | nan
  | number (key : Int) (mem : format.least ≤ key ∧ key ≤ format.greatest)
  deriving DecidableEq

inductive ElementType where
  | float (format : FloatFormat)
  | integer (type : IntegerType)
  deriving DecidableEq

abbrev Element : ElementType → Type
  | .float format => FloatValue format
  | .integer type => type.Word

theorem FloatFormat.least_le (format : FloatFormat) : format.least ≤ format.greatest :=
  le_trans format.zero_mem.1 format.zero_mem.2

theorem FloatFormat.least_mem (format : FloatFormat) :
    format.least ≤ format.least ∧ format.least ≤ format.greatest :=
  ⟨le_refl _, format.least_le⟩

theorem FloatFormat.greatest_mem (format : FloatFormat) :
    format.least ≤ format.greatest ∧ format.greatest ≤ format.greatest :=
  ⟨format.least_le, le_refl _⟩

namespace FloatValue

variable {format : FloatFormat}

/-- `APFloat::getZero`. -/
def zero : FloatValue format := .number 0 format.zero_mem

/-- The number at a place, or the last one before it. -/
def clamped (key : Int) : FloatValue format :=
  .number (max format.least (min key format.greatest))
    ⟨le_max_left _ _, max_le format.least_le (min_le_right _ _)⟩

/-- `APFloat::getOne`. -/
def one : FloatValue format := clamped (format.bias * 2 ^ format.fractionBits)

/-- `APFloat::getInf`, which gives NaN for a format without infinities. -/
def getInf (negative : Bool) : FloatValue format :=
  if format.hasInfinities then
    if negative then .number format.least format.least_mem
    else .number format.greatest format.greatest_mem
  else .nan

/-- The greater number, or NaN if one of them is NaN. -/
def maximum : FloatValue format → FloatValue format → FloatValue format
  | .number left isLeft, .number right isRight =>
    .number (max left right) ⟨le_max_of_le_left isLeft.1, max_le isLeft.2 isRight.2⟩
  | _, _ => .nan

/-- The lesser number, or NaN if one of them is NaN. -/
def minimum : FloatValue format → FloatValue format → FloatValue format
  | .number left isLeft, .number right isRight =>
    .number (min left right) ⟨le_min isLeft.1 isRight.1, min_le_of_left_le isLeft.2⟩
  | _, _ => .nan

/-- The place of the float nearest to a natural number; ties go to the even one. -/
def natKey (format : FloatFormat) (value : Nat) : Nat :=
  let exponent := value.log2
  if value = 0 then 0
  else if exponent ≤ format.fractionBits then
    (exponent + format.bias) * 2 ^ format.fractionBits +
      (value * 2 ^ (format.fractionBits - exponent) - 2 ^ format.fractionBits)
  else
    let dropped := 2 ^ (exponent - format.fractionBits)
    let kept := value / dropped
    let rest := 2 * (value % dropped)
    let rounded := if dropped < rest ∨ rest = dropped ∧ kept % 2 = 1 then kept + 1 else kept
    (exponent + format.bias) * 2 ^ format.fractionBits + (rounded - 2 ^ format.fractionBits)

/-- The float nearest to an integer. -/
def ofInt (value : Int) : FloatValue format :=
  clamped (if 0 ≤ value then natKey format value.toNat else -natKey format (-value).toNat - 1)

/-- The number that a place stands for, without its fraction. -/
def natValue (format : FloatFormat) (key : Nat) : Nat :=
  let exponent := key / 2 ^ format.fractionBits
  let fraction := key % 2 ^ format.fractionBits + 2 ^ format.fractionBits
  if exponent < format.bias then 0
  else if exponent < format.bias + format.fractionBits then
    fraction / 2 ^ (format.bias + format.fractionBits - exponent)
  else fraction * 2 ^ (exponent - format.bias - format.fractionBits)

/-- A float without its fraction. -/
def toInt : FloatValue format → Int
  | .nan => 0
  | .number key _ =>
    if 0 ≤ key then natValue format key.toNat else -natValue format (-key - 1).toNat

end FloatValue

inductive ComparisonDirection where
  | EQ
  | NE
  | LT
  | GT
  deriving DecidableEq, Repr

/-- The number that an element stands for, if it is one. Both zeros are one number. -/
def number : (type : ElementType) → Element type → Option Int
  | .integer type, word => some (type.read word)
  | .float _, .nan => none
  | .float _, .number key _ => some (if key = -1 then 0 else key)

/-- `stablehlo.compare`. A NaN is neither before nor after anything, nor equal to it. -/
def compareOp (direction : ComparisonDirection) (type : ElementType) (lhs rhs : Element type) :
    Bool :=
  match number type lhs, number type rhs with
  | some left, some right =>
    match direction with
    | .EQ => left = right
    | .NE => left ≠ right
    | .LT => left < right
    | .GT => right < left
  | _, _ => direction = .NE

/-- `Builder::getZeroAttr`. -/
def zeroAttr : (type : ElementType) → Element type
  | .integer type => BitVec.ofNat type.width 0
  | .float _ => .zero

/-- The operations that combine two elements. -/
inductive Combiner where
  | add
  | multiply
  | maximum
  | minimum
  deriving DecidableEq, Repr

/-- What StableHLO and TTIR leave to the formats: rounding, and casts from and to floats. -/
structure Semantics where
  add (format : FloatFormat) : FloatValue format → FloatValue format → FloatValue format
  multiply (format : FloatFormat) : FloatValue format → FloatValue format → FloatValue format
  widen (source target : FloatFormat) : FloatValue source → FloatValue target
  round (source : IntegerType) (target : FloatFormat) : source.Word → FloatValue target
  truncate (source : FloatFormat) (target : IntegerType) : FloatValue source → target.Word

/-- The combiner of integers; those of one bit are booleans. -/
def IntegerType.combine (type : IntegerType) : Combiner → type.Word → type.Word → type.Word
  | .add, left, right => if type.width = 1 then left ||| right else left + right
  | .multiply, left, right => if type.width = 1 then left &&& right else left * right
  | .maximum, left, right => if type.width = 1 then left ||| right else type.maximum left right
  | .minimum, left, right => if type.width = 1 then left &&& right else type.minimum left right

namespace Semantics

/-- Rounding to nearest, for floats that are whole numbers. -/
def ofIntegers : Semantics where
  add _ left right := .ofInt (left.toInt + right.toInt)
  multiply _ left right := .ofInt (left.toInt * right.toInt)
  widen _ _ value := .ofInt value.toInt
  round source _ value := .ofInt (source.read value)
  truncate _ target value := target.constant value.toInt

variable (semantics : Semantics)

def combine (combiner : Combiner) : (type : ElementType) → Element type → Element type →
    Element type
  | .integer type => type.combine combiner
  | .float format =>
    match combiner with
    | .add => semantics.add format
    | .multiply => semantics.multiply format
    | .maximum => FloatValue.maximum
    | .minimum => FloatValue.minimum

/-- `ttir.typecast`. An integer keeps its number, up to the width. -/
def typecast : (source target : ElementType) → Element source → Element target
  | .integer _, .integer target, value => target.constant (IntegerType.read _ value)
  | .integer source, .float target, value => semantics.round source target value
  | .float source, .integer target, value => semantics.truncate source target value
  | .float source, .float target, value => semantics.widen source target value

end Semantics

theorem IntegerType.eq_of_read {type : IntegerType} {left right : type.Word}
    (same : type.read left = type.read right) : left = right :=
  read_injective (same ▸ Int.ModEq.refl _)

namespace FloatValue

variable {format : FloatFormat}

theorem maximum_assoc (first second third : FloatValue format) :
    (first.maximum second).maximum third = first.maximum (second.maximum third) := by
  cases first <;> cases second <;> cases third <;> simp only [maximum, max_assoc]

theorem maximum_comm (first second : FloatValue format) :
    first.maximum second = second.maximum first := by
  cases first <;> cases second <;> simp only [maximum, max_comm]

theorem minimum_assoc (first second third : FloatValue format) :
    (first.minimum second).minimum third = first.minimum (second.minimum third) := by
  cases first <;> cases second <;> cases third <;> simp only [minimum, min_assoc]

theorem minimum_comm (first second : FloatValue format) :
    first.minimum second = second.minimum first := by
  cases first <;> cases second <;> simp only [minimum, min_comm]

theorem getInf_maximum (infinite : format.hasInfinities) (value : FloatValue format) :
    (getInf true).maximum value = value := by
  rw [getInf, if_pos infinite, if_pos rfl]
  cases value with
  | nan => rfl
  | number key mem => simp only [maximum, max_eq_right mem.1]

theorem getInf_minimum (infinite : format.hasInfinities) (value : FloatValue format) :
    (getInf false).minimum value = value := by
  rw [getInf, if_pos infinite, if_neg Bool.false_ne_true]
  cases value with
  | nan => rfl
  | number key mem => simp only [minimum, min_eq_right mem.2]

end FloatValue

namespace IntegerType

variable {type : IntegerType}

theorem maximum_assoc (first second third : type.Word) :
    type.maximum (type.maximum first second) third =
      type.maximum first (type.maximum second third) :=
  eq_of_read (by simp only [read_maximum, max_assoc])

theorem maximum_comm (first second : type.Word) :
    type.maximum first second = type.maximum second first :=
  eq_of_read (by simp only [read_maximum, max_comm])

theorem minimum_assoc (first second third : type.Word) :
    type.minimum (type.minimum first second) third =
      type.minimum first (type.minimum second third) :=
  eq_of_read (by simp only [read_minimum, min_assoc])

theorem minimum_comm (first second : type.Word) :
    type.minimum first second = type.minimum second first :=
  eq_of_read (by simp only [read_minimum, min_comm])

theorem combine_assoc (combiner : Combiner) (first second third : type.Word) :
    type.combine combiner (type.combine combiner first second) third =
      type.combine combiner first (type.combine combiner second third) := by
  cases combiner <;> simp only [combine] <;> split
  · exact BitVec.or_assoc _ _ _
  · exact BitVec.add_assoc _ _ _
  · exact BitVec.and_assoc _ _ _
  · exact BitVec.mul_assoc _ _ _
  · exact BitVec.or_assoc _ _ _
  · exact maximum_assoc _ _ _
  · exact BitVec.and_assoc _ _ _
  · exact minimum_assoc _ _ _

theorem combine_comm (combiner : Combiner) (first second : type.Word) :
    type.combine combiner first second = type.combine combiner second first := by
  cases combiner <;> simp only [combine] <;> split
  · exact BitVec.or_comm _ _
  · exact BitVec.add_comm _ _
  · exact BitVec.and_comm _ _
  · exact BitVec.mul_comm _ _
  · exact BitVec.or_comm _ _
  · exact maximum_comm _ _
  · exact BitVec.and_comm _ _
  · exact minimum_comm _ _

theorem read_intMin (isSigned : type.signed) : type.read (BitVec.intMin type.width) = type.least := by
  rw [read, if_pos isSigned, least, if_pos isSigned, BitVec.toInt_intMin_of_pos type.positive]

theorem read_intMax (isSigned : type.signed) :
    type.read (BitVec.intMax type.width) = type.largest := by
  rw [read, if_pos isSigned, largest, if_pos isSigned, BitVec.toInt_intMax]
  push_cast [Nat.two_pow_pos (type.width - 1)]
  rfl

theorem read_allOnes (isUnsigned : ¬type.signed) :
    type.read (BitVec.allOnes type.width) = type.largest := by
  rw [read, if_neg isUnsigned, largest, if_neg isUnsigned, BitVec.toNat_allOnes]

theorem read_zero (isUnsigned : ¬type.signed) : type.read (BitVec.ofNat type.width 0) = type.least := by
  rw [read, if_neg isUnsigned, least, if_neg isUnsigned, BitVec.toNat_zero]
  rfl

/-- The least number is an identity of the maximum. -/
theorem maximum_least {identity : type.Word} (isLeast : type.read identity = type.least)
    (word : type.Word) : type.maximum identity word = word :=
  eq_of_read (by rw [read_maximum, isLeast, max_eq_right (least_le_read word)])

/-- The largest number is an identity of the minimum. -/
theorem minimum_largest {identity : type.Word} (isLargest : type.read identity = type.largest)
    (word : type.Word) : type.minimum identity word = word :=
  eq_of_read (by rw [read_minimum, isLargest, min_eq_right (read_le_largest word)])

end IntegerType

end Libtt.StableHlo

/-! ## Tensors with the same elements -/
namespace Libtt.StableHlo

variable {α : Type}

namespace Tensor

variable {first second third : Tensor α} {shape index : List Nat}

/-- The tensors have the same elements in the order of their indices. -/
structure SameElements (first second : Tensor α) : Prop where
  volume : first.shape.prod = second.shape.prod
  elements : ∀ number < first.shape.prod, first.element number = second.element number

namespace SameElements

theorem symm (same : SameElements first second) : SameElements second first where
  volume := same.volume.symm
  elements number less := (same.elements number (same.volume ▸ less)).symm

theorem trans (same : SameElements first second) (alsoSame : SameElements second third) :
    SameElements first third where
  volume := same.volume.trans alsoSame.volume
  elements number less :=
    (same.elements number less).trans (alsoSame.elements number (same.volume ▸ less))

/-- A reshape has the same elements. -/
theorem reshape (operand : Tensor α) (volume : shape.prod = operand.shape.prod) :
    SameElements (operand.reshape shape) operand where
  volume := volume
  elements _ less := reshape_element less volume

/-- Of one shape, the tensors are the same. -/
theorem same (sameElements : SameElements first second) (isShape : first.shape = second.shape) :
    first.Same second := by
  constructor
  · exact isShape
  · intro index inside
    rw [data_eq first inside, data_eq second (isShape ▸ inside), ← isShape]
    exact sameElements.elements _ (position_lt inside)

theorem of_same (same : first.Same second) : SameElements first second where
  volume := congrArg List.prod same.1
  elements number less := by
    rw [element, element, ← same.1]
    exact same.2 _ (coordinates_within less)

/-- Reshapes to one shape are the same. -/
theorem reshape_same (same : SameElements first second) (volume : shape.prod = first.shape.prod) :
    (first.reshape shape).Same (second.reshape shape) :=
  (((reshape first volume).trans same).trans
    (reshape second (volume.trans same.volume)).symm).same rfl

/-- Where each index of the first tensor has a partner at its number in the second. -/
theorem of_partner (volume : first.shape.prod = second.shape.prod)
    (partner : ∀ index, Within index first.shape → ∃ other, Within other second.shape ∧
      position first.shape index = position second.shape other ∧
        first.data index = second.data other) : SameElements first second where
  volume := volume
  elements number less := by
    obtain ⟨other, inside, number, data⟩ := partner _ (coordinates_within less)
    rw [position_coordinates less] at number
    rw [element, data, data_eq second inside, ← number]

end SameElements

/-- Permutations of the same tensors are the same. -/
theorem Same.permute {permutation : List Nat} (same : first.Same second)
    (isPermutation : IsPermutation permutation)
    (length : permutation.length = first.shape.length) :
    (first.permute permutation).Same (second.permute permutation) := by
  constructor
  · exact congrArg (applyPermutation · permutation) same.1
  · intro index inside
    apply same.2
    have isInverse := isPermutation.inverse.within (by simp [Tensor.permute]) inside
    rwa [Tensor.permute, isPermutation.apply_inverse length.symm] at isInverse

/-- The index that a permuted tensor has for an index. -/
theorem within_permute {permutation : List Nat} {operand : Tensor α}
    (isPermutation : IsPermutation permutation)
    (length : permutation.length = operand.shape.length)
    (inside : Within index (operand.permute permutation).shape) :
    ∃ origin, Within origin operand.shape ∧ index = applyPermutation origin permutation := by
  have isLength : index.length = permutation.length := by
    simpa [Tensor.permute] using inside.length
  have isInverse := isPermutation.inverse.within (by simp [Tensor.permute]) inside
  rw [Tensor.permute, isPermutation.apply_inverse length.symm] at isInverse
  exact ⟨_, isInverse, (isPermutation.inverse_apply isLength).symm⟩

end Tensor

/-- A permutation in increasing order changes nothing. -/
theorem IsPermutation.eq_range {permutation : List Nat} (isPermutation : IsPermutation permutation)
    (sorted : permutation.Pairwise (· ≤ ·)) : permutation = List.range permutation.length :=
  List.Perm.eq_of_pairwise (fun _ _ _ _ => Nat.le_antisymm) sorted
    (List.pairwise_lt_range.imp Nat.le_of_lt) isPermutation

/-- A permutation in increasing order leaves the tensor as it is. -/
theorem Tensor.permute_sorted {permutation : List Nat} (operand : Tensor α)
    (isPermutation : IsPermutation permutation) (sorted : permutation.Pairwise (· ≤ ·))
    (length : permutation.length = operand.shape.length) :
    (operand.permute permutation).Same operand := by
  have isRange := isPermutation.eq_range sorted
  have unchanged {values : List Nat} (isLength : values.length = operand.shape.length) :
      applyPermutation values permutation = values := by
    rw [isRange, length, ← isLength, applyPermutation_range]
  constructor
  · exact unchanged rfl
  · intro index inside
    have isLength : index.length = operand.shape.length := by
      simpa [Tensor.permute, length] using inside.length
    conv_lhs => rw [← unchanged isLength]
    exact isPermutation.permute_data operand (isLength.trans length.symm)

end Libtt.StableHlo

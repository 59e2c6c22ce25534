import Libtt.DecodeFusions.Broadcasts
import Libtt.DecodeFusions.Replacement

/-!
# The fusions of a norm

The sum that the fused operation returns is the one that the norm was of: widened values are added
and narrowed in both.
-/
namespace Libtt.DecodeFusions

open Libtt.Foundation

section Values

variable {E : Type} (arith : Arithmetic E) (type : Nat → TensorType) (values : Nat → Nat → E)

theorem upTo_congr {count : Nat} {first second : Nat → E}
    (same : ∀ number < count, first number = second number) :
    upTo arith count first = upTo arith count second := by
  funext number
  unfold upTo
  split
  · next less => exact same number less
  · rfl

theorem upTo_of_lt {count number : Nat} (less : number < count) (element : Nat → E) :
    upTo arith count element number = element number := if_pos less

variable {result operand : Nat}

/-- An operand of the result's shape. -/
theorem operandAt_of_shape (shape : (type operand).shape = (type result).shape) {number : Nat}
    (less : number < size type result) :
    operandAt arith type values result operand number =
      widened arith type values operand number := by
  rw [operandAt, shape, broadcastPlace_self less]

theorem widened_of_f32 (isF32 : (type operand).element = .f32) (number : Nat) :
    widened arith type values operand number = values operand number := by
  rw [widened, isF32, arith.cast_self]

end Values

section Valid

variable {E : Type} {program : Program} (valid : program.Valid) (arith : Arithmetic E)
  (args : Nat → Nat → E) {value input : Nat} {op : Operation}
include valid

/-- An element of a value that an operation defines. -/
theorem Program.Valid.run_eq (defined : program.definingOp value = some op) {number : Nat}
    (less : number < size program.type value) :
    program.values arith args value number =
      op.evalAt arith program.type (program.values arith args) value number := by
  rw [valid.run_holds arith args (Program.mem_of_definingOp defined), Operation.eval,
    upTo_of_lt arith less]

theorem Program.Valid.verifies (defined : program.definingOp value = some op) :
    op.Verifies program.type value :=
  valid.verified _ (Program.mem_of_definingOp defined)

/-- A value that is widened to FP32. -/
theorem Program.Valid.run_widened (defined : program.definingOp value = some (.typecast input))
    (isF32 : (program.type value).element = .f32) {number : Nat}
    (less : number < size program.type value) :
    widened arith program.type (program.values arith args) value
        number =
      widened arith program.type (program.values arith args) input
        number := by
  rw [widened_of_f32 _ _ _ isF32, valid.run_eq arith args defined less]
  simp only [Operation.evalAt, isF32, widened]

theorem Program.Valid.earlier_input (defined : program.definingOp value = some op)
    (isOperand : input ∈ op.operands) : program.Earlier input value :=
  valid.ordered.earlier_operand (Program.mem_of_definingOp defined) isOperand

theorem Program.Valid.earlier_trans (defined : program.definingOp value = some op) {early late : Nat}
    (isEarly : program.Earlier early value) (isLate : program.Earlier value late) :
    program.Earlier early late :=
  valid.ordered.earlier_trans (Program.mem_of_definingOp defined) isEarly isLate

theorem Program.Valid.ne_of_earlier (defined : program.definingOp value = some op) {early : Nat}
    (isEarly : program.Earlier early value) : early ≠ value := by
  rintro rfl
  exact valid.ordered.not_earlier_self (Program.mem_of_definingOp defined) isEarly

/-- Reshapes keep the elements in order. -/
theorem ThroughReshapes.run_eq {source : Nat} (through : ThroughReshapes program value source) :
    (program.type source).element = (program.type value).element ∧
      size program.type source = size program.type value ∧
      ∀ number < size program.type value,
        program.values arith args value number = program.values arith args source number := by
  induction through with
  | refl value => exact ⟨rfl, rfl, fun _ _ => rfl⟩
  | @reshape value input source defined rest ih =>
    obtain ⟨element, sizes, same⟩ := ih
    obtain ⟨inputElement, inputSize⟩ := valid.verifies defined
    refine ⟨element.trans inputElement, sizes.trans inputSize, ?_⟩
    intro number less
    rw [valid.run_eq arith args defined less]
    exact same number (inputSize ▸ less)

theorem ThroughReshapes.earlier {source late : Nat} (through : ThroughReshapes program value source)
    (isLate : program.Earlier value late) : program.Earlier source late := by
  induction through with
  | refl value => exact isLate
  | @reshape value input source defined rest ih =>
    apply ih
    have isInput : program.Earlier input value :=
      valid.earlier_input defined (by simp)
    exact valid.earlier_trans defined isInput isLate

end Valid

section Sum

variable {program : Program} {input lhs rhs : Nat}

theorem residualOperands_some (found : residualOperands program input = some (lhs, rhs)) :
    program.definingOp input = some (.add lhs rhs) ∨
      ∃ wide lhsCast rhsCast, program.definingOp input = some (.typecast wide) ∧
        program.definingOp wide = some (.add lhsCast rhsCast) ∧
        (program.type wide).element = .f32 ∧
        program.definingOp lhsCast = some (.typecast lhs) ∧
        program.definingOp rhsCast = some (.typecast rhs) := by
  unfold residualOperands at found
  split at found
  · next lhs' rhs' isAdd =>
    obtain ⟨rfl, rfl⟩ := Prod.mk.inj (Option.some.inj found)
    exact .inl isAdd
  · next wide isCast =>
    right
    split at found
    · next lhsCast rhsCast isAdd =>
      split at found
      · contradiction
      · next isWide =>
        split at found
        · next lhs' rhs' isLhs isRhs =>
          obtain ⟨rfl, rfl⟩ := Prod.mk.inj (Option.some.inj found)
          have isF32 : (program.type wide).element = .f32 := by
            by_contra other
            exact isWide (.inr other)
          exact ⟨wide, lhsCast, rhsCast, isCast, isAdd, isF32, isLhs, isRhs⟩
        · contradiction
    · contradiction
  · contradiction

variable (valid : program.Valid) (found : residualOperands program input = some (lhs, rhs))
include valid found

/-- The sum's definition, and its operands before it. -/
theorem residualOperands_earlier : (∃ op, program.definingOp input = some op) ∧
    program.Earlier lhs input ∧ program.Earlier rhs input := by
  rcases residualOperands_some found with isAdd |
    ⟨wide, lhsCast, rhsCast, isCast, isAdd, -, isLhs, isRhs⟩
  · refine ⟨⟨_, isAdd⟩, ?_, ?_⟩
    · exact valid.earlier_input isAdd (by simp)
    · exact valid.earlier_input isAdd (by simp)
  · have isWide : program.Earlier wide input :=
      valid.earlier_input isCast (by simp)
    have through {cast operand : Nat} (isOperand : cast ∈ (Operation.add lhsCast rhsCast).operands)
        (defined : program.definingOp cast = some (.typecast operand)) :
        program.Earlier operand input := by
      have atCast : program.Earlier operand cast :=
        valid.earlier_input defined (by simp)
      have atWide := valid.earlier_trans defined atCast (valid.earlier_input isAdd isOperand)
      exact valid.earlier_trans isAdd atWide isWide
    refine ⟨⟨_, isCast⟩, ?_, ?_⟩
    · exact through (by simp) isLhs
    · exact through (by simp) isRhs

/-- The fused operation returns the sum. -/
theorem run_sum {E : Type} (arith : Arithmetic E) (args : Nat → Nat → E)
    (lhsType : program.type lhs = program.type input) (rhsType : program.type rhs = program.type input)
    (weight : Nat) (epsilon weightOffset : Literal) :
    program.values arith args input =
      upTo arith (size program.type input)
        (NormOperands.sumAt arith program.type
          (program.values arith args)
          ⟨lhs, rhs, weight, epsilon, weightOffset, none⟩) := by
  obtain ⟨⟨op, defined⟩, -, -⟩ := residualOperands_earlier valid found
  rw [valid.run_holds arith args (Program.mem_of_definingOp defined), Operation.eval]
  apply upTo_congr
  intro number less
  rw [← valid.run_eq arith args defined less]
  simp only [NormOperands.sumAt, lhsType]
  rcases residualOperands_some found with isAdd |
    ⟨wide, lhsCast, rhsCast, isCast, isAdd, isF32, isLhs, isRhs⟩
  · rw [valid.run_eq arith args isAdd less]
    simp only [Operation.evalAt]
    rw [operandAt_of_shape _ _ _ (by rw [lhsType]) less,
      operandAt_of_shape _ _ _ (by rw [rhsType]) less]
  · have wideShape : (program.type wide).shape = (program.type input).shape := valid.verifies isCast
    have wideLess : number < size program.type wide := by rwa [size, wideShape]
    have added := valid.verifies isAdd
    have operand {cast value : Nat} (isOperand : cast ∈ [lhsCast, rhsCast])
        (isInput : program.definingOp cast = some (.typecast value))
        (valueType : program.type value = program.type input) :
        operandAt arith program.type (program.values arith args) wide
            cast number =
          widened arith program.type (program.values arith args) value number := by
      have castShape : (program.type value).shape = (program.type cast).shape :=
        valid.verifies isInput
      have shape : (program.type cast).shape = (program.type wide).shape := by
        rw [← castShape, valueType, wideShape]
      have castF32 : (program.type cast).element = .f32 := (added cast isOperand).2.trans isF32
      rw [operandAt_of_shape _ _ _ shape wideLess]
      exact valid.run_widened arith args isInput castF32 (by rwa [size, shape])
    rw [valid.run_eq arith args isCast less]
    simp only [Operation.evalAt]
    rw [valid.run_eq arith args isAdd wideLess]
    simp only [Operation.evalAt]
    rw [operand (by simp) isLhs lhsType, operand (by simp) isRhs rhsType, isF32,
      arith.cast_self]

end Sum

section Weight

variable {helpers : Helpers} {program : Program} {weightAdd operand other weight input : Nat}
  {offset : Literal}

theorem addedTo_some (found : addedTo helpers program weightAdd operand other = some (input, offset)) :
    program.definingOp operand = some (.typecast input) ∧
      offsetOf helpers program other = some offset ∧
      program.type operand = program.type weightAdd ∧
      (program.type weightAdd).element = .f32 := by
  unfold addedTo at found
  split at found
  · next input' offset' isCast isOffset =>
    split at found
    · next fits =>
      obtain ⟨rfl, rfl⟩ := Prod.mk.inj (Option.some.inj found)
      exact ⟨isCast, isOffset, fits.1, fits.2.1⟩
    · contradiction
  · contradiction

theorem offsetWeight_some (found : offsetWeight helpers program weight = some (input, offset)) :
    ∃ lhs rhs operand other, program.definingOp (helpers.lookThroughReshape program weight) =
        some (.add lhs rhs) ∧
      (operand = lhs ∧ other = rhs ∨ operand = rhs ∧ other = lhs) ∧
      addedTo helpers program (helpers.lookThroughReshape program weight) operand other =
        some (input, offset) := by
  unfold offsetWeight at found
  simp only at found
  split at found
  · next lhs rhs isAdd =>
    cases first : addedTo helpers program (helpers.lookThroughReshape program weight) lhs rhs with
    | some found' =>
      rw [first] at found
      exact ⟨lhs, rhs, lhs, rhs, isAdd, .inl ⟨rfl, rfl⟩, first.trans found⟩
    | none =>
      rw [first] at found
      exact ⟨lhs, rhs, rhs, lhs, isAdd, .inr ⟨rfl, rfl⟩, found⟩
  · contradiction

variable (documented : helpers.Documented) (valid : program.Valid)
include documented valid

/-- An offset is the value of all elements. -/
theorem run_offset (found : offsetOf helpers program other = some offset) {E : Type}
    (arith : Arithmetic E) (args : Nat → Nat → E) :
    ∀ number < size program.type other,
      program.values arith args other number =
        arith.literal (program.type other).element offset := by
  unfold offsetOf at found
  split at found
  · next isOnes =>
    obtain rfl := Option.some.inj found
    exact documented.ones program valid other isOnes arith args
  · exact documented.splat program valid other offset found arith args

theorem offsetWeight_earlier (found : offsetWeight helpers program weight = some (input, offset))
    {late : Nat} (isLate : program.Earlier weight late) : program.Earlier input late := by
  obtain ⟨lhs, rhs, operand, other, isAdd, either, isAdded⟩ := offsetWeight_some found
  obtain ⟨isCast, -⟩ := addedTo_some isAdded
  have isOperand : operand ∈ (Operation.add lhs rhs).operands := by
    rcases either with ⟨rfl, -⟩ | ⟨rfl, -⟩ <;> simp
  have atCast : program.Earlier input operand :=
    valid.earlier_input isCast (by simp)
  have atAdd := valid.earlier_trans isCast atCast (valid.earlier_input isAdd isOperand)
  exact valid.earlier_trans isAdd atAdd ((documented.lookThrough program weight).earlier valid isLate)

/-- The norm's weight is the BF16 weight with its offset. -/
theorem run_offsetWeight (found : offsetWeight helpers program weight = some (input, offset))
    {E : Type} (arith : Arithmetic E) (args : Nat → Nat → E) :
    upTo arith (size program.type weight) (widened arith program.type
        (program.values arith args) weight) =
      upTo arith (size program.type input) fun column => arith.add
        (widened arith program.type (program.values arith args)
          input column) (arith.literal .f32 offset) := by
  obtain ⟨lhs, rhs, operand, other, isAdd, either, isAdded⟩ := offsetWeight_some found
  obtain ⟨isCast, isOffset, sameType, isF32⟩ := addedTo_some isAdded
  obtain ⟨element, sizes, same⟩ := (documented.lookThrough program weight).run_eq valid arith args
  have added := valid.verifies isAdd
  generalize helpers.lookThroughReshape program weight = weightAdd at *
  have inputShape : (program.type input).shape = (program.type operand).shape := valid.verifies isCast
  have inputSize : size program.type input = size program.type weight := by
    rw [← sizes, size, inputShape, sameType]
    rfl
  rw [inputSize]
  apply upTo_congr
  intro column less
  have addLess : column < size program.type weightAdd := sizes ▸ less
  have isOperand : operand ∈ [lhs, rhs] ∧ other ∈ [lhs, rhs] := by
    rcases either with ⟨rfl, rfl⟩ | ⟨rfl, rfl⟩ <;> simp
  have operandF32 : (program.type operand).element = .f32 := sameType ▸ isF32
  have first : operandAt arith program.type
      (program.values arith args) weightAdd operand column =
      widened arith program.type (program.values arith args) input
        column := by
    rw [operandAt_of_shape _ _ _ (by rw [sameType]) addLess]
    exact valid.run_widened arith args isCast operandF32 (by rwa [size, sameType])
  have second : operandAt arith program.type
      (program.values arith args) weightAdd other column =
      arith.literal .f32 offset := by
    obtain ⟨broadcasts, otherElement⟩ := added other isOperand.2
    have otherF32 : (program.type other).element = .f32 := otherElement.trans isF32
    rw [operandAt, widened_of_f32 _ _ _ otherF32, ← otherF32]
    exact run_offset documented valid isOffset arith args _ (broadcastPlace_lt broadcasts addLess)
  rw [widened_of_f32 _ _ _ (element ▸ isF32), same column less,
    valid.run_eq arith args isAdd addLess]
  simp only [Operation.evalAt]
  rw [isF32, arith.cast_self]
  rcases either with ⟨rfl, rfl⟩ | ⟨rfl, rfl⟩
  · rw [first, second]
  · rw [first, second, arith.add_comm]

end Weight

section ResidualNorm

/-- What the pattern finds. -/
structure NormMatch where
  norm : Nat
  input : Nat
  lhs : Nat
  rhs : Nat
  weight : Nat
  epsilon : Literal
  normalizedShape : List Nat
  /-- The weight that the fused operation uses, and its offset. -/
  used : Nat × Literal

variable (helpers : Helpers) (program : Program)

namespace NormMatch

variable (found : NormMatch)

def operands : NormOperands :=
  ⟨found.lhs, found.rhs, found.used.1, found.epsilon, found.used.2, none⟩

/-- The elements of the weight with what the definitions add. -/
def addedAt {E : Type} (arithmetic : Arithmetic E) (values : Nat → Nat → E) (column : Nat) : E :=
  let element := widened arithmetic program.type values found.used.1 column
  match offsetWeight helpers program found.weight with
  | none => element
  | some used => arithmetic.add element (arithmetic.literal .f32 used.2)

def created : List Definition :=
  [(found.norm, .rmsNormResidual .output found.operands),
    (found.input, .rmsNormResidual .sum found.operands)]

theorem created_operands : ∀ definition ∈ found.created,
    definition.2.operands = [found.lhs, found.rhs, found.used.1] := by
  simp [created, operands]

/-- The norm is one that the pattern fuses. -/
structure Matches : Prop where
  isUsed : found.used = (offsetWeight helpers program found.weight).getD (found.weight, 0)
  isNorm : program.definingOp found.norm =
    some (.rmsNorm found.input (some found.weight) none found.epsilon found.normalizedShape)
  isSum : residualOperands program found.input = some (found.lhs, found.rhs)
  normType : program.type found.norm = program.type found.input
  lhsType : program.type found.lhs = program.type found.input
  rhsType : program.type found.rhs = program.type found.input
  shape : ∃ rows width, (program.type found.input).shape = [rows, width] ∧ 0 < rows ∧
    size program.type found.used.1 = width
  inputInBlock : program.inBlock found.input = true
  normInBlock : program.inBlock found.norm = true

end NormMatch

theorem residualNormFusion_some {norm : Nat} {result : List Definition}
    (fused : residualNormFusion helpers program norm = some result) :
    ∃ found : NormMatch, found.norm = norm ∧ found.Matches helpers program ∧
      (usesFollowNorm program found.input norm = true ∧
          result = program.replaced norm found.created (· == found.input) ∨
        (program.inBlock found.used.1 = false ∨
            program.isBeforeInBlock found.used.1 found.input = true) ∧
          result = program.replaced found.input found.created (· == norm)) := by
  unfold residualNormFusion at fused
  split at fused
  · next input weight epsilon normalizedShape isNorm =>
    split at fused
    · next lhs rhs isSum =>
      let found : NormMatch := ⟨norm, input, lhs, rhs, weight, epsilon, normalizedShape,
        (offsetWeight helpers program weight).getD (weight, 0)⟩
      simp only at fused
      split at fused
      · contradiction
      · next types =>
        split at fused
        · contradiction
        · next weightFits =>
          split at fused
          · contradiction
          · next blocks =>
            have isMatch : found.Matches helpers program := by
              simp only [typesFit, Bool.not_eq_false, Bool.and_eq_true, beq_iff_eq,
                decide_eq_true_eq] at types
              simp only [not_or, not_not, Bool.not_eq_false] at weightFits blocks
              obtain ⟨⟨⟨⟨⟨⟨⟨⟨⟨rank, positive⟩, -⟩, -⟩, -⟩, -⟩, -⟩, normType⟩, lhsType⟩, rhsType⟩ := types
              refine ⟨rfl, isNorm, isSum, normType, lhsType, rhsType, ?_, blocks.1, blocks.2⟩
              match shape : (program.type input).shape with
              | [rows, width] =>
                rw [shape] at positive weightFits
                exact ⟨rows, width, rfl, positive, weightFits.1⟩
              | [] | [_] | _ :: _ :: _ :: _ => simp [shape] at rank
            refine ⟨found, rfl, isMatch, ?_⟩
            split at fused
            · next follow => exact .inl ⟨follow, (Option.some.inj fused).symm⟩
            · split at fused
              · next before => exact .inr ⟨before, (Option.some.inj fused).symm⟩
              · contradiction
    · contradiction
  · contradiction

/-- The norm's weight is not the sum, and no zero is added to it. -/
def NormFits (norm : Nat) : Prop := ∀ input weight epsilon normalizedShape, program.definingOp norm =
    some (.rmsNorm input (some weight) none epsilon normalizedShape) →
  ((offsetWeight helpers program weight).getD (weight, 0)).1 ≠ input ∧
    (0 < size program.type input →
      ∀ found, offsetWeight helpers program weight = some found → found.2 ≠ 0)

namespace NormMatch.Matches

variable {helpers program} {found : NormMatch} (isMatch : found.Matches helpers program)
  (documented : helpers.Documented) (valid : program.Valid)
include isMatch

theorem normFits_iff : NormFits helpers program found.norm ↔
    found.used.1 ≠ found.input ∧ (0 < size program.type found.input →
      ∀ used, offsetWeight helpers program found.weight = some used → used.2 ≠ 0) := by
  rw [isMatch.isUsed]
  constructor
  · intro fits
    exact fits _ _ _ _ isMatch.isNorm
  · intro fits input weight epsilon normalizedShape isNorm
    have same := Option.some.inj (isMatch.isNorm.symm.trans isNorm)
    obtain ⟨rfl, rfl, -⟩ := same
    exact fits

theorem verified : ∀ definition ∈ found.created,
    definition.2.Verifies program.type definition.1 := by
  obtain ⟨rows, width, shape, -, weightSize⟩ := isMatch.shape
  have widths : DecodeFusions.width program.type found.lhs = width := by
    rw [DecodeFusions.width, isMatch.lhsType, shape]
    rfl
  have operandsFit : program.type found.rhs = program.type found.lhs ∧
      size program.type found.used.1 = DecodeFusions.width program.type found.lhs :=
    ⟨isMatch.rhsType.trans isMatch.lhsType.symm, weightSize.trans widths.symm⟩
  intro definition isCreated
  simp only [created, List.mem_cons, List.not_mem_nil, or_false] at isCreated
  rcases isCreated with rfl | rfl
  · exact ⟨isMatch.normType.trans isMatch.lhsType.symm, operandsFit⟩
  · exact ⟨isMatch.lhsType.symm, operandsFit⟩

include documented valid

/-- The operands of the fused operation. -/
theorem operands_earlier : program.Earlier found.input found.norm ∧
    ∀ operand ∈ [found.lhs, found.rhs, found.used.1],
      program.Earlier operand found.norm ∧
        (operand ≠ found.used.1 → program.Earlier operand found.input) := by
  obtain ⟨⟨op, isSum⟩, lhs, rhs⟩ := residualOperands_earlier valid isMatch.isSum
  have input : program.Earlier found.input found.norm :=
    valid.earlier_input isMatch.isNorm (by simp)
  have weight : program.Earlier found.weight found.norm :=
    valid.earlier_input isMatch.isNorm (by simp)
  refine ⟨input, ?_⟩
  intro operand isOperand
  simp only [List.mem_cons, List.not_mem_nil, or_false] at isOperand
  rcases isOperand with rfl | rfl | rfl
  · exact ⟨valid.earlier_trans isSum lhs input, fun _ => lhs⟩
  · exact ⟨valid.earlier_trans isSum rhs input, fun _ => rhs⟩
  · refine ⟨?_, fun other => absurd rfl other⟩
    rw [isMatch.isUsed]
    cases isUsed : offsetWeight helpers program found.weight with
    | none => exact weight
    | some used => exact offsetWeight_earlier documented valid isUsed weight

/-- The norm of the sum, with the weight that is used. -/
theorem run_norm {E : Type} (arith : Arithmetic E) (args : Nat → Nat → E) :
    let values := program.values arith args
    values found.norm = upTo arith (size program.type found.norm)
      (normAt arith program.type found.lhs (upTo arith (size program.type found.lhs)
          (found.operands.sumAt arith program.type values))
        (some (upTo arith (size program.type found.used.1)
          (found.addedAt helpers program arith values)))
        none found.epsilon) := by
  intro values
  have weights : upTo arith (size program.type found.weight)
      (widened arith program.type values found.weight) =
      upTo arith (size program.type found.used.1) (found.addedAt helpers program arith values) := by
    unfold addedAt
    rw [isMatch.isUsed]
    cases isUsed : offsetWeight helpers program found.weight with
    | none => rfl
    | some used => exact run_offsetWeight documented valid isUsed arith args
  have sums : values found.input = _ := run_sum valid isMatch.isSum arith args
    isMatch.lhsType isMatch.rhsType found.used.1 found.epsilon
    found.used.2
  have holds : values found.norm = _ :=
    valid.run_holds arith args (Program.mem_of_definingOp isMatch.isNorm)
  rw [holds, Operation.eval, ← weights]
  congr 1
  funext number
  show normAt arith program.type found.input (values found.input) _ none found.epsilon number = _
  rw [sums]
  simp only [normAt, DecodeFusions.width, isMatch.lhsType, size]
  rfl

/-- Where no zero is added, the fused operation returns the norm and the sum. -/
theorem sound (fits : 0 < size program.type found.input →
      ∀ used, offsetWeight helpers program found.weight = some used → used.2 ≠ 0)
    {E : Type} (arith : Arithmetic E) (args : Nat → Nat → E) :
    ∀ definition ∈ found.created,
      program.values arith args definition.1 =
        definition.2.eval arith program.type (program.values arith args) definition.1 := by
  intro definition isCreated
  simp only [created, List.mem_cons, List.not_mem_nil, or_false] at isCreated
  rcases isCreated with rfl | rfl
  · refine (isMatch.run_norm documented valid arith args).trans ?_
    apply upTo_congr
    intro number less
    have positive : 0 < size program.type found.input := by
      have same : size program.type found.norm = size program.type found.input := by
        rw [size, isMatch.normType, size]
      exact same ▸ Nat.zero_lt_of_lt less
    have weights : found.addedAt helpers program arith
          (program.values arith args) =
        found.operands.weightAt arith program.type (program.values arith args) := by
      funext column
      have weight := isMatch.isUsed
      cases isUsed : offsetWeight helpers program found.weight with
      | none =>
        simp [addedAt, NormOperands.weightAt, operands, weight, isUsed]
      | some used =>
        have nonzero : ¬used.2 = 0#32 := fits positive used isUsed
        simp [addedAt, NormOperands.weightAt, operands, weight, isUsed, nonzero]
    rw [weights]
    rfl
  · have sums := run_sum valid isMatch.isSum arith args isMatch.lhsType isMatch.rhsType
      found.used.1 found.epsilon found.used.2
    exact sums

/-- The fused operation in the place of the norm or of the sum. -/
theorem replacement {root other : Nat} {op : Operation} (isRoot : program.definingOp root = some op)
    (places : root = found.norm ∧ other = found.input ∨ root = found.input ∧ other = found.norm)
    (available : ∀ operand ∈ [found.lhs, found.rhs, found.used.1],
      operand ≠ other ∧ program.Earlier operand root)
    (used : ∀ definition ∈ program.definitions, definition ≠ (root, op) →
      other ∈ definition.2.operands → program.Earlier root definition.1) :
    Replacement program (root, op) found.created (· == other) := by
  have different := (valid.ne_of_earlier isMatch.isNorm
    (isMatch.operands_earlier documented valid).1).symm
  refine ⟨valid, Program.mem_of_definingOp isRoot, by simpa [created] using different, ?_, ?_, ?_, ?_⟩
  · rcases places with ⟨rfl, rfl⟩ | ⟨rfl, rfl⟩ <;> simp [created]
  · rcases places with ⟨rfl, rfl⟩ | ⟨rfl, rfl⟩ <;> simp [created]
  · intro definition isCreated operand isOperand
    rw [created_operands found definition isCreated] at isOperand
    obtain ⟨notOther, earlier⟩ := available operand isOperand
    exact ⟨beq_eq_false_iff_ne.mpr notOther, earlier⟩
  · intro definition member _ notRoot operand isOperand isDropped
    obtain rfl : operand = other := by simpa using isDropped
    refine ⟨used definition member notRoot isOperand, ?_⟩
    rcases places with ⟨rfl, rfl⟩ | ⟨rfl, rfl⟩ <;> simp [created]

theorem replacement_norm (follow : usesFollowNorm program found.input found.norm = true)
    (notSum : found.used.1 ≠ found.input) :
    ∃ op, Replacement program (found.norm, op) found.created (· == found.input) := by
  obtain ⟨⟨op, isSum⟩, -⟩ := residualOperands_earlier valid isMatch.isSum
  obtain ⟨-, earlier⟩ := isMatch.operands_earlier documented valid
  refine ⟨_, isMatch.replacement documented valid isMatch.isNorm (.inl ⟨rfl, rfl⟩) ?_ ?_⟩
  · intro operand isOperand
    obtain ⟨atNorm, atInput⟩ := earlier operand isOperand
    refine ⟨?_, atNorm⟩
    by_cases isWeight : operand = found.used.1
    · exact isWeight ▸ notSum
    · exact valid.ne_of_earlier isSum (atInput isWeight)
  · intro definition member notNorm isOperand
    have user := List.all_eq_true.mp follow definition member
    simp only [Bool.and_eq_true, Bool.or_eq_true, Bool.not_eq_true', List.contains_eq_mem,
      decide_eq_false_iff_not, beq_iff_eq] at user
    rcases user.2 with (notUsed | isNorm) | behind
    · exact absurd isOperand fun either => (List.mem_append.mp either).elim notUsed user.1
    · have same := valid.ordered.eq_of_id member (Program.mem_of_definingOp isMatch.isNorm) isNorm
      exact absurd same notNorm
    · exact valid.earlier_of_isBeforeInBlock behind

theorem replacement_sum (before : program.inBlock found.used.1 = false ∨
      program.isBeforeInBlock found.used.1 found.input = true) :
    found.used.1 ≠ found.input ∧
      ∃ op, Replacement program (found.input, op) found.created (· == found.norm) := by
  obtain ⟨⟨op, isSum⟩, -⟩ := residualOperands_earlier valid isMatch.isSum
  obtain ⟨inputEarlier, earlier⟩ := isMatch.operands_earlier documented valid
  have weightEarlier : program.Earlier found.used.1 found.input := by
    rcases before with outside | isBefore
    · exact valid.earlier_of_outside outside isMatch.inputInBlock
    · exact valid.earlier_of_isBeforeInBlock isBefore
  refine ⟨valid.ne_of_earlier isSum weightEarlier, op,
    isMatch.replacement documented valid isSum (.inr ⟨rfl, rfl⟩) ?_ ?_⟩
  · intro operand isOperand
    have atInput : program.Earlier operand found.input := by
      by_cases isWeight : operand = found.used.1
      · exact isWeight ▸ weightEarlier
      · exact (earlier operand isOperand).2 isWeight
    refine ⟨?_, atInput⟩
    rintro rfl
    exact valid.ordered.not_earlier (Program.mem_of_definingOp isSum)
      (Program.mem_of_definingOp isMatch.isNorm) inputEarlier atInput
  · intro definition member _ isOperand
    exact valid.earlier_trans isMatch.isNorm inputEarlier
      (valid.ordered.earlier_operand member isOperand)

end NormMatch.Matches

/-- Functions that tell a weight from one that a zero was added to. -/
def counting : Arithmetic Nat where
  literal _ _ := 0
  cast _ _ element := element
  add first second := first + second + 1
  mul first second := first + second
  activated _ _ _ := 0
  norm _ weight _ _ _ := (weight.getD fun _ => 0) 0
  quantize _ _ _ _ _ := 0
  product _ _ _ _ _ := 0
  other _ _ _ := 0
  cast_self _ _ := rfl
  cast_literal _ _ _ _ _ := rfl
  add_comm first second := by rw [Nat.add_comm first]
  mul_comm := Nat.add_comm

/-- Where the fused operation returns the norm, no zero was added to the weight. -/
theorem nonzero_of_keeps {found : NormMatch} (isMatch : found.Matches helpers program)
    (documented : helpers.Documented) (valid : program.Valid) {root : Definition}
    {dropped : Nat → Bool}
    (replacement : Replacement program root found.created dropped)
    (keeps : Keeps program (program.replaced root.1 found.created dropped))
    (positive : 0 < size program.type found.input) {used : Nat × Literal}
    (isUsed : offsetWeight helpers program found.weight = some used) : used.2 ≠ 0 := by
  intro isZero
  have fused := replacement.sound_of_keeps keeps counting (fun _ _ => 0) _ List.mem_cons_self
  rw [isMatch.run_norm documented valid counting fun _ _ => 0] at fused
  have first := congrFun fused 0
  have normPositive : 0 < size program.type found.norm := by
    rwa [size, isMatch.normType]
  have widthPositive : 0 < size program.type found.used.1 := by
    obtain ⟨rows, width, shape, -, weightSize⟩ := isMatch.shape
    rw [size, shape] at positive
    rw [weightSize]
    exact Nat.pos_of_ne_zero fun zero => by simp [zero] at positive
  have isWeight : found.used = used := by simp [isMatch.isUsed, isUsed]
  rw [isWeight] at widthPositive
  simp [Operation.eval, upTo_of_lt, normPositive, widthPositive, Operation.evalAt, normAt, counting,
    NormOperands.outputAt, NormMatch.operands, NormOperands.weightAt, NormMatch.addedAt, isUsed,
    isWeight, isZero] at first

/-- The fusion of a residual norm keeps the program where it fits. -/
theorem residualNormFusion_keeps_iff (documented : helpers.Documented) (valid : program.Valid)
    {norm : Nat} {result : List Definition}
    (fused : residualNormFusion helpers program norm = some result) :
    Keeps program result ↔ NormFits helpers program norm := by
  obtain ⟨found, rfl, isMatch, places⟩ := residualNormFusion_some helpers program fused
  rw [isMatch.normFits_iff]
  have iff_of_replacement {root : Definition} {dropped : Nat → Bool}
      (replacement : Replacement program root found.created dropped) :
      Keeps program (program.replaced root.1 found.created dropped) ↔
        (0 < size program.type found.input →
          ∀ used, offsetWeight helpers program found.weight = some used → used.2 ≠ 0) := by
    constructor
    · intro keeps positive used isUsed
      exact nonzero_of_keeps helpers program isMatch documented valid replacement keeps positive isUsed
    · intro fits
      exact replacement.keeps isMatch.verified (isMatch.sound documented valid fits)
  rcases places with ⟨follow, rfl⟩ | ⟨before, rfl⟩
  · constructor
    · intro keeps
      have notSum : found.used.1 ≠ found.input := by
        intro isSum
        have created : Ordered Operation.operands found.created := keeps.ordered.append.2.1.append.1
        apply (created.cons.2 _ List.mem_cons_self).2
        rw [NormMatch.created_operands found _ List.mem_cons_self]
        simp [isSum]
      obtain ⟨op, replacement⟩ := isMatch.replacement_norm documented valid follow notSum
      exact ⟨notSum, (iff_of_replacement replacement).mp keeps⟩
    · rintro ⟨notSum, fits⟩
      obtain ⟨op, replacement⟩ := isMatch.replacement_norm documented valid follow notSum
      exact (iff_of_replacement replacement).mpr fits
  · obtain ⟨notSum, op, replacement⟩ := isMatch.replacement_sum documented valid before
    rw [iff_of_replacement replacement]
    exact (and_iff_right notSum).symm

end ResidualNorm

section Quantization

variable {program : Program} {output sum codes scale float8Type : Nat} {minScale : Literal}
  {operands : NormOperands}

/-- What the quantizations are of. -/
theorem run_quantized (valid : program.Valid)
    (isNorm : (output, .rmsNormResidual .output operands) ∈ program.definitions)
    {value : Nat} {isScale : Bool}
    (isQuantized : (value, .quantizeRows isScale output float8Type minScale) ∈ program.definitions)
    {E : Type} (arith : Arithmetic E) (args : Nat → Nat → E) :
    program.values arith args value =
      upTo arith (size program.type value) (NormOperands.quantizedAt arith program.type
        (program.values arith args)
        { operands with quantization := some (float8Type, minScale) } isScale) := by
  have normType : program.type output = program.type operands.input :=
    (valid.verified _ isNorm).1
  have norm := valid.run_holds arith args isNorm
  have holds := valid.run_holds arith args isQuantized
  simp only [Operation.eval] at norm holds
  rw [holds]
  congr 1
  funext number
  simp only [Operation.evalAt, NormOperands.quantizedAt, Option.getD_some]
  rw [norm, width, width, size, size, normType]
  rfl

/-- The fusion of a quantization keeps the program. -/
theorem QuantizeFusion.keeps (valid : program.Valid) {result : List Definition}
    (fused : QuantizeFusion program result) : Keeps program result := by
  obtain @⟨before, between, after, output, sum, codes, scale, float8Type, minScale, operands,
    isProgram, notQuantized, isBf16⟩ := fused
  let quantized : NormOperands := { operands with quantization := some (float8Type, minScale) }
  have ordered := valid.ordered
  have part : List.Sublist [(output, Operation.rmsNormResidual .output operands),
      (sum, .rmsNormResidual .sum operands), (codes, .quantizeRows false output float8Type minScale),
      (scale, .quantizeRows true output float8Type minScale)] program.definitions := by
    rw [isProgram]
    apply List.Sublist.trans _ (List.sublist_append_right before _)
    apply List.Sublist.cons_cons
    apply List.Sublist.cons_cons
    apply List.Sublist.trans _ (List.sublist_append_right between _)
    apply List.Sublist.cons_cons
    apply List.Sublist.cons_cons
    exact List.nil_sublist after
  have members := part.subset
  simp only [List.cons_subset] at members
  obtain ⟨isOutput, isSum, isCodes, isScale, -⟩ := members
  have afterOutput : ∀ value, (value == sum || value == codes || value == scale) = true →
      program.Earlier output value ∧ ∃ op, (value, op) ∈ program.definitions := by
    intro value isDropped
    simp only [Bool.or_eq_true, beq_iff_eq] at isDropped
    rcases isDropped with (rfl | rfl) | rfl
    · exact ⟨ordered.earlier_of_mem isProgram (List.mem_cons_self : (value, _) ∈ _), _, isSum⟩
    · exact ⟨valid.ordered.earlier_operand isCodes (by simp), _, isCodes⟩
    · exact ⟨valid.ordered.earlier_operand isScale (by simp), _, isScale⟩
  have replacement : Replacement program (output, .rmsNormResidual .output operands)
      (quantizedNorm output sum codes scale quantized)
      fun value => value == sum || value == codes || value == scale := by
    refine ⟨valid, isOutput, ?_, by simp [quantizedNorm], by simp [quantizedNorm], ?_, ?_⟩
    · have distinct := List.Pairwise.sublist part ordered.1
      have ids := distinct.imp fun {first second} apart => apart.1.symm
      exact List.pairwise_map.mpr ids |>.imp id
    · intro definition isCreated operand isOperand
      have sameOperands : definition.2.operands =
          (Operation.rmsNormResidual .output operands).operands := by
        simp only [quantizedNorm, List.mem_cons, List.not_mem_nil, or_false] at isCreated
        rcases isCreated with rfl | rfl | rfl | rfl <;> rfl
      rw [sameOperands] at isOperand
      have earlier := ordered.earlier_operand isOutput isOperand
      refine ⟨?_, earlier⟩
      apply Bool.eq_false_iff.mpr
      intro isDropped
      obtain ⟨later, op, isMember⟩ := afterOutput operand isDropped
      exact ordered.not_earlier isMember isOutput earlier later
    · intro definition isDefinition _ _ operand isOperand isDropped
      obtain ⟨later, op, isMember⟩ := afterOutput operand isDropped
      refine ⟨ordered.earlier_trans isMember later
        (ordered.earlier_operand isDefinition isOperand), ?_⟩
      simp only [Bool.or_eq_true, beq_iff_eq] at isDropped
      rcases isDropped with (rfl | rfl) | rfl <;> simp [quantizedNorm]
  apply replacement.keeps
  · intro definition isCreated
    simp only [quantizedNorm, List.mem_cons, List.not_mem_nil, or_false] at isCreated
    rcases isCreated with rfl | rfl | rfl | rfl
    · have verified := valid.verified _ isOutput
      exact verified
    · have verified := valid.verified _ isSum
      exact verified
    · trivial
    · trivial
  · intro E arith args definition isCreated
    simp only [quantizedNorm, List.mem_cons, List.not_mem_nil, or_false] at isCreated
    rcases isCreated with rfl | rfl | rfl | rfl
    · have holds := valid.run_holds arith args isOutput
      exact holds
    · have holds := valid.run_holds arith args isSum
      exact holds
    · exact run_quantized valid isOutput isCodes arith args
    · exact run_quantized valid isOutput isScale arith args

end Quantization

end Libtt.DecodeFusions

import Libtt.Foundation.Definitions
import Libtt.SliceFusions.Meaning

/-!
# Fusions of decode programs

`RMSNormResidualFusionPattern`, `RMSNormResidualQuantizeFusionPattern` and
`TTNNMatmulWithOutputScales`. A program is the definitions of a block behind those that the blocks
around it have made; each definition is of one value, so that an operation with more results is as
many definitions in a row. Contents are in row-major order.
-/
namespace Libtt.DecodeFusions

open Libtt.Foundation Libtt.StableHlo

inductive ElementType where
  | bf16
  | f32
  | float8
  | other (name : Nat)
  deriving DecidableEq

abbrev TensorType := SliceFusions.TensorType ElementType

/-- The bits of a `float`. -/
abbrev Literal := BitVec 32

def one : Literal := 0x3f800000#32

/-- The results of `RMSNormResidualOp`. -/
inductive NormResult where
  | output
  | sum
  | codes
  | scale
  deriving DecidableEq

/-- The operands and attributes of `RMSNormResidualOp`; the last are those of a quantization. -/
structure NormOperands where
  input : Nat
  residual : Nat
  weight : Nat
  epsilon : Literal
  weightOffset : Literal
  quantization : Option (Nat × Literal)
  deriving DecidableEq

/-- The attributes of `MatmulOp`; `plain` is one without those that the pattern wants absent. -/
structure MatmulAttributes where
  transposeA : Bool
  transposeB : Bool
  plain : Bool
  computeConfig : Nat
  deriving DecidableEq

/-- The operations. Those in regions of another operation use the values that it captures. -/
inductive Operation where
  | constant (value : Literal)
  | add (lhs rhs : Nat)
  | multiply (lhs rhs : Nat) (plain : Bool)
  | typecast (input : Nat)
  | reshape (input : Nat)
  | broadcast (input : Nat)
  | rmsNorm (input : Nat) (weight bias : Option Nat) (epsilon : Literal)
    (normalizedShape : List Nat)
  | rmsNormResidual (result : NormResult) (operands : NormOperands)
  | quantizeRows (isScale : Bool) (input float8Type : Nat) (minScale : Literal)
  | matmul (a b : Nat) (attributes : MatmulAttributes)
  | scaledMatmul (a b rowScale colScale : Nat) (attributes : MatmulAttributes)
  | other (name : Nat) (inputs captured : List Nat)
  deriving DecidableEq

namespace Operation

def inputs : Operation → List Nat
  | .constant _ => []
  | .add lhs rhs | .multiply lhs rhs _ => [lhs, rhs]
  | .typecast input | .reshape input | .broadcast input | .quantizeRows _ input _ _ => [input]
  | .rmsNorm input weight bias _ _ => input :: (weight.toList ++ bias.toList)
  | .rmsNormResidual _ operands => [operands.input, operands.residual, operands.weight]
  | .matmul a b _ => [a, b]
  | .scaledMatmul a b rowScale colScale _ => [a, b, rowScale, colScale]
  | .other _ inputs _ => inputs

def captured : Operation → List Nat
  | .other _ _ captured => captured
  | _ => []

/-- What the operation uses, in its regions too. -/
def operands (op : Operation) : List Nat := op.inputs ++ op.captured

attribute [simp] inputs captured operands

end Operation

abbrev Definition := Nat × Operation

/-- An operand is broadcast to a result. -/
def BroadcastsTo (operand result : List Nat) : Prop :=
  operand.length ≤ result.length ∧ List.Forall₂ (fun size full => size = 1 ∨ size = full) operand
    (result.drop (result.length - operand.length))

/-- The place in an operand of an element of the result. -/
def broadcastPlace (operand result : List Nat) (number : Nat) : Nat :=
  position operand (List.zipWith (fun size coordinate => if size = 1 then 0 else coordinate) operand
    ((coordinates result number).drop (result.length - operand.length)))

/-- Whether the type has the value. -/
def ElementType.Has : ElementType → Literal → Prop
  | .f32, _ => True
  | .bf16, value => value.extractLsb' 0 16 = 0
  | _, _ => False

/-- Functions of elements, and of rows. Sums and products are those of 32 bits. -/
structure Arithmetic (E : Type) where
  literal : ElementType → Literal → E
  cast : ElementType → ElementType → E → E
  add : E → E → E
  mul : E → E → E
  activated : (Nat → E) → (Nat → E) → Nat → E
  norm : (Nat → E) → Option (Nat → E) → Option (Nat → E) → Literal → Nat → E
  quantize : (Nat → E) → Nat → Literal → Bool → Nat → E
  product : (Nat → E) → (Nat → E) → MatmulAttributes → Nat → Nat → E
  other : Nat → List (Nat → E) → Nat → E
  cast_self : ∀ type element, cast type type element = element
  cast_literal : ∀ source target value, source.Has value → target.Has value →
    cast source target (literal source value) = literal target value
  add_comm : ∀ first second, add first second = add second first
  mul_comm : ∀ first second, mul first second = mul second first

section Meaning

variable {E : Type} (arithmetic : Arithmetic E) (type : Nat → TensorType) (values : Nat → Nat → E)

/-- The first elements, and nothing beyond. -/
def upTo (count : Nat) (element : Nat → E) : Nat → E := fun number =>
  if number < count then element number else arithmetic.literal .f32 0

/-- The size of the last dimension. -/
def width (value : Nat) : Nat := (type value).shape.getLastD 1

def size (value : Nat) : Nat := (type value).shape.prod

/-- An element of a value as a number of 32 bits. -/
def widened (value number : Nat) : E :=
  arithmetic.cast (type value).element .f32 (values value number)

/-- The operand's element for one of a result. -/
def operandAt (result operand number : Nat) : E :=
  widened arithmetic type values operand
    (broadcastPlace (type operand).shape (type result).shape number)

/-- An element of a norm over the rows of an input. -/
def normAt (input : Nat) (contents : Nat → E) (weight bias : Option (Nat → E)) (epsilon : Literal)
    (number : Nat) : E :=
  arithmetic.norm (fun column => contents (number / width type input * width type input + column))
    weight bias epsilon (number % width type input)

namespace NormOperands

variable (operands : NormOperands)

/-- The program adds in FP32 and narrows. -/
def sumAt (number : Nat) : E :=
  arithmetic.cast .f32 (type operands.input).element (arithmetic.add
    (widened arithmetic type values operands.input number)
    (widened arithmetic type values operands.residual number))

/-- The program adds an offset other than the bits of zero to the weight. -/
def weightAt (column : Nat) : E :=
  if operands.weightOffset = 0 then widened arithmetic type values operands.weight column
  else arithmetic.add (widened arithmetic type values operands.weight column)
    (arithmetic.literal .f32 operands.weightOffset)

def outputAt (number : Nat) : E :=
  normAt arithmetic type operands.input
    (upTo arithmetic (size type operands.input) (operands.sumAt arithmetic type values))
    (some (upTo arithmetic (size type operands.weight) (operands.weightAt arithmetic type values)))
    none operands.epsilon number

end NormOperands

/-- The quantization of a row. -/
def quantizedAt (output : Nat → E) (width float8Type : Nat) (minScale : Literal) (isScale : Bool)
    (number : Nat) : E :=
  let row := if isScale then number else number / width
  arithmetic.quantize (fun column => output (row * width + column)) float8Type minScale isScale
    (if isScale then 0 else number % width)

/-- The codes of the output, or their scales. -/
def NormOperands.quantizedAt (operands : NormOperands) (isScale : Bool) (number : Nat) : E :=
  let (float8Type, minScale) := operands.quantization.getD (0, 0)
  DecodeFusions.quantizedAt arithmetic
    (upTo arithmetic (size type operands.input) (operands.outputAt arithmetic type values))
    (width type operands.input) float8Type minScale isScale number

/-- The columns of a product of matrices. -/
def productCols (b : Nat) (attributes : MatmulAttributes) : Nat :=
  (type b).shape.getD (if attributes.transposeB then 0 else 1) 0

def productRows (a : Nat) (attributes : MatmulAttributes) : Nat :=
  (type a).shape.getD (if attributes.transposeA then 1 else 0) 0

def Operation.evalAt (result : Nat) (op : Operation) (number : Nat) : E :=
  match op with
  | .constant value => arithmetic.literal (type result).element value
  | .add lhs rhs => arithmetic.cast .f32 (type result).element (arithmetic.add
      (operandAt arithmetic type values result lhs number)
      (operandAt arithmetic type values result rhs number))
  | .multiply lhs rhs plain =>
    if plain then arithmetic.cast .f32 (type result).element (arithmetic.mul
      (operandAt arithmetic type values result lhs number)
      (operandAt arithmetic type values result rhs number))
    else arithmetic.activated (values lhs) (values rhs) number
  | .typecast input =>
    arithmetic.cast (type input).element (type result).element (values input number)
  | .reshape input => values input number
  | .broadcast input =>
    values input (broadcastPlace (type input).shape (type result).shape number)
  | .rmsNorm input weight bias epsilon _ =>
    let parameter := fun value => upTo arithmetic (size type value) (widened arithmetic type values value)
    normAt arithmetic type input (values input) (weight.map parameter) (bias.map parameter) epsilon number
  | .rmsNormResidual .output operands => operands.outputAt arithmetic type values number
  | .rmsNormResidual .sum operands => operands.sumAt arithmetic type values number
  | .rmsNormResidual .codes operands =>
    operands.quantizedAt arithmetic type values false number
  | .rmsNormResidual .scale operands =>
    operands.quantizedAt arithmetic type values true number
  | .quantizeRows isScale input float8Type minScale =>
    quantizedAt arithmetic (values input) (width type input) float8Type minScale isScale number
  | .matmul a b attributes =>
    arithmetic.cast .f32 (type result).element (arithmetic.product (values a) (values b) attributes
      (number / productCols type b attributes) (number % productCols type b attributes))
  | .scaledMatmul a b rowScale colScale attributes =>
    let row := number / productCols type b attributes
    let column := number % productCols type b attributes
    arithmetic.cast .f32 (type result).element (arithmetic.mul
      (arithmetic.mul (arithmetic.product (values a) (values b) attributes row column)
        (widened arithmetic type values rowScale row))
      (widened arithmetic type values colScale
        (if size type colScale = 1 then 0 else column)))
  | .other name inputs captured => arithmetic.other name ((inputs ++ captured).map values) number

/-- The contents of a result: nothing beyond its elements. -/
def Operation.eval (result : Nat) (op : Operation) : Nat → E :=
  upTo arithmetic (size type result) (op.evalAt arithmetic type values result)

end Meaning

/-- The operation is valid for the types of its operands and its result. -/
def Operation.Verifies (type : Nat → TensorType) (result : Nat) : Operation → Prop
  | .add lhs rhs => ∀ operand ∈ [lhs, rhs], BroadcastsTo (type operand).shape (type result).shape ∧
      (type operand).element = (type result).element
  | .multiply lhs rhs _ =>
    ∀ operand ∈ [lhs, rhs], BroadcastsTo (type operand).shape (type result).shape
  | .typecast input => (type input).shape = (type result).shape
  | .reshape input =>
    (type input).element = (type result).element ∧ size type input = size type result
  | .broadcast input => (type input).element = (type result).element ∧
      BroadcastsTo (type input).shape (type result).shape
  | .rmsNormResidual .output operands | .rmsNormResidual .sum operands =>
    type result = type operands.input ∧ type operands.residual = type operands.input ∧
      size type operands.weight = width type operands.input
  | .matmul a b attributes => (type result).shape.length = 2 →
      (type result).shape = [productRows type a attributes, productCols type b attributes]
  | .scaledMatmul a b _ _ attributes =>
    (type result).shape = [productRows type a attributes, productCols type b attributes]
  | _ => True

structure Program where
  type : Nat → TensorType
  /-- What the blocks around have defined. -/
  outer : List Definition
  block : List Definition

namespace Program

variable (program : Program)

def definitions : List Definition := program.outer ++ program.block

structure Valid : Prop where
  ordered : Ordered Operation.operands program.definitions
  verified : ∀ definition ∈ program.definitions, definition.2.Verifies program.type definition.1

/-- `getDefiningOp`. -/
def definingOp (value : Nat) : Option Operation :=
  (program.definitions.find? fun definition => definition.1 == value).map (·.2)

/-- How often a value is used. -/
def uses (value : Nat) : Nat :=
  (program.definitions.flatMap fun definition => definition.2.operands).count value

def hasOneUse (value : Nat) : Bool := program.uses value == 1

/-- Whether the block defines the value. -/
def inBlock (value : Nat) : Bool := program.block.any (·.1 == value)

/-- What the block has behind a value. -/
def behind (value : Nat) : List Definition := (program.block.dropWhile (·.1 != value)).tail

/-- `isBeforeInBlock`. -/
def isBeforeInBlock (first second : Nat) : Bool := (program.behind first).any (·.1 == second)

/-- The definitions after some take the place of a root and others are dropped. -/
def replaced (root : Nat) (created : List Definition) (dropped : Nat → Bool) : List Definition :=
  rebuilt (program.definitions.takeWhile (·.1 != root))
    (program.definitions.dropWhile (·.1 != root)).tail created dropped

/-- The contents of the values after some definitions. -/
def run {E : Type} (arithmetic : Arithmetic E) (definitions : List Definition)
    (arguments : Nat → Nat → E) : Nat → Nat → E :=
  runDefinitions (Operation.eval arithmetic program.type) definitions arguments

end Program

/-- Functions that the patterns call. -/
structure Helpers where
  /-- `lookThrough<ReshapeOp>` -/
  lookThroughReshape : Program → Nat → Nat
  /-- Whether `lookThroughLayoutOps` gives an `OnesOp`. -/
  isOnes : Program → Nat → Bool
  /-- `getSplatConstantValue`, as a `float`. -/
  getSplatConstantValue : Program → Nat → Option Literal

/-- Reshapes lead from a value to another. -/
inductive ThroughReshapes (program : Program) : Nat → Nat → Prop
  | refl (value : Nat) : ThroughReshapes program value value
  | reshape {value input source : Nat} (defined : program.definingOp value = some (.reshape input))
    (rest : ThroughReshapes program input source) : ThroughReshapes program value source

/-- What the patterns rely on. -/
structure Helpers.Documented (helpers : Helpers) : Prop where
  lookThrough : ∀ program value,
    ThroughReshapes program value (helpers.lookThroughReshape program value)
  ones : ∀ program : Program, program.Valid → ∀ value, helpers.isOnes program value = true →
    ∀ {E : Type} (arithmetic : Arithmetic E) (arguments : Nat → Nat → E),
      ∀ number < size program.type value,
        program.run arithmetic program.definitions arguments value number =
          arithmetic.literal (program.type value).element one
  splat : ∀ program : Program, program.Valid → ∀ value literal,
    helpers.getSplatConstantValue program value = some literal →
    ∀ {E : Type} (arithmetic : Arithmetic E) (arguments : Nat → Nat → E),
      ∀ number < size program.type value,
        program.run arithmetic program.definitions arguments value number =
          arithmetic.literal (program.type value).element literal

section ResidualNorm

variable (helpers : Helpers) (program : Program)

/-- What the sum adds: BF16 values, or such as are widened for it. -/
def residualOperands (input : Nat) : Option (Nat × Nat) :=
  match program.definingOp input with
  | some (.add lhs rhs) => some (lhs, rhs)
  | some (.typecast wide) =>
    match program.definingOp wide with
    | some (.add lhsCast rhsCast) =>
      if program.hasOneUse wide = false ∨ (program.type wide).element ≠ .f32 then none
      else
        match program.definingOp lhsCast, program.definingOp rhsCast with
        | some (.typecast lhs), some (.typecast rhs) => some (lhs, rhs)
        | _, _ => none
    | _ => none
  | _ => none

/-- The value of `offset`. -/
def offsetOf (other : Nat) : Option Literal :=
  if helpers.isOnes program other then some one else helpers.getSplatConstantValue program other

/-- A BF16 weight that is widened, and what is added to it. -/
def addedTo (weightAdd operand other : Nat) : Option (Nat × Literal) :=
  match program.definingOp operand, offsetOf helpers program other with
  | some (.typecast input), some offset =>
    if program.type operand = program.type weightAdd ∧ (program.type weightAdd).element = .f32 ∧
        (program.type input).element = .bf16 then some (input, offset)
    else none
  | _, _ => none

/-- The BF16 weight with its offset, if there is one. -/
def offsetWeight (weight : Nat) : Option (Nat × Literal) :=
  let weightAdd := helpers.lookThroughReshape program weight
  match program.definingOp weightAdd with
  | some (.add lhs rhs) =>
    (addedTo helpers program weightAdd lhs rhs).orElse fun _ =>
      addedTo helpers program weightAdd rhs lhs
  | _ => none

def maxWidth : Nat := 65536

/-- The types that the fused program handles. -/
def typesFit (norm input lhs rhs : Nat) (normalizedShape : List Nat) : Bool :=
  let type := program.type input
  type.shape.length == 2 && decide (1 ≤ type.shape.getD 0 0) && decide (type.shape.getD 0 0 ≤ 32) &&
    type.shape.getD 1 0 % 32 == 0 && decide (type.shape.getD 1 0 ≤ maxWidth) &&
    type.element == .bf16 && normalizedShape == [type.shape.getD 1 0] &&
    program.type norm == type && program.type lhs == type && program.type rhs == type

/-- The sum's users are the norm and operations behind it in its block. -/
def usesFollowNorm (input norm : Nat) : Bool :=
  program.definitions.all fun definition =>
    !definition.2.captured.contains input &&
      (!definition.2.inputs.contains input || definition.1 == norm ||
        program.isBeforeInBlock norm definition.1)

/-- `RMSNormResidualFusionPattern`: the definitions afterwards. -/
def residualNormFusion (norm : Nat) : Option (List Definition) :=
  match program.definingOp norm with
  | some (.rmsNorm input (some weight) none epsilon normalizedShape) =>
    match residualOperands program input with
    | some (lhs, rhs) =>
      let (weight, weightOffset) := (offsetWeight helpers program weight).getD (weight, 0)
      let width := (program.type input).shape.getD 1 0
      let operands : NormOperands := ⟨lhs, rhs, weight, epsilon, weightOffset, none⟩
      let created := [(norm, .rmsNormResidual .output operands),
        (input, .rmsNormResidual .sum operands)]
      if typesFit program norm input lhs rhs normalizedShape = false then none
      else if size program.type weight ≠ width ∨
          (program.type weight).shape.getLast? ≠ some width then none
      else if program.inBlock input = false ∨ program.inBlock norm = false then none
      else if usesFollowNorm program input norm then
        some (program.replaced norm created (· == input))
      else if program.inBlock weight = false ∨ program.isBeforeInBlock weight input = true then
        some (program.replaced input created (· == norm))
      else none
    | none => none
  | _ => none

end ResidualNorm

/-- The results of a norm that quantizes. -/
def quantizedNorm (output sum codes scale : Nat) (operands : NormOperands) : List Definition :=
  [(output, .rmsNormResidual .output operands), (sum, .rmsNormResidual .sum operands),
    (codes, .rmsNormResidual .codes operands), (scale, .rmsNormResidual .scale operands)]

/-- `RMSNormResidualQuantizeFusionPattern`. -/
inductive QuantizeFusion (program : Program) : List Definition → Prop
  | fuse {before between after : List Definition} {output sum codes scale float8Type : Nat}
    {minScale : Literal} {operands : NormOperands}
    (isProgram : program.definitions =
      before ++ (output, .rmsNormResidual .output operands) ::
        (sum, .rmsNormResidual .sum operands) :: (between ++
          (codes, .quantizeRows false output float8Type minScale) ::
            (scale, .quantizeRows true output float8Type minScale) :: after))
    (notQuantized : operands.quantization = none)
    (isBf16 : (program.type output).element = .bf16) :
    QuantizeFusion program (program.replaced output
      (quantizedNorm output sum codes scale { operands with
        quantization := some (float8Type, minScale) })
      fun value => value == sum || value == codes || value == scale)

section OutputScales

variable (program : Program)

/-- `factorOf`: the factor that such an operation defines, and the other. -/
def factorOf (isKind : Operation → Bool) (lhs rhs : Nat) : Option (Nat × Nat) :=
  if (program.definingOp lhs).any isKind then some (lhs, rhs)
  else if (program.definingOp rhs).any isKind then some (rhs, lhs)
  else none

def isMultiply : Operation → Bool
  | .multiply _ _ _ => true
  | _ => false

def isMatmul : Operation → Bool
  | .matmul _ _ _ => true
  | _ => false

/-- The input of `colReshape`. -/
def colReshape (colScale cols : Nat) : Option Nat :=
  match program.definingOp colScale with
  | some (.reshape input) => if (program.type input).shape = [cols, 1] then some input else none
  | _ => none

/-- What the pattern has matched. -/
structure ScalesMatch where
  inner : Nat
  matmul : Nat
  a : Nat
  b : Nat
  rowScale : Nat
  colScale : Nat
  attributes : MatmulAttributes

/-- The operations that `TTNNMatmulWithOutputScales` looks for. -/
def scalesMatch (outer : Nat) : Option ScalesMatch :=
  match program.definingOp outer with
  | some (.multiply outerLhs outerRhs outerPlain) =>
    match factorOf program isMultiply outerLhs outerRhs with
    | some (inner, colScale) =>
      match program.definingOp inner with
      | some (.multiply innerLhs innerRhs innerPlain) =>
        if outerPlain = false ∨ innerPlain = false ∨ program.hasOneUse inner = false then none
        else
          match factorOf program isMatmul innerLhs innerRhs with
          | some (matmul, rowScale) =>
            match program.definingOp matmul with
            | some (.matmul a b attributes) =>
              if program.hasOneUse matmul = false ∨ attributes.transposeA ∨ attributes.plain = false
              then none
              else some ⟨inner, matmul, a, b, rowScale, colScale, attributes⟩
            | _ => none
          | none => none
      | _ => none
    | none => none
  | _ => none

/-- The types that the epilogue handles. -/
def scalesFit (outer : Nat) (found : ScalesMatch) : Bool :=
  let type := program.type
  let rows := (type found.matmul).shape.getD 0 0
  let cols := (type found.matmul).shape.getD 1 0
  let colScale := (colReshape program found.colScale cols).getD found.colScale
  (type found.a).element == .float8 && (type found.b).element == .float8 &&
    (type found.matmul).shape.length == 2 && (type found.matmul).element == .f32 &&
    (type found.inner).element == .f32 && (type found.rowScale).element == .f32 &&
    (type found.colScale).element == .f32 && decide (rows ≤ 32) &&
    (type found.rowScale).shape == [rows, 1] &&
    ((colReshape program found.colScale cols).isSome || size type colScale == 1 ||
      (type colScale).shape == [1, cols]) &&
    ((type outer).element == .f32 || (type outer).element == .bf16)

/-- `TTNNMatmulWithOutputScales`: the definitions afterwards. A reshape of the column scale that has
no use left is erased too. -/
def outputScalesFusion (outer : Nat) : Option (List Definition) :=
  (scalesMatch program outer).bind fun found =>
    if scalesFit program outer found = false then none
    else
      let reshape := colReshape program found.colScale ((program.type found.matmul).shape.getD 1 0)
      let fused : Operation := .scaledMatmul found.a found.b found.rowScale
        (reshape.getD found.colScale) found.attributes
      let unused := reshape.isSome && program.hasOneUse found.colScale
      some (program.replaced outer [(outer, fused)] fun value =>
        value == found.inner || value == found.matmul || (unused && value == found.colScale))

end OutputScales

/-- The program is a valid one, no operation is erased that has a use, and all values that remain
are the same, whatever the operations compute. -/
structure Keeps (program : Program) (result : List Definition) : Prop where
  ordered : Ordered Operation.operands result
  verified : ∀ definition ∈ result, definition.2.Verifies program.type definition.1
  erased : ∀ definition ∈ program.definitions, (∀ other ∈ result, other.1 ≠ definition.1) →
    ∀ other ∈ result, definition.1 ∉ other.2.operands
  values : ∀ {E : Type} (arithmetic : Arithmetic E) (arguments : Nat → Nat → E) (value : Nat),
    ((∀ definition ∈ program.definitions, definition.1 ≠ value) ∨ ∃ definition ∈ result,
      definition.1 = value) →
    program.run arithmetic result arguments value =
      program.run arithmetic program.definitions arguments value

end Libtt.DecodeFusions

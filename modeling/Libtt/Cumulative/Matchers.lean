import Libtt.StableHlo.Element
import Libtt.StableHlo.Running

/-!
# Cumulative operations from windows

The conversion of `stablehlo.reduce_window` to TTIR recognises a window that spans one dimension,
padded on one side, as a running reduction, and replaces it by a cumulative operation. What the
conversion checks elsewhere, and windows with the same padding everywhere, are left open.
-/
namespace Libtt.Cumulative

open Libtt.StableHlo

/-- Typical initialization values for reduction ops. -/
inductive TypicalInitReductionValue where
  | negInf
  | posInf
  | zero
  | one

/-- Whether an init value is the desired one of its type. -/
def checkInitValue (desired : TypicalInitReductionValue) :
    (type : ElementType) → Element type → Bool
  | .float _, .nan => false
  | .float format, .number key mem => format.checked && match desired with
    | .negInf => format.hasInfinities && key == format.least
    | .posInf => format.hasInfinities && key == format.greatest
    | .zero => key == 0 || key == -1
    | .one => FloatValue.number key mem == FloatValue.one
  | .integer type, value => match desired with
    | .zero => value == BitVec.ofNat type.width 0
    | .one => value == BitVec.ofNat type.width 1
    | .posInf => if !type.signed || type.width == 1 then value == BitVec.allOnes type.width
      else value == BitVec.intMax type.width
    | .negInf => if !type.signed || type.width == 1 then value == BitVec.ofNat type.width 0
      else value == BitVec.intMin type.width

structure CumulativeReductionMatch where
  dimension : Nat
  reverse : Bool
  deriving DecidableEq, Repr

/-- The checks that stand elsewhere: on the window's attributes, and those of a window whose
padding is the same everywhere. -/
structure Checks (α : Type) where
  hasValidWindowAttributes : ReduceWindowOp α → Bool
  splatPadding : ReduceWindowOp α → List Nat → Option CumulativeReductionMatch

/-- The one window dimension that is not 1, and its place, unless there are several. -/
def findWindowDimension : List Nat → Nat → Option (Nat × Nat) → Option (Option (Nat × Nat))
  | [], _, found => some found
  | windowDim :: rest, idx, found =>
    if windowDim = 1 then findWindowDimension rest (idx + 1) found
    else if found.isSome then none
    else findWindowDimension rest (idx + 1) (some (windowDim, idx))

def validateNonSplatPadding (windowDimensions : List Nat) (padding : List Int)
    (shape : List Nat) : Option CumulativeReductionMatch :=
  match findWindowDimension windowDimensions 0 none with
  | some (some (dimArgValue, dimension)) =>
    if dimArgValue ≠ shape.getD dimension 0 ∨ dimArgValue ≤ 1 then none
    else if ∃ i < padding.length, i ≠ dimension * 2 ∧ i ≠ dimension * 2 + 1 ∧
        padding.getD i 0 ≠ 0 then none
    else
      let lowPadding := padding.getD (dimension * 2) 0
      let highPadding := padding.getD (dimension * 2 + 1) 0
      if lowPadding = (dimArgValue : Int) - 1 ∧ highPadding = 0 then some ⟨dimension, false⟩
      else if lowPadding = 0 ∧ highPadding = (dimArgValue : Int) - 1 then some ⟨dimension, true⟩
      else none
  | _ => none

section

variable {type : ElementType} (checks : Checks (Element type))

def hasValidInputAndPadding (op : ReduceWindowOp (Element type)) (shape : List Nat) :
    Option CumulativeReductionMatch :=
  if ∀ amount ∈ op.padding, amount = op.padding.headD 0 then checks.splatPadding op shape
  else validateNonSplatPadding op.windowDimensions op.padding shape

/-- A window whose body is the combiner, with the desired init value. -/
def isCumulative (combiner : Combiner) (desired : TypicalInitReductionValue)
    (op : ReduceWindowOp (Element type)) (body : Combiner) (shape : List Nat) :
    Option CumulativeReductionMatch :=
  if body = combiner ∧ checkInitValue desired type op.initValue ∧
      checks.hasValidWindowAttributes op
  then hasValidInputAndPadding checks op shape
  else none

def isCumSum := isCumulative checks .add .zero

def isCumProd := isCumulative checks .multiply .one

/-- A running max or min along one dimension. -/
def isCumulativeExtremum (op : ReduceWindowOp (Element type)) (body : Combiner)
    (shape : List Nat) : Option CumulativeReductionMatch :=
  match body with
  | .maximum => isCumulative checks .maximum .negInf op body shape
  | .minimum => isCumulative checks .minimum .posInf op body shape
  | _ => none

end

/-- f32. -/
def single : FloatFormat where
  least := -0x7F800001
  greatest := 0x7F800000
  fractionBits := 23
  bias := 127
  hasInfinities := true
  checked := true
  zero_mem := by decide

/-- The type that integers are computed in. -/
def getComputeElementType : ElementType → ElementType
  | .integer _ => .float single
  | .float format => .float format

/-- TTNN sums 32-bit integers exactly; other integers are computed in f32. -/
def computeType (combiner : Combiner) : ElementType → ElementType
  | .integer type => if combiner = .add ∧ type.width = 32 then .integer type
    else getComputeElementType (.integer type)
  | .float format => .float format

/-- The kernel takes 32-bit integers only, so narrower unsigned ones are scanned as uint32. -/
def scanType : ElementType → ElementType
  | .integer type => if type.signed = false ∧ type.width < 32 then .integer ⟨32, false, positive32⟩
    else .integer type
  | .float format => .float format

variable (semantics : Semantics)

def castToElementType (source target : ElementType) (operand : Tensor (Element source)) :
    Tensor (Element target) :=
  if same : source = target then same ▸ operand
  else operand.map (semantics.typecast source target)

def replaceWithCumulativeOp {type : ElementType} (combiner : Combiner)
    (found : CumulativeReductionMatch) (operand : Tensor (Element type)) :
    Tensor (Element type) :=
  let compute := computeType combiner type
  let input := castToElementType semantics type compute operand
  let input := if found.reverse then input.reverse found.dimension else input
  let result := input.running (semantics.combine combiner compute) found.dimension false
  let result := if found.reverse then result.reverse found.dimension else result
  castToElementType semantics compute type result

def replaceWithCumulativeReduction {type : ElementType} (combiner : Combiner)
    (found : CumulativeReductionMatch) (operand : Tensor (Element type)) :
    Tensor (Element type) :=
  let scan := scanType type
  let input := castToElementType semantics type scan operand
  let result := input.running (semantics.combine combiner scan) found.dimension found.reverse
  castToElementType semantics scan type result

/-- The cumulative operation that a window is replaced by, if one is. -/
def lowerReduceWindow {type : ElementType} (checks : Checks (Element type))
    (op : ReduceWindowOp (Element type)) (body : Combiner) (operand : Tensor (Element type)) :
    Option (Tensor (Element type)) :=
  match isCumSum checks op body operand.shape with
  | some found => some (replaceWithCumulativeOp semantics .add found operand)
  | none =>
    match isCumProd checks op body operand.shape with
    | some found => some (replaceWithCumulativeOp semantics .multiply found operand)
    | none => (isCumulativeExtremum checks op body operand.shape).map fun found =>
        replaceWithCumulativeReduction semantics body found operand

end Libtt.Cumulative

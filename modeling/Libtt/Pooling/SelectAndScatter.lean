import Libtt.Foundation.Selection
import Libtt.Pooling.Layout

/-!
# Select and scatter

The conversion of `stablehlo.select_and_scatter`, the gradient of a pool, takes the indices of a max
pool on the normalized layout and scatters the source to them.
-/
namespace Libtt.Pooling

open Libtt.Foundation Libtt.StableHlo

variable {α β : Type} {format : FloatFormat}

/-- The comparisons of min and max selections. -/
inductive SelectDirection where
  | GE
  | GT
  | LE
  | LT
  deriving DecidableEq, Repr

/-- The comparison of two floats. A NaN has no order, and both zeros are one number. -/
def SelectDirection.compare (direction : SelectDirection) (lhs rhs : FloatValue format) : Bool :=
  match number (.float format) lhs, number (.float format) rhs with
  | some left, some right =>
    match direction with
    | .GE => right ≤ left
    | .GT => right < left
    | .LE => left ≤ right
    | .LT => left < right
  | _, _ => false

/-- `stablehlo.select_and_scatter`, with a select region that compares its arguments in order, a
scatter region that adds, and zero for the init value. -/
structure SelectAndScatterOp where
  direction : SelectDirection
  windowDimensions : List Nat
  windowStrides : List Nat
  padding : List Int
  deriving DecidableEq, Repr

/-- The positions in the window of an index. -/
def windowPositions (shape : List Nat) (windows : List Window) (index : List Nat) :
    List (List Nat) :=
  ((⟨shape, id⟩ : Tensor (List Nat)).windowAt windows index).filterMap id

namespace SelectAndScatterOp

variable (op : SelectAndScatterOp)

/-- The attributes of its windows, with unit dilations. -/
def attributes : WindowAttributes where
  windowDimensions := op.windowDimensions
  windowStrides := op.windowStrides
  windowDilations := List.replicate op.windowDimensions.length 1
  padding := op.padding

def windows (shape : List Nat) : List Window := op.attributes.windows shape.length

/-- The shape of the source. -/
def sourceShape (shape : List Nat) : List Nat := Tensor.windowedShape (op.windows shape) shape

/-- The position that a window selects. -/
def selectedPosition (operand : Tensor (FloatValue format)) (index : List Nat) :
    Option (List Nat) :=
  selected (fun current candidate =>
      op.direction.compare (operand.data current) (operand.data candidate))
    (windowPositions operand.shape (op.windows operand.shape) index)

/-- Each position gets the sum of the source elements whose windows select it. -/
def eval [AddCommMonoid β] (operand : Tensor (FloatValue format)) (source : Tensor β) :
    Tensor β where
  shape := operand.shape
  data position := (((indices source.shape).filter fun index =>
    op.selectedPosition operand index = some position).map source.data).sum

end SelectAndScatterOp

/-- The index of a `ttir.max_pool2d_with_indices`, by its coordinates. -/
def maxPool2dWithIndices (kernelH kernelW : Window) (input : Tensor (FloatValue format)) :
    Tensor (Option (List Nat)) where
  shape := Tensor.windowedShape (poolWindows kernelH kernelW) input.shape
  data index :=
    let positions := windowPositions input.shape (poolWindows kernelH kernelW) index
    positions.find? fun position => positions.all fun other =>
      SelectDirection.LE.compare (input.data other) (input.data position)

inductive ReduceType where
  | Sum
  | Invalid
  deriving DecidableEq, Repr

/-- `ttir.scatter` of single elements. Without a reduction an update overwrites. -/
def scatter [Add β] (reduceType : ReduceType) (input : Tensor β)
    (indices : Tensor (Option (List Nat))) (updates : Tensor β) : Tensor β where
  shape := input.shape
  data position := (StableHlo.indices updates.shape).foldl (fun value index =>
    if indices.data index = some position then
      match reduceType with
      | .Sum => value + updates.data index
      | .Invalid => updates.data index
    else value) (input.data position)

def lowerSelectAndScatter [AddCommMonoid β] (layout : Pool2DLayout) (op : SelectAndScatterOp)
    (operand : Tensor (FloatValue format)) (source : Tensor β) : Tensor β :=
  let fullTensor : Tensor β := ⟨operand.shape, fun _ => 0⟩
  let selection := if op.direction = .LE ∨ op.direction = .LT then operand.map negate else operand
  let kernelH := layout.kernel op.attributes 0
  let kernelW := layout.kernel op.attributes 1
  let indices := maxPool2dWithIndices kernelH kernelW (layout.normalize selection)
  -- With zero fill, non-overlapping windows only need an overwrite.
  let reduceType := if kernelH.size ≤ kernelH.stride ∧ kernelW.size ≤ kernelW.stride then
    ReduceType.Invalid else ReduceType.Sum
  layout.restoreOriginalLayout operand.shape
    (scatter reduceType (layout.normalize fullTensor) indices (layout.normalize source))

end Libtt.Pooling

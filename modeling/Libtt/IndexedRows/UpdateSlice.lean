import Libtt.IndexedRows.Canonical
import Libtt.IndexedRows.Torch

/-!
# Dynamic update slices onto the rows ops

`DynamicUpdateSliceConversionPattern` of `IndexedRows.cpp`, as the value of what it emits.
-/
namespace Libtt.IndexedRows

open Libtt.Foundation Libtt.StableHlo

variable {α : Type} (type : IntegerType)

/-- `ttir.clamp_scalar`. -/
def clampScalar (low high : BitVec 32) (operand : Tensor type.Word) : Tensor type.Word :=
  operand.map fun word => type.constant (min (max (type.read word) low.toInt) high.toInt)

/-- The start of the update in a dimension, clamped. -/
def startColumn (start : Tensor type.Word) (size window : Nat) : Tensor (BitVec 32) :=
  clampScalar (asInt32Type type) (i32Attr 0) (i32Attr ((size : Int) - window))
    (asInt32 type (start.reshape [1, 1]))

/-- A turn of the loop over the operand's dimensions. -/
def addDim (operandShape updateShape : List Nat) (startIndices : List (Tensor type.Word))
    (found : List OperandDim × List (Tensor (BitVec 32))) (d : Nat) :
    List OperandDim × List (Tensor (BitVec 32)) :=
  let size := operandShape.getD d 0
  let window := updateShape.getD d 0
  let free : OperandDim := { kind := .free, window, size }
  match startIndices[d]? with
  -- The trailing dimension of a complex operand has no start index.
  | none => (found.1 ++ [free], found.2)
  | some start =>
    if window ≠ size then
      (found.1 ++ [{ kind := .indexed, column := found.2.length, window, size }],
        found.2 ++ [startColumn type start size window])
    else (found.1 ++ [free], found.2)

/-- The operand's dimensions, and the columns of those that are indexed. -/
def updateDims (operandShape updateShape : List Nat) (startIndices : List (Tensor type.Word)) :
    List OperandDim × List (Tensor (BitVec 32)) :=
  (List.range operandShape.length).foldl (addDim type operandShape updateShape startIndices) ([], [])

/-- The columns of the components, which are zero where a component is not indexed. -/
def indexColumns (columns : List (Tensor (BitVec 32))) (c : Canonical) :
    List (Tensor (BitVec 32)) :=
  let zeros := full [1, 1] (i32Attr 0)
  c.columns.map fun column => if 0 ≤ column then columns.getD column.toNat zeros else zeros

/-- The columns one behind the other, as the indices of one position. -/
def startIndicesPage (indexColumns : List (Tensor (BitVec 32))) : Tensor (BitVec 32) :=
  let indices := indexColumns.tail.foldl (concat 1) (indexColumns.headD (full [1, 1] (i32Attr 0)))
  indices.reshape [1, indexColumns.length, 1]

/-- `DynamicUpdateSliceConversionPattern`. -/
def dynamicUpdateSliceToRows (operand update : Tensor α)
    (startIndices : List (Tensor type.Word)) : Tensor α :=
  if operand.shape = update.shape then update
  else if update.shape.prod = 0 then operand
  else
    let dims := updateDims type operand.shape update.shape startIndices
    let c := canonicalize dims.1
    let indices := startIndicesPage (indexColumns dims.2 c)
    let table := buildTable operand c
    let source := update.reshape (c.gatheredShape 1)
    scatterRows (asInt32Type type) table indices source c (fun _ new => new) operand.shape

/-- Where the update starts along a dimension: the start index, clamped to where the update fits,
and zero without a start index. -/
def adjustedStart (startIndices : List (Tensor type.Word)) (operandShape updateShape : List Nat)
    (d : Nat) : Nat :=
  match startIndices[d]? with
  | none => 0
  | some start => (min (max (type.read (start.data [])) 0)
      ((operandShape.getD d 0 : Int) - updateShape.getD d 0)).toNat

/-- `stablehlo.dynamic_update_slice`. -/
def dynamicUpdateSlice (operand update : Tensor α) (startIndices : List (Tensor type.Word)) :
    Tensor α where
  shape := operand.shape
  data index :=
    let starts := (List.range operand.shape.length).map
      (adjustedStart type startIndices operand.shape update.shape)
    if (List.range operand.shape.length).all fun d =>
        starts.getD d 0 ≤ index.getD d 0 ∧ index.getD d 0 < starts.getD d 0 + update.shape.getD d 0 then
      update.data (List.zipWith (· - ·) index starts)
    else operand.data index

end Libtt.IndexedRows

import Libtt.IndexedRows.Rows

/-!
# The operand as a table

`canonicalize` of `IndexedRows.cpp` lays the operand out as batches, components and rows.
-/
namespace Libtt.IndexedRows

open Libtt.Foundation Libtt.StableHlo

variable {α : Type}

/-- What an operand dimension is to the rows ops. -/
inductive DimKind
  | batch
  | indexed
  | free
  deriving DecidableEq, Repr

structure OperandDim where
  kind : DimKind
  /-- The index component of an indexed dimension. -/
  column : Int := -1
  window : Nat := 1
  size : Nat := 1
  deriving DecidableEq, Repr

namespace OperandDim

def needsComponent (dim : OperandDim) : Bool :=
  dim.kind = .indexed ∨ dim.kind = .free ∧ dim.window ≠ dim.size

def empty : OperandDim := { kind := .free }

end OperandDim

/-- The operand's `[B, N, R]` view. -/
structure Canonical where
  /-- Applied to the operand before the view. -/
  permutation : List Nat
  batchDims : List Nat
  componentDims : List Nat
  rowDims : List Nat
  /-- For each component its index column, `-1` for a constant zero. -/
  columns : List Int
  sizes : List Nat
  windows : List Nat
  /-- The last component addresses columns inside the row's page. -/
  column : Bool
  dims : List OperandDim

namespace Canonical

variable (c : Canonical)

def size (d : Nat) : Nat := (c.dims.getD d .empty).size

def B : Nat := (c.batchDims.map c.size).prod

def rowComponents : Nat := c.sizes.length - (if c.column then 1 else 0)

def N : Nat := (c.sizes.take c.rowComponents).prod

def W : Nat := (c.windows.take c.rowComponents).prod

def columnWindow : Nat := if c.column then c.windows.getLastD 1 else 1

/-- The extents of the rows, of at least one dimension. -/
def rowSizes : List Nat := if c.rowDims = [] then [1] else c.rowDims.map c.size

def tableShape : List Nat :=
  c.B :: c.N :: (if c.column then [c.sizes.getLastD 1] else c.rowSizes)

def gatheredShape (positions : Nat) : List Nat :=
  if c.column then [c.B, positions * c.W * c.columnWindow]
  else c.B :: positions * c.W :: c.rowSizes

/-- The attributes of the rows ops. -/
def rows : Rows := ⟨c.sizes, c.windows, c.column⟩

end Canonical

/-- `regionStart`: the first dimension that needs a component, the rank without one. -/
def regionStart (dims : List OperandDim) : Nat := dims.findIdx (·.needsComponent)

/-- `regionEnd + 1`: behind the last dimension that needs a component, zero without one. -/
def regionStop (dims : List OperandDim) : Nat :=
  dims.length - dims.reverse.findIdx (·.needsComponent)

/-- Whether the operand keeps its order. -/
def natural (dims : List OperandDim) : Bool :=
  (List.range dims.length).all fun d =>
    let dim := dims.getD d .empty
    let leading := d < regionStart dims
    let isBatch := dim.kind = .batch
    let unit := 0 < regionStop dims ∧ dim.kind = .free ∧ dim.size = 1
    ¬(isBatch ∧ ¬leading) ∧
      ¬(dims.any (·.kind = .batch) ∧ leading ∧ ¬isBatch ∧ ¬unit)

/-- The dimensions of a kind, in the order of an operand that is permuted. -/
def takenAs (dims : List OperandDim) (kind : DimKind) : List Nat :=
  (List.range dims.length).filter fun d =>
    let dim := dims.getD d .empty
    match kind with
    | .batch => dim.kind = .batch
    | .indexed => dim.needsComponent
    | .free => dim.kind = .free ∧ ¬dim.needsComponent

def permutationOf (dims : List OperandDim) : List Nat :=
  if natural dims then List.range dims.length
  else [DimKind.batch, .indexed, .free].flatMap (takenAs dims)

/-- `canonicalize`. -/
def canonicalize (operandDims : List OperandDim) : Canonical :=
  let rank := operandDims.length
  let permutation := permutationOf operandDims
  let dims := permutation.map (operandDims.getD · .empty)
  -- With nothing indexed the last dimension is the row, and the region in front of it is empty.
  let start := if regionStop dims = 0 then rank - 1 else regionStart dims
  let stop := if regionStop dims = 0 then rank - 1 else regionStop dims
  let componentDims := List.range' start (stop - start)
  let component (d : Nat) : OperandDim := dims.getD d .empty
  { permutation
    dims
    batchDims := List.range start
    componentDims
    rowDims := List.range' stop (rank - stop)
    columns := if componentDims = [] then [-1] else componentDims.map fun d =>
      if (component d).kind = .indexed then (component d).column else -1
    sizes := if componentDims = [] then [1] else componentDims.map fun d => (component d).size
    windows := if componentDims = [] then [1] else componentDims.map fun d => (component d).window
    column := componentDims ≠ [] ∧ componentDims.getLastD 0 + 1 = rank }

/-- `ttir.permute`. -/
def permute (permutation : List Nat) (operand : Tensor α) : Tensor α where
  shape := permutation.map (operand.shape.getD · 0)
  data index := operand.data
    ((List.range permutation.length).map fun d => index.getD (permutation.idxOf d) 0)

/-- `inversePermutation`. -/
def inversePermutation (permutation : List Nat) : List Nat :=
  (List.range permutation.length).map permutation.idxOf

/-- `buildTable`. -/
def buildTable (operand : Tensor α) (c : Canonical) : Tensor α :=
  let operand := if c.permutation = List.range operand.shape.length then operand
    else permute c.permutation operand
  operand.reshape c.tableShape

/-- `untable`. -/
def untable (scattered : Tensor α) (c : Canonical) (operandShape : List Nat) : Tensor α :=
  let result := scattered.reshape (c.permutation.map (operandShape.getD · 0))
  if c.permutation = List.range operandShape.length then result
  else permute (inversePermutation c.permutation) result

/-- `scatterRows`, for indices of a type. -/
def scatterRows (type : IntegerType) (table : Tensor α) (indices : Tensor type.Word)
    (source : Tensor α) (c : Canonical) (combine : α → α → α) (operandShape : List Nat) :
    Tensor α :=
  untable (c.rows.scatter type indices combine table source) c operandShape

end Libtt.IndexedRows

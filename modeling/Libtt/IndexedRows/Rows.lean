import Libtt.Foundation.Updates
import Libtt.StableHlo.Integer
import Libtt.StableHlo.Coordinates

/-!
# Rows moved by index

`ttir.rows_gather` and `ttir.rows_scatter`, as their descriptions specify them, and the operations
that make their indices.
-/
namespace Libtt.IndexedRows

open Libtt.Foundation Libtt.StableHlo

variable {α : Type}

abbrev int32 : IntegerType := ⟨32, true, positive32⟩

/-- The constant attributes of 32 bits drop what does not fit. -/
def i32Attr (value : Int) : BitVec 32 := BitVec.ofInt 32 value

/-- `ttir.full`. -/
def full (shape : List Nat) (value : α) : Tensor α where
  shape := shape
  data _ := value

@[simp] theorem full_shape (shape : List Nat) (value : α) : (full shape value).shape = shape := rfl

/-- `ttir.arange` from zero along a dimension. -/
def arange (shape : List Nat) (dim : Nat) : Tensor (BitVec 32) where
  shape := shape
  data index := BitVec.ofNat 32 (index.getD dim 0)

/-- `ttir.concat` of two operands. -/
def concat (dim : Nat) (first second : Tensor α) : Tensor α where
  shape := first.shape.set dim (first.shape.getD dim 0 + second.shape.getD dim 0)
  data index :=
    if index.getD dim 0 < first.shape.getD dim 0 then first.data index
    else second.data (index.set dim (index.getD dim 0 - first.shape.getD dim 0))

/-- `ttir.typecast` to a signed type of 32 bits. -/
def typecast (type : IntegerType) (operand : Tensor type.Word) : Tensor (BitVec 32) :=
  operand.map fun word => BitVec.ofInt 32 (type.read word)

/-- The attributes that say how components address a table. -/
structure Rows where
  sizes : List Nat
  windows : List Nat
  column : Bool

/-- A component where its window fits. -/
def clampTo (component : Int) (size window : Nat) : Nat :=
  (if component < 0 then 0
    else if (size : Int) - window < component then (size : Int) - window else component).toNat

namespace Rows

variable (rows : Rows)

/-- The components that address rows; with a column the last one does not. -/
def rowComponents : Nat := rows.sizes.length - (if rows.column then 1 else 0)

def rowSizes : List Nat := rows.sizes.take rows.rowComponents

def rowWindows : List Nat := rows.windows.take rows.rowComponents

/-- `W`: the rows of a position. -/
def window : Nat := rows.rowWindows.prod

/-- The elements that a position has of a row's page, with a column. -/
def columnWindow : Nat := if rows.column then rows.windows.getLastD 1 else 1

variable (type : IntegerType) (indices : Tensor type.Word)

/-- The components of a position, of the table's batch or of the one that all batches share. -/
def components (batch m : Nat) : List Int :=
  let batch := if indices.shape.getD 0 0 = 1 then 0 else batch
  (List.range rows.sizes.length).map fun k => type.read (indices.data [batch, k, m])

def clamped (batch m : Nat) : List Nat :=
  List.zipWith (fun component (bound : Nat × Nat) => clampTo component bound.1 bound.2)
    (rows.components type indices batch m) (rows.sizes.zip rows.windows)

/-- No component of the position needs clamping. -/
def InBounds (batch m : Nat) : Prop :=
  (rows.clamped type indices batch m).map Int.ofNat = rows.components type indices batch m

instance (batch m : Nat) : Decidable (rows.InBounds type indices batch m) :=
  inferInstanceAs (Decidable (_ = _))

/-- `row_j` of a position. -/
def row (batch m j : Nat) : Nat :=
  position rows.rowSizes (List.zipWith (· + ·)
    ((rows.clamped type indices batch m).take rows.rowComponents) (coordinates rows.rowWindows j))

/-- The shape of the gathered rows. -/
def gatheredShape (tableShape : List Nat) : List Nat :=
  let positions := indices.shape.getD 2 0
  if rows.column then
    [tableShape.getD 0 0, positions * rows.window * rows.columnWindow]
  else tableShape.getD 0 0 :: positions * rows.window :: tableShape.drop 2

/-- The position that an element of the gathered rows is of. -/
def positionOf (index : List Nat) : Nat := index.getD 1 0 / (rows.window * rows.columnWindow)

/-- The element of the table that an element of the gathered rows stands for. -/
def target (index : List Nat) : List Nat :=
  let batch := index.getD 0 0
  let m := rows.positionOf index
  let row := rows.row type indices batch m (index.getD 1 0 / rows.columnWindow % rows.window)
  if rows.column then
    [batch, row, (rows.clamped type indices batch m).getLastD 0 +
      index.getD 1 0 % rows.columnWindow]
  else batch :: row :: index.drop 2

/-- `ttir.rows_gather`. -/
def gather [Zero α] (fillOutOfBounds : Bool) (table : Tensor α) : Tensor α where
  shape := rows.gatheredShape type indices table.shape
  data index :=
    if fillOutOfBounds = true ∧
      ¬rows.InBounds type indices (index.getD 0 0) (rows.positionOf index) then 0
    else table.data (rows.target type indices index)

@[simp] theorem gather_shape [Zero α] (fill : Bool) (table : Tensor α) :
    (rows.gather type indices fill table).shape = rows.gatheredShape type indices table.shape :=
  rfl

theorem gather_data [Zero α] (table : Tensor α) (index : List Nat) :
    (rows.gather type indices false table).data index =
      table.data (rows.target type indices index) := by
  simp [gather]

/-- The updates of a scatter: positions out of bounds have none. -/
def updates (tableShape : List Nat) (source : Tensor α) : List (List Nat × α) :=
  ((StableHlo.indices (rows.gatheredShape type indices tableShape)).filter fun index =>
    rows.InBounds type indices (index.getD 0 0) (rows.positionOf index)).map fun index =>
      (rows.target type indices index, source.data index)

/-- `ttir.rows_scatter`. -/
def scatter (combine : α → α → α) (table source : Tensor α) : Tensor α where
  shape := table.shape
  data := applyUpdates combine table.data (rows.updates type indices table.shape source)

@[simp] theorem scatter_shape (combine : α → α → α) (table source : Tensor α) :
    (rows.scatter type indices combine table source).shape = table.shape := rfl

theorem scatter_data (combine : α → α → α) (table source : Tensor α) (index : List Nat) :
    (rows.scatter type indices combine table source).data index =
      (valuesAt index (rows.updates type indices table.shape source)).foldl combine
        (table.data index) :=
  applyUpdates_eq _ _ _ _

end Rows

end Libtt.IndexedRows

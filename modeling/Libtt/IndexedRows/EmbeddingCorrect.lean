import Libtt.IndexedRows.Torch

/-!
# Embeddings onto the rows ops keep the meaning

An index names a whole row. The rows of the table are those of the weight, or of its gradient, and
a gradient row is summed up from the rows whose indices name it.
-/
namespace Libtt.IndexedRows

open Libtt.Foundation Libtt.StableHlo

variable {α β : Type} {type : IntegerType} {input : Tensor type.Word} {leading c : List Nat}
  {width : Nat}

/-- The values name rows of a number. -/
def RowIndex (input : Tensor type.Word) (rows : Nat) : Prop :=
  ∀ c, Within c input.shape → 0 ≤ type.read (input.data c) ∧ type.read (input.data c) < rows

/-- The rows fit the indices, which are unsigned where the values are unsigned and have 32 bits. -/
def FitsRows (input : Tensor type.Word) : Prop :=
  ∀ c, Within c input.shape → (type.read (input.data c)).toNat ≤ (asInt32Type type).largest

theorem read_asInt32 (positive : 0 ≤ type.read (input.data c))
    (fits : (type.read (input.data c)).toNat ≤ (asInt32Type type).largest) :
    (asInt32Type type).read ((asInt32 type input).data c) = type.read (input.data c) := by
  have constant := (asInt32Type type).read_constant_nat fits
  rw [IntegerType.constant, BitVec.ofInt_natCast] at constant
  rw [asInt32_data input c positive]
  exact constant.trans (Int.toNat_of_nonneg positive)

/-- A table of rows that are addressed as wholes. -/
def lookup (rows : Nat) : Rows := ⟨[rows], [1], false⟩

section Lookup

variable {indexType : IntegerType} {indices : Tensor indexType.Word} {positions rows m : Nat}
  (isShape : indices.shape = [1, 1, positions])

include isShape

theorem lookup_components : (lookup rows).components indexType indices 0 m =
    [indexType.read (indices.data [0, 0, m])] := by
  unfold Rows.components
  rw [isShape]
  rfl

theorem lookup_gatheredShape (width : Nat) :
    (lookup rows).gatheredShape indexType indices [1, rows, width] = [1, positions, width] := by
  unfold Rows.gatheredShape
  rw [isShape]
  simp [lookup, Rows.window, Rows.rowWindows, Rows.rowComponents]

variable {row : Nat} (isRow : indexType.read (indices.data [0, 0, m]) = row) (less : row < rows)

include isRow less

theorem lookup_clamped : (lookup rows).clamped indexType indices 0 m = [row] := by
  unfold Rows.clamped
  rw [lookup_components isShape, isRow]
  show [clampTo row rows 1] = _
  rw [clampTo_eq less]

theorem lookup_target (w : Nat) :
    (lookup rows).target indexType indices [0, m, w] = [0, row, w] := by
  have clamped := lookup_clamped isShape isRow less
  have place : (lookup rows).positionOf [0, m, w] = m := Nat.div_one m
  unfold Rows.target Rows.row
  simp only [List.getD_cons_zero, place, clamped]
  simp [lookup, Rows.rowSizes, Rows.rowWindows, Rows.rowComponents, Rows.columnWindow,
    Rows.window, position, coordinates, Nat.mod_one]

theorem lookup_inBounds : (lookup rows).InBounds indexType indices 0 m := by
  unfold Rows.InBounds
  rw [lookup_clamped isShape isRow less, lookup_components isShape, isRow]
  rfl

end Lookup

/-- The index of a position is the input's value there. -/
theorem embeddingIndices_read (rowIndex : RowIndex input leading.prod)
    (fits : FitsRows input) (inside : Within c input.shape) :
    (asInt32Type type).read
      ((embeddingIndices type input).data [0, 0, position input.shape c]) =
        ((type.read (input.data c)).toNat : Int) := by
  have index := rowIndex c inside
  rw [embeddingIndices, page_data (asInt32_shape input) inside, read_asInt32 index.1 (fits c inside),
    Int.toNat_of_nonneg index.1]

/-- An embedding looks the rows up, as far as they fit the indices. -/
theorem embeddingToRows_same [Zero α] {weight : Tensor α} (isShape : weight.shape = leading ++ [width])
    (rowIndex : RowIndex input leading.prod) (fits : FitsRows input) :
    Tensor.Same (embeddingToRows type input weight (input.shape ++ [width]))
      (embedding type input weight leading width) := by
  refine ⟨rfl, fun i inside => ?_⟩
  change Within i (input.shape ++ [width]) at inside
  obtain ⟨c, w, after, isSplit, isIndex, less, isNil⟩ := within_split.mp inside
  cases isNil
  have index := rowIndex c isIndex
  have isRow := embeddingIndices_read rowIndex fits isIndex
  have rowLess : (type.read (input.data c)).toNat < leading.prod := by omega
  have place := table_data isShape (coordinates_within rowLess) less
  rw [position_coordinates rowLess] at place
  unfold embeddingToRows
  rw [isShape, tableDims_eq leading (Nat.zero_lt_of_lt less)]
  have shape : (embeddingIndices type input).shape = [1, 1, input.shape.prod] := rfl
  have page : Within [0, position input.shape c, w] [1, input.shape.prod, width] :=
    .cons Nat.one_pos (.cons (position_lt isIndex) (.cons less .nil))
  have gathered : (lookup leading.prod).gatheredShape (asInt32Type type)
      (embeddingIndices type input) [1, leading.prod, width] = [1, input.shape.prod, width] :=
    lookup_gatheredShape shape width
  have target : (lookup leading.prod).target (asInt32Type type) (embeddingIndices type input)
      [0, position input.shape c, w] = [0, (type.read (input.data c)).toNat, w] :=
    lookup_target shape isRow rowLess w
  rw [lookup] at gathered target
  rw [Tensor.reshape_data inside (by rw [Rows.gather_shape, asRows_shape, gathered]; simp), isSplit,
    table_position c isIndex, Tensor.element, Rows.gather_shape, asRows_shape, gathered,
    coordinates_position page, Rows.gather_data, target, place]
  simp [embedding]

/-- The indices of rows of elements. -/
theorem indices_rows (count width : Nat) : indices [1, count, width] =
    (List.range count).flatMap fun p => (List.range width).map fun w => [0, p, w] := by
  have singles : indices [width] = (List.range width).map ([·]) := by
    simp [indices, List.map_eq_flatMap]
  rw [indices, List.range_one, List.flatMap_singleton, indices, singles, List.map_flatMap]
  simp only [List.map_map]
  rfl

/-- The values for one element of a row: of the one position that is there. -/
theorem valuesAt_row {width row w : Nat} (less : w < width) (other : Nat) (value : Nat → α) :
    valuesAt [0, row, w] ((List.range width).map fun v => ([0, other, v], value v)) =
      if other = row then [value w] else [] := by
  split
  · rename_i same
    subst same
    refine valuesAt_of_nodup ?_ (List.mem_map.mpr ⟨w, List.mem_range.mpr less, rfl⟩)
    rw [List.map_map]
    exact List.nodup_range.map fun v v' same => by simpa using same
  · rename_i different
    refine valuesAt_of_not_mem fun member => different ?_
    rw [List.map_map] at member
    obtain ⟨v, -, same⟩ := List.mem_map.mp member
    simp only [Function.comp_apply, List.cons.injEq, true_and] at same
    exact same.1

/-- The values for an element of one row: of each position that names the row. -/
theorem valuesAt_rows {count width row w : Nat} (less : w < width) (named : Nat → Nat)
    (value : Nat → Nat → α) :
    valuesAt [0, row, w] ((indices [1, count, width]).map fun index =>
      ([0, named (index.getD 1 0), index.getD 2 0], value (index.getD 1 0) (index.getD 2 0))) =
    ((List.range count).filter (named · = row)).map (value · w) := by
  rw [indices_rows, List.map_flatMap]
  induction count with
  | zero => rfl
  | succ count ih =>
    rw [List.range_succ, List.flatMap_append, valuesAt_append, ih, List.flatMap_singleton,
      List.map_map, List.filter_append, List.map_append]
    refine congrArg (_ ++ ·) ?_
    refine (valuesAt_row less (named count) (value count)).trans ?_
    by_cases same : named count = row <;> simp [same]

/-- The row that a position names. -/
def namedRow (input : Tensor type.Word) (p : Nat) : Nat :=
  (type.read (input.data (coordinates input.shape p))).toNat

/-- The updates of a gradient: each of its rows goes to the row that the position names. -/
theorem embedding_updates (convert : β → α) {inGradient : Tensor β}
    (volume : inGradient.shape.prod = input.shape.prod * width)
    (rowIndex : RowIndex input leading.prod) (fits : FitsRows input) :
    (lookup leading.prod).updates (asInt32Type type) (embeddingIndices type input)
      [1, leading.prod, width] (asRows (inGradient.map convert) input.shape.prod width) =
    (indices [1, input.shape.prod, width]).map fun index =>
      ([0, namedRow input (index.getD 1 0), index.getD 2 0],
        convert (inGradient.element (index.getD 1 0 * width + index.getD 2 0))) := by
  have shape : (embeddingIndices type input).shape = [1, 1, input.shape.prod] := rfl
  have isRow {p : Nat} (less : p < input.shape.prod) : (asInt32Type type).read
      ((embeddingIndices type input).data [0, 0, p]) = (namedRow input p : Int) := by
    have read := embeddingIndices_read rowIndex fits (coordinates_within less)
    rwa [position_coordinates less] at read
  have rowLess {p : Nat} (less : p < input.shape.prod) : namedRow input p < leading.prod := by
    have index := rowIndex _ (coordinates_within less)
    unfold namedRow
    omega
  have place (p w : Nat) : (lookup leading.prod).positionOf [0, p, w] = p := Nat.div_one p
  unfold Rows.updates
  rw [lookup_gatheredShape shape, List.filter_eq_self.mpr]
  · refine List.map_congr_left fun index member => ?_
    have page := mem_indices.mp member
    rw [indices_rows] at member
    obtain ⟨p, isPosition, inRow⟩ := List.mem_flatMap.mp member
    obtain ⟨w, isColumn, rfl⟩ := List.mem_map.mp inRow
    have less := List.mem_range.mp isPosition
    rw [lookup_target shape (isRow less) (rowLess less), asRows,
      Tensor.reshape_data page (by rw [Tensor.map, volume]; simp)]
    simp [position, Tensor.element, Tensor.map]
  · intro index member
    rw [indices_rows] at member
    obtain ⟨p, isPosition, inRow⟩ := List.mem_flatMap.mp member
    obtain ⟨w, -, rfl⟩ := List.mem_map.mp inRow
    have less := List.mem_range.mp isPosition
    simp only [List.getD_cons_zero, place, decide_eq_true_eq]
    exact lookup_inBounds shape (isRow less) (rowLess less)

/-- The gradient of an embedding sums up the rows for each index, as far as they fit the indices. -/
theorem embeddingBackwardToRows_same [Zero α] (add : α → α → α) (convert : β → α)
    {inGradient : Tensor β} (volume : inGradient.shape.prod = input.shape.prod * width)
    (rowIndex : RowIndex input leading.prod) (fits : FitsRows input) :
    Tensor.Same
      (embeddingBackwardToRows type add convert input inGradient (leading ++ [width]))
      (embeddingBackward type add convert input inGradient leading width) := by
  refine ⟨rfl, fun r inside => ?_⟩
  replace inside : Within r (leading ++ [width]) := inside
  obtain ⟨x, w, after, rfl, isRow, less, isNil⟩ := within_split.mp inside
  cases isNil
  have page : Within [0, position leading x, w] [1, leading.prod, width] :=
    .cons Nat.one_pos (.cons (position_lt isRow) (.cons less .nil))
  have updates := embedding_updates convert volume rowIndex fits
  rw [lookup] at updates
  unfold embeddingBackwardToRows
  rw [tableDims_eq leading (Nat.zero_lt_of_lt less)]
  rw [Tensor.reshape_data inside (by simp), table_position x isRow, Tensor.element,
    Rows.scatter_shape, full_shape, coordinates_position page, Rows.scatter_data, full_shape, updates,
    valuesAt_rows less (namedRow input) fun p v => convert (inGradient.element (p * width + v))]
  unfold embeddingBackward
  dsimp only
  rw [indices_eq, List.filter_map, List.map_map]
  simp only [List.dropLast_concat, List.getLastD_concat]
  refine congrArg (List.foldl add 0) (List.map_congr_left fun p member => ?_)
  have less := List.mem_range.mp (List.mem_of_mem_filter member)
  simp only [Function.comp_apply, position_coordinates less]

/-- The row and the column that the indices of an element read. -/
theorem rowColumnIndices_read {index : Tensor type.Word} {dim : Nat}
    (element : ElementIndex index (leading ++ [width]) dim) (fits : FitsIndices index leading dim)
    (inside : Within c index.shape) :
    int32.read ((rowColumnIndices type index (leading ++ [width]) dim).data
        [0, 0, position index.shape c]) = position leading (moved type index dim c).dropLast ∧
      int32.read ((rowColumnIndices type index (leading ++ [width]) dim).data
        [0, 1, position index.shape c]) = (moved type index dim c).getLastD 0 := by
  obtain ⟨x, last, isMoved, isRow, less⟩ := moved_split element inside
  obtain ⟨rowFits, columnFits⟩ := fits.split inside isMoved
  rw [rowColumnIndices_row element inside isMoved isRow less,
    rowColumnIndices_column element inside isMoved isRow, isMoved, List.dropLast_concat,
    List.getLastD_concat]
  exact ⟨readIndex_eq rowFits, readIndex_eq columnFits⟩

/-- Rows of two, of which an index swaps one. -/
def swapping : Tensor int32.Word where
  shape := [1, 2]
  data c := BitVec.ofNat 32 (1 - c.getD 1 0)

def pairs : Tensor Nat where
  shape := [2, 2]
  data c := c.getD 0 0 * 2 + c.getD 1 0

/-- The rows of a table of `2 ^ 32`, of one element each. -/
def tall : Tensor Nat where
  shape := [65536, 65536, 1]
  data c := c.getD 0 0

def lastPage : Tensor int32.Word where
  shape := [1, 1, 1]
  data _ := 65535

end Libtt.IndexedRows

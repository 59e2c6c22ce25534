import Libtt.IndexedRows.Rows

/-!
# Gathers, scatters and embeddings onto the rows ops

The patterns of `IndexedRowsDecomposition.cpp`, each as the value of what it emits.
-/
namespace Libtt.IndexedRows

open Libtt.Foundation Libtt.StableHlo

variable {α β : Type} (type : IntegerType)

/-- `asInt32`, whose result keeps a signedness of 32 bits. -/
def asInt32 (value : Tensor type.Word) : Tensor (BitVec 32) :=
  if type.width = 32 then value.map (BitVec.setWidth 32) else typecast type value

/-- The type of what `asInt32` gives. -/
abbrev asInt32Type : IntegerType :=
  ⟨32, if type.width = 32 then type.signed else true, positive32⟩

/-- `mlir::computeStrides`. -/
def computeStrides : List Nat → List Nat
  | [] => []
  | _ :: shape => shape.prod :: computeStrides shape

/-- The values of `coordinate` along a dimension. -/
def coordinate (index : Tensor type.Word) (dim d : Nat) : Tensor (BitVec 32) :=
  if d = dim then asInt32 type index else arange index.shape d

/-- A turn of the loop over the dimensions of a row. -/
def addTerm (index : Tensor type.Word) (strides : List Nat) (width dim : Nat)
    (row : Option (Tensor (BitVec 32))) (d : Nat) : Option (Tensor (BitVec 32)) :=
  if d ≠ dim ∧ index.shape.getD d 0 = 1 then row
  else
    let term := coordinate type index dim d
    let rowStride := strides.getD d 0 / width
    let term := if rowStride ≠ 1 then
      term.zipWith (· * ·) (full index.shape (i32Attr rowStride)) else term
    match row with
    | none => some term
    | some row => some (row.zipWith (· + ·) term)

/-- `rowColumnIndices`. -/
def rowColumnIndices (index : Tensor type.Word) (operandShape : List Nat) (dim : Nat) :
    Tensor (BitVec 32) :=
  let last := operandShape.length - 1
  let width := operandShape.getD last 0
  let strides := computeStrides operandShape
  let row := ((List.range last).foldl (addTerm type index strides width dim) none).getD
    (full index.shape (i32Attr 0))
  let column := coordinate type index dim last
  let positions := index.shape.prod
  concat 1 (row.reshape [1, 1, positions]) (column.reshape [1, 1, positions])

/-- `asRows`. -/
def asRows (value : Tensor α) (rows width : Nat) : Tensor α := value.reshape [1, rows, width]

/-- `tableDims`. -/
def tableDims (shape : List Nat) : Nat × Nat :=
  let width := if shape = [] then 1 else shape.getLastD 1
  (shape.prod / width, width)

/-- A dimension, which may count from the last one. -/
def dimension (dim : Int) (rank : Nat) : Nat := (if dim < 0 then dim + rank else dim).toNat

/-- `GatherToRowsPattern`. -/
def gatherToRows [Zero α] (input : Tensor α) (index : Tensor type.Word) (dim : Int) : Tensor α :=
  let dim := dimension dim input.shape.length
  let dims := tableDims input.shape
  let table := asRows input dims.1 dims.2
  let indices := rowColumnIndices type index input.shape dim
  let gathered := Rows.gather ⟨[dims.1, dims.2], [1, 1], true⟩ int32 indices false table
  gathered.reshape index.shape

/-- `ScatterToRowsPattern`. -/
def scatterToRows (combine : α → α → α) (input : Tensor α) (index : Tensor type.Word)
    (source : Tensor α) (dim : Int) : Tensor α :=
  let dim := dimension dim input.shape.length
  let dims := tableDims input.shape
  let table := asRows input dims.1 dims.2
  let indices := rowColumnIndices type index input.shape dim
  let source := source.reshape [1, index.shape.prod]
  let scattered := Rows.scatter ⟨[dims.1, dims.2], [1, 1], true⟩ int32 indices combine table source
  scattered.reshape input.shape

/-- The indices of an embedding, one component for each position. -/
def embeddingIndices (input : Tensor type.Word) : Tensor (BitVec 32) :=
  (asInt32 type input).reshape [1, 1, input.shape.prod]

/-- `EmbeddingToRowsPattern`. -/
def embeddingToRows [Zero α] (input : Tensor type.Word) (weight : Tensor α)
    (resultShape : List Nat) : Tensor α :=
  let dims := tableDims weight.shape
  let table := asRows weight dims.1 dims.2
  let gathered := Rows.gather ⟨[dims.1], [1], false⟩ (asInt32Type type)
    (embeddingIndices type input) false table
  gathered.reshape resultShape

/-- `EmbeddingBackwardToRowsPattern`. The gradient is converted to the result's element type, which
leaves it as it is where the types are the same. -/
def embeddingBackwardToRows [Zero α] (add : α → α → α) (convert : β → α)
    (input : Tensor type.Word) (inGradient : Tensor β) (resultShape : List Nat) : Tensor α :=
  let dims := tableDims resultShape
  let table := full [1, dims.1, dims.2] 0
  let source := asRows (inGradient.map convert) input.shape.prod dims.2
  let gradient := Rows.scatter ⟨[dims.1], [1], false⟩ (asInt32Type type)
    (embeddingIndices type input) add table source
  gradient.reshape resultShape

/-- The coordinates of an element, with its index along the dimension. -/
def moved (index : Tensor type.Word) (dim : Nat) (c : List Nat) : List Nat :=
  c.set dim (type.read (index.data c)).toNat

/-- `ttir.gather`: `result[c] = input[c with c[dim] = index[c]]`. -/
def torchGather (input : Tensor α) (index : Tensor type.Word) (dim : Int) : Tensor α where
  shape := index.shape
  data c := input.data (moved type index (dimension dim input.shape.length) c)

/-- `ttir.scatter`: `input[c with c[dim] = index[c]] = source[c]`, or reduced, in the order of the
elements. -/
def torchScatter (combine : α → α → α) (input : Tensor α) (index : Tensor type.Word)
    (source : Tensor α) (dim : Int) : Tensor α where
  shape := input.shape
  data := applyUpdates combine input.data ((indices index.shape).map fun c =>
    (moved type index (dimension dim input.shape.length) c, source.data c))

/-- `ttir.embedding`: `result[i, :] = weight[input[i], :]`, for rows numbered over the leading
dimensions of the weight. -/
def embedding (input : Tensor type.Word) (weight : Tensor α) (leading : List Nat) (width : Nat) :
    Tensor α where
  shape := input.shape ++ [width]
  data i := weight.data
    (coordinates leading (type.read (input.data i.dropLast)).toNat ++ [i.getLastD 0])

/-- `ttir.embedding_backward`: the rows of the gradient, in their order, summed up at the rows that
the input names. -/
def embeddingBackward [Zero α] (add : α → α → α) (convert : β → α) (input : Tensor type.Word)
    (inGradient : Tensor β) (leading : List Nat) (width : Nat) : Tensor α where
  shape := leading ++ [width]
  data r := (((indices input.shape).filter fun c =>
      (type.read (input.data c)).toNat = position leading r.dropLast).map fun c =>
        convert (inGradient.element (position input.shape c * width + r.getLastD 0))).foldl add 0

end Libtt.IndexedRows

/-! ## The patterns onto the rows ops keep the meaning -/
namespace Libtt.IndexedRows

open Libtt.Foundation Libtt.StableHlo

variable {α β : Type} {type : IntegerType} {index : Tensor type.Word} {dim : Nat}
  {operandShape leading : List Nat} {width : Nat} {c : List Nat}

theorem computeStrides_getD (leading : List Nat) (width : Nat) {d : Nat} (less : d < leading.length) :
    (computeStrides (leading ++ [width])).getD d 0 = (leading.drop (d + 1)).prod * width := by
  induction leading generalizing d with
  | nil => cases less
  | cons size leading ih =>
    cases d with
    | zero => simp [computeStrides]
    | succ d =>
      exact ih (Nat.lt_of_succ_lt_succ less)

/-- The index is no larger than the operand in the other dimensions, and its values are within the
operand's extent along the dimension. -/
structure ElementIndex (index : Tensor type.Word) (operandShape : List Nat) (dim : Nat) : Prop where
  dim_lt : dim < operandShape.length
  length : index.shape.length = operandShape.length
  others : ∀ d < operandShape.length, d ≠ dim → index.shape.getD d 0 ≤ operandShape.getD d 0
  extent : ∀ c, Within c index.shape → 0 ≤ type.read (index.data c) ∧
    type.read (index.data c) < operandShape.getD dim 0

namespace ElementIndex

variable (element : ElementIndex index operandShape dim)

include element

theorem moved_getD (inside : Within c index.shape) (d : Nat) : (moved type index dim c).getD d 0 =
    if d = dim then (type.read (index.data c)).toNat else c.getD d 0 :=
  getD_set (by rw [inside.length, element.length]; exact element.dim_lt) d

theorem moved_within (inside : Within c index.shape) :
    Within (moved type index dim c) operandShape := by
  have each := within_iff_getD.mp inside
  rw [within_iff_getD]
  refine ⟨by rw [moved, List.length_set, inside.length, element.length], fun d less => ?_⟩
  rw [element.moved_getD inside]
  split
  · rename_i same
    have extent := element.extent c inside
    rw [same]
    omega
  · rename_i other
    exact (each.2 d (by rw [element.length]; exact less)).trans_le (element.others d less other)

end ElementIndex

theorem asInt32_shape (index : Tensor type.Word) : (asInt32 type index).shape = index.shape := by
  unfold asInt32
  split <;> rfl

theorem asInt32_data (index : Tensor type.Word) (c : List Nat)
    (positive : 0 ≤ type.read (index.data c)) :
    (asInt32 type index).data c = BitVec.ofNat 32 (type.read (index.data c)).toNat := by
  unfold asInt32
  split
  · have toNat : (type.read (index.data c)).toNat = (index.data c).toNat := by
      unfold IntegerType.read at *
      split at positive
      · rename_i signed
        rw [if_pos signed]
        rw [BitVec.toInt_eq_toNat_cond] at positive ⊢
        split at positive <;> rename_i half
        · rw [if_pos half, Int.toNat_natCast]
        · omega
      · rename_i unsigned
        rw [if_neg unsigned, Int.toNat_natCast]
    rw [toNat]
    exact BitVec.eq_of_toNat_eq (by simp [Tensor.map])
  · show BitVec.ofInt 32 _ = _
    conv_lhs => rw [← Int.toNat_of_nonneg positive]
    exact BitVec.ofInt_natCast _ _

/-- The coordinate along a dimension is the moved one. -/
theorem coordinate_data (element : ElementIndex index operandShape dim)
    (inside : Within c index.shape) (d : Nat) : (coordinate type index dim d).data c =
      BitVec.ofNat 32 ((moved type index dim c).getD d 0) := by
  rw [element.moved_getD inside, coordinate]
  split
  · exact asInt32_data index c (element.extent c inside).1
  · rfl

/-- What the loop has summed up after some dimensions. -/
def partialRow (operandShape : List Nat) (width : Nat) (x : List Nat) (count : Nat) : Nat :=
  ∑ d ∈ Finset.range count, x.getD d 0 * ((computeStrides operandShape).getD d 0 / width)

theorem addTerm_data (element : ElementIndex index operandShape dim)
    (inside : Within c index.shape) (width count : Nat) (fits : count ≤ operandShape.length) :
    ((List.range count).foldl (addTerm type index (computeStrides operandShape) width dim)
      none).elim 0#32 (·.data c) =
        BitVec.ofNat 32 (partialRow operandShape width (moved type index dim c) count) := by
  have each := within_iff_getD.mp inside
  induction count with
  | zero => rfl
  | succ count ih =>
    have ih := ih (by omega)
    rw [List.range_succ, List.foldl_append, List.foldl_cons, List.foldl_nil, partialRow,
      Finset.sum_range_succ]
    generalize (List.range count).foldl
      (addTerm type index (computeStrides operandShape) width dim) none = row at ih
    rw [addTerm]
    by_cases unit : count ≠ dim ∧ index.shape.getD count 0 = 1
    · -- A coordinate along a dimension of size one is zero.
      have zero : (moved type index dim c).getD count 0 = 0 := by
        have less := each.2 count (by rw [element.length]; omega)
        rw [element.moved_getD inside, if_neg unit.1]
        omega
      rw [if_pos unit, zero, Nat.zero_mul, Nat.add_zero]
      exact ih
    · rw [if_neg unit]
      have term : ((if (computeStrides operandShape).getD count 0 / width ≠ 1 then
          (coordinate type index dim count).zipWith (· * ·) (full index.shape
            (i32Attr ((computeStrides operandShape).getD count 0 / width : Nat)))
          else coordinate type index dim count).data c) =
            BitVec.ofNat 32 ((moved type index dim c).getD count 0 *
              ((computeStrides operandShape).getD count 0 / width)) := by
        split
        · show (coordinate type index dim count).data c * i32Attr _ = _
          rw [coordinate_data element inside, i32Attr, BitVec.ofInt_natCast, BitVec.ofNat_mul]
        · rename_i one
          rw [coordinate_data element inside, not_not.mp one, Nat.mul_one]
      rw [BitVec.ofNat_add, ← term]
      cases row with
      | none =>
        have none : BitVec.ofNat 32 (partialRow operandShape width (moved type index dim c) count) =
            0#32 := ih.symm
        rw [partialRow] at none
        rw [none, BitVec.zero_add]
        rfl
      | some row =>
        rw [partialRow] at ih
        rw [← ih]
        rfl

/-- The whole sum is the row of the moved coordinates. -/
theorem partialRow_eq {last : Nat} {x : List Nat} (isRow : Within x leading) (less : last < width) :
    partialRow (leading ++ [width]) width (x ++ [last]) leading.length = position leading x := by
  rw [partialRow, position_eq_sum isRow]
  refine Finset.sum_congr rfl fun d member => ?_
  have bound := Finset.mem_range.mp member
  rw [computeStrides_getD leading width bound, Nat.mul_div_cancel _ (Nat.zero_lt_of_lt less),
    List.getD_append _ _ _ _ (by rw [isRow.length]; exact bound)]

theorem coordinate_shape (d : Nat) : (coordinate type index dim d).shape = index.shape := by
  unfold coordinate
  split
  · exact asInt32_shape index
  · rfl

/-- The shape of what the loop has summed up. -/
theorem addTerm_shape (strides : List Nat) (width count : Nat) :
    ∀ row ∈ (List.range count).foldl (addTerm type index strides width dim) none,
      row.shape = index.shape := by
  induction count with
  | zero => exact fun row isRow => nomatch isRow
  | succ count ih =>
    rw [List.range_succ, List.foldl_append, List.foldl_cons, List.foldl_nil, addTerm]
    split
    · exact ih
    · intro row isRow
      split at isRow
      · obtain rfl := Option.some.inj isRow
        split <;> exact coordinate_shape count
      · rename_i other isOther
        obtain rfl := Option.some.inj isRow
        exact ih other isOther

/-- The moved coordinates of an element, as those of its row and its column. -/
theorem moved_split (element : ElementIndex index (leading ++ [width]) dim)
    (inside : Within c index.shape) : ∃ x last, moved type index dim c = x ++ [last] ∧
      Within x leading ∧ last < width := by
  obtain ⟨x, last, after, isMoved, isRow, less, isNil⟩ :=
    within_split.mp (element.moved_within inside)
  cases isNil
  exact ⟨x, last, isMoved, isRow, less⟩

/-- A position, in a tensor that is reshaped to one page. -/
theorem page_data {value : Tensor α} {shape : List Nat} (isShape : value.shape = shape)
    (inside : Within c shape) :
    (value.reshape [1, 1, shape.prod]).data [0, 0, position shape c] = value.data c := by
  subst isShape
  have less := position_lt inside
  have page : Within [0, 0, position value.shape c] [1, 1, value.shape.prod] :=
    .cons Nat.one_pos (.cons Nat.one_pos (.cons less .nil))
  rw [Tensor.reshape_data page (by simp), Tensor.data_eq _ inside]
  simp [position]

/-- The pages of a row and of a column, one behind the other. -/
theorem concat_pages {first : Tensor α} (second : Tensor α) {count : Nat}
    (isShape : first.shape = [1, 1, count]) (p : Nat) :
    (concat 1 first second).data [0, 0, p] = first.data [0, 0, p] ∧
      (concat 1 first second).data [0, 1, p] = second.data [0, 0, p] := by
  simp [concat, isShape]

section RowColumn

variable (element : ElementIndex index (leading ++ [width]) dim) (inside : Within c index.shape)
  {x : List Nat} {last : Nat} (isMoved : moved type index dim c = x ++ [last])
  (isRow : Within x leading) (less : last < width)

include element inside isMoved isRow less

theorem rowColumnIndices_row :
    (rowColumnIndices type index (leading ++ [width]) dim).data
      [0, 0, position index.shape c] = BitVec.ofNat 32 (position leading x) := by
  have count : (leading ++ [width]).length - 1 = leading.length := by simp
  have isWidth : (leading ++ [width]).getD leading.length 0 = width := by simp
  have sum := addTerm_data element inside width leading.length (by simp)
  rw [isMoved, partialRow_eq isRow less] at sum
  have shape : ∀ row ∈ (List.range leading.length).foldl
      (addTerm type index (computeStrides (leading ++ [width])) width dim) none,
        row.shape = index.shape := addTerm_shape _ width leading.length
  rw [rowColumnIndices, count, isWidth]
  generalize (List.range leading.length).foldl
    (addTerm type index (computeStrides (leading ++ [width])) width dim) none = row at sum shape
  have isShape : (row.getD (full index.shape (i32Attr 0))).shape = index.shape := by
    cases row with
    | none => rfl
    | some row => exact shape row rfl
  rw [(concat_pages _ rfl _).1, page_data isShape inside, ← sum]
  cases row <;> rfl

omit less in
theorem rowColumnIndices_column :
    (rowColumnIndices type index (leading ++ [width]) dim).data
      [0, 1, position index.shape c] = BitVec.ofNat 32 last := by
  have count : (leading ++ [width]).length - 1 = leading.length := by simp
  have value := coordinate_data element inside leading.length
  rw [isMoved, ← isRow.length, List.getD_append_right _ _ _ _ le_rfl, Nat.sub_self,
    isRow.length] at value
  rw [rowColumnIndices, count]
  have isShape : (coordinate type index dim leading.length).shape = index.shape :=
    coordinate_shape leading.length
  rw [(concat_pages _ rfl _).2, page_data isShape inside]
  exact value

end RowColumn

/-- What a signed index of 32 bits reads. -/
def readIndex (number : Nat) : Int := int32.read (BitVec.ofNat 32 number)

theorem readIndex_eq {number : Nat} (fits : number < 2 ^ 31) : readIndex number = number := by
  have largest : int32.largest = 2 ^ 31 - 1 := if_pos rfl
  have constant := int32.read_constant_nat (show number ≤ int32.largest by omega)
  rwa [IntegerType.constant, BitVec.ofInt_natCast] at constant

theorem clampTo_eq {number size : Nat} (less : number < size) : clampTo number size 1 = number := by
  unfold clampTo
  omega

/-- A table of rows that single elements are addressed in. -/
def elements (rows width : Nat) : Rows := ⟨[rows, width], [1, 1], true⟩

section Elements

variable {rows width positions : Nat} {indices : Tensor (BitVec 32)}
  (isShape : indices.shape = [1, 2, positions]) {m row column : Nat}
  (isRow : indices.data [0, 0, m] = BitVec.ofNat 32 row)
  (isColumn : indices.data [0, 1, m] = BitVec.ofNat 32 column)

include isShape isRow isColumn

theorem elements_components :
    (elements rows width).components int32 indices 0 m = [readIndex row, readIndex column] := by
  unfold Rows.components
  rw [isShape]
  show [int32.read (indices.data [0, 0, m]), int32.read (indices.data [0, 1, m])] = _
  rw [isRow, isColumn]
  rfl

theorem elements_target : (elements rows width).target int32 indices [0, m] =
    [0, clampTo (readIndex row) rows 1, clampTo (readIndex column) width 1] := by
  have components : (elements rows width).components int32 indices 0 m =
      [readIndex row, readIndex column] := elements_components isShape isRow isColumn
  have clamped : (elements rows width).clamped int32 indices 0 m =
      [clampTo (readIndex row) rows 1, clampTo (readIndex column) width 1] := by
    unfold Rows.clamped
    rw [components]
    rfl
  have place : (elements rows width).positionOf [0, m] = m := Nat.div_one m
  unfold Rows.target Rows.row
  simp only [List.getD_cons_zero, place, clamped]
  simp [elements, Rows.rowSizes, Rows.rowWindows, Rows.rowComponents, Rows.columnWindow,
    Rows.window, position, coordinates, Nat.mod_one]

theorem elements_inBounds (rowLess : row < rows) (columnLess : column < width)
    (rowFits : row < 2 ^ 31) (columnFits : column < 2 ^ 31) :
    (elements rows width).InBounds int32 indices 0 m := by
  unfold Rows.InBounds Rows.clamped
  rw [elements_components isShape isRow isColumn, readIndex_eq rowFits, readIndex_eq columnFits]
  simp [elements, clampTo_eq rowLess, clampTo_eq columnLess]

end Elements

theorem elements_gatheredShape {rows width positions : Nat} {indices : Tensor (BitVec 32)}
    (isShape : indices.shape = [1, 2, positions]) (table : List Nat) :
    (elements rows width).gatheredShape int32 indices (1 :: table) = [1, positions] := by
  unfold Rows.gatheredShape
  rw [isShape]
  simp [elements, Rows.window, Rows.rowWindows, Rows.rowComponents, Rows.columnWindow]

theorem tableDims_eq (leading : List Nat) {width : Nat} (positive : 0 < width) :
    tableDims (leading ++ [width]) = (leading.prod, width) := by
  simp [tableDims, Nat.mul_div_cancel _ positive]

/-- The place in the table of an element of the operand. -/
theorem table_position (x : List Nat) {leading : List Nat} (isRow : Within x leading)
    (last width : Nat) : position (leading ++ [width]) (x ++ [last]) =
      position [1, leading.prod, width] [0, position leading x, last] := by
  rw [position_append isRow]
  simp [position]

@[simp] theorem asRows_shape (value : Tensor α) (rows width : Nat) :
    (asRows value rows width).shape = [1, rows, width] := rfl

theorem table_data {input : Tensor α} (isShape : input.shape = leading ++ [width]) {x : List Nat}
    {last : Nat} (isRow : Within x leading) (less : last < width) :
    (asRows input leading.prod width).data [0, position leading x, last] =
      input.data (x ++ [last]) := by
  have inside : Within (x ++ [last]) input.shape :=
    isShape ▸ List.rel_append isRow (.cons less .nil)
  have page : Within [0, position leading x, last] [1, leading.prod, width] :=
    .cons Nat.one_pos (.cons (position_lt isRow) (.cons less .nil))
  rw [asRows, Tensor.reshape_data page (by rw [isShape]; simp), ← table_position x isRow,
    ← isShape, ← Tensor.data_eq _ inside]

/-- The elements of one line. -/
theorem line_element {value : Tensor α} {count p : Nat} (isShape : value.shape = [1, count])
    (less : p < count) : value.element p = value.data [0, p] := by
  have inside : Within [0, p] [1, count] := .cons Nat.one_pos (.cons less .nil)
  have number : position [1, count] [0, p] = p := by simp [position]
  have back := coordinates_position inside
  rw [number] at back
  rw [Tensor.element, isShape, back]

/-- What the pattern for gathers gives, whatever the indices read. -/
theorem gatherToRows_data [Zero α] {input : Tensor α} {dim : Int}
    (isShape : input.shape = leading ++ [width])
    (element : ElementIndex index (leading ++ [width]) (dimension dim (leading ++ [width]).length))
    (inside : Within c index.shape) {x : List Nat} {last : Nat}
    (isMoved : moved type index (dimension dim (leading ++ [width]).length) c = x ++ [last])
    (isRow : Within x leading) (less : last < width) :
    (gatherToRows type input index dim).data c = (asRows input leading.prod width).data
      [0, clampTo (readIndex (position leading x)) leading.prod 1,
        clampTo (readIndex last) width 1] := by
  have row := rowColumnIndices_row element inside isMoved isRow less
  have column := rowColumnIndices_column element inside isMoved isRow
  unfold gatherToRows
  rw [isShape, tableDims_eq leading (Nat.zero_lt_of_lt less)]
  generalize dimension dim (leading ++ [width]).length = d at *
  have shape : (rowColumnIndices type index (leading ++ [width]) d).shape =
    [1, 2, index.shape.prod] := rfl
  have gathered : (Rows.gather ⟨[leading.prod, width], [1, 1], true⟩ int32
      (rowColumnIndices type index (leading ++ [width]) d) false
      (asRows input leading.prod width)).shape = [1, index.shape.prod] :=
    elements_gatheredShape shape [leading.prod, width]
  rw [Tensor.reshape_data inside (by rw [gathered]; simp), line_element gathered (position_lt inside)]
  rw [Rows.gather_data]
  exact congrArg _ (elements_target shape row column)

/-- The rows and the columns that are addressed fit signed indices of 32 bits. -/
def FitsIndices (index : Tensor type.Word) (leading : List Nat) (dim : Nat) : Prop :=
  ∀ c, Within c index.shape → position leading (moved type index dim c).dropLast < 2 ^ 31 ∧
    (moved type index dim c).getLastD 0 < 2 ^ 31

theorem FitsIndices.split (fits : FitsIndices index leading dim) (inside : Within c index.shape)
    {x : List Nat} {last : Nat} (isMoved : moved type index dim c = x ++ [last]) :
    position leading x < 2 ^ 31 ∧ last < 2 ^ 31 := by
  have both := fits c inside
  rwa [isMoved, List.dropLast_concat, List.getLastD_concat] at both

/-- A gather is `input[c with c[dim] = index[c]]`, as far as rows and columns fit the indices. -/
theorem gatherToRows_same [Zero α] {input : Tensor α} {dim : Int}
    (isShape : input.shape = leading ++ [width])
    (element : ElementIndex index (leading ++ [width]) (dimension dim (leading ++ [width]).length))
    (fits : FitsIndices index leading (dimension dim (leading ++ [width]).length)) :
    Tensor.Same (gatherToRows type input index dim) (torchGather type input index dim) := by
  refine ⟨rfl, fun c inside => ?_⟩
  obtain ⟨x, last, isMoved, isRow, less⟩ := moved_split element inside
  have rowLess := position_lt isRow
  obtain ⟨rowFits, columnFits⟩ := fits.split inside isMoved
  rw [gatherToRows_data isShape element inside isMoved isRow less,
    readIndex_eq rowFits, readIndex_eq columnFits, clampTo_eq rowLess, clampTo_eq less,
    table_data isShape isRow less, ← isMoved]
  unfold torchGather
  rw [isShape]

/-- The place of an element in the table. -/
def tablePlace (leading x : List Nat) : List Nat :=
  [0, position leading x.dropLast, x.getLastD 0]

theorem tablePlace_append (leading x : List Nat) (last : Nat) :
    tablePlace leading (x ++ [last]) = [0, position leading x, last] := by
  simp [tablePlace]

theorem tablePlace_injective {x y : List Nat} (inside : Within x (leading ++ [width]))
    (insideOther : Within y (leading ++ [width]))
    (same : tablePlace leading x = tablePlace leading y) : x = y := by
  obtain ⟨x, last, after, rfl, isRow, -, isNil⟩ := within_split.mp inside
  cases isNil
  obtain ⟨y, lastOther, after, rfl, isRowOther, -, isNil⟩ := within_split.mp insideOther
  cases isNil
  rw [tablePlace_append, tablePlace_append] at same
  simp only [List.cons.injEq, and_true, true_and] at same
  rw [position_injective isRow isRowOther same.1, same.2]

theorem indices_line (count : Nat) : indices [1, count] = (List.range count).map ([0, ·]) := by
  have singles : indices [count] = (List.range count).map ([·]) := by
    simp [indices, List.map_eq_flatMap]
  rw [indices, singles, List.range_one, List.flatMap_singleton, List.map_map]
  rfl

/-- The updates of the pattern for scatters are those of the operation, in the table's places. -/
theorem scatter_updates {source : Tensor α} {d : Nat}
    (element : ElementIndex index (leading ++ [width]) d)
    (isSource : source.shape = index.shape) (fits : FitsIndices index leading d) :
    (elements leading.prod width).updates int32 (rowColumnIndices type index (leading ++ [width]) d)
      [1, leading.prod, width] (source.reshape [1, index.shape.prod]) =
    ((indices index.shape).map fun c => (moved type index d c, source.data c)).map
      fun update => (tablePlace leading update.1, update.2) := by
  have shape : (rowColumnIndices type index (leading ++ [width]) d).shape =
    [1, 2, index.shape.prod] := rfl
  unfold Rows.updates
  rw [elements_gatheredShape shape, indices_line, indices_eq, List.filter_map, List.map_map,
    List.map_map, List.map_map, List.filter_eq_self.mpr]
  on_goal 1 => apply List.map_congr_left
  all_goals
    intro p member
    have less := List.mem_range.mp member
    have inside := coordinates_within less
    obtain ⟨x, last, isMoved, isRow, isColumn⟩ := moved_split element inside
    have row := rowColumnIndices_row element inside isMoved isRow isColumn
    have column := rowColumnIndices_column element inside isMoved isRow
    rw [position_coordinates less] at row column
    have rowLess := position_lt isRow
    obtain ⟨rowFits, columnFits⟩ := fits.split inside isMoved
    simp only [Function.comp_apply]
  · rw [elements_target shape row column, isMoved, tablePlace_append, readIndex_eq rowFits,
      readIndex_eq columnFits, clampTo_eq rowLess, clampTo_eq isColumn]
    refine congrArg (Prod.mk _) ?_
    have line : Within [0, p] [1, index.shape.prod] := .cons Nat.one_pos (.cons less .nil)
    rw [Tensor.reshape_data line (by rw [isSource]; simp)]
    simp [position, Tensor.element, isSource]
  · have place : (elements leading.prod width).positionOf [0, p] = p := Nat.div_one p
    simp only [List.getD_cons_zero, place, decide_eq_true_eq]
    exact elements_inBounds shape row column rowLess isColumn rowFits columnFits

/-- A scatter puts `source[c]` at `c` with `c[dim] = index[c]`, or reduces it there, in the order of
the elements, as far as rows and columns fit the indices. -/
theorem scatterToRows_same {input source : Tensor α} {dim : Int} (combine : α → α → α)
    (isShape : input.shape = leading ++ [width]) (isSource : source.shape = index.shape)
    (element : ElementIndex index (leading ++ [width]) (dimension dim (leading ++ [width]).length))
    (fits : FitsIndices index leading (dimension dim (leading ++ [width]).length)) :
    Tensor.Same (scatterToRows type combine input index source dim)
      (torchScatter type combine input index source dim) := by
  refine ⟨rfl, fun y inside => ?_⟩
  replace inside : Within y (leading ++ [width]) := isShape ▸ inside
  obtain ⟨x, last, after, isSplit, isRow, less, isNil⟩ := within_split.mp inside
  cases isNil
  unfold scatterToRows torchScatter
  rw [isShape, tableDims_eq leading (Nat.zero_lt_of_lt less)]
  dsimp only
  have page : Within [0, position leading x, last] [1, leading.prod, width] :=
    .cons Nat.one_pos (.cons (position_lt isRow) (.cons less .nil))
  have place : tablePlace leading y = [0, position leading x, last] := by
    rw [isSplit, tablePlace_append]
  have updates := scatter_updates element isSource fits
  rw [Tensor.reshape_data inside (by simp), isSplit, table_position x isRow, ← isSplit,
    Tensor.element, Rows.scatter_shape, asRows_shape, coordinates_position page, Rows.scatter_data,
    asRows_shape]
  rw [elements] at updates
  rw [updates, applyUpdates_eq, ← place, valuesAt_map, place, table_data isShape isRow less,
    isSplit]
  intro other member same
  obtain ⟨update, isUpdate, rfl⟩ := List.mem_map.mp member
  obtain ⟨c, isIndex, rfl⟩ := List.mem_map.mp isUpdate
  exact tablePlace_injective (element.moved_within (mem_indices.mp isIndex)) inside same

end Libtt.IndexedRows

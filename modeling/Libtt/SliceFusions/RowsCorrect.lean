import Libtt.SliceFusions.ConcatCorrect

/-!
# Slices of rows

A row has one dimension besides those of one element, so its elements are numbered by one
coordinate, and a slice of its vector or of its matrix is a slice of the row.
-/
namespace Libtt.SliceFusions

open Libtt.StableHlo

variable {ε α : Type}

/-- Every dimension but one has one element. -/
def IsRow (shape : List Nat) (axis : Nat) : Prop :=
  axis < shape.length ∧ ∀ d < shape.length, d ≠ axis → shape.getD d 0 = 1

namespace IsRow

variable {shape index : List Nat} {axis number : Nat}

theorem tail {size : Nat} (row : IsRow (size :: shape) (axis + 1)) : size = 1 ∧ IsRow shape axis :=
  ⟨row.2 0 (Nat.zero_lt_succ _) (Nat.succ_ne_zero _).symm, Nat.lt_of_succ_lt_succ row.1,
    fun d less other => row.2 (d + 1) (Nat.succ_lt_succ less) (by omega)⟩

theorem head {size : Nat} (row : IsRow (size :: shape) 0) :
    shape = List.replicate shape.length 1 :=
  ones_eq fun d less => row.2 (d + 1) (Nat.succ_lt_succ less) (Nat.succ_ne_zero _)

theorem prod (row : IsRow shape axis) : shape.prod = shape.getD axis 0 := by
  induction shape generalizing axis with
  | nil => cases row.1
  | cons size shape ih =>
    cases axis with
    | zero =>
      rw [row.head]
      simp
    | succ axis =>
      obtain ⟨rfl, rest⟩ := row.tail
      rw [List.prod_cons, ih rest, Nat.one_mul, List.getD_cons_succ]

/-- The other coordinates are zero. -/
theorem eq_single (row : IsRow shape axis) (inside : Within index shape) :
    index = single shape.length axis (index.getD axis 0) := by
  obtain ⟨length, below⟩ := within_iff_getD.mp inside
  refine ext_getD 0 length (length_single ..) fun d less => ?_
  rw [getD_single row.1]
  split
  · rename_i same
    rw [same]
  · rename_i other
    have one := below d less
    rw [row.2 d less other] at one
    omega

theorem within (row : IsRow shape axis) (less : number < shape.getD axis 0) :
    Within (single shape.length axis number) shape := by
  refine within_iff_getD.mpr ⟨length_single .., fun d below => ?_⟩
  rw [getD_single row.1]
  split
  · rename_i same
    exact same ▸ less
  · rename_i other
    rw [row.2 d below other]
    exact Nat.zero_lt_one

theorem position_eq (row : IsRow shape axis) (inside : Within index shape) :
    position shape index = index.getD axis 0 := by
  induction inside generalizing axis with
  | nil => cases row.1
  | @cons coordinate size index shape below inside ih =>
    cases axis with
    | zero =>
      have small := position_lt inside
      have ones : shape.prod = 1 := by
        rw [row.head]
        simp
      rw [ones] at small
      rw [position, ones, Nat.lt_one_iff.mp small]
      simp
    | succ axis =>
      obtain ⟨rfl, rest⟩ := row.tail
      rw [position, ih rest, Nat.lt_one_iff.mp below, Nat.zero_mul, Nat.zero_add,
        List.getD_cons_succ]

theorem element_eq {operand : Tensor α} (row : IsRow operand.shape axis)
    (less : number < operand.shape.getD axis 0) :
    operand.element number = operand.data (single operand.shape.length axis number) := by
  have inside := row.within less
  rw [operand.data_eq inside, row.position_eq inside, getD_single row.1, if_pos rfl]

end IsRow

namespace Graph

theorem wide_eq_false {size : Nat} : wide size = false ↔ size = 1 := by
  simp [wide]

/-- The one wide dimension of a row. -/
theorem isRow_findIdx {shape : List Nat} (one : shape.countP wide = 1) :
    IsRow shape (shape.findIdx wide) := by
  induction shape with
  | nil => simp at one
  | cons size shape ih =>
    by_cases isWide : wide size = true
    · rw [List.countP_cons_of_pos isWide, Nat.add_eq_right, List.countP_eq_zero] at one
      rw [List.findIdx_cons, isWide, cond_true]
      refine ⟨Nat.zero_lt_succ _, fun d less other => ?_⟩
      cases d with
      | zero => exact absurd rfl other
      | succ d =>
        have inside : d < shape.length := Nat.lt_of_succ_lt_succ less
        rw [List.getD_cons_succ, List.getD_eq_getElem _ _ inside]
        exact wide_eq_false.mp (Bool.eq_false_iff.mpr (one _ (List.getElem_mem inside)))
    · rw [List.countP_cons_of_neg isWide] at one
      rw [List.findIdx_cons, Bool.eq_false_iff.mpr isWide, cond_false]
      obtain ⟨inside, others⟩ := ih one
      refine ⟨Nat.succ_lt_succ inside, fun d less other => ?_⟩
      cases d with
      | zero => exact wide_eq_false.mp (Bool.eq_false_iff.mpr isWide)
      | succ d => exact others d (Nat.lt_of_succ_lt_succ less) (by omega)

/-- Attributes that are about one axis. -/
theorem getD_axis {rank axis : Nat} (inside : axis < rank) (others value : Int32) {d : Nat}
    (less : d < rank) :
    ((List.replicate rank others).set axis value).getD d 0 = if d = axis then value else others := by
  rw [getD_set (by simpa using inside)]
  simp [less]

/-- The whole of a dimension of one element. -/
theorem sliceFits_unit : SliceFits 1 0 1 1 1 := by
  decide

variable {graph : Graph ε} {value : Nat}

/-- A vector has one coordinate. -/
theorem isRow_vector (size : Nat) : IsRow [size] 0 :=
  ⟨Nat.zero_lt_one, fun _ less other => absurd (Nat.lt_one_iff.mp less) other⟩

/-- A slice of a vector, as a slice of an axis of a row. -/
theorem verifySlice_axis {row result : List Nat} {axis n : Nat} {start stop step : Int32}
    (isRow : IsRow row axis) (isResult : IsRow result axis) (length : result.length = row.length)
    (count : result.getD axis 0 = n)
    (fits : SliceFits (row.getD axis 0) start stop step n) :
    VerifySlice row ((List.replicate row.length 0).set axis start)
      ((List.replicate row.length 1).set axis stop) ((List.replicate row.length 1).set axis step)
      result := by
  refine ⟨by simp, by simp, by simp, length, fun d less => ?_⟩
  rw [getD_axis isRow.1 _ _ less, getD_axis isRow.1 _ _ less, getD_axis isRow.1 _ _ less]
  by_cases along : d = axis
  · subst along
    rw [if_pos rfl, if_pos rfl, if_pos rfl, count]
    exact fits
  · rw [if_neg along, if_neg along, if_neg along, isRow.2 d less along,
      isResult.2 d (length ▸ less) along]
    exact sliceFits_unit

theorem sliceIndex_axis {row : List Nat} {axis i : Nat} {start step : Int32}
    (isRow : IsRow row axis) : sliceIndex row ((List.replicate row.length 0).set axis start)
      ((List.replicate row.length 1).set axis step) (single row.length axis i) =
    single row.length axis (adjusted (row.getD axis 0) start + i * step.toInt).toNat := by
  refine ext_getD 0 (length_sliceIndex ..) (length_single ..) fun d less => ?_
  rw [getD_sliceIndex less, getD_axis isRow.1 _ _ less, getD_axis isRow.1 _ _ less,
    getD_single isRow.1, getD_single isRow.1]
  by_cases along : d = axis
  · subst along
    rw [if_pos rfl, if_pos rfl, if_pos rfl, if_pos rfl]
  · rw [if_neg along, if_neg along, if_neg along, if_neg along]
    simp [adjusted, toInt_zero]

/-- An element of a row's vector is one of the row. -/
theorem vector_element {operand : Tensor α} {axis size number : Nat}
    (isRow : IsRow operand.shape axis) (isSize : operand.shape.getD axis 0 = size)
    (less : number < size) : (operand.reshape [size]).data [number] =
      operand.data (single operand.shape.length axis number) := by
  have inside : Within [number] [size] := .cons less .nil
  rw [Tensor.reshape_data inside (by rw [List.prod_singleton, isRow.prod, isSize]),
    (isRow_vector size).position_eq inside, List.getD_cons_zero, isRow.element_eq (isSize ▸ less)]

/-- A slice of a row's vector is a slice of the row. -/
theorem sliceOfSqueezedRow_preserved {rewrite : Rewrite ε}
    (matched : graph.sliceOfSqueezedRow value = some rewrite) :
    graph.Preserved value rewrite := by
  simp only [sliceOfSqueezedRow, Option.bind_eq_bind, Option.bind_eq_some_iff] at matched
  obtain ⟨slice, isReshape, ⟨squeezed, begins, ends, step⟩, isSlice, rowValue, isSqueeze, _, ranks,
    _, units, matched⟩ := matched
  obtain rfl := Option.some.inj matched
  obtain ⟨vector, rank, one⟩ := (Option.guard_eq_some' ()).mp ranks
  have others := (Option.guard_eq_some' ()).mp units
  rw [reshapeOp_eq_some] at isReshape isSqueeze
  rw [sliceOp_eq_some] at isSlice
  obtain ⟨element, volume⟩ := graph.verified value _ isReshape
  obtain ⟨rowElement, rowVolume⟩ := graph.verified squeezed _ isSqueeze
  obtain ⟨sliceElement, -, -, -, sliceRank, fits⟩ := graph.verified slice _ isSlice
  have isRow := isRow_findIdx one
  have isResult : IsRow (graph.type value).shape ((graph.type rowValue).shape.findIdx wide) :=
    ⟨rank ▸ isRow.1, fun d less => others d (rank ▸ less)⟩
  obtain ⟨size, isVector⟩ := List.length_eq_one_iff.mp vector
  obtain ⟨n, isPart⟩ := List.length_eq_one_iff.mp (sliceRank.trans vector)
  rw [isVector, isRow.prod, List.prod_singleton] at rowVolume
  rw [isPart, isResult.prod, List.prod_singleton] at volume
  have fit := fits 0 (vector ▸ Nat.zero_lt_one)
  rw [isVector, isPart] at fit
  simp only [List.getD_cons_zero] at fit
  refine ⟨⟨trivial, (rowElement.trans sliceElement).trans element,
    verifySlice_axis isRow isResult rank volume.symm (rowVolume ▸ fit)⟩, rfl,
    fun α _ conversions values typed defined => ⟨(typed value).symm, fun index within => ?_⟩⟩
  have inside : Within index (graph.type value).shape := within
  obtain ⟨-, below⟩ := within_iff_getD.mp inside
  have less : index.getD ((graph.type rowValue).shape.findIdx wide) 0 < n :=
    volume ▸ below _ isResult.1
  have isIndex := isResult.eq_single inside
  have isPosition := isResult.position_eq inside
  obtain ⟨positive, atMost⟩ := fit.within less
  generalize index.getD ((graph.type rowValue).shape.findIdx wide) 0 = i
    at less isIndex isPosition positive atMost
  have isValue := (defined value (by simp)).eq isReshape
  have isSliced := (defined slice (by simp)).eq isSlice
  have isSqueezed := (defined squeezed (by simp)).eq isSqueeze
  have rowShape := typed rowValue
  have original : (values value).data index = (values rowValue).data
      (single (graph.type rowValue).shape.length ((graph.type rowValue).shape.findIdx wide)
        (adjusted size (begins.getD 0 0) + i * (step.getD 0 0).toInt).toNat) := by
    have sliceShape : (values slice).shape = [n] := (typed slice).trans isPart
    have squeezedShape : (values squeezed).shape = [size] := (typed squeezed).trans isVector
    have isElement : (values value).data index = (values slice).data [i] := by
      rw [isValue, Operation.eval, Tensor.reshape_data inside, isPosition]
      · have isRowSlice : IsRow (values slice).shape 0 := sliceShape ▸ isRow_vector n
        rw [isRowSlice.element_eq (by rwa [sliceShape]), sliceShape]
        rfl
      · rw [sliceShape, isResult.prod, List.prod_singleton, volume]
    have isCut : (values slice).data [i] = (values squeezed).data
        [(adjusted size (begins.getD 0 0) + i * (step.getD 0 0).toInt).toNat] := by
      rw [isSliced, Operation.eval, sliceStatic, squeezedShape]
      rfl
    have isRowValue : IsRow (values rowValue).shape ((graph.type rowValue).shape.findIdx wide) :=
      rowShape ▸ isRow
    rw [isElement, isCut, isSqueezed, Operation.eval, isVector,
      vector_element isRowValue (by rw [rowShape, rowVolume]) (by omega), rowShape]
  rw [original, Replacement.eval, sliceStatic, Replacement.eval, rowShape, isIndex]
  simp only
  rw [rank, sliceIndex_axis isRow, rowVolume]

end Graph

/-- Every dimension before the last two has one element. -/
def IsMatrix (shape : List Nat) : Prop :=
  2 ≤ shape.length ∧ ∀ d < shape.length - 2, shape.getD d 0 = 1

namespace IsMatrix

variable {shape index : List Nat}

theorem split (isMatrix : IsMatrix shape) : ∃ before rows cols,
    shape = List.replicate before 1 ++ [rows, cols] := by
  obtain ⟨length, ones⟩ := isMatrix
  have isLast : (shape.drop (shape.length - 2)).length = 2 := by
    rw [List.length_drop]
    omega
  obtain ⟨rows, cols, isLast⟩ := List.length_eq_two.mp isLast
  refine ⟨shape.length - 2, rows, cols, ?_⟩
  rw [← isLast]
  refine Eq.trans (List.take_append_drop (shape.length - 2) shape).symm (congrArg (· ++ _) ?_)
  have isLength : (shape.take (shape.length - 2)).length = shape.length - 2 := by simp
  refine ext_getD 0 isLength List.length_replicate fun d less => ?_
  rw [List.getD_replicate 1 less, ← ones d less]
  have inside : d < shape.length := by omega
  simp [less, inside]

theorem prod (isMatrix : IsMatrix shape) :
    shape.prod = shape.getD (shape.length - 2) 0 * shape.getD (shape.length - 1) 0 := by
  obtain ⟨before, rows, cols, rfl⟩ := isMatrix.split
  simp

theorem position_eq (isMatrix : IsMatrix shape) (inside : Within index shape) :
    position shape index = index.getD (shape.length - 2) 0 * shape.getD (shape.length - 1) 0 +
      index.getD (shape.length - 1) 0 := by
  obtain ⟨before, rows, cols, rfl⟩ := isMatrix.split
  obtain ⟨first, last, rfl, isFirst, isLast⟩ := within_append.mp inside
  have length : first.length = before := by simpa using isFirst.length
  have small := position_lt isFirst
  rw [List.prod_replicate, Nat.one_pow] at small
  rw [position_append isFirst, Nat.lt_one_iff.mp small]
  cases isLast with
  | @cons i _ last _ below isLast =>
    cases isLast with
    | @cons j _ last _ belowAlso isLast =>
      cases isLast
      simp [position, ← length]

end IsMatrix

/-- A bound of a dimension is itself again after 32 bits: it is small, or it counts from the end of
a dimension whose size those bits drop. -/
def Fits32 (size bound : Nat) : Prop :=
  bound < 2 ^ 31 ∨ 2 ^ 32 ∣ size ∧ size ≤ bound + 2 ^ 31 ∧ bound < size

instance (size bound : Nat) : Decidable (Fits32 size bound) :=
  inferInstanceAs (Decidable (_ ∨ _))

theorem adjusted_ofInt {size bound : Nat} (most : bound ≤ size) :
    adjusted size (Int32.ofInt bound) = bound ↔ Fits32 size bound := by
  rw [Fits32, adjusted, Int32.toInt_ofInt, Int.bmod_def]
  norm_num
  omega

namespace Graph

variable {graph : Graph ε} {value : Nat}

/-- Dimensions of which none is wide have one element. -/
theorem ones_of_any {part shape : List Nat} {d : Nat} (ones : part.any wide = false)
    (less : d < part.length) (same : part.getD d 0 = shape.getD d 0) : shape.getD d 0 = 1 := by
  rw [← same, List.getD_eq_getElem _ _ less]
  exact wide_eq_false.mp (Bool.eq_false_iff.mpr
    (List.any_eq_false.mp ones _ (List.getElem_mem less)))

theorem isMatrix_of {shape : List Nat} (rank : 2 ≤ shape.length)
    (ones : (shape.take (shape.length - 2)).any wide = false) : IsMatrix shape := by
  refine ⟨rank, fun d less => ones_of_any ones ?_ ?_⟩
  · rw [List.length_take]
    omega
  · have inside : d < shape.length := by omega
    simp [less, inside]

theorem isRow_of {shape : List Nat} (rank : 2 ≤ shape.length)
    (ones : shape.dropLast.any wide = false) : IsRow shape (shape.length - 1) := by
  refine ⟨by omega, fun d less other => ones_of_any ones ?_ ?_⟩
  · rw [List.length_dropLast]
    omega
  · have before : d < shape.length - 1 := by omega
    simp [before, less]

/-- The bounds of the rows that a slice takes, as bounds of their elements, fit 32 bits. -/
def RowBoundsFit (graph : Graph ε) (value : Nat) : Prop :=
  ∀ input begins ends step, graph.definingOp value = some (.sliceStatic input begins ends step) →
    Fits32 (graph.type input).shape.prod
        ((begins.getD ((graph.type input).shape.length - 2) 0).toInt.toNat *
          (graph.type input).shape.getD ((graph.type input).shape.length - 1) 0) ∧
      Fits32 (graph.type input).shape.prod
        ((ends.getD ((graph.type input).shape.length - 2) 0).toInt.toNat *
          (graph.type input).shape.getD ((graph.type input).shape.length - 1) 0)

/-- What the pattern has matched. -/
structure RowsMatch (graph : Graph ε) (value : Nat) where
  input : Nat
  reshaped : Nat
  rowValue : Nat
  begins : List Int32
  ends : List Int32
  step : List Int32
  isSlice : graph.definingOp value = some (.sliceStatic input begins ends step)
  isCast : graph.definingOp input = some (.typecast reshaped) ∨
    graph.typecastOp input = none ∧ reshaped = input
  isReshape : graph.definingOp reshaped = some (.reshape rowValue)
  ranks : 2 ≤ (graph.type rowValue).shape.length ∧ 2 ≤ (graph.type reshaped).shape.length
  rowOnes : (graph.type rowValue).shape.dropLast.any wide = false
  matrixOnes : ((graph.type reshaped).shape.take
    ((graph.type reshaped).shape.length - 2)).any wide = false
  wholes : ∀ d < (graph.type reshaped).shape.length, (step.getD d 0).toInt = 1 ∧
    (d ≠ (graph.type reshaped).shape.length - 2 →
      whole (graph.type reshaped).shape begins ends d = true)
  first : Nat
  last : Nat
  isFirst : (begins.getD ((graph.type reshaped).shape.length - 2) 0).toInt = first
  isLast : (ends.getD ((graph.type reshaped).shape.length - 2) 0).toInt = last
  more : first < last

namespace RowsMatch

variable (matched : RowsMatch graph value)

abbrev row : TensorType ε := graph.type matched.rowValue

abbrev matrix : List Nat := (graph.type matched.reshaped).shape

abbrev rank : Nat := matched.matrix.length

abbrev axis : Nat := matched.row.shape.length - 1

abbrev cols : Nat := matched.matrix.getD (matched.rank - 1) 0

/-- The shape of the columns of the row. -/
abbrev cutShape : List Nat :=
  (List.replicate matched.row.shape.length 1).set matched.axis
    ((matched.last - matched.first : Int) * matched.cols).toNat

/-- The created slice. -/
abbrev slice : Replacement ε :=
  .sliceStatic (.existing matched.rowValue)
    (atBack matched.row.shape.length 0 (Int32.ofInt (matched.first * matched.cols)))
    (atBack matched.row.shape.length 1 (Int32.ofInt (matched.last * matched.cols)))
    (List.replicate matched.row.shape.length 1) { matched.row with shape := matched.cutShape }

/-- The created slice, and the typecast where there was one. -/
abbrev cut : Replacement ε :=
  if (graph.typecastOp matched.input).isSome then
    .typecast matched.slice { shape := matched.cutShape, element := (graph.type value).element }
  else matched.slice

abbrev rewrite : Rewrite ε where
  matched := if (graph.typecastOp matched.input).isSome then
      [value, matched.input, matched.reshaped]
    else [value, matched.reshaped]
  replacement := .reshape matched.cut
    { matched.cut.type graph with shape := (graph.type value).shape }

end RowsMatch

theorem rowsOfReshapedRow_eq_some {rewrite : Rewrite ε}
    (isRewrite : graph.rowsOfReshapedRow value = some rewrite) :
    ∃ matched : RowsMatch graph value, rewrite = matched.rewrite := by
  simp only [rowsOfReshapedRow, Option.bind_eq_bind, Option.bind_eq_some_iff] at isRewrite
  obtain ⟨⟨input, begins, ends, step⟩, isSlice, rowValue, isReshape, _, shapes, _, wholes, _,
    bounds, isRewrite⟩ := isRewrite
  obtain ⟨rowRank, matrixRank, rowOnes, matrixOnes⟩ := (Option.guard_eq_some' ()).mp shapes
  have wholes := (Option.guard_eq_some' ()).mp wholes
  have bounds := (Option.guard_eq_some' ()).mp bounds
  rw [sliceOp_eq_some] at isSlice
  rw [reshapeOp_eq_some] at isReshape
  rw [not_or, not_or] at bounds
  obtain ⟨positive, less, -⟩ := bounds
  obtain ⟨first, isFirst⟩ := Int.eq_ofNat_of_zero_le (Int.not_lt.mp positive)
  obtain ⟨last, isLast⟩ := Int.eq_ofNat_of_zero_le
    ((Int.not_lt.mp positive).trans (Int.not_le.mp less).le)
  refine ⟨
    { input, reshaped := (graph.typecastOp input).getD input, rowValue, begins, ends, step, isSlice
      isReshape, ranks := ⟨rowRank, matrixRank⟩, rowOnes, matrixOnes, wholes, first, last, isFirst
      isLast
      isCast := ?_
      more := by omega }, ?_⟩
  · cases isCast : graph.typecastOp input with
    | none => exact .inr ⟨rfl, rfl⟩
    | some reshaped => exact .inl (typecastOp_eq_some.mp isCast)
  · rw [← Option.some.inj isRewrite]
    simp only [isFirst, isLast]

namespace RowsMatch

variable (matched : RowsMatch graph value)

theorem step_eq {d : Nat} (less : d < matched.rank) : matched.step.getD d 0 = 1 :=
  Int32.toInt_inj.mp ((matched.wholes d less).1.trans toInt_one.symm)

theorem inputShape : (graph.type matched.input).shape = matched.matrix := by
  rcases matched.isCast with isCast | ⟨-, same⟩
  · exact (graph.verified matched.input _ isCast).symm
  · rw [← same]

theorem verified : (graph.type matched.input).element = (graph.type value).element ∧
    VerifySlice matched.matrix matched.begins matched.ends matched.step (graph.type value).shape :=
  matched.inputShape ▸ graph.verified value _ matched.isSlice

theorem adjusted_natural {size number : Nat} {bound : Int32} (isNumber : bound.toInt = number) :
    adjusted size bound = number := by
  rw [adjusted, isNumber, if_neg (by omega)]

/-- The slice of the rows. -/
theorem rows_slice : matched.last ≤ matched.matrix.getD (matched.rank - 2) 0 ∧
    (graph.type value).shape.getD (matched.rank - 2) 0 = matched.last - matched.first := by
  obtain ⟨-, -, -, -, -, fits⟩ := matched.verified
  have less : matched.rank - 2 < matched.rank :=
    Nat.sub_lt (Nat.zero_lt_of_lt matched.ranks.2) (by decide)
  have fit := fits _ less
  rw [matched.step_eq less, sliceFits_one, adjusted_natural matched.isFirst,
    adjusted_natural matched.isLast] at fit
  omega

/-- The other dimensions stay whole. -/
theorem others_slice {d : Nat} (less : d < matched.rank) (other : d ≠ matched.rank - 2) :
    adjusted (matched.matrix.getD d 0) (matched.begins.getD d 0) = 0 ∧
      0 < matched.matrix.getD d 0 ∧ (graph.type value).shape.getD d 0 = matched.matrix.getD d 0 := by
  obtain ⟨-, -, -, -, -, fits⟩ := matched.verified
  have fit := fits d less
  have bounds : whole matched.matrix matched.begins matched.ends d = true :=
    (matched.wholes d less).2 other
  rw [whole, Bool.and_eq_true, beq_iff_eq, beq_iff_eq] at bounds
  have starts : adjusted (matched.matrix.getD d 0) (matched.begins.getD d 0) = (0 : Nat) :=
    adjusted_natural bounds.1
  rw [matched.step_eq less, sliceFits_one, starts, adjusted_natural bounds.2] at fit
  omega

theorem isMatrix : IsMatrix matched.matrix := isMatrix_of matched.ranks.2 matched.matrixOnes

theorem isRow : IsRow matched.row.shape matched.axis := isRow_of matched.ranks.1 matched.rowOnes

theorem resultLength : (graph.type value).shape.length = matched.rank :=
  matched.verified.2.2.2.2.1

include matched in
theorem isResult : IsMatrix (graph.type value).shape := by
  refine ⟨matched.resultLength ▸ matched.ranks.2, fun d less => ?_⟩
  rw [matched.resultLength] at less
  have inside : d < matched.rank := less.trans_le (Nat.sub_le _ _)
  rw [(matched.others_slice inside less.ne).2.2, matched.isMatrix.2 d less]

theorem volume : matched.row.shape.getD matched.axis 0 =
    matched.matrix.getD (matched.rank - 2) 0 * matched.cols := by
  rw [← matched.isRow.prod, ← matched.isMatrix.prod]
  exact (graph.verified matched.reshaped _ matched.isReshape).2

/-- The typecast, where there is one. -/
def convert (conversions : Conversions ε α) : α → α :=
  if (graph.typecastOp matched.input).isSome then
    conversions matched.row.element (graph.type value).element
  else id

/-- The position of an element of the rows in the row. -/
theorem position_rows {index : List Nat} (inside : Within index (graph.type value).shape) :
    position matched.matrix (sliceIndex matched.matrix matched.begins matched.step index) =
      matched.first * matched.cols + position (graph.type value).shape index := by
  have within := sliceIndex_within matched.verified.2 inside
  have more : 2 ≤ matched.rank := matched.ranks.2
  have row : matched.rank - 2 < matched.rank := Nat.sub_lt (Nat.zero_lt_of_lt more) (by decide)
  have column : matched.rank - 1 < matched.rank := Nat.sub_lt (Nat.zero_lt_of_lt more) (by decide)
  obtain ⟨start, -, sameCols⟩ := matched.others_slice column (by omega)
  rw [matched.isMatrix.position_eq within, matched.isResult.position_eq inside,
    matched.resultLength, sameCols, getD_sliceIndex row, getD_sliceIndex column, start,
    adjusted_natural matched.isFirst, matched.step_eq row, matched.step_eq column, toInt_one,
    mul_one, mul_one, zero_add, Int.toNat_natCast]
  have sum : ((matched.first : Int) + (index.getD (matched.rank - 2) 0 : Nat)).toNat =
      matched.first + index.getD (matched.rank - 2) 0 := by omega
  rw [sum, Nat.add_mul, Nat.add_assoc]

theorem axis_lt : matched.axis < matched.row.shape.length := matched.isRow.1

/-- The created slice has as many elements as the rows. -/
theorem cutShape_axis : matched.cutShape.getD matched.axis 0 = (graph.type value).shape.prod := by
  have more : 2 ≤ matched.rank := matched.ranks.2
  have column : matched.rank - 1 < matched.rank := Nat.sub_lt (Nat.zero_lt_of_lt more) (by decide)
  have count : (matched.last - matched.first : Int) * matched.cols =
      ((matched.last - matched.first) * matched.cols : Nat) := by
    rw [Nat.cast_mul, Nat.cast_sub matched.more.le]
  rw [matched.isResult.prod, matched.resultLength, matched.rows_slice.2,
    (matched.others_slice column (by omega)).2.2,
    getD_set (by rw [List.length_replicate]; exact matched.axis_lt), if_pos rfl, count,
    Int.toNat_natCast]

theorem isRow_cutShape : IsRow matched.cutShape matched.axis := by
  have inside : matched.axis < (List.replicate matched.row.shape.length 1).length := by
    rw [List.length_replicate]
    exact matched.axis_lt
  refine ⟨by rwa [List.length_set], fun d less other => ?_⟩
  rw [List.length_set, List.length_replicate] at less
  rw [getD_set inside, if_neg other, List.getD_replicate 1 less]

theorem length_cutShape : matched.cutShape.length = matched.row.shape.length := by simp

theorem ones_eq_set : List.replicate matched.row.shape.length (1 : Int32) =
    (List.replicate matched.row.shape.length 1).set matched.axis 1 :=
  List.set_replicate_self.symm

section Data

variable [Inhabited α] {conversions : Conversions ε α} {values : Nat → Tensor α}

omit [Inhabited α] in
theorem mem_matched : value ∈ matched.rewrite.matched ∧
    matched.reshaped ∈ matched.rewrite.matched ∧
      ((graph.typecastOp matched.input).isSome → matched.input ∈ matched.rewrite.matched) := by
  unfold rewrite
  split <;> simp_all

/-- What the matched operations compute. -/
theorem original_data (typed : graph.Typed values)
    (defined : ∀ other ∈ matched.rewrite.matched, graph.Defined conversions values other)
    {index : List Nat} (inside : Within index (graph.type value).shape) :
    (values value).data index = matched.convert conversions ((values matched.rowValue).data
      (single matched.row.shape.length matched.axis
        (matched.first * matched.cols + position (graph.type value).shape index))) := by
  have inputShape : (values matched.input).shape = matched.matrix :=
    (typed _).trans matched.inputShape
  have rowShape : (values matched.rowValue).shape = matched.row.shape := typed _
  have within := sliceIndex_within matched.verified.2 inside
  have isCast : (values matched.input).data
      (sliceIndex matched.matrix matched.begins matched.step index) =
      matched.convert conversions ((values matched.reshaped).data
        (sliceIndex matched.matrix matched.begins matched.step index)) := by
    unfold convert
    rcases matched.isCast with isCast | ⟨noCast, same⟩
    · have some : (graph.typecastOp matched.input).isSome := by
        rw [typecastOp_eq_some.mpr isCast]
        rfl
      rw [if_pos some, (defined _ (matched.mem_matched.2.2 some)).eq isCast, Operation.eval,
        ← matched.verified.1, (graph.verified matched.reshaped _ matched.isReshape).1]
      rfl
    · rw [noCast, same]
      rfl
  have isReshape : (values matched.reshaped).data
      (sliceIndex matched.matrix matched.begins matched.step index) =
      (values matched.rowValue).data (single matched.row.shape.length matched.axis
        (matched.first * matched.cols + position (graph.type value).shape index)) := by
    have isRowValue : IsRow (values matched.rowValue).shape matched.axis :=
      rowShape ▸ matched.isRow
    have volume := (graph.verified matched.reshaped _ matched.isReshape).2
    have less := position_lt within
    rw [matched.position_rows inside] at less
    rw [(defined _ matched.mem_matched.2.1).eq matched.isReshape, Operation.eval,
      Tensor.reshape_data within (by rw [rowShape]; exact volume.symm), matched.position_rows inside,
      isRowValue.element_eq (by rw [rowShape, ← matched.isRow.prod]; exact volume.symm ▸ less),
      rowShape]
  rw [(defined value matched.mem_matched.1).eq matched.isSlice, Operation.eval, sliceStatic, inputShape]
  exact isCast.trans (congrArg _ isReshape)

omit [Inhabited α] in
/-- What the created operations compute. -/
theorem replacement_data (typed : graph.Typed values) {index : List Nat}
    (inside : Within index (graph.type value).shape) :
    (matched.rewrite.replacement.eval graph conversions values).data index =
      matched.convert conversions ((values matched.rowValue).data
        (single matched.row.shape.length matched.axis
          (adjusted (matched.row.shape.getD matched.axis 0)
            (Int32.ofInt (matched.first * matched.cols)) +
              position (graph.type value).shape index).toNat)) := by
  have rowShape : (values matched.rowValue).shape = matched.row.shape := typed _
  have sliced : (matched.slice.eval graph conversions values).data
      (single matched.row.shape.length matched.axis (position (graph.type value).shape index)) =
      (values matched.rowValue).data (single matched.row.shape.length matched.axis
        (adjusted (matched.row.shape.getD matched.axis 0)
          (Int32.ofInt (matched.first * matched.cols)) +
            position (graph.type value).shape index).toNat) := by
    rw [Replacement.eval, sliceStatic, Replacement.eval, rowShape, matched.ones_eq_set]
    refine congrArg _ ((sliceIndex_axis matched.isRow).trans ?_)
    rw [toInt_one, mul_one]
  have isShape : (matched.cut.eval graph conversions values).shape = matched.cutShape := by
    unfold cut
    split <;> rfl
  have isData (index : List Nat) : (matched.cut.eval graph conversions values).data index =
      matched.convert conversions ((matched.slice.eval graph conversions values).data index) := by
    unfold cut convert
    split <;> rfl
  have isRowCut : IsRow (matched.cut.eval graph conversions values).shape matched.axis :=
    isShape ▸ matched.isRow_cutShape
  rw [rewrite, Replacement.eval, Tensor.reshape_data inside, isRowCut.element_eq, isShape,
    matched.length_cutShape, isData, sliced]
  · rw [isShape, matched.cutShape_axis]
    exact position_lt inside
  · rw [isRowCut.prod, isShape, matched.cutShape_axis]

end Data

/-- The created operations are valid if the created slice is. -/
theorem verifies_iff : matched.rewrite.replacement.Verifies graph ↔
    SliceFits (matched.row.shape.getD matched.axis 0)
      (Int32.ofInt (matched.first * matched.cols)) (Int32.ofInt (matched.last * matched.cols)) 1
        (graph.type value).shape.prod := by
  have isSlice : matched.slice.Verifies graph ↔
      SliceFits (matched.row.shape.getD matched.axis 0)
        (Int32.ofInt (matched.first * matched.cols)) (Int32.ofInt (matched.last * matched.cols)) 1
          (graph.type value).shape.prod := by
    constructor
    · rintro ⟨-, -, -, -, -, -, fits⟩
      have fit := fits matched.axis matched.axis_lt
      have atAxis (others value : Int32) :
          (atBack matched.row.shape.length others value).getD matched.axis 0 = value := by
        rw [atBack, getD_axis matched.axis_lt _ _ matched.axis_lt, if_pos rfl]
      rw [atAxis, atAxis, getD_ones matched.axis_lt] at fit
      exact matched.cutShape_axis ▸ fit
    · intro fits
      refine ⟨trivial, rfl, ?_⟩
      have valid := verifySlice_axis matched.isRow matched.isRow_cutShape matched.length_cutShape
        matched.cutShape_axis fits
      rwa [← matched.ones_eq_set] at valid
  have isShape : (matched.cut.type graph).shape = matched.cutShape := by
    unfold cut
    split <;> rfl
  have isCut : matched.cut.Verifies graph ↔ matched.slice.Verifies graph := by
    unfold cut
    split
    · exact and_iff_left rfl
    · exact Iff.rfl
  rw [← isSlice, ← isCut]
  refine and_iff_left ⟨rfl, ?_⟩
  rw [isShape, matched.isRow_cutShape.prod, matched.cutShape_axis]

theorem type_eq : matched.rewrite.replacement.type graph = graph.type value := by
  have element : (matched.cut.type graph).element = (graph.type value).element := by
    unfold cut
    split
    · rfl
    · rename_i noCast
      have same : matched.reshaped = matched.input := by
        rcases matched.isCast with isCast | ⟨-, same⟩
        · rw [typecastOp_eq_some.mpr isCast] at noCast
          exact absurd rfl noCast
        · exact same
      exact (graph.verified matched.reshaped _ matched.isReshape).1.trans
        (same ▸ matched.verified.1)
  exact congrArg (TensorType.mk (graph.type value).shape) element

/-- The bounds of the row, in 32 bits, are where they should be. -/
def Survives : Prop :=
  adjusted (matched.row.shape.getD matched.axis 0) (Int32.ofInt (matched.first * matched.cols)) =
      (matched.first * matched.cols : Nat) ∧
    adjusted (matched.row.shape.getD matched.axis 0) (Int32.ofInt (matched.last * matched.cols)) =
      (matched.last * matched.cols : Nat)

/-- The numbers of the rows' elements. -/
theorem counts : (graph.type value).shape.prod + matched.first * matched.cols =
      matched.last * matched.cols ∧ 0 < (graph.type value).shape.prod ∧
    matched.last * matched.cols ≤ matched.row.shape.getD matched.axis 0 := by
  have more := matched.more
  have many : 2 ≤ matched.rank := matched.ranks.2
  have column : matched.rank - 1 < matched.rank := Nat.sub_lt (Nat.zero_lt_of_lt many) (by decide)
  obtain ⟨-, some, sameCols⟩ := matched.others_slice column (by omega)
  obtain ⟨most, rows⟩ := matched.rows_slice
  rw [matched.isResult.prod, matched.resultLength, rows, sameCols, matched.volume]
  refine ⟨?_, Nat.mul_pos (Nat.sub_pos_of_lt more) some, Nat.mul_le_mul_right _ most⟩
  rw [← Nat.add_mul, Nat.sub_add_cancel more.le]

/-- Values that tell the element where the rows start from the others. -/
theorem exists_values_marked : ∃ values : Nat → Tensor Bool, graph.Typed values ∧
    (∀ other ∈ matched.rewrite.matched, graph.Defined (fun _ _ x => x) values other) ∧
      ∀ number, (values matched.rowValue).data
        (single matched.row.shape.length matched.axis number) =
          decide (number = matched.first * matched.cols) := by
  refine ⟨graph.run (fun _ _ x => x) (fun other =>
    { shape := (graph.type other).shape
      data := fun index => decide (index.getD matched.axis 0 = matched.first * matched.cols) })
    matched.rowValue, run_typed fun _ => rfl, fun other member => ?_, fun number => ?_⟩
  · have rowBefore : matched.rowValue < matched.reshaped :=
      graph.ordered _ _ matched.isReshape _ (List.mem_singleton_self _)
    have inputBefore : matched.input < value :=
      graph.ordered _ _ matched.isSlice _ (List.mem_singleton_self _)
    rcases matched.isCast with isCast | ⟨noCast, same⟩
    · have castBefore : matched.reshaped < matched.input :=
        graph.ordered _ _ isCast _ (List.mem_singleton_self _)
      rw [rewrite, typecastOp_eq_some.mpr isCast] at member
      rcases List.mem_cons.mp member with rfl | member
      · exact run_defined (by omega) matched.isSlice
      · rcases List.mem_pair.mp member with rfl | rfl
        · exact run_defined (by omega) isCast
        · exact run_defined rowBefore matched.isReshape
    · rw [rewrite, noCast] at member
      rcases List.mem_pair.mp member with rfl | rfl
      · exact run_defined (by omega) matched.isSlice
      · exact run_defined rowBefore matched.isReshape
  · rw [run_leaf (Nat.le_refl _)]
    dsimp only
    rw [getD_single matched.axis_lt, if_pos rfl]

theorem convert_id (element : α) : matched.convert (fun _ _ x => x) element = element := by
  unfold convert
  split <;> rfl

theorem preserved_iff : graph.Preserved value matched.rewrite ↔ matched.Survives := by
  obtain ⟨count, some, most⟩ := matched.counts
  constructor
  · rintro ⟨verifies, -, same⟩
    obtain ⟨positive, -, -, -, between⟩ := sliceFits_one.mp (matched.verifies_iff.mp verifies)
    obtain ⟨values, typed, defined, marked⟩ := matched.exists_values_marked
    have inside := coordinates_within some
    have start := (same Bool (fun _ _ x => x) values typed defined).2 _ inside
    rw [matched.replacement_data typed inside, matched.original_data typed defined inside,
      position_coordinates some, marked, marked, matched.convert_id, matched.convert_id,
      Nat.add_zero, decide_eq_decide, Nat.cast_zero, Int.add_zero] at start
    exact ⟨by omega, by omega⟩
  · rintro ⟨isFirst, isLast⟩
    refine ⟨matched.verifies_iff.mpr (sliceFits_one.mpr ?_), matched.type_eq,
      fun α _ conversions values typed defined => ⟨(typed value).symm, fun index within => ?_⟩⟩
    · omega
    · have inside : Within index (graph.type value).shape := within
      rw [matched.replacement_data typed inside, matched.original_data typed defined inside, isFirst]
      norm_cast

/-- The condition on the matched operations: the row's bounds survive 32 bits. -/
theorem survives_iff : matched.Survives ↔ graph.RowBoundsFit value := by
  obtain ⟨count, -, most⟩ := matched.counts
  have volume : (graph.type matched.input).shape.prod = matched.row.shape.getD matched.axis 0 := by
    rw [matched.inputShape, matched.isMatrix.prod, matched.volume]
  have bounds : graph.RowBoundsFit value ↔
      Fits32 (matched.row.shape.getD matched.axis 0) (matched.first * matched.cols) ∧
        Fits32 (matched.row.shape.getD matched.axis 0) (matched.last * matched.cols) := by
    constructor
    · intro fits
      have fit := fits _ _ _ _ matched.isSlice
      rwa [volume, matched.inputShape, matched.isFirst, matched.isLast] at fit
    · intro fits input begins ends step isSlice
      rw [matched.isSlice, Option.some.injEq, Operation.sliceStatic.injEq] at isSlice
      obtain ⟨rfl, rfl, rfl, rfl⟩ := isSlice
      rwa [volume, matched.inputShape, matched.isFirst, matched.isLast]
  rw [bounds, Survives, ← Nat.cast_mul, ← Nat.cast_mul]
  exact and_congr (adjusted_ofInt (by omega)) (adjusted_ofInt most)

end RowsMatch

end Graph

end Libtt.SliceFusions

/-! ## The slice fusions keep values -/
namespace Libtt.SliceFusions

variable {ε : Type}

/-- Slices of a row of 128 elements: of its matrix, of its vector, and adjacent ones. -/
def slicesOfRow : Graph Unit where
  type
    | 0 => ⟨[1, 128], ()⟩
    | 1 => ⟨[4, 32], ()⟩
    | 2 => ⟨[2, 32], ()⟩
    | 3 => ⟨[128], ()⟩
    | 4 => ⟨[42], ()⟩
    | 5 => ⟨[1, 42], ()⟩
    | 6 => ⟨[1, 64], ()⟩
    | 7 => ⟨[1, 36], ()⟩
    | _ => ⟨[1, 100], ()⟩
  definingOp
    | 1 => some (.reshape 0)
    | 2 => some (.sliceStatic 1 [1, 0] [3, 32] [1, 1])
    | 3 => some (.reshape 0)
    | 4 => some (.sliceStatic 3 [2] [-1] [3])
    | 5 => some (.reshape 4)
    | 6 => some (.sliceStatic 0 [0, 0] [1, 64] [1, 1])
    | 7 => some (.sliceStatic 0 [0, 64] [1, -28] [1, 1])
    | 8 => some (.concat [6, 7] (-1))
    | _ => none
  ordered value op isOp := by
    split at isOp <;> cases isOp <;> decide
  verified value op isOp := by
    split at isOp <;> cases isOp <;> decide

/-- The fusions of slices keep values, that of a reshaped row exactly where its bounds fit. -/
theorem slice_fusions (graph : Graph ε) (value : Nat) (rewrite : Rewrite ε) :
    (graph.concatOfAdjacentSlices value = some rewrite → graph.Preserved value rewrite) ∧
    (graph.sliceOfSqueezedRow value = some rewrite → graph.Preserved value rewrite) ∧
    (graph.rowsOfReshapedRow value = some rewrite →
      (graph.Preserved value rewrite ↔ graph.RowBoundsFit value)) := by
  refine ⟨Graph.concatOfAdjacentSlices_preserved, Graph.sliceOfSqueezedRow_preserved,
    fun isRewrite => ?_⟩
  obtain ⟨matched, rfl⟩ := Graph.rowsOfReshapedRow_eq_some isRewrite
  exact matched.preserved_iff.trans matched.survives_iff

theorem slice_fusions_row :
    (∃ rewrite, slicesOfRow.concatOfAdjacentSlices 8 = some rewrite ∧
      slicesOfRow.Preserved 8 rewrite) ∧
    (∃ rewrite, slicesOfRow.sliceOfSqueezedRow 5 = some rewrite ∧ slicesOfRow.Preserved 5 rewrite) ∧
    ∃ rewrite, slicesOfRow.rowsOfReshapedRow 2 = some rewrite ∧
      slicesOfRow.Preserved 2 rewrite := by
  have concatenated : (slicesOfRow.concatOfAdjacentSlices 8).isSome := by decide
  have squeezed : (slicesOfRow.sliceOfSqueezedRow 5).isSome := by decide
  have reshaped : (slicesOfRow.rowsOfReshapedRow 2).isSome := by decide
  obtain ⟨first, isFirst⟩ := Option.isSome_iff_exists.mp concatenated
  obtain ⟨second, isSecond⟩ := Option.isSome_iff_exists.mp squeezed
  obtain ⟨third, isThird⟩ := Option.isSome_iff_exists.mp reshaped
  refine ⟨⟨first, isFirst, (slice_fusions slicesOfRow 8 first).1 isFirst⟩,
    ⟨second, isSecond, (slice_fusions slicesOfRow 5 second).2.1 isSecond⟩,
    ⟨third, isThird, ((slice_fusions slicesOfRow 2 third).2.2 isThird).mpr ?_⟩⟩
  intro input begins ends step isSlice
  cases isSlice
  decide

/-- Rows of a matrix whose elements number `2 ^ 31`. -/
def rowsOfLongRow : Graph Unit where
  type
    | 0 => ⟨[1, 2147483648], ()⟩
    | 1 => ⟨[67108864, 32], ()⟩
    | _ => ⟨[67108863, 32], ()⟩
  definingOp
    | 1 => some (.reshape 0)
    | 2 => some (.sliceStatic 1 [1, 0] [67108864, 32] [1, 1])
    | _ => none
  ordered value op isOp := by
    split at isOp <;> cases isOp <;> decide
  verified value op isOp := by
    split at isOp <;> cases isOp <;> decide

/-- The end of the created slice does not fit 32 bits. -/
theorem slice_fusions_long_row : ∃ rewrite, rowsOfLongRow.rowsOfReshapedRow 2 = some rewrite ∧
    ¬ rowsOfLongRow.Preserved 2 rewrite := by
  have reshaped : (rowsOfLongRow.rowsOfReshapedRow 2).isSome := by decide
  obtain ⟨rewrite, isRewrite⟩ := Option.isSome_iff_exists.mp reshaped
  obtain ⟨matched, rfl⟩ := Graph.rowsOfReshapedRow_eq_some isRewrite
  refine ⟨_, isRewrite, fun preserved => ?_⟩
  have fits := matched.survives_iff.mp (matched.preserved_iff.mp preserved)
  have last := (fits 1 [1, 0] [67108864, 32] [1, 1] rfl).2
  exact absurd last (by decide)

end Libtt.SliceFusions

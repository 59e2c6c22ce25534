import Libtt.IndexedRows.Canonical

/-!
# Windows of a table

The elements of a position's window are where its components say.
-/
namespace Libtt.IndexedRows

open Libtt.Foundation Libtt.StableHlo

variable {type : IntegerType} {indices : Tensor type.Word} {sizes windows starts u : List Nat}
  {batch m : Nat}

section Rows

variable (length : windows.length = sizes.length) (inside : Within u windows)

include length in
theorem window_rows : (Rows.mk sizes windows false).window = windows.prod := by
  simp [Rows.window, Rows.rowWindows, Rows.rowComponents, ← length]

include length inside

theorem positionOf_rows (batch : Nat) (r : List Nat) : (Rows.mk sizes windows false).positionOf
    (batch :: (m * windows.prod + position windows u) :: r) = m := by
  have less := position_lt inside
  have columnWindow : (Rows.mk sizes windows false).columnWindow = 1 := rfl
  rw [Rows.positionOf, window_rows length, columnWindow, Nat.mul_one, List.getD_cons_succ,
    List.getD_cons_zero, Nat.mul_comm, Nat.mul_add_div (Nat.zero_lt_of_lt less),
    Nat.div_eq_of_lt less, Nat.add_zero]

/-- Rows that are addressed as wholes. -/
theorem target_rows (isClamped : (Rows.mk sizes windows false).clamped type indices batch m = starts)
    (isStart : starts.length = sizes.length) (r : List Nat) :
    (Rows.mk sizes windows false).target type indices
        (batch :: (m * windows.prod + position windows u) :: r) =
      batch :: position sizes (List.zipWith (· + ·) starts u) :: r := by
  have less := position_lt inside
  have within : (m * windows.prod + position windows u) / 1 % windows.prod = position windows u := by
    rw [Nat.div_one, Nat.mul_comm, Nat.mul_add_mod, Nat.mod_eq_of_lt less]
  have place := positionOf_rows (m := m) length inside batch r
  have columnWindow : (Rows.mk sizes windows false).columnWindow = 1 := rfl
  unfold Rows.target Rows.row
  simp only [List.getD_cons_zero, List.getD_cons_succ, place, columnWindow, window_rows length,
    within, isClamped, List.drop_succ_cons, List.drop_zero]
  simp [Rows.rowSizes, Rows.rowWindows, Rows.rowComponents, ← length, coordinates_position inside]
  rw [List.take_of_length_le (by omega), List.take_of_length_le (by omega)]

end Rows

section Columns

variable {size width start l : Nat} (length : windows.length = sizes.length)
  (inside : Within u windows) (less : l < width)

include length in
theorem window_columns :
    (Rows.mk (sizes ++ [size]) (windows ++ [width]) true).window = windows.prod := by
  simp [Rows.window, Rows.rowWindows, Rows.rowComponents, ← length]

theorem columnWindow_columns :
    (Rows.mk (sizes ++ [size]) (windows ++ [width]) true).columnWindow = width := by
  simp [Rows.columnWindow]

include less in
theorem div_width (row : Nat) : (row * width + l) / width = row := by
  rw [Nat.mul_comm, Nat.mul_add_div (Nat.zero_lt_of_lt less), Nat.div_eq_of_lt less, Nat.add_zero]

include length inside less

theorem positionOf_columns (batch : Nat) :
    (Rows.mk (sizes ++ [size]) (windows ++ [width]) true).positionOf
      [batch, (m * windows.prod + position windows u) * width + l] = m := by
  rw [Rows.positionOf, window_columns length, columnWindow_columns, List.getD_cons_succ,
    List.getD_cons_zero, Nat.mul_comm windows.prod, ← Nat.div_div_eq_div_mul, div_width less,
    div_width (position_lt inside)]

/-- Elements of a row's page. -/
theorem target_columns
    (isClamped : (Rows.mk (sizes ++ [size]) (windows ++ [width]) true).clamped type indices batch m =
      starts ++ [start]) (isStart : starts.length = sizes.length) :
    (Rows.mk (sizes ++ [size]) (windows ++ [width]) true).target type indices
        [batch, (m * windows.prod + position windows u) * width + l] =
      [batch, position sizes (List.zipWith (· + ·) starts u), start + l] := by
  have within : (m * windows.prod + position windows u) % windows.prod = position windows u := by
    rw [Nat.mul_comm, Nat.mul_add_mod, Nat.mod_eq_of_lt (position_lt inside)]
  have column : ((m * windows.prod + position windows u) * width + l) % width = l := by
    rw [Nat.mul_comm, Nat.mul_add_mod, Nat.mod_eq_of_lt less]
  have place : (Rows.mk (sizes ++ [size]) (windows ++ [width]) true).positionOf
      [batch, (m * windows.prod + position windows u) * width + l] = m :=
    positionOf_columns length inside less batch
  unfold Rows.target Rows.row
  simp only [List.getD_cons_zero, List.getD_cons_succ, place, columnWindow_columns,
    window_columns length, div_width less, within, column, isClamped]
  simp [Rows.rowSizes, Rows.rowWindows, Rows.rowComponents, ← length, coordinates_position inside]
  rw [List.take_left' (isStart.trans length.symm)]

end Columns

/-- Components that are where their windows fit need no clamping. -/
theorem clamped_eq {column : Bool} (length : windows.length = sizes.length)
    (isStart : starts.length = sizes.length)
    (components : (Rows.mk sizes windows column).components type indices batch m =
      starts.map Int.ofNat)
    (fits : ∀ k < sizes.length, starts.getD k 0 + windows.getD k 0 ≤ sizes.getD k 0) :
    (Rows.mk sizes windows column).clamped type indices batch m = starts := by
  unfold Rows.clamped
  rw [components]
  refine List.ext_getElem (by simp [length, isStart]) fun k less bound => ?_
  have fit := fits k (isStart ▸ bound)
  rw [List.getD_eq_getElem _ _ bound, List.getD_eq_getElem _ _ (by omega),
    List.getD_eq_getElem _ _ (by omega)] at fit
  simp only [List.getElem_zipWith, List.getElem_map, List.getElem_zip, Int.ofNat_eq_natCast]
  unfold clampTo
  split
  · rename_i negative
    exact absurd negative (by omega)
  · rw [if_neg (by omega)]
    exact Int.toNat_natCast _

theorem inBounds_of_clamped {rows : Rows} (isClamped : rows.clamped type indices batch m = starts)
    (components : rows.components type indices batch m = starts.map Int.ofNat) :
    rows.InBounds type indices batch m := by
  rw [Rows.InBounds, isClamped, components]

variable {before region after dims : List OperandDim}

theorem findIdx_before {α : Type} {p : α → Bool} {first last : List α} {x : α}
    (none : ∀ y ∈ first, p y = false) (one : p x = true) :
    (first ++ x :: last).findIdx p = first.length := by
  rw [List.findIdx_append, List.findIdx_eq_length.mpr none, if_neg (Nat.lt_irrefl _),
    List.findIdx_cons, one]
  simp

/-- The region lies around what needs a component. -/
theorem exists_region {dim : OperandDim} (member : dim ∈ dims) (needs : dim.needsComponent) :
    ∃ before region after, dims = before ++ region ++ after ∧ region ≠ [] ∧
      (∀ dim ∈ before, dim.needsComponent = false) ∧ (∀ dim ∈ after, dim.needsComponent = false) ∧
      regionStart dims = before.length ∧ regionStop dims = before.length + region.length := by
  have first {dims : List OperandDim} (some : ∃ dim ∈ dims, dim.needsComponent = true) :
      ∃ before dim after, dims = before ++ dim :: after ∧
        (∀ dim ∈ before, dim.needsComponent = false) ∧ dim.needsComponent = true := by
    obtain ⟨found, isFound⟩ := Option.isSome_iff_exists.mp (List.find?_isSome.mpr some)
    obtain ⟨needs, before, after, isSplit, none⟩ := List.find?_eq_some_iff_append.mp isFound
    exact ⟨before, found, after, isSplit, fun dim member => by simpa using none dim member, needs⟩
  obtain ⟨before, start, rest, rfl, isBefore, starts⟩ := first ⟨dim, member, needs⟩
  obtain ⟨reversed, stop, inner, isSplit, isAfter, stops⟩ :=
    @first (start :: rest).reverse ⟨start, by simp, starts⟩
  have rest_eq : start :: rest = (inner.reverse ++ [stop]) ++ reversed.reverse := by
    rw [← List.reverse_reverse (start :: rest), isSplit]
    simp
  refine ⟨before, inner.reverse ++ [stop], reversed.reverse, ?_, by simp, isBefore,
    fun dim member => isAfter dim (List.mem_reverse.mp member), findIdx_before isBefore starts, ?_⟩
  · simp only [rest_eq, List.append_assoc]
  · rw [regionStop, List.reverse_append, isSplit, List.append_assoc, List.cons_append,
      findIdx_before isAfter stops, List.length_append, rest_eq]
    simp
    omega

/-- Without batching dimensions the operand keeps its order. -/
theorem permutationOf_eq (noBatch : ∀ dim ∈ dims, dim.kind ≠ .batch) :
    permutationOf dims = List.range dims.length := by
  have noneBatch : dims.any (·.kind = .batch) = false := by simpa using noBatch
  rw [permutationOf, if_pos]
  rw [natural, List.all_eq_true]
  intro d member
  have less := List.mem_range.mp member
  have kind : dims[d].kind ≠ .batch := noBatch _ (List.getElem_mem less)
  simp [noneBatch, kind, less]

/-- A part of a list, by its places. -/
theorem map_range_part {α β : Type} (f : α → β) (default : α) (before middle after : List α) :
    (List.range' before.length middle.length).map
      (fun d => f ((before ++ middle ++ after).getD d default)) = middle.map f := by
  refine List.ext_getElem (by simp) fun k bound less => ?_
  rw [List.length_map] at less
  have place : (before ++ middle ++ after).getD (before.length + k) default = middle[k] := by
    rw [List.append_assoc, List.getD_append_right _ _ _ _ (Nat.le_add_right _ _),
      Nat.add_sub_cancel_left, List.getD_append _ _ _ _ less, List.getD_eq_getElem _ _ less]
  rw [List.getElem_map, List.getElem_map, List.getElem_range', Nat.one_mul, place]

/-- The table of batches, components and rows. -/
def tableOf (b s r : List Nat) : List Nat :=
  b.prod :: if r = [] then [s.dropLast.prod, s.getLastD 1] else s.prod :: r

/-- What is gathered for positions of it. -/
def gatheredOf (positions : Nat) (b w r : List Nat) : List Nat :=
  b.prod :: if r = [] then [positions * w.dropLast.prod * w.getLastD 1]
    else positions * w.prod :: r

section Layout

variable (isDims : dims = before ++ region ++ after) (isRegion : region ≠ [])
  (start : regionStart dims = before.length)
  (stop : regionStop dims = before.length + region.length)
  (noBatch : ∀ dim ∈ dims, dim.kind ≠ .batch)

include isDims isRegion start stop noBatch

/-- The layout of an operand whose region is not empty. -/
theorem canonicalize_eq : canonicalize dims =
    { permutation := List.range dims.length
      dims
      batchDims := List.range before.length
      componentDims := List.range' before.length region.length
      rowDims := List.range' (before.length + region.length) after.length
      columns := region.map fun dim => if dim.kind = .indexed then dim.column else -1
      sizes := region.map (·.size)
      windows := region.map (·.window)
      column := after = [] } := by
  have positive : 0 < region.length := List.length_pos_iff.mpr isRegion
  have part {β : Type} (f : OperandDim → β) :=
    map_range_part f OperandDim.empty before region after
  have all : (List.range dims.length).map (dims.getD · .empty) = dims := by
    have whole := map_range_part id OperandDim.empty [] dims []
    rwa [List.length_nil, ← List.range_eq_range', List.nil_append, List.append_nil,
      List.map_id] at whole
  have nonempty : List.range' before.length region.length ≠ [] := by simp; omega
  have length : dims.length = before.length + region.length + after.length := by
    rw [isDims, List.length_append, List.length_append]
  have last : (List.range' before.length region.length).getLastD 0 + 1 = dims.length ↔
      after = [] := by
    obtain ⟨count, isCount⟩ := Nat.exists_eq_succ_of_ne_zero positive.ne'
    rw [length, isCount, List.range'_concat, List.getLastD_concat, ← List.length_eq_zero_iff]
    omega
  unfold canonicalize
  dsimp only
  rw [permutationOf_eq noBatch, all, start, stop, if_neg (by omega), if_neg (by omega),
    Nat.add_sub_cancel_left, if_neg nonempty, if_neg nonempty, if_neg nonempty]
  rw [← isDims] at part
  have rows : dims.length - (before.length + region.length) = after.length := by omega
  have column : decide (List.range' before.length region.length ≠ [] ∧
      (List.range' before.length region.length).getLastD 0 + 1 = dims.length) =
        decide (after = []) := by
    rw [decide_eq_decide, last]
    exact and_iff_right nonempty
  rw [part fun dim => if dim.kind = .indexed then dim.column else -1, part OperandDim.size,
    part OperandDim.window, rows, column]

theorem size_parts : (canonicalize dims).B = (before.map (·.size)).prod ∧
    (canonicalize dims).rowDims.map (canonicalize dims).size = after.map (·.size) := by
  have first := map_range_part OperandDim.size OperandDim.empty [] before (region ++ after)
  have last := map_range_part OperandDim.size OperandDim.empty (before ++ region) after []
  rw [List.length_nil, ← List.range_eq_range', List.nil_append, ← List.append_assoc,
    ← isDims] at first
  rw [List.append_nil, ← isDims, List.length_append] at last
  rw [canonicalize_eq isDims isRegion start stop noBatch]
  exact ⟨congrArg List.prod first, last⟩

theorem row_parts : (canonicalize dims).rowDims = [] ↔ after = [] := by
  rw [canonicalize_eq isDims isRegion start stop noBatch]
  simp

theorem tableShape_eq : (canonicalize dims).tableShape =
    tableOf (before.map (·.size)) (region.map (·.size)) (after.map (·.size)) := by
  obtain ⟨batches, rows⟩ := size_parts isDims isRegion start stop noBatch
  have noRows := row_parts isDims isRegion start stop noBatch
  have layout := canonicalize_eq isDims isRegion start stop noBatch
  have sizes : (canonicalize dims).sizes = region.map (·.size) := by rw [layout]
  have column : (canonicalize dims).column = decide (after = []) := by rw [layout]
  unfold tableOf Canonical.tableShape Canonical.N Canonical.rowComponents Canonical.rowSizes
  rw [batches, rows, sizes, column]
  by_cases isEnd : after = []
  · simp [isEnd, List.dropLast_eq_take]
  · simp [isEnd, noRows, List.take_of_length_le]

theorem gatheredShape_eq (positions : Nat) : (canonicalize dims).gatheredShape positions =
    gatheredOf positions (before.map (·.size)) (region.map (·.window)) (after.map (·.size)) := by
  obtain ⟨batches, rows⟩ := size_parts isDims isRegion start stop noBatch
  have noRows := row_parts isDims isRegion start stop noBatch
  have layout := canonicalize_eq isDims isRegion start stop noBatch
  have sizes : (canonicalize dims).sizes = region.map (·.size) := by rw [layout]
  have windows : (canonicalize dims).windows = region.map (·.window) := by rw [layout]
  have column : (canonicalize dims).column = decide (after = []) := by rw [layout]
  unfold gatheredOf Canonical.gatheredShape Canonical.W Canonical.columnWindow Canonical.rowComponents
    Canonical.rowSizes
  rw [batches, rows, sizes, windows, column]
  by_cases isEnd : after = []
  · simp [isEnd, List.dropLast_eq_take]
  · simp [isEnd, noRows, List.take_of_length_le]

end Layout

end Libtt.IndexedRows

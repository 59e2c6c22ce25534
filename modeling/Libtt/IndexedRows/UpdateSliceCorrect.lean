import Libtt.IndexedRows.UpdateSlice
import Libtt.IndexedRows.Windows

/-!
# Dynamic update slices onto the rows ops keep the meaning

The update is the window of one position. Its elements, in their order, are those of the window of
the rows op, batch by batch, and each goes to the element of the table that has the number of the
operand's element there.
-/
namespace Libtt.IndexedRows

open Libtt.Foundation Libtt.StableHlo

variable {α : Type} {type : IntegerType} {indices : Tensor type.Word} {b s w t r u : List Nat}

/-- Where the window starts in the operand. -/
def startsOf (b t r : List Nat) : List Nat :=
  List.replicate b.length 0 ++ t ++ List.replicate r.length 0

/-- The one position of indices, and its window. -/
structure OnePosition (type : IntegerType) (indices : Tensor type.Word) (s w t : List Nat)
    (column : Bool) : Prop where
  positions : indices.shape.getD 2 0 = 1
  nonempty : s ≠ []
  windows : w.length = s.length
  starts : t.length = s.length
  components : ∀ batch, (Rows.mk s w column).components type indices batch 0 = t.map Int.ofNat
  fits : ∀ k < s.length, t.getD k 0 + w.getD k 0 ≤ s.getD k 0

theorem zipWith_startsOf {first middle last : List Nat} (isFirst : first.length = b.length)
    (isMiddle : middle.length = t.length) (isLast : last.length = r.length) :
    List.zipWith (· + ·) (startsOf b t r) (first ++ middle ++ last) =
      first ++ List.zipWith (· + ·) t middle ++ last := by
  rw [startsOf, List.zipWith_append (by simp [isFirst, isMiddle]),
    List.zipWith_append (by simp [isFirst]), zipWith_zeros_add first isFirst,
    zipWith_zeros_add last isLast]

namespace OnePosition

variable {column : Bool} (one : OnePosition type indices s w t column)

include one

theorem clamped (batch : Nat) : (Rows.mk s w column).clamped type indices batch 0 = t :=
  clamped_eq one.windows one.starts (one.components batch) one.fits

theorem inBounds (batch : Nat) : (Rows.mk s w column).InBounds type indices batch 0 :=
  inBounds_of_clamped (one.clamped batch) (one.components batch)

theorem window_within {middle : List Nat} (inside : Within middle w) :
    Within (List.zipWith (· + ·) t middle) s := by
  obtain ⟨length, each⟩ := within_iff_getD.mp inside
  have starts := one.starts
  have windows := one.windows
  rw [within_iff_getD]
  refine ⟨by simp [length, starts, windows], fun k less => ?_⟩
  have below := each k (by omega)
  have fit := one.fits k less
  rw [List.getD_eq_getElem _ _ (by omega)] at below
  rw [List.getD_eq_getElem _ _ (by omega)] at fit
  rw [List.getD_eq_getElem _ _ (by simp; omega), List.getElem_zipWith]
  omega

end OnePosition

/-- The number of an element of a page, of one batch. -/
theorem position_page (first row l batches rows width : Nat) :
    position [batches, rows, width] [first, row, l] =
      position [batches, rows * width] [first, row * width + l] := by
  simp only [position, List.prod_cons, List.prod_nil]
  ring

theorem position_last {x : List Nat} (isRow : Within x s) (l size : Nat) :
    position (s ++ [size]) (x ++ [l]) = position s x * size + l := by
  rw [position_append isRow]
  simp [position]

/-- The place of an element of the update, in a page whose columns are addressed. -/
theorem OnePosition.place_columns {size width start l : Nat} {first middle : List Nat}
    (one : OnePosition type indices (s ++ [size]) (w ++ [width]) (t ++ [start]) true)
    (isFirst : Within first b) (isMiddle : Within middle w) (less : l < width) :
    (Rows.mk (s ++ [size]) (w ++ [width]) true).target type indices
        (coordinates (gatheredOf 1 b (w ++ [width]) [])
          (position [b.prod, (w ++ [width]).prod]
            [position b first, position (w ++ [width]) (middle ++ [l])])) =
      coordinates (tableOf b (s ++ [size]) []) (position [b.prod, (s ++ [size]).prod]
        [position b first, position (s ++ [size])
          (List.zipWith (· + ·) (t ++ [start]) (middle ++ [l]))]) ∧
    (Rows.mk (s ++ [size]) (w ++ [width]) true).positionOf
      (coordinates (gatheredOf 1 b (w ++ [width]) [])
        (position [b.prod, (w ++ [width]).prod]
          [position b first, position (w ++ [width]) (middle ++ [l])])) = 0 := by
  have windows : w.length = s.length := by simpa using one.windows
  have starts : t.length = s.length := by simpa using one.starts
  have length : t.length = middle.length := by rw [isMiddle.length, windows, starts]
  have isWhole : Within (middle ++ [l]) (w ++ [width]) :=
    List.rel_append isMiddle (.cons less .nil)
  have moved := one.window_within isWhole
  rw [List.zipWith_append length] at moved ⊢
  obtain ⟨x, last, after, isSplit, isRow, below, isNil⟩ := within_split.mp moved
  cases isNil
  obtain ⟨rfl, isLast⟩ := List.append_inj' isSplit rfl
  cases isLast
  have gathered : Within [position b first, position w middle * width + l]
      [b.prod, w.prod * width] := by
    have column := position_lt isWhole
    rw [position_last isMiddle, List.prod_append, List.prod_singleton] at column
    exact .cons (position_lt isFirst) (.cons column .nil)
  have table : Within [position b first, position s (List.zipWith (· + ·) t middle), start + l]
      [b.prod, s.prod, size] :=
    .cons (position_lt isFirst) (.cons (position_lt isRow) (.cons below .nil))
  have clamped := one.clamped (position b first)
  have target := target_columns windows isMiddle less clamped starts
  have positionOf : (Rows.mk (s ++ [size]) (w ++ [width]) true).positionOf
      [position b first, (0 * w.prod + position w middle) * width + l] = 0 :=
    positionOf_columns windows isMiddle less (position b first)
  rw [Nat.zero_mul, Nat.zero_add] at target positionOf
  rw [gatheredOf, tableOf, if_pos rfl, if_pos rfl, List.dropLast_concat, List.dropLast_concat,
    List.getLastD_concat, List.getLastD_concat, position_last isMiddle, List.zipWith_cons_cons,
    List.zipWith_nil_left, position_last isRow, List.prod_append, List.prod_append,
    List.prod_singleton, List.prod_singleton, Nat.one_mul, coordinates_position gathered,
    ← position_page, coordinates_position table]
  exact ⟨target, positionOf⟩

namespace OnePosition

variable {column : Bool} (one : OnePosition type indices s w t column)

include one

/-- The place of an element of the update, and that it is in bounds. -/
theorem place (inside : Within u (b ++ w ++ r)) (isColumn : column = decide (r = [])) :
    (Rows.mk s w column).target type indices
        (coordinates (gatheredOf 1 b w r) (position (b ++ w ++ r) u)) =
      coordinates (tableOf b s r)
        (position (b ++ s ++ r) (List.zipWith (· + ·) (startsOf b t r) u)) ∧
    (Rows.mk s w column).positionOf
      (coordinates (gatheredOf 1 b w r) (position (b ++ w ++ r) u)) = 0 := by
  obtain ⟨front, last, rfl, isFront, isLast⟩ := within_append.mp inside
  obtain ⟨first, middle, rfl, isFirst, isMiddle⟩ := within_append.mp isFront
  have length : middle.length = t.length := by rw [isMiddle.length, one.windows, one.starts]
  have moved := one.window_within isMiddle
  have clamped := one.clamped (position b first)
  rw [zipWith_startsOf isFirst.length length isLast.length, position_group isFirst isMiddle,
    position_group isFirst moved]
  subst isColumn
  by_cases isEnd : r = []
  · subst isEnd
    obtain ⟨s, size, rfl⟩ := (List.eq_nil_or_concat s).resolve_left one.nonempty
    obtain ⟨windows, starts⟩ := And.intro one.windows one.starts
    obtain ⟨w, width, rfl⟩ := (List.eq_nil_or_concat w).resolve_left fun none => by
      simp [none] at windows
    obtain ⟨t, start, rfl⟩ := (List.eq_nil_or_concat t).resolve_left fun none => by
      simp [none] at starts
    simp only [List.concat_eq_append] at one isMiddle ⊢
    obtain ⟨middle, l, after, rfl, isRow, less, isNil⟩ := within_split.mp isMiddle
    cases isNil
    cases isLast
    exact one.place_columns isFirst isRow less
  · have page : Within (position b first :: position w middle :: last) (b.prod :: w.prod :: r) :=
      .cons (position_lt isFirst) (.cons (position_lt isMiddle) isLast)
    have table : Within (position b first :: position s (List.zipWith (· + ·) t middle) :: last)
        (b.prod :: s.prod :: r) :=
      .cons (position_lt isFirst) (.cons (position_lt moved) isLast)
    rw [decide_eq_false isEnd] at clamped ⊢
    rw [gatheredOf, tableOf, if_neg isEnd, if_neg isEnd, Nat.one_mul, coordinates_position page,
      coordinates_position table]
    have target := target_rows one.windows isMiddle clamped one.starts last
    have position := positionOf_rows (m := 0) one.windows isMiddle (position b first) last
    rw [Nat.zero_mul, Nat.zero_add] at target position
    exact ⟨target, position⟩

theorem gatheredShape (isColumn : column = decide (r = [])) :
    (Rows.mk s w column).gatheredShape type indices (tableOf b s r) = gatheredOf 1 b w r := by
  have windows := one.windows
  unfold Rows.gatheredShape Rows.window Rows.columnWindow Rows.rowWindows Rows.rowComponents
  rw [one.positions]
  subst isColumn
  by_cases isEnd : r = []
  · simp [isEnd, tableOf, gatheredOf, ← windows, List.dropLast_eq_take]
  · simp [isEnd, tableOf, gatheredOf, ← windows]

end OnePosition

theorem prod_dropLast (l : List Nat) : l.dropLast.prod * l.getLastD 1 = l.prod := by
  rcases List.eq_nil_or_concat l with rfl | ⟨l, last, rfl⟩
  · rfl
  · simp

theorem tableOf_prod (b s r : List Nat) : (tableOf b s r).prod = (b ++ s ++ r).prod := by
  have page := prod_dropLast s
  unfold tableOf
  split
  · rename_i isEnd
    rw [isEnd, List.append_nil, List.prod_append, ← page]
    simp
  · simp

theorem gatheredOf_prod (b w r : List Nat) : (gatheredOf 1 b w r).prod = (b ++ w ++ r).prod := by
  have page := prod_dropLast w
  unfold gatheredOf
  split
  · rename_i isEnd
    rw [isEnd, List.append_nil, List.prod_append, ← page]
    simp
  · simp

/-- The element of the table with the number of an operand's element. -/
def tableElement (b s r x : List Nat) : List Nat :=
  coordinates (tableOf b s r) (position (b ++ s ++ r) x)

theorem tableElement_position {x : List Nat} (inside : Within x (b ++ s ++ r)) :
    position (tableOf b s r) (tableElement b s r x) = position (b ++ s ++ r) x :=
  position_coordinates (by rw [tableOf_prod]; exact position_lt inside)

theorem tableElement_injective {x y : List Nat} (inside : Within x (b ++ s ++ r))
    (insideOther : Within y (b ++ s ++ r))
    (same : tableElement b s r x = tableElement b s r y) : x = y := by
  refine position_injective inside insideOther ?_
  rw [← tableElement_position inside, same, tableElement_position insideOther]

theorem tableElement_data {operand : Tensor α} (isOperand : operand.shape = b ++ s ++ r)
    {x : List Nat} (inside : Within x (b ++ s ++ r)) :
    (operand.reshape (tableOf b s r)).data (tableElement b s r x) = operand.data x := by
  have less : position (b ++ s ++ r) x < (tableOf b s r).prod := by
    rw [tableOf_prod]
    exact position_lt inside
  rw [tableElement, Tensor.reshape_data (coordinates_within less)
    (by rw [tableOf_prod, isOperand]), position_coordinates less, ← isOperand,
    ← Tensor.data_eq _ (isOperand ▸ inside)]

section Scatter

variable {column : Bool} {operand update : Tensor α} {x : List Nat}
  (one : OnePosition type indices s w t column) (isColumn : column = decide (r = []))
  (isUpdate : update.shape = b ++ w ++ r)

include one isColumn isUpdate in
/-- The updates of the one position, as those of the operand's elements. -/
theorem window_updates : (Rows.mk s w column).updates type indices (tableOf b s r)
      (update.reshape (gatheredOf 1 b w r)) =
    ((StableHlo.indices (b ++ w ++ r)).map fun u =>
      (List.zipWith (· + ·) (startsOf b t r) u, update.data u)).map
        fun written => (tableElement b s r written.1, written.2) := by
  have volume := gatheredOf_prod b w r
  unfold Rows.updates
  rw [one.gatheredShape isColumn, indices_eq, indices_eq, List.filter_map, List.map_map,
    List.map_map, List.map_map, volume, List.filter_eq_self.mpr]
  · refine List.map_congr_left fun n member => ?_
    have less := List.mem_range.mp member
    have inside := coordinates_within less
    have place := (one.place inside isColumn).1
    rw [position_coordinates less] at place
    have page : Within (coordinates (gatheredOf 1 b w r) n) (gatheredOf 1 b w r) :=
      coordinates_within (volume ▸ less)
    simp only [Function.comp_apply]
    rw [place, Tensor.reshape_data page (by rw [volume, isUpdate]),
      position_coordinates (volume ▸ less), Tensor.element, isUpdate]
    rfl
  · intro n member
    have less := List.mem_range.mp member
    have position := (one.place (coordinates_within less) isColumn).2
    rw [position_coordinates less] at position
    simp only [Function.comp_apply, position, decide_eq_true_eq]
    exact one.inBounds _

include one in
theorem moved_within_operand (inside : Within u (b ++ w ++ r)) :
    Within (List.zipWith (· + ·) (startsOf b t r) u) (b ++ s ++ r) := by
  obtain ⟨front, last, rfl, isFront, isLast⟩ := within_append.mp inside
  obtain ⟨first, middle, rfl, isFirst, isMiddle⟩ := within_append.mp isFront
  have length : middle.length = t.length := by rw [isMiddle.length, one.windows, one.starts]
  rw [zipWith_startsOf isFirst.length length isLast.length]
  exact List.rel_append (List.rel_append isFirst (one.window_within isMiddle)) isLast

/-- An index is at one place from the starts only. -/
theorem zipWith_add_injective {starts x y : List Nat} (length : x.length = starts.length)
    (lengthOther : y.length = starts.length)
    (same : List.zipWith (· + ·) starts x = List.zipWith (· + ·) starts y) : x = y := by
  refine List.ext_getElem (length.trans lengthOther.symm) fun k less below => ?_
  have each := congrArg (·.getD k 0) same
  rw [List.getD_eq_getElem _ _ (by simp; omega), List.getD_eq_getElem _ _ (by simp; omega),
    List.getElem_zipWith, List.getElem_zipWith] at each
  omega

include one isColumn isUpdate

variable (isOperand : operand.shape = b ++ s ++ r)

include isOperand

/-- What the scatter leaves at an element of the operand. -/
theorem scatter_element (inside : Within x (b ++ s ++ r)) :
    (((Rows.mk s w column).scatter type indices (fun _ new => new)
        (operand.reshape (tableOf b s r)) (update.reshape (gatheredOf 1 b w r))).reshape
          (b ++ s ++ r)).data x =
      (valuesAt x ((StableHlo.indices (b ++ w ++ r)).map fun u =>
        (List.zipWith (· + ·) (startsOf b t r) u, update.data u))).foldl (fun _ new => new)
          (operand.data x) := by
  have key : coordinates (tableOf b s r) (position (b ++ s ++ r) x) = tableElement b s r x := rfl
  rw [Tensor.reshape_data inside (by simp [tableOf_prod]), Tensor.element, Rows.scatter_shape,
    Tensor.reshape_shape, key, Rows.scatter_data, Tensor.reshape_shape,
    window_updates one isColumn isUpdate, valuesAt_map, tableElement_data isOperand inside]
  intro other member same
  rw [List.map_map] at member
  obtain ⟨u, isIndex, rfl⟩ := List.mem_map.mp member
  exact tableElement_injective (moved_within_operand one (mem_indices.mp isIndex)) inside same

/-- An element of the update is written where it is moved to. -/
theorem scatter_hit (inside : Within u (b ++ w ++ r)) :
    (((Rows.mk s w column).scatter type indices (fun _ new => new)
        (operand.reshape (tableOf b s r)) (update.reshape (gatheredOf 1 b w r))).reshape
          (b ++ s ++ r)).data (List.zipWith (· + ·) (startsOf b t r) u) = update.data u := by
  have length {v : List Nat} (inside : Within v (b ++ w ++ r)) :
      v.length = (startsOf b t r).length := by
    rw [inside.length, startsOf]
    simp [one.windows, one.starts]
  rw [scatter_element one isColumn isUpdate isOperand (moved_within_operand one inside),
    valuesAt_of_nodup]
  · rfl
  · rw [List.map_map]
    refine List.Nodup.map_on (fun v isIndex v' isIndex' same => ?_) (nodup_indices _)
    exact zipWith_add_injective (length (mem_indices.mp isIndex)) (length (mem_indices.mp isIndex'))
      same
  · exact List.mem_map.mpr ⟨u, mem_indices.mpr inside, rfl⟩

/-- The other elements stay. -/
theorem scatter_miss (inside : Within x (b ++ s ++ r))
    (apart : ∀ u, Within u (b ++ w ++ r) → List.zipWith (· + ·) (startsOf b t r) u ≠ x) :
    (((Rows.mk s w column).scatter type indices (fun _ new => new)
        (operand.reshape (tableOf b s r)) (update.reshape (gatheredOf 1 b w r))).reshape
          (b ++ s ++ r)).data x = operand.data x := by
  rw [scatter_element one isColumn isUpdate isOperand inside, valuesAt_of_not_mem]
  · rfl
  · rw [List.map_map]
    intro member
    obtain ⟨u, isIndex, moved⟩ := List.mem_map.mp member
    exact apart u (mem_indices.mp isIndex) moved

end Scatter

theorem half_le_largest (type : IntegerType) : 2 ^ 31 - 1 ≤ (asInt32Type type).largest := by
  unfold IntegerType.largest
  split
  · exact Nat.le_refl (2 ^ 31 - 1)
  · exact (by decide : 2 ^ 31 - 1 ≤ 2 ^ 32 - 1)

/-- An index of at most 32 bits keeps its value. -/
theorem asInt32_read (narrow : type.width ≤ 32) (operand : Tensor type.Word) (c : List Nat) :
    (asInt32Type type).read ((asInt32 type operand).data c) = type.read (operand.data c) := by
  obtain ⟨width, signed, positive⟩ := type
  replace narrow : width ≤ 32 := narrow
  by_cases whole : width = 32
  · subst whole
    unfold asInt32 asInt32Type IntegerType.read
    simp [Tensor.map]
  · have fits : 2 ^ (width - 1) ≤ 2 ^ 31 := Nat.pow_le_pow_right two_pos (by omega)
    have fitsAll : 2 ^ width ≤ 2 ^ 31 := Nat.pow_le_pow_right two_pos (by omega)
    have low := IntegerType.least_le_read (operand.data c)
    have high := IntegerType.read_le_largest (operand.data c)
    have value : (asInt32 ⟨width, signed, positive⟩ operand).data c =
        (asInt32Type ⟨width, signed, positive⟩).constant
          (IntegerType.read ⟨width, signed, positive⟩ (operand.data c)) := by
      unfold asInt32
      rw [if_neg whole]
      rfl
    rw [value, IntegerType.read_constant]
    · have least : (asInt32Type ⟨width, signed, positive⟩).least = -2 ^ 31 := by
        simp [IntegerType.least, whole]
      have half : (2 : Int) ^ (width - 1) ≤ 2 ^ 31 := by exact_mod_cast fits
      rw [least]
      unfold IntegerType.least at low
      split at low
      · exact (neg_le_neg half).trans low
      · exact (by decide : -2 ^ 31 ≤ (0 : Int)).trans low
    · have large := half_le_largest ⟨width, signed, positive⟩
      have number : IntegerType.largest ⟨width, signed, positive⟩ ≤ 2 ^ 31 - 1 := by
        unfold IntegerType.largest
        split
        · exact Nat.sub_le_sub_right fits 1
        · exact Nat.sub_le_sub_right fitsAll 1
      exact high.trans (by exact_mod_cast number.trans large)

/-- Where an update starts in a dimension, read from its column. -/
theorem startColumn_read (narrow : type.width ≤ 32) {start : Tensor type.Word}
    (scalar : start.shape = []) {size window : Nat} (fits : window ≤ size)
    (bound : size - window < 2 ^ 31) :
    (asInt32Type type).read ((startColumn type start size window).data [0, 0]) =
      min (max (type.read (start.data [])) 0) ((size : Int) - window) := by
  have one : Within [0, 0] [1, 1] := by decide
  have element : (start.reshape [1, 1]).data [0, 0] = start.data [] := by
    rw [Tensor.reshape_data one (by simp [scalar]), Tensor.element, scalar]
    rfl
  have high : (i32Attr ((size : Int) - window)).toInt = (size : Int) - window := by
    rw [i32Attr, BitVec.toInt_ofInt, Int.bmod_eq_of_le (by omega) (by omega)]
  have large := half_le_largest type
  have least := (asInt32Type type).least_le
  unfold startColumn clampScalar
  rw [Tensor.map]
  dsimp only
  have zero : (i32Attr 0).toInt = 0 := by decide
  rw [asInt32_read narrow, element, high, zero]
  exact IntegerType.read_constant (by omega) (by omega)

/-- The column of a dimension, zero where it is not indexed. -/
def columnOf (columns : List (Tensor (BitVec 32))) (dim : OperandDim) : Tensor (BitVec 32) :=
  if dim.kind = .indexed then columns.getD dim.column.toNat (full [1, 1] (i32Attr 0))
  else full [1, 1] (i32Attr 0)

section Dims

variable {operandShape updateShape : List Nat} {startIndices : List (Tensor type.Word)}
  {found : List OperandDim × List (Tensor (BitVec 32))} {count d : Nat}

/-- What the loop has found after some dimensions. -/
structure Found (operandShape updateShape : List Nat) (startIndices : List (Tensor type.Word))
    (found : List OperandDim × List (Tensor (BitVec 32))) (count : Nat) : Prop where
  length : found.1.length = count
  size : ∀ d < count, (found.1.getD d .empty).size = operandShape.getD d 0
  window : ∀ d < count, (found.1.getD d .empty).window = updateShape.getD d 0
  kind : ∀ d < count,
    (found.1.getD d .empty).kind = .free ∧
        adjustedStart type startIndices operandShape updateShape d = 0 ∨
      (found.1.getD d .empty).kind = .indexed ∧ ∃ (j : Nat) (start : Tensor type.Word),
        (found.1.getD d .empty).column = j ∧ startIndices[d]? = some start ∧
        found.2[j]? =
          some (startColumn type start (operandShape.getD d 0) (updateShape.getD d 0))

/-- One more dimension, and maybe its column. -/
theorem Found.add (before : Found operandShape updateShape startIndices found count)
    (dim : OperandDim) (more : List (Tensor (BitVec 32)))
    (size : dim.size = operandShape.getD count 0) (window : dim.window = updateShape.getD count 0)
    (kind : dim.kind = .free ∧
        adjustedStart type startIndices operandShape updateShape count = 0 ∨
      dim.kind = .indexed ∧ ∃ (j : Nat) (start : Tensor type.Word),
        dim.column = j ∧ startIndices[count]? = some start ∧ (found.2 ++ more)[j]? =
          some (startColumn type start (operandShape.getD count 0) (updateShape.getD count 0))) :
    Found operandShape updateShape startIndices (found.1 ++ [dim], found.2 ++ more)
      (count + 1) := by
  have earlier {d : Nat} (less : d < count) :
      (found.1 ++ [dim]).getD d .empty = found.1.getD d .empty :=
    List.getD_append _ _ _ _ (before.length.symm ▸ less)
  have this : (found.1 ++ [dim]).getD count .empty = dim := by
    rw [List.getD_append_right _ _ _ _ before.length.le, before.length, Nat.sub_self,
      List.getD_cons_zero]
  refine ⟨by simp [before.length], fun d less => ?_, fun d less => ?_, fun d less => ?_⟩
  all_goals rcases Nat.lt_succ_iff_lt_or_eq.mp less with less | rfl
  · rw [earlier less, before.size d less]
  · rw [this, size]
  · rw [earlier less, before.window d less]
  · rw [this, window]
  · rw [earlier less]
    refine (before.kind d less).imp_right fun indexed => ⟨indexed.1, ?_⟩
    obtain ⟨j, start, isColumn, isStart, isFound⟩ := indexed.2
    refine ⟨j, start, isColumn, isStart, ?_⟩
    rw [List.getElem?_append_left (List.getElem?_eq_some_iff.mp isFound).1, isFound]
  · rw [this]
    exact kind

/-- A turn of the loop finds one dimension. -/
theorem Found.addDim (before : Found operandShape updateShape startIndices found count) :
    Found operandShape updateShape startIndices
      (addDim type operandShape updateShape startIndices found count) (count + 1) := by
  unfold IndexedRows.addDim
  dsimp only
  split
  · rename_i none
    have free := before.add { kind := .free, window := _, size := _ } [] rfl rfl
      (.inl ⟨rfl, by rw [adjustedStart, none]⟩)
    rwa [List.append_nil] at free
  · rename_i start isStart
    split
    · exact before.add _ _ rfl rfl (.inr ⟨rfl, found.2.length, start, rfl, isStart, by simp⟩)
    · rename_i same
      have free := before.add { kind := .free, window := _, size := _ } [] rfl rfl
        (.inl ⟨rfl, by rw [adjustedStart, isStart, not_not.mp same]; simp⟩)
      rwa [List.append_nil] at free

/-- Every dimension is found. -/
theorem updateDims_found (type : IntegerType) (operandShape updateShape : List Nat)
    (startIndices : List (Tensor type.Word)) :
    Found operandShape updateShape startIndices
      (updateDims type operandShape updateShape startIndices) operandShape.length := by
  unfold updateDims
  generalize operandShape.length = count
  induction count with
  | zero =>
    exact ⟨rfl, fun d less => (nomatch less), fun d less => (nomatch less),
      fun d less => (nomatch less)⟩
  | succ count ih =>
    rw [List.range_succ, List.foldl_append, List.foldl_cons, List.foldl_nil]
    exact ih.addDim

/-- Where the update starts in a dimension. -/
def startAt (type : IntegerType) (columns : List (Tensor (BitVec 32))) (dim : OperandDim) : Nat :=
  ((asInt32Type type).read ((columnOf columns dim).data [0, 0])).toNat

/-- The update fits the operand, and where it may start fits the attributes. -/
structure UpdateFits (operandShape updateShape : List Nat) (startIndices : List (Tensor type.Word)) :
    Prop where
  narrow : type.width ≤ 32
  length : updateShape.length = operandShape.length
  scalar : ∀ start ∈ startIndices, start.shape = []
  fits : ∀ d < operandShape.length, updateShape.getD d 0 ≤ operandShape.getD d 0
  bound : ∀ d < operandShape.length, operandShape.getD d 0 - updateShape.getD d 0 < 2 ^ 31

section Fits

variable (fits : UpdateFits operandShape updateShape startIndices)
  (isFound : Found operandShape updateShape startIndices found operandShape.length)

include fits isFound

/-- The column of a dimension, and where the update starts there. -/
theorem column_read (less : d < operandShape.length) :
    (columnOf found.2 (found.1.getD d .empty)).shape = [1, 1] ∧
    (asInt32Type type).read ((columnOf found.2 (found.1.getD d .empty)).data [0, 0]) =
      adjustedStart type startIndices operandShape updateShape d ∧
    adjustedStart type startIndices operandShape updateShape d + updateShape.getD d 0 ≤
      operandShape.getD d 0 := by
  have fit := fits.fits d less
  rcases isFound.kind d less with ⟨isFree, start⟩ | ⟨isIndexed, j, start, isColumn, isStart, atJ⟩
  · have zero : (asInt32Type type).read (i32Attr 0) = (0 : Nat) := by
      unfold IntegerType.read
      split <;> rfl
    rw [columnOf, isFree, if_neg (by decide), start, Nat.zero_add]
    exact ⟨rfl, zero, fit⟩
  · have scalar := fits.scalar start (List.mem_of_getElem? isStart)
    have read := startColumn_read fits.narrow scalar fit (fits.bound d less)
    rw [columnOf, isIndexed, if_pos rfl, isColumn, Int.toNat_natCast, List.getD_eq_getElem?_getD,
      atJ, Option.getD_some, read, adjustedStart, isStart]
    refine ⟨asInt32_shape _, ?_, ?_⟩
    · exact (Int.toNat_of_nonneg (by omega)).symm
    · dsimp only
      omega

theorem startAt_eq (less : d < operandShape.length) :
    startAt type found.2 (found.1.getD d .empty) =
      adjustedStart type startIndices operandShape updateShape d := by
  rw [startAt, (column_read fits isFound less).2.1, Int.toNat_natCast]

omit fits in
/-- A dimension that needs no component is covered by the update. -/
theorem covered (less : d < operandShape.length)
    (needs : (found.1.getD d .empty).needsComponent = false) :
    updateShape.getD d 0 = operandShape.getD d 0 ∧
      adjustedStart type startIndices operandShape updateShape d = 0 := by
  have size := isFound.size d less
  have window := isFound.window d less
  have kind := isFound.kind d less
  generalize found.1.getD d .empty = dim at *
  rcases kind with ⟨isFree, start⟩ | ⟨isIndexed, -⟩
  · refine ⟨?_, start⟩
    simpa [OperandDim.needsComponent, isFree, size, window] using needs
  · simp [OperandDim.needsComponent, isIndexed] at needs

omit fits in
/-- A property of the found dimensions, place by place. -/
theorem Found.all {p : OperandDim → Prop} (each : ∀ d < operandShape.length,
    p (found.1.getD d .empty)) : ∀ dim ∈ found.1, p dim := by
  intro dim member
  obtain ⟨d, less, rfl⟩ := List.mem_iff_getElem.mp member
  have one := each d (isFound.length ▸ less)
  rwa [List.getD_eq_getElem _ _ less] at one

omit fits in
theorem no_batch : ∀ dim ∈ found.1, dim.kind ≠ .batch := by
  refine isFound.all fun d less isBatch => ?_
  have kind := isFound.kind d less
  rw [isBatch] at kind
  rcases kind with ⟨isFree, -⟩ | ⟨isIndexed, -⟩
  · cases isFree
  · cases isIndexed

theorem covered_all : ∀ dim ∈ found.1, dim.needsComponent = false →
    dim.window = dim.size ∧ startAt type found.2 dim = 0 := by
  refine isFound.all fun d less needs => ?_
  obtain ⟨window, start⟩ := covered isFound less needs
  rw [isFound.size d less, isFound.window d less, startAt_eq fits isFound less]
  exact ⟨window, start⟩

theorem column_all : ∀ dim ∈ found.1, (columnOf found.2 dim).shape = [1, 1] ∧
    (asInt32Type type).read ((columnOf found.2 dim).data [0, 0]) = startAt type found.2 dim ∧
    startAt type found.2 dim + dim.window ≤ dim.size := by
  refine isFound.all fun d less => ?_
  obtain ⟨shape, read, fit⟩ := column_read fits isFound less
  rw [isFound.size d less, isFound.window d less, startAt_eq fits isFound less]
  exact ⟨shape, read, fit⟩

omit fits in
/-- What is found of each dimension, as a whole. -/
theorem Found.map_eq {f : OperandDim → Nat} {l : List Nat} (length : l.length = operandShape.length)
    (each : ∀ d < operandShape.length, f (found.1.getD d .empty) = l.getD d 0) :
    found.1.map f = l := by
  refine List.ext_getElem (by rw [List.length_map, isFound.length, length]) fun d bound less => ?_
  have one := each d (length ▸ less)
  rw [List.length_map] at bound
  rwa [List.getD_eq_getElem _ _ less, List.getD_eq_getElem _ _ bound, ← List.getElem_map f] at one

end Fits

end Dims

/-- Columns one behind the other. -/
theorem concat_columns (first : Tensor α) (rest : List (Tensor α)) {n : Nat}
    (isFirst : first.shape = [1, n]) (isRest : ∀ column ∈ rest, column.shape = [1, 1]) :
    (rest.foldl (concat 1) first).shape = [1, n + rest.length] ∧
    (∀ k < n, (rest.foldl (concat 1) first).data [0, k] = first.data [0, k]) ∧
    ∀ (k : Nat) (less : k < rest.length),
      (rest.foldl (concat 1) first).data [0, n + k] = rest[k].data [0, 0] := by
  induction rest generalizing first n with
  | nil => exact ⟨isFirst, fun k less => rfl, fun k less => (nomatch less)⟩
  | cons column rest ih =>
    have isColumn := isRest column List.mem_cons_self
    have shape : (concat 1 first column).shape = [1, n + 1] := by
      simp [concat, isFirst, isColumn]
    obtain ⟨all, front, back⟩ := ih (concat 1 first column) shape fun other member =>
      isRest other (List.mem_cons_of_mem _ member)
    rw [List.foldl_cons]
    refine ⟨by rw [all, List.length_cons, Nat.add_right_comm, Nat.add_assoc], fun k less => ?_,
      fun k less => ?_⟩
    · rw [front k (by omega)]
      simp [concat, isFirst, less]
    · cases k with
      | zero =>
        rw [Nat.add_zero, front n (by omega)]
        simp [concat, isFirst]
      | succ k =>
        have later := back k (by simpa using less)
        rw [Nat.add_assoc, Nat.add_comm 1 k] at later
        exact later

/-- The indices of one position hold the first element of each column. -/
theorem startIndicesPage_data {columns : List (Tensor (BitVec 32))} (nonempty : columns ≠ [])
    (isColumns : ∀ column ∈ columns, column.shape = [1, 1]) {k : Nat} (less : k < columns.length) :
    (startIndicesPage columns).data [0, k, 0] = columns[k].data [0, 0] := by
  cases columns with
  | nil => exact absurd rfl nonempty
  | cons first rest =>
    obtain ⟨shape, front, back⟩ := concat_columns first rest
      (isColumns first List.mem_cons_self) fun column member =>
        isColumns column (List.mem_cons_of_mem _ member)
    have line : Within [0, k] [1, 1 + rest.length] := by
      rw [Nat.add_comm]
      exact .cons Nat.one_pos (.cons less .nil)
    have page : Within [0, k, 0] [1, (first :: rest).length, 1] :=
      .cons Nat.one_pos (.cons less (.cons Nat.one_pos .nil))
    have element : (startIndicesPage (first :: rest)).data [0, k, 0] =
        (rest.foldl (concat 1) first).data [0, k] := by
      rw [startIndicesPage, List.tail_cons, List.headD_cons, Tensor.reshape_data page,
        Tensor.data_eq _ (shape ▸ line), shape]
      · simp [position]
      · rw [shape]
        simp [Nat.add_comm]
    rw [element]
    cases k with
    | zero => exact front 0 Nat.one_pos
    | succ k =>
      have later := back k (by simpa using less)
      rw [Nat.add_comm 1 k] at later
      exact later

section Whole

variable {operandShape updateShape : List Nat} {startIndices : List (Tensor type.Word)}
  {found : List OperandDim × List (Tensor (BitVec 32))} {before region after : List OperandDim}
  (fits : UpdateFits operandShape updateShape startIndices)
  (isFound : Found operandShape updateShape startIndices found operandShape.length)
  (isDims : found.1 = before ++ region ++ after) (isRegion : region ≠ [])

include fits isFound isDims isRegion

theorem one_position (column : Bool) :
    OnePosition (asInt32Type type) (startIndicesPage (region.map (columnOf found.2)))
      (region.map (·.size)) (region.map (·.window)) (region.map (startAt type found.2)) column := by
  have ofRegion : ∀ dim ∈ region, dim ∈ found.1 := fun dim member => by
    rw [isDims]
    exact List.mem_append_left _ (List.mem_append_right _ member)
  have column := column_all fits isFound
  refine ⟨rfl, by simpa using isRegion, by simp, by simp, fun batch => ?_, fun k less => ?_⟩
  · refine List.ext_getElem (by simp [Rows.components]) fun k bound less => ?_
    rw [List.length_map, List.length_map] at less
    have isColumns : ∀ column ∈ region.map (columnOf found.2), column.shape = [1, 1] := by
      intro other member
      obtain ⟨dim, isDim, rfl⟩ := List.mem_map.mp member
      exact (column dim (ofRegion dim isDim)).1
    have data := startIndicesPage_data (by simpa using isRegion) isColumns
      (k := k) (by simpa using less)
    have read := (column region[k] (ofRegion _ (List.getElem_mem less))).2.1
    have single : (startIndicesPage (region.map (columnOf found.2))).shape.getD 0 0 = 1 := rfl
    simp only [Rows.components, List.getElem_map, List.getElem_range]
    rw [if_pos single, data, List.getElem_map, read]
    rfl
  · rw [List.length_map] at less
    have fit := (column region[k] (ofRegion _ (List.getElem_mem less))).2.2
    rw [List.getD_eq_getElem _ _ (by simpa using less), List.getD_eq_getElem _ _ (by simpa using less),
      List.getD_eq_getElem _ _ (by simpa using less), List.getElem_map, List.getElem_map,
      List.getElem_map]
    exact fit

omit isRegion in
/-- Around the region the update covers the operand. -/
theorem parts (outside : ∀ dim ∈ before ++ after, dim.needsComponent = false) :
    operandShape = before.map (·.size) ++ region.map (·.size) ++ after.map (·.size) ∧
    updateShape = before.map (·.size) ++ region.map (·.window) ++ after.map (·.size) ∧
    (List.range operandShape.length).map
        (adjustedStart type startIndices operandShape updateShape) =
      startsOf (before.map (·.size)) (region.map (startAt type found.2)) (after.map (·.size)) := by
  have covered := covered_all fits isFound
  have size := isFound.map_eq (f := (·.size)) rfl isFound.size
  have window := isFound.map_eq (f := (·.window)) fits.length isFound.window
  have starts := isFound.map_eq (f := startAt type found.2)
    (l := (List.range operandShape.length).map
      (adjustedStart type startIndices operandShape updateShape)) (by simp) fun d less => by
        rw [startAt_eq fits isFound less, List.getD_eq_getElem _ _ (by simpa using less),
          List.getElem_map, List.getElem_range]
  have isCovered : ∀ dim ∈ before ++ after, dim.window = dim.size ∧ startAt type found.2 dim = 0 := by
    intro dim member
    refine covered dim ?_ (outside dim member)
    rw [isDims]
    rcases List.mem_append.mp member with isBefore | isAfter
    · exact List.mem_append_left _ (List.mem_append_left _ isBefore)
    · exact List.mem_append_right _ isAfter
  have same {part : List OperandDim} (isPart : part ⊆ before ++ after) :
      part.map (·.window) = part.map (·.size) :=
    List.map_congr_left fun dim member => (isCovered dim (isPart member)).1
  have zeros {part : List OperandDim} (isPart : part ⊆ before ++ after) :
      part.map (startAt type found.2) = List.replicate (part.map (·.size)).length 0 := by
    rw [List.length_map, List.eq_replicate_iff, List.length_map]
    refine ⟨rfl, fun start member => ?_⟩
    obtain ⟨dim, isDim, rfl⟩ := List.mem_map.mp member
    exact (isCovered dim (isPart isDim)).2
  rw [isDims, List.map_append, List.map_append] at size window starts
  rw [same (List.subset_append_left _ _), same (List.subset_append_right _ _)] at window
  rw [zeros (List.subset_append_left _ _), zeros (List.subset_append_right _ _)] at starts
  exact ⟨size.symm, window.symm, starts.symm⟩

end Whole

section Operation

variable {operand update : Tensor α} {startIndices : List (Tensor type.Word)} {x starts : List Nat}
  (length : update.shape.length = operand.shape.length)
  (isStarts : (List.range operand.shape.length).map
    (adjustedStart type startIndices operand.shape update.shape) = starts)

include length isStarts

/-- The operation writes an element of the update where it is moved to. -/
theorem dynamicUpdateSlice_hit (inside : Within u update.shape) :
    (dynamicUpdateSlice type operand update startIndices).data (List.zipWith (· + ·) starts u) =
      update.data u := by
  have count : starts.length = operand.shape.length := by simp [← isStarts]
  obtain ⟨lengthU, each⟩ := within_iff_getD.mp inside
  have back : List.zipWith (· - ·) (List.zipWith (· + ·) starts u) starts = u := by
    refine List.ext_getElem (by simp; omega) fun k bound less => ?_
    simp
  unfold dynamicUpdateSlice
  dsimp only
  rw [isStarts, if_pos, back]
  rw [List.all_eq_true]
  intro d member
  have less := List.mem_range.mp member
  have below := each d (by omega)
  have start := List.getD_eq_getElem starts 0 (by omega : d < starts.length)
  have sum : (List.zipWith (· + ·) starts u).getD d 0 = starts.getD d 0 + u.getD d 0 := by
    rw [List.getD_eq_getElem _ _ (by simp; omega), start, List.getD_eq_getElem u _ (by omega),
      List.getElem_zipWith]
  simp only [sum, decide_eq_true_eq]
  omega

/-- The operation leaves the other elements. -/
theorem dynamicUpdateSlice_miss (lengthX : x.length = operand.shape.length)
    (apart : ∀ u, Within u update.shape → List.zipWith (· + ·) starts u ≠ x) :
    (dynamicUpdateSlice type operand update startIndices).data x = operand.data x := by
  have count : starts.length = operand.shape.length := by simp [← isStarts]
  unfold dynamicUpdateSlice
  dsimp only
  rw [isStarts, if_neg]
  intro covers
  rw [List.all_eq_true] at covers
  have each (d : Nat) (less : d < operand.shape.length) :
      starts.getD d 0 ≤ x.getD d 0 ∧ x.getD d 0 < starts.getD d 0 + update.shape.getD d 0 :=
    of_decide_eq_true (covers d (List.mem_range.mpr less))
  refine apart (List.zipWith (· - ·) x starts) ?_ ?_
  · rw [within_iff_getD]
    refine ⟨by simp; omega, fun d less => ?_⟩
    obtain ⟨low, high⟩ := each d (by omega)
    rw [List.getD_eq_getElem _ _ (by omega), List.getD_eq_getElem _ _ (by omega)] at low high
    rw [List.getD_eq_getElem _ _ (by simp; omega), List.getElem_zipWith]
    omega
  · refine List.ext_getElem (by simp; omega) fun d bound less => ?_
    obtain ⟨low, -⟩ := each d (by omega)
    rw [List.getD_eq_getElem _ _ (by omega), List.getD_eq_getElem _ _ (by omega)] at low
    rw [List.getElem_zipWith, List.getElem_zipWith]
    omega

end Operation

/-- The scatter of the one position is the operation. -/
theorem window_same {operand update : Tensor α} {startIndices : List (Tensor type.Word)}
    {indexType : IntegerType} {indices : Tensor indexType.Word} {column : Bool}
    (length : update.shape.length = operand.shape.length)
    (one : OnePosition indexType indices s w t column) (isColumn : column = decide (r = []))
    (isUpdate : update.shape = b ++ w ++ r) (isOperand : operand.shape = b ++ s ++ r)
    (isStarts : (List.range operand.shape.length).map
      (adjustedStart type startIndices operand.shape update.shape) = startsOf b t r) :
    Tensor.Same
      (((Rows.mk s w column).scatter indexType indices (fun _ new => new)
        (operand.reshape (tableOf b s r)) (update.reshape (gatheredOf 1 b w r))).reshape
          operand.shape)
      (dynamicUpdateSlice type operand update startIndices) := by
  refine ⟨rfl, fun x inside => ?_⟩
  by_cases hit : ∃ u, Within u update.shape ∧ List.zipWith (· + ·) (startsOf b t r) u = x
  · obtain ⟨u, isIndex, rfl⟩ := hit
    rw [dynamicUpdateSlice_hit length isStarts isIndex, isOperand]
    exact scatter_hit one isColumn isUpdate isOperand (isUpdate ▸ isIndex)
  · have apart (u : List Nat) (isIndex : Within u update.shape) :
        List.zipWith (· + ·) (startsOf b t r) u ≠ x := fun moved => hit ⟨u, isIndex, moved⟩
    rw [dynamicUpdateSlice_miss length isStarts inside.length apart]
    rw [isOperand] at inside ⊢
    exact scatter_miss one isColumn isUpdate isOperand inside (isUpdate ▸ apart)

/-- Shapes differ in a dimension that needs a component. -/
theorem exists_needed {operandShape updateShape : List Nat}
    {startIndices : List (Tensor type.Word)}
    {found : List OperandDim × List (Tensor (BitVec 32))}
    (fits : UpdateFits operandShape updateShape startIndices)
    (isFound : Found operandShape updateShape startIndices found operandShape.length)
    (differ : operandShape ≠ updateShape) : ∃ dim ∈ found.1, dim.needsComponent = true := by
  by_contra none
  have covered := covered_all fits isFound
  have same : found.1.map (·.window) = found.1.map (·.size) := by
    refine List.map_congr_left fun dim member => (covered dim member ?_).1
    exact Bool.eq_false_iff.mpr fun needs => none ⟨dim, member, needs⟩
  rw [isFound.map_eq (f := (·.window)) fits.length isFound.window,
    isFound.map_eq (f := (·.size)) rfl isFound.size] at same
  exact differ same.symm

/-- The columns of the components are those of the region's dimensions. -/
theorem indexColumns_eq {operandShape updateShape : List Nat}
    {startIndices : List (Tensor type.Word)}
    {found : List OperandDim × List (Tensor (BitVec 32))} {region : List OperandDim}
    (isFound : Found operandShape updateShape startIndices found operandShape.length)
    (ofRegion : region ⊆ found.1) {c : Canonical}
    (isColumns : c.columns = region.map fun dim => if dim.kind = .indexed then dim.column else -1) :
    indexColumns found.2 c = region.map (columnOf found.2) := by
  have nonneg : ∀ dim ∈ found.1, dim.kind = .indexed → 0 ≤ dim.column := by
    refine isFound.all fun d less isIndexed => ?_
    rcases isFound.kind d less with ⟨isFree, -⟩ | ⟨-, j, start, isColumn, -⟩
    · rw [isIndexed] at isFree
      cases isFree
    · omega
  rw [indexColumns, isColumns, List.map_map]
  refine List.map_congr_left fun dim member => ?_
  rw [Function.comp_apply, columnOf]
  by_cases isIndexed : dim.kind = .indexed
  · rw [if_pos isIndexed, if_pos isIndexed, if_pos (nonneg dim (ofRegion member) isIndexed)]
  · rw [if_neg isIndexed, if_neg isIndexed, if_neg (by decide)]

/-- Rows of three, and an update of two columns that starts behind the last place for it. -/
def threes : Tensor Nat where
  shape := [2, 3]
  data c := c.getD 0 0 * 3 + c.getD 1 0

def scalar (word : int32.Word) : Tensor int32.Word where
  shape := []
  data _ := word

/-- An operand of more than `2 ^ 31` elements. -/
def huge : Tensor Nat where
  shape := [2 ^ 31 + 1]
  data _ := 0

end Libtt.IndexedRows

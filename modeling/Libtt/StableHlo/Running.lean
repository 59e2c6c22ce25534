import Libtt.StableHlo.Tensor
import Mathlib.Data.List.Range

/-!
# Running reductions

A running reduction has, at each position along a dimension, the reduction of the elements from the
start, or from the end when it is reversed, up to that position.
-/
namespace Libtt.StableHlo

open Libtt.Foundation

variable {α β : Type}

/-- The positions that a scan has passed at a position, in its order. -/
def scannedPositions (reverse : Bool) (size position : Nat) : List Nat :=
  if reverse then (List.range (size - position)).map (size - 1 - ·) else List.range (position + 1)

/-- The reduction of some elements, without a start. -/
def combineAll (op : α → α → α) (default : α) : List α → α
  | [] => default
  | element :: elements => elements.foldl op element

namespace Tensor

/-- The elements that a scan along a dimension has passed at an index. -/
def scanned (operand : Tensor α) (dim : Nat) (reverse : Bool) (index : List Nat) : List α :=
  operand.line dim index
    (scannedPositions reverse (operand.shape.getD dim 0) (index.getD dim 0))

/-- The running reduction along a dimension. -/
def running (op : α → α → α) (operand : Tensor α) (dim : Nat) (reverse : Bool) : Tensor α where
  shape := operand.shape
  data index := combineAll op (operand.data index) (operand.scanned dim reverse index)

end Tensor

variable {operand : Tensor α} {reverse : Bool} {before after first last : List Nat}
  {size position coordinate : Nat}

theorem line_split (operand : Tensor α) (isFirst : first.length = before.length)
    (coordinates : List Nat) :
    operand.line before.length (first ++ coordinate :: last) coordinates =
      coordinates.map fun position => operand.data (first ++ position :: last) := by
  simp only [Tensor.line, set_split isFirst]

theorem scanned_split (isShape : operand.shape = before ++ size :: after)
    (isFirst : first.length = before.length) :
    operand.scanned before.length reverse (first ++ position :: last) =
      (scannedPositions reverse size position).map fun position =>
        operand.data (first ++ position :: last) := by
  rw [Tensor.scanned, isShape, getD_split rfl, getD_split isFirst, line_split operand isFirst]

theorem scannedPositions_ne_nil (below : position < size) :
    scannedPositions reverse size position ≠ [] := by
  unfold scannedPositions
  split
  · rw [Ne, List.map_eq_nil_iff, List.range_eq_nil]
    omega
  · rw [Ne, List.range_eq_nil]
    omega

/-- The positions that the reversed scan has passed are those of the rest, backwards. -/
theorem scannedPositions_reverse :
    scannedPositions true size position =
      ((List.range (size - position)).map (position + ·)).reverse := by
  simp only [scannedPositions, if_true, ← List.map_reverse]
  apply List.ext_getElem
  · simp
  · intro place inside _
    simp only [List.length_map, List.length_range] at inside
    simp only [List.getElem_map, List.getElem_range, List.getElem_reverse, List.length_range]
    omega

section

variable {op : α → α → α} {init : α} [Std.LawfulIdentity op init]

theorem combineAll_eq (default : α) {elements : List α} (nonempty : elements ≠ []) :
    combineAll op default elements = elements.foldl op init := by
  cases elements with
  | nil => exact absurd rfl nonempty
  | cons element elements =>
    have start : op init element = element := Std.LawfulLeftIdentity.left_id element
    rw [List.foldl_cons, start]
    rfl

end

/-- The window spans one dimension, and the padding is before that dimension, or behind it, so that
each window holds the elements up to an index, or from it on. -/
structure ReduceWindowOp.Spans (op : ReduceWindowOp α) (rank dim size : Nat) (reverse : Bool) :
    Prop where
  within : dim < rank
  windowDimensions : op.windowDimensions = (List.replicate rank 1).set dim size
  padding : ∀ place < 2 * rank, op.padding.getD place 0 =
    if place = 2 * dim + (if reverse then 1 else 0) then (size : Int) - 1 else 0

theorem map_range_split {count place : Nat} (inside : place < count) (value other : β) :
    (List.range count).map (fun spot => if spot = place then other else value) =
      List.replicate place value ++ other :: List.replicate (count - place - 1) value := by
  rw [← replicate_split inside]
  apply List.ext_getElem
  · simp
  · intro spot _ _
    rw [List.getElem_map, List.getElem_range, List.getElem_set, List.getElem_replicate]
    simp only [eq_comm]

section

variable {op : ReduceWindowOp α} {rank dim : Nat}

section

variable (spans : op.Spans rank dim size reverse)
include spans

theorem ReduceWindowOp.Spans.length :
    op.windowDimensions.length = rank := by
  rw [spans.windowDimensions, List.length_set, List.length_replicate]

theorem ReduceWindowOp.Spans.low :
    op.low = List.replicate dim 0 ++ (if reverse then 0 else (size : Int) - 1) ::
      List.replicate (rank - dim - 1) 0 := by
  rw [ReduceWindowOp.low, spans.length, ← map_range_split spans.within]
  refine List.map_congr_left fun place inside => ?_
  rw [spans.padding _ (by have := List.mem_range.mp inside; omega)]
  cases reverse <;> simp only [Bool.false_eq_true, if_false, if_true] <;> split_ifs <;> omega

/-- The result has the shape of the operand. -/
theorem ReduceWindowOp.Spans.resultShape {shape : List Nat} (length : shape.length = rank)
    (isSize : shape.getD dim 0 = size) (positive : 0 < size) : op.resultShape shape = shape := by
  apply List.ext_getElem
  · rw [ReduceWindowOp.resultShape, List.length_map, List.length_range, spans.length, length]
  · intro place _ inside
    have below : place < rank := length ▸ inside
    have window : op.windowDimensions.getD place 0 = if place = dim then size else 1 := by
      rw [spans.windowDimensions, List.getD_eq_getElem _ _ (by simpa using below),
        List.getElem_set, List.getElem_replicate]
      simp only [eq_comm]
    have element : shape.getD place 0 = shape[place] := List.getD_eq_getElem _ _ inside
    simp only [ReduceWindowOp.resultShape, List.getElem_map, List.getElem_range,
      spans.padding (2 * place) (by omega), spans.padding (2 * place + 1) (by omega), window,
      element]
    by_cases isDim : place = dim
    · subst isDim
      cases reverse <;> simp only [Bool.false_eq_true, if_false, if_true] <;> split_ifs <;> omega
    · cases reverse <;> simp only [Bool.false_eq_true, if_false, if_true] <;> split_ifs <;> omega

end

end

theorem forall₂_split {R : α → β → Prop} {left right : List α} {left' right' : List β}
    {value : α} {value' : β} (length : left.length = left'.length) :
    List.Forall₂ R (left ++ value :: right) (left' ++ value' :: right') ↔
      List.Forall₂ R left left' ∧ R value value' ∧ List.Forall₂ R right right' := by
  constructor
  · intro all
    have head := List.forall₂_take_append _ _ _ all
    have tail := List.forall₂_drop_append _ _ _ all
    rw [← length, List.take_left] at head
    rw [← length, List.drop_left] at tail
    exact ⟨head, List.forall₂_cons.mp tail⟩
  · rintro ⟨head, middle, tail⟩
    exact List.rel_append head (.cons middle tail)

theorem zipWith_low_zeros (index : List Nat) (count : Nat) (length : index.length = count) :
    List.zipWith (fun (coordinate : Nat) (low : Int) => (coordinate : Int) - low) index
      (List.replicate count 0) = index.map Int.ofNat := by
  subst length
  induction index with
  | nil => rfl
  | cons coordinate index ih => simp [List.replicate_succ, ih]

theorem within_cast {index shape : List Nat} (inside : Within index shape) :
    List.Forall₂ (fun (coordinate : Int) (size : Nat) => 0 ≤ coordinate ∧ coordinate < size)
      (index.map Int.ofNat) shape :=
  List.forall₂_map_left_iff.mpr (inside.imp fun _ _ below =>
    ⟨Int.natCast_nonneg _, Int.ofNat_lt.mpr below⟩)

theorem map_toNat_ofNat (index : List Nat) : (index.map Int.ofNat).map Int.toNat = index := by
  rw [List.map_map]
  exact List.map_id _

/-- An element that is padded along one dimension. -/
theorem padded_split {padding : α} {low : Int} (isShape : operand.shape = before ++ size :: after)
    (isFirst : Within first before) (isLast : Within last after) :
    operand.padded padding (List.replicate before.length 0 ++ low :: List.replicate after.length 0)
        (first ++ position :: last) =
      if 0 ≤ (position : Int) - low ∧ (position : Int) - low < size then
        operand.data (first ++ ((position : Int) - low).toNat :: last) else padding := by
  have index : List.zipWith (fun (coordinate : Nat) (low : Int) => (coordinate : Int) - low)
      (first ++ position :: last)
      (List.replicate before.length 0 ++ low :: List.replicate after.length 0) =
        first.map Int.ofNat ++ ((position : Int) - low) :: last.map Int.ofNat := by
    rw [List.zipWith_append (by rw [isFirst.length, List.length_replicate]), List.zipWith_cons_cons,
      zipWith_low_zeros _ _ isFirst.length, zipWith_low_zeros _ _ isLast.length]
  have inside : List.Forall₂
      (fun (coordinate : Int) (size : Nat) => 0 ≤ coordinate ∧ coordinate < size)
      (first.map Int.ofNat ++ ((position : Int) - low) :: last.map Int.ofNat)
      (before ++ size :: after) ↔ 0 ≤ (position : Int) - low ∧ (position : Int) - low < size := by
    rw [forall₂_split (by rw [List.length_map, isFirst.length])]
    exact ⟨fun all => all.2.1, fun middle => ⟨within_cast isFirst, middle, within_cast isLast⟩⟩
  simp only [Tensor.padded, index, isShape, inside, List.map_append, List.map_cons,
    map_toNat_ofNat]

theorem zipWith_add_split {count rest : Nat} (isFirst : first.length = count)
    (isLast : last.length = rest) :
    List.zipWith (· + ·) (first ++ position :: last)
      (List.replicate count 0 ++ coordinate :: List.replicate rest 0) =
        first ++ (position + coordinate) :: last := by
  subst isFirst isLast
  rw [List.zipWith_append (by rw [List.length_replicate]), List.zipWith_cons_cons,
    zipWith_add_zeros, zipWith_add_zeros]

/-- What is in the window of an index: padding, and the elements along the dimension. -/
theorem window_split {op : ReduceWindowOp α}
    (spans : op.Spans (before ++ size :: after).length before.length size reverse)
    (isShape : operand.shape = before ++ size :: after) (isFirst : Within first before)
    (isLast : Within last after) : op.window operand (first ++ position :: last) =
      (List.range size).map fun coordinate =>
        let spot := ((position + coordinate : Nat) : Int) - (if reverse then 0 else (size : Int) - 1)
        if 0 ≤ spot ∧ spot < size then operand.data (first ++ spot.toNat :: last)
        else op.initValue := by
  have rest : (before ++ size :: after).length - before.length - 1 = after.length := by
    simp
  have low := spans.low
  have window := spans.windowDimensions
  rw [replicate_split spans.within] at window
  rw [rest] at low window
  rw [ReduceWindowOp.window, window, indices_window, List.map_map]
  refine List.map_congr_left fun coordinate _ => ?_
  rw [Function.comp_apply, zipWith_add_split isFirst.length isLast.length, low,
    padded_split isShape isFirst isLast]

/-- Forward, the window holds padding and then the elements up to the index. -/
theorem window_forward {op : ReduceWindowOp α}
    (spans : op.Spans (before ++ size :: after).length before.length size false)
    (isShape : operand.shape = before ++ size :: after) (isFirst : Within first before)
    (isLast : Within last after) (below : position < size) :
    op.window operand (first ++ position :: last) =
      List.replicate (size - 1 - position) op.initValue ++
        operand.scanned before.length false (first ++ position :: last) := by
  rw [window_split spans isShape isFirst isLast, scanned_split isShape isFirst.length]
  apply List.ext_getElem
  · simp [scannedPositions]
    omega
  · intro place inside _
    simp only [List.length_map, List.length_range] at inside
    simp only [List.getElem_map, List.getElem_range, List.getElem_append, List.length_replicate,
      List.getElem_replicate, scannedPositions, Bool.false_eq_true, if_false]
    split_ifs with outside padding
    · omega
    · rw [show (((position + place : Nat) : Int) - ((size : Int) - 1)).toNat =
        place - (size - 1 - position) by omega]
    · rfl
    · omega

/-- Reversed, it holds the elements from the index on and then padding. -/
theorem window_reverse {op : ReduceWindowOp α}
    (spans : op.Spans (before ++ size :: after).length before.length size true)
    (isShape : operand.shape = before ++ size :: after) (isFirst : Within first before)
    (isLast : Within last after) (below : position < size) :
    op.window operand (first ++ position :: last) =
      (operand.scanned before.length true (first ++ position :: last)).reverse ++
        List.replicate position op.initValue := by
  rw [window_split spans isShape isFirst isLast, scanned_split isShape isFirst.length,
    scannedPositions_reverse, ← List.map_reverse, List.reverse_reverse]
  apply List.ext_getElem
  · simp
    omega
  · intro place inside _
    simp only [List.getElem_map, List.getElem_range, List.getElem_append, List.length_map,
      List.length_range, List.getElem_replicate, if_true, Int.sub_zero, Int.toNat_natCast]
    split_ifs with isInside
    · rfl
    · omega
    · omega
    · rfl

section

variable {body : α → α → α} {init : α} [Std.Associative body] [Std.Commutative body]
  [Std.LawfulIdentity body init]

theorem foldr_reverse (elements : List α) :
    elements.reverse.foldr body init = elements.foldr body init := by
  have flipped : (fun first second => body second first) = body :=
    funext fun first => funext fun second => Std.Commutative.comm second first
  rw [List.foldr_reverse, flipped, @foldl_eq_foldr _ body init]
  exact Std.LawfulRightIdentity.right_id _

/-- Behind the padding, a reduction of the window combines what the scan has passed. -/
theorem reduces_window {op : ReduceWindowOp α} {rank dim : Nat}
    (spans : op.Spans rank dim size reverse) (isInit : op.initValue = init)
    (length : operand.shape.length = rank) (isSize : operand.shape.getD dim 0 = size)
    {index : List Nat} (inside : Within index operand.shape) {result : α}
    (reduces : Reduces body init (op.window operand index) result) :
    result = (operand.scanned dim reverse index).foldr body init := by
  obtain ⟨before, after, isShape, isDim⟩ := exists_split (length ▸ spans.within)
  rw [isSize] at isShape
  subst isDim length
  have isIndex := inside
  rw [isShape] at isIndex spans
  obtain ⟨first, position, last, rfl, isFirst, below, isLast⟩ := within_split.mp isIndex
  rw [reduces.eq_foldr]
  cases reverse with
  | false =>
    rw [window_forward spans isShape isFirst isLast below, isInit, foldr_append, foldr_replicate]
    exact Std.LawfulLeftIdentity.left_id _
  | true =>
    rw [window_reverse spans isShape isFirst isLast below, isInit, foldr_append, foldr_replicate,
      foldr_reverse]
    exact Std.LawfulRightIdentity.right_id _

section

variable {dim : Nat} {index : List Nat} (inside : Within index operand.shape)
  (within : dim < operand.shape.length)
include inside within

theorem scanned_ne_nil : operand.scanned dim reverse index ≠ [] := by
  rw [Tensor.scanned, Tensor.line, Ne, List.map_eq_nil_iff]
  apply scannedPositions_ne_nil
  rw [List.getD_eq_getElem _ _ (inside.length ▸ within), List.getD_eq_getElem _ _ within]
  exact (List.forall₂_iff_get.mp inside).2 dim (inside.length ▸ within) within

theorem running_data : (operand.running body dim reverse).data index =
      (operand.scanned dim reverse index).foldr body init := by
  have elements : combineAll body (operand.data index) (operand.scanned dim reverse index) =
      (operand.scanned dim reverse index).foldl body init :=
    combineAll_eq _ (scanned_ne_nil inside within)
  refine elements.trans ?_
  rw [@foldl_eq_foldr _ body init]
  exact Std.LawfulRightIdentity.right_id _

end

end

end Libtt.StableHlo

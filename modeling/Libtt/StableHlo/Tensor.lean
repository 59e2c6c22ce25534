import Libtt.Foundation.Schedule
import Mathlib.Data.List.GetD
import Mathlib.Data.List.Nodup

/-!
# Tensors of StableHLO

A tensor has a shape and an element for each index within it.
-/
namespace Libtt.StableHlo

open Libtt.Foundation

variable {α β γ : Type}

structure Tensor (α : Type) where
  shape : List Nat
  data : List Nat → α

/-- The index has a coordinate for each dimension, within its size. -/
abbrev Within (index shape : List Nat) : Prop := List.Forall₂ (· < ·) index shape

/-- The indices within a shape, in their order. -/
def indices : List Nat → List (List Nat)
  | [] => [[]]
  | size :: shape => (List.range size).flatMap fun coordinate =>
      (indices shape).map (coordinate :: ·)

namespace Tensor

/-- The tensors have the same shape and elements. -/
def Same (first second : Tensor α) : Prop :=
  first.shape = second.shape ∧
    ∀ index, Within index first.shape → first.data index = second.data index

def map (f : α → β) (operand : Tensor α) : Tensor β where
  shape := operand.shape
  data index := f (operand.data index)

def zipWith (f : α → β → γ) (lhs : Tensor α) (rhs : Tensor β) : Tensor γ where
  shape := lhs.shape
  data index := f (lhs.data index) (rhs.data index)

/-- `stablehlo.broadcast_in_dim`. -/
def broadcastInDim (operand : Tensor α) (shape dims : List Nat) : Tensor α where
  shape := shape
  data index := operand.data (List.zipWith (fun size dim =>
    if size = 1 then 0 else index.getD dim 0) operand.shape dims)

/-- `stablehlo.slice`. -/
def slice (operand : Tensor α) (start limit strides : List Nat) : Tensor α where
  shape := List.zipWith (fun length stride => (length + stride - 1) / stride)
    (List.zipWith (· - ·) limit start) strides
  data index := operand.data (List.zipWith (· + ·) start (List.zipWith (· * ·) index strides))

/-- `stablehlo.reshape`: the elements stay in their order. -/
def reshape (operand : Tensor α) (shape : List Nat) : Tensor α where
  shape := shape
  data index := operand.data ((indices operand.shape).getD ((indices shape).idxOf index) [])

/-- `stablehlo.reverse` along one dimension. -/
def reverse (operand : Tensor α) (dim : Nat) : Tensor α where
  shape := operand.shape
  data index := operand.data
    (index.set dim (operand.shape.getD dim 0 - 1 - index.getD dim 0))

/-- The elements at some coordinates along a dimension. -/
def line (operand : Tensor α) (dim : Nat) (index coordinates : List Nat) : List α :=
  coordinates.map fun coordinate => operand.data (index.set dim coordinate)

/-- An element of the padded operand: of the operand, behind the low padding, or the padding. -/
def padded (operand : Tensor α) (padding : α) (low : List Int) (position : List Nat) : α :=
  let index := List.zipWith (fun (coordinate : Nat) (low : Int) => (coordinate : Int) - low)
    position low
  if List.Forall₂ (fun (coordinate : Int) (size : Nat) => 0 ≤ coordinate ∧ coordinate < size)
      index operand.shape
  then operand.data (index.map Int.toNat) else padding

end Tensor

/-- `stablehlo.reduce_window` of one operand, with no strides and dilations given. The padding is
before and after each dimension in turn. -/
structure ReduceWindowOp (α : Type) where
  windowDimensions : List Nat
  padding : List Int
  initValue : α

namespace ReduceWindowOp

def low (op : ReduceWindowOp α) : List Int :=
  (List.range op.windowDimensions.length).map fun dim => op.padding.getD (2 * dim) 0

def resultShape (op : ReduceWindowOp α) (shape : List Nat) : List Nat :=
  (List.range op.windowDimensions.length).map fun dim =>
    ((shape.getD dim 0 : Int) + op.padding.getD (2 * dim) 0 + op.padding.getD (2 * dim + 1) 0 -
      op.windowDimensions.getD dim 0 + 1).toNat

/-- The elements in the window of an index. -/
def window (op : ReduceWindowOp α) (operand : Tensor α) (index : List Nat) : List α :=
  (indices op.windowDimensions).map fun offset =>
    operand.padded op.initValue op.low (List.zipWith (· + ·) index offset)

/-- Its value, where `reduce` reduces the window of each index. -/
def eval (op : ReduceWindowOp α) (reduce : List Nat → List α → α) (operand : Tensor α) :
    Tensor α where
  shape := op.resultShape operand.shape
  data index := reduce index (op.window operand index)

end ReduceWindowOp

variable {index shape first last before after : List Nat} {size coordinate : Nat}

@[simp] theorem mem_indices : index ∈ indices shape ↔ Within index shape := by
  induction shape generalizing index with
  | nil => simp [indices]
  | cons size shape ih =>
    simp only [indices, List.mem_flatMap, List.mem_range, List.mem_map, ih]
    constructor
    · rintro ⟨coordinate, below, tail, inside, rfl⟩
      exact .cons below inside
    · rintro (_ | ⟨below, inside⟩)
      exact ⟨_, below, _, inside, rfl⟩

theorem nodup_indices (shape : List Nat) : (indices shape).Nodup := by
  induction shape with
  | nil => exact List.nodup_singleton []
  | cons size shape ih =>
    refine List.nodup_flatMap.mpr ⟨fun coordinate _ =>
      ih.map fun _ _ same => (List.cons.inj same).2, ?_⟩
    refine List.nodup_range.imp fun {first second} different => ?_
    intro index isFirst isSecond
    obtain ⟨_, _, rfl⟩ := List.mem_map.mp isFirst
    obtain ⟨_, _, same⟩ := List.mem_map.mp isSecond
    exact different (List.cons.inj same).1.symm

theorem Within.length (inside : Within index shape) : index.length = shape.length :=
  List.Forall₂.length_eq inside

/-- An index around one dimension. -/
theorem within_split : Within index (before ++ size :: after) ↔
    ∃ first coordinate last, index = first ++ coordinate :: last ∧ Within first before ∧
      coordinate < size ∧ Within last after := by
  constructor
  · intro inside
    induction before generalizing index with
    | nil =>
      cases inside with
      | cons below inside => exact ⟨[], _, _, rfl, .nil, below, inside⟩
    | cons head before ih =>
      cases inside with
      | cons below inside =>
        obtain ⟨first, coordinate, last, rfl, isFirst, middle, isLast⟩ := ih inside
        exact ⟨_ :: first, coordinate, last, rfl, .cons below isFirst, middle, isLast⟩
  · rintro ⟨first, coordinate, last, rfl, isFirst, middle, isLast⟩
    exact List.rel_append isFirst (.cons middle isLast)

/-- An index of two groups of dimensions. -/
theorem within_append : Within index (before ++ after) ↔
    ∃ first last, index = first ++ last ∧ Within first before ∧ Within last after := by
  constructor
  · intro inside
    refine ⟨index.take before.length, index.drop before.length,
      (List.take_append_drop _ _).symm, ?_, ?_⟩
    · exact List.forall₂_take_append _ _ _ inside
    · exact List.forall₂_drop_append _ _ _ inside
  · rintro ⟨first, last, rfl, isFirst, isLast⟩
    exact List.rel_append isFirst isLast

theorem exists_split {dim : Nat} (inside : dim < shape.length) :
    ∃ before after, shape = before ++ shape.getD dim 0 :: after ∧ before.length = dim := by
  refine ⟨shape.take dim, shape.drop (dim + 1), ?_, List.length_take_of_le (Nat.le_of_lt inside)⟩
  rw [List.getD_eq_getElem _ _ inside, List.getElem_cons_drop, List.take_append_drop]

@[simp] theorem set_split (length : first.length = before.length) (value : Nat) :
    (first ++ coordinate :: last).set before.length value = first ++ value :: last := by
  rw [← length, List.set_append_right _ _ (Nat.le_refl _), Nat.sub_self, List.set_cons_zero]

@[simp] theorem getD_split (length : first.length = before.length) :
    (first ++ coordinate :: last).getD before.length 0 = coordinate := by
  rw [← length]
  simp

@[simp] theorem eraseIdx_split (length : first.length = before.length) :
    (first ++ coordinate :: last).eraseIdx before.length = first ++ last := by
  rw [← length, List.eraseIdx_append_of_length_le (Nat.le_refl _), Nat.sub_self, List.eraseIdx_cons_zero]

theorem indices_ones (count : Nat) :
    indices (List.replicate count 1) = [List.replicate count 0] := by
  induction count with
  | zero => rfl
  | succ count ih => simp [List.replicate_succ, indices, ih]

/-- A window that spans one dimension. -/
theorem indices_window (before size after : Nat) :
    indices (List.replicate before 1 ++ size :: List.replicate after 1) =
      (List.range size).map fun coordinate =>
        List.replicate before 0 ++ coordinate :: List.replicate after 0 := by
  induction before with
  | zero => simp [indices, indices_ones, List.map_eq_flatMap]
  | succ before ih => simp [List.replicate_succ, indices, ih]

theorem zipWith_add_zeros (index : List Nat) :
    List.zipWith (· + ·) index (List.replicate index.length 0) = index := by
  induction index with
  | nil => rfl
  | cons coordinate index ih => simp [List.replicate_succ, ih]

/-- A dimension of size one changes nothing about the order. -/
theorem indices_insert_one (before after : List Nat) :
    indices (before ++ 1 :: after) = (indices (before ++ after)).map fun index =>
      index.take before.length ++ 0 :: index.drop before.length := by
  induction before with
  | nil => simp [indices]
  | cons size before ih => simp [indices, ih, List.map_flatMap, Function.comp_def]

/-- The index at the same place, where each index is made into another. -/
theorem getD_idxOf_map {f : List Nat → List Nat} {spots : List (List Nat)}
    (member : index ∈ spots) : (spots.map f).getD (spots.idxOf index) [] = f index := by
  have below : spots.idxOf index < spots.length := List.idxOf_lt_length_of_mem member
  rw [List.getD_eq_getElem _ _ (by rwa [List.length_map]), List.getElem_map, List.getElem_idxOf]

theorem idxOf_map {f : List Nat → List Nat} {spots : List (List Nat)}
    (distinct : (spots.map f).Nodup) (member : index ∈ spots) :
    (spots.map f).idxOf (f index) = spots.idxOf index := by
  have below : spots.idxOf index < spots.length := List.idxOf_lt_length_of_mem member
  have place := distinct.idxOf_getElem (spots.idxOf index) (by rwa [List.length_map])
  rwa [List.getElem_map, List.getElem_idxOf] at place

theorem insert_split (isFirst : first.length = before.length) :
    (first ++ last).take before.length ++ 0 :: (first ++ last).drop before.length =
      first ++ 0 :: last := by
  rw [← isFirst, List.take_left, List.drop_left]

/-- A reshape that drops a dimension of size one. -/
theorem reshape_drop_one {operand : Tensor α} (isShape : operand.shape = before ++ 1 :: after)
    (isFirst : Within first before) (isLast : Within last after) :
    (operand.reshape (before ++ after)).data (first ++ last) =
      operand.data (first ++ 0 :: last) := by
  have member : first ++ last ∈ indices (before ++ after) :=
    mem_indices.mpr (List.rel_append isFirst isLast)
  change operand.data ((indices operand.shape).getD _ []) = _
  rw [isShape, indices_insert_one, getD_idxOf_map member, insert_split isFirst.length]

/-- A reshape that adds a dimension of size one. -/
theorem reshape_add_one {operand : Tensor α} (isShape : operand.shape = before ++ after)
    (isFirst : Within first before) (isLast : Within last after) :
    (operand.reshape (before ++ 1 :: after)).data (first ++ 0 :: last) =
      operand.data (first ++ last) := by
  have member : first ++ last ∈ indices (before ++ after) :=
    mem_indices.mpr (List.rel_append isFirst isLast)
  have distinct := nodup_indices (before ++ 1 :: after)
  rw [indices_insert_one] at distinct
  have place := idxOf_map distinct member
  rw [insert_split isFirst.length] at place
  change operand.data ((indices operand.shape).getD _ []) = _
  rw [isShape, indices_insert_one, place,
    List.getD_eq_getElem _ _ (List.idxOf_lt_length_of_mem member), List.getElem_idxOf]

/-- A coordinate of a dimension that is broadcast. -/
theorem zipWith_coordinates (coordinate : Nat → Nat) {sizes coordinates dims : List Nat}
    (inside : Within coordinates sizes) (same : dims.map coordinate = coordinates) :
    List.zipWith (fun size dim => if size = 1 then 0 else coordinate dim) sizes dims =
      coordinates := by
  induction inside generalizing dims with
  | nil =>
    cases dims with
    | nil => rfl
    | cons dim dims => cases same
  | cons below inside ih =>
    cases dims with
    | nil => cases same
    | cons dim dims =>
      obtain ⟨rfl, rest⟩ := List.cons.inj same
      rw [List.zipWith_cons_cons, ih rest]
      congr 1
      split <;> omega

/-- What is broadcast around one dimension, at an index. -/
theorem broadcastInDim_around {operand : Tensor α} (isShape : operand.shape = before ++ after)
    (isFirst : Within first before) (isLast : Within last after) (shape : List Nat) :
    (operand.broadcastInDim shape (List.range before.length ++
      (List.range after.length).map (before.length + 1 + ·))).data (first ++ coordinate :: last) =
        operand.data (first ++ last) := by
  have heads : (List.range before.length).map (fun dim => (first ++ coordinate :: last).getD dim 0) =
      first := by
    apply List.ext_getElem
    · rw [List.length_map, List.length_range, isFirst.length]
    · intro place _ inside
      rw [List.getElem_map, List.getElem_range, List.getD_append _ _ _ _ inside,
        List.getD_eq_getElem _ _ inside]
  have tails : ((List.range after.length).map (before.length + 1 + ·)).map
      (fun dim => (first ++ coordinate :: last).getD dim 0) = last := by
    apply List.ext_getElem
    · rw [List.length_map, List.length_map, List.length_range, isLast.length]
    · intro place _ inside
      simp only [List.getElem_map, List.getElem_range]
      rw [List.getD_append_right _ _ _ _ (by rw [isFirst.length]; omega), isFirst.length,
        show before.length + 1 + place - before.length = place + 1 by omega, List.getD_cons_succ,
        List.getD_eq_getElem _ _ inside]
  simp only [Tensor.broadcastInDim, isShape]
  rw [zipWith_coordinates (fun dim => (first ++ coordinate :: last).getD dim 0)
    (List.rel_append isFirst isLast) (by rw [List.map_append, heads, tails])]

theorem zipWith_mul_ones (index : List Nat) {count : Nat} (length : index.length = count) :
    List.zipWith (· * ·) index (List.replicate count 1) = index := by
  subst length
  induction index with
  | nil => rfl
  | cons coordinate index ih =>
    rw [List.length_cons, List.replicate_succ, List.zipWith_cons_cons, ih, Nat.mul_one]

theorem zipWith_zeros_add (index : List Nat) {count : Nat} (length : index.length = count) :
    List.zipWith (· + ·) (List.replicate count 0) index = index := by
  subst length
  induction index with
  | nil => rfl
  | cons coordinate index ih =>
    rw [List.length_cons, List.replicate_succ, List.zipWith_cons_cons, ih, Nat.zero_add]

theorem zipWith_sub_zeros (shape : List Nat) :
    List.zipWith (· - ·) shape (List.replicate shape.length 0) = shape := by
  induction shape with
  | nil => rfl
  | cons size shape ih =>
    rw [List.length_cons, List.replicate_succ, List.zipWith_cons_cons, ih, Nat.sub_zero]

theorem zipWith_stride_ones (shape : List Nat) {count : Nat} (length : shape.length = count) :
    List.zipWith (fun length stride => (length + stride - 1) / stride) shape
      (List.replicate count 1) = shape := by
  subst length
  induction shape with
  | nil => rfl
  | cons size shape ih =>
    rw [List.length_cons, List.replicate_succ, List.zipWith_cons_cons, ih, Nat.add_sub_cancel,
      Nat.div_one]

theorem replicate_split {count place : Nat} (inside : place < count) (value other : α) :
    (List.replicate count value).set place other =
      List.replicate place value ++ other :: List.replicate (count - place - 1) value := by
  have parts : count = place + (count - place - 1 + 1) := by omega
  have split : List.replicate count value =
      List.replicate place value ++ value :: List.replicate (count - place - 1) value := by
    conv_lhs => rw [parts]
    rw [List.replicate_add, List.replicate_succ]
  rw [split, List.set_append_right _ _ (by simp), List.length_replicate, Nat.sub_self,
    List.set_cons_zero]

/-- The slice of one position, without its dimension. -/
theorem slice_reshape (operand : Tensor α) (place : Nat) (isFirst : Within first before)
    (isLast : Within last after) :
    ((operand.slice ((List.replicate (before ++ size :: after).length 0).set before.length place)
      ((before ++ size :: after).set before.length (place + 1))
      (List.replicate (before ++ size :: after).length 1)).reshape (before ++ after)).data
        (first ++ last) = operand.data (first ++ place :: last) := by
  have inside : before.length < (before ++ size :: after).length := by simp
  have rest : (before ++ size :: after).length - before.length - 1 = after.length := by simp
  have lengths : ∀ middle, (before ++ middle :: after).length = (before ++ size :: after).length := by
    simp
  have isSlice : (operand.slice
      ((List.replicate (before ++ size :: after).length 0).set before.length place)
      ((before ++ size :: after).set before.length (place + 1))
      (List.replicate (before ++ size :: after).length 1)).shape = before ++ 1 :: after := by
    rw [Tensor.slice, set_split rfl, replicate_split inside, rest]
    rw [List.zipWith_append (by rw [List.length_replicate]), List.zipWith_cons_cons,
      zipWith_sub_zeros, zipWith_sub_zeros, Nat.add_sub_cancel_left,
      zipWith_stride_ones _ (lengths 1)]
  rw [reshape_drop_one isSlice isFirst isLast]
  have index : (first ++ 0 :: last).length = (before ++ size :: after).length := by
    rw [List.length_append, List.length_cons, isFirst.length, isLast.length, List.length_append,
      List.length_cons]
  simp only [Tensor.slice]
  rw [zipWith_mul_ones _ index, replicate_split inside, rest,
    List.zipWith_append (by rw [isFirst.length, List.length_replicate]), List.zipWith_cons_cons,
    zipWith_zeros_add _ isFirst.length, zipWith_zeros_add _ isLast.length, Nat.add_zero]

end Libtt.StableHlo

import Libtt.StableHlo.UnitDims
import Mathlib.Algebra.Order.Floor.Div

/-!
# Permutes without unit dimensions

The conversion of `dot_general` permutes an operand without its dimensions of one element, and a
permute of a reshape that only adds or drops such dimensions becomes a reshape of a permute.
-/
namespace Libtt.Dots

open Libtt.StableHlo

variable {α : Type}

/-- The other dimensions of a shape, and the number of each among them. -/
structure CompactDims where
  compactShape : List Nat
  compactIndex : List Int

/-- One dimension after the other. -/
def compactDims (shape : List Nat) : CompactDims :=
  shape.foldl (fun dims size =>
    if size ≠ 1 then
      { compactShape := dims.compactShape ++ [size]
        compactIndex := dims.compactIndex ++ [(dims.compactShape.length : Int)] }
    else { dims with compactIndex := dims.compactIndex ++ [-1] }) ⟨[], []⟩

def compactPermutation (shape permutation : List Nat) : List Nat :=
  permutation.filterMap fun d =>
    let index := (compactDims shape).compactIndex.getD d (-1)
    if 0 ≤ index then some index.toNat else none

/-- `llvm::is_sorted`. -/
abbrev isSorted (values : List Nat) : Prop := values.Pairwise (· ≤ ·)

/-- The operand in the order that the matmul reshape reads. -/
def permuteOperand (input : Tensor α) (permutation : List Nat) : Tensor α :=
  let compactShape := (compactDims input.shape).compactShape
  let compactPermutation := compactPermutation input.shape permutation
  -- The matmul reshape alone puts the elements in this order.
  if isSorted compactPermutation then input
  else if compactShape.length ≠ input.shape.length then
    (input.reshape compactShape).permute compactPermutation
  else input.permute compactPermutation

/-- The last two dimensions are laid out as tiles. -/
def tileCount (shape : List Nat) : Nat :=
  let rank := shape.length
  (shape.take (rank - 2)).prod * ((if 2 ≤ rank then shape.getD (rank - 2) 0 else 1) ⌈/⌉ 32) *
    ((if 1 ≤ rank then shape.getD (rank - 1) 0 else 1) ⌈/⌉ 32)

/-- `permute(reshape(x))`, where `x` is of the input shape. -/
structure PermutedReshape where
  inputShape : List Nat
  reshapedShape : List Nat
  hasOneUse : Bool
  permutation : List Nat
  deriving DecidableEq, Repr

namespace PermutedReshape

variable (permuted : PermutedReshape)

def eval (input : Tensor α) : Tensor α :=
  (input.reshape permuted.reshapedShape).permute permuted.permutation

/-- The permutation of the input: its unit dimensions first. -/
def inputPermutation : List Nat :=
  let inputDims := nonUnitDims permuted.inputShape
  let reshapedDims := nonUnitDims permuted.reshapedShape
  (List.range permuted.inputShape.length).filter (fun d => permuted.inputShape.getD d 0 == 1) ++
    (permuted.permutation.filter fun d => reshapedDims.contains d).map fun d =>
      inputDims.getD (reshapedDims.idxOf d) 0

/-- `SinkReshapeThroughPermutePattern`: the input's permutation, if it matches. -/
def sinkReshape : Option (List Nat) :=
  if !permuted.hasOneUse then none
  else if tileCount permuted.reshapedShape ≤ tileCount permuted.inputShape then none
  else if (nonUnitDims permuted.inputShape).map (fun d => permuted.inputShape.getD d 0) ≠
      (nonUnitDims permuted.reshapedShape).map (fun d => permuted.reshapedShape.getD d 0) then none
  else some permuted.inputPermutation

/-- What replaces the permute. -/
def sunk (permutation : List Nat) (input : Tensor α) : Tensor α :=
  (if isSorted permutation then input else input.permute permutation).reshape
    (applyPermutation permuted.reshapedShape permuted.permutation)

end PermutedReshape

end Libtt.Dots

/-! ## Permutes without unit dimensions keep the elements -/
namespace Libtt.Dots

open Libtt.StableHlo Libtt.StableHlo.Tensor

variable {α : Type} {shape permutation : List Nat}

/-- The compact dimensions of a shape with one more. -/
theorem compactDims_concat (shape : List Nat) (size : Nat) : compactDims (shape ++ [size]) =
    if size ≠ 1 then
      { compactShape := (compactDims shape).compactShape ++ [size]
        compactIndex := (compactDims shape).compactIndex ++
          [((compactDims shape).compactShape.length : Int)] }
    else { compactDims shape with compactIndex := (compactDims shape).compactIndex ++ [-1] } := by
  rw [compactDims, List.foldl_append]
  rfl

theorem compactShape_eq (shape : List Nat) :
    (compactDims shape).compactShape = squeezedShape shape := by
  induction shape using List.reverseRecOn with
  | nil => rfl
  | append_singleton shape size ih =>
    rw [compactDims_concat, squeezedShape_concat, ← ih]
    by_cases one : size = 1 <;> simp [one]

@[simp] theorem length_compactIndex (shape : List Nat) :
    (compactDims shape).compactIndex.length = shape.length := by
  induction shape using List.reverseRecOn with
  | nil => rfl
  | append_singleton shape size ih =>
    rw [compactDims_concat]
    split <;> simp [ih]

/-- A dimension's number among those that do not have one element. -/
theorem getD_compactIndex {d : Nat} (inside : d < shape.length) :
    (compactDims shape).compactIndex.getD d (-1) =
      if shape.getD d 0 = 1 then -1 else ((nonUnitDims shape).idxOf d : Int) := by
  induction shape using List.reverseRecOn with
  | nil => cases inside
  | append_singleton shape size ih =>
    have index : (compactDims (shape ++ [size])).compactIndex =
        (compactDims shape).compactIndex ++
          [if size = 1 then -1 else ((nonUnitDims shape).length : Int)] := by
      rw [compactDims_concat, compactShape_eq, length_applyPermutation]
      by_cases one : size = 1 <;> simp [one]
    rw [index, nonUnitDims_concat]
    by_cases last : d = shape.length
    · have new : shape.length ∉ nonUnitDims shape := fun member =>
        Nat.lt_irrefl _ (mem_nonUnitDims.mp member).1
      rw [last, List.getD_append_right _ _ _ _ (by simp), List.getD_append_right _ _ _ _ (by simp)]
      by_cases one : size = 1 <;> simp [one, List.idxOf_append_of_notMem new]
    · have less : d < shape.length := by
        rw [List.length_append, List.length_singleton] at inside
        omega
      rw [List.getD_append _ _ _ _ (by simpa using less), ih less, List.getD_append _ _ _ _ less]
      by_cases one : shape.getD d 0 = 1
      · rw [if_pos one, if_pos one]
      · rw [if_neg one, if_neg one, List.idxOf_append_of_mem (mem_nonUnitDims.mpr ⟨less, one⟩)]

theorem compactPermutation_eq (inside : ∀ d ∈ permutation, d < shape.length) :
    compactPermutation shape permutation = squeezedPermutation shape permutation := by
  rw [squeezedPermutation, ← List.filterMap_eq_map, List.filterMap_filter]
  apply List.filterMap_congr
  intro d member
  simp only [getD_compactIndex (inside d member)]
  by_cases one : shape.getD d 0 = 1
  · rw [if_pos one, if_neg (by decide), if_neg (by simpa using one)]
  · rw [if_neg one, if_pos (Int.natCast_nonneg _), if_pos (by simpa using one)]
    rfl

section Operand

variable (input : Tensor α) (isPermutation : IsPermutation permutation)
  (length : permutation.length = input.shape.length)
include isPermutation length

/-- The operand of the matmul has the elements of the whole operand, permuted. -/
theorem permuteOperand_sameElements :
    SameElements (permuteOperand input permutation) (input.permute permutation) := by
  have squeezed := isPermutation_squeezed isPermutation length
  have isSqueezed := length_squeezedPermutation isPermutation length
  have reshaped : SameElements (input.reshape (squeezedShape input.shape)) input :=
    .reshape input (prod_squeezedShape _)
  have whole := SameElements.squeezed_permute input isPermutation length
  have inside (d : Nat) (member : d ∈ permutation) : d < input.shape.length :=
    length ▸ List.mem_range.mp (isPermutation.mem_iff.mp member)
  have lengths : (input.reshape (squeezedShape input.shape)).shape.length =
      (nonUnitDims input.shape).length := length_applyPermutation ..
  unfold permuteOperand
  simp only [compactShape_eq, compactPermutation_eq inside]
  split
  · rename_i sorted
    have same := permute_sorted (input.reshape (squeezedShape input.shape)) squeezed sorted
      (isSqueezed.trans lengths.symm)
    exact (whole.trans ((SameElements.of_same same).trans reshaped)).symm
  · split
    · exact whole.symm
    · rename_i unchanged
      have all : nonUnitDims input.shape = List.range input.shape.length := by
        apply List.Sublist.eq_of_length List.filter_sublist
        rw [length_applyPermutation] at unchanged
        rw [List.length_range]
        exact not_not.mp unchanged
      have isShape : squeezedShape input.shape = input.shape := by
        rw [squeezedShape, all, applyPermutation_range]
      have same : input.Same (input.reshape (squeezedShape input.shape)) :=
        reshaped.symm.same isShape.symm
      have permuted := same.permute squeezed (isSqueezed.trans (by rw [all, List.length_range]))
      exact (SameElements.of_same permuted).trans whole.symm

end Operand

namespace PermutedReshape

variable {permuted : PermutedReshape}

/-- A permute that TTIR admits. -/
structure Valid (permuted : PermutedReshape) : Prop where
  isPermutation : IsPermutation permuted.permutation
  length : permuted.permutation.length = permuted.reshapedShape.length

theorem sinkReshape_eq_some {result : List Nat} (matched : permuted.sinkReshape = some result) :
    squeezedShape permuted.inputShape = squeezedShape permuted.reshapedShape ∧
      result = permuted.inputPermutation := by
  unfold sinkReshape at matched
  split at matched
  · cases matched
  · split at matched
    · cases matched
    · split at matched
      · cases matched
      · rename_i sizes
        exact ⟨not_not.mp sizes, (Option.some.inj matched).symm⟩

section Matched

variable (valid : permuted.Valid)
  (sizes : squeezedShape permuted.inputShape = squeezedShape permuted.reshapedShape)
include valid sizes

omit valid in
theorem length_nonUnitDims : (nonUnitDims permuted.inputShape).length =
    (nonUnitDims permuted.reshapedShape).length := by
  simpa using congrArg List.length sizes

omit sizes in
/-- The dimensions of the reshape that the permutation lists. -/
theorem listed_perm : (permuted.permutation.filter fun d =>
    (nonUnitDims permuted.reshapedShape).contains d).Perm (nonUnitDims permuted.reshapedShape) := by
  have all := valid.isPermutation.filter fun d => (nonUnitDims permuted.reshapedShape).contains d
  rw [valid.length] at all
  have among : (List.range permuted.reshapedShape.length).filter
      (fun d => (nonUnitDims permuted.reshapedShape).contains d) =
        nonUnitDims permuted.reshapedShape :=
    List.filter_congr fun d member => by
      rw [Bool.eq_iff_iff, List.contains_iff_mem, mem_nonUnitDims]
      simpa using fun _ => List.mem_range.mp member
  rwa [among] at all

omit valid in
/-- The numbers of the reshape's dimensions are those of the input's. -/
theorem numbered_dims {d : Nat} (member : d ∈ nonUnitDims permuted.reshapedShape) :
    (nonUnitDims permuted.inputShape).getD ((nonUnitDims permuted.reshapedShape).idxOf d) 0 ∈
        nonUnitDims permuted.inputShape ∧
      (nonUnitDims permuted.inputShape).idxOf
          ((nonUnitDims permuted.inputShape).getD
            ((nonUnitDims permuted.reshapedShape).idxOf d) 0) =
        (nonUnitDims permuted.reshapedShape).idxOf d := by
  have place : (nonUnitDims permuted.reshapedShape).idxOf d <
      (nonUnitDims permuted.inputShape).length :=
    length_nonUnitDims sizes ▸ List.idxOf_lt_length_of_mem member
  rw [List.getD_eq_getElem _ _ place]
  exact ⟨List.getElem_mem place, (nodup_nonUnitDims _).idxOf_getElem _ place⟩

/-- What the pattern permutes the input with is a permutation of its dimensions. -/
theorem inputPermutation_perm :
    permuted.inputPermutation.Perm (List.range permuted.inputShape.length) := by
  have numbers : (nonUnitDims permuted.reshapedShape).map (fun d =>
      (nonUnitDims permuted.inputShape).getD
        ((nonUnitDims permuted.reshapedShape).idxOf d) 0) = nonUnitDims permuted.inputShape := by
    apply List.ext_getElem
    · rw [List.length_map, length_nonUnitDims sizes]
    · intro place isPlace _
      rw [List.length_map] at isPlace
      rw [List.getElem_map, (nodup_nonUnitDims _).idxOf_getElem _ isPlace,
        List.getD_eq_getElem _ _ (length_nonUnitDims sizes ▸ isPlace)]
  have moved := (listed_perm valid).map fun d =>
    (nonUnitDims permuted.inputShape).getD ((nonUnitDims permuted.reshapedShape).idxOf d) 0
  rw [numbers] at moved
  have units := List.filter_append_perm (fun d => permuted.inputShape.getD d 0 == 1)
    (List.range permuted.inputShape.length)
  exact (moved.append_left _).trans units

theorem length_inputPermutation :
    permuted.inputPermutation.length = permuted.inputShape.length := by
  rw [(inputPermutation_perm valid sizes).length_eq, List.length_range]

theorem isPermutation_inputPermutation : IsPermutation permuted.inputPermutation := by
  rw [IsPermutation, length_inputPermutation valid sizes]
  exact inputPermutation_perm valid sizes

/-- Without unit dimensions, both permutations are the same. -/
theorem squeezed_inputPermutation :
    squeezedPermutation permuted.inputShape permuted.inputPermutation =
      squeezedPermutation permuted.reshapedShape permuted.permutation := by
  have units : ((List.range permuted.inputShape.length).filter
      fun d => permuted.inputShape.getD d 0 == 1).filter
        (fun d => permuted.inputShape.getD d 0 != 1) = [] := by
    simp [List.filter_filter]
  have rest : ((permuted.permutation.filter fun d =>
      (nonUnitDims permuted.reshapedShape).contains d).map fun d =>
        (nonUnitDims permuted.inputShape).getD
          ((nonUnitDims permuted.reshapedShape).idxOf d) 0).filter
        (fun d => permuted.inputShape.getD d 0 != 1) =
      (permuted.permutation.filter fun d =>
        (nonUnitDims permuted.reshapedShape).contains d).map fun d =>
          (nonUnitDims permuted.inputShape).getD
            ((nonUnitDims permuted.reshapedShape).idxOf d) 0 := by
    apply List.filter_eq_self.mpr
    intro d member
    obtain ⟨origin, among, rfl⟩ := List.mem_map.mp member
    have isOrigin := List.contains_iff_mem.mp (List.mem_filter.mp among).2
    simpa using (mem_nonUnitDims.mp (numbered_dims sizes isOrigin).1).2
  have listed : (permuted.permutation.filter fun d =>
      (nonUnitDims permuted.reshapedShape).contains d) =
        permuted.permutation.filter fun d => permuted.reshapedShape.getD d 0 != 1 :=
    List.filter_congr fun d member => by
      have inside := List.mem_range.mp (valid.isPermutation.mem_iff.mp member)
      rw [valid.length] at inside
      rw [Bool.eq_iff_iff, List.contains_iff_mem, mem_nonUnitDims]
      simp [inside]
  rw [squeezedPermutation, inputPermutation, List.filter_append, units, List.nil_append, rest,
    List.map_map, squeezedPermutation, ← listed]
  apply List.map_congr_left
  intro d member
  exact (numbered_dims sizes (List.contains_iff_mem.mp (List.mem_filter.mp member).2)).2

/-- The reshape of the permuted input is the permuted reshape. -/
theorem sunk_same (input : Tensor α) (isShape : input.shape = permuted.inputShape) :
    (permuted.sunk permuted.inputPermutation input).Same (permuted.eval input) := by
  have volume : permuted.reshapedShape.prod = input.shape.prod := by
    rw [isShape, ← prod_squeezedShape, ← sizes, prod_squeezedShape]
  have isPermutation := isPermutation_inputPermutation valid sizes
  have length : permuted.inputPermutation.length = input.shape.length :=
    isShape ▸ length_inputPermutation valid sizes
  have reshaped : SameElements (input.reshape permuted.reshapedShape) input := .reshape input volume
  have original := SameElements.squeezed_permute (input.reshape permuted.reshapedShape)
    valid.isPermutation valid.length
  have moved := SameElements.squeezed_permute input isPermutation length
  rw [isShape, squeezed_inputPermutation valid sizes, sizes] at moved
  have squeezed : ((input.reshape permuted.reshapedShape).reshape
      (squeezedShape permuted.reshapedShape)).Same
        (input.reshape (squeezedShape permuted.reshapedShape)) :=
    reshaped.reshape_same (prod_squeezedShape _)
  have permutedSame := squeezed.permute (isPermutation_squeezed valid.isPermutation valid.length)
    ((length_squeezedPermutation valid.isPermutation valid.length).trans
      (length_applyPermutation ..).symm)
  have whole : SameElements (input.permute permuted.inputPermutation) (permuted.eval input) :=
    moved.trans ((original.trans (.of_same permutedSame)).symm)
  have sorted : SameElements (if isSorted permuted.inputPermutation then input
      else input.permute permuted.inputPermutation) (permuted.eval input) := by
    split
    · rename_i sorted
      exact (SameElements.of_same (permute_sorted input isPermutation sorted length)).symm.trans whole
    · exact whole
  have sunk : SameElements (permuted.sunk permuted.inputPermutation input) (permuted.eval input) :=
    (SameElements.reshape _ sorted.volume.symm).trans sorted
  exact sunk.same rfl

end Matched

end PermutedReshape

/-- Permutes without unit dimensions keep the elements in their order: the operand of a matmul is
the permuted operand to any reshape, and a permute is moved in front of a reshape. -/
theorem unit_dims_permuted (input : Tensor α) :
    (∀ permutation : List Nat, IsPermutation permutation →
      permutation.length = input.shape.length →
        SameElements (permuteOperand input permutation) (input.permute permutation) ∧
        ∀ shape : List Nat, shape.prod = (permuteOperand input permutation).shape.prod →
          ((permuteOperand input permutation).reshape shape).Same
            ((input.permute permutation).reshape shape)) ∧
      ∀ (permuted : PermutedReshape) (permutation : List Nat), permuted.Valid →
        input.shape = permuted.inputShape → permuted.sinkReshape = some permutation →
          permutation.Perm (List.range input.shape.length) ∧
            (permuted.sunk permutation input).Same (permuted.eval input) := by
  constructor
  · intro permutation isPermutation length
    have same := permuteOperand_sameElements input isPermutation length
    exact ⟨same, fun shape volume => same.reshape_same volume⟩
  · intro permuted permutation valid isShape matched
    obtain ⟨sizes, rfl⟩ := PermutedReshape.sinkReshape_eq_some matched
    exact ⟨isShape ▸ PermutedReshape.inputPermutation_perm valid sizes,
      PermutedReshape.sunk_same valid sizes input isShape⟩

/-- Two rows of three elements, and their transpose with a dimension of one element between. -/
theorem unit_dims_permuted_rows :
    SameElements (permuteOperand ⟨[2, 3], position [2, 3]⟩ [1, 0])
        (Tensor.permute ⟨[2, 3], position [2, 3]⟩ [1, 0]) ∧
      (PermutedReshape.sunk ⟨[2, 3], [2, 1, 3], true, [2, 1, 0]⟩ [1, 0]
        ⟨[2, 3], position [2, 3]⟩).Same
          (PermutedReshape.eval ⟨[2, 3], [2, 1, 3], true, [2, 1, 0]⟩
            ⟨[2, 3], position [2, 3]⟩) := by
  have permuted := unit_dims_permuted ⟨[2, 3], position [2, 3]⟩
  constructor
  · exact (permuted.1 [1, 0] (by decide) rfl).1
  · exact (permuted.2 ⟨[2, 3], [2, 1, 3], true, [2, 1, 0]⟩ [1, 0] ⟨by decide, rfl⟩ rfl
      (by decide +kernel)).2

end Libtt.Dots

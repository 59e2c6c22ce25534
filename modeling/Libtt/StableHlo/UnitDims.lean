import Libtt.StableHlo.Element

/-!
# Dimensions of one element

Dimensions of one element do not take part in the order of a tensor's elements.
-/
namespace Libtt.StableHlo

variable {α : Type} {shape index permutation : List Nat}

/-- The dimensions of which something is true, in their order. -/
def dimsWhere (p : Nat → Bool) (rank : Nat) : List Nat := (List.range rank).filter p

@[simp] theorem mem_dimsWhere {p : Nat → Bool} {rank d : Nat} :
    d ∈ dimsWhere p rank ↔ d < rank ∧ p d = true := by
  simp [dimsWhere]

theorem nodup_dimsWhere (p : Nat → Bool) (rank : Nat) : (dimsWhere p rank).Nodup :=
  List.nodup_range.filter p

theorem dimsWhere_succ (p : Nat → Bool) (rank : Nat) :
    dimsWhere p (rank + 1) = dimsWhere p rank ++ if p rank then [rank] else [] := by
  rw [dimsWhere, List.range_succ, List.filter_append]
  by_cases last : p rank <;> simp [dimsWhere, last]

/-- The values at some dimensions, of a list with one more value. -/
theorem applyPermutation_concat (p : Nat → Bool) (values : List Nat) (value : Nat) :
    applyPermutation (values ++ [value]) (dimsWhere p (values.length + 1)) =
      applyPermutation values (dimsWhere p values.length) ++
        if p values.length then [value] else [] := by
  have before : applyPermutation (values ++ [value]) (dimsWhere p values.length) =
      applyPermutation values (dimsWhere p values.length) :=
    applyPermutation_congr fun d member =>
      List.getD_append _ _ _ _ (mem_dimsWhere.mp member).1
  rw [dimsWhere_succ, applyPermutation, List.map_append]
  apply congrArg₂
  · exact before
  · split
    · rw [List.map_singleton, List.getD_append_right _ _ _ _ (Nat.le_refl _), Nat.sub_self,
        List.getD_cons_zero]
    · rfl

section Others

variable {p : Nat → Bool}

/-- The other dimensions have one element. -/
def OthersUnit (p : Nat → Bool) (shape : List Nat) : Prop :=
  ∀ d < shape.length, p d = false → shape.getD d 0 = 1

theorem OthersUnit.concat {size : Nat} (units : OthersUnit p (shape ++ [size])) :
    OthersUnit p shape ∧ (p shape.length = false → size = 1) := by
  constructor
  · intro d less other
    have unit := units d (by rw [List.length_append]; omega) other
    rwa [List.getD_append _ _ _ _ less] at unit
  · intro other
    have unit := units shape.length (by simp) other
    rwa [List.getD_append_right _ _ _ _ (Nat.le_refl _), Nat.sub_self, List.getD_cons_zero] at unit

theorem prod_dimsWhere (units : OthersUnit p shape) :
    (applyPermutation shape (dimsWhere p shape.length)).prod = shape.prod := by
  induction shape using List.reverseRecOn with
  | nil => rfl
  | append_singleton shape size ih =>
    have parts := units.concat
    rw [List.length_append, List.length_singleton, applyPermutation_concat, List.prod_append,
      List.prod_append, ih parts.1]
    by_cases listed : p shape.length = true
    · simp [listed]
    · rw [if_neg listed, parts.2 (Bool.eq_false_iff.mpr listed)]
      rfl

theorem within_dimsWhere (inside : Within index shape) :
    Within (applyPermutation index (dimsWhere p shape.length))
      (applyPermutation shape (dimsWhere p shape.length)) :=
  within_applyPermutation inside fun _ member => (mem_dimsWhere.mp member).1

/-- Dimensions of one element do not count in the number of an index. -/
theorem position_dimsWhere (units : OthersUnit p shape) (inside : Within index shape) :
    position (applyPermutation shape (dimsWhere p shape.length))
        (applyPermutation index (dimsWhere p shape.length)) = position shape index := by
  induction shape using List.reverseRecOn generalizing index with
  | nil => cases inside with | nil => rfl
  | append_singleton shape size ih =>
    have parts := units.concat
    obtain ⟨first, last, rfl, isFirst, isLast⟩ := within_append.mp inside
    cases isLast with
    | @cons coordinate _ _ _ below rest =>
      cases rest
      have kept := applyPermutation_concat p first coordinate
      rw [isFirst.length] at kept
      rw [List.length_append, List.length_singleton, kept, applyPermutation_concat,
        position_append (within_dimsWhere isFirst), position_append isFirst, ih parts.1 isFirst]
      by_cases listed : p shape.length = true
      · rw [if_pos listed, if_pos listed]
      · have zero : coordinate = 0 := by
          have one := parts.2 (Bool.eq_false_iff.mpr listed)
          omega
        rw [if_neg listed, if_neg listed, parts.2 (Bool.eq_false_iff.mpr listed), zero]
        rfl

/-- A reshape that adds dimensions of one element. -/
theorem reshape_units_data {operand : Tensor α} (units : OthersUnit p shape)
    (isShape : applyPermutation shape (dimsWhere p shape.length) = operand.shape)
    (inside : Within index shape) : (operand.reshape shape).data index =
      operand.data (applyPermutation index (dimsWhere p shape.length)) := by
  have volume : shape.prod = operand.shape.prod := by rw [← isShape, prod_dimsWhere units]
  have within : Within (applyPermutation index (dimsWhere p shape.length)) operand.shape :=
    isShape ▸ within_dimsWhere inside
  rw [Tensor.reshape_data inside volume, Tensor.data_eq operand within, ← isShape,
    position_dimsWhere units inside]

end Others

/-- The dimensions that do not have one element. -/
def nonUnitDims (shape : List Nat) : List Nat :=
  dimsWhere (fun d => shape.getD d 0 != 1) shape.length

/-- The shape without its dimensions of one element. -/
abbrev squeezedShape (shape : List Nat) : List Nat := applyPermutation shape (nonUnitDims shape)

/-- How a permutation moves the dimensions that are left. -/
def squeezedPermutation (shape permutation : List Nat) : List Nat :=
  (permutation.filter fun d => shape.getD d 0 != 1).map fun d => (nonUnitDims shape).idxOf d

theorem mem_nonUnitDims {d : Nat} :
    d ∈ nonUnitDims shape ↔ d < shape.length ∧ shape.getD d 0 ≠ 1 := by
  simp [nonUnitDims]

theorem nodup_nonUnitDims (shape : List Nat) : (nonUnitDims shape).Nodup := nodup_dimsWhere ..

theorem othersUnit_nonUnitDims (shape : List Nat) :
    OthersUnit (fun d => shape.getD d 0 != 1) shape :=
  fun _ _ other => bne_eq_false_iff_eq.mp other

/-- The dimensions of a shape with one more. -/
theorem nonUnitDims_concat (shape : List Nat) (size : Nat) : nonUnitDims (shape ++ [size]) =
    nonUnitDims shape ++ if size = 1 then [] else [shape.length] := by
  have before : dimsWhere (fun d => (shape ++ [size]).getD d 0 != 1) shape.length =
      nonUnitDims shape :=
    List.filter_congr fun d member => by
      rw [List.getD_append _ _ _ _ (List.mem_range.mp member)]
  rw [nonUnitDims, List.length_append, List.length_singleton, dimsWhere_succ, before]
  by_cases one : size = 1 <;> simp [one]

/-- The shape that is left of a shape with one more dimension. -/
theorem squeezedShape_concat (shape : List Nat) (size : Nat) : squeezedShape (shape ++ [size]) =
    squeezedShape shape ++ if size = 1 then [] else [size] := by
  have before : applyPermutation (shape ++ [size]) (nonUnitDims shape) = squeezedShape shape :=
    applyPermutation_congr fun d member =>
      List.getD_append _ _ _ _ (mem_nonUnitDims.mp member).1
  rw [squeezedShape, nonUnitDims_concat, applyPermutation, List.map_append]
  apply congrArg₂
  · exact before
  · by_cases one : size = 1 <;> simp [one]

theorem prod_squeezedShape (shape : List Nat) : (squeezedShape shape).prod = shape.prod :=
  prod_dimsWhere (othersUnit_nonUnitDims shape)

/-- What is left of an index is within what is left of the shape. -/
theorem within_squeezed (inside : Within index shape) :
    Within (applyPermutation index (nonUnitDims shape)) (squeezedShape shape) :=
  within_dimsWhere inside

theorem position_squeezed (inside : Within index shape) :
    position (squeezedShape shape) (applyPermutation index (nonUnitDims shape)) =
      position shape index :=
  position_dimsWhere (othersUnit_nonUnitDims shape) inside

section Permuted

variable (isPermutation : IsPermutation permutation) (length : permutation.length = shape.length)
include isPermutation length

/-- The dimensions that a permutation moves are those that are left. -/
theorem filter_perm : (permutation.filter fun d => shape.getD d 0 != 1).Perm (nonUnitDims shape) := by
  have all := isPermutation.filter fun d => shape.getD d 0 != 1
  rwa [length] at all

theorem length_squeezedPermutation :
    (squeezedPermutation shape permutation).length = (nonUnitDims shape).length := by
  rw [squeezedPermutation, List.length_map, (filter_perm isPermutation length).length_eq]

theorem isPermutation_squeezed : IsPermutation (squeezedPermutation shape permutation) :=
  isPermutation_idxOf (filter_perm isPermutation length) (nodup_nonUnitDims shape)

/-- What is left of the permuted coordinates is what is left of them, permuted. -/
theorem squeeze_permuted (values : List Nat) :
    applyPermutation (applyPermutation values permutation)
        (nonUnitDims (applyPermutation shape permutation)) =
      applyPermutation (applyPermutation values (nonUnitDims shape))
        (squeezedPermutation shape permutation) := by
  have listed : (List.range permutation.length).map (fun place => permutation.getD place 0) =
      permutation := applyPermutation_range
  have kept : (nonUnitDims (applyPermutation shape permutation)).map
      (fun place => permutation.getD place 0) =
        permutation.filter fun d => shape.getD d 0 != 1 := by
    conv_rhs => rw [← listed, List.filter_map]
    rw [nonUnitDims, dimsWhere, length_applyPermutation]
    apply congrArg
    apply List.filter_congr
    intro place member
    rw [getD_applyPermutation (List.mem_range.mp member)]
    rfl
  calc applyPermutation (applyPermutation values permutation)
        (nonUnitDims (applyPermutation shape permutation))
      = ((nonUnitDims (applyPermutation shape permutation)).map
          (fun place => permutation.getD place 0)).map fun d => values.getD d 0 := by
        rw [applyPermutation, List.map_map]
        apply List.map_congr_left
        intro place member
        have less := (mem_nonUnitDims.mp member).1
        rw [length_applyPermutation] at less
        exact getD_applyPermutation less
    _ = (permutation.filter fun d => shape.getD d 0 != 1).map fun d => values.getD d 0 := by
        rw [kept]
    _ = applyPermutation (applyPermutation values (nonUnitDims shape))
          (squeezedPermutation shape permutation) :=
        (applyPermutation_idxOf fun _ => (filter_perm isPermutation length).mem_iff.mp).symm

end Permuted

/-- A permuted tensor has the elements that it has without dimensions of one element. -/
theorem Tensor.SameElements.squeezed_permute (operand : Tensor α)
    (isPermutation : IsPermutation permutation)
    (length : permutation.length = operand.shape.length) :
    SameElements (operand.permute permutation)
      ((operand.reshape (squeezedShape operand.shape)).permute
        (squeezedPermutation operand.shape permutation)) := by
  have isShape : squeezedShape (applyPermutation operand.shape permutation) =
      applyPermutation (squeezedShape operand.shape)
        (squeezedPermutation operand.shape permutation) :=
    squeeze_permuted isPermutation length operand.shape
  apply of_partner
  · exact (prod_squeezedShape _).symm.trans (congrArg List.prod isShape)
  · intro index inside
    obtain ⟨origin, isOrigin, rfl⟩ := within_permute isPermutation length inside
    have squeezed := squeeze_permuted isPermutation length origin
    have isLength : (applyPermutation origin (nonUnitDims operand.shape)).length =
        (squeezedPermutation operand.shape permutation).length := by
      rw [length_applyPermutation, length_squeezedPermutation isPermutation length]
    have partner := within_squeezed inside
    have number := position_squeezed inside
    rw [Tensor.permute, isShape, squeezed] at partner number
    refine ⟨_, partner, number.symm, ?_⟩
    rw [isPermutation.permute_data operand (isOrigin.length.trans length.symm),
      (isPermutation_squeezed isPermutation length).permute_data _ isLength,
      reshape_data (within_squeezed isOrigin) (prod_squeezedShape _), position_squeezed isOrigin,
      data_eq operand isOrigin]

end Libtt.StableHlo

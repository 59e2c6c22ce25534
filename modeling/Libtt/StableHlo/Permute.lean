import Libtt.StableHlo.Coordinates

/-!
# Permutations of dimensions

A permutation lists the dimension that each place takes. Applied to a shape or an index it gives the
permuted one, and the inverse gives it back.
-/
namespace Libtt.StableHlo

variable {α : Type} {permutation values index : List Nat}

/-- `applyPermutation`. -/
def applyPermutation (values permutation : List Nat) : List Nat :=
  permutation.map fun dimension => values.getD dimension 0

/-- `inversePermutation`: the place of each dimension. -/
def inversePermutation (permutation : List Nat) : List Nat :=
  (List.range permutation.length).map fun dimension => permutation.idxOf dimension

/-- The dimensions are each listed once. -/
abbrev IsPermutation (permutation : List Nat) : Prop :=
  permutation.Perm (List.range permutation.length)

/-- The dimensions of the result are those that the permutation lists. -/
def Tensor.permute (operand : Tensor α) (permutation : List Nat) : Tensor α where
  shape := applyPermutation operand.shape permutation
  data index := operand.data (applyPermutation index (inversePermutation permutation))

@[simp] theorem length_applyPermutation (values permutation : List Nat) :
    (applyPermutation values permutation).length = permutation.length := List.length_map _

@[simp] theorem length_inversePermutation (permutation : List Nat) :
    (inversePermutation permutation).length = permutation.length := by
  simp [inversePermutation]

theorem getD_applyPermutation {d : Nat} (inside : d < permutation.length) :
    (applyPermutation values permutation).getD d 0 = values.getD (permutation.getD d 0) 0 := by
  simp [applyPermutation, inside]

theorem getD_inversePermutation {d : Nat} (inside : d < permutation.length) :
    (inversePermutation permutation).getD d 0 = permutation.idxOf d := by
  simp [inversePermutation, inside]

/-- The coordinates of some dimensions are within these. -/
theorem within_applyPermutation {shape : List Nat} (inside : Within index shape)
    (below : ∀ d ∈ permutation, d < shape.length) :
    Within (applyPermutation index permutation) (applyPermutation shape permutation) := by
  refine List.forall₂_map_left_iff.mpr (List.forall₂_map_right_iff.mpr ?_)
  exact List.forall₂_same.mpr fun d member => (within_iff_getD.mp inside).2 d (below d member)

theorem applyPermutation_congr {other : List Nat}
    (same : ∀ d ∈ permutation, values.getD d 0 = other.getD d 0) :
    applyPermutation values permutation = applyPermutation other permutation :=
  List.map_congr_left same

@[simp] theorem applyPermutation_range : applyPermutation values (List.range values.length) =
    values :=
  ext_getD 0 (by simp) rfl fun d inside => by simp [applyPermutation, inside]

/-- A permutation of the dimensions of a rank. -/
theorem isPermutation_of_perm {dims : List Nat} {rank : Nat}
    (perm : dims.Perm (List.range rank)) :
    IsPermutation dims ∧ dims.length = rank := by
  have length : dims.length = rank := perm.length_eq.trans List.length_range
  rw [IsPermutation, length]
  exact ⟨perm, rfl⟩

/-- Some of the values that are kept, by their places among these. -/
theorem applyPermutation_idxOf {dims kept : List Nat} (among : ∀ d ∈ dims, d ∈ kept) :
    applyPermutation (applyPermutation values kept) (dims.map fun d => kept.idxOf d) =
      applyPermutation values dims := by
  rw [applyPermutation, List.map_map]
  apply List.map_congr_left
  intro d member
  have place := List.idxOf_lt_length_of_mem (among d member)
  rw [Function.comp_apply, getD_applyPermutation place, List.getD_eq_getElem _ _ place,
    List.getElem_idxOf]

/-- The places of what is kept, in another order. -/
theorem isPermutation_idxOf {dims kept : List Nat} (perm : dims.Perm kept) (once : kept.Nodup) :
    IsPermutation (dims.map fun d => kept.idxOf d) := by
  have places : kept.map (fun d => kept.idxOf d) = List.range kept.length := by
    apply List.ext_getElem
    · simp
    · intro place _ _
      simp [once.idxOf_getElem]
  have moved := perm.map fun d => kept.idxOf d
  rw [places] at moved
  rwa [IsPermutation, List.length_map, perm.length_eq]

namespace IsPermutation

variable (isPermutation : IsPermutation permutation)
include isPermutation

theorem mem {d : Nat} (inside : d < permutation.length) : d ∈ permutation :=
  isPermutation.mem_iff.mpr (List.mem_range.mpr inside)

theorem getD_lt {d : Nat} (inside : d < permutation.length) :
    permutation.getD d 0 < permutation.length := by
  rw [List.getD_eq_getElem _ _ inside]
  exact List.mem_range.mp (isPermutation.mem_iff.mp (List.getElem_mem inside))

theorem nodup : permutation.Nodup := isPermutation.nodup_iff.mpr List.nodup_range

/-- The place of what is listed at a place. -/
theorem idxOf_getD {d : Nat} (inside : d < permutation.length) :
    permutation.idxOf (permutation.getD d 0) = d := by
  rw [List.getD_eq_getElem _ _ inside, isPermutation.nodup.idxOf_getElem]

/-- The inverse undoes the permutation. -/
theorem apply_inverse (length : values.length = permutation.length) :
    applyPermutation (applyPermutation values permutation) (inversePermutation permutation) =
      values := by
  refine ext_getD 0 (by simp) length fun d inside => ?_
  have place : permutation.idxOf d < permutation.length :=
    List.idxOf_lt_length_of_mem (isPermutation.mem inside)
  rw [getD_applyPermutation (by simpa using inside), getD_inversePermutation inside,
    getD_applyPermutation place, List.getD_eq_getElem _ _ place, List.getElem_idxOf]

/-- The permutation undoes the inverse. -/
theorem inverse_apply (length : values.length = permutation.length) :
    applyPermutation (applyPermutation values (inversePermutation permutation)) permutation =
      values := by
  refine ext_getD 0 (by simp) length fun d inside => ?_
  have place := isPermutation.getD_lt inside
  rw [getD_applyPermutation inside, getD_applyPermutation (by simpa using place),
    getD_inversePermutation place, isPermutation.idxOf_getD inside]

/-- The inverse is one too. -/
theorem inverse : IsPermutation (inversePermutation permutation) := by
  have once : (inversePermutation permutation).Nodup := by
    refine List.Nodup.map_on (fun first isFirst second isSecond same => ?_) List.nodup_range
    exact (List.idxOf_inj (isPermutation.mem (List.mem_range.mp isFirst))).mp same
  refine (List.perm_ext_iff_of_nodup once List.nodup_range).mpr fun d => ?_
  rw [length_inversePermutation, List.mem_range, inversePermutation, List.mem_map]
  constructor
  · rintro ⟨other, inside, rfl⟩
    exact List.idxOf_lt_length_of_mem (isPermutation.mem (List.mem_range.mp inside))
  · intro inside
    exact ⟨permutation.getD d 0, List.mem_range.mpr (isPermutation.getD_lt inside),
      isPermutation.idxOf_getD inside⟩

theorem inverse_inverse : inversePermutation (inversePermutation permutation) = permutation := by
  refine ext_getD 0 (by simp) rfl fun d inside => ?_
  have place := isPermutation.getD_lt inside
  have listed : (inversePermutation permutation).getD (permutation.getD d 0) 0 = d := by
    rw [getD_inversePermutation place, isPermutation.idxOf_getD inside]
  rw [getD_inversePermutation (by simpa using inside)]
  conv_lhs => rw [← listed]
  exact isPermutation.inverse.idxOf_getD (by simpa using place)

/-- A permuted index is within the permuted shape. -/
theorem within {shape : List Nat} (length : shape.length = permutation.length)
    (inside : Within index shape) :
    Within (applyPermutation index permutation) (applyPermutation shape permutation) :=
  within_applyPermutation inside fun d member => by
    rw [length]
    exact List.mem_range.mp (isPermutation.mem_iff.mp member)

/-- A permuted tensor at a permuted index. -/
theorem permute_data (operand : Tensor α) (length : index.length = permutation.length) :
    (operand.permute permutation).data (applyPermutation index permutation) = operand.data index :=
  congrArg operand.data (isPermutation.apply_inverse length)

/-- A tensor that is permuted unless the permutation changes nothing. -/
theorem permute_unless_range (operand : Tensor α)
    (length : operand.shape.length = permutation.length) (rank : Nat) :
    (if permutation = List.range rank then operand else operand.permute permutation).shape =
        applyPermutation operand.shape permutation ∧
      ∀ index : List Nat, index.length = permutation.length →
        (if permutation = List.range rank then operand else operand.permute permutation).data
          (applyPermutation index permutation) = operand.data index := by
  have unchanged (range : permutation = List.range rank) {values : List Nat}
      (isLength : values.length = permutation.length) :
      applyPermutation values permutation = values := by
    have isRank : values.length = rank := by rw [isLength, range, List.length_range]
    rw [range, ← isRank, applyPermutation_range]
  split
  · rename_i range
    exact ⟨(unchanged range length).symm, fun index isLength =>
      congrArg operand.data (unchanged range isLength)⟩
  · exact ⟨rfl, fun index isLength => isPermutation.permute_data operand isLength⟩

/-- A tensor that is permuted back. -/
theorem permute_inverse_data (operand : Tensor α) (index : List Nat) :
    (operand.permute (inversePermutation permutation)).data index =
      operand.data (applyPermutation index permutation) := by
  rw [Tensor.permute, isPermutation.inverse_inverse]

theorem prod_apply (length : values.length = permutation.length) :
    (applyPermutation values permutation).prod = values.prod := by
  calc (applyPermutation values permutation).prod
      = (applyPermutation values (List.range values.length)).prod := by
        rw [length]
        exact (isPermutation.map _).prod_eq
    _ = values.prod := by rw [applyPermutation_range]

end IsPermutation

end Libtt.StableHlo

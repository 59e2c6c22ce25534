import Libtt.StableHlo.DotGeneral

/-!
# Reversed dimensions

A tensor that is reversed along some dimensions has, at an index, the element that is as far from
the end in these.
-/
namespace Libtt.StableHlo

variable {α : Type} {index sizes : List Nat}

/-- The coordinates, counted from the end. -/
def mirror (sizes index : List Nat) : List Nat :=
  List.zipWith (fun size coordinate => size - 1 - coordinate) sizes index

theorem mirror_within (inside : Within index sizes) :
    Within (mirror sizes index) sizes ∧ mirror sizes (mirror sizes index) = index := by
  induction inside with
  | nil => exact ⟨.nil, rfl⟩
  | @cons coordinate size index sizes below inside ih =>
    constructor
    · have less : size - 1 - coordinate < size := by omega
      exact .cons less ih.1
    · have back : size - 1 - (size - 1 - coordinate) = coordinate := by omega
      exact congrArg₂ List.cons back ih.2

/-- The mirrored indices are the indices. -/
theorem mirror_perm (sizes : List Nat) :
    ((indices sizes).map (mirror sizes)).Perm (indices sizes) := by
  have once : ((indices sizes).map (mirror sizes)).Nodup := by
    apply List.Nodup.map_on _ (nodup_indices sizes)
    intro first isFirst second isSecond same
    have back := congrArg (mirror sizes) same
    rwa [(mirror_within (mem_indices.mp isFirst)).2,
      (mirror_within (mem_indices.mp isSecond)).2] at back
  apply (List.perm_ext_iff_of_nodup once (nodup_indices sizes)).mpr
  intro index
  rw [List.mem_map, mem_indices]
  constructor
  · rintro ⟨other, member, rfl⟩
    exact (mirror_within (mem_indices.mp member)).1
  · intro inside
    have mirrored := mirror_within inside
    exact ⟨mirror sizes index, mem_indices.mpr mirrored.1, mirrored.2⟩

theorem sum_mirror [AddCommMonoid α] (sizes : List Nat) (f : List Nat → α) :
    ((indices sizes).map fun index => f (mirror sizes index)).sum = ((indices sizes).map f).sum := by
  have perm := (mirror_perm sizes).map f
  rw [List.map_map] at perm
  exact perm.sum_eq

theorem getD_mirror (inside : Within index sizes) {d : Nat} (less : d < sizes.length) :
    (mirror sizes index).getD d 0 = sizes.getD d 0 - 1 - index.getD d 0 := by
  have isLength := inside.length
  simp [mirror, less, isLength]

namespace Tensor

/-- The index whose coordinates in some dimensions are counted from the end. -/
def mirroredIn (dims shape index : List Nat) : List Nat :=
  (List.range shape.length).map fun d =>
    if d ∈ dims then shape.getD d 0 - 1 - index.getD d 0 else index.getD d 0

variable {operand : Tensor α} {dims : List Nat}

@[simp] theorem length_mirroredIn (dims shape index : List Nat) :
    (mirroredIn dims shape index).length = shape.length := by
  simp [mirroredIn]

theorem getD_mirroredIn {shape : List Nat} {d : Nat} (less : d < shape.length) :
    (mirroredIn dims shape index).getD d 0 =
      if d ∈ dims then shape.getD d 0 - 1 - index.getD d 0 else index.getD d 0 := by
  simp [mirroredIn, less]

@[simp] theorem foldl_reverse_shape (operand : Tensor α) (dims : List Nat) :
    (dims.foldl Tensor.reverse operand).shape = operand.shape := by
  induction dims generalizing operand with
  | nil => rfl
  | cons dim dims ih => exact ih (operand.reverse dim)

/-- A tensor that is reversed along each of some dimensions. -/
theorem foldl_reverse_data (once : dims.Nodup) (inside : ∀ d ∈ dims, d < operand.shape.length)
    (length : index.length = operand.shape.length) :
    (dims.foldl Tensor.reverse operand).data index =
      operand.data (mirroredIn dims operand.shape index) := by
  induction dims generalizing operand with
  | nil =>
    apply congrArg operand.data
    apply ext_getD 0 length (length_mirroredIn _ _ _)
    intro d less
    rw [getD_mirroredIn less, if_neg (List.not_mem_nil)]
  | cons dim dims ih =>
    rw [List.nodup_cons] at once
    have dimInside := inside dim List.mem_cons_self
    have rest := @ih (operand.reverse dim) once.2
      (fun d member => inside d (List.mem_cons_of_mem _ member)) length
    apply rest.trans
    apply congrArg operand.data
    apply ext_getD 0 (by simp [Tensor.reverse]) (length_mirroredIn _ _ _)
    intro d less
    rw [getD_set (by simpa [Tensor.reverse] using dimInside), getD_mirroredIn less,
      getD_mirroredIn (show dim < (operand.reverse dim).shape.length from dimInside),
      if_neg once.1]
    by_cases isDim : d = dim
    · rw [if_pos isDim, if_pos (isDim ▸ List.mem_cons_self), isDim]
    · rw [if_neg isDim, getD_mirroredIn (show d < (operand.reverse dim).shape.length from less)]
      simp only [List.mem_cons, isDim, false_or]
      rfl

end Tensor

/-- A coordinate of an index that is given by its coordinates at the listed dimensions. -/
theorem getD_placed {dims coordinates : List Nat} {d : Nat} (less : d < dims.length) :
    (placed dims coordinates).getD d 0 = coordinates.getD (dims.idxOf d) 0 := by
  rw [placed, getD_applyPermutation (by simpa using less), getD_inversePermutation less]

end Libtt.StableHlo

import Libtt.Cumulative.Matchers
import Libtt.StableHlo.Window

/-!
# Pooling on a normalized layout

The conversion of `stablehlo.reduce_window` permutes and reshapes an input of rank 2 to 5 so that a
two-dimensional pool works on it, and undoes both for the result. What TTIR pools are is as they are
documented: the pooled dimensions are the second and third of four, and padding does not take part.
-/
namespace Libtt.Pooling

open Libtt.StableHlo Libtt.Cumulative

variable {α : Type}

/-- The attributes of a window: a value for each dimension, and padding before and after each. -/
structure WindowAttributes where
  windowDimensions : List Nat
  windowStrides : List Nat
  windowDilations : List Nat
  padding : List Int
  deriving DecidableEq, Repr

namespace WindowAttributes

variable (attributes : WindowAttributes)

/-- The window of a dimension. -/
def window (d : Nat) : Window where
  size := attributes.windowDimensions.getD d 1
  stride := attributes.windowStrides.getD d 1
  dilation := attributes.windowDilations.getD d 1
  low := attributes.padding.getD (d * 2) 0
  high := attributes.padding.getD (d * 2 + 1) 0

def windows (rank : Nat) : List Window := (List.range rank).map attributes.window

/-- A dimension whose window is not that of every other dimension. -/
def isActive (i : Nat) : Bool :=
  attributes.windowDimensions.getD i 1 != 1 || attributes.windowStrides.getD i 1 != 1 ||
    attributes.windowDilations.getD i 1 != 1 || attributes.padding.getD (i * 2) 0 != 0 ||
    attributes.padding.getD (i * 2 + 1) 0 != 0

end WindowAttributes

structure Pool2DLayout where
  spatialDims : List Nat
  permutation : List Nat
  inversePermutation : List Nat
  deriving DecidableEq, Repr

namespace Pool2DLayout

variable (layout : Pool2DLayout)

def needsPermute : Bool :=
  (List.range layout.permutation.length).any fun index => layout.permutation.getD index 0 != index

def needsReshape : Bool := layout.permutation.length != 4

def getPermutedShape (shape : List Nat) : List Nat := applyPermutation shape layout.permutation

def getNormalizedShape (shape : List Nat) : List Nat :=
  match layout.getPermutedShape shape with
  | [first, second] => [1, first, second, 1]
  | [first, second, third] => [first, second, third, 1]
  | [first, second, third, fourth] => [first, second, third, fourth]
  | [first, second, third, fourth, fifth] => [first * second, third, fourth, fifth]
  | _ => []

end Pool2DLayout

def getPool2DLayout (inputShape : List Nat) (attributes : WindowAttributes) :
    Option Pool2DLayout :=
  let rank := inputShape.length
  if rank < 2 ∨ 5 < rank then none
  else
    let active := (List.range rank).filter attributes.isActive
    if 2 < active.length then none
    else if active.length = 1 ∧ active.getD 0 0 < rank - 2 then none
    else
      -- Rank 2 is HW, and higher ranks use their last two dimensions.
      let spatialDims := if active.length < 2 then [rank - 2, rank - 1] else active
      let nonSpatialDims := (List.range rank).filter fun i => !spatialDims.contains i
      let leading := if rank = 3 then nonSpatialDims
        else if 4 ≤ rank ∧ nonSpatialDims ≠ [] then nonSpatialDims.dropLast
        else []
      let trailing := if 4 ≤ rank ∧ nonSpatialDims ≠ [] then [nonSpatialDims.getLastD 0] else []
      let permutation := leading ++ [spatialDims.getD 0 0, spatialDims.getD 1 0] ++ trailing
      some { spatialDims, permutation, inversePermutation := inversePermutation permutation }

/-- `stablehlo.reduce_window`: padding has the init value, from which the reduction starts. -/
def reduceWindow (combine : α → α → α) (initValue : α) (attributes : WindowAttributes)
    (input : Tensor α) : Tensor α where
  shape := Tensor.windowedShape (attributes.windows input.shape.length) input.shape
  data index := ((input.windowAt (attributes.windows input.shape.length) index).map
    fun element => element.getD initValue).foldl combine initValue

/-- The windows of a pool over the second and third dimension. -/
def poolWindows (kernelH kernelW : Window) : List Window := [.unit, kernelH, kernelW, .unit]

/-- A pool over the elements in a window. -/
def pool2d (combine : α → α → α) (identity : α) (kernelH kernelW : Window) (input : Tensor α) :
    Tensor α where
  shape := Tensor.windowedShape (poolWindows kernelH kernelW) input.shape
  data index := ((input.windowAt (poolWindows kernelH kernelW) index).filterMap id).foldl combine
    identity

namespace Pool2DLayout

variable (layout : Pool2DLayout)

/-- The permuted and reshaped value. -/
def normalize (input : Tensor α) : Tensor α :=
  let permuted := if layout.needsPermute then input.permute layout.permutation else input
  if layout.needsReshape then permuted.reshape (layout.getNormalizedShape input.shape)
  else permuted

def restoreOriginalLayout (resultShape : List Nat) (result : Tensor α) : Tensor α :=
  let result := if layout.needsReshape then result.reshape (layout.getPermutedShape resultShape)
    else result
  if layout.needsPermute then result.permute layout.inversePermutation else result

/-- The windows of the spatial dimensions, which a pool gets. -/
def kernel (attributes : WindowAttributes) (place : Nat) : Window :=
  attributes.window (layout.spatialDims.getD place 0)

/-- A pool of the normalized input. -/
def pooled (attributes : WindowAttributes) (combine : α → α → α) (identity : α)
    (input : Tensor α) : Tensor α :=
  pool2d combine identity (layout.kernel attributes 0) (layout.kernel attributes 1) input

end Pool2DLayout

/-- `-x`, of which only formats with a sign have every value. -/
def negate {format : FloatFormat} : FloatValue format → FloatValue format
  | .nan => .nan
  | .number key _ => .clamped (-1 - key)

/-- A max pool, in the layout of the result. -/
def lowerMaximum {type : ElementType} (semantics : Semantics) (layout : Pool2DLayout)
    (attributes : WindowAttributes) (initValue : Element type) (input : Tensor (Element type)) :
    Tensor (Element type) :=
  layout.restoreOriginalLayout
    (Tensor.windowedShape (attributes.windows input.shape.length) input.shape)
    (layout.pooled attributes (semantics.combine .maximum type) initValue
      (layout.normalize input))

/-- A min pool of floats: the negated max pool of the negated input. -/
def lowerMinimum {format : FloatFormat} (layout : Pool2DLayout) (attributes : WindowAttributes)
    (initValue : FloatValue format) (input : Tensor (FloatValue format)) :
    Tensor (FloatValue format) :=
  layout.restoreOriginalLayout
    (Tensor.windowedShape (attributes.windows input.shape.length) input.shape)
    ((layout.pooled attributes FloatValue.maximum (negate initValue)
      ((layout.normalize input).map negate)).map negate)

end Libtt.Pooling

/-! ## The normalized layout is the original one -/
namespace Libtt.Pooling

open Libtt.StableHlo

variable {α : Type} {attributes : WindowAttributes} {layout : Pool2DLayout}

/-- The groups of dimensions that a layout lists. -/
structure Groups where
  leading : List Nat
  first : Nat
  second : Nat
  trailing : List Nat

/-- A layout of a rank consists of the groups. Other dimensions than the spatial ones have no
window, and how many are before and behind these two goes by the rank. -/
structure Groups.Of (groups : Groups) (layout : Pool2DLayout) (attributes : WindowAttributes)
    (rank : Nat) : Prop where
  spatialDims : layout.spatialDims = [groups.first, groups.second]
  permutation : layout.permutation =
    groups.leading ++ [groups.first, groups.second] ++ groups.trailing
  inverse : layout.inversePermutation = inversePermutation layout.permutation
  isPermutation : IsPermutation layout.permutation
  length : layout.permutation.length = rank
  order : groups.first < groups.second
  inside : groups.second < rank
  units : ∀ d < rank, d ≠ groups.first → d ≠ groups.second → attributes.window d = .unit
  sizes : (groups.leading.length, groups.trailing.length) ∈ [(0, 0), (1, 0), (1, 1), (2, 1)]

theorem windows_getD {rank d : Nat} (less : d < rank) :
    (attributes.windows rank).getD d .unit = attributes.window d := by
  simp [WindowAttributes.windows, less]

theorem pool_paired (kernelH kernelW : Window) :
    Tensor.Paired (poolWindows kernelH kernelW) 1 2 where
  order := by decide
  inside := by simp [poolWindows]
  units d less isFirst isSecond := by
    match d with
    | 0 => rfl
    | 1 => exact absurd rfl isFirst
    | 2 => exact absurd rfl isSecond
    | 3 => rfl
    | d + 4 => simp [poolWindows] at less

theorem window_unit {d : Nat} (passive : attributes.isActive d = false) :
    attributes.window d = .unit := by
  simp only [WindowAttributes.isActive, Bool.or_eq_false_iff, bne_eq_false_iff_eq] at passive
  obtain ⟨⟨⟨⟨size, stride⟩, dilation⟩, low⟩, high⟩ := passive
  rw [WindowAttributes.window, size, stride, dilation, low, high]
  rfl

/-- The dimensions that `getPool2DLayout` takes for the spatial ones. -/
theorem spatialDims_pair {rank : Nat} (ranked : 2 ≤ rank) {active : List Nat}
    (isActive : active = (List.range rank).filter attributes.isActive)
    (few : ¬2 < active.length) (trailing : ¬(active.length = 1 ∧ active.getD 0 0 < rank - 2)) :
    ∃ first second, (if active.length < 2 then [rank - 2, rank - 1] else active) =
      [first, second] ∧ first < second ∧ second < rank ∧ ∀ d ∈ active, d = first ∨ d = second := by
  have sorted : active.Pairwise (· < ·) := isActive ▸ List.pairwise_lt_range.filter _
  have below : ∀ d ∈ active, d < rank := fun d member =>
    List.mem_range.mp (List.mem_filter.mp (isActive ▸ member)).1
  match active with
  | [] => exact ⟨rank - 2, rank - 1, rfl, by omega, by omega, by simp⟩
  | [only] =>
    have late : rank - 2 ≤ only := by simpa using trailing
    have less := below only (List.mem_singleton_self only)
    exact ⟨rank - 2, rank - 1, rfl, by omega, by omega, by simp; omega⟩
  | [first, second] =>
    refine ⟨first, second, rfl, List.rel_of_pairwise_cons sorted (List.mem_singleton_self _),
      below second (by simp), by simp⟩
  | _ :: _ :: _ :: _ => exact absurd (by simp) few

/-- All dimensions but two of them. -/
theorem others_perm {rank first second : Nat} (order : first < second) (inside : second < rank) :
    ((List.range rank).filter (fun i => !(([first, second] : List Nat).contains i)) ++
      [first, second]).Perm (List.range rank) := by
  have spatial : ((List.range rank).filter fun i => [first, second].contains i).Perm
      [first, second] := by
    refine (List.perm_ext_iff_of_nodup (List.nodup_range.filter _)
      (by simpa using Nat.ne_of_lt order)).mpr fun d => ?_
    simp only [List.mem_filter, List.mem_range, List.contains_iff_mem, and_iff_right_iff_imp]
    intro member
    rcases List.mem_pair.mp member with rfl | rfl <;> omega
  exact (List.perm_append_comm.trans (spatial.symm.append_right _)).trans
    (List.filter_append_perm _ _)

/-- The other dimensions, before and behind the spatial ones. -/
theorem others_split {rank : Nat} {others : List Nat} (count : others.length + 2 = rank)
    (few : rank ≤ 5) : ∃ leading trailing,
      (if rank = 3 then others else if 4 ≤ rank ∧ others ≠ [] then others.dropLast else []) =
        leading ∧
      (if 4 ≤ rank ∧ others ≠ [] then [others.getLastD 0] else []) = trailing ∧
      leading ++ trailing = others ∧
      (leading.length, trailing.length) ∈ [(0, 0), (1, 0), (1, 1), (2, 1)] := by
  match others with
  | [] => exact ⟨[], [], by simp [← count], by simp, rfl, by simp⟩
  | [only] => exact ⟨[only], [], by simp [← count], by simp [← count], rfl, by simp⟩
  | [first, last] => exact ⟨[first], [last], by simp [← count], by simp [← count], rfl, by simp⟩
  | [first, second, last] =>
    exact ⟨[first, second], [last], by simp [← count], by simp [← count], rfl, by simp⟩
  | _ :: _ :: _ :: _ :: _ =>
    simp only [List.length_cons] at count
    omega

theorem groups_of {shape : List Nat} (isLayout : getPool2DLayout shape attributes = some layout) :
    ∃ groups : Groups, groups.Of layout attributes shape.length := by
  generalize isRank : shape.length = rank
  generalize isActive : (List.range rank).filter attributes.isActive = active
  simp only [getPool2DLayout, isRank, isActive] at isLayout
  split at isLayout
  · cases isLayout
  split at isLayout
  · cases isLayout
  rename_i few
  split at isLayout
  · cases isLayout
  rename_i late
  obtain ⟨first, second, spatial, order, inside, isSpatial⟩ :=
    spatialDims_pair (by omega) isActive.symm few late
  rw [spatial] at isLayout
  have perm := others_perm order inside
  generalize isOthers :
    ((List.range rank).filter fun i => !(([first, second] : List Nat).contains i)) = others
      at isLayout perm
  have count : others.length + 2 = rank := by simpa using perm.length_eq
  obtain ⟨leading, trailing, isLeading, isTrailing, whole, sizes⟩ :=
    others_split count (by omega)
  rw [isLeading, isTrailing] at isLayout
  have isLayout := (Option.some.inj isLayout).symm
  have listed : (leading ++ [first, second] ++ trailing).Perm (List.range rank) := by
    refine List.Perm.trans ?_ perm
    rw [← whole, List.append_assoc, List.append_assoc]
    exact List.perm_append_comm.append_left leading
  have length : (leading ++ [first, second] ++ trailing).length = rank := by
    simpa using listed.length_eq
  have permutation : layout.permutation = leading ++ [first, second] ++ trailing := by
    rw [isLayout]
    rfl
  refine ⟨⟨leading, first, second, trailing⟩, ?_⟩
  exact {
    spatialDims := by rw [isLayout]
    permutation
    inverse := by rw [isLayout]
    isPermutation := by rwa [IsPermutation, permutation, length]
    length := permutation ▸ length
    order, inside, sizes
    units := fun d less isFirst isSecond => window_unit <| by
      by_contra isActiveDim
      have member : d ∈ active := by
        rw [← isActive]
        exact List.mem_filter.mpr ⟨List.mem_range.mpr less, by simpa using isActiveDim⟩
      rcases isSpatial d member with same | same
      · exact isFirst same
      · exact isSecond same }

namespace Groups

variable (groups : Groups)

def normalizedShape (shape : List Nat) : List Nat :=
  [(applyPermutation shape groups.leading).prod, shape.getD groups.first 0,
    shape.getD groups.second 0, (applyPermutation shape groups.trailing).prod]

/-- An index with the leading coordinates numbered, and the trailing ones. -/
def normalizedIndex (shape index : List Nat) : List Nat :=
  [position (applyPermutation shape groups.leading) (applyPermutation index groups.leading),
    index.getD groups.first 0, index.getD groups.second 0,
    position (applyPermutation shape groups.trailing) (applyPermutation index groups.trailing)]

namespace Of

variable {groups : Groups} {rank : Nat} (isGroups : groups.Of layout attributes rank)
  {shape index : List Nat}
include isGroups

theorem normalized (shape : List Nat) :
    layout.getNormalizedShape shape = groups.normalizedShape shape := by
  have sizes := isGroups.sizes
  have permutation := isGroups.permutation
  obtain ⟨leading, first, second, trailing⟩ := groups
  simp only [List.mem_cons, Prod.mk.injEq, List.not_mem_nil, or_false] at sizes
  rw [Pool2DLayout.getNormalizedShape, Pool2DLayout.getPermutedShape, permutation]
  rcases sizes with ⟨before, behind⟩ | ⟨before, behind⟩ | ⟨before, behind⟩ | ⟨before, behind⟩
  · rw [List.eq_nil_of_length_eq_zero before, List.eq_nil_of_length_eq_zero behind]
    rfl
  · obtain ⟨batch, rfl⟩ := List.length_eq_one_iff.mp before
    rw [List.eq_nil_of_length_eq_zero behind]
    simp [applyPermutation, normalizedShape]
  · obtain ⟨batch, rfl⟩ := List.length_eq_one_iff.mp before
    obtain ⟨channel, rfl⟩ := List.length_eq_one_iff.mp behind
    simp [applyPermutation, normalizedShape]
  · obtain ⟨depth, batch, rfl⟩ := List.length_eq_two.mp before
    obtain ⟨channel, rfl⟩ := List.length_eq_one_iff.mp behind
    simp [applyPermutation, normalizedShape]

theorem below {d : Nat} (member : d ∈ layout.permutation) : d < rank :=
  isGroups.length ▸ List.mem_range.mp (isGroups.isPermutation.mem_iff.mp member)

theorem nodup :
    (groups.leading ++ [groups.first, groups.second] ++ groups.trailing).Nodup :=
  isGroups.permutation ▸ isGroups.isPermutation.nodup

/-- A dimension before the spatial ones. -/
theorem leading_mem {d : Nat} (member : d ∈ groups.leading) :
    d < rank ∧ d ≠ groups.first ∧ d ≠ groups.second := by
  have apart := (List.nodup_append.mp (List.nodup_append.mp isGroups.nodup).1).2.2 d member
  exact ⟨isGroups.below (by simp [isGroups.permutation, member]), apart _ (by simp),
    apart _ (by simp)⟩

/-- A dimension behind the spatial ones. -/
theorem trailing_mem {d : Nat} (member : d ∈ groups.trailing) :
    d < rank ∧ d ≠ groups.first ∧ d ≠ groups.second := by
  have apart other (spatial : other ∈ [groups.first, groups.second]) : d ≠ other :=
    ((List.nodup_append.mp isGroups.nodup).2.2 other
      (List.mem_append_right _ spatial) d member).symm
  exact ⟨isGroups.below (by simp [isGroups.permutation, member]), apart _ (by simp),
    apart _ (by simp)⟩

theorem apply_permutation (values : List Nat) : applyPermutation values layout.permutation =
    applyPermutation values groups.leading ++ [values.getD groups.first 0,
      values.getD groups.second 0] ++ applyPermutation values groups.trailing := by
  simp [isGroups.permutation, applyPermutation]

section

variable (length : shape.length = rank) (inside : Within index shape)
include length inside

theorem within_leading :
    Within (applyPermutation index groups.leading) (applyPermutation shape groups.leading) :=
  within_applyPermutation inside fun _ member => length ▸ (isGroups.leading_mem member).1

theorem within_trailing :
    Within (applyPermutation index groups.trailing) (applyPermutation shape groups.trailing) :=
  within_applyPermutation inside fun _ member => length ▸ (isGroups.trailing_mem member).1

theorem spatial_lt :
    index.getD groups.first 0 < shape.getD groups.first 0 ∧
      index.getD groups.second 0 < shape.getD groups.second 0 := by
  have coordinates := (within_iff_getD.mp inside).2
  have less := isGroups.inside
  have order := isGroups.order
  exact ⟨coordinates _ (by omega), coordinates _ (by omega)⟩

theorem within_normalized :
    Within (groups.normalizedIndex shape index) (groups.normalizedShape shape) := by
  obtain ⟨first, second⟩ := isGroups.spatial_lt length inside
  exact .cons (position_lt (isGroups.within_leading length inside)) (.cons first (.cons second
    (.cons (position_lt (isGroups.within_trailing length inside)) .nil)))

/-- The numbers of the normalized indices are those of the permuted ones. -/
theorem position_normalized :
    position (groups.normalizedShape shape) (groups.normalizedIndex shape index) =
      position (applyPermutation shape layout.permutation)
        (applyPermutation index layout.permutation) := by
  have leading := isGroups.within_leading length inside
  obtain ⟨first, second⟩ := isGroups.spatial_lt length inside
  rw [isGroups.apply_permutation, isGroups.apply_permutation,
    position_append (List.rel_append leading (.cons first (.cons second .nil))),
    position_append leading]
  simp only [normalizedShape, normalizedIndex, position, List.prod_cons, List.prod_nil]
  ring

end

theorem prod_normalized (shape : List Nat) : (groups.normalizedShape shape).prod =
    (applyPermutation shape layout.permutation).prod := by
  rw [isGroups.apply_permutation]
  simp only [normalizedShape, List.prod_append, List.prod_cons, List.prod_nil]
  ring

theorem normalizedIndex_injective {other : List Nat} (length : shape.length = rank)
    (inside : Within index shape) (alsoInside : Within other shape)
    (same : groups.normalizedIndex shape index = groups.normalizedIndex shape other) :
    index = other := by
  have ranked := length.trans isGroups.length.symm
  have permuted := position_injective (isGroups.isPermutation.within ranked inside)
    (isGroups.isPermutation.within ranked alsoInside) (by
      rw [← isGroups.position_normalized length inside, same,
        isGroups.position_normalized length alsoInside])
  rw [← isGroups.isPermutation.apply_inverse (inside.length.trans ranked), permuted,
    isGroups.isPermutation.apply_inverse (alsoInside.length.trans ranked)]

/-- Every index of the normalized shape is one of the original shape. -/
theorem exists_normalizedIndex (length : shape.length = rank)
    (inside : Within index (groups.normalizedShape shape)) :
    ∃ original, Within original shape ∧ groups.normalizedIndex shape original = index := by
  have ranked := length.trans isGroups.length.symm
  have isPermutation := isGroups.isPermutation
  have less := position_lt inside
  rw [isGroups.prod_normalized] at less
  have permuted := coordinates_within less
  have isIndex := permuted.length
  rw [length_applyPermutation] at isIndex
  have original := isPermutation.inverse.within (by simp) permuted
  rw [isPermutation.apply_inverse ranked] at original
  refine ⟨_, original, position_injective (isGroups.within_normalized length original) inside ?_⟩
  rw [isGroups.position_normalized length original, isPermutation.inverse_apply isIndex,
    position_coordinates less]

/-- The indices of the normalized shape are those of the original one. -/
theorem indices_normalized (length : shape.length = rank) :
    (indices (groups.normalizedShape shape)).Perm
      ((indices shape).map (groups.normalizedIndex shape)) := by
  have distinct : ((indices shape).map (groups.normalizedIndex shape)).Nodup :=
    (nodup_indices shape).map_on fun first isFirst second isSecond same =>
      isGroups.normalizedIndex_injective length (mem_indices.mp isFirst) (mem_indices.mp isSecond)
        same
  refine (List.perm_ext_iff_of_nodup (nodup_indices _) distinct).mpr fun index => ?_
  rw [mem_indices, List.mem_map]
  constructor
  · intro inside
    obtain ⟨original, within, same⟩ := isGroups.exists_normalizedIndex length inside
    exact ⟨original, mem_indices.mpr within, same⟩
  · rintro ⟨original, member, rfl⟩
    exact isGroups.within_normalized length (mem_indices.mp member)

/-- A permutation that is not needed. -/
theorem permutation_range (unneeded : layout.needsPermute = false) :
    layout.permutation = List.range rank := by
  refine ext_getD 0 isGroups.length List.length_range fun d less => ?_
  have same := List.any_eq_false.mp unneeded d (List.mem_range.mpr (isGroups.length ▸ less))
  simpa [less] using same

/-- The permuted value, also where it is left as it is. -/
theorem permuted_shape {input : Tensor α} (length : input.shape.length = rank) :
    (if layout.needsPermute then input.permute layout.permutation else input).shape =
      applyPermutation input.shape layout.permutation := by
  split
  · rfl
  · rename_i unneeded
    rw [isGroups.permutation_range (by simpa using unneeded), ← length, applyPermutation_range]

theorem permuted_data (input : Tensor α) (length : index.length = rank) :
    (if layout.needsPermute then input.permute layout.permutation else input).data
      (applyPermutation index layout.permutation) = input.data index := by
  split
  · exact isGroups.isPermutation.permute_data input (length.trans isGroups.length.symm)
  · rename_i unneeded
    rw [isGroups.permutation_range (by simpa using unneeded), ← length, applyPermutation_range]

theorem permuted_eq_normalized (unneeded : layout.needsReshape = false) (shape : List Nat) :
    applyPermutation shape layout.permutation = groups.normalizedShape shape := by
  have four : layout.permutation.length = 4 := by simpa [Pool2DLayout.needsReshape] using unneeded
  rw [← isGroups.normalized, Pool2DLayout.getNormalizedShape, Pool2DLayout.getPermutedShape]
  have length : (applyPermutation shape layout.permutation).length = 4 := by simp [four]
  obtain ⟨_, _, _, _, isShape⟩ := List.length_eq_four.mp length
  rw [isShape]

theorem normalize_shape {input : Tensor α} (length : input.shape.length = rank) :
    (layout.normalize input).shape = groups.normalizedShape input.shape := by
  unfold Pool2DLayout.normalize
  dsimp only
  split
  · exact isGroups.normalized _
  · rename_i unneeded
    rw [isGroups.permuted_shape length, isGroups.permuted_eq_normalized (by simpa using unneeded)]

/-- The elements of the normalized value. -/
theorem normalize_data {input : Tensor α} (length : input.shape.length = rank)
    (inside : Within index input.shape) :
    (layout.normalize input).data (groups.normalizedIndex input.shape index) =
      input.data index := by
  have isIndex := inside.length.trans length
  have within := isGroups.within_normalized length inside
  have place := isGroups.position_normalized length inside
  have volume := isGroups.prod_normalized input.shape
  have permutedInside := isGroups.isPermutation.within (length.trans isGroups.length.symm) inside
  rw [← isGroups.permuted_data input isIndex]
  have shape := isGroups.permuted_shape length
  unfold Pool2DLayout.normalize
  generalize (if layout.needsPermute then input.permute layout.permutation else input) =
    permuted at shape ⊢
  rw [← shape] at place volume permutedInside
  rw [permuted.data_eq permutedInside, ← place]
  split
  · rw [isGroups.normalized, Tensor.reshape_data within volume]
  · rename_i unneeded
    have same := isGroups.permuted_eq_normalized (by simpa using unneeded) input.shape
    rw [← shape] at same
    rw [← same] at within ⊢
    exact permuted.data_eq within

section

variable {resultShape : List Nat} (length : resultShape.length = rank) {result : Tensor α}
  (isResult : result.shape = groups.normalizedShape resultShape)
include isResult

/-- A result in the permuted shape. -/
theorem unreshaped_shape :
    (if layout.needsReshape then result.reshape (layout.getPermutedShape resultShape)
      else result).shape = applyPermutation resultShape layout.permutation := by
  split
  · rfl
  · rename_i unneeded
    rw [isResult, isGroups.permuted_eq_normalized (by simpa using unneeded)]

include length

theorem unreshaped_data (inside : Within index resultShape) :
    (if layout.needsReshape then result.reshape (layout.getPermutedShape resultShape)
      else result).data (applyPermutation index layout.permutation) =
        result.data (groups.normalizedIndex resultShape index) := by
  have within := isGroups.within_normalized length inside
  have place := isGroups.position_normalized length inside
  have volume := isGroups.prod_normalized resultShape
  have permutedInside := isGroups.isPermutation.within (length.trans isGroups.length.symm) inside
  rw [← isResult] at within place volume
  rw [result.data_eq within, place]
  split
  · exact Tensor.reshape_data permutedInside volume.symm
  · rename_i unneeded
    have same := isGroups.permuted_eq_normalized (by simpa using unneeded) resultShape
    rw [← isResult] at same
    rw [same] at permutedInside ⊢
    exact result.data_eq permutedInside

theorem restore_shape :
    (layout.restoreOriginalLayout resultShape result).shape = resultShape := by
  have shape := isGroups.unreshaped_shape isResult
  unfold Pool2DLayout.restoreOriginalLayout
  dsimp only
  split
  · rw [Tensor.permute, shape, isGroups.inverse]
    exact isGroups.isPermutation.apply_inverse (length.trans isGroups.length.symm)
  · rename_i unneeded
    rw [shape, isGroups.permutation_range (by simpa using unneeded), ← length,
      applyPermutation_range]

/-- The elements of a value in the original layout. -/
theorem restore_data (inside : Within index resultShape) :
    (layout.restoreOriginalLayout resultShape result).data index =
      result.data (groups.normalizedIndex resultShape index) := by
  rw [← isGroups.unreshaped_data length isResult inside]
  unfold Pool2DLayout.restoreOriginalLayout
  dsimp only
  split
  · rw [isGroups.inverse, isGroups.isPermutation.permute_inverse_data]
  · rename_i unneeded
    have isIndex := inside.length.trans length
    rw [isGroups.permutation_range (by simpa using unneeded), ← isIndex, applyPermutation_range]

end

theorem windows_paired :
    Tensor.Paired (attributes.windows rank) groups.first groups.second where
  order := isGroups.order
  inside := by simpa [WindowAttributes.windows] using isGroups.inside
  units d less isFirst isSecond := by
    have below : d < rank := by simpa [WindowAttributes.windows] using less
    rw [windows_getD below, isGroups.units d below isFirst isSecond]

theorem first_lt : groups.first < rank := Nat.lt_trans isGroups.order isGroups.inside

theorem kernel_first : layout.kernel attributes 0 = attributes.window groups.first := by
  rw [Pool2DLayout.kernel, isGroups.spatialDims]
  rfl

theorem kernel_second : layout.kernel attributes 1 = attributes.window groups.second := by
  rw [Pool2DLayout.kernel, isGroups.spatialDims]
  rfl

/-- The size of a dimension without a window. -/
theorem windowedShape_other (length : shape.length = rank) {d : Nat} (less : d < rank)
    (isFirst : d ≠ groups.first) (isSecond : d ≠ groups.second) :
    (Tensor.windowedShape (attributes.windows rank) shape).getD d 0 = shape.getD d 0 := by
  rw [Tensor.getD_windowedShape (length ▸ less), windows_getD less,
    isGroups.units d less isFirst isSecond, Window.count_unit]

theorem windowedShape_leading (length : shape.length = rank) :
    applyPermutation (Tensor.windowedShape (attributes.windows rank) shape) groups.leading =
      applyPermutation shape groups.leading :=
  applyPermutation_congr fun _ member =>
    let ⟨less, isFirst, isSecond⟩ := isGroups.leading_mem member
    isGroups.windowedShape_other length less isFirst isSecond

theorem windowedShape_trailing (length : shape.length = rank) :
    applyPermutation (Tensor.windowedShape (attributes.windows rank) shape) groups.trailing =
      applyPermutation shape groups.trailing :=
  applyPermutation_congr fun _ member =>
    let ⟨less, isFirst, isSecond⟩ := isGroups.trailing_mem member
    isGroups.windowedShape_other length less isFirst isSecond

/-- The shape of a pool of the normalized value is that of the normalized result. -/
theorem windowedShape_normalized (length : shape.length = rank) :
    Tensor.windowedShape (poolWindows (layout.kernel attributes 0) (layout.kernel attributes 1))
      (groups.normalizedShape shape) =
        groups.normalizedShape (Tensor.windowedShape (attributes.windows rank) shape) := by
  have first : (Tensor.windowedShape (attributes.windows rank) shape).getD groups.first 0 =
      (layout.kernel attributes 0).count (shape.getD groups.first 0) := by
    rw [Tensor.getD_windowedShape (length ▸ isGroups.first_lt), windows_getD isGroups.first_lt,
      isGroups.kernel_first]
  have second : (Tensor.windowedShape (attributes.windows rank) shape).getD groups.second 0 =
      (layout.kernel attributes 1).count (shape.getD groups.second 0) := by
    rw [Tensor.getD_windowedShape (length ▸ isGroups.inside), windows_getD isGroups.inside,
      isGroups.kernel_second]
  simp only [normalizedShape, isGroups.windowedShape_leading length,
    isGroups.windowedShape_trailing length, first, second]
  simp [Tensor.windowedShape, poolWindows, List.range_succ]

/-- The coordinates before and behind the spatial ones do not see these. -/
theorem normalizedIndex_set (length : index.length = rank) (i j : Nat) :
    ((groups.normalizedIndex shape index).set 1 i).set 2 j =
      groups.normalizedIndex shape ((index.set groups.first i).set groups.second j) := by
  have first : groups.first < index.length := length ▸ isGroups.first_lt
  have second : groups.second < (index.set groups.first i).length := by
    simpa [length] using isGroups.inside
  have other {d : Nat} (isFirst : d ≠ groups.first) (isSecond : d ≠ groups.second) :
      ((index.set groups.first i).set groups.second j).getD d 0 = index.getD d 0 := by
    rw [getD_set second, if_neg isSecond, getD_set first, if_neg isFirst]
  have leading : applyPermutation ((index.set groups.first i).set groups.second j)
      groups.leading = applyPermutation index groups.leading :=
    applyPermutation_congr fun _ member =>
      let ⟨_, isFirst, isSecond⟩ := isGroups.leading_mem member
      other isFirst isSecond
  have trailing : applyPermutation ((index.set groups.first i).set groups.second j)
      groups.trailing = applyPermutation index groups.trailing :=
    applyPermutation_congr fun _ member =>
      let ⟨_, isFirst, isSecond⟩ := isGroups.trailing_mem member
      other isFirst isSecond
  have order := isGroups.order
  simp only [normalizedIndex, leading, trailing, getD_set first, getD_set second, if_pos,
    if_neg (Nat.ne_of_lt order)]
  rfl

/-- A coordinate of the normalized index, other than the spatial ones. -/
theorem normalizedIndex_other
    (others : ∀ d < rank, d ≠ groups.first → d ≠ groups.second → index.getD d 0 < shape.getD d 0) :
    ∀ d < 4, d ≠ 1 → d ≠ 2 → (groups.normalizedIndex shape index).getD d 0 <
      (groups.normalizedShape shape).getD d 0 := by
  have group (dims : List Nat)
      (passive : ∀ d ∈ dims, d < rank ∧ d ≠ groups.first ∧ d ≠ groups.second) :
      position (applyPermutation shape dims) (applyPermutation index dims) <
        (applyPermutation shape dims).prod := by
    refine position_lt (List.forall₂_map_left_iff.mpr (List.forall₂_map_right_iff.mpr ?_))
    refine List.forall₂_same.mpr fun d member => ?_
    obtain ⟨less, isFirst, isSecond⟩ := passive d member
    exact others d less isFirst isSecond
  intro d less isFirst isSecond
  match d with
  | 0 => exact group _ fun _ => isGroups.leading_mem
  | 1 => exact absurd rfl isFirst
  | 2 => exact absurd rfl isSecond
  | 3 => exact group _ fun _ => isGroups.trailing_mem

/-- An element of the normalized value, by its spatial coordinates. -/
theorem at?_normalize {input : Tensor α} (length : input.shape.length = rank)
    (isIndex : index.length = rank) (others : ∀ d < rank, d ≠ groups.first → d ≠ groups.second →
      index.getD d 0 < input.shape.getD d 0) (i j : Int) :
    (layout.normalize input).at?
      (Tensor.pairPosition (groups.normalizedIndex input.shape index) 1 2 i j) =
        input.at? (Tensor.pairPosition index groups.first groups.second i j) := by
  have shape := isGroups.normalize_shape length
  have four : (layout.normalize input).shape.length = 4 := by rw [shape]; rfl
  have second : groups.second < input.shape.length := length.symm ▸ isGroups.inside
  have isSame : index.length = input.shape.length := isIndex.trans length.symm
  rw [Tensor.at?_pairPosition (by decide) (by rw [four]; decide) (by rw [four]; rfl)
      (by rw [four, shape]; exact isGroups.normalizedIndex_other others),
    Tensor.at?_pairPosition isGroups.order second isSame (by rwa [length]), shape,
    isGroups.normalizedIndex_set isIndex]
  refine ite_congr rfl (fun bounds => congrArg some ?_) fun _ => rfl
  refine isGroups.normalize_data length (within_iff_getD.mpr ⟨by simpa using isSame, ?_⟩)
  intro d less
  rw [getD_set (by simpa [isIndex] using isGroups.inside),
    getD_set (by simpa [isIndex] using isGroups.first_lt)]
  by_cases isSecond : d = groups.second
  · rw [if_pos isSecond, isSecond]
    omega
  · rw [if_neg isSecond]
    by_cases isFirst : d = groups.first
    · rw [if_pos isFirst, isFirst]
      omega
    · rw [if_neg isFirst]
      exact others d (length ▸ less) isFirst isSecond

/-- The windows of a pool of the normalized value are those of the original one. -/
theorem windowAt_normalize {input : Tensor α} (length : input.shape.length = rank)
    (inside : Within index (Tensor.windowedShape (attributes.windows rank) input.shape)) :
    (layout.normalize input).windowAt
      (poolWindows (layout.kernel attributes 0) (layout.kernel attributes 1))
      (groups.normalizedIndex (Tensor.windowedShape (attributes.windows rank) input.shape) index) =
        input.windowAt (attributes.windows rank) index := by
  have isLength : (Tensor.windowedShape (attributes.windows rank) input.shape).length = rank := by
    simpa using length
  have shape := isGroups.normalize_shape length
  have isIndex : index.length = rank := inside.length.trans isLength
  have less := (within_iff_getD.mp inside).2
  rw [isLength] at less
  have others : ∀ d < rank, d ≠ groups.first → d ≠ groups.second →
      index.getD d 0 < input.shape.getD d 0 := fun d below isFirst isSecond => by
    rw [← isGroups.windowedShape_other length below isFirst isSecond]
    exact less d below
  rw [Tensor.windowAt_paired (pool_paired _ _) (by rw [shape]; rfl),
    Tensor.windowAt_paired isGroups.windows_paired (by simpa [WindowAttributes.windows])]
  have leading := isGroups.windowedShape_leading length
  have trailing := isGroups.windowedShape_trailing length
  have isNormalized : groups.normalizedIndex
      (Tensor.windowedShape (attributes.windows rank) input.shape) index =
        groups.normalizedIndex input.shape index := by
    rw [normalizedIndex, leading, trailing, normalizedIndex]
  have first : (poolWindows (layout.kernel attributes 0)
      (layout.kernel attributes 1)).getD 1 .unit = attributes.window groups.first :=
    isGroups.kernel_first
  have second : (poolWindows (layout.kernel attributes 0)
      (layout.kernel attributes 1)).getD 2 .unit = attributes.window groups.second :=
    isGroups.kernel_second
  rw [first, second, windows_getD isGroups.first_lt, windows_getD isGroups.inside, isNormalized]
  refine List.flatMap_congr fun i _ => List.map_congr_left fun j _ => ?_
  exact isGroups.at?_normalize length isIndex others _ _

end Of

end Groups

end Libtt.Pooling

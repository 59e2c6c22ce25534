import Libtt.Cumulative.Identity
import Libtt.Pooling.SelectAndScatter

/-!
# Positions in windows

The positions in a window are within the operand, each once. Windows that are no larger than their
strides share none.
-/
namespace Libtt.Pooling

open Libtt.StableHlo

variable {α : Type} {shape index position : List Nat} {windows : List Window}

/-- The elements in a window are those at its positions. -/
theorem windowAt_filterMap (input : Tensor α) (windows : List Window) (index : List Nat) :
    (input.windowAt windows index).filterMap id =
      (windowPositions input.shape windows index).map input.data := by
  have isMap : input = (⟨input.shape, id⟩ : Tensor (List Nat)).map input.data := rfl
  conv_lhs => rw [isMap, Tensor.map_windowAt]
  rw [windowPositions, List.filterMap_map, List.map_filterMap]
  rfl

/-- The position at some coordinates. -/
theorem at?_positions {coordinate : Nat → Int} :
    (⟨shape, id⟩ : Tensor (List Nat)).at? coordinate = some position ↔
      Within position shape ∧ ∀ d < shape.length, (position.getD d 0 : Int) = coordinate d := by
  unfold Tensor.at?
  constructor
  · intro isSome
    split at isSome
    · rename_i bounds
      replace bounds : ∀ d < shape.length, 0 ≤ coordinate d ∧ coordinate d < shape.getD d 0 :=
        bounds
      have places : position = (List.range shape.length).map fun d => (coordinate d).toNat :=
        (Option.some.inj isSome).symm
      have value (d : Nat) (less : d < shape.length) :
          position.getD d 0 = (coordinate d).toNat := by
        rw [places]
        simp [less]
      refine ⟨within_iff_getD.mpr ⟨by simp [places], fun d less => ?_⟩, fun d less => ?_⟩
      · have bound := bounds d less
        rw [value d less]
        omega
      · have bound := bounds d less
        rw [value d less]
        omega
    · cases isSome
  · rintro ⟨inside, same⟩
    obtain ⟨length, less⟩ := within_iff_getD.mp inside
    have bounds : ∀ d < shape.length, 0 ≤ coordinate d ∧ coordinate d < shape.getD d 0 :=
      fun d below => by
        have bound := less d below
        rw [← same d below]
        omega
    have places : (List.range shape.length).map (fun d => (coordinate d).toNat) = position :=
      ext_getD 0 (by simp) length fun d below => by
        rw [← Int.toNat_natCast (position.getD d 0), same d below]
        simp [below]
    rw [if_pos bounds]
    exact congrArg some places

/-- What is in a window is at an offset into it. -/
theorem mem_windowPositions : position ∈ windowPositions shape windows index ↔
    ∃ offset, Within offset (windows.map Window.size) ∧ Within position shape ∧
      ∀ d < shape.length, (position.getD d 0 : Int) =
        (windows.getD d .unit).source (index.getD d 0) (offset.getD d 0) := by
  simp only [windowPositions, Tensor.windowAt, List.filterMap_map, List.mem_filterMap,
    mem_indices, Function.comp_apply, id_eq, at?_positions]

theorem within_windowPositions (member : position ∈ windowPositions shape windows index) :
    Within position shape := by
  obtain ⟨_, _, inside, _⟩ := mem_windowPositions.mp member
  exact inside

theorem source_injective {window : Window} (dilated : 0 < window.dilation)
    {index first second : Nat} (same : window.source index first = window.source index second) : first = second := by
  have product : (first : Int) * window.dilation = second * window.dilation := by
    unfold Window.source at same
    omega
  exact Nat.eq_of_mul_eq_mul_right dilated (by exact_mod_cast product)

/-- Windows no larger than their strides are at different coordinates. -/
theorem source_apart {window : Window} (dilation : window.dilation = 1)
    (apart : window.size ≤ window.stride) {index other first second : Nat}
    (isFirst : first < window.size) (isSecond : second < window.size)
    (same : window.source index first = window.source other second) : index = other := by
  have sum : (index : Int) * window.stride + first = other * window.stride + second := by
    unfold Window.source at same
    rw [dilation] at same
    omega
  replace sum : first + index * window.stride = second + other * window.stride := by
    rw [Nat.add_comm first, Nat.add_comm second]
    exact_mod_cast sum
  have positive : 0 < window.stride := by omega
  have quotient := congrArg (· / window.stride) sum
  simpa only [Nat.add_mul_div_right _ _ positive, Nat.div_eq_of_lt (isFirst.trans_le apart),
    Nat.div_eq_of_lt (isSecond.trans_le apart), Nat.zero_add] using quotient

/-- Each position of a window is at one offset. -/
theorem nodup_windowPositions (length : windows.length = shape.length)
    (dilated : ∀ d < shape.length, 0 < (windows.getD d .unit).dilation) (index : List Nat) :
    (windowPositions shape windows index).Nodup := by
  rw [windowPositions, Tensor.windowAt, List.filterMap_map]
  refine List.pairwise_filterMap.mpr ((nodup_indices _).imp_of_mem ?_)
  intro first second isFirst isSecond different position atFirst other atSecond same
  subst same
  apply different
  have firstLength := (mem_indices.mp isFirst).length
  have secondLength := (mem_indices.mp isSecond).length
  rw [List.length_map, length] at firstLength secondLength
  refine ext_getD 0 firstLength secondLength fun d less => ?_
  apply source_injective (dilated d less)
  rw [← (at?_positions.mp atFirst).2 d less, ← (at?_positions.mp atSecond).2 d less]

/-- Windows that are no larger than their strides share no position. -/
theorem eq_of_mem_windowPositions {other : List Nat}
    (isIndex : index.length = shape.length) (isOther : other.length = shape.length)
    (length : windows.length = shape.length)
    (apart : ∀ d < shape.length, (windows.getD d .unit).dilation = 1 ∧
      (windows.getD d .unit).size ≤ (windows.getD d .unit).stride)
    (member : position ∈ windowPositions shape windows index)
    (alsoMember : position ∈ windowPositions shape windows other) : index = other := by
  obtain ⟨first, isFirst, -, atFirst⟩ := mem_windowPositions.mp member
  obtain ⟨second, isSecond, -, atSecond⟩ := mem_windowPositions.mp alsoMember
  have below {offset : List Nat} (inside : Within offset (windows.map Window.size)) (d : Nat)
      (less : d < shape.length) : offset.getD d 0 < (windows.getD d .unit).size := by
    have bound := (within_iff_getD.mp inside).2 d (by simpa [length] using less)
    simpa [length, less] using bound
  refine ext_getD 0 isIndex isOther fun d less => ?_
  obtain ⟨dilation, noLarger⟩ := apart d less
  apply source_apart dilation noLarger (below isFirst d less) (below isSecond d less)
  rw [← atFirst d less, ← atSecond d less]

namespace Groups.Of

variable {attributes : WindowAttributes} {layout : Pool2DLayout} {groups : Groups} {rank : Nat}
  (isGroups : groups.Of layout attributes rank)
include isGroups

/-- The positions in a window on the normalized layout. -/
theorem windowPositions_normalized (length : shape.length = rank)
    (inside : Within index (Tensor.windowedShape (attributes.windows rank) shape)) :
    windowPositions (groups.normalizedShape shape)
      (poolWindows (layout.kernel attributes 0) (layout.kernel attributes 1))
      (groups.normalizedIndex (Tensor.windowedShape (attributes.windows rank) shape) index) =
        (windowPositions shape (attributes.windows rank) index).map
          (groups.normalizedIndex shape) := by
  let numbered : Tensor (List Nat) := ⟨shape, groups.normalizedIndex shape⟩
  have windows : (layout.normalize numbered).windowAt
      (poolWindows (layout.kernel attributes 0) (layout.kernel attributes 1))
      (groups.normalizedIndex (Tensor.windowedShape (attributes.windows rank) shape) index) =
        numbered.windowAt (attributes.windows rank) index :=
    isGroups.windowAt_normalize length inside
  have isShape : (layout.normalize numbered).shape = groups.normalizedShape shape :=
    isGroups.normalize_shape length
  have same := congrArg (List.filterMap id) windows
  rw [windowAt_filterMap, windowAt_filterMap, isShape] at same
  refine (List.map_id _).symm.trans ((List.map_congr_left fun position member => ?_).trans same)
  obtain ⟨original, isOriginal, rfl⟩ :=
    isGroups.exists_normalizedIndex length (within_windowPositions member)
  have number : (layout.normalize numbered).data (groups.normalizedIndex shape original) =
      numbered.data original := isGroups.normalize_data length isOriginal
  exact number.symm

end Groups.Of

end Libtt.Pooling

/-! ## Pooling is the windowed reduction -/
namespace Libtt.Pooling

open Libtt.StableHlo Libtt.Cumulative

variable {α : Type} {attributes : WindowAttributes} {layout : Pool2DLayout}

/-- Elements that are missing do not count, if what stands for them is an identity. -/
theorem foldl_padding {combine : α → α → α} {identity : α}
    (neutral : ∀ value, combine value identity = value) (elements : List (Option α)) (initial : α) :
    (elements.map fun element => element.getD identity).foldl combine initial =
      (elements.filterMap id).foldl combine initial := by
  induction elements generalizing initial with
  | nil => rfl
  | cons element elements ih =>
    cases element with
    | none =>
      rw [List.map_cons, List.foldl_cons, Option.getD_none, neutral, ih]
      rfl
    | some element => exact ih _

/-- Every number of the format has its negative. -/
def Mirrored (format : FloatFormat) : Prop := format.least + format.greatest = -1

section

variable {format : FloatFormat}

theorem negate_number {key : Int} (mem : format.least ≤ key ∧ key ≤ format.greatest)
    (negated : format.least ≤ -1 - key ∧ -1 - key ≤ format.greatest) :
    negate (.number key mem) = FloatValue.number (-1 - key) negated := by
  simp only [negate, FloatValue.clamped, min_eq_left negated.2, max_eq_right negated.1]

variable (mirrored : Mirrored format)
include mirrored

theorem negate_mem {key : Int} (mem : format.least ≤ key ∧ key ≤ format.greatest) :
    format.least ≤ -1 - key ∧ -1 - key ≤ format.greatest := by
  unfold Mirrored at mirrored
  omega

theorem negate_negate (value : FloatValue format) : negate (negate value) = value := by
  cases value with
  | nan => rfl
  | number key mem =>
    have negated := negate_mem mirrored mem
    rw [negate_number mem negated, negate_number negated (by simpa using mem)]
    congr
    omega

theorem negate_maximum (left right : FloatValue format) :
    negate (left.maximum right) = (negate left).minimum (negate right) := by
  cases left with
  | nan => rfl
  | number key mem =>
    cases right with
    | nan =>
      rfl
    | number other isOther =>
      rw [negate_number mem (negate_mem mirrored mem),
        negate_number isOther (negate_mem mirrored isOther), FloatValue.maximum,
        negate_number _ (negate_mem mirrored ⟨le_max_of_le_left mem.1, max_le mem.2 isOther.2⟩),
        FloatValue.minimum]
      congr
      omega

/-- The negated maximum of negated elements. -/
theorem negate_foldl (elements : List (FloatValue format)) (initial : FloatValue format) :
    negate ((elements.map negate).foldl FloatValue.maximum (negate initial)) =
      elements.foldl FloatValue.minimum initial := by
  have step (value element : FloatValue format) : FloatValue.minimum (negate value) element =
      negate (value.maximum (negate element)) := by
    rw [negate_maximum mirrored, negate_negate mirrored]
  rw [List.foldl_map, ← List.foldl_hom negate step, negate_negate mirrored]

end

section

variable {shape : List Nat} (isLayout : getPool2DLayout shape attributes = some layout)
include isLayout

/-- The shapes of all stages. -/
theorem pooled_shape (combine : α → α → α) (identity : α) {input : Tensor α}
    (isShape : input.shape = shape) :
    (layout.normalize input).shape = layout.getNormalizedShape shape ∧
      (layout.pooled attributes combine identity (layout.normalize input)).shape =
        layout.getNormalizedShape
          (Tensor.windowedShape (attributes.windows shape.length) shape) := by
  obtain ⟨groups, isGroups⟩ := groups_of isLayout
  subst isShape
  rw [isGroups.normalized, isGroups.normalized, ← isGroups.windowedShape_normalized rfl]
  refine ⟨isGroups.normalize_shape rfl, ?_⟩
  change Tensor.windowedShape _ (layout.normalize input).shape = _
  rw [isGroups.normalize_shape rfl]

/-- A pool in the layout of the result. -/
theorem restore_pooled {input : Tensor α} (isShape : input.shape = shape)
    {pool result : Tensor α}
    (poolShape : pool.shape = layout.getNormalizedShape
      (Tensor.windowedShape (attributes.windows shape.length) shape))
    (resultShape : result.shape = Tensor.windowedShape (attributes.windows shape.length) shape)
    (reduce : List (Option α) → α)
    (isPool : ∀ index, pool.data index = reduce ((layout.normalize input).windowAt
      (poolWindows (layout.kernel attributes 0) (layout.kernel attributes 1)) index))
    (isResult : ∀ index, result.data index =
      reduce (input.windowAt (attributes.windows shape.length) index)) :
    (layout.restoreOriginalLayout
      (Tensor.windowedShape (attributes.windows shape.length) shape) pool).Same result := by
  obtain ⟨groups, isGroups⟩ := groups_of isLayout
  subst isShape
  rw [isGroups.normalized] at poolShape
  have length := Tensor.length_windowedShape (attributes.windows input.shape.length) input.shape
  have shape := isGroups.restore_shape length poolShape
  refine ⟨shape.trans resultShape.symm, fun index inside => ?_⟩
  rw [shape] at inside
  rw [isGroups.restore_data length poolShape inside, isPool, isResult,
    isGroups.windowAt_normalize rfl inside]

theorem lowerMaximum_same (semantics : Semantics) {type : ElementType} {initValue : Element type}
    (isInit : checkInitValue .negInf type initValue) {input : Tensor (Element type)}
    (isShape : input.shape = shape) :
    (lowerMaximum semantics layout attributes initValue input).Same
      (reduceWindow (semantics.combine .maximum type) initValue attributes input) := by
  subst isShape
  refine restore_pooled isLayout rfl (pooled_shape isLayout _ _ rfl).2 rfl
    (fun elements => (elements.filterMap id).foldl (semantics.combine .maximum type) initValue)
    (fun index => rfl) fun index => ?_
  exact foldl_padding (maximum_negInf semantics isInit) _ _

theorem lowerMinimum_same {format : FloatFormat} (mirrored : Mirrored format)
    {initValue : FloatValue format} (isInit : checkInitValue .posInf (.float format) initValue)
    {input : Tensor (FloatValue format)} (isShape : input.shape = shape) :
    (lowerMinimum layout attributes initValue input).Same
      (reduceWindow FloatValue.minimum initValue attributes input) := by
  subst isShape
  have element (elements : List (Option (FloatValue format))) :
      (elements.map (Option.map negate)).filterMap id = (elements.filterMap id).map negate := by
    rw [List.filterMap_map, List.map_filterMap]
    rfl
  refine restore_pooled isLayout rfl ?_ rfl
    (fun elements => negate ((elements.filterMap id |>.map negate).foldl FloatValue.maximum
      (negate initValue))) (fun index => ?_) fun index => ?_
  · exact (pooled_shape isLayout FloatValue.maximum (negate initValue) rfl).2
  · rw [← element, ← Tensor.map_windowAt]
    rfl
  · rw [negate_foldl mirrored]
    exact foldl_padding (minimum_posInf .ofIntegers isInit) _ _

/-- For every layout, its permutation is one, with its inverse, the shapes of all stages agree, and
the pool of the normalized input is the windowed reduction. -/
theorem pooling_normalized :
    (IsPermutation layout.permutation ∧ layout.permutation.length = shape.length ∧
      ∀ values : List Nat, values.length = shape.length →
        applyPermutation (applyPermutation values layout.permutation) layout.inversePermutation =
            values ∧
          applyPermutation (applyPermutation values layout.inversePermutation) layout.permutation =
            values ∧ (layout.getNormalizedShape values).prod = values.prod) ∧
      (∀ (α : Type) (combine : α → α → α) (identity : α) (input : Tensor α), input.shape = shape →
        (layout.normalize input).shape = layout.getNormalizedShape shape ∧
          (layout.pooled attributes combine identity (layout.normalize input)).shape =
            layout.getNormalizedShape
              (Tensor.windowedShape (attributes.windows shape.length) shape)) ∧
      (∀ (semantics : Semantics) (type : ElementType) (initValue : Element type)
          (input : Tensor (Element type)), checkInitValue .negInf type initValue →
        input.shape = shape → (lowerMaximum semantics layout attributes initValue input).Same
          (reduceWindow (semantics.combine .maximum type) initValue attributes input)) ∧
      ∀ (format : FloatFormat) (initValue : FloatValue format) (input : Tensor (FloatValue format)),
        Mirrored format → checkInitValue .posInf (.float format) initValue →
          input.shape = shape → (lowerMinimum layout attributes initValue input).Same
            (reduceWindow FloatValue.minimum initValue attributes input) := by
  obtain ⟨groups, isGroups⟩ := groups_of isLayout
  have isPermutation := isGroups.isPermutation
  refine ⟨⟨isPermutation, isGroups.length, fun values length => ?_⟩, ?_, ?_, ?_⟩
  · have ranked := length.trans isGroups.length.symm
    rw [isGroups.inverse, isGroups.normalized, isGroups.prod_normalized]
    exact ⟨isPermutation.apply_inverse ranked, isPermutation.inverse_apply ranked,
      isPermutation.prod_apply ranked⟩
  · intro α combine identity input isShape
    exact pooled_shape isLayout combine identity isShape
  · intro semantics type initValue input isInit isShape
    exact lowerMaximum_same isLayout semantics isInit isShape
  · intro format initValue input mirrored isInit isShape
    exact lowerMinimum_same isLayout mirrored isInit isShape

end

/-- Channel-first images, pooled by 3×2 with a row of padding. -/
def imageWindow : WindowAttributes where
  windowDimensions := [1, 1, 3, 2]
  windowStrides := [1, 1, 2, 2]
  windowDilations := [1, 1, 1, 1]
  padding := [0, 0, 0, 0, 1, 0, 0, 0]

def imageLayout : Pool2DLayout := ⟨[2, 3], [0, 2, 3, 1], inversePermutation [0, 2, 3, 1]⟩

/-- Its elements are their numbers. -/
def image : Tensor (FloatValue single) :=
  ⟨[1, 2, 4, 4], fun index => .ofInt (position [1, 2, 4, 4] index)⟩

theorem pooling_normalized_image :
    getPool2DLayout image.shape imageWindow = some imageLayout ∧
      (@lowerMaximum (.float single) Semantics.ofIntegers imageLayout imageWindow
        (FloatValue.getInf true) image).Same
        (reduceWindow FloatValue.maximum (FloatValue.getInf true) imageWindow image) ∧
      (lowerMinimum imageLayout imageWindow (FloatValue.getInf false) image).Same
        (reduceWindow FloatValue.minimum (FloatValue.getInf false) imageWindow image) := by
  have isLayout : getPool2DLayout image.shape imageWindow = some imageLayout := by decide
  have correct := pooling_normalized isLayout
  exact ⟨isLayout, correct.2.2.1 .ofIntegers (.float single) _ image (by decide) rfl,
    correct.2.2.2 single _ image rfl (by decide) rfl⟩

end Libtt.Pooling

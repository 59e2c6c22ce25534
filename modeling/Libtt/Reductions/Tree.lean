import Libtt.Reductions.Complex

/-!
# Trees of even and odd elements

Combining even with odd elements, a last one left over, halves a dimension and keeps the elements'
order along it.
-/
namespace Libtt.Reductions

open Libtt.Foundation Libtt.StableHlo

variable {β : Type} {current : Tensor β} {dimension size : Nat} {index : List Nat}

theorem sliceDim_shape (current : Tensor β) (dimension first limit stride : Nat) :
    (sliceDim current dimension first limit stride).shape =
      current.shape.set dimension ((limit - first + stride - 1) / stride) := by
  apply List.ext_getElem
  · simp [sliceDim, Tensor.slice]
  · intro d less _
    simp only [sliceDim, Tensor.slice, List.getElem_zipWith, List.getElem_set,
      List.getElem_replicate]
    split
    · rfl
    · omega

theorem sliceDim_data (isIndex : index.length = current.shape.length)
    (inside : dimension < current.shape.length) (first limit stride : Nat) :
    (sliceDim current dimension first limit stride).data index =
      current.data (index.set dimension (first + index.getD dimension 0 * stride)) := by
  apply congrArg current.data
  apply List.ext_getElem
  · simp [isIndex]
  · intro d less _
    simp only [List.getElem_zipWith, List.getElem_set, List.getElem_replicate]
    split
    · rename_i same
      subst same
      rw [List.getD_eq_getElem _ _ (isIndex ▸ inside)]
    · omega

variable (f : β → β → β)

/-- One round of `reduceDimension`. -/
def halved (dimension size : Nat) (current : Tensor β) : Tensor β :=
  let pairedSize := size / 2
  let even := sliceDim current dimension 0 (pairedSize * 2) 2
  let odd := sliceDim current dimension 1 (pairedSize * 2) 2
  let next := even.zipWith f odd
  if size % 2 ≠ 0 then concatenate next (sliceDim current dimension (size - 1) size 1) dimension
  else next

/-- All of them. -/
def treeDimension (dimension size : Nat) (current : Tensor β) : Tensor β :=
  if 1 < size then
    treeDimension dimension (size / 2 + size % 2) (halved f dimension size current)
  else current
termination_by size
decreasing_by omega

/-- The coordinates that are combined into one. -/
def pairOf (size coordinate : Nat) : List Nat :=
  if coordinate < size / 2 then [2 * coordinate, 2 * coordinate + 1] else [size - 1]

theorem flatMap_pairs (count : Nat) :
    ((List.range count).flatMap fun coordinate => [2 * coordinate, 2 * coordinate + 1]) =
      List.range (2 * count) := by
  induction count with
  | zero => rfl
  | succ count ih =>
    rw [List.range_succ, List.flatMap_append, ih, Nat.mul_succ, List.range_succ, List.range_succ,
      List.append_assoc]
    rfl

/-- Each coordinate is combined once, in their order. -/
theorem flatMap_pairOf (size : Nat) :
    (List.range (size / 2 + size % 2)).flatMap (pairOf size) = List.range size := by
  have pairs : (List.range (size / 2)).flatMap (pairOf size) = List.range (2 * (size / 2)) := by
    rw [← flatMap_pairs]
    apply List.flatMap_congr
    intro coordinate member
    exact if_pos (List.mem_range.mp member)
  cases Nat.mod_two_eq_zero_or_one size with
  | inl even =>
    rw [even, Nat.add_zero, pairs, show 2 * (size / 2) = size by omega]
  | inr odd =>
    have last : pairOf size (size / 2) = [2 * (size / 2)] := by
      rw [pairOf, if_neg (Nat.lt_irrefl _), show size - 1 = 2 * (size / 2) by omega]
    rw [odd, List.range_succ, List.flatMap_append, pairs, List.flatMap_singleton, last,
      ← List.range_succ, Nat.succ_eq_add_one, show 2 * (size / 2) + 1 = size by omega]

section Halved

variable (inside : dimension < current.shape.length)
include inside

theorem halved_shape (size : Nat) :
    (halved f dimension size current).shape =
      current.shape.set dimension (size / 2 + size % 2) := by
  have even := sliceDim_shape current dimension 0 (size / 2 * 2) 2
  have last := sliceDim_shape current dimension (size - 1) size 1
  have half : (size / 2 * 2 - 0 + 2 - 1) / 2 = size / 2 := by omega
  rw [half] at even
  unfold halved
  dsimp only
  split
  · rename_i odd
    have one : (size - (size - 1) + 1 - 1) / 1 = 1 := by omega
    rw [one] at last
    rw [concatenate, Tensor.zipWith, even, last, List.set_set, getD_set inside, getD_set inside,
      if_pos rfl, if_pos rfl, show size % 2 = 1 by omega]
  · rename_i notOdd
    rw [Tensor.zipWith, even, show size % 2 = 0 by omega, Nat.add_zero]

/-- An element after a round combines the pair at its coordinate. -/
theorem halved_data (size : Nat) {index : List Nat} (isIndex : index.length = current.shape.length)
    (less : index.getD dimension 0 < size / 2 + size % 2) :
    Combines f ((pairOf size (index.getD dimension 0)).map
        fun coordinate => current.data (index.set dimension coordinate))
      ((halved f dimension size current).data index) := by
  have evenSize : (sliceDim current dimension 0 (size / 2 * 2) 2).shape.getD dimension 0 =
      size / 2 := by
    rw [sliceDim_shape, getD_set inside, if_pos rfl]
    omega
  have even := sliceDim_data isIndex inside 0 (size / 2 * 2) 2
  have odd := sliceDim_data isIndex inside 1 (size / 2 * 2) 2
  by_cases paired : index.getD dimension 0 < size / 2
  · have combined : (halved f dimension size current).data index =
        f (current.data (index.set dimension (2 * index.getD dimension 0)))
          (current.data (index.set dimension (2 * index.getD dimension 0 + 1))) := by
      rw [show 0 + index.getD dimension 0 * 2 = 2 * index.getD dimension 0 by omega] at even
      rw [show 1 + index.getD dimension 0 * 2 = 2 * index.getD dimension 0 + 1 by omega] at odd
      rw [← even, ← odd]
      unfold halved
      split
      · exact if_pos (evenSize.symm ▸ paired)
      · rfl
    rw [combined, pairOf, if_pos paired]
    exact .combine (.element _) (.element _)
  · have isOdd : size % 2 ≠ 0 := by omega
    have isIndexToo : (index.set dimension 0).length = current.shape.length :=
      (List.length_set ..).trans isIndex
    have last := sliceDim_data isIndexToo inside (size - 1) size 1
    rw [List.set_set, getD_set (isIndex ▸ inside), if_pos rfl, Nat.zero_mul, Nat.add_zero] at last
    have carried : (halved f dimension size current).data index =
        current.data (index.set dimension (size - 1)) := by
      have behind : index.getD dimension 0 -
          (sliceDim current dimension 0 (size / 2 * 2) 2).shape.getD dimension 0 = 0 := by
        omega
      unfold halved
      rw [if_pos isOdd, ← last]
      refine (if_neg (evenSize.symm ▸ paired)).trans ?_
      exact congrArg (fun coordinate => (sliceDim current dimension (size - 1) size 1).data
        (index.set dimension coordinate)) behind
    rw [carried, pairOf, if_neg paired]
    exact .element _

end Halved

theorem treeDimension_combines (inside : dimension < current.shape.length)
    (isSize : current.shape.getD dimension 0 = size) (positive : 0 < size) :
    (treeDimension f dimension size current).shape = current.shape.set dimension 1 ∧
      ∀ index : List Nat, index.length = current.shape.length →
        Combines f ((List.range size).map fun coordinate =>
            current.data (index.set dimension coordinate))
          ((treeDimension f dimension size current).data (index.set dimension 0)) := by
  induction size using Nat.strong_induction_on generalizing current with
  | h size ih =>
    rw [treeDimension]
    split
    · rename_i large
      have nextShape := halved_shape f inside size
      have nextInside : dimension < (halved f dimension size current).shape.length := by
        rw [nextShape, List.length_set]
        exact inside
      have nextSize : (halved f dimension size current).shape.getD dimension 0 =
          size / 2 + size % 2 := by
        rw [nextShape, getD_set inside, if_pos rfl]
      obtain ⟨shape, data⟩ := ih (size / 2 + size % 2) (by omega) nextInside nextSize (by omega)
      constructor
      · rw [shape, nextShape, List.set_set]
      · intro index isIndex
        have combined := data index (by rw [isIndex, nextShape, List.length_set])
        rw [← flatMap_pairOf, List.map_flatMap]
        apply Combines.flatMap _ combined
        · intro coordinate member
          have here : (index.set dimension coordinate).getD dimension 0 = coordinate := by
            rw [getD_set (isIndex ▸ inside), if_pos rfl]
          have isIndexToo : (index.set dimension coordinate).length = current.shape.length :=
            (List.length_set ..).trans isIndex
          have pair := halved_data f inside size isIndexToo (here.symm ▸ List.mem_range.mp member)
          simpa only [here, List.set_set] using pair
    · rename_i small
      obtain rfl : size = 1 := by omega
      constructor
      · apply ext_getD 0 rfl (List.length_set ..)
        intro d less
        rw [getD_set inside]
        split
        · rename_i same
          rw [same, isSize]
        · rfl
      · intro index _
        exact .element _

/-- The positions within a shape that agree with an index apart from some dimensions. -/
def agreeing (dims shape index : List Nat) : List (List Nat) :=
  (indices shape).filter fun position => without dims 0 position = without dims 0 index

variable {dims shape : List Nat}

theorem mem_agreeing {position : List Nat} : position ∈ agreeing dims shape index ↔
    Within position shape ∧ without dims 0 position = without dims 0 index := by
  simp [agreeing]

theorem nodup_agreeing (dims shape index : List Nat) : (agreeing dims shape index).Nodup :=
  (nodup_indices shape).filter _

/-- Lists of a length agree apart from some dimensions if their values do. -/
theorem without_eq_without_iff {first second : List Nat} (length : first.length = second.length) :
    without dims 0 first = without dims 0 second ↔
      ∀ d < first.length, d ∉ dims → first.getD d 0 = second.getD d 0 := by
  rw [without_eq, without_eq, ← length, applyPermutation, applyPermutation, List.map_inj_left]
  constructor
  · intro same d less kept
    exact same d (mem_keptDims.mpr ⟨less, kept⟩)
  · intro same d member
    exact same d (mem_keptDims.mp member).1 (mem_keptDims.mp member).2

/-- One dimension more: the positions at each of its coordinates. -/
theorem agreeing_concat (isIndex : index.length = shape.length) (inside : dimension < shape.length)
    (isNew : dimension ∉ dims) :
    ((List.range (shape.getD dimension 0)).flatMap fun coordinate =>
      agreeing dims shape (index.set dimension coordinate)).Perm
      (agreeing (dims ++ [dimension]) shape index) := by
  have coordinate_of {position : List Nat} {coordinate : Nat}
      (member : position ∈ agreeing dims shape (index.set dimension coordinate)) :
      position.getD dimension 0 = coordinate := by
    obtain ⟨within, same⟩ := mem_agreeing.mp member
    have length : position.length = shape.length := within.length
    rw [without_eq_without_iff (by rw [length, List.length_set, isIndex])] at same
    rw [same dimension (length ▸ inside) isNew, getD_set (isIndex ▸ inside), if_pos rfl]
  apply (List.perm_ext_iff_of_nodup ?_ (nodup_agreeing _ _ _)).mpr
  · intro position
    simp only [List.mem_flatMap, List.mem_range, mem_agreeing]
    constructor
    · rintro ⟨coordinate, _, within, same⟩
      refine ⟨within, ?_⟩
      have length : position.length = shape.length := within.length
      rw [without_eq_without_iff (by rw [length, List.length_set, isIndex])] at same
      rw [without_eq_without_iff (length.trans isIndex.symm)]
      intro d less other
      rw [List.mem_append, List.mem_singleton, not_or] at other
      rw [same d less other.1, getD_set (isIndex ▸ inside), if_neg other.2]
    · rintro ⟨within, same⟩
      have length : position.length = shape.length := within.length
      refine ⟨position.getD dimension 0, (within_iff_getD.mp within).2 dimension inside, within, ?_⟩
      rw [without_eq_without_iff (length.trans isIndex.symm)] at same
      rw [without_eq_without_iff (by rw [length, List.length_set, isIndex])]
      intro d less other
      rw [getD_set (isIndex ▸ inside)]
      split
      · rename_i here
        rw [here]
      · rename_i elsewhere
        exact same d less (by simp [other, elsewhere])
  · apply List.nodup_flatMap.mpr
    constructor
    · intro coordinate _
      exact nodup_agreeing _ _ _
    · refine List.nodup_range.imp fun {first second} different => ?_
      intro position isFirst isSecond
      exact different ((coordinate_of isFirst).symm.trans (coordinate_of isSecond))

variable {operand : Tensor β}

/-- Some dimensions are left with one element, which combines those that agree with it. -/
structure Grouped (f : β → β → β) (operand : Tensor β) (dims : List Nat) (current : Tensor β) :
    Prop where
  length : current.shape.length = operand.shape.length
  size : ∀ d < operand.shape.length,
    current.shape.getD d 0 = if d ∈ dims then 1 else operand.shape.getD d 0
  data : ∀ index, Within index current.shape → ∃ order,
    Combines f order (current.data index) ∧
      order.Perm ((agreeing dims operand.shape index).map operand.data)

theorem Grouped.nil (operand : Tensor β) : Grouped f operand [] operand where
  length := rfl
  size d _ := by simp
  data index within := by
    have all (position : List Nat) : without [] 0 position = position :=
      without_outside fun _ _ _ => List.not_mem_nil
    have one : [index].Perm (agreeing [] operand.shape index) := by
      apply (List.perm_ext_iff_of_nodup (List.nodup_singleton _) (nodup_agreeing _ _ _)).mpr
      intro position
      rw [List.mem_singleton, mem_agreeing, all, all]
      constructor
      · rintro rfl
        exact ⟨within, rfl⟩
      · exact And.right
    exact ⟨[operand.data index], .element _, one.map operand.data⟩

/-- Another coordinate in a dimension. -/
theorem within_set {coordinate other : Nat} (inside : dimension < shape.length)
    (within : Within index (shape.set dimension other))
    (less : coordinate < shape.getD dimension 0) :
    Within (index.set dimension coordinate) shape := by
  have isIndex : index.length = shape.length := within.length.trans (List.length_set ..)
  apply within_iff_getD.mpr
  constructor
  · rw [List.length_set, isIndex]
  · intro d below
    have unchanged := (within_iff_getD.mp within).2 d (by simpa using below)
    rw [getD_set inside] at unchanged
    rw [getD_set (isIndex ▸ inside)]
    split
    · rename_i same
      rw [same]
      exact less
    · rename_i elsewhere
      rwa [if_neg elsewhere] at unchanged

/-- A dimension more. -/
theorem Grouped.concat (grouped : Grouped f operand dims current)
    (inside : dimension < operand.shape.length) (isNew : dimension ∉ dims)
    (positive : 0 < operand.shape.getD dimension 0) :
    Grouped f operand (dims ++ [dimension])
      (treeDimension f dimension (operand.shape.getD dimension 0) current) := by
  have insideToo : dimension < current.shape.length := grouped.length ▸ inside
  have isSize : current.shape.getD dimension 0 = operand.shape.getD dimension 0 := by
    rw [grouped.size dimension inside, if_neg isNew]
  obtain ⟨shape, data⟩ := treeDimension_combines f insideToo isSize positive
  constructor
  · rw [shape, List.length_set, grouped.length]
  · intro d less
    rw [shape, getD_set insideToo, grouped.size d less]
    by_cases same : d = dimension <;> simp [same]
  · intro index within
    rw [shape] at within
    have isIndex : index.length = current.shape.length :=
      within.length.trans (List.length_set ..)
    have first : index.set dimension 0 = index := by
      have zero := (within_iff_getD.mp within).2 dimension (by simpa using insideToo)
      rw [getD_set insideToo, if_pos rfl, Nat.lt_one_iff] at zero
      apply ext_getD 0 (List.length_set ..) rfl
      intro d _
      rw [getD_set (isIndex ▸ insideToo)]
      split
      · rename_i same
        rw [same, zero]
      · rfl
    have each (coordinate : Nat) : ∃ order, coordinate < operand.shape.getD dimension 0 →
        Combines f order (current.data (index.set dimension coordinate)) ∧
          order.Perm ((agreeing dims operand.shape (index.set dimension coordinate)).map
            operand.data) := by
      by_cases less : coordinate < operand.shape.getD dimension 0
      · have withinToo : Within (index.set dimension coordinate) current.shape :=
          within_set insideToo within (isSize.symm ▸ less)
        obtain ⟨order, both⟩ := grouped.data _ withinToo
        exact ⟨order, fun _ => both⟩
      · exact ⟨[], fun less' => absurd less' less⟩
    choose order orders using each
    refine ⟨(List.range (operand.shape.getD dimension 0)).flatMap order, ?_, ?_⟩
    · rw [← first]
      apply Combines.flatMap _ (data index isIndex)
      intro coordinate member
      exact (orders coordinate (List.mem_range.mp member)).1
    · have rank : index.length = operand.shape.length := isIndex.trans grouped.length
      refine (List.Perm.flatMap_left _ fun coordinate member =>
        (orders coordinate (List.mem_range.mp member)).2).trans ?_
      rw [← List.map_flatMap]
      exact (agreeing_concat rank inside isNew).map operand.data

/-- All dimensions. -/
theorem Grouped.foldl (distinct : dims.Nodup) (inside : ∀ d ∈ dims, d < operand.shape.length)
    (positive : ∀ d ∈ dims, 0 < operand.shape.getD d 0) :
    Grouped f operand dims (dims.foldl
      (fun current d => treeDimension f d (operand.shape.getD d 0) current) operand) := by
  induction dims using List.reverseRecOn with
  | nil => exact Grouped.nil f operand
  | append_singleton dims last ih =>
    rw [List.nodup_append] at distinct
    have before := ih distinct.1 (fun d member => inside d (List.mem_append_left _ member))
      (fun d member => positive d (List.mem_append_left _ member))
    have isLast : last ∈ dims ++ [last] := List.mem_append_right _ (List.mem_singleton_self _)
    rw [List.foldl_append]
    apply before.concat f (inside last isLast) ?_ (positive last isLast)
    intro member
    exact distinct.2.2 last member last (List.mem_singleton_self _) rfl

/-- The positions that a reduction combines are those that agree with one of them. -/
theorem agreeing_perm {origin : List Nat} (inside : Within index (without dims 0 shape))
    (isOrigin : without dims 0 origin = index) :
    (agreeing dims shape origin).Perm (positions dims 0 shape index) := by
  apply (List.perm_ext_iff_of_nodup (nodup_agreeing _ _ _) (nodup_positions _ _ _ _)).mpr
  intro position
  rw [mem_agreeing, mem_positions inside, isOrigin]

/-- It has at an index what combines the positions of the index. -/
theorem Grouped.reshaped (grouped : Grouped f operand dims current)
    (inside : Within index (without dims 0 operand.shape)) :
    let result := if current.shape = without dims 0 operand.shape then current
      else current.reshape (without dims 0 operand.shape)
    ∃ order, Combines f order (result.data index) ∧
      order.Perm ((positions dims 0 operand.shape index).map operand.data) := by
  have sameShape : without dims 0 operand.shape = without dims 0 current.shape := by
    rw [without_eq_without_iff grouped.length.symm]
    intro d less other
    rw [grouped.size d less, if_neg other]
  have units : OthersUnit (fun d => !dims.contains d) current.shape := by
    intro d less listed
    rw [grouped.length] at less
    rw [grouped.size d less, if_pos (by simpa using listed)]
  have isShape : without dims 0 current.shape = applyPermutation current.shape
      (keptDims dims current.shape.length) := without_eq current.shape
  obtain ⟨origin, isOrigin, same⟩ := exists_position (sameShape ▸ inside) fun d less member => by
    rw [grouped.length] at less
    rw [Nat.zero_add] at member
    rw [grouped.size d less, if_pos member]
    exact Nat.one_pos
  have volume : (without dims 0 operand.shape).prod = current.shape.prod := by
    rw [sameShape, isShape]
    exact prod_dimsWhere units
  have samePosition : position (without dims 0 operand.shape) index =
      position current.shape origin := by
    rw [sameShape, isShape, ← same, without_eq origin, isOrigin.length]
    exact position_dimsWhere units isOrigin
  have data : (if current.shape = without dims 0 operand.shape then current
      else current.reshape (without dims 0 operand.shape)).data index = current.data origin := by
    split
    · rename_i sameToo
      rw [← sameToo] at samePosition inside
      rw [position_injective inside isOrigin samePosition]
    · exact Tensor.reshape_data_of_position inside isOrigin volume samePosition
  obtain ⟨order, combines, perm⟩ := grouped.data origin isOrigin
  refine ⟨order, ?_, ?_⟩
  · rw [data]
    exact combines
  · exact perm.trans ((agreeing_perm inside same).map operand.data)

end Libtt.Reductions

import Libtt.StableHlo.Coordinates

/-!
# Windows

A window of a dimension has a size, a stride, a dilation and padding.
-/
namespace Libtt.StableHlo

variable {α β : Type}

/-- The window of a dimension. -/
structure Window where
  size : Nat
  stride : Nat
  dilation : Nat
  low : Int
  high : Int
  deriving DecidableEq, Repr

namespace Window

/-- The window that leaves a dimension as it is. -/
def unit : Window := ⟨1, 1, 1, 0, 0⟩

variable (window : Window)

/-- How far a window reaches in its dimension. -/
def span : Int := ((window.size : Int) - 1) * window.dilation + 1

/-- How many windows a dimension has. -/
def count (size : Nat) : Nat :=
  if (size : Int) + window.low + window.high < window.span then 0
  else (((size : Int) + window.low + window.high - window.span) / window.stride).toNat + 1

/-- The coordinate that a place in a window is at. -/
def source (index offset : Nat) : Int :=
  index * window.stride + offset * window.dilation - window.low

/-- How far a window of the dimension reaches into the padded dimension. -/
theorem reach_lt {window : Window} {size index offset : Nat} (stride : 0 < window.stride)
    (isIndex : index < window.count size) (isOffset : offset < window.size) :
    (index : Int) * window.stride + offset * window.dilation < size + window.low + window.high := by
  unfold count at isIndex
  split at isIndex
  · omega
  · have fits : window.span ≤ size + window.low + window.high := by omega
    have steps : (index : Int) ≤ (size + window.low + window.high - window.span) /
        window.stride := by
      have nonneg : 0 ≤ (size + window.low + window.high - window.span) / window.stride := by
        apply Int.ediv_nonneg <;> omega
      omega
    have starts : (index : Int) * window.stride ≤ size + window.low + window.high - window.span :=
      (Int.le_ediv_iff_mul_le (by omega)).mp steps
    have last : (offset : Int) ≤ (window.size : Int) - 1 := by omega
    have reach := Int.mul_le_mul_of_nonneg_right last (Int.natCast_nonneg window.dilation)
    rw [span] at starts
    omega

@[simp] theorem count_unit (size : Nat) : unit.count size = size := by
  have alone : unit.span = 1 := rfl
  have padded : (size : Int) + unit.low + unit.high = size := by simp [unit]
  have stride : (unit.stride : Int) = 1 := rfl
  rw [count, alone, padded, stride, Int.ediv_one]
  by_cases empty : size = 0
  · rw [if_pos (by omega), empty]
  · rw [if_neg (by omega)]
    omega

@[simp] theorem source_unit (index : Nat) : unit.source index 0 = index := by
  simp [source, unit]

end Window

namespace Tensor

/-- The element at some coordinates, if they are within. -/
def at? (operand : Tensor α) (position : Nat → Int) : Option α :=
  if ∀ d < operand.shape.length, 0 ≤ position d ∧ position d < operand.shape.getD d 0 then
    some (operand.data ((List.range operand.shape.length).map fun d => (position d).toNat))
  else none

/-- The elements in the window of an index. -/
def windowAt (operand : Tensor α) (windows : List Window) (index : List Nat) : List (Option α) :=
  (indices (windows.map Window.size)).map fun offset =>
    operand.at? fun d => (windows.getD d .unit).source (index.getD d 0) (offset.getD d 0)

/-- The shape that has an index for each window. -/
def windowedShape (windows : List Window) (shape : List Nat) : List Nat :=
  (List.range shape.length).map fun d => (windows.getD d .unit).count (shape.getD d 0)

theorem at?_congr {operand : Tensor α} {position other : Nat → Int}
    (same : ∀ d < operand.shape.length, position d = other d) :
    operand.at? position = operand.at? other := by
  unfold at?
  have bounds : (∀ d < operand.shape.length, 0 ≤ position d ∧
      position d < operand.shape.getD d 0) ↔
        ∀ d < operand.shape.length, 0 ≤ other d ∧ other d < operand.shape.getD d 0 :=
    forall₂_congr fun d less => by rw [same d less]
  have places : (List.range operand.shape.length).map (fun d => (position d).toNat) =
      (List.range operand.shape.length).map fun d => (other d).toNat :=
    List.map_congr_left fun d member => by rw [same d (List.mem_range.mp member)]
  rw [places]
  exact if_congr bounds rfl rfl

@[simp] theorem length_windowedShape (windows : List Window) (shape : List Nat) :
    (windowedShape windows shape).length = shape.length := by
  simp [windowedShape]

theorem getD_windowedShape {windows : List Window} {shape : List Nat} {d : Nat}
    (inside : d < shape.length) : (windowedShape windows shape).getD d 0 =
      (windows.getD d .unit).count (shape.getD d 0) := by
  simp [windowedShape, inside]

/-- Only two dimensions have a window with an extent. -/
structure Paired (windows : List Window) (first second : Nat) : Prop where
  order : first < second
  inside : second < windows.length
  units : ∀ d < windows.length, d ≠ first → d ≠ second → windows.getD d .unit = .unit

/-- The coordinates of an index, but for two of them. -/
def pairPosition (index : List Nat) (first second : Nat) (i j : Int) (d : Nat) : Int :=
  if d = first then i else if d = second then j else index.getD d 0

/-- The elements in a window, row by row of the two dimensions. -/
theorem windowAt_paired {windows : List Window} {first second : Nat}
    (paired : Paired windows first second) {operand : Tensor α}
    (length : operand.shape.length = windows.length) (index : List Nat) :
    operand.windowAt windows index =
      (List.range (windows.getD first .unit).size).flatMap fun i =>
        (List.range (windows.getD second .unit).size).map fun j =>
          operand.at? (pairPosition index first second
            ((windows.getD first .unit).source (index.getD first 0) i)
            ((windows.getD second .unit).source (index.getD second 0) j)) := by
  obtain ⟨order, inside, units⟩ := paired
  have size (d : Nat) (less : d < windows.length) :
      (windows.map Window.size).getD d 0 = (windows.getD d .unit).size := by
    simp [less]
  rw [windowAt, indices_pair order (by simpa using inside) fun d less other alsoOther => by
    rw [List.length_map] at less
    rw [size d less, units d less other alsoOther]
    rfl]
  rw [size first (Nat.lt_trans order inside), size second inside, List.length_map, List.map_flatMap]
  refine List.flatMap_congr fun i _ => ?_
  rw [List.map_map]
  refine List.map_congr_left fun j _ => at?_congr fun d less => ?_
  rw [length] at less
  have place : ((single windows.length first i).set second j).getD d 0 =
      if d = second then j else if d = first then i else 0 := by
    rw [getD_set (by simpa [length_single] using inside), getD_single (Nat.lt_trans order inside)]
  rw [place]
  unfold pairPosition
  by_cases isFirst : d = first
  · rw [if_pos isFirst, if_pos isFirst, if_neg (by omega), isFirst]
  · by_cases isSecond : d = second
    · rw [if_pos isSecond, if_neg isFirst, if_pos isSecond, isSecond]
    · rw [if_neg isFirst, if_neg isFirst, if_neg isSecond, if_neg isSecond,
        units d less isFirst isSecond, Window.source_unit]

/-- The element at the coordinates of an index, but for two of them. -/
theorem at?_pairPosition {operand : Tensor α} {index : List Nat} {first second : Nat}
    (order : first < second) (inside : second < operand.shape.length)
    (length : index.length = operand.shape.length)
    (others : ∀ d < operand.shape.length, d ≠ first → d ≠ second →
      index.getD d 0 < operand.shape.getD d 0) (i j : Int) :
    operand.at? (pairPosition index first second i j) =
      if (0 ≤ i ∧ i < operand.shape.getD first 0) ∧ 0 ≤ j ∧ j < operand.shape.getD second 0 then
        some (operand.data ((index.set first i.toNat).set second j.toNat))
      else none := by
  have apart : second ≠ first := Nat.ne_of_gt order
  have bounds : (∀ d < operand.shape.length, 0 ≤ pairPosition index first second i j d ∧
      pairPosition index first second i j d < operand.shape.getD d 0) ↔
        (0 ≤ i ∧ i < operand.shape.getD first 0) ∧ 0 ≤ j ∧ j < operand.shape.getD second 0 := by
    constructor
    · intro all
      have isFirst := all first (Nat.lt_trans order inside)
      have isSecond := all second inside
      rw [pairPosition, if_pos rfl] at isFirst
      rw [pairPosition, if_neg apart, if_pos rfl] at isSecond
      exact ⟨isFirst, isSecond⟩
    · rintro ⟨isFirst, isSecond⟩ d less
      unfold pairPosition
      split
      · rename_i same
        exact same ▸ isFirst
      · rename_i notFirst
        split
        · rename_i same
          exact same ▸ isSecond
        · rename_i notSecond
          have below := others d less notFirst notSecond
          omega
  have places : (List.range operand.shape.length).map
      (fun d => (pairPosition index first second i j d).toNat) =
        (index.set first i.toNat).set second j.toNat := by
    refine ext_getD 0 (List.length_map _) (by simp [length]) fun d less => ?_
    rw [List.length_range] at less
    rw [getD_set (by simpa [length] using inside), getD_set (by omega)]
    simp only [pairPosition, less, List.getD_eq_getElem?_getD, List.getElem?_map,
      List.getElem?_range, Option.map_some, Option.getD_some]
    grind
  unfold at?
  rw [places]
  exact if_congr bounds rfl rfl

/-- A window of a tensor whose elements are changed. -/
theorem map_windowAt (f : α → β) (operand : Tensor α) (windows : List Window)
    (index : List Nat) : (operand.map f).windowAt windows index =
      (operand.windowAt windows index).map (Option.map f) := by
  have element (position : Nat → Int) :
      (operand.map f).at? position = (operand.at? position).map f := by
    rw [at?, at?, apply_ite (Option.map f)]
    rfl
  simp only [windowAt, element, List.map_map, Function.comp_def]

end Tensor

end Libtt.StableHlo

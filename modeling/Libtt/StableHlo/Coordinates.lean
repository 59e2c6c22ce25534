import Libtt.StableHlo.Tensor
import Mathlib.Algebra.BigOperators.Intervals
import Mathlib.Tactic.Ring

/-!
# Coordinates

Indices and shapes by their coordinates, and the indices of a shape that is wide in one dimension or
in two.
-/
namespace Libtt.StableHlo

/-- Lists of a length are the same by their coordinates. -/
theorem ext_getD {A : Type} (default : A) {first second : List A} {rank : Nat}
    (length : first.length = rank) (sameLength : second.length = rank)
    (same : ∀ d < rank, first.getD d default = second.getD d default) : first = second := by
  refine List.ext_getElem (length.trans sameLength.symm) fun d less alsoLess => ?_
  have element := same d (length ▸ less)
  rwa [List.getD_eq_getElem _ _ less, List.getD_eq_getElem _ _ alsoLess] at element

theorem getD_set {A : Type} {default value : A} {list : List A} {dim : Nat}
    (inside : dim < list.length) (d : Nat) :
    (list.set dim value).getD d default = if d = dim then value else list.getD d default := by
  by_cases same : d = dim
  · subst same
    simp [inside]
  · simp [same, List.getD_eq_getElem?_getD, List.getElem?_set_ne (Ne.symm same)]

theorem getD_zipWith_add {first second : List Nat} (length : first.length = second.length)
    (k : Nat) : (List.zipWith (· + ·) first second).getD k 0 =
      first.getD k 0 + second.getD k 0 := by
  induction first generalizing second k with
  | nil => simp [List.eq_nil_of_length_eq_zero length.symm]
  | cons x first ih =>
    obtain ⟨y, second, rfl⟩ := List.exists_cons_of_length_eq_add_one length.symm
    cases k with
    | zero => rfl
    | succ k => exact ih (Nat.succ.inj length) k

theorem within_iff_getD {index shape : List Nat} : Within index shape ↔
    index.length = shape.length ∧ ∀ d < shape.length, index.getD d 0 < shape.getD d 0 := by
  unfold Within
  induction shape generalizing index with
  | nil => cases index <;> simp
  | cons size shape ih =>
    cases index with
    | nil => simp
    | cons coordinate index =>
      rw [List.forall₂_cons, ih, List.length_cons, List.length_cons, Nat.forall_lt_succ_left,
        Nat.add_right_cancel_iff]
      exact and_left_comm

/-- An index of zeros, but for one coordinate. -/
def single (rank dim coordinate : Nat) : List Nat := (List.replicate rank 0).set dim coordinate

theorem length_single (rank dim coordinate : Nat) : (single rank dim coordinate).length = rank := by
  simp [single]

theorem getD_single {rank dim : Nat} (inside : dim < rank) (coordinate d : Nat) :
    (single rank dim coordinate).getD d 0 = if d = dim then coordinate else 0 := by
  rw [single, getD_set (by simpa using inside)]
  by_cases less : d < rank <;> simp [less]

/-- Dimensions of one element. -/
theorem ones_eq {shape : List Nat} (ones : ∀ d < shape.length, shape.getD d 0 = 1) :
    shape = List.replicate shape.length 1 :=
  ext_getD 0 rfl List.length_replicate fun d less => by
    rw [ones d less, List.getD_replicate 1 less]

/-- The indices of a shape that is wide in one dimension. -/
theorem indices_single {shape : List Nat} {dim : Nat} (inside : dim < shape.length)
    (ones : ∀ d < shape.length, d ≠ dim → shape.getD d 0 = 1) :
    indices shape = (List.range (shape.getD dim 0)).map (single shape.length dim) := by
  induction shape generalizing dim with
  | nil => cases inside
  | cons size shape ih =>
    cases dim with
    | zero =>
      have rest : shape = List.replicate shape.length 1 :=
        ones_eq fun d less => ones (d + 1) (Nat.succ_lt_succ less) (Nat.succ_ne_zero d)
      rw [rest, indices, indices_ones]
      simp [List.map_eq_flatMap, single, List.replicate_succ]
    | succ dim =>
      have one : size = 1 := ones 0 (Nat.zero_lt_succ _) (Nat.succ_ne_zero dim).symm
      rw [one, indices, ih (Nat.lt_of_succ_lt_succ inside) fun d less other =>
        ones (d + 1) (Nat.succ_lt_succ less) (by omega)]
      simp [single, List.replicate_succ]

/-- The indices of a shape that is wide in two dimensions. -/
theorem indices_pair {shape : List Nat} {first second : Nat} (order : first < second)
    (inside : second < shape.length)
    (ones : ∀ d < shape.length, d ≠ first → d ≠ second → shape.getD d 0 = 1) :
    indices shape = (List.range (shape.getD first 0)).flatMap fun i =>
      (List.range (shape.getD second 0)).map fun j =>
        (single shape.length first i).set second j := by
  induction shape generalizing first second with
  | nil => cases inside
  | cons size shape ih =>
    obtain ⟨second, rfl⟩ : ∃ less, second = less + 1 := ⟨second - 1, by omega⟩
    have insideRest : second < shape.length := Nat.lt_of_succ_lt_succ inside
    cases first with
    | zero =>
      rw [indices, indices_single insideRest fun d less other =>
        ones (d + 1) (Nat.succ_lt_succ less) (Nat.succ_ne_zero d) (by omega)]
      simp [single, List.replicate_succ, Function.comp_def]
    | succ first =>
      have one : size = 1 := ones 0 (Nat.zero_lt_succ _) (Nat.succ_ne_zero first).symm
        (Nat.succ_ne_zero second).symm
      rw [one, indices, ih (Nat.lt_of_succ_lt_succ order) insideRest fun d less other alsoOther =>
        ones (d + 1) (Nat.succ_lt_succ less) (by omega) (by omega)]
      simp [single, List.replicate_succ, List.map_flatMap, Function.comp_def]

end Libtt.StableHlo

/-! ## Row-major positions -/
namespace Libtt.StableHlo

variable {α : Type} {index shape first last before after : List Nat}

/-- The number of an index within a shape. -/
def position : List Nat → List Nat → Nat
  | _ :: shape, coordinate :: index => coordinate * shape.prod + position shape index
  | _, _ => 0

/-- The index of a number. -/
def coordinates : List Nat → Nat → List Nat
  | [], _ => []
  | _ :: shape, number => number / shape.prod :: coordinates shape (number % shape.prod)

theorem position_lt (inside : Within index shape) : position shape index < shape.prod := by
  induction inside with
  | nil => simp [position]
  | @cons coordinate size index shape below inside ih =>
    calc coordinate * shape.prod + position shape index
        < coordinate * shape.prod + shape.prod := Nat.add_lt_add_left ih _
      _ = (coordinate + 1) * shape.prod := by ring
      _ ≤ size * shape.prod := Nat.mul_le_mul_right _ below

theorem coordinates_position (inside : Within index shape) :
    coordinates shape (position shape index) = index := by
  induction inside with
  | nil => rfl
  | cons below inside ih =>
    have less := position_lt inside
    rw [position, coordinates, Nat.mul_comm, Nat.mul_add_div (Nat.zero_lt_of_lt less),
      Nat.div_eq_of_lt less, Nat.mul_add_mod, Nat.mod_eq_of_lt less, ih, Nat.add_zero]

theorem coordinates_within {number : Nat} (less : number < shape.prod) :
    Within (coordinates shape number) shape := by
  induction shape generalizing number with
  | nil => exact .nil
  | cons size shape ih =>
    have positive : 0 < shape.prod := Nat.pos_of_ne_zero fun zero => by simp [zero] at less
    exact .cons (Nat.div_lt_of_lt_mul (by rwa [Nat.mul_comm])) (ih (Nat.mod_lt _ positive))

theorem position_coordinates {number : Nat} (less : number < shape.prod) :
    position shape (coordinates shape number) = number := by
  induction shape generalizing number with
  | nil => exact (Nat.lt_one_iff.mp less).symm
  | cons size shape ih =>
    have positive : 0 < shape.prod := Nat.pos_of_ne_zero fun zero => by simp [zero] at less
    rw [coordinates, position, ih (Nat.mod_lt _ positive), Nat.mul_comm, Nat.div_add_mod]

theorem position_injective {other : List Nat} (inside : Within index shape)
    (insideOther : Within other shape) (same : position shape index = position shape other) :
    index = other := by
  rw [← coordinates_position inside, same, coordinates_position insideOther]

/-- A position is the sum of the coordinates times their strides. -/
theorem position_eq_sum (inside : Within index shape) : position shape index =
    ∑ d ∈ Finset.range shape.length, index.getD d 0 * (shape.drop (d + 1)).prod := by
  induction inside with
  | nil => rfl
  | cons below inside ih =>
    rw [position, ih, List.length_cons, Finset.sum_range_succ', Nat.add_comm]
    simp

/-- Two groups of dimensions. -/
theorem position_append (isFirst : Within first before) (last after : List Nat) :
    position (before ++ after) (first ++ last) =
      position before first * after.prod + position after last := by
  induction isFirst with
  | nil => simp [position]
  | cons below inside ih =>
    rw [List.cons_append, List.cons_append, position, position, ih, List.prod_append]
    ring

/-- A group of dimensions between others, numbered as one. -/
theorem position_group {middle sizes : List Nat} (isFirst : Within first before)
    (isMiddle : Within middle sizes) (last after : List Nat) :
    position (before ++ sizes ++ after) (first ++ middle ++ last) =
      position (before.prod :: sizes.prod :: after)
        (position before first :: position sizes middle :: last) := by
  rw [position_append (List.rel_append isFirst isMiddle), position_append isFirst, position,
    position, List.prod_cons]
  ring

/-- The indices are in the order of their numbers. -/
theorem indices_eq (shape : List Nat) :
    indices shape = (List.range shape.prod).map (coordinates shape) := by
  induction shape with
  | nil => rfl
  | cons size shape ih =>
    rw [indices, ih, List.prod_cons]
    by_cases empty : shape.prod = 0
    · simp [empty]
    · have positive := Nat.pos_of_ne_zero empty
      induction size with
      | zero => simp
      | succ size ihSize =>
        rw [List.range_succ, List.flatMap_append, ihSize, Nat.succ_mul, List.range_add,
          List.map_append, List.flatMap_singleton, List.map_map, List.map_map]
        congr 1
        refine List.map_congr_left fun number member => ?_
        have less := List.mem_range.mp member
        simp only [Function.comp_def, coordinates]
        rw [Nat.mul_comm, Nat.mul_add_div positive, Nat.mul_add_mod, Nat.div_eq_of_lt less,
          Nat.mod_eq_of_lt less, Nat.add_zero]

theorem idxOf_indices (inside : Within index shape) :
    (indices shape).idxOf index = position shape index := by
  have less := position_lt inside
  have bound : position shape index < (indices shape).length := by
    rwa [indices_eq, List.length_map, List.length_range]
  have place := (nodup_indices shape).idxOf_getElem (position shape index) bound
  have element : (indices shape)[position shape index] = index := by
    simp only [indices_eq, List.getElem_map, List.getElem_range, coordinates_position inside]
  rwa [element] at place

namespace Tensor

/-- The element of a number. -/
def element (operand : Tensor α) (number : Nat) : α :=
  operand.data (coordinates operand.shape number)

theorem data_eq (operand : Tensor α) (inside : Within index operand.shape) :
    operand.data index = operand.element (position operand.shape index) := by
  rw [element, coordinates_position inside]

@[simp] theorem reshape_shape (operand : Tensor α) (shape : List Nat) :
    (operand.reshape shape).shape = shape := rfl

/-- A reshape keeps the elements' numbers. -/
theorem reshape_data {operand : Tensor α} (inside : Within index shape)
    (volume : shape.prod = operand.shape.prod) :
    (operand.reshape shape).data index = operand.element (position shape index) := by
  have less : position shape index < operand.shape.prod := volume ▸ position_lt inside
  show operand.data ((indices operand.shape).getD ((indices shape).idxOf index) []) = _
  rw [idxOf_indices inside, indices_eq, List.getD_eq_getElem _ _ (by simpa using less)]
  simp [element]

/-- A reshape has at an index what the operand has at the index of the same number. -/
theorem reshape_data_of_position {operand : Tensor α} {origin : List Nat}
    (inside : Within index shape) (isOrigin : Within origin operand.shape)
    (volume : shape.prod = operand.shape.prod)
    (same : position shape index = position operand.shape origin) :
    (operand.reshape shape).data index = operand.data origin := by
  rw [reshape_data inside volume, same, data_eq operand isOrigin]

theorem reshape_element {operand : Tensor α} {number : Nat} (less : number < shape.prod)
    (volume : shape.prod = operand.shape.prod) :
    (operand.reshape shape).element number = operand.element number := by
  rw [element, show (operand.reshape shape).shape = shape from rfl,
    reshape_data (coordinates_within less) volume, position_coordinates less]

end Tensor

end Libtt.StableHlo

import Libtt.DecodeFusions.Patterns

/-!
# Places of broadcast elements

An element of a result uses one of the operand: that of its own number where the shapes are the
same, the only one of a scalar, and that of its row or column where an operand is a column or a row
of a matrix.
-/
namespace Libtt.DecodeFusions

open Libtt.StableHlo

theorem broadcastPlace_self {shape : List Nat} {number : Nat} (less : number < shape.prod) :
    broadcastPlace shape shape number = number := by
  have same (index shape : List Nat) (within : Within index shape) :
      List.zipWith (fun size coordinate => if size = 1 then 0 else coordinate) shape index =
        index := by
    induction within with
    | nil => rfl
    | @cons coordinate size index shape below _ ih =>
      have own : (if size = 1 then 0 else coordinate) = coordinate := by
        split
        · omega
        · rfl
      rw [List.zipWith_cons_cons, ih, own]
  rw [broadcastPlace, Nat.sub_self, List.drop_zero, same _ _ (coordinates_within less),
    position_coordinates less]

theorem broadcastPlace_lt {operand result : List Nat} (broadcasts : BroadcastsTo operand result)
    {number : Nat} (less : number < result.prod) :
    broadcastPlace operand result number < operand.prod := by
  have within (index full operand : List Nat) (inside : Within index full)
      (sizes : List.Forall₂ (fun size full => size = 1 ∨ size = full) operand full) :
      Within (List.zipWith (fun size coordinate => if size = 1 then 0 else coordinate) operand
        index) operand := by
    induction inside generalizing operand with
    | nil =>
      cases sizes
      exact .nil
    | cons below _ ih =>
      cases sizes with
      | cons size sizes =>
        rw [List.zipWith_cons_cons]
        apply List.Forall₂.cons _ (ih _ sizes)
        split
        · omega
        · rcases size with isOne | isFull
          · contradiction
          · exact isFull ▸ below
  have inside := coordinates_within less
  have dropped : Within ((coordinates result number).drop (result.length - operand.length))
      (result.drop (result.length - operand.length)) := List.forall₂_drop _ inside
  exact position_lt (within _ _ _ dropped broadcasts.2)

/-- A result of two dimensions. -/
theorem coordinates_pair (rows cols number : Nat) :
    coordinates [rows, cols] number = [number / cols, number % cols] := by
  simp [coordinates]

theorem broadcastPlace_pair (first second rows cols number : Nat) :
    broadcastPlace [first, second] [rows, cols] number =
      (if first = 1 then 0 else number / cols) * second +
        if second = 1 then 0 else number % cols := by
  simp [broadcastPlace, coordinates_pair, position]

theorem broadcastPlace_single (size rows cols number : Nat) :
    broadcastPlace [size] [rows, cols] number = if size = 1 then 0 else number % cols := by
  simp [broadcastPlace, coordinates_pair, position]

/-- A row of a matrix. -/
theorem broadcastPlace_row {first rows cols : Nat} (isRow : first * cols = cols) {number : Nat}
    (less : number < rows * cols) :
    broadcastPlace [first, cols] [rows, cols] number = number % cols := by
  have positive : 0 < cols := Nat.pos_of_mul_pos_left (Nat.zero_lt_of_lt less)
  have one : first = 1 := Nat.eq_of_mul_eq_mul_right positive (isRow.trans (Nat.one_mul cols).symm)
  rw [broadcastPlace_pair, if_pos one, Nat.zero_mul, Nat.zero_add]
  split
  · next isOne => rw [isOne, Nat.mod_one]
  · rfl

/-- A column of a matrix. -/
theorem broadcastPlace_column {rows cols : Nat} {number : Nat} (less : number < rows * cols) :
    broadcastPlace [rows, 1] [rows, cols] number = number / cols := by
  rw [broadcastPlace_pair, if_pos rfl, Nat.mul_one, Nat.add_zero]
  split
  · next isOne =>
    rw [isOne, Nat.one_mul] at less
    exact (Nat.div_eq_of_lt less).symm
  · rfl

/-- What is broadcast to a matrix has two dimensions at most. -/
theorem BroadcastsTo.shape_cases {operand : List Nat} {rows cols : Nat}
    (broadcasts : BroadcastsTo operand [rows, cols]) :
    operand = [] ∨ (∃ size, operand = [size] ∧ (size = 1 ∨ size = cols)) ∨
      ∃ first second, operand = [first, second] ∧ (first = 1 ∨ first = rows) ∧
        (second = 1 ∨ second = cols) := by
  obtain ⟨short, sizes⟩ := broadcasts
  match operand with
  | [] => exact .inl rfl
  | [size] => exact .inr (.inl ⟨size, rfl, by simpa using sizes⟩)
  | [first, second] => exact .inr (.inr ⟨first, second, rfl, by simpa using sizes⟩)
  | _ :: _ :: _ :: _ => simp at short

end Libtt.DecodeFusions

import Mathlib.Data.List.Basic

/-!
# Lists of sized entries

A byte stream of entries is addressed by byte offset while it is written entry by entry.
-/

namespace Libtt.Foundation

/-- A size for every entry; the field keeps two entries from starting at one offset. -/
structure Sizing (α : Type) where
  /-- Bytes one entry takes. -/
  size : α → Nat
  /-- No entry is empty. -/
  positive : ∀ entry, 0 < size entry

namespace Sizing

variable {α : Type} (sizing : Sizing α)

/-- Bytes of a list of entries. -/
def bytes : List α → Nat
  | [] => 0
  | entry :: rest => sizing.size entry + bytes rest

@[simp] theorem bytes_nil : sizing.bytes [] = 0 := rfl

@[simp] theorem bytes_cons (entry : α) (rest : List α) :
    sizing.bytes (entry :: rest) = sizing.size entry + sizing.bytes rest := rfl

/-- The bytes of two lists in order add up. -/
@[simp] theorem bytes_append (left right : List α) :
    sizing.bytes (left ++ right) = sizing.bytes left + sizing.bytes right := by
  induction left with
  | nil => simp
  | cons entry rest ih => simp [ih, Nat.add_assoc]

/-- The entry starting exactly at an offset; none at the end and inside an entry. -/
def entryAt : List α → Nat → Option α
  | [], _ => none
  | entry :: rest, offset =>
    if offset = 0 then some entry
    else if sizing.size entry ≤ offset then entryAt rest (offset - sizing.size entry)
    else none

/-- The entry after a prefix starts at the bytes of the prefix. -/
@[simp] theorem entryAt_append (before : List α) (entry : α) (after : List α) :
    sizing.entryAt (before ++ entry :: after) (sizing.bytes before) = some entry := by
  induction before with
  | nil => simp [entryAt]
  | cons head rest ih =>
    have nonempty := sizing.positive head
    rw [List.cons_append, entryAt, bytes_cons, if_neg (by omega), if_pos (by omega),
      Nat.add_sub_cancel_left, ih]

/-- The offsets where an entry starts or the list ends. -/
def Boundary (entries : List α) (offset : Nat) : Prop :=
  ∃ before after, entries = before ++ after ∧ offset = sizing.bytes before

/-- The start of a list is a boundary. -/
theorem boundary_zero (entries : List α) : sizing.Boundary entries 0 :=
  ⟨[], entries, rfl, rfl⟩

/-- Replace the entry starting at an offset; a list without one is left alone. -/
def modifyAt (change : α → α) : List α → Nat → List α
  | [], _ => []
  | entry :: rest, offset =>
    if offset = 0 then change entry :: rest
    else if sizing.size entry ≤ offset then
      entry :: modifyAt change rest (offset - sizing.size entry)
    else entry :: rest

/-- Replacement reaches the entry after a prefix and nothing else. -/
@[simp] theorem modifyAt_append (change : α → α) (before : List α) (entry : α) (after : List α) :
    sizing.modifyAt change (before ++ entry :: after) (sizing.bytes before) =
      before ++ change entry :: after := by
  induction before with
  | nil => simp [modifyAt]
  | cons head rest ih =>
    have nonempty := sizing.positive head
    rw [List.cons_append, modifyAt, bytes_cons, if_neg (by omega), if_pos (by omega),
      Nat.add_sub_cancel_left, ih, List.cons_append]

/-- A change that keeps sizes keeps the bytes of the list. -/
theorem bytes_modifyAt {change : α → α}
    (keeps : ∀ entry, sizing.size (change entry) = sizing.size entry) (entries : List α)
    (offset : Nat) :
    sizing.bytes (sizing.modifyAt change entries offset) = sizing.bytes entries := by
  induction entries generalizing offset with
  | nil => rfl
  | cons head rest ih =>
    rw [modifyAt]
    split
    · simp [keeps]
    · split <;> simp [ih]

/-- Replacements at two offsets may be made in either order. -/
theorem modifyAt_comm {first second : α → α}
    (firstKeeps : ∀ entry, sizing.size (first entry) = sizing.size entry)
    (secondKeeps : ∀ entry, sizing.size (second entry) = sizing.size entry)
    (entries : List α) {left right : Nat} (apart : left ≠ right) :
    sizing.modifyAt first (sizing.modifyAt second entries right) left =
      sizing.modifyAt second (sizing.modifyAt first entries left) right := by
  induction entries generalizing left right with
  | nil => rfl
  | cons head rest ih =>
    by_cases leftHere : left = 0
    · have rightLater : right ≠ 0 := by omega
      by_cases inside : sizing.size head ≤ right <;>
        simp [modifyAt, leftHere, rightLater, inside, firstKeeps]
    · by_cases rightHere : right = 0
      · by_cases inside : sizing.size head ≤ left <;>
          simp [modifyAt, leftHere, rightHere, inside, secondKeeps]
      · by_cases leftInside : sizing.size head ≤ left <;>
          by_cases rightInside : sizing.size head ≤ right <;>
          simp [modifyAt, leftHere, rightHere, leftInside, rightInside]
        exact ih (by omega)

end Sizing

end Libtt.Foundation

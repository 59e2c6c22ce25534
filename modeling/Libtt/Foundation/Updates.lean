import Mathlib.Data.List.Nodup
import Mathlib.Data.List.Perm.Basic

/-!
# Updates, one after the other

Each update combines a value into the place of a key.
-/
namespace Libtt.Foundation

variable {κ ι α : Type} [DecidableEq κ] [DecidableEq ι]

def applyUpdates (combine : α → α → α) (data : κ → α) (updates : List (κ × α)) : κ → α :=
  updates.foldl (fun data update =>
    Function.update data update.1 (combine (data update.1) update.2)) data

/-- The values for one key, in their order. -/
def valuesAt (key : κ) (updates : List (κ × α)) : List α :=
  (updates.filter (·.1 = key)).map (·.2)

variable {combine : α → α → α} {data : κ → α} {updates : List (κ × α)} {key : κ}

theorem applyUpdates_eq (combine : α → α → α) (data : κ → α) (updates : List (κ × α)) (key : κ) :
    applyUpdates combine data updates key = (valuesAt key updates).foldl combine (data key) := by
  induction updates generalizing data with
  | nil => rfl
  | cons update updates ih =>
    rw [applyUpdates, List.foldl_cons]
    change applyUpdates combine _ updates key = _
    rw [ih, valuesAt, valuesAt, List.filter_cons]
    by_cases hits : update.1 = key
    · rw [if_pos (decide_eq_true hits), List.map_cons, List.foldl_cons, hits,
        Function.update_self]
    · rw [if_neg (by simpa using hits), Function.update_of_ne (Ne.symm hits)]

theorem valuesAt_append (first second : List (κ × α)) :
    valuesAt key (first ++ second) = valuesAt key first ++ valuesAt key second := by
  simp [valuesAt]

theorem valuesAt_of_not_mem (absent : key ∉ updates.map (·.1)) : valuesAt key updates = [] := by
  rw [valuesAt, List.map_eq_nil_iff, List.filter_eq_nil_iff]
  intro update member hits
  rw [decide_eq_true_iff] at hits
  exact absent (hits ▸ List.mem_map_of_mem member)

/-- Renamed keys have the values that they had. -/
theorem valuesAt_map {rename : ι → κ} {updates : List (ι × α)} {key : ι}
    (injective : ∀ other ∈ updates.map (·.1), rename other = rename key → other = key) :
    valuesAt (rename key) (updates.map fun update => (rename update.1, update.2)) =
      valuesAt key updates := by
  rw [valuesAt, valuesAt, List.filter_map, List.map_map]
  congr 1
  refine List.filter_congr fun update member => ?_
  have same : rename update.1 = rename key ↔ update.1 = key :=
    ⟨injective _ (List.mem_map_of_mem member), congrArg rename⟩
  simp [same]

/-- The value of the one update that has a key. -/
theorem valuesAt_of_nodup (distinct : (updates.map (·.1)).Nodup) {value : α}
    (member : (key, value) ∈ updates) : valuesAt key updates = [value] := by
  induction updates with
  | nil => cases member
  | cons update updates ih =>
    rw [List.map_cons, List.nodup_cons] at distinct
    rw [valuesAt, List.filter_cons]
    rcases List.mem_cons.mp member with rfl | later
    · rw [if_pos (by simp), List.map_cons]
      exact congrArg (value :: ·) (valuesAt_of_not_mem distinct.1)
    · have other : update.1 ≠ key := fun same =>
        distinct.1 (same ▸ List.mem_map_of_mem later)
      rw [if_neg (by simpa using other)]
      exact ih distinct.2 later

end Libtt.Foundation

namespace Libtt.Foundation

variable {P A K I : Type}

/-- An update of one item touches and reads nothing but positions with the item's key. -/
structure Independent (key : P → K) (keyOf : I → K) (update : I → (P → A) → P → A) : Prop where
  frame : ∀ item memory position, key position ≠ keyOf item →
    update item memory position = memory position
  reads : ∀ item memory other, (∀ position, key position = keyOf item →
    memory position = other position) → ∀ position, key position = keyOf item →
      update item memory position = update item other position

namespace Independent

variable {key : P → K} {keyOf : I → K} {update : I → (P → A) → P → A}

/-- Positions of other keys keep what they had. -/
theorem foldl_other (independent : Independent key keyOf update) (items : List I) (memory : P → A)
    {position : P} (other : ∀ item ∈ items, key position ≠ keyOf item) :
    items.foldl (fun memory item => update item memory) memory position = memory position := by
  induction items generalizing memory with
  | nil => rfl
  | cons item items ih =>
    rw [List.foldl_cons, ih _ fun later member => other later (List.mem_cons_of_mem _ member),
      independent.frame item memory position (other item List.mem_cons_self)]

/-- Positions of an item's key have what its update alone would leave there. -/
theorem foldl_at (independent : Independent key keyOf update) {items : List I}
    (distinct : (items.map keyOf).Nodup) (memory : P → A) {item : I} (member : item ∈ items)
    {position : P} (own : key position = keyOf item) :
    items.foldl (fun memory item => update item memory) memory position =
      update item memory position := by
  induction items generalizing memory with
  | nil => contradiction
  | cons first items ih =>
    obtain ⟨alone, rest⟩ := List.nodup_cons.mp distinct
    rw [List.foldl_cons]
    rcases List.mem_cons.mp member with rfl | later
    · refine independent.foldl_other items _ fun other isOther same => alone ?_
      rw [← own, same]
      exact List.mem_map_of_mem isOther
    · rw [ih rest (update first memory) later]
      refine independent.reads item _ _ (fun place isPlace => ?_) position own
      refine independent.frame first memory place fun same => alone ?_
      rw [← same, isPlace]
      exact List.mem_map_of_mem later

end Independent

end Libtt.Foundation

import Mathlib.Data.Multiset.Bind

/-!
# Spans of numbers and the order of nested loops

Loops over consecutive spans visit a range, a loop over a product of bounds is two nested loops, and
nested loops over independent bounds may change places up to the order of what they visit.
-/

namespace Libtt.Foundation

variable {A B C : Type}

/-- Nested loops visit the same whichever is outside. -/
theorem flatMap_perm_comm (first : List A) (second : List B) (visit : A → B → List C) :
    (first.flatMap fun a => second.flatMap fun b => visit a b).Perm
      (second.flatMap fun b => first.flatMap fun a => visit a b) := by
  apply Multiset.coe_eq_coe.mp
  simp only [← Multiset.coe_bind]
  exact Multiset.bind_bind ..

theorem range'_mul (start count size : Nat) :
    ((List.range' start count).flatMap fun i => List.range' (i * size) size) =
      List.range' (start * size) (count * size) := by
  induction count generalizing start with
  | zero => rw [Nat.zero_mul, List.range'_zero, List.flatMap_nil, List.range'_zero]
  | succ count ih =>
    rw [List.range'_succ, List.flatMap_cons, ih, Nat.succ_mul, Nat.succ_mul,
      Nat.add_comm (count * size), List.range'_append_1]

/-- A loop over a product of bounds is two nested loops. -/
theorem flatMap_range_mul (count size : Nat) (visit : Nat → List C) :
    (List.range (count * size)).flatMap visit =
      (List.range count).flatMap fun i => (List.range size).flatMap fun j => visit (i * size + j) := by
  have spans := range'_mul 0 count size
  rw [Nat.zero_mul, ← List.range_eq_range', ← List.range_eq_range'] at spans
  rw [← spans, List.flatMap_assoc]
  simp only [List.range'_eq_map_range, List.flatMap_map]

/-- Consecutive spans are a span. -/
theorem flatMap_bands {bound : Nat → Nat} (monotone : Monotone bound) (count : Nat) :
    ((List.range count).flatMap fun t => List.range' (bound t) (bound (t + 1) - bound t)) =
      List.range' (bound 0) (bound count - bound 0) := by
  induction count with
  | zero => rw [List.range_zero, List.flatMap_nil, Nat.sub_self, List.range'_zero]
  | succ count ih =>
    have first : bound 0 ≤ bound count := monotone (Nat.zero_le _)
    have last : bound count ≤ bound (count + 1) := monotone (Nat.le_succ _)
    have next := @List.range'_append_1 (bound 0) (bound count - bound 0)
      (bound (count + 1) - bound count)
    rw [Nat.add_sub_of_le first] at next
    rw [List.range_succ, List.flatMap_append, ih, List.flatMap_singleton, next]
    congr 1
    omega

/-- Numbering parts of one size one after the other. -/
theorem zipIdx_flatMap_range' {size : Nat} {part : Nat → List A}
    (uniform : ∀ i, (part i).length = size) (start count : Nat) :
    ((List.range' start count).flatMap part).zipIdx (start * size) =
      (List.range' start count).flatMap fun i => (part i).zipIdx (i * size) := by
  induction count generalizing start with
  | zero => rfl
  | succ count ih =>
    rw [List.range'_succ, List.flatMap_cons, List.flatMap_cons, List.zipIdx_append, uniform,
      ← Nat.succ_mul, ih]

theorem range'_eq_map_mul (start count step : Nat) :
    List.range' start count step = (List.range count).map fun t => start + step * t := by
  induction count with
  | zero => rfl
  | succ count ih =>
    rw [List.range'_concat, ih, List.range_succ, List.map_append, List.map_singleton]

/-- The numbers that a loop from a start to a stop visits. -/
def steps (start stop step : Nat) : List Nat :=
  List.range' start ((stop - start + step - 1) / step) step

/-- A loop between multiples of its step. -/
theorem steps_mul {step : Nat} (positive : 0 < step) (start stop : Nat) :
    steps (step * start) (step * stop) step =
      (List.range' start (stop - start)).map (step * ·) := by
  have count : (step * stop - step * start + step - 1) / step = stop - start := by
    rw [← Nat.mul_sub, Nat.add_sub_assoc positive, Nat.mul_add_div positive,
      Nat.div_eq_of_lt (Nat.sub_lt positive Nat.one_pos), Nat.add_zero]
  rw [steps, count, range'_eq_map_mul, List.range'_eq_map_range, List.map_map]
  apply List.map_congr_left
  intro t _
  exact (Nat.mul_add ..).symm

end Libtt.Foundation

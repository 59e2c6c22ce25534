import Mathlib.Data.List.Nodup
import Mathlib.Data.List.Perm.Subperm
import Mathlib.Data.Nat.ModEq

/-!
# Dealing out in turn

Numbers that go round give each place its turn: any full round has every place once.
-/
namespace Libtt.Foundation

variable {size : Nat}

theorem succ_mod_ne (several : 2 ≤ size) (n : Nat) : (n + 1) % size ≠ n % size := by
  intro same
  have divides := (Nat.modEq_iff_dvd' (Nat.le_add_right n 1)).mp (Eq.symm same)
  rw [Nat.add_sub_cancel_left] at divides
  exact absurd (Nat.le_of_dvd Nat.one_pos divides) (Nat.not_le.mpr several)

/-- `count` turns from a start on. -/
def turns (size start count : Nat) : List Nat := (List.range count).map fun turn =>
  (start + turn) % size

/-- Fewer turns than places have no place twice. -/
theorem turns_nodup (start : Nat) {count : Nat} (few : count ≤ size) :
    (turns size start count).Nodup := by
  refine List.Nodup.map_on (fun turn isTurn other isOther same => ?_) List.nodup_range
  rw [List.mem_range] at isTurn isOther
  have congruent := Nat.ModEq.add_left_cancel' start same
  rwa [Nat.ModEq, Nat.mod_eq_of_lt (isTurn.trans_le few),
    Nat.mod_eq_of_lt (isOther.trans_le few)] at congruent

theorem mem_turns_lt (positive : 0 < size) {start count place : Nat}
    (member : place ∈ turns size start count) : place < size := by
  obtain ⟨_, _, rfl⟩ := List.mem_map.mp member
  exact Nat.mod_lt _ positive

theorem head?_turns {start count : Nat} (positive : 0 < count) :
    (turns size start count).head? = some (start % size) := by
  rw [turns, List.head?_map, List.head?_range, if_neg positive.ne']
  rfl

theorem getLast?_turns {start count : Nat} (positive : 0 < count) :
    (turns size start count).getLast? = some ((start + count - 1) % size) := by
  rw [turns, List.getLast?_map, List.getLast?_range, if_neg positive.ne', Option.map_some,
    Nat.add_sub_assoc positive]

/-- A round has every place once. -/
theorem count_round (start : Nat) {place : Nat} (isPlace : place < size) :
    (turns size start size).count place = 1 := by
  have all : (turns size start size).Perm (List.range size) := by
    have inside : turns size start size ⊆ List.range size := fun other member =>
      List.mem_range.mpr (mem_turns_lt (Nat.zero_lt_of_lt isPlace) member)
    apply (List.subperm_of_subset (turns_nodup start le_rfl) inside).perm_of_length_le
    simp [turns]
  rw [all.count_eq]
  exact List.count_eq_one_of_mem List.nodup_range (List.mem_range.mpr isPlace)

/-- Every place has the whole rounds, and its turn in the rest. -/
theorem count_turns (start count : Nat) {place : Nat} (isPlace : place < size) :
    (turns size start count).count place =
      count / size + (turns size start (count % size)).count place := by
  have rounds (number rest : Nat) : (turns size start (rest + size * number)).count place =
      number + (turns size start rest).count place := by
    induction number with
    | zero => rw [Nat.mul_zero, Nat.add_zero, Nat.zero_add]
    | succ number ih =>
      have next : turns size start (rest + size * (number + 1)) =
          turns size start (rest + size * number) ++
            turns size (start + (rest + size * number)) size := by
        rw [Nat.mul_succ, ← Nat.add_assoc, turns, List.range_add, List.map_append, List.map_map]
        simp only [turns, Function.comp_def, Nat.add_assoc]
      rw [next, List.count_append, ih, count_round _ isPlace]
      omega
  have split := rounds (count / size) (count % size)
  rwa [Nat.mod_add_div] at split

variable {α : Type} {first second : List α}

/-- No `size` consecutive entries are the same. -/
def NoRun (size : Nat) (l : List α) : Prop :=
  ∀ start, start + size ≤ l.length → ∀ value, ∃ i < size, l[start + i]? ≠ some value

theorem NoRun.of_short (short : first.length < size) : NoRun size first :=
  fun _ within => absurd within (by omega)

theorem NoRun.append (ofFirst : NoRun size first) (ofSecond : NoRun size second)
    (apart : ∀ last ∈ first.getLast?, ∀ next ∈ second.head?, last ≠ next) :
    NoRun size (first ++ second) := by
  intro start within value
  rw [List.length_append] at within
  by_cases inFirst : start + size ≤ first.length
  · obtain ⟨i, less, different⟩ := ofFirst start inFirst value
    exact ⟨i, less, by rwa [List.getElem?_append_left (by omega)]⟩
  · by_cases inSecond : first.length ≤ start
    · obtain ⟨i, less, different⟩ := ofSecond (start - first.length) (by omega) value
      refine ⟨i, less, ?_⟩
      rwa [List.getElem?_append_right (by omega), Nat.sub_add_comm inSecond]
    · -- Both ends where the lists meet are among the entries.
      by_contra all
      simp only [not_exists, not_and, not_not] at all
      have last := all (first.length - 1 - start) (by omega)
      have next := all (first.length - start) (by omega)
      rw [List.getElem?_append_left (by omega), Nat.add_sub_cancel' (by omega),
        ← List.getLast?_eq_getElem?] at last
      rw [List.getElem?_append_right (by omega), Nat.add_sub_cancel' (by omega), Nat.sub_self,
        ← List.head?_eq_getElem?] at next
      exact apart value last value next rfl

theorem NoRun.turns (several : 2 ≤ size) (start count : Nat) :
    NoRun size (turns size start count) := by
  intro from' within value
  rw [Foundation.turns, List.length_map, List.length_range] at within
  by_contra all
  simp only [not_exists, not_and, not_not] at all
  have first := all 0 (by omega)
  have second := all 1 (by omega)
  simp only [Foundation.turns, List.getElem?_map, List.getElem?_range (by omega : from' + 0 < count),
    List.getElem?_range (by omega : from' + 1 < count), Option.map_some, Option.some.injEq]
    at first second
  exact succ_mod_ne several _ (second.trans first.symm)

end Libtt.Foundation

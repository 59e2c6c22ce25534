import Mathlib.Data.List.Perm.Basic

/-!
# Folds that select

A maximum or a minimum of values some of which are no values (NaNs): a combination returns one of
its operands, the extreme one, unless one is no value; then it returns a fixed such.
-/
namespace Libtt.Foundation

variable {α : Type*} {isNaN : α → Prop} {below : α → α → Prop} {canonical : α}
  {combine : α → α → Option α}

/-- What a fold should return. -/
structure IsExtreme (isNaN : α → Prop) (below : α → α → Prop) (canonical : α) (values : List α)
    (result : α) : Prop where
  nan : (∃ value ∈ values, isNaN value) → result = canonical
  extreme : (∀ value ∈ values, ¬isNaN value) →
    result ∈ values ∧ ∀ value ∈ values, below value result

/-- A combination that selects. -/
structure Selects (isNaN : α → Prop) (below : α → α → Prop) (canonical : α)
    (combine : α → α → Option α) : Prop where
  refl : ∀ value, ¬isNaN value → below value value
  trans : ∀ low middle high, ¬isNaN low → ¬isNaN middle → ¬isNaN high → below low middle →
    below middle high → below low high
  antisymm : ∀ left right, ¬isNaN left → ¬isNaN right → below left right → below right left →
    left = right
  isNaN_canonical : ∀ value, isNaN value → isNaN canonical
  nan : ∀ left right, isNaN left ∨ isNaN right → combine left right = some canonical
  select : ∀ left right, ¬isNaN left → ¬isNaN right →
    combine left right = some left ∧ below right left ∨
      combine left right = some right ∧ below left right

namespace Selects

variable (selects : Selects isNaN below canonical combine)
include selects

/-- One combination returns the extreme of its operands. -/
theorem pair (left right : α) : ∃ result, combine left right = some result ∧
    IsExtreme isNaN below canonical [left, right] result := by
  by_cases leftNaN : isNaN left
  · exact ⟨canonical, selects.nan left right (.inl leftNaN), fun _ => rfl,
      fun numeric => absurd leftNaN (numeric left (by simp))⟩
  by_cases rightNaN : isNaN right
  · exact ⟨canonical, selects.nan left right (.inr rightNaN), fun _ => rfl,
      fun numeric => absurd rightNaN (numeric right (by simp))⟩
  have none : ¬∃ value ∈ [left, right], isNaN value := by simp [leftNaN, rightNaN]
  rcases selects.select left right leftNaN rightNaN with ⟨isLeft, order⟩ | ⟨isRight, order⟩
  · exact ⟨left, isLeft, fun nan => absurd nan none, fun _ => ⟨by simp, by
      simp [order, selects.refl left leftNaN]⟩⟩
  · exact ⟨right, isRight, fun nan => absurd nan none, fun _ => ⟨by simp, by
      simp [order, selects.refl right rightNaN]⟩⟩

section

variable {values : List α} {current : α}
  (isExtreme : IsExtreme isNaN below canonical values current)
include isExtreme

/-- A combination with the extreme of some values is the extreme of one value more. -/
theorem step (update : α) :
    ∃ result, combine current update = some result ∧
      IsExtreme isNaN below canonical (values ++ [update]) result := by
  obtain ⟨result, combined, isPair⟩ := selects.pair current update
  refine ⟨result, combined, ?_, ?_⟩
  · rintro ⟨value, member, nan⟩
    apply isPair.nan
    rcases List.mem_append.mp member with earlier | last
    · have same := isExtreme.nan ⟨value, earlier, nan⟩
      exact ⟨current, by simp, same ▸ selects.isNaN_canonical value nan⟩
    · exact ⟨update, by simp, List.mem_singleton.mp last ▸ nan⟩
  · intro numeric
    have updateNumeric : ¬isNaN update := numeric update (by simp)
    obtain ⟨member, above⟩ := isExtreme.extreme fun value earlier =>
      numeric value (List.mem_append_left _ earlier)
    have currentNumeric := numeric current (List.mem_append_left _ member)
    obtain ⟨picked, order⟩ := isPair.extreme (by simp [currentNumeric, updateNumeric])
    have resultMember : result ∈ values ++ [update] := by
      rcases List.mem_pair.mp picked with rfl | rfl
      · exact List.mem_append_left _ member
      · simp
    refine ⟨resultMember, fun value within => ?_⟩
    rcases List.mem_append.mp within with earlier | last
    · exact selects.trans value current result (numeric value within) currentNumeric
        (numeric result resultMember) (above value earlier) (order current (by simp))
    · rw [List.mem_singleton.mp last]
      exact order update (by simp)

theorem foldlM_of (updates : List α) :
    ∃ result, updates.foldlM combine current = some result ∧
      IsExtreme isNaN below canonical (values ++ updates) result := by
  induction updates generalizing values current with
  | nil => exact ⟨current, rfl, by simpa using isExtreme⟩
  | cons update updates ih =>
    obtain ⟨next, combined, isNext⟩ := selects.step isExtreme update
    obtain ⟨result, folded, isResult⟩ := ih isNext
    refine ⟨result, ?_, by simpa using isResult⟩
    rw [List.foldlM_cons, combined]
    exact folded

end

/-- A fold over one update or more returns the extreme of the initial value and the updates. -/
theorem foldlM (initial : α) {updates : List α} (nonempty : updates ≠ []) :
    ∃ result, updates.foldlM combine initial = some result ∧
      IsExtreme isNaN below canonical (initial :: updates) result := by
  obtain ⟨update, updates, rfl⟩ := List.exists_cons_of_ne_nil nonempty
  obtain ⟨next, combined, isNext⟩ := selects.pair initial update
  obtain ⟨result, folded, isResult⟩ := selects.foldlM_of isNext updates
  refine ⟨result, ?_, isResult⟩
  rw [List.foldlM_cons, combined]
  exact folded

/-- Of the same values there is one extreme. -/
theorem unique {left right : List α} (same : ∀ value, value ∈ left ↔ value ∈ right)
    {first second : α} (isFirst : IsExtreme isNaN below canonical left first)
    (isSecond : IsExtreme isNaN below canonical right second) : first = second := by
  by_cases nan : ∃ value ∈ left, isNaN value
  · have also : ∃ value ∈ right, isNaN value :=
      nan.imp fun value => And.imp_left (same value).mp
    rw [isFirst.nan nan, isSecond.nan also]
  · have numeric : ∀ value ∈ left, ¬isNaN value := fun value member isNaN =>
      nan ⟨value, member, isNaN⟩
    obtain ⟨firstMember, firstAbove⟩ := isFirst.extreme numeric
    obtain ⟨secondMember, secondAbove⟩ := isSecond.extreme fun value member =>
      numeric value ((same value).mpr member)
    exact selects.antisymm first second (numeric first firstMember)
      (numeric second ((same second).mpr secondMember))
      (secondAbove first ((same first).mp firstMember))
      (firstAbove second ((same second).mpr secondMember))

end Selects

end Libtt.Foundation

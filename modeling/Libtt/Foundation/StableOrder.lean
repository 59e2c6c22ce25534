import Mathlib.Data.List.GetD
import Mathlib.Data.List.Pairwise
import Mathlib.Data.List.Sort

/-!
# Stable sorting

A stable sort leaves elements that the relation does not tell apart in the order they had.
-/
namespace Libtt.Foundation

variable {α : Type} [LT α] {relation : α → α → Prop} {earlier : α → α → Prop}

/-- An order that breaks the ties of a relation by the elements' own order. -/
structure BreaksTies (relation earlier : α → α → Prop) : Prop where
  tie : ∀ first second, relation first second → first < second → earlier first second
  apart : ∀ first second, ¬relation first second → earlier second first
  trans : ∀ first second third, earlier first second → earlier second third → earlier first third

/-- Insertion before everything later. -/
theorem orderedInsert_pairwise [DecidableRel relation] (breaks : BreaksTies relation earlier)
    {first : α} {rest : List α} (least : ∀ other ∈ rest, first < other)
    (sorted : rest.Pairwise earlier) : (rest.orderedInsert relation first).Pairwise earlier := by
  induction rest with
  | nil => simp
  | cons second rest ih =>
    have parts := List.pairwise_cons.mp sorted
    rw [List.orderedInsert_cons]
    by_cases related : relation first second
    · have before := breaks.tie first second related (least second (by simp))
      rw [if_pos related, List.pairwise_cons]
      refine ⟨fun other member => ?_, sorted⟩
      rcases List.mem_cons.mp member with rfl | later
      · exact before
      · exact breaks.trans _ _ _ before (parts.1 other later)
    · rw [if_neg related, List.pairwise_cons]
      refine ⟨fun other member => ?_, ih (fun other later => least other (by simp [later])) parts.2⟩
      rcases (List.mem_orderedInsert relation).mp member with rfl | later
      · exact breaks.apart _ _ related
      · exact parts.1 other later

/-- Elements in increasing order are sorted by the relation, then by their own order. -/
theorem insertionSort_pairwise [DecidableRel relation] (breaks : BreaksTies relation earlier)
    {elements : List α} (increasing : elements.Pairwise (· < ·)) :
    (elements.insertionSort relation).Pairwise earlier := by
  induction elements with
  | nil => simp
  | cons first rest ih =>
    have parts := List.pairwise_cons.mp increasing
    refine orderedInsert_pairwise breaks (fun other member => parts.1 other ?_) (ih parts.2)
    exact (List.mem_insertionSort relation).mp member

end Libtt.Foundation

/-! ## Stable orders -/
namespace Libtt.Foundation

variable {κ α β : Type}

/-- The order of two places: that of their keys, or their own between equal keys. -/
def Before (before : κ → κ → Prop) (key : Nat → κ) (first second : Nat) : Prop :=
  before (key first) (key second) ∨ key first = key second ∧ first < second

/-- The places below a count in the stable order of their keys. -/
structure StableOrder (before : κ → κ → Prop) (key : Nat → κ) (count : Nat)
    (order : List Nat) : Prop where
  perm : order.Perm (List.range count)
  sorted : order.Pairwise (Before before key)

namespace StableOrder

variable {before : κ → κ → Prop} {key : Nat → κ} {count : Nat} {order : List Nat}

theorem length (stable : StableOrder before key count order) : order.length = count :=
  stable.perm.length_eq.trans List.length_range

theorem getD_lt (stable : StableOrder before key count order) {place : Nat} (inside : place < count) :
    order.getD place 0 < count := by
  rw [List.getD_eq_getElem _ _ (stable.length.symm ▸ inside)]
  exact List.mem_range.mp (stable.perm.mem_iff.mp (List.getElem_mem _))

/-- Equal keys, or keys that are in the same order, have the same stable order. -/
theorem congr {before' : α → α → Prop} {key' : Nat → α}
    (stable : StableOrder before key count order)
    (less : ∀ first < count, ∀ second < count, before (key first) (key second) →
      before' (key' first) (key' second))
    (same : ∀ first < count, ∀ second < count, key first = key second →
      key' first = key' second) : StableOrder before' key' count order where
  perm := stable.perm
  sorted := by
    apply stable.sorted.imp_of_mem
    intro first second isFirst isSecond ordered
    have firstLess := List.mem_range.mp (stable.perm.mem_iff.mp isFirst)
    have secondLess := List.mem_range.mp (stable.perm.mem_iff.mp isSecond)
    exact ordered.imp (less first firstLess second secondLess)
      fun tie => ⟨same first firstLess second secondLess tie.1, tie.2⟩

/-- The places by the high digit, among those ordered by the low digit. -/
theorem digits {beforeLow : α → α → Prop} {beforeHigh : β → β → Prop} (low : Nat → α)
    (high : Nat → β) {lowOrder highOrder : List Nat}
    (isLow : StableOrder beforeLow low count lowOrder)
    (isHigh : StableOrder beforeHigh (fun place => high (lowOrder.getD place 0)) count highOrder)
    (byHigh : ∀ first second, beforeHigh (high first) (high second) →
      before (key first) (key second))
    (byLow : ∀ first second, high first = high second → beforeLow (low first) (low second) →
      before (key first) (key second))
    (same : ∀ first second, high first = high second → low first = low second →
      key first = key second) :
    StableOrder before key count (highOrder.map fun place => lowOrder.getD place 0) where
  perm := by
    have listed : (List.range count).map (fun place => lowOrder.getD place 0) = lowOrder := by
      apply List.ext_getElem
      · rw [List.length_map, List.length_range, isLow.length]
      · intro place _ inside
        rw [List.getElem_map, List.getElem_range, List.getD_eq_getElem _ _ inside]
    have moved := isHigh.perm.map fun place => lowOrder.getD place 0
    rw [listed] at moved
    exact moved.trans isLow.perm
  sorted := by
    have places {first second : Nat} (order : first < second) (inside : second < count) :
        Before beforeLow low (lowOrder.getD first 0) (lowOrder.getD second 0) := by
      have length := isLow.length
      rw [List.getD_eq_getElem _ _ (by omega), List.getD_eq_getElem _ _ (by omega)]
      exact List.pairwise_iff_getElem.mp isLow.sorted first second (by omega) (by omega) order
    rw [List.pairwise_map]
    apply isHigh.sorted.imp_of_mem
    intro first second _ isSecond ordered
    have secondLess := List.mem_range.mp (isHigh.perm.mem_iff.mp isSecond)
    rcases ordered with greater | ⟨sameHigh, less⟩
    · exact .inl (byHigh _ _ greater)
    · rcases places less secondLess with lowLess | ⟨sameLow, lowPlace⟩
      · exact .inl (byLow _ _ sameHigh lowLess)
      · exact .inr ⟨same _ _ sameHigh sameLow, lowPlace⟩

end StableOrder

/-- Of two elements, one comes first. -/
theorem pairwise_or {related : α → α → Prop} {elements : List α}
    (pairwise : elements.Pairwise related) {first second : α} (isFirst : first ∈ elements)
    (isSecond : second ∈ elements) (apart : first ≠ second) :
    related first second ∨ related second first := by
  have either : elements.Pairwise fun first second => related first second ∨ related second first :=
    pairwise.imp .inl
  have symmetric : Std.Symm fun first second => related first second ∨ related second first :=
    ⟨fun _ _ => Or.symm⟩
  exact either.forall isFirst isSecond apart

/-- Where some come before all others, a list is those and then the others. -/
theorem filter_append_of_pairwise {chosen : α → Bool} {elements : List α}
    (before : elements.Pairwise fun first second => chosen second → chosen first) :
    elements.filter chosen ++ elements.filter (fun element => !chosen element) = elements := by
  induction elements with
  | nil => rfl
  | cons first rest ih =>
    have parts := List.pairwise_cons.mp before
    by_cases isChosen : chosen first
    · rw [List.filter_cons_of_pos isChosen, List.filter_cons_of_neg (by simp [isChosen]),
        List.cons_append, ih parts.2]
    · have none : rest.filter chosen = [] :=
        List.filter_eq_nil_iff.mpr fun second member isSecond =>
          isChosen (parts.1 second member isSecond)
      rw [List.filter_cons_of_neg isChosen, List.filter_cons_of_pos (by simp [isChosen]), none,
        List.nil_append]
      rw [none, List.nil_append] at ih
      rw [ih parts.2]

/-- Where the first places come before all others, an order begins with these. -/
theorem take_perm_range {order : List Nat} {count total : Nat} (within : count ≤ total)
    (perm : order.Perm (List.range total))
    (before : order.Pairwise fun first second => second < count → first < count) :
    (order.take count).Perm (List.range count) := by
  have kept : ((List.range total).filter fun place => place < count) = List.range count := by
    obtain ⟨rest, rfl⟩ := Nat.exists_eq_add_of_le within
    rw [List.range_add, List.filter_append, List.filter_eq_self.mpr (by simp),
      List.filter_eq_nil_iff.mpr (by simp), List.append_nil]
  have moved := perm.filter fun place => place < count
  rw [kept] at moved
  have parts : order.filter (fun place => place < count) ++
      order.filter (fun place => !decide (place < count)) = order := by
    apply filter_append_of_pairwise
    simpa using before
  have length : (order.filter fun place => place < count).length = count := by
    rw [moved.length_eq, List.length_range]
  have taken : (order.filter (fun place => place < count) ++
      order.filter fun place => !decide (place < count)).take count =
        order.filter fun place => place < count := List.take_left' length
  rw [parts] at taken
  rw [taken]
  exact moved

/-- Insertion finds the stable order. -/
theorem stableOrder_insertionSort {before : κ → κ → Prop} [DecidableRel before]
    (total : ∀ first second, before first second ∨ first = second ∨ before second first)
    (trans : ∀ first second third, before first second → before second third →
      before first third) (key : Nat → κ) (count : Nat) :
    StableOrder before key count
      ((List.range count).insertionSort fun first second => ¬before (key second) (key first)) where
  perm := List.perm_insertionSort _ _
  sorted := by
    apply insertionSort_pairwise _ List.pairwise_lt_range
    constructor
    · intro first second related less
      rcases total (key first) (key second) with before | same | after
      · exact .inl before
      · exact .inr ⟨same, less⟩
      · exact absurd after related
    · intro first second apart
      exact .inl (not_not.mp apart)
    · intro first second third isFirst isSecond
      rcases isFirst with less | ⟨same, less⟩
      · rcases isSecond with alsoLess | ⟨same, -⟩
        · exact .inl (trans _ _ _ less alsoLess)
        · exact .inl (same ▸ less)
      · rcases isSecond with alsoLess | ⟨alsoSame, alsoLess⟩
        · exact .inl (same ▸ alsoLess)
        · exact .inr ⟨same.trans alsoSame, less.trans alsoLess⟩

end Libtt.Foundation

import Mathlib.Data.List.Sort
import Mathlib.Data.Prod.Lex
import Mathlib.Order.MinMax

/-!
# Merging and searching ranges

Half-open ranges, each in the space of its key, are merged by one pass over the ranges sorted by key
and bounds.
-/
namespace Libtt.Foundation

/-- The first place from `first`, among `count` places, at which a monotone test holds. -/
def partitionPoint (test : Nat → Bool) (first count : Nat) : Nat :=
  if count = 0 then first
  else if test (first + count / 2) then partitionPoint test first (count / 2)
  else partitionPoint test (first + count / 2 + 1) (count - count / 2 - 1)
termination_by count

/-- The test fails below the place found and holds from there. -/
theorem partitionPoint_spec {test : Nat → Bool} {first count : Nat}
    (monotone : ∀ place later, first ≤ place → place ≤ later → later < first + count →
      test place = true → test later = true) :
    (∀ place, first ≤ place → place < partitionPoint test first count → test place = false) ∧
    ∀ place, partitionPoint test first count ≤ place → place < first + count →
      test place = true := by
  fun_induction partitionPoint test first count with
  | case1 first => exact ⟨fun _ _ _ => by omega, fun _ _ _ => by omega⟩
  | case2 first count positive holds ih =>
    obtain ⟨below, above⟩ := ih fun place later bound le lt =>
      monotone place later bound le (by omega)
    refine ⟨below, fun place ge lt => ?_⟩
    by_cases left : place < first + count / 2
    · exact above place ge left
    · exact monotone _ place (by omega) (by omega) lt holds
  | case3 first count positive fails ih =>
    obtain ⟨below, above⟩ := ih fun place later bound le lt =>
      monotone place later (by omega) le (by omega)
    refine ⟨fun place ge lt => ?_, fun place ge lt => above place ge (by omega)⟩
    by_cases right : first + count / 2 + 1 ≤ place
    · exact below place right lt
    · rw [← Bool.not_eq_true]
      exact fun holds => fails (monotone place _ ge (by omega) (by omega) holds)

/-- `std::upper_bound`: the place of the first entry that lies above, by binary search. -/
def upperBound {α : Type} (above : α → Bool) (run : List α) : Nat :=
  partitionPoint (fun place => run[place]?.any above) 0 run.length

/-- On a run whose entries turn from not above to above, the entry found is the first above. -/
theorem getElem?_upperBound {α : Type} {above : α → Bool} {run : List α}
    (monotone : run.Pairwise fun first second => above first = true → above second = true) :
    run[upperBound above run]? = run.find? above := by
  have spec : (∀ place, 0 ≤ place → place < upperBound above run →
      run[place]?.any above = false) ∧ ∀ place, upperBound above run ≤ place →
      place < 0 + run.length → run[place]?.any above = true := by
    apply partitionPoint_spec
    intro place later _ le lt holds
    rw [List.getElem?_eq_getElem (by omega)] at holds ⊢
    rcases Nat.lt_or_eq_of_le le with before | equal
    · exact List.pairwise_iff_getElem.mp monotone place later _ (by omega) before holds
    · subst equal
      exact holds
  rw [List.find?_eq_getElem?_findIdx]
  by_cases inside : upperBound above run < run.length
  · congr 1
    symm
    rw [List.findIdx_eq inside]
    constructor
    · simpa [List.getElem?_eq_getElem inside] using spec.2 _ (Nat.le_refl _) (by omega)
    · intro place before
      have fails := spec.1 place (Nat.zero_le _) before
      rwa [List.getElem?_eq_getElem (by omega)] at fails
  · have none : run.findIdx above = run.length := by
      rw [List.findIdx_eq_length]
      intro entry member
      obtain ⟨place, bound, rfl⟩ := List.getElem_of_mem member
      have fails := spec.1 place (Nat.zero_le _) (by omega)
      rwa [List.getElem?_eq_getElem bound] at fails
    rw [none, List.getElem?_eq_none (by omega), List.getElem?_eq_none (by omega)]

/-- The range from `lower` up to `upper` in the space of a key. -/
structure KeyedRange (κ α : Type) where
  key : κ
  lower : α
  upper : α
  deriving DecidableEq

namespace KeyedRange

variable {κ α : Type} [LinearOrder κ] [LinearOrder α]

/-- The element lies in the range. -/
def Contains (range : KeyedRange κ α) (key : κ) (element : α) : Prop :=
  range.key = key ∧ range.lower ≤ element ∧ element < range.upper

/-- Some range of the list holds the element. -/
def Covers (ranges : List (KeyedRange κ α)) (key : κ) (element : α) : Prop :=
  ∃ range ∈ ranges, range.Contains key element

/-- In order of key and lower bound. -/
def Before (first second : KeyedRange κ α) : Prop :=
  first.key < second.key ∨ first.key = second.key ∧ first.lower ≤ second.lower

/-- In order, and with a gap between ranges of one key. -/
def Apart (first second : KeyedRange κ α) : Prop :=
  first.key < second.key ∨ first.key = second.key ∧ first.upper < second.lower

/-- Lexicographic order of key and bounds. -/
def Le (first second : KeyedRange κ α) : Prop :=
  toLex (first.key, toLex (first.lower, first.upper)) ≤
    toLex (second.key, toLex (second.lower, second.upper))

instance : DecidableRel (Le (κ := κ) (α := α)) := fun first second =>
  inferInstanceAs (Decidable (toLex (first.key, toLex (first.lower, first.upper)) ≤
    toLex (second.key, toLex (second.lower, second.upper))))

theorem Before.trans {first second third : KeyedRange κ α} (left : first.Before second)
    (right : second.Before third) : first.Before third := by
  rcases left with less | ⟨equal, le⟩ <;> rcases right with less' | ⟨equal', le'⟩
  · exact .inl (less.trans less')
  · exact .inl (equal' ▸ less)
  · exact .inl (equal ▸ less')
  · exact .inr ⟨equal.trans equal', le.trans le'⟩

theorem Le.before {first second : KeyedRange κ α} (le : first.Le second) :
    first.Before second := by
  rcases Prod.Lex.toLex_le_toLex.mp le with less | ⟨equal, bounds⟩
  · exact .inl less
  · rcases Prod.Lex.toLex_le_toLex.mp bounds with less | ⟨equal', _⟩
    · exact .inr ⟨equal, le_of_lt less⟩
    · exact .inr ⟨equal, le_of_eq equal'⟩

/-- The merged ranges when `back` is the last so far. -/
def mergeFrom (back : KeyedRange κ α) : List (KeyedRange κ α) → List (KeyedRange κ α)
  | [] => [back]
  | range :: ranges =>
    if back.key = range.key ∧ range.lower ≤ back.upper then
      mergeFrom { back with upper := max back.upper range.upper } ranges
    else back :: mergeFrom range ranges

/-- One pass over sorted ranges. -/
def merge : List (KeyedRange κ α) → List (KeyedRange κ α)
  | [] => []
  | range :: ranges => mergeFrom range ranges

/-- The ranges sorted and merged. -/
def coalesce (ranges : List (KeyedRange κ α)) : List (KeyedRange κ α) :=
  merge (ranges.insertionSort Le)

/-- What merging preserves of a list: who covers what, and where its ranges begin. -/
structure Merged (ranges merged : List (KeyedRange κ α)) : Prop where
  covers : ∀ key element, Covers merged key element ↔ Covers ranges key element
  /-- Every range lies in a merged one. -/
  within : ∀ range ∈ ranges, ∃ whole ∈ merged, whole.key = range.key ∧
    whole.lower ≤ range.lower ∧ range.upper ≤ whole.upper
  /-- Every merged range begins with a range. -/
  begins : ∀ whole ∈ merged, ∃ range ∈ ranges, range.key = whole.key ∧
    range.lower = whole.lower ∧ range.upper ≤ whole.upper

omit [LinearOrder κ] in
theorem Covers.cons {range : KeyedRange κ α} {ranges : List (KeyedRange κ α)} {key : κ}
    {element : α} : Covers (range :: ranges) key element ↔
      range.Contains key element ∨ Covers ranges key element := by
  simp [Covers]

omit [LinearOrder κ] in
/-- Two ranges that touch cover what their union covers. -/
theorem contains_max {back range : KeyedRange κ α} (equal : back.key = range.key)
    (before : back.lower ≤ range.lower) (touches : range.lower ≤ back.upper) (key : κ)
    (element : α) : ({ back with upper := max back.upper range.upper } : KeyedRange κ α).Contains
      key element ↔ back.Contains key element ∨ range.Contains key element := by
  simp only [Contains, lt_max_iff]
  constructor
  · rintro ⟨isKey, above, below | below⟩
    · exact .inl ⟨isKey, above, below⟩
    · rcases lt_or_ge element back.upper with inside | outside
      · exact .inl ⟨isKey, above, inside⟩
      · exact .inr ⟨equal ▸ isKey, touches.trans outside, below⟩
  · rintro (⟨isKey, above, below⟩ | ⟨isKey, above, below⟩)
    · exact ⟨isKey, above, .inl below⟩
    · exact ⟨equal.trans isKey, before.trans above, .inr below⟩

section

variable {back : KeyedRange κ α} {ranges : List (KeyedRange κ α)}
  (sorted : (back :: ranges).Pairwise Before)
include sorted

theorem mergeFrom_merged :
    Merged (back :: ranges) (mergeFrom back ranges) := by
  induction ranges generalizing back with
  | nil =>
    exact ⟨fun _ _ => Iff.rfl, fun range member => ⟨range, member, rfl, le_rfl, le_rfl⟩,
      fun whole member => ⟨whole, member, rfl, rfl, le_rfl⟩⟩
  | cons range ranges ih =>
    obtain ⟨first, rest⟩ := List.pairwise_cons.mp sorted
    rw [mergeFrom]
    split
    next touches =>
      have before : back.lower ≤ range.lower := by
        rcases first range (by simp) with less | ⟨_, le⟩
        · exact absurd touches.1 (ne_of_lt less)
        · exact le
      have merged : Merged ({ back with upper := max back.upper range.upper } :: ranges)
          (mergeFrom { back with upper := max back.upper range.upper } ranges) := ih
        (List.pairwise_cons.mpr ⟨fun other member => first other (by simp [member]),
          (List.pairwise_cons.mp rest).2⟩)
      refine ⟨fun key element => ?_, fun other member => ?_, fun whole member => ?_⟩
      · rw [merged.covers, Covers.cons, Covers.cons, Covers.cons,
          contains_max touches.1 before touches.2, or_assoc]
      · obtain ⟨whole, isWhole, isKey, lower, upper⟩ :=
          merged.within { back with upper := max back.upper range.upper } (by simp)
        rcases List.mem_cons.mp member with isBack | member
        · exact ⟨whole, isWhole, isBack ▸ isKey, isBack ▸ lower,
            isBack ▸ (le_max_left _ _).trans upper⟩
        rcases List.mem_cons.mp member with isRange | member
        · exact ⟨whole, isWhole, isRange ▸ isKey.trans touches.1, isRange ▸ lower.trans before,
            isRange ▸ (le_max_right _ _).trans upper⟩
        · exact merged.within other (by simp [member])
      · obtain ⟨other, isOther, isKey, lower, upper⟩ := merged.begins whole member
        rcases List.mem_cons.mp isOther with isBack | isOther
        · subst isBack
          exact ⟨back, by simp, isKey, lower, (le_max_left _ _).trans upper⟩
        · exact ⟨other, by simp [isOther], isKey, lower, upper⟩
    next =>
      have merged := ih rest
      refine ⟨fun key element => ?_, fun other member => ?_, fun whole member => ?_⟩
      · rw [Covers.cons, merged.covers, ← Covers.cons]
      · rcases List.mem_cons.mp member with isBack | member
        · exact ⟨back, by simp, isBack ▸ rfl, isBack ▸ le_rfl, isBack ▸ le_rfl⟩
        · obtain ⟨whole, isWhole, parts⟩ := merged.within other member
          exact ⟨whole, by simp [isWhole], parts⟩
      · rcases List.mem_cons.mp member with isBack | member
        · exact ⟨back, by simp, isBack ▸ rfl, isBack ▸ rfl, isBack ▸ le_rfl⟩
        · obtain ⟨other, isOther, parts⟩ := merged.begins whole member
          exact ⟨other, List.mem_cons_of_mem _ isOther, parts⟩

/-- The merged ranges follow each other with gaps. -/
theorem mergeFrom_apart : (mergeFrom back ranges).Pairwise Apart := by
  induction ranges generalizing back with
  | nil => exact List.pairwise_singleton _ _
  | cons range ranges ih =>
    obtain ⟨first, rest⟩ := List.pairwise_cons.mp sorted
    rw [mergeFrom]
    split
    next touches =>
      exact ih (List.pairwise_cons.mpr ⟨fun other member => first other (by simp [member]),
        (List.pairwise_cons.mp rest).2⟩)
    next apart =>
      refine List.pairwise_cons.mpr ⟨fun whole member => ?_, ih rest⟩
      obtain ⟨other, isOther, isKey, lower, _⟩ := (mergeFrom_merged rest).begins whole member
      have behind : range.Before whole := by
        rcases List.mem_cons.mp isOther with isRange | isOther
        · exact .inr ⟨isRange ▸ isKey, isRange ▸ le_of_eq lower⟩
        · have before := (List.pairwise_cons.mp rest).1 other isOther
          exact before.trans (.inr ⟨isKey, le_of_eq lower⟩)
      rcases first range (by simp) with less | ⟨equal, _⟩
      · rcases behind with less' | ⟨equal', _⟩
        · exact .inl (less.trans less')
        · exact .inl (equal' ▸ less)
      · have gap : back.upper < range.lower := lt_of_not_ge fun touches => apart ⟨equal, touches⟩
        rcases behind with less' | ⟨equal', le⟩
        · exact .inl (equal ▸ less')
        · exact .inr ⟨equal.trans equal', gap.trans_le le⟩

end

theorem insertionSort_before (ranges : List (KeyedRange κ α)) :
    (ranges.insertionSort Le).Pairwise Before := by
  have total : Std.Total (Le (κ := κ) (α := α)) := ⟨fun _ _ => le_total _ _⟩
  have transitive : IsTrans (KeyedRange κ α) Le := ⟨fun _ _ _ => le_trans⟩
  exact (List.pairwise_insertionSort Le ranges).imp Le.before

theorem coalesce_apart (ranges : List (KeyedRange κ α)) : (coalesce ranges).Pairwise Apart := by
  have sorted := insertionSort_before ranges
  rw [coalesce]
  cases equal : ranges.insertionSort Le with
  | nil => exact .nil
  | cons range rest => exact mergeFrom_apart (equal ▸ sorted)

theorem coalesce_merged (ranges : List (KeyedRange κ α)) : Merged ranges (coalesce ranges) := by
  have sorted := insertionSort_before ranges
  have merged : Merged (ranges.insertionSort Le) (coalesce ranges) := by
    rw [coalesce]
    cases equal : ranges.insertionSort Le with
    | nil => exact ⟨fun _ _ => Iff.rfl, nofun, nofun⟩
    | cons range rest => exact mergeFrom_merged (equal ▸ sorted)
  refine ⟨fun key element => (merged.covers key element).trans ?_, fun range member =>
    merged.within range ((List.mem_insertionSort Le).mpr member), fun whole member => ?_⟩
  · simp only [Covers, List.mem_insertionSort]
  · obtain ⟨range, isRange, parts⟩ := merged.begins whole member
    exact ⟨range, (List.mem_insertionSort Le).mp isRange, parts⟩

/-- Of two ranges of a list one lies behind the other, unless they are one range. -/
theorem eq_or_apart {ranges : List (KeyedRange κ α)} (apart : ranges.Pairwise Apart)
    {first second : KeyedRange κ α} (isFirst : first ∈ ranges) (isSecond : second ∈ ranges) :
    first = second ∨ first.Apart second ∨ second.Apart first := by
  obtain ⟨place, bound, rfl⟩ := List.getElem_of_mem isFirst
  obtain ⟨place', bound', rfl⟩ := List.getElem_of_mem isSecond
  have ordered := List.pairwise_iff_getElem.mp apart
  rcases Nat.lt_trichotomy place place' with less | equal | less
  · exact .inr (.inl (ordered _ _ bound bound' less))
  · exact .inl (by simp only [equal])
  · exact .inr (.inr (ordered _ _ bound' bound less))

end KeyedRange

end Libtt.Foundation

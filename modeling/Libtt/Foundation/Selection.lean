import Mathlib.Data.List.Induction
import Mathlib.Data.List.Nodup
import Mathlib.Tactic.Ring

/-!
# Numbering the selected entries of a list

A sequence of events is often numbered by kind: the n-th event that a partial function selects.
-/
namespace Libtt.Foundation

variable {α β : Type}

/-- An entry selected at a place has the number of the selected entries before it. -/
theorem getElem?_filterMap_of_place {select : α → Option β} {entries : List α} {place : Nat}
    {entry : α} {chosen : β} (found : entries[place]? = some entry)
    (selected : select entry = some chosen) :
    (entries.filterMap select)[((entries.take place).filterMap select).length]? = some chosen := by
  have value := (List.getElem?_eq_some_iff.mp found).2
  have split : entries = entries.take place ++ entry :: entries.drop (place + 1) := by
    rw [← value, List.getElem_cons_drop, List.take_append_drop]
  rw [show entries.filterMap select = (entries.take place).filterMap select ++
    chosen :: (entries.drop (place + 1)).filterMap select by
      conv_lhs => rw [split, List.filterMap_append, List.filterMap_cons, selected]]
  simp

/-- A number among the selected entries comes from one place. -/
theorem exists_place_of_getElem?_filterMap {select : α → Option β} {entries : List α}
    {number : Nat} {chosen : β} (found : (entries.filterMap select)[number]? = some chosen) :
    ∃ place entry, entries[place]? = some entry ∧ select entry = some chosen ∧
      ((entries.take place).filterMap select).length = number := by
  induction entries generalizing number with
  | nil => simp at found
  | cons entry entries ih =>
    cases selected : select entry with
    | none =>
      rw [List.filterMap_cons, selected] at found
      obtain ⟨place, other, isOther, isChosen, count⟩ := ih found
      exact ⟨place + 1, other, isOther, isChosen, by simp [selected, count]⟩
    | some first =>
      rw [List.filterMap_cons, selected] at found
      cases number with
      | zero =>
        have equal : first = chosen := by simpa using found
        exact ⟨0, entry, rfl, by rw [selected, equal], rfl⟩
      | succ number =>
        obtain ⟨place, other, isOther, isChosen, count⟩ := ih (by simpa using found)
        exact ⟨place + 1, other, isOther, isChosen, by simp [selected, count]⟩

/-- Lists of which one continues the other agree where both have an entry. -/
theorem eq_of_prefix_or_prefix {left right : List α} (order : left <+: right ∨ right <+: left)
    {place : Nat} {first second : α} (isFirst : left[place]? = some first)
    (isSecond : right[place]? = some second) : first = second := by
  have continued {left right : List α} (order : left <+: right) {first second : α}
      (isFirst : left[place]? = some first) (isSecond : right[place]? = some second) :
      first = second := by
    obtain ⟨rest, equal⟩ := order
    rw [← equal, List.getElem?_append_left (List.getElem?_eq_some_iff.mp isFirst).1, isFirst]
      at isSecond
    exact Option.some.inj isSecond
  rcases order with longer | shorter
  · exact continued longer isFirst isSecond
  · exact (continued shorter isSecond isFirst).symm

/-- Such lists have the same front, up to any place both lists reach. -/
theorem take_eq_of_prefix_or_prefix {first second : List α}
    (order : first <+: second ∨ second <+: first) {count : Nat} (inFirst : count ≤ first.length)
    (inSecond : count ≤ second.length) : first.take count = second.take count := by
  rcases order with ⟨rest, rfl⟩ | ⟨rest, rfl⟩
  · rw [List.take_append_of_le_length inFirst]
  · rw [List.take_append_of_le_length inSecond]

/-- Weights that agree have the same sum up to any place both lists reach. -/
theorem sum_take_eq {left right : List Nat} (count : Nat) (inLeft : count ≤ left.length)
    (inRight : count ≤ right.length) (agree : ∀ place first second, place < count →
      left[place]? = some first → right[place]? = some second → first = second) :
    (left.take count).sum = (right.take count).sum := by
  congr 1
  apply List.ext_getElem?
  intro place
  rw [List.getElem?_take, List.getElem?_take]
  by_cases before : place < count
  · rw [if_pos before, if_pos before, List.getElem?_eq_getElem (by omega),
      List.getElem?_eq_getElem (by omega)]
    exact congrArg some (agree place _ _ before (List.getElem?_eq_getElem _)
      (List.getElem?_eq_getElem _))
  · rw [if_neg before, if_neg before]

/-- A positive weight is passed where the sum grows. -/
theorem sum_take_lt {weights : List Nat} {first second weight : Nat}
    (found : weights[first]? = some weight) (positive : 0 < weight) (lt : first < second) :
    (weights.take first).sum < (weights.take second).sum := by
  have split : weights.take second = weights.take first ++ (weights.take second).drop first := by
    have parts := List.take_append_drop first (weights.take second)
    rw [List.take_take, Nat.min_eq_left (by omega)] at parts
    exact parts.symm
  have inside : weight ∈ (weights.take second).drop first := by
    rw [List.mem_iff_getElem?]
    refine ⟨0, ?_⟩
    rw [List.getElem?_drop, List.getElem?_take, if_pos (by omega)]
    simpa using found
  have grows := List.sum_pos_iff_exists_pos_nat.mpr ⟨weight, inside, positive⟩
  rw [split, List.sum_append]
  omega

/-- Two positive weights at which agreeing lists have the same sum are at one place. -/
theorem place_eq_of_sum_take_eq {left right : List Nat} {first second weight weight' : Nat}
    (found : left[first]? = some weight) (found' : right[second]? = some weight')
    (positive : 0 < weight) (positive' : 0 < weight')
    (agree : ∀ (place : Nat) first second, left[place]? = some first →
      right[place]? = some second → first = second) (same : (left.take first).sum = (right.take second).sum) :
    first = second := by
  have bound := (List.getElem?_eq_some_iff.mp found).1
  have bound' := (List.getElem?_eq_some_iff.mp found').1
  rcases Nat.lt_trichotomy first second with lt | equal | lt
  · have common := sum_take_eq first (by omega) (by omega)
      fun place a b _ isFirst isSecond => agree place a b isFirst isSecond
    have other : right[first]? = some weight := by
      rw [List.getElem?_eq_getElem (by omega)]
      exact congrArg some (agree first _ _ found (List.getElem?_eq_getElem _)).symm
    have grows := sum_take_lt other positive lt
    omega
  · exact equal
  · have common := sum_take_eq second (by omega) (by omega)
      fun place a b _ isFirst isSecond => agree place a b isFirst isSecond
    have other : left[second]? = some weight' := by
      rw [List.getElem?_eq_getElem (by omega)]
      exact congrArg some (agree second _ _ (List.getElem?_eq_getElem _) found')
    have grows := sum_take_lt other positive' lt
    omega

end Libtt.Foundation

/-! ## Selections -/
namespace Libtt.Foundation

variable {α : Type*}

/-- The candidate that is left, if there are some. -/
def selected (keep : α → α → Bool) : List α → Option α
  | [] => none
  | first :: rest => some (rest.foldl
      (fun current candidate => if keep current candidate then current else candidate) first)

theorem selected_append_singleton (keep : α → α → Bool) (candidates : List α) (last : α) :
    selected keep (candidates ++ [last]) = match selected keep candidates with
      | none => some last
      | some current => some (if keep current last then current else last) := by
  cases candidates with
  | nil => rfl
  | cons first rest => simp [selected, List.foldl_append]

theorem selected_mem {keep : α → α → Bool} {candidates : List α} {selection : α}
    (isSelected : selected keep candidates = some selection) : selection ∈ candidates := by
  induction candidates using List.reverseRecOn generalizing selection with
  | nil => cases isSelected
  | append_singleton candidates last ih =>
    rw [selected_append_singleton] at isSelected
    split at isSelected
    · simp [Option.some.inj isSelected]
    · rename_i current isCurrent
      split at isSelected
      · exact List.mem_append_left _ (ih (isCurrent.trans isSelected))
      · simp [Option.some.inj isSelected]

/-- Only the preferences among the candidates matter. -/
theorem selected_congr {keep other : α → α → Bool} {candidates : List α}
    (same : ∀ first ∈ candidates, ∀ second ∈ candidates, keep first second = other first second) :
    selected keep candidates = selected other candidates := by
  induction candidates using List.reverseRecOn with
  | nil => rfl
  | append_singleton candidates last ih =>
    rw [selected_append_singleton, selected_append_singleton,
      ih fun first isFirst second isSecond =>
        same first (List.mem_append_left _ isFirst) second (List.mem_append_left _ isSecond)]
    split
    · rfl
    · rename_i current isCurrent
      rw [same current (List.mem_append_left _ (selected_mem isCurrent)) last (by simp)]

/-- A preference that compares candidates by a total preorder. -/
structure Prefers (keep : α → α → Bool) : Prop where
  trans : ∀ {first second third}, keep first second → keep second third → keep first third
  negTrans : ∀ {first second third}, ¬keep first second → ¬keep second third → ¬keep first third

/-- What is selected is not kept by those before it, and is kept against those after it. -/
theorem selected_split {keep : α → α → Bool} (prefers : Prefers keep) {candidates : List α}
    {selection : α} (isSelected : selected keep candidates = some selection) :
    ∃ before after, candidates = before ++ selection :: after ∧
      (∀ other ∈ before, ¬keep other selection) ∧ ∀ other ∈ after, keep selection other := by
  induction candidates using List.reverseRecOn generalizing selection with
  | nil => cases isSelected
  | append_singleton candidates last ih =>
    rw [selected_append_singleton] at isSelected
    split at isSelected
    · rename_i none
      cases candidates with
      | nil => exact ⟨[], [], by simpa using isSelected, by simp, by simp⟩
      | cons first rest => cases none
    · rename_i current isCurrent
      obtain ⟨before, after, whole, isBefore, isAfter⟩ := ih isCurrent
      by_cases keeps : keep current last
      · obtain rfl : current = selection := by simpa [keeps] using isSelected
        refine ⟨before, after ++ [last], by simp [whole], isBefore, fun other member => ?_⟩
        rcases List.mem_append.mp member with earlier | isLast
        · exact isAfter other earlier
        · rwa [List.mem_singleton.mp isLast]
      · obtain rfl : last = selection := by simpa [keeps] using isSelected
        refine ⟨candidates, [], rfl, fun other member => ?_, by simp⟩
        rw [whole, List.mem_append, List.mem_cons] at member
        rcases member with earlier | rfl | later
        · exact prefers.negTrans (isBefore other earlier) keeps
        · exact keeps
        · exact fun alsoKeeps => keeps (prefers.trans (isAfter other later) alsoKeeps)

section

variable {K : Type*} [LinearOrder K] {key : α → K} {candidates : List α} {selection : α}

/-- The selection that keeps the current candidate against equal ones. -/
def keepFirst (key : α → K) (current candidate : α) : Bool := key candidate ≤ key current

/-- The selection that takes the next candidate of equal ones. -/
def keepLast (key : α → K) (current candidate : α) : Bool := key candidate < key current

/-- None of the candidates has a greater key. -/
def isGreatest (key : α → K) (candidates : List α) (candidate : α) : Bool :=
  candidates.all fun other => key other ≤ key candidate

theorem prefers_first : Prefers (keepFirst key) where
  trans first second := by
    simp only [keepFirst, decide_eq_true_eq] at *
    exact second.trans first
  negTrans first second := by
    simp only [keepFirst, decide_eq_true_eq, not_le] at *
    exact first.trans second

theorem prefers_last : Prefers (keepLast key) where
  trans first second := by
    simp only [keepLast, decide_eq_true_eq] at *
    exact second.trans first
  negTrans first second := by
    simp only [keepLast, decide_eq_true_eq, not_lt] at *
    exact first.trans second

/-- Keeping the current candidate selects the first of the greatest. -/
theorem selected_first : selected (keepFirst key) candidates =
    candidates.find? (isGreatest key candidates) := by
  cases isSelected : selected (keepFirst key) candidates with
  | none =>
    cases candidates with
    | nil => rfl
    | cons first rest => cases isSelected
  | some selection =>
    obtain ⟨before, after, whole, less, atMost⟩ := selected_split prefers_first isSelected
    simp only [keepFirst, decide_eq_true_eq, not_le] at less atMost
    refine (List.find?_eq_some_iff_append.mpr
      ⟨?_, before, after, whole, fun other member => ?_⟩).symm
    · refine List.all_eq_true.mpr fun other member => decide_eq_true ?_
      rw [whole, List.mem_append, List.mem_cons] at member
      rcases member with earlier | rfl | later
      · exact (less other earlier).le
      · exact le_rfl
      · exact atMost other later
    · have exceeded : ¬isGreatest key candidates other := fun greatest => by
        have inside : selection ∈ candidates := by simp [whole]
        have bound := List.all_eq_true.mp greatest selection inside
        exact absurd (less other member) (not_lt_of_ge (of_decide_eq_true bound))
      simpa using exceeded

/-- Taking the next candidate selects one of the greatest too. -/
theorem selected_last (isSelected : selected (keepLast key) candidates = some selection) :
    ∃ before after, candidates = before ++ selection :: after ∧
      (∀ other ∈ before, key other ≤ key selection) ∧
      ∀ other ∈ after, key other < key selection := by
  obtain ⟨before, after, whole, atMost, less⟩ := selected_split prefers_last isSelected
  simp only [keepLast, decide_eq_true_eq, not_lt] at atMost less
  exact ⟨before, after, whole, atMost, less⟩

/-- Taking the next candidate selects the same one if one alone is greatest. -/
theorem selected_last_eq_first (distinct : candidates.Nodup) :
    selected (keepLast key) candidates = candidates.find? (isGreatest key candidates) ↔
      ∀ first ∈ candidates, ∀ second ∈ candidates, isGreatest key candidates first →
        isGreatest key candidates second → first = second := by
  cases isSelected : selected (keepLast key) candidates with
  | none =>
    cases candidates with
    | nil => simp
    | cons first rest => cases isSelected
  | some selection =>
    obtain ⟨before, after, whole, atMost, less⟩ := selected_last isSelected
    have inside : selection ∈ candidates := by simp [whole]
    have greatest : isGreatest key candidates selection := by
      refine List.all_eq_true.mpr fun other member => decide_eq_true ?_
      rw [whole, List.mem_append, List.mem_cons] at member
      rcases member with earlier | rfl | later
      · exact atMost other earlier
      · exact le_rfl
      · exact (less other later).le
    constructor
    · intro same
      obtain ⟨-, earlier, later, alsoWhole, exceeded⟩ :=
        List.find?_eq_some_iff_append.mp same.symm
      have once := (List.nodup_cons.mp (List.nodup_middle.mp (whole ▸ distinct))).1
      rw [List.mem_append, not_or] at once
      have place : before = earlier :=
        ((List.append_cons_inj_of_notMem once.1 once.2).mp (whole.symm.trans alsoWhole)).1
      have only : ∀ other ∈ candidates, isGreatest key candidates other → other = selection := by
        intro other member isGreatestOther
        rw [whole, List.mem_append, List.mem_cons] at member
        rcases member with isBefore | same | isAfter
        · have not := exceeded other (place ▸ isBefore)
          simp [isGreatestOther] at not
        · exact same
        · have bound := List.all_eq_true.mp isGreatestOther selection inside
          exact absurd (less other isAfter) (not_lt_of_ge (of_decide_eq_true bound))
      intro first isFirst second isSecond firstGreatest secondGreatest
      rw [only first isFirst firstGreatest, only second isSecond secondGreatest]
    · intro unique
      cases found : candidates.find? (isGreatest key candidates) with
      | none => exact absurd greatest (List.find?_eq_none.mp found selection inside)
      | some first =>
        rw [unique selection inside first (List.mem_of_find?_eq_some found) greatest
          (List.find?_some found)]

end

end Libtt.Foundation

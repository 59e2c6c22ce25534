import Mathlib.Data.List.Nodup

/-!
# Straight-line code

Operations in a row, each of which reads some values and defines others.
-/
namespace Libtt.Foundation

variable {Op Value : Type} (operands results : Op → List Value)

/-- Every operation reads what is available, or what one before it defines. -/
def Defined : List Value → List Op → Prop
  | _, [] => True
  | available, op :: rest =>
    (∀ value ∈ operands op, value ∈ available) ∧ Defined (available ++ results op) rest

variable {operands results} {available others : List Value} {operations first second : List Op}

/-- Only the values that are read have to be available. -/
theorem Defined.weaken (defined : Defined operands results available operations)
    (keeps : ∀ op ∈ operations, ∀ value ∈ operands op, value ∈ available → value ∈ others) :
    Defined operands results others operations := by
  induction operations generalizing available others with
  | nil => trivial
  | cons op rest ih =>
    refine ⟨fun value member => keeps op (by simp) value member (defined.1 value member),
      ih defined.2 ?_⟩
    intro later isLater value member isAvailable
    rcases List.mem_append.mp isAvailable with before | result
    · exact List.mem_append_left _ (keeps later (by simp [isLater]) value member before)
    · exact List.mem_append_right _ result

theorem Defined.mono (defined : Defined operands results available operations)
    (more : available ⊆ others) : Defined operands results others operations :=
  defined.weaken fun _ _ _ _ isAvailable => more isAvailable

theorem defined_append : Defined operands results available (first ++ second) ↔
    Defined operands results available first ∧
      Defined operands results (available ++ first.flatMap results) second := by
  induction first generalizing available with
  | nil => simp [Defined]
  | cons op rest ih =>
    rw [List.cons_append, Defined, Defined, ih, List.flatMap_cons, List.append_assoc, and_assoc]

/-- What an operation reads and none of them defines is available before them. -/
theorem Defined.outside (defined : Defined operands results available operations) {op : Op}
    (member : op ∈ operations) {value : Value} (isOperand : value ∈ operands op)
    (undefined : value ∉ operations.flatMap results) : value ∈ available := by
  induction operations generalizing available with
  | nil => exact absurd member List.not_mem_nil
  | cons head rest ih =>
    rw [List.flatMap_cons, List.mem_append, not_or] at undefined
    rcases List.mem_cons.mp member with rfl | later
    · exact defined.1 value isOperand
    · rcases List.mem_append.mp (ih defined.2 later undefined.2) with before | result
      · exact before
      · exact absurd result undefined.1

section Partition

variable {chosen : Op → Bool}

/-- Operations that read only what one another define need nothing of the rest. -/
theorem Defined.filter_chosen (defined : Defined operands results available operations)
    (once : (available ++ operations.flatMap results).Nodup) (fewer : others ⊆ available)
    (closed : ∀ op ∈ operations, chosen op → ∀ value ∈ operands op,
      value ∈ others ∨ ∃ earlier ∈ operations, chosen earlier ∧ value ∈ results earlier) :
    Defined operands results others (operations.filter chosen) := by
  induction operations generalizing available others with
  | nil => trivial
  | cons op rest ih =>
    rw [List.flatMap_cons, ← List.append_assoc] at once
    by_cases isChosen : chosen op
    · rw [List.filter_cons_of_pos isChosen]
      refine ⟨fun value member => ?_, ih defined.2 once
        (List.append_subset.mpr ⟨List.subset_append_of_subset_left _ fewer, by simp⟩) ?_⟩
      · rcases closed op (by simp) isChosen value member with outside | ⟨earlier, isOp, -, result⟩
        · exact outside
        · -- It is available, so none of the operations defines it.
          have isAvailable := defined.1 value member
          rw [List.append_assoc, List.nodup_append] at once
          have isResult : value ∈ results op ++ rest.flatMap results := by
            rw [← List.flatMap_cons]
            exact List.mem_flatMap.mpr ⟨earlier, isOp, result⟩
          exact absurd rfl (once.2.2 value isAvailable value isResult)
      · intro later isLater laterChosen value member
        rcases closed later (by simp [isLater]) laterChosen value member with
          outside | ⟨earlier, isOp, earlierChosen, result⟩
        · exact .inl (List.mem_append_left _ outside)
        · rcases List.mem_cons.mp isOp with rfl | isRest
          · exact .inl (List.mem_append_right _ result)
          · exact .inr ⟨earlier, isRest, earlierChosen, result⟩
    · rw [List.filter_cons_of_neg isChosen]
      refine ih defined.2 once (List.subset_append_of_subset_left _ fewer) ?_
      intro later isLater laterChosen value member
      rcases closed later (by simp [isLater]) laterChosen value member with
        outside | ⟨earlier, isOp, earlierChosen, result⟩
      · exact .inl outside
      · rcases List.mem_cons.mp isOp with rfl | isRest
        · exact absurd earlierChosen isChosen
        · exact .inr ⟨earlier, isRest, earlierChosen, result⟩

/-- The rest finds what the moved operations define. -/
theorem Defined.filter_others (defined : Defined operands results available operations)
    (more : available ⊆ others) (moved : (operations.filter chosen).flatMap results ⊆ others) :
    Defined operands results others (operations.filter fun op => !chosen op) := by
  induction operations generalizing available others with
  | nil => trivial
  | cons op rest ih =>
    by_cases isChosen : chosen op
    · rw [List.filter_cons_of_pos isChosen, List.flatMap_cons, List.append_subset] at moved
      rw [List.filter_cons_of_neg (by simp [isChosen])]
      exact ih defined.2 (List.append_subset.mpr ⟨more, moved.1⟩) moved.2
    · rw [List.filter_cons_of_neg isChosen] at moved
      rw [List.filter_cons_of_pos (by simp [isChosen])]
      refine ⟨fun value member => more (defined.1 value member), ih defined.2 ?_ ?_⟩
      · exact List.append_subset.mpr ⟨List.subset_append_of_subset_left _ more, by simp⟩
      · exact List.subset_append_of_subset_left _ moved

/-- Operations that read only what one another define may come first. -/
theorem defined_partition (defined : Defined operands results available (first ++ second))
    (once : (available ++ (first ++ second).flatMap results).Nodup)
    (closed : ∀ op ∈ second, chosen op → ∀ value ∈ operands op,
      value ∈ available ∨ ∃ earlier ∈ first ++ second, chosen earlier ∧ value ∈ results earlier) :
    Defined operands results available
      (first ++ second.filter chosen ++ second.filter fun op => !chosen op) := by
  obtain ⟨firstDefined, secondDefined⟩ := defined_append.mp defined
  rw [List.append_assoc, defined_append, defined_append]
  refine ⟨firstDefined, secondDefined.filter_chosen ?_ (List.Subset.refl _) ?_,
    secondDefined.filter_others (by simp) (by simp)⟩
  · rwa [List.append_assoc, ← List.flatMap_append]
  · intro op member isChosen value isOperand
    rcases closed op member isChosen value isOperand with outside | ⟨earlier, isOp, rest⟩
    · exact .inl (List.mem_append_left _ outside)
    · rcases List.mem_append.mp isOp with isFirst | isSecond
      · exact .inl (List.mem_append_right _ (List.mem_flatMap.mpr ⟨earlier, isFirst, rest.2⟩))
      · exact .inr ⟨earlier, isSecond, rest⟩

end Partition

/-- One operation may stand for several. -/
theorem defined_replace {run : List Op} {replacement : Op}
    (defined : Defined operands results available (first ++ run ++ second))
    (reads : ∀ value ∈ operands replacement, value ∈ available ++ first.flatMap results)
    (defines : ∀ op ∈ second, ∀ value ∈ operands op, value ∈ run.flatMap results →
      value ∈ results replacement) :
    Defined operands results available (first ++ replacement :: second) := by
  obtain ⟨before, after⟩ := defined_append.mp defined
  obtain ⟨firstDefined, -⟩ := defined_append.mp before
  refine defined_append.mpr ⟨firstDefined, reads, after.weaken ?_⟩
  intro op member value isOperand isAvailable
  rw [List.flatMap_append, ← List.append_assoc, List.mem_append] at isAvailable
  rcases isAvailable with outside | result
  · exact List.mem_append_left _ outside
  · exact List.mem_append_right _ (defines op member value isOperand result)

end Libtt.Foundation

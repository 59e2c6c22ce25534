import Mathlib.Data.List.Induction

/-!
# Definitions in order

A sequence of definitions, each of one value by an operation on values. Where no definition comes
before one of its operands and none defines a value again, every definition holds of what a run
leaves, and nothing else does.
-/
namespace Libtt.Foundation

variable {Op Value : Type} (operands : Op → List Nat) (eval : (Nat → Value) → Nat → Op → Value)

/-- No value is defined again, or behind an operation on it. -/
def Ordered (definitions : List (Nat × Op)) : Prop :=
  (definitions.Pairwise fun first second =>
    second.1 ≠ first.1 ∧ second.1 ∉ operands first.2) ∧
  ∀ definition ∈ definitions, definition.1 ∉ operands definition.2

/-- What an operation returns depends on its operands only. -/
def DependsOnOperands : Prop := ∀ values others result op,
  (∀ operand ∈ operands op, values operand = others operand) →
    eval values result op = eval others result op

/-- The values after the definitions, over some values before them. -/
def runDefinitions (definitions : List (Nat × Op)) (values : Nat → Value) : Nat → Value :=
  definitions.foldl (fun values definition =>
    Function.update values definition.1 (eval values definition.1 definition.2)) values

/-- The definitions hold, and other values are those from outside. -/
structure Solves (definitions : List (Nat × Op)) (outside values : Nat → Value) : Prop where
  holds : ∀ definition ∈ definitions, values definition.1 = eval values definition.1 definition.2
  others : ∀ id, (∀ definition ∈ definitions, definition.1 ≠ id) → values id = outside id

variable {operands eval} {definitions first second third : List (Nat × Op)} {outside : Nat → Value}

theorem Ordered.append (ordered : Ordered operands (first ++ second)) :
    Ordered operands first ∧ Ordered operands second ∧ ∀ early ∈ first, ∀ late ∈ second,
      late.1 ≠ early.1 ∧ late.1 ∉ operands early.2 := by
  obtain ⟨firstOrdered, secondOrdered, apart⟩ := List.pairwise_append.mp ordered.1
  refine ⟨⟨firstOrdered, fun definition member => ordered.2 definition (by simp [member])⟩,
    ⟨secondOrdered, fun definition member => ordered.2 definition (by simp [member])⟩, apart⟩

theorem Ordered.cons {definition : Nat × Op} (ordered : Ordered operands (definition :: definitions)) :
    Ordered operands definitions ∧ ∀ late ∈ definitions,
      late.1 ≠ definition.1 ∧ late.1 ∉ operands definition.2 := by
  obtain ⟨late, rest⟩ := List.pairwise_cons.mp ordered.1
  exact ⟨⟨rest, fun other member => ordered.2 other (by simp [member])⟩, late⟩

theorem ordered_append (firstOrdered : Ordered operands first)
    (secondOrdered : Ordered operands second)
    (apart : ∀ early ∈ first, ∀ late ∈ second,
      late.1 ≠ early.1 ∧ late.1 ∉ operands early.2) : Ordered operands (first ++ second) := by
  constructor
  · exact List.pairwise_append.mpr ⟨firstOrdered.1, secondOrdered.1, apart⟩
  · intro definition member
    rcases List.mem_append.mp member with early | late
    · exact firstOrdered.2 definition early
    · exact secondOrdered.2 definition late

theorem runDefinitions_append (values : Nat → Value) :
    runDefinitions eval (first ++ second) values =
      runDefinitions eval second (runDefinitions eval first values) := List.foldl_append

section

variable (depends : DependsOnOperands operands eval) (ordered : Ordered operands definitions)
include depends ordered

/-- A run solves its definitions. -/
theorem solves_run (outside : Nat → Value) :
    Solves eval definitions outside (runDefinitions eval definitions outside) := by
  induction definitions using List.reverseRecOn with
  | nil => exact ⟨by simp, fun _ _ => rfl⟩
  | append_singleton definitions last ih =>
    obtain ⟨before, single, apart⟩ := ordered.append
    obtain ⟨holds, others⟩ := ih before
    rw [runDefinitions_append]
    generalize runDefinitions eval definitions outside = values at *
    show Solves _ _ _ (Function.update values last.1 (eval values last.1 last.2))
    have unchanged {result : Nat} {op : Op} (notOperand : last.1 ∉ operands op) :
        eval (Function.update values last.1 (eval values last.1 last.2)) result op =
          eval values result op := by
      apply depends
      intro operand member
      apply Function.update_of_ne
      rintro rfl
      exact notOperand member
    constructor
    · intro definition member
      rcases List.mem_append.mp member with early | late
      · have different := apart definition early last (by simp)
        rw [Function.update_of_ne (Ne.symm different.1), unchanged different.2]
        exact holds definition early
      · rw [List.mem_singleton.mp late, Function.update_self,
          unchanged (single.2 last (by simp))]
    · intro id undefined
      rw [Function.update_of_ne (Ne.symm (undefined last (by simp)))]
      exact others id fun definition member => undefined definition (by simp [member])

/-- Definitions have one solution. -/
theorem Solves.unique {values others : Nat → Value}
    (solves : Solves eval definitions outside values)
    (otherSolves : Solves eval definitions outside others) : values = others := by
  -- by induction on the definitions that are already known to agree
  have prefixes : ∀ first second, definitions = first ++ second →
      ∀ definition ∈ first, values definition.1 = others definition.1 := by
    intro first
    induction first using List.reverseRecOn with
    | nil => simp
    | append_singleton first last ih =>
      intro second split definition member
      have agree := ih (last :: second) (by rw [split, List.append_assoc]; rfl)
      rcases List.mem_append.mp member with early | late
      · exact agree definition early
      have isLast : definition = last := List.mem_singleton.mp late
      have inDefinitions : last ∈ definitions := by
        rw [split]
        simp
      rw [isLast, solves.holds last inDefinitions, otherSolves.holds last inDefinitions]
      apply depends
      intro operand isOperand
      by_cases early : ∃ definition ∈ first, definition.1 = operand
      · obtain ⟨definition, member, rfl⟩ := early
        exact agree definition member
      have undefined : ∀ definition ∈ definitions, definition.1 ≠ operand := by
        intro definition member same
        rw [split, List.append_assoc] at member
        rcases List.mem_append.mp member with inFirst | inRest
        · exact early ⟨definition, inFirst, same⟩
        have rest := (split ▸ ordered : Ordered operands (first ++ [last] ++ second))
        rw [List.append_assoc] at rest
        obtain ⟨_, restOrdered, _⟩ := rest.append
        rcases List.mem_cons.mp inRest with rfl | later
        · exact restOrdered.2 definition (by simp) (same ▸ isOperand)
        · exact (List.pairwise_cons.mp restOrdered.1).1 definition later |>.2 (same ▸ isOperand)
      rw [solves.others operand undefined, otherSolves.others operand undefined]
  funext id
  by_cases defined : ∃ definition ∈ definitions, definition.1 = id
  · obtain ⟨definition, member, rfl⟩ := defined
    exact prefixes definitions [] (by simp) definition member
  · have undefined : ∀ definition ∈ definitions, definition.1 ≠ id := by
      intro definition member same
      exact defined ⟨definition, member, same⟩
    rw [solves.others id undefined, otherSolves.others id undefined]

end

/-- A value is there before another: its definition comes before the other's, or there is none. -/
def Earlier (definitions : List (Nat × Op)) (first second : Nat) : Prop :=
  ∀ definition ∈ definitions.dropWhile (·.1 != second), definition.1 ≠ first

section

variable (ordered : Ordered operands definitions)
include ordered

/-- A value has one definition. -/
theorem Ordered.split {definition : Nat × Op}
    (isSplit : definitions = first ++ definition :: second) :
    definitions.takeWhile (·.1 != definition.1) = first ∧
      definitions.dropWhile (·.1 != definition.1) = definition :: second := by
  subst isSplit
  obtain ⟨-, -, apart⟩ := ordered.append
  have others : ∀ early ∈ first, (early.1 != definition.1) = true := by
    intro early isFirst
    have different := (apart early isFirst definition List.mem_cons_self).1
    exact bne_iff_ne.mpr different.symm
  rw [List.takeWhile_append_of_pos others, List.dropWhile_append_of_pos others]
  simp

theorem Ordered.eq_of_id {definition other : Nat × Op} (member : definition ∈ definitions)
    (otherMember : other ∈ definitions) (same : definition.1 = other.1) : definition = other := by
  obtain ⟨first, second, isSplit⟩ := List.append_of_mem member
  obtain ⟨otherFirst, otherSecond, otherSplit⟩ := List.append_of_mem otherMember
  have drop := (ordered.split isSplit).2
  rw [same, (ordered.split otherSplit).2] at drop
  exact (List.cons.inj drop).1.symm

section

variable {definition : Nat × Op} (isSplit : definitions = first ++ definition :: second)
include isSplit

theorem Ordered.earlier_iff (id : Nat) :
    Earlier definitions id definition.1 ↔ ∀ late ∈ definition :: second, late.1 ≠ id := by
  rw [Earlier, (ordered.split isSplit).2]

theorem Ordered.earlier_of_mem {late : Nat × Op} (isLate : late ∈ second) :
    Earlier definitions definition.1 late.1 := by
  obtain ⟨between, after, isAfter⟩ := List.append_of_mem isLate
  have lateSplit : definitions = (first ++ definition :: between) ++ late :: after := by
    rw [isSplit, isAfter, List.append_assoc, List.cons_append]
  apply (ordered.earlier_iff lateSplit _).mpr
  intro other member
  have rest := (isSplit ▸ ordered : Ordered operands (first ++ definition :: second)).append.2.1.cons
  exact (rest.2 other (isAfter ▸ List.mem_append_right _ member)).1

end

/-- Operands are there. -/
theorem Ordered.earlier_operand {definition : Nat × Op} (member : definition ∈ definitions)
    {operand : Nat} (isOperand : operand ∈ operands definition.2) :
    Earlier definitions operand definition.1 := by
  obtain ⟨first, second, isSplit⟩ := List.append_of_mem member
  apply (ordered.earlier_iff isSplit _).mpr
  intro late isLate same
  rcases List.mem_cons.mp isLate with rfl | isSecond
  · exact ordered.2 late member (same ▸ isOperand)
  · have rest := (isSplit ▸ ordered : Ordered operands (first ++ definition :: second)).append.2.1.cons
    exact (rest.2 late isSecond).2 (same ▸ isOperand)

theorem Ordered.not_earlier_self {definition : Nat × Op} (member : definition ∈ definitions) :
    ¬Earlier definitions definition.1 definition.1 := by
  obtain ⟨first, second, isSplit⟩ := List.append_of_mem member
  intro earlier
  exact (ordered.earlier_iff isSplit _).mp earlier definition List.mem_cons_self rfl

theorem Ordered.earlier_trans {middle : Nat × Op} (member : middle ∈ definitions) {early late : Nat}
    (isEarly : Earlier definitions early middle.1) (isLate : Earlier definitions middle.1 late) :
    Earlier definitions early late := by
  have whole := List.takeWhile_append_dropWhile (p := (·.1 != late)) (l := definitions)
  have inFirst : middle ∈ definitions.takeWhile (·.1 != late) := by
    rw [← whole] at member
    rcases List.mem_append.mp member with isFirst | isSecond
    · exact isFirst
    · exact absurd rfl (isLate middle isSecond)
  obtain ⟨first, second, isSplit⟩ := List.append_of_mem inFirst
  have middleSplit : definitions =
      first ++ middle :: (second ++ definitions.dropWhile (·.1 != late)) := by
    rw [isSplit, List.append_assoc, List.cons_append] at whole
    exact whole.symm
  intro definition isDefinition
  exact (ordered.earlier_iff middleSplit _).mp isEarly definition
    (List.mem_cons_of_mem _ (List.mem_append_right _ isDefinition))

theorem Ordered.not_earlier {first second : Nat × Op} (isFirst : first ∈ definitions)
    (isSecond : second ∈ definitions) (earlier : Earlier definitions first.1 second.1) :
    ¬Earlier definitions second.1 first.1 := fun later =>
  ordered.not_earlier_self isFirst (ordered.earlier_trans isSecond earlier later)

end

/-- Definitions `created` take the place of `root`, and others are dropped. What is created defines
anew the value of the root and of some that are dropped, from values that are there at its place; a
value that is only dropped has no use left. -/
structure Rebuild (operands : Op → List Nat) (before after created : List (Nat × Op))
    (root : Nat × Op) (dropped : Nat → Bool) : Prop where
  ordered : Ordered operands (before ++ root :: after)
  nodup : (created.map Prod.fst).Nodup
  ids : ∀ definition ∈ created, definition.1 = root.1 ∨ dropped definition.1 = true
  defines : ∃ definition ∈ created, definition.1 = root.1
  available : ∀ definition ∈ created, ∀ operand ∈ operands definition.2,
    dropped operand = false ∧ ∀ late ∈ root :: after, late.1 ≠ operand
  unusedBefore : ∀ early ∈ before, dropped early.1 = false →
    ∀ operand ∈ operands early.2, dropped operand = false
  unusedAfter : ∀ late ∈ after, dropped late.1 = false → ∀ operand ∈ operands late.2,
    dropped operand = true → ∃ definition ∈ created, definition.1 = operand

/-- The definitions that are not dropped, with what is created in its place. -/
def rebuilt (before after created : List (Nat × Op)) (dropped : Nat → Bool) : List (Nat × Op) :=
  before.filter (!dropped ·.1) ++ (created ++ after.filter (!dropped ·.1))

namespace Rebuild

variable {before after created : List (Nat × Op)} {root : Nat × Op} {dropped : Nat → Bool}

theorem rebuilt_ordered (rebuild : Rebuild operands before after created root dropped) :
    Ordered operands (rebuilt before after created dropped) := by
  obtain ⟨beforeOrdered, restOrdered, beforeApart⟩ := rebuild.ordered.append
  obtain ⟨afterOrdered, rootApart⟩ := restOrdered.cons
  have kept {definitions : List (Nat × Op)} (ordered : Ordered operands definitions) :
      Ordered operands (definitions.filter (!dropped ·.1)) :=
    ⟨ordered.1.filter _, fun definition member => ordered.2 definition (List.mem_filter.mp member).1⟩
  -- What is created uses nothing that is created.
  have notCreated {definition other : Nat × Op} (isCreated : definition ∈ created)
      (otherCreated : other ∈ created) : other.1 ∉ operands definition.2 := by
    intro isOperand
    have there := rebuild.available definition isCreated _ isOperand
    rcases rebuild.ids other otherCreated with isRoot | isDropped
    · exact there.2 root List.mem_cons_self isRoot.symm
    · rw [isDropped] at there
      exact Bool.true_eq_false.mp there.1
  have createdOrdered : Ordered operands created := by
    refine ⟨?_, fun definition member => notCreated member member⟩
    have distinct := List.pairwise_map.mp rebuild.nodup
    exact distinct.imp_of_mem fun isFirst isSecond different =>
      ⟨different.symm, notCreated isFirst isSecond⟩
  apply ordered_append (kept beforeOrdered)
  · apply ordered_append createdOrdered (kept afterOrdered)
    intro early isCreated late member
    obtain ⟨isAfter, notDropped⟩ := List.mem_filter.mp member
    constructor
    · intro same
      rcases rebuild.ids early isCreated with isRoot | isDropped
      · exact (rootApart late isAfter).1 (same.trans isRoot)
      · rw [same, isDropped] at notDropped
        contradiction
    · intro isOperand
      exact (rebuild.available early isCreated _ isOperand).2 late (List.mem_cons_of_mem _ isAfter) rfl
  · intro early member late isLate
    obtain ⟨isBefore, notDropped⟩ := List.mem_filter.mp member
    have earlyKept : dropped early.1 = false := by simpa using notDropped
    rcases List.mem_append.mp isLate with isCreated | isAfter
    · rcases rebuild.ids late isCreated with isRoot | isDropped
      · rw [isRoot]
        exact beforeApart early isBefore root List.mem_cons_self
      · constructor
        · intro same
          rw [← same, isDropped] at earlyKept
          contradiction
        · intro isOperand
          rw [rebuild.unusedBefore early isBefore earlyKept _ isOperand] at isDropped
          contradiction
    · exact beforeApart early isBefore late (List.mem_cons_of_mem _ (List.mem_filter.mp isAfter).1)

/-- Where what is created holds of the values before, all values that remain keep their contents. -/
theorem run_rebuilt (rebuild : Rebuild operands before after created root dropped)
    (depends : DependsOnOperands operands eval) (outside : Nat → Value)
    (sound : ∀ definition ∈ created,
      runDefinitions eval (before ++ root :: after) outside definition.1 =
        eval (runDefinitions eval (before ++ root :: after) outside) definition.1 definition.2)
    {id : Nat} (remains : dropped id = true → ∃ definition ∈ created, definition.1 = id) :
    runDefinitions eval (rebuilt before after created dropped) outside id =
      runDefinitions eval (before ++ root :: after) outside id := by
  have solved := solves_run depends rebuild.ordered outside
  generalize runDefinitions eval (before ++ root :: after) outside = values at *
  let erased (id : Nat) : Prop := dropped id = true ∧ ∀ definition ∈ created, definition.1 ≠ id
  let others (id : Nat) : Value := if erased id then outside id else values id
  have others_eq {id : Nat} (remains : dropped id = true → ∃ definition ∈ created, definition.1 = id) :
      others id = values id := by
    refine if_neg fun isErased => ?_
    obtain ⟨definition, isCreated, same⟩ := remains isErased.1
    exact isErased.2 definition isCreated same
  have solves : Solves eval (rebuilt before after created dropped) outside others := by
    have old {definition : Nat × Op} (member : definition ∈ before ++ root :: after)
        (notDropped : dropped definition.1 = false)
        (used : ∀ operand ∈ operands definition.2, dropped operand = true →
          ∃ definition ∈ created, definition.1 = operand) :
        others definition.1 = eval others definition.1 definition.2 := by
      rw [others_eq fun isDropped => by rw [notDropped] at isDropped; contradiction,
        solved.holds definition member]
      exact depends _ _ _ _ fun operand isOperand => (others_eq (used operand isOperand)).symm
    constructor
    · intro definition member
      rcases List.mem_append.mp member with early | rest
      · obtain ⟨isBefore, kept⟩ := List.mem_filter.mp early
        have notDropped : dropped definition.1 = false := by simpa using kept
        refine old (List.mem_append_left _ isBefore) notDropped fun operand isOperand isDropped => ?_
        rw [rebuild.unusedBefore definition isBefore notDropped operand isOperand] at isDropped
        contradiction
      · rcases List.mem_append.mp rest with isCreated | late
        · rw [others_eq fun _ => ⟨definition, isCreated, rfl⟩, sound definition isCreated]
          refine depends _ _ _ _ fun operand isOperand => (others_eq fun isDropped => ?_).symm
          rw [(rebuild.available definition isCreated operand isOperand).1] at isDropped
          contradiction
        · obtain ⟨isAfter, kept⟩ := List.mem_filter.mp late
          have notDropped : dropped definition.1 = false := by simpa using kept
          exact old (List.mem_append_right _ (List.mem_cons_of_mem _ isAfter)) notDropped
            (rebuild.unusedAfter definition isAfter notDropped)
    · intro id undefined
      by_cases isErased : erased id
      · exact if_pos isErased
      · rw [show others id = values id from if_neg isErased]
        apply solved.others
        intro definition member same
        have noneCreated : ∀ definition ∈ created, definition.1 ≠ id := fun definition isCreated =>
          undefined definition (by simp [rebuilt, isCreated])
        have notDropped : dropped definition.1 = false := by
          rw [same]
          exact Bool.not_eq_true _ |>.mp fun isDropped => isErased ⟨isDropped, noneCreated⟩
        rcases List.mem_append.mp member with isBefore | isRest
        · exact undefined definition (by simp [rebuilt, isBefore, notDropped]) same
        · rcases List.mem_cons.mp isRest with rfl | isAfter
          · obtain ⟨creator, isCreated, defines⟩ := rebuild.defines
            exact noneCreated creator isCreated (defines.trans same)
          · exact undefined definition (by simp [rebuilt, isAfter, notDropped]) same
  have same := solves.unique depends rebuild.rebuilt_ordered
    (solves_run depends rebuild.rebuilt_ordered outside)
  rw [← same]
  exact others_eq remains

end Rebuild

end Libtt.Foundation

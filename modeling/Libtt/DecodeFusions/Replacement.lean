import Libtt.DecodeFusions.Patterns

/-!
# Replacements in decode programs

What the patterns find out about a program: what defines a value and holds of it, where a value is
there, and that one use is the only one.
-/
namespace Libtt.DecodeFusions

open Libtt.Foundation

variable {E : Type}

/-- What an operation returns depends on its operands only. -/
theorem Operation.eval_depends (arithmetic : Arithmetic E) (type : Nat → TensorType) :
    DependsOnOperands Operation.operands (Operation.eval arithmetic type) := by
  intro values others result op same
  have at_ : ∀ operand ∈ op.operands, ∀ number, widened arithmetic type values operand number =
      widened arithmetic type others operand number := by
    intro operand isOperand number
    rw [widened, widened, same operand isOperand]
  have evalAt : op.evalAt arithmetic type values result = op.evalAt arithmetic type others result := by
    funext number
    cases op with
    | constant value => rfl
    | add lhs rhs =>
      have left := at_ lhs (by simp)
      have right := at_ rhs (by simp)
      simp only [evalAt, operandAt, left, right]
    | multiply lhs rhs plain =>
      have left := at_ lhs (by simp)
      have right := at_ rhs (by simp)
      have leftAll := same lhs (by simp)
      have rightAll := same rhs (by simp)
      simp only [evalAt, operandAt, left, right, leftAll, rightAll]
    | typecast input | reshape input | broadcast input | quantizeRows isScale input float8Type minScale =>
      have all := same input (by simp)
      simp only [evalAt, all]
    | rmsNorm input weight bias epsilon normalizedShape =>
      have all := same input (by simp)
      have parameters : ∀ parameter : Option Nat, (∀ value ∈ parameter, value ∈
          (Operation.rmsNorm input weight bias epsilon normalizedShape).operands) →
          (parameter.map fun value => upTo arithmetic (size type value)
            (widened arithmetic type values value)) =
          parameter.map fun value => upTo arithmetic (size type value)
            (widened arithmetic type others value) := by
        intro parameter areOperands
        cases parameter with
        | none => rfl
        | some value =>
          have each := funext (at_ value (areOperands value rfl))
          simp only [Option.map_some, each]
      simp only [evalAt, all]
      rw [parameters weight (by simp +contextual),
        parameters bias (by simp +contextual)]
    | rmsNormResidual norm operands =>
      have input := at_ operands.input (by simp)
      have residual := at_ operands.residual (by simp)
      have weight := at_ operands.weight (by simp)
      have sums : operands.sumAt arithmetic type values = operands.sumAt arithmetic type others := by
        funext number
        simp only [NormOperands.sumAt, input, residual]
      have weights :
          operands.weightAt arithmetic type values = operands.weightAt arithmetic type others := by
        funext number
        simp only [NormOperands.weightAt, weight]
      have outputs :
          operands.outputAt arithmetic type values = operands.outputAt arithmetic type others := by
        funext number
        simp only [NormOperands.outputAt, sums, weights]
      cases norm with
      | output => simp only [evalAt, outputs]
      | sum => simp only [evalAt, sums]
      | codes | scale => simp only [evalAt, NormOperands.quantizedAt, outputs]
    | matmul a b attributes =>
      have left := same a (by simp)
      have right := same b (by simp)
      simp only [evalAt, left, right]
    | scaledMatmul a b rowScale colScale attributes =>
      have left := same a (by simp)
      have right := same b (by simp)
      have rows := at_ rowScale (by simp)
      have columns := at_ colScale (by simp)
      simp only [evalAt, left, right, rows, columns]
    | other name inputs captured =>
      have all := List.map_congr_left same
      simp only [operands, Operation.inputs, Operation.captured] at all
      simp only [evalAt, all]
  rw [eval, eval, evalAt]

namespace Program

variable {program : Program} {value : Nat} {op : Operation} {definition : Definition}

theorem mem_of_definingOp (defined : program.definingOp value = some op) :
    (value, op) ∈ program.definitions := by
  obtain ⟨found, isFound, rfl⟩ := Option.map_eq_some_iff.mp defined
  have same : found.1 = value := by simpa using List.find?_some isFound
  rw [← same]
  exact List.mem_of_find?_eq_some isFound

/-- The contents of the values after the program. -/
abbrev values (program : Program) (arithmetic : Arithmetic E) (arguments : Nat → Nat → E) :
    Nat → Nat → E := program.run arithmetic program.definitions arguments

/-- Before the definition of a value. -/
abbrev Earlier (program : Program) (first second : Nat) : Prop :=
  Foundation.Earlier program.definitions first second

namespace Valid

variable (valid : program.Valid)
include valid

theorem definingOp_eq (member : definition ∈ program.definitions) :
    program.definingOp definition.1 = some definition.2 := by
  have some : (program.definitions.find? fun other => other.1 == definition.1).isSome :=
    List.find?_isSome.mpr ⟨definition, member, beq_self_eq_true _⟩
  obtain ⟨found, isFound⟩ := Option.isSome_iff_exists.mp some
  have same : found.1 = definition.1 := by simpa using List.find?_some isFound
  have isDefinition := valid.ordered.eq_of_id (List.mem_of_find?_eq_some isFound) member same
  rw [definingOp, isFound, isDefinition]
  rfl

/-- A definition holds of what a run leaves. -/
theorem run_holds (arithmetic : Arithmetic E) (arguments : Nat → Nat → E)
    (member : definition ∈ program.definitions) :
    program.values arithmetic arguments definition.1 =
      definition.2.eval arithmetic program.type
        (program.values arithmetic arguments) definition.1 :=
  (solves_run (Operation.eval_depends arithmetic program.type) valid.ordered arguments).holds
    definition member

theorem earlier_of_isBeforeInBlock {first second : Nat}
    (isBefore : program.isBeforeInBlock first second = true) : program.Earlier first second := by
  obtain ⟨late, isLate, same⟩ := List.any_eq_true.mp isBefore
  have isSecond : late.1 = second := by simpa using same
  cases rest : program.block.dropWhile (·.1 != first) with
  | nil =>
    rw [behind, rest] at isLate
    contradiction
  | cons definition after =>
    rw [behind, rest, List.tail_cons] at isLate
    have isFirst : definition.1 = first := by
      have head := List.head_dropWhile_not (p := (·.1 != first)) (l := program.block) (by simp [rest])
      simpa [rest] using head
    have isSplit : program.definitions =
        (program.outer ++ program.block.takeWhile (·.1 != first)) ++ definition :: after := by
      rw [definitions, List.append_assoc, ← rest, List.takeWhile_append_dropWhile]
    rw [← isFirst, ← isSecond]
    exact valid.ordered.earlier_of_mem isSplit isLate

/-- A value of the blocks around is there everywhere in the block. -/
theorem earlier_of_outside {first second : Nat} (outside : program.inBlock first = false)
    (inside : program.inBlock second = true) : program.Earlier first second := by
  obtain ⟨definition, member, same⟩ := List.any_eq_true.mp inside
  have isSecond : definition.1 = second := by simpa using same
  obtain ⟨before, after, isBlock⟩ := List.append_of_mem member
  have isSplit : program.definitions = (program.outer ++ before) ++ definition :: after := by
    rw [definitions, isBlock, List.append_assoc]
  rw [← isSecond]
  apply (valid.ordered.earlier_iff isSplit _).mpr
  intro late isLate isFirst
  have inBlock : late ∈ program.block := isBlock ▸ List.mem_append_right _ isLate
  have none := List.any_eq_false.mp outside late inBlock
  exact none (by simpa using isFirst)

end Valid

/-- A value with one use has no other. -/
theorem eq_of_hasOneUse (one : program.hasOneUse value = true)
    (member : definition ∈ program.definitions) (isOperand : value ∈ definition.2.operands) :
    definition.2.operands.count value = 1 ∧
      ∀ other ∈ program.definitions, value ∈ other.2.operands → other = definition := by
  obtain ⟨first, second, isSplit⟩ := List.append_of_mem member
  have uses : program.uses value = 1 := by simpa [hasOneUse] using one
  rw [Program.uses, isSplit, List.flatMap_append, List.flatMap_cons, List.count_append,
    List.count_append] at uses
  have here := List.count_pos_iff.mpr isOperand
  have none {part : List Definition} (zero : (part.flatMap (·.2.operands)).count value = 0) :
      ∀ other ∈ part, value ∉ other.2.operands := fun other isOther isUse =>
    List.count_eq_zero.mp zero (List.mem_flatMap.mpr ⟨other, isOther, isUse⟩)
  constructor
  · omega
  · intro other isOther isUse
    rw [isSplit] at isOther
    rcases List.mem_append.mp isOther with isFirst | rest
    · exact absurd isUse (none (by omega) other isFirst)
    · rcases List.mem_cons.mp rest with rfl | isSecond
      · rfl
      · exact absurd isUse (none (by omega) other isSecond)

end Program

/-- What is created at the place of a root defines the root's value and values that are dropped. Its
operands are there, and a value that is dropped is used behind the root only, where it is defined
again. -/
structure Replacement (program : Program) (root : Definition) (created : List Definition)
    (dropped : Nat → Bool) : Prop where
  valid : program.Valid
  isRoot : root ∈ program.definitions
  nodup : (created.map Prod.fst).Nodup
  ids : ∀ definition ∈ created, definition.1 = root.1 ∨ dropped definition.1 = true
  defines : ∃ definition ∈ created, definition.1 = root.1
  available : ∀ definition ∈ created, ∀ operand ∈ definition.2.operands,
    dropped operand = false ∧ program.Earlier operand root.1
  used : ∀ definition ∈ program.definitions, dropped definition.1 = false → definition ≠ root →
    ∀ operand ∈ definition.2.operands, dropped operand = true →
      program.Earlier root.1 definition.1 ∧ ∃ other ∈ created, other.1 = operand

namespace Replacement

variable {program : Program} {root : Definition} {created : List Definition} {dropped : Nat → Bool}

section

variable (replacement : Replacement program root created dropped)
include replacement

theorem rebuild :
    ∃ before after, program.definitions = before ++ root :: after ∧
      program.replaced root.1 created dropped = rebuilt before after created dropped ∧
      Rebuild Operation.operands before after created root dropped := by
  have ordered := replacement.valid.ordered
  obtain ⟨before, after, isSplit⟩ := List.append_of_mem replacement.isRoot
  obtain ⟨take, drop⟩ := ordered.split isSplit
  have member {definition : Definition} (isMember : definition ∈ before ++ root :: after) :
      definition ∈ program.definitions := isSplit ▸ isMember
  have other {definition : Definition} (isOther : definition ∈ before ∨ definition ∈ after) :
      definition ≠ root := by
    rintro rfl
    obtain ⟨-, rest, apart⟩ := (isSplit ▸ ordered :
      Ordered Operation.operands (before ++ definition :: after)).append
    rcases isOther with isBefore | isAfter
    · exact (apart definition isBefore definition List.mem_cons_self).1 rfl
    · exact (rest.cons.2 definition isAfter).1 rfl
  refine ⟨before, after, isSplit, ?_, ?_⟩
  · rw [Program.replaced, take, drop, List.tail_cons]
  · constructor
    case ordered => exact isSplit ▸ ordered
    case nodup => exact replacement.nodup
    case ids => exact replacement.ids
    case defines => exact replacement.defines
    case available =>
      intro definition isCreated operand isOperand
      obtain ⟨notDropped, earlier⟩ := replacement.available definition isCreated operand isOperand
      exact ⟨notDropped, (ordered.earlier_iff isSplit operand).mp earlier⟩
    case unusedBefore =>
      intro early isBefore notDropped operand isOperand
      apply Bool.eq_false_iff.mpr
      intro isDropped
      have isEarly := member (List.mem_append_left _ isBefore)
      have later := (replacement.used early isEarly notDropped (other (.inl isBefore)) operand
        isOperand isDropped).1
      obtain ⟨first, second, isFirst⟩ := List.append_of_mem isBefore
      have earlySplit : program.definitions = first ++ early :: (second ++ root :: after) := by
        rw [isSplit, isFirst, List.append_assoc, List.cons_append]
      have earlier := ordered.earlier_of_mem earlySplit (by simp : root ∈ second ++ root :: after)
      exact ordered.not_earlier isEarly replacement.isRoot earlier later
    case unusedAfter =>
      intro late isAfter notDropped operand isOperand isDropped
      exact (replacement.used late (member (List.mem_append_right _ (List.mem_cons_of_mem _ isAfter)))
        notDropped (other (.inr isAfter)) operand isOperand isDropped).2

/-- Every definition afterwards is one from before or created. -/
theorem mem_replaced {definition : Definition}
    (member : definition ∈ program.replaced root.1 created dropped) :
    definition ∈ created ∨
      definition ∈ program.definitions ∧ dropped definition.1 = false ∧ definition ≠ root := by
  obtain ⟨before, after, isSplit, isResult, rebuild⟩ := replacement.rebuild
  obtain ⟨-, rest, apart⟩ := rebuild.ordered.append
  rw [isResult] at member
  rcases List.mem_append.mp member with early | rest'
  · obtain ⟨isBefore, kept⟩ := List.mem_filter.mp early
    refine .inr ⟨isSplit ▸ List.mem_append_left _ isBefore, by simpa using kept, ?_⟩
    rintro rfl
    exact (apart definition isBefore definition List.mem_cons_self).1 rfl
  · rcases List.mem_append.mp rest' with isCreated | late
    · exact .inl isCreated
    · obtain ⟨isAfter, kept⟩ := List.mem_filter.mp late
      refine .inr ⟨isSplit ▸ List.mem_append_right _ (List.mem_cons_of_mem _ isAfter),
        by simpa using kept, ?_⟩
      rintro rfl
      exact (rest.cons.2 definition isAfter).1 rfl

/-- What remains of the program's definitions. -/
theorem dropped_of_gone {definition : Definition} (member : definition ∈ program.definitions)
    (gone : ∀ other ∈ program.replaced root.1 created dropped, other.1 ≠ definition.1) :
    dropped definition.1 = true ∧ ∀ other ∈ created, other.1 ≠ definition.1 := by
  obtain ⟨before, after, isSplit, isResult, -⟩ := replacement.rebuild
  rw [isResult] at gone
  have notCreated : ∀ other ∈ created, other.1 ≠ definition.1 := by
    intro other isCreated
    exact gone other (by simp [rebuilt, isCreated])
  refine ⟨?_, notCreated⟩
  by_contra notDropped
  rw [isSplit] at member
  rcases List.mem_append.mp member with isBefore | rest
  · exact gone definition (by simp [rebuilt, isBefore, notDropped]) rfl
  · rcases List.mem_cons.mp rest with rfl | isAfter
    · obtain ⟨creator, isCreated, defines⟩ := replacement.defines
      exact notCreated creator isCreated defines
    · exact gone definition (by simp [rebuilt, isAfter, notDropped]) rfl

/-- A fusion keeps the program where what it creates is valid and holds of the program's values. -/
theorem keeps (verified : ∀ definition ∈ created, definition.2.Verifies program.type definition.1)
    (sound : ∀ {E : Type} (arithmetic : Arithmetic E) (arguments : Nat → Nat → E),
      ∀ definition ∈ created,
        program.values arithmetic arguments definition.1 =
          definition.2.eval arithmetic program.type
            (program.values arithmetic arguments) definition.1) :
    Keeps program (program.replaced root.1 created dropped) := by
  obtain ⟨before, after, isSplit, isResult, rebuild⟩ := replacement.rebuild
  constructor
  case ordered =>
    rw [isResult]
    exact rebuild.rebuilt_ordered
  case verified =>
    intro definition member
    rcases replacement.mem_replaced member with isCreated | ⟨isOld, -⟩
    · exact verified definition isCreated
    · exact replacement.valid.verified definition isOld
  case erased =>
    intro definition isDefinition gone other member isUse
    obtain ⟨isDropped, notCreated⟩ := replacement.dropped_of_gone isDefinition gone
    rcases replacement.mem_replaced member with isCreated | ⟨isOld, notDropped, notRoot⟩
    · have there := (replacement.available other isCreated _ isUse).1
      rw [isDropped] at there
      contradiction
    · obtain ⟨-, another, isCreated, same⟩ :=
        replacement.used other isOld notDropped notRoot _ isUse isDropped
      exact notCreated another isCreated same
  case values =>
    intro E arithmetic arguments value remains
    have depends := Operation.eval_depends arithmetic program.type
    by_cases isCreated : dropped value = true → ∃ definition ∈ created, definition.1 = value
    · rw [isResult, Program.run, Program.run, isSplit]
      apply rebuild.run_rebuilt depends arguments _ isCreated
      rw [← isSplit]
      exact sound arithmetic arguments
    · -- Nothing that is left defines such a value, and so nothing did.
      obtain ⟨isDropped, notCreated⟩ := Classical.not_imp.mp isCreated
      have notLeft : ∀ definition ∈ program.replaced root.1 created dropped,
          definition.1 ≠ value := by
        intro definition member same
        rcases replacement.mem_replaced member with isCreated | ⟨-, notDropped, -⟩
        · exact notCreated ⟨definition, isCreated, same⟩
        · rw [same, isDropped] at notDropped
          contradiction
      rcases remains with undefined | ⟨definition, member, same⟩
      · rw [isResult] at notLeft ⊢
        have left := (solves_run depends rebuild.rebuilt_ordered arguments).others value notLeft
        have right := (solves_run depends replacement.valid.ordered arguments).others value undefined
        exact left.trans right.symm
      · exact absurd same (notLeft definition member)

/-- Where a fusion keeps the program, what it creates holds of the program's values. -/
theorem sound_of_keeps (keeps : Keeps program (program.replaced root.1 created dropped))
    (arithmetic : Arithmetic E) (arguments : Nat → Nat → E) : ∀ definition ∈ created,
      program.values arithmetic arguments definition.1 =
        definition.2.eval arithmetic program.type
          (program.values arithmetic arguments) definition.1 := by
  obtain ⟨before, after, -, isResult, -⟩ := replacement.rebuild
  have depends := Operation.eval_depends arithmetic program.type
  intro definition isCreated
  have member : definition ∈ program.replaced root.1 created dropped := by
    rw [isResult]
    simp [rebuilt, isCreated]
  have holds := (solves_run depends keeps.ordered arguments).holds definition member
  have same := keeps.values arithmetic arguments definition.1 (.inr ⟨definition, member, rfl⟩)
  refine same.symm.trans (holds.trans (depends _ _ _ _ fun operand isOperand => ?_))
  apply keeps.values arithmetic arguments operand
  by_contra neither
  obtain ⟨defined, gone⟩ := not_or.mp neither
  push Not at defined gone
  obtain ⟨other, isOther, rfl⟩ := defined
  have isDropped := (replacement.dropped_of_gone isOther gone).1
  rw [(replacement.available definition isCreated _ isOperand).1] at isDropped
  contradiction

end

end Replacement

end Libtt.DecodeFusions

import Libtt.ControlFlow.Outline

/-!
# Regions that evaluated

The environment at the end of a block says of every operation in it what the operation computed, as
each name is bound once.
-/

namespace Libtt.ControlFlow

open Libtt.Foundation

variable {env last : Env} {value : Value} {region : Region}

/-- Tensors of given types have these types one by one. -/
theorem Tensor.type_getElem {tensors : List Tensor} {types : List TensorType}
    (same : tensors.map Tensor.type = types) {index : Nat} (within : index < types.length) :
    ∃ below : index < tensors.length, tensors[index].type = types[index] := by
  subst same
  exact ⟨by simpa using within, by simp⟩

section
variable {kernels : Kernels} {fuel : Nat}

/-- An operation that evaluated found its operands and bound its results. -/
theorem Op.eval_eq_some {op : Op} {next : Env} (evaluated : op.eval kernels fuel env = some next) :
    ∃ tensors results, env.getAll op.operands = some tensors ∧
      op.kind.apply kernels fuel op.resultTypes tensors (Region.evalAll kernels fuel env op.regions) =
        some results ∧
      results.map Tensor.type = op.resultTypes ∧ next = env.bind (.operation op.id) results := by
  cases op with
  | mk id kind operands resultTypes regions =>
    rw [Op.eval] at evaluated
    simp only [Option.bind_eq_bind, Option.bind_eq_some_iff] at evaluated
    obtain ⟨tensors, isOperands, results, isResults, bound⟩ := evaluated
    split at bound
    · rename_i sameTypes
      exact ⟨tensors, results, isOperands, isResults, sameTypes, (Option.some.inj bound).symm⟩
    · contradiction

/-- What no operation defines stays as it is. -/
theorem Op.evalAll_kept {ops : List Op} (evaluated : Op.evalAll kernels fuel env ops = some last)
    (other : ∀ op ∈ ops, value.owner ≠ .operation op.id) : last.get value = env.get value := by
  induction ops generalizing env with
  | nil =>
    rw [Op.evalAll, Option.some.injEq] at evaluated
    rw [evaluated]
  | cons op ops ih =>
    rw [Op.evalAll] at evaluated
    simp only [Option.bind_eq_bind, Option.bind_eq_some_iff] at evaluated
    obtain ⟨next, isNext, evaluated⟩ := evaluated
    obtain ⟨-, results, -, -, -, rfl⟩ := Op.eval_eq_some isNext
    rw [ih evaluated fun op member => other op (List.mem_cons_of_mem _ member),
      Env.bind_other (other op List.mem_cons_self)]

/-- More tensors in scope leave those read as they are. -/
theorem Env.getAll_mono {values : List Value} {tensors : List Tensor}
    (kept : ∀ value ∈ values, ∀ tensor, env.get value = some tensor → last.get value = some tensor)
    (all : env.getAll values = some tensors) : last.getAll values = some tensors := by
  induction values generalizing tensors with
  | nil => exact all
  | cons value values ih =>
    simp only [Env.getAll, List.mapM_cons, Option.bind_eq_bind, Option.bind_eq_some_iff,
      Option.pure_def] at all ih ⊢
    obtain ⟨tensor, isHead, rest, isTail, result⟩ := all
    exact ⟨tensor, kept value List.mem_cons_self tensor isHead, rest,
      ih (fun value member => kept value (List.mem_cons_of_mem _ member)) isTail, result⟩

/-- The values an operation defines belong to it. -/
theorem Op.owner_results {op : Op} (isResult : value ∈ op.results) :
    value.owner = .operation op.id := by
  simp only [Op.results, List.mem_mapIdx] at isResult
  obtain ⟨index, within, rfl⟩ := isResult
  rfl

/-- What an environment says about an operation that was evaluated before. -/
def Op.Holds (kernels : Kernels) (fuel : Nat) (last : Env) (op : Op) : Prop :=
  ∃ tensors results regions, last.getAll op.operands = some tensors ∧
    op.kind.apply kernels fuel op.resultTypes tensors regions = some results ∧
    results.map Tensor.type = op.resultTypes ∧
    ∀ value ∈ op.results, last.get value = results[value.index]?

/-- After a block, what it evaluated holds of all its operations. -/
theorem Op.evalAll_holds {ops : List Op} (evaluated : Op.evalAll kernels fuel env ops = some last)
    (names : (ops.map Op.id).Nodup)
    (fresh : ∀ op ∈ ops, ∀ value, value.owner = .operation op.id → env.get value = none) :
    ∀ op ∈ ops, op.Holds kernels fuel last := by
  induction ops generalizing env with
  | nil => exact nofun
  | cons head ops ih =>
    have isLast := evaluated
    rw [Op.evalAll] at evaluated
    simp only [Option.bind_eq_bind, Option.bind_eq_some_iff] at evaluated
    obtain ⟨next, isNext, evaluated⟩ := evaluated
    obtain ⟨tensors, results, isOperands, isResults, sameTypes, rfl⟩ := Op.eval_eq_some isNext
    obtain ⟨first, rest⟩ := List.nodup_cons.mp names
    have apart : ∀ op ∈ ops, op.id ≠ head.id := fun op member same =>
      first (List.mem_map.mpr ⟨op, member, same⟩)
    intro op member
    rcases List.mem_cons.mp member with rfl | later
    · refine ⟨tensors, results, _, ?_, isResults, sameTypes, ?_⟩
      · refine Env.getAll_mono (fun value _ tensor isTensor => ?_) isOperands
        rw [Op.evalAll_kept isLast fun other isOther same => ?_, isTensor]
        rw [fresh other isOther value same] at isTensor
        contradiction
      · intro value isResult
        have own := Op.owner_results isResult
        rw [Op.evalAll_kept evaluated fun other isOther same =>
          apart other isOther (Owner.operation.inj (same.symm.trans own))]
        simp only [Op.results, List.mem_mapIdx] at isResult
        obtain ⟨index, within, rfl⟩ := isResult
        obtain ⟨below, type⟩ := Tensor.type_getElem sameTypes within
        simp [Env.bind, List.getElem?_eq_getElem below, type]
    · refine ih evaluated rest (fun other isOther value own => ?_) op later
      rw [Env.bind_other fun same => apart other isOther (Owner.operation.inj (own.symm.trans same))]
      exact fresh other (List.mem_cons_of_mem _ isOther) value own

/-- What the environment at the end of a region's block says. -/
structure Evaluated (kernels : Kernels) (fuel : Nat) (env : Env) (region : Region)
    (arguments : List Tensor) (last : Env) : Prop where
  types : arguments.map Tensor.type = region.argumentTypes
  argument : ∀ value ∈ region.arguments, last.get value = arguments[value.index]?
  outside : ∀ value, value.owner ∉ region.owners → last.get value = env.get value
  holds : ∀ op ∈ region.ops, op.Holds kernels fuel last

/-- The operations of a region's block are among its owners. -/
theorem Region.op_mem_owners {op : Op} (member : op ∈ region.ops) :
    .operation op.id ∈ region.owners := by
  have all : ∀ ops : List Op, op ∈ ops → .operation op.id ∈ Op.ownersAll ops := by
    intro ops member
    induction ops with
    | nil => contradiction
    | cons head ops ih =>
      rw [Op.ownersAll]
      rcases List.mem_cons.mp member with rfl | later
      · cases op
        exact List.mem_append_left _ List.mem_cons_self
      · exact List.mem_append_right _ (ih later)
  exact Region.mem_owners_ops (all region.ops member)

/-- The operands in a region's block are among those walked. -/
theorem Region.operand_mem_walk {op : Op} (member : op ∈ region.ops)
    (isOperand : value ∈ op.operands) : value ∈ region.walk := by
  have all : ∀ ops : List Op, op ∈ ops → value ∈ Op.walkAll ops := by
    intro ops member
    induction ops with
    | nil => contradiction
    | cons head ops ih =>
      rw [Op.walkAll]
      rcases List.mem_cons.mp member with rfl | later
      · cases op
        exact List.mem_append_left _ (List.mem_append_right _ isOperand)
      · exact List.mem_append_right _ (ih later)
  cases region
  exact List.mem_append_left _ (all _ member)

/-- The environment at the end of a region's block. -/
theorem Evaluated.of_evalAll {outer : List Op} {region : Region} {env last : Env}
    {arguments : List Tensor} (verified : Scoped outer region) (outside : Outside outer region env)
    (types : arguments.map Tensor.type = region.argumentTypes)
    (isLast : Op.evalAll kernels fuel (env.bind (.block region.block) arguments) region.ops =
      some last) : Evaluated kernels fuel env region arguments last := by
  refine ⟨types, ?_, ?_, ?_⟩
  · intro value isArgument
    simp only [Region.arguments, List.mem_mapIdx] at isArgument
    obtain ⟨index, within, rfl⟩ := isArgument
    obtain ⟨below, type⟩ := Tensor.type_getElem types within
    rw [Op.evalAll_kept isLast fun op _ => Owner.noConfusion]
    simp [Env.bind, List.getElem?_eq_getElem below, type]
  · intro value external
    rw [Op.evalAll_kept isLast fun op member same =>
        external (same ▸ Region.op_mem_owners member),
      Env.bind_other fun same => external (same ▸ region.block_mem_owners)]
  · refine Op.evalAll_holds isLast verified.names fun op member value own => ?_
    rw [Env.bind_other fun same => Owner.noConfusion (own.symm.trans same)]
    exact outside.fresh value (own ▸ Region.op_mem_owners member)

/-- A region that returned evaluated its block. -/
theorem Region.eval_eq_some {outer : List Op} {arguments results : List Tensor}
    (verified : Scoped outer region) (outside : Outside outer region env)
    (isResult : region.eval kernels fuel env arguments = some results) :
    ∃ last, Evaluated kernels fuel env region arguments last ∧
      last.getAll region.returned = some results := by
  rw [Region.eval_apply] at isResult
  split at isResult
  · rename_i types
    rw [Option.bind_eq_some_iff] at isResult
    obtain ⟨last, isLast, returned⟩ := isResult
    exact ⟨last, .of_evalAll verified outside types isLast, returned⟩
  · contradiction

section
variable {outer : List Op} {region : Region} {env last : Env} {arguments : List Tensor}

/-- Constants, inside or outside an evaluated region, have their values. -/
theorem constantOf_eval (verified : Scoped outer region) (outside : Outside outer region env)
    (evaluated : Evaluated kernels fuel env region arguments last) {tensor : Tensor}
    (isConstant : constantOf (region.ops ++ outer) value = some tensor) :
    last.get value = some tensor := by
  obtain ⟨op, -, kind, isResult, isOp⟩ := constantOf_eq_some isConstant
  rw [definingOp, List.find?_append] at isOp
  cases inner : region.ops.find? fun op => decide (value ∈ op.results) with
  | some found =>
    rw [inner, Option.some_or, Option.some.injEq] at isOp
    subst isOp
    obtain ⟨tensors, results, regions, -, isResults, types, bound⟩ :=
      evaluated.holds found (List.mem_of_find?_eq_some inner)
    rw [kind, Kind.apply, Option.some.injEq] at isResults
    subst isResults
    rw [bound value isResult]
    simp only [Op.results, ← types, List.map_cons, List.map_nil, List.mapIdx_cons, List.mapIdx_nil,
      List.mem_singleton] at isResult
    rw [isResult]
    rfl
  | none =>
    rw [inner, Option.none_or] at isOp
    have isOuter : constantOf outer value = some tensor := by
      simp only [constantOf, definingOp, isOp, kind]
    have external := verified.outerNames op (List.mem_of_find?_eq_some isOp)
    rw [← Op.owner_results isResult] at external
    rw [evaluated.outside value external, outside.evaluated value tensor isOuter]

end

end

end Libtt.ControlFlow

import Mathlib.Data.Option.Basic
import Mathlib.Data.List.Dedup
import Libtt.ControlFlow.Region

/-!
# Outlining a region

`outlineRegion` turns a region of a control-flow operation into a function: its arguments are the
region's own and then the captured values, hoisted single-element constants are cloned in front, and
the operations are cloned with their operands mapped.
-/

namespace Libtt.ControlFlow

/-- `getDefiningOp`, among the operations of the scope. -/
def definingOp (scope : List Op) (value : Value) : Option Op :=
  scope.find? fun op => decide (value ∈ op.results)

/-- The constant a value is, if a `stablehlo.constant` defines it. -/
def constantOf (scope : List Op) (value : Value) : Option Tensor :=
  match definingOp scope value with
  | some op =>
    match op.kind with
    | .constant tensor => some tensor
    | _ => none
  | none => none

/-- `isClonedConstant`. -/
def isClonedConstant (outer : List Op) (value : Value) : Bool :=
  match constantOf outer value with
  | some tensor => decide (tensor.type.numElements = 1)
  | none => false

/-- `isExternalOperand`. -/
def isExternalOperand (region : Region) (value : Value) : Bool :=
  decide (value.owner ∉ region.owners)

/-- `collectCaptures`: every value the regions use from outside, once, in the order met, but for
the constants that are cloned. -/
def collectCaptures (outer : List Op) (regions : List Region) : List Value :=
  (regions.flatMap fun region =>
    region.walk.filter fun value =>
      isExternalOperand region value && !isClonedConstant outer value).eraseDups

/-- The constants `outlineRegion` clones, in the order met. -/
def clonedConstants (outer : List Op) (region : Region) : List Op :=
  (region.walk.filter fun value =>
    isExternalOperand region value && isClonedConstant outer value).eraseDups.filterMap
      (definingOp outer)

mutual
/-- `clone` of an operation, with its operands mapped. -/
def Op.clone (mapping : Value → Value) : Op → Op
  | .mk id kind operands resultTypes regions =>
    .mk id kind (operands.map mapping) resultTypes (Region.cloneAll mapping regions)
def Region.clone (mapping : Value → Value) : Region → Region
  | .mk block argumentTypes ops returned =>
    .mk block argumentTypes (Op.cloneAll mapping ops) (returned.map mapping)
def Op.cloneAll (mapping : Value → Value) : List Op → List Op
  | [] => []
  | op :: ops => op.clone mapping :: Op.cloneAll mapping ops
def Region.cloneAll (mapping : Value → Value) : List Region → List Region
  | [] => []
  | region :: regions => region.clone mapping :: Region.cloneAll mapping regions
end

/-- The mapping of an outlined function: captures become its last arguments. -/
def captureMapping (block : Nat) (first : Nat) (captures : List Value) (value : Value) : Value :=
  match captures.idxOf? value with
  | some index => ⟨.block block, first + index, value.type⟩
  | none => value

/-- `outlineRegion`: the function of a region whose arguments have the types of `inputs` and then
of the captures, and which returns the results with the given indices. -/
def outlineRegion (outer : List Op) (region : Region) (inputs : List TensorType)
    (captures : List Value) (resultIndices : List Nat) : Region :=
  let mapping := captureMapping region.block inputs.length captures
  .mk region.block (inputs ++ captures.map Value.type)
    (clonedConstants outer region ++ Op.cloneAll mapping region.ops)
    (resultIndices.filterMap fun index => (region.returned.map mapping)[index]?)

/-- Run an outlined function. It sees nothing but its arguments. -/
def runFunction (kernels : Kernels) (fuel : Nat) (function : Region) : Denotation :=
  function.eval kernels fuel Env.empty

/-- Environments in which the used values and their images have the same tensors. -/
def Agree (mapping : Value → Value) (used : Value → Prop) (env clone : Env) : Prop :=
  ∀ value, used value → clone.get (mapping value) = env.get value

/-- A mapping leaves alone the used values of some owners, and maps no other value to them. -/
def Respects (mapping : Value → Value) (used : Value → Prop) (owners : List Owner) : Prop :=
  ∀ value, used value → ∀ owner ∈ owners,
    (value.owner = owner → mapping value = value) ∧
      (value.owner ≠ owner → (mapping value).owner ≠ owner)

section

variable {mapping : Value → Value} {used : Value → Prop}

/-- Binding the same results keeps the agreement. -/
theorem Agree.bind {env clone : Env} (agree : Agree mapping used env clone) {owner : Owner}
    (respects : Respects mapping used [owner]) (tensors : List Tensor) :
    Agree mapping used (env.bind owner tensors) (clone.bind owner tensors) := by
  intro value isUsed
  obtain ⟨own, other⟩ := respects value isUsed owner (List.mem_singleton_self owner)
  by_cases isOwn : value.owner = owner
  · rw [own isOwn]
    simp only [Env.bind, isOwn, if_true]
  · rw [Env.bind_other isOwn, Env.bind_other (other isOwn)]
    exact agree value isUsed

/-- Agreeing environments give mapped values the same tensors. -/
theorem Agree.getAll {env clone : Env} (agree : Agree mapping used env clone) {values : List Value}
    (uses : ∀ value ∈ values, used value) :
    clone.getAll (values.map mapping) = env.getAll values := by
  induction values with
  | nil => rfl
  | cons value values ih =>
    have head := agree value (uses value List.mem_cons_self)
    have tail := ih fun other member => uses other (List.mem_cons_of_mem value member)
    simp only [Env.getAll, List.map_cons, List.mapM_cons] at tail ⊢
    rw [head, tail]

theorem Respects.mono {owners fewer : List Owner} (respects : Respects mapping used owners)
    (subset : ∀ owner ∈ fewer, owner ∈ owners) :
    Respects mapping used fewer :=
  fun value isUsed owner member => respects value isUsed owner (subset owner member)

end

section
variable (kernels : Kernels) (fuel : Nat) {mapping : Value → Value} {used : Value → Prop}

mutual
/-- A cloned operation evaluates as the original does. -/
theorem Op.eval_clone (op : Op) {env clone : Env} (agree : Agree mapping used env clone)
    (uses : ∀ value ∈ op.walk, used value) (respects : Respects mapping used op.owners) :
    Option.Rel (Agree mapping used) (op.eval kernels fuel env)
      ((op.clone mapping).eval kernels fuel clone) := by
  match op with
  | .mk id kind operands resultTypes regions =>
    have nested := Region.evalAll_clone regions agree
      (fun value member => uses value (by rw [Op.walk]; exact List.mem_append_left _ member))
      (respects.mono fun owner member => by rw [Op.owners]; exact List.mem_cons_of_mem _ member)
    have own : Respects mapping used [.operation id] :=
      respects.mono fun owner member => by
        rw [List.mem_singleton.mp member, Op.owners]
        exact List.mem_cons_self
    rw [Op.clone, Op.eval, Op.eval, nested, agree.getAll fun value member =>
      uses value (by rw [Op.walk]; exact List.mem_append_right _ member)]
    cases env.getAll operands with
    | none => exact .none
    | some tensors =>
      simp only [Option.bind_eq_bind, Option.bind_some]
      cases kind.apply kernels fuel resultTypes tensors (Region.evalAll kernels fuel env regions) with
      | none => exact .none
      | some results =>
        simp only [Option.bind_some]
        split
        · exact .some (agree.bind own results)
        · exact .none
/-- A cloned region returns what the original does. -/
theorem Region.eval_clone (region : Region) {env clone : Env}
    (agree : Agree mapping used env clone) (uses : ∀ value ∈ region.walk, used value)
    (respects : Respects mapping used region.owners) :
    (region.clone mapping).eval kernels fuel clone = region.eval kernels fuel env := by
  match region with
  | .mk block argumentTypes ops returned =>
    funext arguments
    rw [Region.clone, Region.eval, Region.eval]
    beta_reduce
    split
    · have own : Respects mapping used [.block block] :=
        respects.mono fun owner member => by
          rw [List.mem_singleton.mp member, Region.owners]
          exact List.mem_cons_self
      have inner := Op.evalAll_clone ops (agree.bind own arguments)
        (fun value member => uses value (by rw [Region.walk]; exact List.mem_append_left _ member))
        (respects.mono fun owner member => by
          rw [Region.owners]
          exact List.mem_cons_of_mem _ member)
      revert inner
      generalize Op.evalAll kernels fuel (env.bind (.block block) arguments) ops = first
      generalize Op.evalAll kernels fuel (clone.bind (.block block) arguments) _ = second
      intro inner
      cases inner with
      | none => rfl
      | some agree =>
        exact agree.getAll fun value member =>
          uses value (by rw [Region.walk]; exact List.mem_append_right _ member)
    · rfl
theorem Op.evalAll_clone (ops : List Op) {env clone : Env} (agree : Agree mapping used env clone)
    (uses : ∀ value ∈ Op.walkAll ops, used value)
    (respects : Respects mapping used (Op.ownersAll ops)) :
    Option.Rel (Agree mapping used) (Op.evalAll kernels fuel env ops)
      (Op.evalAll kernels fuel clone (Op.cloneAll mapping ops)) := by
  match ops with
  | [] => exact .some agree
  | op :: ops =>
    have head := Op.eval_clone op agree
      (fun value member => uses value (by rw [Op.walkAll]; exact List.mem_append_left _ member))
      (respects.mono fun owner member => by
        exact List.mem_append_left _ member)
    rw [Op.cloneAll, Op.evalAll, Op.evalAll]
    revert head
    generalize Op.eval kernels fuel env op = first
    generalize Op.eval kernels fuel clone _ = second
    intro head
    cases head with
    | none => exact .none
    | some agree =>
      exact Op.evalAll_clone ops agree
        (fun value member => uses value (by rw [Op.walkAll]; exact List.mem_append_right _ member))
        (respects.mono fun owner member => by
          exact List.mem_append_right _ member)
theorem Region.evalAll_clone (regions : List Region) {env clone : Env}
    (agree : Agree mapping used env clone)
    (uses : ∀ value ∈ Region.walkAll regions, used value)
    (respects : Respects mapping used (Region.ownersAll regions)) :
    Region.evalAll kernels fuel clone (Region.cloneAll mapping regions) =
      Region.evalAll kernels fuel env regions := by
  match regions with
  | [] => rfl
  | region :: regions =>
    rw [Region.cloneAll, Region.evalAll, Region.evalAll,
      Region.eval_clone region agree
        (fun value member =>
          uses value (by rw [Region.walkAll]; exact List.mem_append_left _ member))
        (respects.mono fun owner member => by
          exact List.mem_append_left _ member),
      Region.evalAll_clone regions agree
        (fun value member =>
          uses value (by rw [Region.walkAll]; exact List.mem_append_right _ member))
        (respects.mono fun owner member => by
          exact List.mem_append_right _ member)]
end

/-- Evaluating operations in two rounds. -/
theorem Op.evalAll_append (first second : List Op) (env : Env) :
    Op.evalAll kernels fuel env (first ++ second) =
      (Op.evalAll kernels fuel env first).bind fun env => Op.evalAll kernels fuel env second := by
  induction first generalizing env with
  | nil => rfl
  | cons op first ih =>
    rw [List.cons_append, Op.evalAll, Op.evalAll]
    cases op.eval kernels fuel env with
    | none => rfl
    | some env => exact ih env

end

/-- What the verifier promises about a region and the operations outside it. -/
structure Scoped (outer : List Op) (region : Region) : Prop where
  /-- The region's block is not one of its nested blocks. -/
  entered : .block region.block ∉ Op.ownersAll region.ops
  /-- The region uses no block argument its block does not have. -/
  arguments : ∀ value ∈ region.walk, value.owner = .block region.block → value ∈ region.arguments
  /-- The operations of the region's block are told apart by their names. -/
  names : (region.ops.map Op.id).Nodup
  /-- No operation outside has a name of the region or uses what the region defines. -/
  outerNames : ∀ op ∈ outer, .operation op.id ∉ region.owners
  outerUses : ∀ op ∈ outer, ∀ value ∈ op.operands, value.owner ∉ region.owners
  /-- Operations outside are told apart by their names. -/
  distinct : ∀ op ∈ outer, ∀ other ∈ outer, op.id = other.id → op = other
  /-- A constant has no operands and one result of its type. -/
  constants : ∀ op ∈ outer, ∀ tensor, op.kind = .constant tensor →
    op.operands = [] ∧ op.resultTypes = [tensor.type]

/-- An environment a region can be evaluated in: nothing of the region is in scope, and the
constants outside it have been evaluated. -/
structure Outside (outer : List Op) (region : Region) (env : Env) : Prop where
  fresh : ∀ value, value.owner ∈ region.owners → env.get value = none
  evaluated : ∀ value tensor, constantOf outer value = some tensor → env.get value = some tensor

/-- Captures that serve a region: they are outside it, none is cloned, and none is missing. -/
structure Serves (outer : List Op) (region : Region) (captures : List Value) : Prop where
  external : ∀ value ∈ captures, isExternalOperand region value
  uncloned : ∀ value ∈ captures, ¬isClonedConstant outer value
  complete : ∀ value ∈ region.walk, isExternalOperand region value →
    ¬isClonedConstant outer value → value ∈ captures

/-- The collected captures serve each of the regions, as no region uses what another defines. -/
theorem collectCaptures_serves {outer : List Op} {regions : List Region}
    (apart : ∀ user ∈ regions, ∀ other ∈ regions, ∀ value ∈ user.walk,
      isExternalOperand user value → isExternalOperand other value)
    {region : Region} (member : region ∈ regions) :
    Serves outer region (collectCaptures outer regions) := by
  have isCapture : ∀ value, value ∈ collectCaptures outer regions ↔
      ∃ user ∈ regions, value ∈ user.walk ∧ isExternalOperand user value ∧
        ¬isClonedConstant outer value := by
    intro value
    simp only [collectCaptures, List.mem_eraseDups, List.mem_flatMap, List.mem_filter,
      Bool.and_eq_true, Bool.not_eq_true', Bool.not_eq_true]
  constructor
  · intro value captured
    obtain ⟨user, isUser, uses, external, -⟩ := (isCapture value).mp captured
    exact apart user isUser region member value uses external
  · intro value captured
    obtain ⟨user, -, -, -, uncloned⟩ := (isCapture value).mp captured
    exact uncloned
  · intro value uses external uncloned
    exact (isCapture value).mpr ⟨region, member, uses, external, uncloned⟩

/-- A constant outside the region, found by its result. -/
theorem constantOf_eq_some {outer : List Op} {value : Value} {tensor : Tensor}
    (isConstant : constantOf outer value = some tensor) :
    ∃ op ∈ outer, op.kind = .constant tensor ∧ value ∈ op.results ∧
      definingOp outer value = some op := by
  unfold constantOf at isConstant
  split at isConstant
  · rename_i op isOp
    split at isConstant
    · rename_i kind
      obtain rfl := Option.some.inj isConstant
      have found := List.find?_some isOp
      exact ⟨op, List.mem_of_find?_eq_some isOp, kind, by simpa using found, isOp⟩
    · contradiction
  · contradiction

/-- Evaluating a constant binds its result. -/
theorem Op.eval_constant (kernels : Kernels) (fuel : Nat) {op : Op} {tensor : Tensor}
    (isConstant : op.kind = .constant tensor) (noOperands : op.operands = [])
    (sameTypes : op.resultTypes = [tensor.type]) (env : Env) :
    op.eval kernels fuel env = some (env.bind (.operation op.id) [tensor]) := by
  cases op with
  | mk id kind operands resultTypes regions =>
    change resultTypes = _ at sameTypes
    subst isConstant noOperands sameTypes
    simp [Op.eval, Env.getAll, Kind.apply, Op.id]

/-- Evaluating constants binds their results and nothing else. -/
theorem evalAll_constants (kernels : Kernels) (fuel : Nat) {outer : List Op}
    (distinct : ∀ op ∈ outer, ∀ other ∈ outer, op.id = other.id → op = other)
    (constants : ∀ op ∈ outer, ∀ tensor, op.kind = .constant tensor →
      op.operands = [] ∧ op.resultTypes = [tensor.type])
    (ops : List Op) (areOuter : ∀ op ∈ ops, op ∈ outer)
    (areConstants : ∀ op ∈ ops, ∃ tensor, op.kind = .constant tensor) (env : Env) :
    ∃ last, Op.evalAll kernels fuel env ops = some last ∧
      (∀ op ∈ ops, ∀ tensor, op.kind = .constant tensor →
        last.get ⟨.operation op.id, 0, tensor.type⟩ = some tensor) ∧
      ∀ value, (∀ op ∈ ops, value.owner ≠ .operation op.id) → last.get value = env.get value := by
  induction ops generalizing env with
  | nil => exact ⟨env, rfl, nofun, fun _ _ => rfl⟩
  | cons op ops ih =>
    obtain ⟨tensor, isConstant⟩ := areConstants op List.mem_cons_self
    obtain ⟨last, isLast, bound, kept⟩ :=
      ih (fun other member => areOuter other (List.mem_cons_of_mem op member))
        (fun other member => areConstants other (List.mem_cons_of_mem op member))
        (env.bind (.operation op.id) [tensor])
    obtain ⟨noOperands, sameTypes⟩ :=
      constants op (areOuter op List.mem_cons_self) tensor isConstant
    have step := Op.eval_constant kernels fuel isConstant noOperands sameTypes env
    refine ⟨last, by rw [Op.evalAll, step]; exact isLast, ?_, ?_⟩
    · intro other member value isValue
      rcases List.mem_cons.mp member with rfl | later
      · obtain rfl : value = tensor := by simpa using isValue.symm.trans isConstant
        by_cases again : ∃ twin ∈ ops, twin.id = other.id
        · obtain ⟨twin, isTwin, sameId⟩ := again
          obtain rfl := distinct twin (areOuter twin (List.mem_cons_of_mem _ isTwin)) other
            (areOuter other member) sameId
          exact bound twin isTwin value isValue
        · rw [kept _ fun twin isTwin sameOwner =>
            again ⟨twin, isTwin, (Owner.operation.inj sameOwner).symm⟩]
          simp [Env.bind]
      · exact bound other later value isValue
    · intro value other
      rw [kept value fun twin isTwin => other twin (List.mem_cons_of_mem op isTwin),
        Env.bind_other (other op List.mem_cons_self)]

/-- Where a capture's argument is. -/
theorem captureMapping_eq (block first : Nat) (captures : List Value) (value : Value) :
    (value ∉ captures ∧ captureMapping block first captures value = value) ∨
      ∃ index, captures[index]? = some value ∧
        captureMapping block first captures value = ⟨.block block, first + index, value.type⟩ := by
  unfold captureMapping
  cases found : captures.idxOf? value with
  | none => exact .inl ⟨List.idxOf?_eq_none_iff.mp found, rfl⟩
  | some index =>
    refine .inr ⟨index, ?_, rfl⟩
    rw [List.idxOf?, List.findIdx?_eq_some_iff_getElem] at found
    obtain ⟨within, same, -⟩ := found
    rw [List.getElem?_eq_getElem within]
    exact congrArg some (by simpa using same)

section

variable {env : Env} {values : List Value} {tensors : List Tensor}
  (all : env.getAll values = some tensors)
include all

/-- The tensors of several values, one by one. -/
theorem Env.getAll_getElem? {index : Nat} {value : Value} (isValue : values[index]? = some value) :
    env.get value = tensors[index]? := by
  induction values generalizing tensors index with
  | nil => simp at isValue
  | cons head tail ih =>
    simp only [Env.getAll, List.mapM_cons, Option.bind_eq_bind, Option.bind_eq_some_iff,
      Option.pure_def, Option.some.injEq] at all
    obtain ⟨tensor, isHead, rest, isTail, rfl⟩ := all
    cases index with
    | zero =>
      obtain rfl : head = value := by simpa using isValue
      simpa using isHead
    | succ index => simpa using ih isTail (by simpa using isValue)

/-- The tensors have the types of their values. -/
theorem Env.getAll_types :
    tensors.map Tensor.type = values.map Value.type := by
  induction values generalizing tensors with
  | nil =>
    obtain rfl : [] = tensors := by simpa [Env.getAll] using all
    rfl
  | cons head tail ih =>
    simp only [Env.getAll, List.mapM_cons, Option.bind_eq_bind, Option.bind_eq_some_iff,
      Option.pure_def, Option.some.injEq] at all
    obtain ⟨tensor, isHead, rest, isTail, rfl⟩ := all
    rw [List.map_cons, List.map_cons, env.typed isHead, ih isTail]

/-- Values read one by one from those read together. -/
theorem Env.getAll_select (indices : List Nat) :
    env.getAll (indices.filterMap fun index => values[index]?) =
      some (indices.filterMap fun index => tensors[index]?) := by
  have sameLength : tensors.length = values.length := by
    simpa using congrArg List.length (Env.getAll_types all)
  induction indices with
  | nil => rfl
  | cons index indices ih =>
    cases isValue : values[index]? with
    | none =>
      have outside : tensors[index]? = none := by
        rw [List.getElem?_eq_none_iff] at isValue ⊢
        omega
      rw [List.filterMap_cons_none isValue, List.filterMap_cons_none outside]
      exact ih
    | some value =>
      have read := Env.getAll_getElem? all isValue
      have within : index < tensors.length := by
        rw [sameLength]
        exact (List.getElem?_eq_some_iff.mp isValue).1
      rw [List.getElem?_eq_getElem within] at read
      rw [List.filterMap_cons_some isValue,
        List.filterMap_cons_some (List.getElem?_eq_getElem within)]
      simp only [Env.getAll, List.mapM_cons, read] at ih ⊢
      rw [ih]
      rfl

end

section
variable {outer : List Op} {region : Region} {captures : List Value} {env : Env}

/-- The names of what a region defines are its own. -/
theorem Region.mem_owners_ops {region : Region} {owner : Owner}
    (member : owner ∈ Op.ownersAll region.ops) : owner ∈ region.owners := by
  cases region
  exact List.mem_cons_of_mem _ member

theorem Region.block_mem_owners (region : Region) : .block region.block ∈ region.owners := by
  cases region
  exact List.mem_cons_self

/-- Captures are mapped to arguments, which nothing in the region defines. -/
theorem captureMapping_respects (verified : Scoped outer region)
    (serves : Serves outer region captures) (first : Nat) (used : Value → Prop) :
    Respects (captureMapping region.block first captures) used (Op.ownersAll region.ops) := by
  intro value _ owner member
  rcases captureMapping_eq region.block first captures value with
    ⟨-, unmapped⟩ | ⟨index, isCapture, mapped⟩
  · rw [unmapped]
    exact ⟨fun _ => rfl, id⟩
  · have external := serves.external value (List.mem_of_getElem? isCapture)
    simp only [isExternalOperand, decide_eq_true_eq] at external
    constructor
    · rintro rfl
      exact absurd (Region.mem_owners_ops member) external
    · rintro - same
      rw [mapped] at same
      exact verified.entered ((show Owner.block region.block = owner from same) ▸ member)

/-- Behind the cloned constants the function's environment agrees with the region's. -/
theorem agree_entry (kernels : Kernels) (fuel : Nat) (verified : Scoped outer region)
    (serves : Serves outer region captures) (outside : Outside outer region env)
    {arguments captured : List Tensor} (isCaptured : env.getAll captures = some captured)
    (sameTypes : arguments.map Tensor.type = region.argumentTypes) :
    ∃ entry, Op.evalAll kernels fuel (Env.empty.bind (.block region.block) (arguments ++ captured))
        (clonedConstants outer region) = some entry ∧
      Agree (captureMapping region.block arguments.length captures) (· ∈ region.walk)
        (env.bind (.block region.block) arguments) entry := by
  have cloned : ∀ op ∈ clonedConstants outer region, ∃ value ∈ region.walk,
      isExternalOperand region value ∧ isClonedConstant outer value ∧
        definingOp outer value = some op := by
    intro op member
    simp only [clonedConstants, List.mem_filterMap, List.mem_eraseDups, List.mem_filter,
      Bool.and_eq_true] at member
    obtain ⟨value, ⟨uses, external, isCloned⟩, isOp⟩ := member
    exact ⟨value, uses, external, isCloned, isOp⟩
  have areConstants : ∀ op ∈ clonedConstants outer region, ∃ tensor, op.kind = .constant tensor := by
    intro op member
    obtain ⟨value, -, -, isCloned, isOp⟩ := cloned op member
    unfold isClonedConstant at isCloned
    split at isCloned
    · rename_i tensor isConstant
      obtain ⟨other, -, kind, -, isOther⟩ := constantOf_eq_some isConstant
      obtain rfl := Option.some.inj (isOther.symm.trans isOp)
      exact ⟨tensor, kind⟩
    · contradiction
  have owned : ∀ op ∈ clonedConstants outer region, .operation op.id ∉ region.owners := by
    intro op member
    obtain ⟨value, -, external, -, isOp⟩ := cloned op member
    have isResult : value ∈ op.results := by simpa using List.find?_some isOp
    simp only [Op.results, List.mem_mapIdx] at isResult
    obtain ⟨index, within, rfl⟩ := isResult
    simpa [isExternalOperand] using external
  obtain ⟨entry, isEntry, bound, kept⟩ := evalAll_constants kernels fuel verified.distinct
    verified.constants (clonedConstants outer region)
    (fun op member => by
      obtain ⟨value, -, -, -, isOp⟩ := cloned op member
      exact List.mem_of_find?_eq_some isOp)
    areConstants (Env.empty.bind (.block region.block) (arguments ++ captured))
  refine ⟨entry, isEntry, fun value uses => ?_⟩
  rcases captureMapping_eq region.block arguments.length captures value with
    ⟨uncaptured, unmapped⟩ | ⟨index, isCapture, mapped⟩
  · rw [unmapped]
    by_cases internal : value.owner ∈ region.owners
    · rw [kept value fun op member same => owned op member (same ▸ internal)]
      by_cases isArgument : value.owner = .block region.block
      · -- An argument of the region is an argument of the function.
        have within := verified.arguments value uses isArgument
        simp only [Region.arguments, List.mem_mapIdx] at within
        obtain ⟨index, below, rfl⟩ := within
        have count : arguments.length = region.argumentTypes.length := by
          simpa using congrArg List.length sameTypes
        simp only [Env.bind, if_true, List.getElem?_append_left (by omega : index < arguments.length)]
      · rw [Env.bind_other isArgument, Env.bind_other isArgument, outside.fresh value internal]
        rfl
    · -- What is neither captured nor defined in the region is a cloned constant.
      have external : isExternalOperand region value := by simpa [isExternalOperand] using internal
      have isCloned : isClonedConstant outer value :=
        by_contra fun not => uncaptured (serves.complete value uses external not)
      have notBlock : value.owner ≠ .block region.block := fun same =>
        internal (same ▸ region.block_mem_owners)
      have isConstant := isCloned
      unfold isClonedConstant at isConstant
      split at isConstant
      · rename_i tensor isTensor
        obtain ⟨op, isOuter, kind, isResult, isOp⟩ := constantOf_eq_some isTensor
        have resultTypes := (verified.constants op isOuter tensor kind).2
        have member : op ∈ clonedConstants outer region := by
          simp only [clonedConstants, List.mem_filterMap, List.mem_eraseDups, List.mem_filter,
            Bool.and_eq_true]
          exact ⟨value, ⟨uses, external, isCloned⟩, isOp⟩
        rw [Env.bind_other notBlock, outside.evaluated value tensor isTensor]
        rw [Op.results, resultTypes] at isResult
        obtain rfl : value = ⟨.operation op.id, 0, tensor.type⟩ := by simpa using isResult
        exact bound op member tensor kind
      · contradiction
  · -- A capture is one of the last arguments.
    have external := serves.external value (List.mem_of_getElem? isCapture)
    simp only [isExternalOperand, decide_eq_true_eq] at external
    have notBlock : value.owner ≠ .block region.block := fun same =>
      external (same ▸ region.block_mem_owners)
    have read := Env.getAll_getElem? isCaptured isCapture
    rw [mapped, kept _ (fun op _ => Owner.noConfusion), Env.bind_other notBlock]
    simp only [Env.bind, if_true, List.getElem?_append_right (Nat.le_add_right _ _),
      Nat.add_sub_cancel_left]
    cases isTensor : captured[index]? with
    | none => rw [read, isTensor]
    | some tensor =>
      rw [isTensor] at read
      rw [read]
      exact if_pos (env.typed read)

theorem Region.ops_mem_walk {value : Value} (member : value ∈ Op.walkAll region.ops) :
    value ∈ region.walk := by
  cases region
  exact List.mem_append_left _ member

theorem Region.returned_mem_walk {value : Value} (member : value ∈ region.returned) :
    value ∈ region.walk := by
  cases region
  exact List.mem_append_right _ member

/-- At its end, an outlined function has the tensors its region has. -/
theorem outlineRegion_last (kernels : Kernels) (fuel : Nat) (verified : Scoped outer region)
    (serves : Serves outer region captures) (outside : Outside outer region env)
    {arguments captured : List Tensor} (isCaptured : env.getAll captures = some captured)
    (sameTypes : arguments.map Tensor.type = region.argumentTypes) :
    Option.Rel (Agree (captureMapping region.block region.argumentTypes.length captures)
        (· ∈ region.walk))
      (Op.evalAll kernels fuel (env.bind (.block region.block) arguments) region.ops)
      (Op.evalAll kernels fuel (Env.empty.bind (.block region.block) (arguments ++ captured))
        (clonedConstants outer region ++ Op.cloneAll
          (captureMapping region.block region.argumentTypes.length captures) region.ops)) := by
  have count : region.argumentTypes.length = arguments.length := by
    simpa using (congrArg List.length sameTypes).symm
  obtain ⟨entry, isEntry, agree⟩ :=
    agree_entry kernels fuel verified serves outside isCaptured sameTypes
  have same := Op.evalAll_clone kernels fuel region.ops agree
    (fun value member => Region.ops_mem_walk member)
    (captureMapping_respects verified serves arguments.length _)
  simp only [count, Op.evalAll_append, isEntry, Option.bind_some]
  exact same

/-- An outlined function takes the arguments of its region in front of the captures. -/
theorem outlineRegion_types (isCaptured : env.getAll captures = some captured)
    (arguments : List Tensor) :
    (arguments ++ captured).map Tensor.type = region.argumentTypes ++ captures.map Value.type ↔
      arguments.map Tensor.type = region.argumentTypes := by
  rw [List.map_append, Env.getAll_types isCaptured]
  exact List.append_left_inj _

/-- An outlined function returns the selected results of its region. -/
theorem outlineRegion_eval (kernels : Kernels) (fuel : Nat) (verified : Scoped outer region)
    (serves : Serves outer region captures) (outside : Outside outer region env)
    {arguments captured results : List Tensor} (isCaptured : env.getAll captures = some captured)
    (isResult : region.eval kernels fuel env arguments = some results) (resultIndices : List Nat) :
    runFunction kernels fuel
        (outlineRegion outer region region.argumentTypes captures resultIndices)
        (arguments ++ captured) =
      some (resultIndices.filterMap fun index => results[index]?) := by
  rw [Region.eval_apply] at isResult
  split at isResult
  · rename_i sameTypes
    rw [Option.bind_eq_some_iff] at isResult
    obtain ⟨last, isLast, returned⟩ := isResult
    have same := outlineRegion_last kernels fuel verified serves outside isCaptured sameTypes
    rw [isLast] at same
    generalize isClone : Op.evalAll kernels fuel _ (_ ++ _) = clone at same
    cases same with
    | some agree =>
      have all := (agree.getAll fun value member => Region.returned_mem_walk member).trans returned
      rw [runFunction, outlineRegion, Region.eval]
      beta_reduce
      rw [if_pos ((outlineRegion_types isCaptured arguments).mpr sameTypes), isClone]
      exact Env.getAll_select all resultIndices
  · contradiction

/-- An outlined function returns when its region does. -/
theorem outlineRegion_eval_eq (kernels : Kernels) (fuel : Nat) (verified : Scoped outer region)
    (serves : Serves outer region captures) (outside : Outside outer region env)
    {arguments captured : List Tensor} (isCaptured : env.getAll captures = some captured)
    (returns : arguments.map Tensor.type = region.argumentTypes → ∀ last,
      Op.evalAll kernels fuel (env.bind (.block region.block) arguments) region.ops = some last →
        (last.getAll region.returned).isSome) (resultIndices : List Nat) :
    runFunction kernels fuel
        (outlineRegion outer region region.argumentTypes captures resultIndices)
        (arguments ++ captured) =
      (region.eval kernels fuel env arguments).map fun results =>
        resultIndices.filterMap fun index => results[index]? := by
  cases isResult : region.eval kernels fuel env arguments with
  | some results =>
    exact outlineRegion_eval kernels fuel verified serves outside isCaptured isResult resultIndices
  | none =>
    rw [runFunction, outlineRegion, Region.eval]
    beta_reduce
    by_cases sameTypes : arguments.map Tensor.type = region.argumentTypes
    · rw [if_pos ((outlineRegion_types isCaptured arguments).mpr sameTypes)]
      have same := outlineRegion_last kernels fuel verified serves outside isCaptured sameTypes
      rw [Region.eval_apply, if_pos sameTypes, Option.bind_eq_none_iff] at isResult
      cases isLast : Op.evalAll kernels fuel (env.bind (.block region.block) arguments)
          region.ops with
      | none =>
        rw [isLast] at same
        generalize Op.evalAll kernels fuel _ (_ ++ _) = clone at same ⊢
        cases same
        rfl
      | some last =>
        have isSome := returns sameTypes last isLast
        rw [isResult last isLast] at isSome
        cases isSome
    · rw [if_neg fun types => sameTypes ((outlineRegion_types isCaptured arguments).mp types)]
      rfl

end

end Libtt.ControlFlow

import Libtt.ControlFlow.CountedCorrect
import Libtt.ControlFlow.Case

/-!
# Outlined control flow against its meaning

A loop that is not counted and a case run their outlined functions on the state or nothing, in front
of the captures.
-/

namespace Libtt.ControlFlow

open Libtt.Foundation

/-- What a region returns is in scope at its end. -/
def Region.ReturnsVisible (region : Region) (env : Env) : Prop :=
  ∀ value ∈ region.returned, value ∈ region.arguments ∨ (∃ op ∈ region.ops, value ∈ op.results) ∨
    value.owner ∉ region.owners ∧ (env.get value).isSome

theorem Env.getAll_isSome {env : Env} {values : List Value}
    (each : ∀ value ∈ values, (env.get value).isSome) : (env.getAll values).isSome := by
  induction values with
  | nil => rfl
  | cons value values ih =>
    obtain ⟨tensor, isTensor⟩ := Option.isSome_iff_exists.mp (each value List.mem_cons_self)
    obtain ⟨tensors, isTensors⟩ := Option.isSome_iff_exists.mp
      (ih fun other member => each other (List.mem_cons_of_mem _ member))
    simp only [Env.getAll] at isTensors ⊢
    simp [isTensor, isTensors]

section
variable {kernels : Kernels} {fuel : Nat} {outer : List Op} {env : Env}

/-- A region whose block was evaluated returns. -/
theorem Evaluated.returns {region : Region} {last : Env} {arguments : List Tensor}
    (evaluated : Evaluated kernels fuel env region arguments last)
    (visible : region.ReturnsVisible env) : (last.getAll region.returned).isSome := by
  refine Env.getAll_isSome fun value member => ?_
  rcases visible value member with isArgument | ⟨op, isOp, isResult⟩ | ⟨external, isSome⟩
  · rw [evaluated.argument value isArgument]
    simp only [Region.arguments, List.mem_mapIdx] at isArgument
    obtain ⟨index, within, rfl⟩ := isArgument
    obtain ⟨below, -⟩ := Tensor.type_getElem evaluated.types within
    simp [below]
  · obtain ⟨_, results, _, -, -, types, bound⟩ := evaluated.holds op isOp
    rw [bound value isResult]
    simp only [Op.results, List.mem_mapIdx] at isResult
    obtain ⟨index, within, rfl⟩ := isResult
    obtain ⟨below, -⟩ := Tensor.type_getElem types within
    simp [below]
  · rw [evaluated.outside value external]
    exact isSome

/-- An outlined function computes the selected results of its region. -/
theorem outlineRegion_computes {region : Region} {captures : List Value}
    {arguments captured : List Tensor} (verified : Scoped outer region)
    (serves : Serves outer region captures) (outside : Outside outer region env)
    (visible : region.ReturnsVisible env) (isCaptured : env.getAll captures = some captured)
    (resultIndices : List Nat) :
    runFunction kernels fuel
        (outlineRegion outer region region.argumentTypes captures resultIndices)
        (arguments ++ captured) =
      (region.eval kernels fuel env arguments).map fun results =>
        resultIndices.filterMap fun index => results[index]? :=
  outlineRegion_eval_eq kernels fuel verified serves outside isCaptured
    (fun types _ isLast => (Evaluated.of_evalAll verified outside types isLast).returns visible)
    resultIndices

/-- Selecting every result. -/
theorem filterMap_range (results : List Tensor) :
    ((List.range results.length).filterMap fun index => results[index]?) = results := by
  induction results with
  | nil => rfl
  | cons result results ih =>
    have head : (fun index : Nat => (result :: results)[index]?) 0 = some result := rfl
    rw [List.length_cons, List.range_succ_eq_map, List.filterMap_cons_some head,
      List.filterMap_map]
    exact congrArg (result :: ·) ih

/-- A region returns as many results as its terminator has operands. -/
theorem Region.eval_length {region : Region} {arguments results : List Tensor}
    (isResult : region.eval kernels fuel env arguments = some results) :
    results.length = region.returned.length := by
  rw [Region.eval_apply] at isResult
  split at isResult
  · obtain ⟨last, -, returned⟩ := Option.bind_eq_some_iff.mp isResult
    simpa using congrArg List.length (Env.getAll_types returned)
  · contradiction

/-- A loop's regions return what is in scope. -/
structure WhileOp.ReturnsVisible (loop : WhileOp) (env : Env) : Prop where
  cond : loop.cond.ReturnsVisible env
  body : loop.body.ReturnsVisible env

section
variable {loop : WhileOp} {captured state : List Tensor}

/-- The condition of a loop that is not counted. -/
theorem convertWhile_condition {op : WhileLoopOp} (converted : convertWhile outer loop = some op)
    (uncounted : op.bounds = none) :
    op.condition = some (outlineRegion outer loop.cond (loop.operands.map Value.type)
      (collectCaptures outer [loop.cond, loop.body]) [0]) := by
  unfold convertWhile at converted
  split at converted
  · split at converted
    · obtain rfl := Option.some.inj converted
      dsimp only at uncounted ⊢
      rw [uncounted]
    · contradiction
  · contradiction

section

variable (verified : loop.Verified outer) (outside : loop.Outside outer env)
  (visible : loop.ReturnsVisible env)
include verified outside visible

/-- The runtime tests what the loop tests. -/
theorem condition_computes {condition : Value} (single : loop.cond.returned = [condition])
    (isCaptured : env.getAll (collectCaptures outer [loop.cond, loop.body]) = some captured) :
    runFunction kernels fuel (outlineRegion outer loop.cond (loop.operands.map Value.type)
        (collectCaptures outer [loop.cond, loop.body]) [0]) (state ++ captured) =
      loop.cond.eval kernels fuel env state := by
  have computes := @outlineRegion_computes kernels fuel outer env loop.cond _ state captured
    verified.cond (verified.serves (by simp)) outside.cond visible.cond isCaptured [0]
  rw [verified.condTypes] at computes
  rw [computes]
  cases isResult : loop.cond.eval kernels fuel env state with
  | none => rfl
  | some results =>
    have count := Region.eval_length isResult
    rw [single] at count
    obtain ⟨result, rfl⟩ := List.length_eq_one_iff.mp count
    rfl

/-- The runtime's iteration fails where the body does. -/
theorem executeBody_computes {op : WhileLoopOp} (converted : convertWhile outer loop = some op)
    (isCaptured : env.getAll (collectCaptures outer [loop.cond, loop.body]) = some captured) :
    op.executeBody kernels fuel (state ++ captured) =
      (loop.body.eval kernels fuel env state).map (· ++ captured) := by
  cases isNext : loop.body.eval kernels fuel env state with
  | some next => exact executeBody_eq verified outside converted isCaptured isNext
  | none =>
    obtain ⟨-, -, -, -, -, -, isBody, -⟩ := convertWhile_eq_some converted
    have computes := @outlineRegion_computes kernels fuel outer env loop.body _ state captured
      verified.body (verified.serves (by simp)) outside.body visible.body isCaptured
      (computeLoopOutputs loop.body)
    rw [verified.bodyTypes, isNext] at computes
    simp only [WhileLoopOp.executeBody, isBody, computes, Option.map_none]

/-- A loop that is not counted returns its last state, and does not end where the loop does not. -/
theorem outlined_while {op : WhileLoopOp} (converted : convertWhile outer loop = some op)
    (uncounted : op.bounds = none) {inputs : List Tensor}
    (isInputs : env.getAll op.inputs = some inputs) :
    op.results kernels fuel inputs = loop.eval kernels fuel env (inputs.take op.stateCount) := by
  obtain ⟨condition, single, -, isCount, -, isInput, -, -⟩ := convertWhile_eq_some converted
  rw [isInput] at isInputs
  obtain ⟨state, captured, isState, isCaptured, rfl⟩ := Env.getAll_append isInputs
  have count : state.length = loop.operands.length := by
    simpa using congrArg List.length (Env.getAll_types isState)
  have same : Foundation.loop (testOf (runFunction kernels fuel (outlineRegion outer loop.cond
        (loop.operands.map Value.type) (collectCaptures outer [loop.cond, loop.body]) [0])))
        (op.executeBody kernels fuel) fuel (state ++ captured) =
      (Foundation.loop (testOf (loop.cond.eval kernels fuel env)) (loop.body.eval kernels fuel env)
        fuel state).map (· ++ captured) :=
    loop_embed (fun _ => True) (fun _ _ _ _ => trivial)
      (fun current _ => by
        unfold testOf
        rw [condition_computes verified outside visible single isCaptured])
      (fun current _ => executeBody_computes verified outside visible converted isCaptured) fuel
      trivial
  have meaning : loop.eval kernels fuel env ((state ++ captured).take op.stateCount) =
      Foundation.loop (testOf (loop.cond.eval kernels fuel env)) (loop.body.eval kernels fuel env)
        fuel state := by
    rw [isCount, ← count, List.take_left]
    rfl
  rw [meaning, WhileLoopOp.results]
  simp only [WhileLoopOp.run, convertWhile_condition converted uncounted, same]
  cases ends : Foundation.loop (testOf (loop.cond.eval kernels fuel env))
      (loop.body.eval kernels fuel env) fuel state with
  | none => rfl
  | some last =>
    obtain ⟨iterations, reaches, -⟩ := loop_eq_some ends
    obtain ⟨countLast, kept⟩ := repeated_kept verified outside count reaches
    exact outputs_last verified converted count countLast kept

end

end

/-- What the verifier promises about a case operation and the operations outside it. -/
structure CaseOp.Verified (outer : List Op) (op : CaseOp) : Prop where
  branches : ∀ branch ∈ op.branches, Scoped outer branch
  arguments : ∀ branch ∈ op.branches, branch.argumentTypes = []
  /-- No branch uses what another defines. -/
  uses : op.branches.Pairwise fun first second =>
    (∀ value ∈ first.walk, value.owner ∉ second.owners) ∧
      ∀ value ∈ second.walk, value.owner ∉ first.owners
  indexType : op.index.type = ⟨[], .signed 32⟩
  /-- A conversion keeps the shape. -/
  converts : ∀ definition ∈ outer, definition.kind = .convert → ∃ operand type,
    definition.operands = [operand] ∧ definition.resultTypes = [type] ∧
      operand.type.shape = type.shape
  /-- A result without dimensions comes of operands without dimensions. -/
  wheres : ∀ definition ∈ outer, definition.kind = .whereOp → ∃ first second third type,
    definition.operands = [first, second, third] ∧ definition.resultTypes = [type] ∧
      (type.shape = [] → first.type.shape = [] ∧ second.type = type ∧ third.type = type)

/-- An environment a case operation can be evaluated in. -/
structure CaseOp.Outside (kernels : Kernels) (fuel : Nat) (outer : List Op) (op : CaseOp)
    (env : Env) : Prop where
  branches : ∀ branch ∈ op.branches, ControlFlow.Outside outer branch env
  visible : ∀ branch ∈ op.branches, branch.ReturnsVisible env
  constants : ∀ value tensor, constantOf outer value = some tensor → env.get value = some tensor
  evaluated : ∀ definition ∈ outer, definition.Holds kernels fuel env

/-- A scalar that is read as a test with a result. -/
def Reads (env : Env) (value : Value) (flag : Bool) : Prop :=
  value.type.shape = [] ∧ (value.type.element = .signed 32 ∨ value.type.element = .boolean) ∧
    ∃ tensor, env.get value = some tensor ∧ readConditionScalar tensor = some flag

section
variable {op : CaseOp} {index : Value} {flag : Bool}

/-- A tensor without dimensions has one element. -/
theorem Tensor.elements_of_shape {tensor : Tensor} (scalar : tensor.type.shape = []) :
    ∃ bits, tensor.elements = [bits] :=
  Tensor.elements_of_numElements (by rw [TensorType.numElements, scalar]; rfl)

theorem readConditionScalar_signed {tensor : Tensor} {bits : Nat}
    (element : tensor.type.element = .signed 32) (elements : tensor.elements = [bits]) :
    readConditionScalar tensor = some (signedValue 32 bits != 0) := by
  simp [readConditionScalar, element, Tensor.scalar, elements]

theorem readConditionScalar_boolean {tensor : Tensor} {bits : Nat}
    (element : tensor.type.element = .boolean) (elements : tensor.elements = [bits]) :
    readConditionScalar tensor = some (bits != 0) := by
  simp [readConditionScalar, element, Tensor.scalar, elements]

/-- Truth as an element is read as it is. -/
theorem readConditionScalar_flag {tensor : Tensor} {flag : Bool}
    (element : tensor.type.element = .signed 32 ∨ tensor.type.element = .boolean)
    (elements : tensor.elements = [if flag then 1 else 0]) :
    readConditionScalar tensor = some flag := by
  rcases element with element | element
  · rw [readConditionScalar_signed element elements]
    cases flag <;> decide
  · rw [readConditionScalar_boolean element elements]
    cases flag <;> decide

/-- A result of an operation with one result. -/
theorem Op.eq_of_mem_results {definition : Op} {value : Value} {type : TensorType}
    (single : definition.resultTypes = [type]) (isResult : value ∈ definition.results) :
    value.type = type ∧ value.index = 0 := by
  rw [Op.results, single] at isResult
  obtain rfl : value = ⟨.operation definition.id, 0, type⟩ := by simpa using isResult
  exact ⟨rfl, rfl⟩

theorem definingOp_eq_some {scope : List Op} {value : Value} {definition : Op}
    (isDefinition : definingOp scope value = some definition) :
    definition ∈ scope ∧ value ∈ definition.results :=
  ⟨List.mem_of_find?_eq_some isDefinition, by simpa using List.find?_some isDefinition⟩

theorem isScalarI1_eq_true {value : Value} (isScalar : isScalarI1 value = true) :
    value.type.element = .boolean := by
  simp only [isScalarI1, Bool.and_eq_true, decide_eq_true_eq] at isScalar
  exact isScalar.2

/-- The predicate that the index was converted from reads as the index does. -/
theorem convertedPredicate_reads (verified : op.Verified outer)
    (outside : op.Outside kernels fuel outer env) (isIndex : index.type.element = .signed 32)
    (reads : Reads env index flag) : Reads env (convertedPredicate outer index) flag := by
  unfold convertedPredicate
  split
  · rename_i id operand types regions isDefinition
    split
    · rename_i isScalar
      obtain ⟨isOuter, isResult⟩ := definingOp_eq_some isDefinition
      obtain ⟨other, type, isOperands, isTypes, sameShape⟩ :=
        verified.converts _ isOuter rfl
      obtain rfl := List.singleton_inj.mp isOperands
      obtain ⟨isType, isFirst⟩ := Op.eq_of_mem_results isTypes isResult
      obtain ⟨tensors, results, denotations, isTensors, isResults, -, bound⟩ :=
        outside.evaluated _ isOuter
      obtain ⟨scalar, -, tensor, isTensor, isFlag⟩ := reads
      have isBoolean := isScalarI1_eq_true isScalar
      have operandShape : operand.type.shape = [] := by rw [sameShape, ← isType, scalar]
      simp only [Op.operands, Env.getAll, List.mapM_cons, List.mapM_nil, Option.bind_eq_bind,
        Option.pure_def, Option.bind_some, Option.bind_eq_some_iff, Option.some.injEq] at isTensors
      obtain ⟨first, isFirstTensor, rfl⟩ := isTensors
      have firstType := env.typed isFirstTensor
      obtain ⟨bits, elements⟩ := Tensor.elements_of_shape (firstType ▸ operandShape)
      have types : type = ⟨type.shape, .signed 32⟩ := by rw [← isType, ← isIndex]
      simp only [Op.kind, Op.resultTypes] at isResults isTypes
      rw [isTypes, types] at isResults
      simp only [Kind.apply, firstType, isBoolean, Option.some.injEq] at isResults
      rw [bound index isResult, ← isResults, isFirst] at isTensor
      obtain rfl := Option.some.inj isTensor
      refine ⟨operandShape, .inr isBoolean, first, isFirstTensor, ?_⟩
      rw [readConditionScalar_boolean (firstType ▸ isBoolean) elements, ← isFlag]
      rw [@readConditionScalar_flag _ (bits != 0) (.inl rfl)]
      simp only [convertBoolean, elements, List.map_cons, List.map_nil]
      by_cases zero : bits = 0 <;> simp [zero]
    · exact reads
  · exact reads

/-- A matched constant has just that element. -/
theorem matchConstant_eval (outside : op.Outside kernels fuel outer env) {value : Value} {bits : Nat}
    (isConstant : matchConstant outer value bits = true) (scalar : value.type.shape = []) :
    ∃ tensor, env.get value = some tensor ∧ tensor.elements = [bits] := by
  unfold matchConstant at isConstant
  split at isConstant
  · rename_i tensor isTensor
    have isValue := outside.constants value tensor isTensor
    obtain ⟨other, elements⟩ := Tensor.elements_of_shape (env.typed isValue ▸ scalar)
    split at isConstant
    · contradiction
    · rw [elements] at isConstant
      obtain rfl : other = bits := by simpa using isConstant
      exact ⟨tensor, isValue, elements⟩
  · contradiction

/-- The predicate of a selection between one and zero reads as the selection does. -/
theorem wherePredicate_reads (verified : op.Verified outer)
    (outside : op.Outside kernels fuel outer env) (reads : Reads env index flag) :
    Reads env (wherePredicate outer index) flag := by
  unfold wherePredicate
  split
  · rename_i id first second third types regions isDefinition
    split
    · rename_i isSelection
      obtain ⟨isScalar, isOne, isZero⟩ := isSelection
      obtain ⟨isOuter, isResult⟩ := definingOp_eq_some isDefinition
      obtain ⟨_, _, _, type, isOperands, isTypes, shapes⟩ := verified.wheres _ isOuter rfl
      obtain ⟨rfl, rfl, rfl⟩ := isOperands
      obtain ⟨isType, isFirst⟩ := Op.eq_of_mem_results isTypes isResult
      obtain ⟨tensors, results, denotations, isTensors, isResults, -, bound⟩ :=
        outside.evaluated _ isOuter
      obtain ⟨scalar, element, tensor, isTensor, isFlag⟩ := reads
      obtain ⟨firstShape, secondType, thirdType⟩ := shapes (isType ▸ scalar)
      have isBoolean := isScalarI1_eq_true isScalar
      obtain ⟨one, oneTensor, oneElements⟩ :=
        matchConstant_eval outside isOne (by rw [secondType, ← isType, scalar])
      obtain ⟨zero, zeroTensor, zeroElements⟩ :=
        matchConstant_eval outside isZero (by rw [thirdType, ← isType, scalar])
      simp only [Op.operands, Env.getAll, List.mapM_cons, List.mapM_nil, Option.bind_eq_bind,
        Option.pure_def, Option.bind_some, Option.bind_eq_some_iff, Option.some.injEq, oneTensor,
        zeroTensor] at isTensors
      obtain ⟨predicate, isPredicate, rfl⟩ := isTensors
      have predicateType := env.typed isPredicate
      have oneType := env.typed oneTensor
      have zeroType := env.typed zeroTensor
      obtain ⟨bits, elements⟩ := Tensor.elements_of_shape (predicateType ▸ firstShape)
      have applies : predicate.type.element = .boolean ∧
          predicate.type.shape = one.type.shape ∧ one.type = zero.type := by
        refine ⟨predicateType ▸ isBoolean, ?_, ?_⟩
        · rw [predicateType, firstShape, oneType, secondType, ← isType, scalar]
        · rw [oneType, zeroType, secondType, thirdType]
      simp only [Op.kind, Kind.apply, dif_pos applies, Option.some.injEq] at isResults
      rw [bound index isResult, ← isResults, isFirst] at isTensor
      obtain rfl := Option.some.inj isTensor
      refine ⟨firstShape, .inr isBoolean, predicate, isPredicate, ?_⟩
      rw [readConditionScalar_boolean (predicateType ▸ isBoolean) elements, ← isFlag]
      have selects : (whereBoolean predicate one zero applies.2.1 applies.2.2).type.element =
          index.type.element := by
        rw [whereBoolean, oneType, secondType, isType]
      rw [@readConditionScalar_flag _ (bits != 0) (selects ▸ element)]
      simp only [whereBoolean, elements, oneElements, zeroElements, List.zip_cons_cons,
        List.zip_nil_right, List.zipWith_cons_cons, List.zipWith_nil_right]
      by_cases isFalse : bits = 0 <;> simp [isFalse]
    · exact reads
  · exact reads

/-- Of two branches, every index but zero selects the second. -/
theorem selectBranch_two {index : Int} (nonzero : index ≠ 0) : selectBranch index 2 = 1 := by
  unfold selectBranch
  split <;> omega

/-- Reading the selector selects the branch that the index does. -/
theorem readBranchIndex_selects (verified : op.Verified outer)
    (outside : op.Outside kernels fuel outer env) {tensor selector : Tensor} {bits : Nat}
    (isIndex : env.get op.index = some tensor) (elements : tensor.elements = [bits])
    (isSelector : env.get (branchSelector outer op.index op.branches.length) = some selector) :
    ∃ branchIndex, readBranchIndex op.branches.length selector = some branchIndex ∧
      selectBranch branchIndex op.branches.length =
        selectBranch (signedValue 32 bits) op.branches.length := by
  have type := (env.typed isIndex).trans verified.indexType
  have element : tensor.type.element = .signed 32 := congrArg TensorType.element type
  rw [branchSelector] at isSelector
  rw [readBranchIndex]
  by_cases two : op.branches.length = 2
  · rw [if_pos two] at isSelector ⊢
    have reads : Reads env op.index (signedValue 32 bits != 0) :=
      ⟨congrArg TensorType.shape verified.indexType,
        .inl (congrArg TensorType.element verified.indexType), tensor, isIndex,
        readConditionScalar_signed element elements⟩
    have converted := convertedPredicate_reads verified outside
      (congrArg TensorType.element verified.indexType) reads
    obtain ⟨-, -, other, isOther, isFlag⟩ := wherePredicate_reads verified outside converted
    obtain rfl := Option.some.inj (isSelector.symm.trans isOther)
    rw [isFlag]
    refine ⟨_, rfl, ?_⟩
    rw [two]
    by_cases zero : signedValue 32 bits = 0
    · rw [zero]
      rfl
    · have nonzero : (signedValue 32 bits != 0) = true := bne_iff_ne.mpr zero
      rw [nonzero, selectBranch_two zero]
      rfl
  · rw [if_neg two] at isSelector ⊢
    obtain rfl := Option.some.inj (isIndex.symm.trans isSelector)
    exact ⟨_, readIntegerScalar_signed element (by decide) elements, rfl⟩

/-- The captures serve every branch. -/
theorem CaseOp.Verified.serves (verified : op.Verified outer) {branch : Region}
    (member : branch ∈ op.branches) : Serves outer branch (collectCaptures outer op.branches) := by
  refine collectCaptures_serves ?_ member
  intro user isUser other isOther value uses external
  have apart := (verified.uses.imp Or.inr).forall_of_forall_of_flip
    (R := fun first second => first = second ∨
      (∀ value ∈ first.walk, value.owner ∉ second.owners) ∧
        ∀ value ∈ second.walk, value.owner ∉ first.owners)
    (fun _ _ => .inl rfl) ((verified.uses.imp Or.inr).imp fun either =>
      either.imp Eq.symm And.symm) isUser isOther
  rcases apart with equal | apart
  · exact equal ▸ external
  · simpa [isExternalOperand] using apart.1 value uses

theorem Region.evalAll_eq_map (regions : List Region) :
    Region.evalAll kernels fuel env regions = regions.map fun region => region.eval kernels fuel env
    := by
  induction regions with
  | nil => rfl
  | cons region regions ih => rw [Region.evalAll, List.map_cons, ih]

/-- A case returns what its branch returns. -/
theorem outlined_case (verified : op.Verified outer) (outside : op.Outside kernels fuel outer env)
    {emitted : CaseProgramsOp} (converted : convertCase outer op = some emitted)
    {index : Tensor} (isIndex : (env.get op.index).isSome)
    (isSelector : env.get emitted.index = some index) {inputs : List Tensor}
    (isInputs : env.getAll emitted.inputs = some inputs) :
    emitted.run kernels fuel index inputs = op.eval kernels fuel env := by
  unfold convertCase at converted
  split at converted
  · rename_i counts
    obtain rfl := Option.some.inj converted
    obtain ⟨tensor, isTensor⟩ := Option.isSome_iff_exists.mp isIndex
    have type := (env.typed isTensor).trans verified.indexType
    obtain ⟨bits, elements⟩ := Tensor.elements_of_shape (congrArg TensorType.shape type)
    obtain ⟨branchIndex, isBranch, selects⟩ :=
      readBranchIndex_selects verified outside isTensor elements isSelector
    simp only [CaseProgramsOp.run, List.length_map, isBranch, selects, List.getElem?_map]
    have element : tensor.type.element = .signed 32 := congrArg TensorType.element type
    simp only [CaseOp.eval, isTensor, Option.bind_some, Kind.apply, element, Tensor.scalar,
      elements, Region.evalAll_eq_map, List.length_map, List.getElem?_map]
    cases found : op.branches[selectBranch (signedValue 32 bits) op.branches.length]? with
    | none => rfl
    | some branch =>
      have member := List.mem_of_getElem? found
      have computes := @outlineRegion_computes kernels fuel outer env branch _ [] inputs
        (verified.branches branch member) (verified.serves member) (outside.branches branch member)
        (outside.visible branch member) isInputs (List.range op.resultTypes.length)
      rw [verified.arguments branch member] at computes
      refine computes.trans ?_
      simp only [Option.map_some]
      cases isResult : branch.eval kernels fuel env [] with
      | none => rfl
      | some results =>
        rw [Option.map_some, ← counts branch member, ← Region.eval_length isResult,
          filterMap_range]
  · contradiction

end

end

/-- A limit, and an index converted from the function's predicate. -/
def functionScope : List Op :=
  [.mk 0 (.constant (integer32 9)) [] [scalar32] [],
    .mk 1 .convert [⟨.block 9, 1, ⟨[], .boolean⟩⟩] [scalar32] []]

/-- The environment of a function of a step and a predicate. -/
def functionEnv (step flag : Nat) : Env :=
  ((Env.empty.bind (.block 9) [integer32 step, ⟨⟨[], .boolean⟩, [flag], List.length_singleton⟩]).bind (.operation 0)
    [integer32 9]).bind (.operation 1) [integer32 (if flag = 0 then 0 else 1)]

/-- `while (i != limit) i += step`, from the step. -/
def steppingLoop : WhileOp where
  operands := [⟨.block 9, 0, scalar32⟩]
  cond := .mk 0 [scalar32]
    [.mk 3 (.compare .NE (some .SIGNED)) [⟨.block 0, 0, scalar32⟩, ⟨.operation 0, 0, scalar32⟩]
      [⟨[], .boolean⟩] []]
    [⟨.operation 3, 0, ⟨[], .boolean⟩⟩]
  body := .mk 1 [scalar32]
    [.mk 4 .add [⟨.block 1, 0, scalar32⟩, ⟨.block 9, 0, scalar32⟩] [scalar32] []]
    [⟨.operation 4, 0, scalar32⟩]

/-- The step or the limit. -/
def choosingCase : CaseOp where
  index := ⟨.operation 1, 0, scalar32⟩
  branches := [.mk 2 [] [] [⟨.block 9, 0, scalar32⟩], .mk 3 [] [] [⟨.operation 0, 0, scalar32⟩]]
  resultTypes := [scalar32]

theorem functionScope_scoped {region : Region} (member : region ∈ [steppingLoop.cond,
    steppingLoop.body, .mk 2 [] [] [⟨.block 9, 0, scalar32⟩],
    .mk 3 [] [] [⟨.operation 0, 0, scalar32⟩]]) : Scoped functionScope region := by
  simp only [List.mem_cons, List.not_mem_nil, or_false] at member
  rcases member with rfl | rfl | rfl | rfl <;>
  · constructor <;>
      simp [steppingLoop, functionScope, Region.ops, Region.block, Region.walk, Region.owners,
        Region.arguments, Region.argumentTypes, Op.ownersAll, Op.owners, Op.walkAll, Op.walk,
        Op.id, Op.operands, Op.kind, Op.resultTypes, Region.ownersAll, Region.walkAll, integer32]

theorem functionEnv_constants (step flag : Nat) {value : Value} {tensor : Tensor}
    (isConstant : constantOf functionScope value = some tensor) :
    (functionEnv step flag).get value = some tensor := by
  obtain ⟨op, member, kind, isResult, -⟩ := constantOf_eq_some isConstant
  simp only [functionScope, List.mem_cons, List.not_mem_nil, or_false] at member
  rcases member with rfl | rfl
  · obtain rfl := Kind.constant.inj kind
    obtain rfl : value = ⟨.operation 0, 0, scalar32⟩ := List.mem_singleton.mp isResult
    rfl
  · exact nomatch kind

theorem functionEnv_outside (step flag : Nat) {region : Region} (member : region ∈
    [steppingLoop.cond, steppingLoop.body, .mk 2 [] [] [⟨.block 9, 0, scalar32⟩],
      .mk 3 [] [] [⟨.operation 0, 0, scalar32⟩]]) :
    Outside functionScope region (functionEnv step flag) := by
  refine ⟨fun value own => ?_, fun value tensor => functionEnv_constants step flag⟩
  obtain ⟨owner, index, type⟩ := value
  simp only [List.mem_cons, List.not_mem_nil, or_false] at member
  rcases member with rfl | rfl | rfl | rfl <;>
  · simp only [steppingLoop, Region.owners, Op.ownersAll, Op.owners, Region.ownersAll,
      List.append_nil, List.mem_cons, List.not_mem_nil, or_false] at own
    rcases own with rfl | rfl <;> rfl

end Libtt.ControlFlow

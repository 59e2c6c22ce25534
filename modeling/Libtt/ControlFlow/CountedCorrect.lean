import Libtt.Foundation.Counter
import Libtt.ControlFlow.Counted
import Libtt.ControlFlow.Evaluated

/-!
# Counted loops against their condition

The counter of a counted loop is a slot of the loop state that the body increases by the step; the
limit and the step are constants, slots the body passes through, or captures.
-/

namespace Libtt.ControlFlow

open Libtt.Foundation

variable {tensor : Tensor} {width count index : Nat} {value : Value} {captures : List Value}
  {bound : LoopBound} {outer : List Op} {loop : WhileOp} {indices : List Nat} {last : List Tensor}

section
variable {kernels : Kernels} {fuel : Nat}

/-- Reading a signed scalar. -/
theorem readIntegerScalar_signed {bits : Nat} (element : tensor.type.element = .signed width)
    (narrow : width ≤ 32) (elements : tensor.elements = [bits]) :
    readIntegerScalar tensor = some (signedValue width bits) := by
  simp only [readIntegerScalar, element, Tensor.scalar, elements, narrow, if_true]

/-- The range of signed values. -/
theorem signedValue_range (width bits : Nat) :
    -(2 ^ (width - 1) : Nat) ≤ signedValue width bits ∧
      signedValue width bits < (2 ^ (width - 1) : Nat) := by
  exact ⟨BitVec.le_toInt _, BitVec.toInt_lt⟩

/-- Addition modulo the width. -/
theorem signedValue_add (width first second : Nat) :
    signedValue width ((first + second) % 2 ^ width) =
      (signedValue width first + signedValue width second).bmod (2 ^ width) := by
  have sum : BitVec.ofNat width ((first + second) % 2 ^ width) =
      BitVec.ofNat width first + BitVec.ofNat width second := by
    exact BitVec.eq_of_toNat_eq (by simp)
  rw [signedValue, sum, BitVec.toInt_add]
  rfl

/-- A tensor of one element has just that. -/
theorem Tensor.elements_of_numElements (one : tensor.type.numElements = 1) :
    ∃ bits, tensor.elements = [bits] :=
  List.length_eq_one_iff.mp (tensor.count.trans one)

/-- A scalar integer that is signed is narrow. -/
theorem isScalarInteger_signed (isScalar : isScalarInteger value)
    (element : value.type.element = .signed width) :
    value.type.numElements = 1 ∧ width ≤ 32 := by
  simpa [isScalarInteger, element] using isScalar

section
variable {outer : List Op} {region : Region} {env last : Env} {arguments : List Tensor}

/-- A bound that was resolved is a scalar integer. -/
theorem resolveBound_scalar {scope : List Op} {direct invariant : Option Nat} {body : Region}
    (resolved : resolveBound scope (some value) direct invariant body captures count = some bound) :
    isScalarInteger value := by
  by_contra other
  simp [resolveBound, getScalarInteger, other] at resolved

/-- The slots a bound may be read from: those the body passes through, and the captures. -/
def LoopBound.Invariant (bound : LoopBound) (body : Region) (count : Nat) : Prop :=
  ∀ index, bound.inputIndex = some index → index < count → passesThrough body index

/-- A constant bound is the value of its signed constant. -/
theorem getScalarInteger_eval {scope : List Op} {constant : Int}
    (element : value.type.element = .signed width) (sameType : tensor.type = value.type)
    (evaluates : ∀ other, constantOf scope value = some other → other = tensor)
    (isConstant : getScalarInteger scope value = some constant) :
    readIntegerScalar tensor = some constant := by
  unfold getScalarInteger at isConstant
  split at isConstant
  · rename_i isScalar
    obtain ⟨-, narrow⟩ := isScalarInteger_signed isScalar element
    split at isConstant
    · rename_i other isOther
      obtain rfl := evaluates other isOther
      split at isConstant
      · rename_i bits isBits
        rw [sameType, element] at isConstant
        simp only [readIntegerScalar, sameType, element, isBits, narrow, if_true]
        exact isConstant
      · contradiction
    · contradiction
  · contradiction

/-- A resolved limit or step is read as the value it has in the region. -/
theorem resolveBound_eval (verified : Scoped outer region) (outside : Outside outer region env)
    (evaluated : Evaluated kernels fuel env region arguments last) {captures : List Value}
    {captured : List Tensor} (isCaptured : env.getAll captures = some captured)
    (external : ∀ value ∈ captures, isExternalOperand region value) {count : Nat}
    (sameCount : arguments.length = count) {value : Value} {tensor : Tensor} {bound : LoopBound}
    {body : Region} {width : Nat} (uses : value ∈ region.walk)
    (resolved : resolveBound (region.ops ++ outer) (some value) none (some region.block) body
      captures count = some bound)
    (isTensor : last.get value = some tensor) (element : value.type.element = .signed width) :
    getBound (arguments ++ captured) bound = readIntegerScalar tensor ∧
      bound.Invariant body count := by
  have isScalar := resolveBound_scalar resolved
  rw [resolveBound] at resolved
  split at resolved
  · rename_i constant isConstant
    obtain rfl := Option.some.inj resolved
    refine ⟨?_, nofun⟩
    rw [getScalarInteger_eval element (last.typed isTensor) (fun other isOther => ?_) isConstant]
    · rfl
    · exact Option.some.inj ((constantOf_eval verified outside evaluated isOther).symm.trans isTensor)
  · rw [if_pos isScalar] at resolved
    split at resolved
    · rename_i passes
      obtain ⟨owner, passes⟩ := passes
      obtain rfl := Option.some.inj resolved
      have own : value.owner = .block region.block := by simpa using owner.symm
      have isArgument := verified.arguments value uses own
      have read := evaluated.argument value isArgument
      rw [isTensor] at read
      have within : value.index < arguments.length := (List.getElem?_eq_some_iff.mp read.symm).1
      refine ⟨?_, fun index isIndex _ => Option.some.inj isIndex ▸ passes⟩
      simp only [getBound, LoopBound.ofInput, List.getElem?_append_left within, ← read]
    · rw [Option.map_eq_some_iff] at resolved
      obtain ⟨index, found, rfl⟩ := resolved
      have isCapture : captures[index]? = some value := by
        rw [List.idxOf?, List.findIdx?_eq_some_iff_getElem] at found
        obtain ⟨within, same, -⟩ := found
        rw [List.getElem?_eq_getElem within]
        exact congrArg some (by simpa using same)
      have outsideRegion := external value (List.mem_of_getElem? isCapture)
      simp only [isExternalOperand, decide_eq_true_eq] at outsideRegion
      have read := Env.getAll_getElem? isCaptured isCapture
      rw [← evaluated.outside value outsideRegion, isTensor] at read
      refine ⟨?_, fun slot isIndex below => ?_⟩
      · simp only [getBound, LoopBound.ofInput, ← sameCount,
          List.getElem?_append_right (Nat.le_add_right _ _), Nat.add_sub_cancel_left, ← read]
      · simp only [LoopBound.ofInput, Option.some.injEq] at isIndex
        omega

end

/-- What the verifier promises about a while operation and the operations outside it. -/
structure WhileOp.Verified (outer : List Op) (loop : WhileOp) : Prop where
  cond : Scoped outer loop.cond
  body : Scoped outer loop.body
  condTypes : loop.cond.argumentTypes = loop.operands.map Value.type
  bodyTypes : loop.body.argumentTypes = loop.operands.map Value.type
  returned : loop.body.returned.length = loop.operands.length
  /-- Neither region uses what the other defines. -/
  condUses : ∀ value ∈ loop.cond.walk, value.owner ∉ loop.body.owners
  bodyUses : ∀ value ∈ loop.body.walk, value.owner ∉ loop.cond.owners

/-- An environment a while operation can be evaluated in. -/
structure WhileOp.Outside (outer : List Op) (loop : WhileOp) (env : Env) : Prop where
  cond : ControlFlow.Outside outer loop.cond env
  body : ControlFlow.Outside outer loop.body env

/-- The captures serve both regions. -/
theorem WhileOp.Verified.serves (verified : loop.Verified outer) {region : Region}
    (member : region ∈ [loop.cond, loop.body]) :
    Serves outer region (collectCaptures outer [loop.cond, loop.body]) := by
  refine collectCaptures_serves ?_ member
  intro user isUser other isOther value uses external
  simp only [List.mem_cons, List.not_mem_nil, or_false] at isUser isOther
  rcases isUser with rfl | rfl <;> rcases isOther with rfl | rfl
  · exact external
  · simpa [isExternalOperand] using verified.condUses value uses
  · simpa [isExternalOperand] using verified.bodyUses value uses
  · exact external

/-- The comparison that makes a loop counted is in its condition. -/
theorem counterComparison_eq_some {counter limit : Value} (verified : Scoped outer loop.cond)
    (isComparison : counterComparison outer loop = some (counter, limit)) :
    counter.owner = .block loop.cond.block ∧ ∃ condition, loop.cond.returned[0]? = some condition ∧
      ∃ op ∈ loop.cond.ops, condition ∈ op.results ∧ op.kind = .compare .LT (some .SIGNED) ∧
        op.operands = [counter, limit] := by
  unfold counterComparison at isComparison
  split at isComparison
  · contradiction
  · rename_i condition isCondition
    split at isComparison
    · rename_i isOp
      split at isComparison
      · rename_i owner
        obtain ⟨rfl, rfl⟩ := Prod.mk.inj (Option.some.inj isComparison)
        have isResult := List.find?_some isOp
        refine ⟨owner, condition, isCondition, _, ?_, by simpa using isResult, rfl, rfl⟩
        refine (List.mem_append.mp (List.mem_of_find?_eq_some isOp)).resolve_right fun isOuter => ?_
        refine verified.outerUses _ isOuter _ List.mem_cons_self ?_
        rw [owner]
        exact loop.cond.block_mem_owners
      · contradiction
    · contradiction

/-- The addition that makes the next counter is in the body. -/
theorem counterStep_eq_some {step : Value} (verified : Scoped outer loop.body)
    (isStep : counterStep outer loop index = some step) :
    ∃ bodyCounter next, loop.body.arguments[index]? = some bodyCounter ∧
      loop.body.returned[index]? = some next ∧
      ∃ op ∈ loop.body.ops, next ∈ op.results ∧ op.kind = .add ∧
        (op.operands = [bodyCounter, step] ∨ op.operands = [step, bodyCounter]) := by
  unfold counterStep at isStep
  split at isStep
  · rename_i bodyCounter next isCounter isNext
    have own : bodyCounter.owner ∈ loop.body.owners := by
      have member := List.mem_of_getElem? isCounter
      simp only [Region.arguments, List.mem_mapIdx] at member
      obtain ⟨_, _, rfl⟩ := member
      exact loop.body.block_mem_owners
    split at isStep
    · rename_i id lhs rhs types regions isOp
      have isResult : next ∈ (Op.mk id .add [lhs, rhs] types regions).results := by
        simpa using List.find?_some isOp
      have inBody : ∀ value ∈ [lhs, rhs], value = bodyCounter →
          Op.mk id .add [lhs, rhs] types regions ∈ loop.body.ops := by
        rintro value member rfl
        refine (List.mem_append.mp (List.mem_of_find?_eq_some isOp)).resolve_right fun isOuter => ?_
        exact verified.outerUses _ isOuter value member own
      refine ⟨bodyCounter, next, isCounter, isNext, ?_⟩
      split at isStep
      · rename_i left
        obtain rfl := Option.some.inj isStep
        exact ⟨_, inBody lhs List.mem_cons_self left, isResult, rfl, .inl (by rw [left]; rfl)⟩
      · split at isStep
        · rename_i right
          obtain rfl := Option.some.inj isStep
          exact ⟨_, inBody rhs (List.mem_cons_of_mem _ List.mem_cons_self) right, isResult, rfl,
            .inr (by rw [right]; rfl)⟩
        · contradiction
    · contradiction
  · contradiction

/-- What an accepted loop consists of. -/
theorem analyzeCountedLoop_eq_some {bounds : CountedLoopInfo}
    (accepted : analyzeCountedLoop outer loop captures = some bounds) :
    ∃ counter limit step, counterComparison outer loop = some (counter, limit) ∧
      counterStep outer loop counter.index = some step ∧
      resolveBound outer loop.operands[counter.index]? (some counter.index) none loop.body captures
        loop.operands.length = some bounds.initial ∧
      resolveBound (loop.cond.ops ++ outer) (some limit) none (some loop.cond.block) loop.body
        captures loop.operands.length = some bounds.limit ∧
      resolveBound (loop.body.ops ++ outer) (some step) none (some loop.body.block) loop.body
        captures loop.operands.length = some bounds.step := by
  unfold analyzeCountedLoop at accepted
  split at accepted
  · contradiction
  · rename_i counter limit isComparison
    dsimp only at accepted
    split at accepted
    · rename_i initial limitBound stepBound isInitial isLimit isStep
      split at accepted
      · contradiction
      · obtain rfl := Option.some.inj accepted
        cases stepValue : counterStep outer loop counter.index with
        | none =>
          rw [stepValue] at isStep
          simp [resolveBound] at isStep
        | some step =>
          rw [stepValue] at isStep
          exact ⟨counter, limit, step, isComparison, stepValue, isInitial, isLimit, isStep⟩
    · contradiction

/-- A slot of the state that holds a signed integer. -/
def HoldsSigned (state : List Tensor) (index width : Nat) (value : Int) : Prop :=
  ∃ tensor bits, state[index]? = some tensor ∧ tensor.type.element = .signed width ∧
    tensor.elements = [bits] ∧ value = signedValue width bits

section
variable {outer : List Op} {loop : WhileOp} {env : Env} {captured state next : List Tensor}

section

variable (verified : loop.Verified outer) (outside : loop.Outside outer env)
include verified outside

/-- The test of a counted loop compares the counter with the limit. -/
theorem test_counter {condition : Value} (single : loop.cond.returned = [condition])
    (isCaptured : env.getAll (collectCaptures outer [loop.cond, loop.body]) = some captured)
    {counter limit : Value} (isComparison : counterComparison outer loop = some (counter, limit))
    {bound : LoopBound}
    (resolved : resolveBound (loop.cond.ops ++ outer) (some limit) none (some loop.cond.block)
      loop.body (collectCaptures outer [loop.cond, loop.body]) loop.operands.length = some bound)
    {flag : Bool} (tested : testOf (loop.cond.eval kernels fuel env) state = some flag) :
    state.map Tensor.type = loop.operands.map Value.type ∧
      bound.Invariant loop.body loop.operands.length ∧
      ∃ width value limitBits, counter.type.element = .signed width ∧ width ≤ 32 ∧
        HoldsSigned state counter.index width value ∧
        getBound (state ++ captured) bound = some (signedValue width limitBits) ∧
        flag = decide (value < signedValue width limitBits) := by
  unfold testOf at tested
  split at tested
  · rename_i result isResult
    obtain ⟨last, evaluated, returned⟩ := Region.eval_eq_some verified.cond outside.cond isResult
    obtain ⟨owner, condition', isCondition, op, member, isOpResult, kind, operands⟩ :=
      counterComparison_eq_some verified.cond isComparison
    obtain rfl : condition = condition' := by simpa [single] using isCondition
    obtain ⟨tensors, results, regions, isOperands, isResults, types, bound'⟩ :=
      evaluated.holds op member
    have types' : state.map Tensor.type = loop.operands.map Value.type :=
      evaluated.types.trans verified.condTypes
    -- The comparison had its two operands.
    rw [operands] at isOperands
    simp only [Env.getAll, List.mapM_cons, List.mapM_nil, Option.bind_eq_bind,
      Option.bind_eq_some_iff, Option.pure_def, Option.some.injEq] at isOperands
    obtain ⟨lhs, isLhs, rest, ⟨rhs, isRhs, _, rfl, rfl⟩, rfl⟩ := isOperands
    rw [kind, Kind.apply, Option.map_eq_some_iff] at isResults
    obtain ⟨compared, isCompared, rfl⟩ := isResults
    have isFlag : last.get condition = some compared := by
      rw [bound' condition isOpResult]
      simp only [Op.results, ← types, List.map_cons, List.map_nil, List.mapIdx_cons,
        List.mapIdx_nil, List.mem_singleton] at isOpResult
      rw [isOpResult]
      rfl
    obtain rfl : compared = result := by
      rw [single] at returned
      simpa [Env.getAll, isFlag] using returned
    unfold compareSigned at isCompared
    split at isCompared
    · rename_i sameType
      split at isCompared
      · rename_i width element
        obtain rfl := Option.some.inj isCompared
        have limitElement : limit.type.element = .signed width := by
          rw [← last.typed isRhs, ← sameType, element]
        have isScalar := resolveBound_scalar resolved
        obtain ⟨one, narrow⟩ := isScalarInteger_signed isScalar limitElement
        have oneRhs : rhs.type.numElements = 1 := by rw [last.typed isRhs, one]
        obtain ⟨limitBits, rhsBits⟩ := Tensor.elements_of_numElements oneRhs
        obtain ⟨counterBits, lhsBits⟩ := Tensor.elements_of_numElements (sameType ▸ oneRhs)
        have count : state.length = loop.operands.length := by
          simpa using congrArg List.length types'
        have usesLimit : limit ∈ loop.cond.walk :=
          Region.operand_mem_walk member (by rw [operands]; simp)
        obtain ⟨read, invariant⟩ := resolveBound_eval verified.cond outside.cond evaluated isCaptured
          (verified.serves (by simp)).external count usesLimit resolved isRhs limitElement
        have usesCounter : counter ∈ loop.cond.walk :=
          Region.operand_mem_walk member (by rw [operands]; simp)
        have isCounter : state[counter.index]? = some lhs := by
          rw [← evaluated.argument counter (verified.cond.arguments counter usesCounter owner), isLhs]
        refine ⟨types', invariant, width, signedValue width counterBits, limitBits, ?_, narrow,
          ⟨lhs, counterBits, isCounter, element, lhsBits, rfl⟩, ?_, ?_⟩
        · rw [← last.typed isLhs, element]
        · rw [read, readIntegerScalar_signed (by rw [last.typed isRhs, limitElement]) narrow rhsBits]
        · simp only [Tensor.scalar, Tensor.zip, lhsBits, rhsBits, List.zipWith_cons_cons,
            List.zipWith_nil_left, Option.map_some, Option.some.injEq, Direction.holds] at tested
          rw [← tested]
          by_cases less : signedValue width counterBits < signedValue width limitBits <;>
            simp [less]
      · contradiction
    · contradiction
  · contradiction

/-- The body of a counted loop adds the step to the counter. -/
theorem body_counter
    (isCaptured : env.getAll (collectCaptures outer [loop.cond, loop.body]) = some captured)
    {index : Nat} {step : Value} (isStep : counterStep outer loop index = some step)
    {bound : LoopBound}
    (resolved : resolveBound (loop.body.ops ++ outer) (some step) none (some loop.body.block)
      loop.body (collectCaptures outer [loop.cond, loop.body]) loop.operands.length = some bound)
    {width : Nat} {value : Int} (counts : HoldsSigned state index width value)
    (isNext : loop.body.eval kernels fuel env state = some next) :
    bound.Invariant loop.body loop.operands.length ∧
      ∃ stepBits, getBound (state ++ captured) bound = some (signedValue width stepBits) ∧
        HoldsSigned next index width ((value + signedValue width stepBits).bmod (2 ^ width)) := by
  obtain ⟨last, evaluated, returned⟩ := Region.eval_eq_some verified.body outside.body isNext
  obtain ⟨bodyCounter, nextValue, isCounter, isNextValue, op, member, isResult, kind, operands⟩ :=
    counterStep_eq_some verified.body isStep
  obtain ⟨tensor, bits, isTensor, element, tensorBits, rfl⟩ := counts
  obtain ⟨tensors, results, regions, isOperands, isResults, types, bound'⟩ :=
    evaluated.holds op member
  have count : state.length = loop.operands.length := by
    simpa using congrArg List.length (evaluated.types.trans verified.bodyTypes)
  have isArgument : last.get bodyCounter = some tensor := by
    rw [evaluated.argument bodyCounter (List.mem_of_getElem? isCounter), ← isTensor]
    rw [Region.arguments, List.getElem?_mapIdx, Option.map_eq_some_iff] at isCounter
    obtain ⟨_, _, rfl⟩ := isCounter
    rfl
  have usesStep : step ∈ loop.body.walk :=
    Region.operand_mem_walk member (by rcases operands with same | same <;> rw [same] <;> simp)
  -- In either order the addition is of the counter and the step.
  obtain ⟨stepTensor, isStepTensor, added, sameType, isAdded, rfl⟩ :
      ∃ stepTensor, last.get step = some stepTensor ∧ ∃ added, stepTensor.type = tensor.type ∧
        (addSigned tensor stepTensor = some added ∨ addSigned stepTensor tensor = some added) ∧
        results = [added] := by
    rcases operands with same | same <;>
    · rw [same] at isOperands
      simp only [Env.getAll, List.mapM_cons, List.mapM_nil, Option.bind_eq_bind,
        Option.bind_eq_some_iff, Option.pure_def, Option.some.injEq] at isOperands
      obtain ⟨first, isFirst, rest, ⟨second, isSecond, _, rfl, rfl⟩, rfl⟩ := isOperands
      simp only [kind, Kind.apply] at isResults
      split at isResults
      · rename_i sameType
        first
        | obtain rfl := Option.some.inj (isArgument.symm.trans isFirst)
          rw [element] at isResults
          rw [Option.map_eq_some_iff] at isResults
          obtain ⟨added, isAdded, rfl⟩ := isResults
          exact ⟨second, isSecond, added, sameType.symm, .inl isAdded, rfl⟩
        | obtain rfl := Option.some.inj (isArgument.symm.trans isSecond)
          rw [sameType, element] at isResults
          rw [Option.map_eq_some_iff] at isResults
          obtain ⟨added, isAdded, rfl⟩ := isResults
          exact ⟨first, isFirst, added, sameType, .inr isAdded, rfl⟩
      · contradiction
  have stepElement : step.type.element = .signed width := by
    rw [← last.typed isStepTensor, sameType, element]
  obtain ⟨one, narrow⟩ := isScalarInteger_signed (resolveBound_scalar resolved) stepElement
  have oneStep : stepTensor.type.numElements = 1 := by rw [last.typed isStepTensor, one]
  obtain ⟨stepBits, stepTensorBits⟩ := Tensor.elements_of_numElements oneStep
  obtain ⟨read, invariant⟩ := resolveBound_eval verified.body outside.body evaluated isCaptured
    (verified.serves (by simp)).external count usesStep resolved isStepTensor stepElement
  have isSlot : next[index]? = some added := by
    rw [← Env.getAll_getElem? returned isNextValue, bound' nextValue isResult]
    simp only [Op.results, ← types, List.map_cons, List.map_nil, List.mapIdx_cons,
      List.mapIdx_nil, List.mem_singleton] at isResult
    rw [isResult]
    rfl
  refine ⟨invariant, stepBits, ?_, added, (bits + stepBits) % 2 ^ width, isSlot, ?_⟩
  · rw [read, readIntegerScalar_signed (by rw [sameType, element]) narrow stepTensorBits]
  · rw [signedValue_add]
    rcases isAdded with isAdded | isAdded <;>
    · simp only [addSigned, sameType, element, dite_true, Option.some.injEq] at isAdded
      subst isAdded
      simp [Tensor.zip, tensorBits, stepTensorBits, Nat.add_comm]

section

variable (isNext : loop.body.eval kernels fuel env state = some next)
include isNext

/-- The body returns the slots it passes through as they were. -/
theorem body_passes (passes : passesThrough loop.body index) : next[index]? = state[index]? := by
  obtain ⟨last, evaluated, returned⟩ := Region.eval_eq_some verified.body outside.body isNext
  unfold passesThrough at passes
  split at passes
  · rename_i value argument isReturned isArgument
    obtain rfl : value = argument := by simpa using passes
    rw [← Env.getAll_getElem? returned isReturned,
      evaluated.argument value (List.mem_of_getElem? isArgument)]
    rw [Region.arguments, List.getElem?_mapIdx, Option.map_eq_some_iff] at isArgument
    obtain ⟨_, _, rfl⟩ := isArgument
    rfl
  · contradiction

/-- The body returns as many values as it takes. -/
theorem body_length :
    state.length = loop.operands.length ∧ next.length = loop.operands.length := by
  obtain ⟨last, evaluated, returned⟩ := Region.eval_eq_some verified.body outside.body isNext
  constructor
  · simpa using congrArg List.length (evaluated.types.trans verified.bodyTypes)
  · rw [← verified.returned]
    simpa using congrArg List.length (Env.getAll_types returned)

/-- A bound is the same before and after the body. -/
theorem getBound_invariant (invariant : bound.Invariant loop.body loop.operands.length) :
    getBound (next ++ captured) bound = getBound (state ++ captured) bound := by
  obtain ⟨count, countNext⟩ := body_length verified outside isNext
  unfold getBound
  split
  · rfl
  · rename_i index isIndex
    by_cases slot : index < loop.operands.length
    · rw [List.getElem?_append_left (by omega), List.getElem?_append_left (by omega),
        body_passes verified outside isNext (invariant index isIndex slot)]
    · rw [List.getElem?_append_right (by omega), List.getElem?_append_right (by omega), count,
        countNext]

end

end

end

/-- Writing selected slots of one state over another. -/
theorem writeBack_eq {stateCount : Nat} (next inputs : List Tensor)
    (below : ∀ index ∈ indices, index < stateCount) (enough : stateCount ≤ next.length)
    (within : stateCount ≤ inputs.length) :
    ∃ written, writeBack stateCount indices (indices.filterMap fun index => next[index]?) inputs =
        some written ∧ written.length = inputs.length ∧
      ∀ slot, written[slot]? = if slot ∈ indices then next[slot]? else inputs[slot]? := by
  induction indices generalizing inputs with
  | nil => exact ⟨inputs, rfl, rfl, fun slot => by simp⟩
  | cons index indices ih =>
    have isBelow := below index List.mem_cons_self
    have isSlot : next[index]? = some next[index] := List.getElem?_eq_getElem (by omega)
    obtain ⟨written, isWritten, sameLength, slots⟩ :=
      ih (inputs.set index next[index])
        (fun other member => below other (List.mem_cons_of_mem _ member))
        (by rw [List.length_set]; exact within)
    refine ⟨written, ?_, by rw [sameLength, List.length_set], fun slot => ?_⟩
    · rw [List.filterMap_cons_some isSlot, writeBack, if_pos isBelow]
      exact isWritten
    · rw [slots slot]
      by_cases later : slot ∈ indices
      · rw [if_pos later, if_pos (List.mem_cons_of_mem _ later)]
      · rw [if_neg later, List.getElem?_set]
        by_cases here : index = slot
        · rw [if_pos here, if_pos (by omega), if_pos (by rw [here]; exact List.mem_cons_self),
            ← here, isSlot]
        · rw [if_neg here, if_neg fun member => ?_]
          exact (List.mem_cons.mp member).elim (fun same => here same.symm) later

/-- The slots the body changes. -/
theorem mem_computeLoopOutputs {body : Region} :
    index ∈ computeLoopOutputs body ↔ index < body.returned.length ∧ ¬passesThrough body index := by
  simp [computeLoopOutputs]

/-- What replaces the results of a loop whose outputs are slots of the last state. -/
theorem replacements_eq {operands : List Tensor} (below : ∀ index ∈ indices, index < last.length)
    (same : operands.length = last.length)
    (slots : ∀ index, index ∉ indices → operands[index]? = last[index]?) :
    replacements operands indices (indices.filterMap fun index => last[index]?) = last := by
  induction indices generalizing operands with
  | nil => exact List.ext_getElem? fun index => slots index List.not_mem_nil
  | cons index indices ih =>
    have isBelow := below index List.mem_cons_self
    have isSlot : last[index]? = some last[index] := List.getElem?_eq_getElem isBelow
    rw [List.filterMap_cons_some isSlot, replacements]
    refine ih (fun other member => below other (List.mem_cons_of_mem _ member))
      (by rw [List.length_set]; exact same) fun slot other => ?_
    rw [List.getElem?_set]
    by_cases here : index = slot
    · rw [if_pos here, if_pos (by omega), ← here, isSlot]
    · rw [if_neg here]
      exact slots slot fun member =>
        (List.mem_cons.mp member).elim (fun same => here same.symm) other

/-- Reading slots that exist. -/
theorem mapM_getElem? (below : ∀ index ∈ indices, index < last.length) :
    (indices.mapM fun index => last[index]?) =
      some (indices.filterMap fun index => last[index]?) := by
  induction indices with
  | nil => rfl
  | cons index indices ih =>
    have isBelow := below index List.mem_cons_self
    have isSlot : last[index]? = some last[index] := List.getElem?_eq_getElem isBelow
    rw [List.mapM_cons, isSlot, ih fun other member => below other (List.mem_cons_of_mem _ member),
      List.filterMap_cons_some isSlot]
    rfl

section
variable {outer : List Op} {loop : WhileOp} {env : Env} {captured state next : List Tensor}

/-- The operation a while operation is converted to. -/
theorem convertWhile_eq_some {op : WhileLoopOp} (converted : convertWhile outer loop = some op) :
    ∃ condition, loop.cond.returned = [condition] ∧
      op.bounds = analyzeCountedLoop outer loop (collectCaptures outer [loop.cond, loop.body]) ∧
      op.stateCount = loop.operands.length ∧ op.outputIndices = computeLoopOutputs loop.body ∧
      op.inputs = loop.operands ++ collectCaptures outer [loop.cond, loop.body] ∧
      op.body = outlineRegion outer loop.body (loop.operands.map Value.type)
        (collectCaptures outer [loop.cond, loop.body]) (computeLoopOutputs loop.body) ∧
      (op.bounds.isSome → op.condition = none) := by
  unfold convertWhile at converted
  split at converted
  · rename_i condition single
    split at converted
    · obtain rfl := Option.some.inj converted
      refine ⟨condition, single, rfl, rfl, rfl, rfl, rfl, fun counted => ?_⟩
      split
      · rfl
      · rename_i none
        simp [none] at counted
    · contradiction
  · contradiction

/-- The runtime's iteration does what the body does, on the state in front of the captures. -/
theorem executeBody_eq (verified : loop.Verified outer) (outside : loop.Outside outer env)
    {op : WhileLoopOp} (converted : convertWhile outer loop = some op)
    (isCaptured : env.getAll (collectCaptures outer [loop.cond, loop.body]) = some captured)
    (isNext : loop.body.eval kernels fuel env state = some next) :
    op.executeBody kernels fuel (state ++ captured) = some (next ++ captured) := by
  obtain ⟨condition, -, -, isCount, isOutputs, -, isBody, -⟩ := convertWhile_eq_some converted
  obtain ⟨count, countNext⟩ := body_length verified outside isNext
  have outputs := outlineRegion_eval kernels fuel verified.body (verified.serves (by simp))
    outside.body isCaptured isNext (computeLoopOutputs loop.body)
  rw [verified.bodyTypes] at outputs
  have below : ∀ index ∈ computeLoopOutputs loop.body, index < loop.operands.length :=
    fun index member => verified.returned ▸ (mem_computeLoopOutputs.mp member).1
  obtain ⟨written, isWritten, sameLength, slots⟩ :=
    writeBack_eq next (state ++ captured) below (by omega) (by simp; omega)
  simp only [WhileLoopOp.executeBody, isBody, isCount, isOutputs, outputs, isWritten]
  congr 1
  refine List.ext_getElem? fun slot => ?_
  rw [slots slot]
  by_cases isSlot : slot < loop.operands.length
  · rw [List.getElem?_append_left (by omega), List.getElem?_append_left (by omega)]
    split
    · rfl
    · rename_i other
      rw [mem_computeLoopOutputs, verified.returned] at other
      refine (body_passes verified outside isNext ?_).symm
      by_contra changes
      exact other ⟨isSlot, changes⟩
  · rw [if_neg fun member => isSlot (below slot member), List.getElem?_append_right (by omega),
      List.getElem?_append_right (by omega), count, countNext]

end

/-- The width of the counter, the left side of the comparison. -/
def counterWidth (outer : List Op) (loop : WhileOp) : Nat :=
  match counterComparison outer loop with
  | some (counter, _) =>
    match counter.type.element with
    | .signed width => width
    | _ => 0
  | none => 0

/-- The trip count the runtime computes in 64 bits is the exact one. -/
theorem tripCount_isTripCount {initial limit step : Int} (low : -2 ^ 31 ≤ initial)
    (high : limit < 2 ^ 31) (below : initial < limit) (positive : 0 < step)
    (small : step < 2 ^ 31) : IsTripCount initial limit step (tripCount initial limit step) := by
  have distance : (limit % 2 ^ 64 - initial % 2 ^ 64) % 2 ^ 64 = limit - initial := by omega
  have rounded : (limit - initial + step - 1) % 2 ^ 64 = limit - initial + step - 1 := by omega
  have divisor : step % 2 ^ 64 = step := by omega
  have quotient : (tripCount initial limit step : Int) = (limit - initial + step - 1) / step := by
    rw [tripCount]
    simp only [distance, divisor, rounded]
    exact Int.toNat_of_nonneg
      (Int.ediv_nonneg (show 0 ≤ limit - initial + step - 1 by omega) positive.le)
  have lower := Int.mul_ediv_self_le (x := limit - initial + step - 1) (Int.ne_of_gt positive)
  have upper := Int.lt_mul_ediv_self_add (x := limit - initial + step - 1) positive
  rw [← quotient] at lower upper
  refine ⟨fun _ => ⟨?_, ?_⟩, fun above => absurd above (by omega)⟩
  · linarith [Int.sub_mul (tripCount initial limit step) 1 step,
      Int.mul_comm step (tripCount initial limit step)]
  · linarith [Int.mul_comm step (tripCount initial limit step)]

/-- The counter of a loop after some iterations. -/
def counterAt (body : Denotation) (index : Nat) (state : List Tensor) (count : Nat) : Int :=
  (((repeated body count state).bind fun state => state[index]?).bind readIntegerScalar).getD 0

theorem counterAt_eq {body : Denotation} {state : List Tensor} {value : Int}
    (reaches : repeated body count state = some last) (narrow : width ≤ 32)
    (counts : HoldsSigned last index width value) : counterAt body index state count = value := by
  obtain ⟨tensor, bits, isTensor, element, elements, rfl⟩ := counts
  simp [counterAt, reaches, isTensor, readIntegerScalar_signed element narrow elements]

/-- The tensors of two lists of values. -/
theorem Env.getAll_append {env : Env} {first second : List Value} {tensors : List Tensor}
    (all : env.getAll (first ++ second) = some tensors) :
    ∃ front back, env.getAll first = some front ∧ env.getAll second = some back ∧
      tensors = front ++ back := by
  simp only [Env.getAll, List.mapM_append, Option.bind_eq_bind, Option.bind_eq_some_iff,
    Option.pure_def, Option.some.injEq] at all
  obtain ⟨front, isFront, back, isBack, rfl⟩ := all
  exact ⟨front, back, isFront, isBack, rfl⟩

section
variable {outer : List Op} {loop : WhileOp} {env : Env} {captured state : List Tensor}

/-- The initial bound is the counter's slot in the operands. -/
theorem resolveBound_initial (outside : loop.Outside outer env) (captured : List Tensor)
    {captures : List Value}
    (isState : env.getAll loop.operands = some state) {index width : Nat} {value : Int}
    {bound : LoopBound} (narrow : width ≤ 32) (counts : HoldsSigned state index width value)
    (resolved : resolveBound outer loop.operands[index]? (some index) none loop.body captures
      loop.operands.length = some bound) : getBound (state ++ captured) bound = some value := by
  obtain ⟨tensor, bits, isTensor, element, elements, rfl⟩ := counts
  have read := readIntegerScalar_signed element narrow elements
  cases isOperand : loop.operands[index]? with
  | none =>
    rw [isOperand] at resolved
    simp [resolveBound] at resolved
  | some operand =>
    have isRead := Env.getAll_getElem? isState isOperand
    rw [isTensor] at isRead
    have sameType := env.typed isRead
    rw [isOperand, resolveBound] at resolved
    split at resolved
    · rename_i constant isConstant
      obtain rfl := Option.some.inj resolved
      have same := getScalarInteger_eval (sameType ▸ element) sameType (fun other isOther =>
        Option.some.inj ((outside.body.evaluated operand other isOther).symm.trans isRead)) isConstant
      exact same.symm.trans read
    · split at resolved
      · obtain rfl := Option.some.inj resolved
        have within : index < state.length := (List.getElem?_eq_some_iff.mp isTensor).1
        simp only [getBound, LoopBound.ofInput, List.getElem?_append_left within, isTensor, read]
      · contradiction

/-- The meaning of a while operation: the last state. -/
def WhileOp.eval (kernels : Kernels) (fuel : Nat) (env : Env) (loop : WhileOp)
    (state : List Tensor) : Option (List Tensor) :=
  Kind.whileLoop.apply kernels fuel (loop.operands.map Value.type) state
    (Region.evalAll kernels fuel env [loop.cond, loop.body])

/-- What the results of a converted while operation are replaced with. -/
def WhileLoopOp.results (kernels : Kernels) (fuel : Nat) (op : WhileLoopOp) (inputs : List Tensor) :
    Option (List Tensor) :=
  (op.run kernels fuel inputs).map (replacements (inputs.take op.stateCount) op.outputIndices)

/-- The outputs of a loop that ended and the operands it passes through make up its last state. -/
theorem outputs_last (verified : loop.Verified outer) {op : WhileLoopOp}
    (converted : convertWhile outer loop = some op) (isState : state.length = loop.operands.length)
    (count : last.length = loop.operands.length)
    (kept : ∀ index, passesThrough loop.body index → last[index]? = state[index]?) :
    (op.outputIndices.mapM fun index => (last ++ captured)[index]?).map
        (replacements ((state ++ captured).take op.stateCount) op.outputIndices) = some last := by
  obtain ⟨-, -, -, isCount, isOutputs, -, -, -⟩ := convertWhile_eq_some converted
  have below : ∀ index ∈ computeLoopOutputs loop.body, index < last.length := fun index member => by
    rw [count, ← verified.returned]
    exact (mem_computeLoopOutputs.mp member).1
  have outputs : (computeLoopOutputs loop.body).mapM (fun index => (last ++ captured)[index]?) =
      some ((computeLoopOutputs loop.body).filterMap fun index => last[index]?) := by
    rw [mapM_getElem? fun index member => by
      rw [List.length_append]
      exact Nat.lt_add_right _ (below index member)]
    exact congrArg some (List.filterMap_congr fun index member =>
      List.getElem?_append_left (below index member))
  rw [isCount, isOutputs, outputs, Option.map_some, ← isState, List.take_left]
  congr 1
  refine replacements_eq below (by rw [count, isState]) fun index other => ?_
  rw [mem_computeLoopOutputs, verified.returned] at other
  by_cases slot : index < loop.operands.length
  · refine (kept index ?_).symm
    by_contra changes
    exact other ⟨slot, changes⟩
  · rw [List.getElem?_eq_none (by omega), List.getElem?_eq_none (by omega)]

/-- The body keeps the number of slots and those it passes through. -/
theorem repeated_kept (verified : loop.Verified outer) (outside : loop.Outside outer env)
    (isState : state.length = loop.operands.length)
    (reaches : repeated (loop.body.eval kernels fuel env) count state = some last) :
    last.length = loop.operands.length ∧
      ∀ index, passesThrough loop.body index → last[index]? = state[index]? :=
  repeated_invariant
    (fun current => current.length = loop.operands.length ∧
      ∀ index, passesThrough loop.body index → current[index]? = state[index]?)
    (fun _ _ invariant isNext => ⟨(body_length verified outside isNext).2,
      fun index passes => (body_passes verified outside isNext passes).trans
        (invariant.2 index passes)⟩) ⟨isState, fun _ _ => rfl⟩ reaches

/-- A counted loop returns the state after as many iterations. -/
theorem results_counted (verified : loop.Verified outer) (outside : loop.Outside outer env)
    {op : WhileLoopOp} (converted : convertWhile outer loop = some op) {bounds : CountedLoopInfo}
    (counted : op.bounds = some bounds)
    (isCaptured : env.getAll (collectCaptures outer [loop.cond, loop.body]) = some captured)
    (isState : state.length = loop.operands.length) {trips : Nat}
    (isTrips : countedTrips (state ++ captured) bounds = some trips)
    (reaches : repeated (loop.body.eval kernels fuel env) trips state = some last) :
    op.results kernels fuel (state ++ captured) = some last := by
  obtain ⟨-, -, -, -, -, -, -, isCondition⟩ := convertWhile_eq_some converted
  have repeats : repeated (op.executeBody kernels fuel) trips (state ++ captured) =
      some (last ++ captured) :=
    repeated_embed (fun _ => True) (fun _ _ _ _ => trivial)
      (fun state next _ isNext => executeBody_eq verified outside converted isCaptured isNext)
      trivial reaches
  obtain ⟨count, kept⟩ := repeated_kept verified outside isState reaches
  have run : op.run kernels fuel (state ++ captured) =
      op.outputIndices.mapM fun index => (last ++ captured)[index]? := by
    simp only [WhileLoopOp.run, isCondition (by rw [counted]; rfl), counted, isTrips, repeats,
      Option.bind_some]
  rw [WhileLoopOp.results, run]
  exact outputs_last verified converted isState count kept

end

/-- A counted loop that ends is executed correctly if and only if no addition to a counter below
the limit overflows: what the runtime returns is the last state of the loop exactly then. -/
theorem counted_loop_iff (kernels : Kernels) (fuel : Nat) {outer : List Op} {loop : WhileOp}
    {env : Env} (verified : loop.Verified outer) (outside : loop.Outside outer env)
    {op : WhileLoopOp} (converted : convertWhile outer loop = some op) {bounds : CountedLoopInfo}
    (counted : op.bounds = some bounds) {inputs : List Tensor}
    (isInputs : env.getAll op.inputs = some inputs)
    (positive : ∀ step, getBound inputs bounds.step = some step → 0 < step) {last : List Tensor}
    (ends : loop.eval kernels fuel env (inputs.take op.stateCount) = some last) :
    ∃ initial limit, getBound inputs bounds.initial = some initial ∧
      getBound inputs bounds.limit = some limit ∧
      (op.results kernels fuel inputs = some last ↔
        ∀ step, getBound inputs bounds.step = some step →
          StaysInRange (2 ^ (counterWidth outer loop - 1)) initial limit step) := by
  obtain ⟨condition, single, isBounds, isCount, -, isInput, -, -⟩ := convertWhile_eq_some converted
  rw [isInput] at isInputs
  obtain ⟨state, captured, isState, isCaptured, rfl⟩ := Env.getAll_append isInputs
  have count : state.length = loop.operands.length := by
    simpa using congrArg List.length (Env.getAll_types isState)
  rw [isCount, ← count, List.take_left] at ends
  obtain ⟨counter, limitValue, stepValue, isComparison, isStep, initialBound, limitBound, stepBound⟩ :=
    analyzeCountedLoop_eq_some (isBounds.symm.trans counted)
  obtain ⟨iterations, isLast, stop, before⟩ := loop_eq_some ends
  -- Every state of the loop was tested, so its counter is a signed integer.
  have tests : ∀ {current : List Tensor} {flag : Bool},
      testOf (loop.cond.eval kernels fuel env) current = some flag → _ := fun tested =>
    test_counter verified outside single isCaptured isComparison limitBound tested
  obtain ⟨first, firstFlag, reachesFirst, testedFirst⟩ : ∃ first flag,
      repeated (loop.body.eval kernels fuel env) 0 state = some first ∧
        testOf (loop.cond.eval kernels fuel env) first = some flag := by
    rcases Nat.eq_zero_or_pos iterations with rfl | some
    · exact ⟨last, false, isLast, stop⟩
    · obtain ⟨middle, isMiddle, holds⟩ := before 0 some
      exact ⟨middle, true, isMiddle, holds⟩
  obtain rfl : state = first := Option.some.inj reachesFirst
  obtain ⟨-, invariant, width, initial, limitBits, element, narrow, counts, isLimit, flag⟩ :=
    tests testedFirst
  have isInitial := resolveBound_initial outside captured isState narrow counts initialBound
  have isWidth : counterWidth outer loop = width := by
    simp only [counterWidth, isComparison, element]
  have unchanged {bound : LoopBound} {value : Int} {steps : Nat} {current : List Tensor}
      (invariant : bound.Invariant loop.body loop.operands.length)
      (isValue : getBound (state ++ captured) bound = some value)
      (reaches : repeated (loop.body.eval kernels fuel env) steps state = some current) :
      getBound (current ++ captured) bound = some value :=
    repeated_invariant (fun current => getBound (current ++ captured) bound = some value)
      (fun _ _ same isNext => (getBound_invariant verified outside isNext invariant).trans same)
      isValue reaches
  -- In each state reached, the test compares the counter with the same limit.
  have counters : ∀ (steps : Nat) {current : List Tensor} {flag : Bool},
      repeated (loop.body.eval kernels fuel env) steps state = some current →
      testOf (loop.cond.eval kernels fuel env) current = some flag →
      ∃ value, HoldsSigned current counter.index width value ∧
        counterAt (loop.body.eval kernels fuel env) counter.index state steps = value ∧
        flag = decide (value < signedValue width limitBits) := by
    intro steps current flag reaches tested
    obtain ⟨-, -, otherWidth, value, otherBits, otherElement, -, counts, isOther, isFlag⟩ :=
      tests tested
    obtain rfl : width = otherWidth := by
      rw [element] at otherElement
      exact ElementType.signed.inj otherElement
    have sameLimit := Option.some.inj ((unchanged invariant isLimit reaches).symm.trans isOther)
    exact ⟨value, counts, counterAt_eq reaches narrow counts, by rw [sameLimit]; exact isFlag⟩
  refine ⟨initial, signedValue width limitBits, isInitial, isLimit, ?_⟩
  rw [isWidth]
  by_cases below : initial < signedValue width limitBits
  · -- The loop starts, so the step was read and the loop is a run of the counter.
    have runs : 0 < iterations := by
      by_contra none
      obtain rfl : iterations = 0 := by omega
      obtain rfl : state = last := Option.some.inj isLast
      obtain ⟨value, -, isValue, isFlag⟩ := counters 0 rfl stop
      rw [counterAt_eq rfl narrow counts] at isValue
      subst isValue
      simp [below] at isFlag
    have bodies : ∀ steps < iterations, ∀ current,
        repeated (loop.body.eval kernels fuel env) steps state = some current →
        ∃ next, loop.body.eval kernels fuel env current = some next ∧
          repeated (loop.body.eval kernels fuel env) (steps + 1) state = some next := by
      intro steps less current reaches
      obtain ⟨next, isNext⟩ := repeated_prefix isLast less
      have step := isNext
      rw [repeated_succ, reaches] at step
      exact ⟨next, step, isNext⟩
    obtain ⟨second, isSecond, -⟩ := bodies 0 runs state rfl
    obtain ⟨stepInvariant, stepBits, isStepValue, -⟩ :=
      body_counter verified outside isCaptured isStep stepBound counts isSecond
    have wide : width ≠ 0 := by
      rintro rfl
      obtain ⟨_, _, -, -, -, rfl⟩ := counts
      simp [signedValue, BitVec.toInt_zero_length] at below
    have modulus : 2 ^ width = 2 * 2 ^ (width - 1) := by
      rw [← Nat.pow_succ', Nat.succ_eq_add_one, Nat.sub_one_add_one wide]
    have run : CounterRun (2 ^ (width - 1)) initial (signedValue width limitBits)
        (signedValue width stepBits) iterations
        (counterAt (loop.body.eval kernels fuel env) counter.index state) := by
      refine ⟨counterAt_eq rfl narrow counts, ?_, ?_, ?_, positive _ isStepValue, ?_,
        (signedValue_range width limitBits).2, (signedValue_range width stepBits).2⟩
      · intro steps' less
        obtain ⟨current, reaches, holds⟩ := before steps' less
        obtain ⟨value, countsHere, isValue, -⟩ := counters steps' reaches holds
        obtain ⟨next, isNext, reachesNext⟩ := bodies steps' less current reaches
        obtain ⟨-, otherBits, isOther, countsNext⟩ :=
          body_counter verified outside isCaptured isStep stepBound countsHere isNext
        rw [← Option.some.inj ((unchanged stepInvariant isStepValue reaches).symm.trans isOther),
          modulus] at countsNext
        rw [counterAt_eq reachesNext narrow countsNext, isValue]
      · intro steps' less
        obtain ⟨current, reaches, holds⟩ := before steps' less
        obtain ⟨value, -, isValue, isFlag⟩ := counters steps' reaches holds
        rw [isValue]
        exact of_decide_eq_true isFlag.symm
      · obtain ⟨value, -, isValue, isFlag⟩ := counters iterations isLast stop
        rw [isValue]
        exact Int.not_lt.mp (of_decide_eq_false isFlag.symm)
      · obtain ⟨_, bits, -, -, -, rfl⟩ := counts
        exact (signedValue_range width bits).1
    have half : ((2 ^ (width - 1) : Nat) : Int) ≤ 2 ^ 31 := by
      exact_mod_cast Nat.pow_le_pow_right (by decide) (show width - 1 ≤ 31 by omega)
    have exact := tripCount_isTripCount (Int.le_trans (Int.neg_le_neg half) run.initialLow)
      (Int.lt_of_lt_of_le run.limitHigh half) below run.positive
      (Int.lt_of_lt_of_le run.stepHigh half)
    have trips : countedTrips (state ++ captured) bounds =
        some (tripCount initial (signedValue width limitBits) (signedValue width stepBits)) := by
      simp only [countedTrips, isInitial, isLimit, isStepValue, below, run.positive, if_true]
    obtain ⟨reached, reaches⟩ := repeated_prefix isLast (run.trips_le exact)
    rw [results_counted verified outside converted counted isCaptured count trips reaches]
    have whole := run.trips_eq_iff exact
    constructor
    · intro same step isOther
      obtain rfl := Option.some.inj same
      rw [← Option.some.inj (isStepValue.symm.trans isOther)]
      exact whole.mp (by simp only [counterAt, reaches, isLast])
    · intro stays
      have stays := stays _ isStepValue
      have same := run.trips_eq exact (by push_cast; exact stays)
      rw [same] at reaches
      exact reaches.symm.trans isLast
  · -- The loop does not start, and neither does the runtime's.
    have none : iterations = 0 := by
      by_contra runs
      obtain ⟨current, reaches, holds⟩ := before 0 (Nat.pos_of_ne_zero runs)
      obtain ⟨value, -, isValue, isFlag⟩ := counters 0 reaches holds
      rw [counterAt_eq rfl narrow counts] at isValue
      subst isValue
      exact below (of_decide_eq_true isFlag.symm)
    subst none
    have trips : countedTrips (state ++ captured) bounds = some 0 := by
      simp only [countedTrips, isInitial, isLimit, below, if_false]
    rw [results_counted verified outside converted counted isCaptured count trips isLast]
    refine iff_of_true rfl fun step isOther steps less => absurd less ?_
    have grows : (0 : Int) ≤ steps * step :=
      Int.mul_nonneg (by omega) (positive step isOther).le
    omega

end

/-- The type of 32-bit scalars. -/
def scalar32 : TensorType := ⟨[], .signed 32⟩

/-- A 32-bit scalar. -/
def integer32 (bits : Nat) : Tensor := ⟨scalar32, [bits], rfl⟩

/-- The constants a loop counts from, to and by. -/
def countingScope (initial limit step : Nat) : List Op :=
  [.mk 0 (.constant (integer32 initial)) [] [scalar32] [],
    .mk 1 (.constant (integer32 limit)) [] [scalar32] [],
    .mk 2 (.constant (integer32 step)) [] [scalar32] []]

/-- `while (i < limit) i += step`. -/
def countingLoop : WhileOp where
  operands := [⟨.operation 0, 0, scalar32⟩]
  cond := .mk 0 [scalar32]
    [.mk 3 (.compare .LT (some .SIGNED)) [⟨.block 0, 0, scalar32⟩, ⟨.operation 1, 0, scalar32⟩]
      [⟨[], .boolean⟩] []]
    [⟨.operation 3, 0, ⟨[], .boolean⟩⟩]
  body := .mk 1 [scalar32]
    [.mk 4 .add [⟨.block 1, 0, scalar32⟩, ⟨.operation 2, 0, scalar32⟩] [scalar32] []]
    [⟨.operation 4, 0, scalar32⟩]

/-- The environment after the constants. -/
def countingEnv (initial limit step : Nat) : Env :=
  ((Env.empty.bind (.operation 0) [integer32 initial]).bind (.operation 1) [integer32 limit]).bind
    (.operation 2) [integer32 step]

/-- What the loop is converted to. -/
def countingOp (initial limit step : Nat) : WhileLoopOp where
  body := .mk 1 [scalar32]
    [.mk 2 (.constant (integer32 step)) [] [scalar32] [],
      .mk 4 .add [⟨.block 1, 0, scalar32⟩, ⟨.operation 2, 0, scalar32⟩] [scalar32] []]
    [⟨.operation 4, 0, scalar32⟩]
  condition := none
  bounds := some ⟨.ofConstant (signedValue 32 initial), .ofConstant (signedValue 32 limit),
    .ofConstant (signedValue 32 step)⟩
  stateCount := 1
  outputIndices := [0]
  inputs := [⟨.operation 0, 0, scalar32⟩]

theorem countingLoop_verified (initial limit step : Nat) :
    countingLoop.Verified (countingScope initial limit step) := by
  have scopes : ∀ region ∈ [countingLoop.cond, countingLoop.body],
      Scoped (countingScope initial limit step) region := by
    intro region member
    simp only [List.mem_cons, List.not_mem_nil, or_false] at member
    rcases member with rfl | rfl <;>
    · constructor <;>
        simp [countingLoop, countingScope, Region.ops, Region.block, Region.walk, Region.owners,
          Region.arguments, Region.argumentTypes, Op.ownersAll, Op.owners, Op.walkAll, Op.walk,
          Op.id, Op.operands, Op.kind, Op.resultTypes, Region.ownersAll, Region.walkAll,
          integer32]
  exact ⟨scopes _ (by simp), scopes _ (by simp), rfl, rfl, rfl, by decide, by decide⟩

theorem countingEnv_outside (initial limit step : Nat) :
    countingLoop.Outside (countingScope initial limit step) (countingEnv initial limit step) := by
  have evaluated : ∀ value tensor, constantOf (countingScope initial limit step) value = some tensor →
      (countingEnv initial limit step).get value = some tensor := by
    intro value tensor isConstant
    obtain ⟨op, member, kind, isResult, -⟩ := constantOf_eq_some isConstant
    simp only [countingScope, List.mem_cons, List.not_mem_nil, or_false] at member
    rcases member with rfl | rfl | rfl <;>
    · obtain rfl := Kind.constant.inj kind
      simp only [Op.results, Op.resultTypes, Op.id, List.mapIdx_cons, List.mapIdx_nil,
        List.mem_singleton] at isResult
      subst isResult
      rfl
  constructor <;> refine ⟨fun value own => ?_, evaluated⟩ <;>
  · obtain ⟨owner, index, type⟩ := value
    simp only [countingLoop, Region.owners, Op.ownersAll, Op.owners, Region.ownersAll,
      List.append_nil, List.mem_cons, List.not_mem_nil, or_false] at own
    rcases own with rfl | rfl <;> rfl

/-- The equivalence at the loop from 0 to 10 by 3, which ends at 12 on both paths. -/
theorem counted_loop_iff_countingLoop :
    (countingOp 0 10 3).results (fun _ _ _ _ => none) 5 [integer32 0] = some [integer32 12] := by
  have ends : countingLoop.eval (fun _ _ _ _ => none) 5 (countingEnv 0 10 3) [integer32 0] =
      some [integer32 12] := rfl
  obtain ⟨initial, limit, isInitial, isLimit, whole⟩ :=
    counted_loop_iff (fun _ _ _ _ => none) 5 (countingLoop_verified 0 10 3)
      (countingEnv_outside 0 10 3) (show _ = some (countingOp 0 10 3) from rfl) rfl
      (show _ = some [integer32 0] from rfl) (fun step isStep => by
        obtain rfl : 3 = step := Option.some.inj isStep
        decide) ends
  obtain rfl : 10 = limit := Option.some.inj isLimit
  refine whole.mpr fun step isStep count less => ?_
  obtain rfl : 3 = step := Option.some.inj isStep
  have width : counterWidth (countingScope 0 10 3) countingLoop = 32 := rfl
  rw [width]
  omega

/-- The loop from 2 to 2³¹ - 1 by 2³¹ - 1 takes three iterations, through two negative counters,
but the runtime runs its body once. -/
theorem countingLoop_wraps :
    convertWhile (countingScope 2 2147483647 2147483647) countingLoop =
        some (countingOp 2 2147483647 2147483647) ∧
      countingLoop.eval (fun _ _ _ _ => none) 5 (countingEnv 2 2147483647 2147483647)
        [integer32 2] = some [integer32 2147483647] ∧
      (countingOp 2 2147483647 2147483647).results (fun _ _ _ _ => none) 5 [integer32 2] ≠
        some [integer32 2147483647] := by
  refine ⟨rfl, rfl, ?_⟩
  decide

end Libtt.ControlFlow

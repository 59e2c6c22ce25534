import Libtt.ControlFlow.Outline

/-!
# Counted while loops

A `stablehlo.while` becomes a `ttcore.while_loop`, whose body runs as an outlined function on
the loop state and the captures behind it. When `analyzeCountedLoop` finds a counter, the
runtime reads the initial value, the limit and the step once and runs the body as often as they
say; otherwise it evaluates the outlined condition before each run.
-/

namespace Libtt.ControlFlow

open Libtt.Foundation

/-- `isScalarInteger`. -/
def isScalarInteger (value : Value) : Bool :=
  decide (value.type.numElements = 1) &&
    match value.type.element with
    | .signed width => decide (width ≤ 32)
    | .unsigned width => decide (width ≤ 32)
    | .boolean => true
    | .other _ => false

/-- `getSExtValue` of an element. -/
def signExtended (element : ElementType) (bits : Nat) : Option Int :=
  match element with
  | .signed width => some (signedValue width bits)
  | .unsigned width => some (signedValue width bits)
  | .boolean => some (signedValue 1 bits)
  | .other _ => none

/-- `getScalarInteger`. -/
def getScalarInteger (scope : List Op) (value : Value) : Option Int :=
  if isScalarInteger value then
    match constantOf scope value with
    | some tensor =>
      match tensor.scalar with
      | some bits => signExtended tensor.type.element bits
      | none => none
    | none => none
  else none

/-- A bound of a counted loop: a constant, or one of the inputs. -/
structure LoopBound where
  constant : Int
  inputIndex : Option Nat
  deriving DecidableEq, Repr

/-- The bounds of a counted loop. -/
structure CountedLoopInfo where
  initial : LoopBound
  limit : LoopBound
  step : LoopBound
  deriving DecidableEq, Repr

/-- A `stablehlo.while`: its operands and its two regions. -/
structure WhileOp where
  operands : List Value
  cond : Region
  body : Region

/-- The value of the constant bound. -/
def LoopBound.ofConstant (constant : Int) : LoopBound := ⟨constant, none⟩

/-- The bound that an input is. -/
def LoopBound.ofInput (index : Nat) : LoopBound := ⟨0, some index⟩

/-- Whether the body returns its argument with this index as it is. -/
def passesThrough (body : Region) (index : Nat) : Bool :=
  match body.returned[index]?, body.arguments[index]? with
  | some returned, some argument => decide (returned = argument)
  | _, _ => false

/-- `computeLoopOutputs`: the state slots the body changes. -/
def computeLoopOutputs (body : Region) : List Nat :=
  (List.range body.returned.length).filter fun index => !passesThrough body index

/-- `resolveBound`. The scope holds the operations that may define the value; a block argument
is looked at if it is of the block `invariantRegion`. -/
def resolveBound (scope : List Op) (value : Option Value) (directInputIndex : Option Nat)
    (invariantRegion : Option Nat) (body : Region) (captures : List Value) (stateCount : Nat) :
    Option LoopBound :=
  match value with
  | none => none
  | some value =>
    match getScalarInteger scope value with
    | some constant => some (.ofConstant constant)
    | none =>
      if isScalarInteger value then
        match directInputIndex with
        | some index => some (.ofInput index)
        | none =>
          if (invariantRegion.map Owner.block = some value.owner) ∧
              passesThrough body value.index then
            some (.ofInput value.index)
          else (captures.idxOf? value).map fun index => .ofInput (stateCount + index)
      else none

/-- The operands of the comparison the condition returns, when it compares signed integers with
`LT` and its left side is an argument of the condition. -/
def counterComparison (outer : List Op) (loop : WhileOp) : Option (Value × Value) :=
  match loop.cond.returned[0]? with
  | none => none
  | some condition =>
    match definingOp (loop.cond.ops ++ outer) condition with
    | some (.mk _ (.compare .LT (some .SIGNED)) [lhs, rhs] _ _) =>
      if lhs.owner = .block loop.cond.block then some (lhs, rhs) else none
    | _ => none

/-- The other operand of the addition that makes the counter's next value, if that is one. -/
def counterStep (outer : List Op) (loop : WhileOp) (counterIndex : Nat) : Option Value :=
  match loop.body.arguments[counterIndex]?, loop.body.returned[counterIndex]? with
  | some bodyCounter, some next =>
    match definingOp (loop.body.ops ++ outer) next with
    | some (.mk _ .add [lhs, rhs] _ _) =>
      if lhs = bodyCounter then some rhs
      else if rhs = bodyCounter then some lhs
      else none
    | _ => none
  | _, _ => none

/-- `analyzeCountedLoop`. -/
def analyzeCountedLoop (outer : List Op) (loop : WhileOp) (captures : List Value) :
    Option CountedLoopInfo :=
  match counterComparison outer loop with
  | none => none
  | some (counter, limit) =>
    let initial := resolveBound outer loop.operands[counter.index]? (some counter.index) none
      loop.body captures loop.operands.length
    let limit := resolveBound (loop.cond.ops ++ outer) (some limit) none
      (some loop.cond.block) loop.body captures loop.operands.length
    let step := resolveBound (loop.body.ops ++ outer) (counterStep outer loop counter.index) none
      (some loop.body.block) loop.body captures loop.operands.length
    match initial, limit, step with
    | some initial, some limit, some step =>
      if step.inputIndex = none ∧ step.constant ≤ 0 then none else some ⟨initial, limit, step⟩
    | _, _, _ => none

/-- A `ttcore.while_loop`, with the functions it names. -/
structure WhileLoopOp where
  body : Region
  condition : Option Region
  bounds : Option CountedLoopInfo
  stateCount : Nat
  outputIndices : List Nat
  inputs : List Value

/-- `WhileOpConversionPattern::matchAndRewrite`. -/
def convertWhile (outer : List Op) (loop : WhileOp) : Option WhileLoopOp :=
  match loop.cond.returned with
  | [condition] =>
    if condition.type.numElements = 1 ∧ condition.type.element = .boolean then
      let outputs := computeLoopOutputs loop.body
      let captures := collectCaptures outer [loop.cond, loop.body]
      let body := outlineRegion outer loop.body (loop.operands.map Value.type) captures outputs
      let bounds := analyzeCountedLoop outer loop captures
      let condition := match bounds with
        | some _ => none
        | none =>
          some (outlineRegion outer loop.cond (loop.operands.map Value.type) captures [0])
      some ⟨body, condition, bounds, loop.operands.length, outputs, loop.operands ++ captures⟩
    else none
  | _ => none

/-- What the conversion replaces the loop's results with: the outputs where there are some, else
the operands. -/
def replacements (operands : List Tensor) : List Nat → List Tensor → List Tensor
  | index :: indices, output :: outputs =>
    replacements (operands.set index output) indices outputs
  | _, _ => operands

/-- `readIntegerScalar`. Signed integers of all widths are stored as `INT32`. -/
def readIntegerScalar (tensor : Tensor) : Option Int :=
  match tensor.type.element, tensor.scalar with
  | .signed width, some bits => if width ≤ 32 then some (signedValue width bits) else none
  | .unsigned width, some bits => if width ≤ 32 then some (bits % 2 ^ width : Nat) else none
  | _, _ => none

/-- `getBound`. -/
def getBound (inputs : List Tensor) (bound : LoopBound) : Option Int :=
  match bound.inputIndex with
  | none => some bound.constant
  | some index =>
    match inputs[index]? with
    | some tensor => readIntegerScalar tensor
    | none => none

/-- The trip count of a loop with a positive step, in 64-bit unsigned arithmetic. -/
def tripCount (initial limit step : Int) : Nat :=
  let distance := (limit % 2 ^ 64 - initial % 2 ^ 64) % 2 ^ 64
  ((distance + step % 2 ^ 64 - 1) % 2 ^ 64 / (step % 2 ^ 64)).toNat

/-- How often the runtime runs the body of a counted loop. -/
def countedTrips (inputs : List Tensor) (bounds : CountedLoopInfo) : Option Nat :=
  match getBound inputs bounds.initial, getBound inputs bounds.limit with
  | some initial, some limit =>
    if initial < limit then
      match getBound inputs bounds.step with
      | some step => if 0 < step then some (tripCount initial limit step) else none
      | none => none
    else some 0
  | _, _ => none

/-- Write the outputs of the body to their state slots. -/
def writeBack (stateCount : Nat) : List Nat → List Tensor → List Tensor → Option (List Tensor)
  | [], [], inputs => some inputs
  | index :: indices, output :: outputs, inputs =>
    if index < stateCount then writeBack stateCount indices outputs (inputs.set index output)
    else none
  | _, _, _ => none

/-- `executeBody`. -/
def WhileLoopOp.executeBody (kernels : Kernels) (fuel : Nat) (op : WhileLoopOp) : Denotation :=
  fun inputs =>
    match runFunction kernels fuel op.body inputs with
    | some outputs => writeBack op.stateCount op.outputIndices outputs inputs
    | none => none

/-- `run` of a `WhileLoopOp`: its outputs. -/
def WhileLoopOp.run (kernels : Kernels) (fuel : Nat) (op : WhileLoopOp) (inputs : List Tensor) :
    Option (List Tensor) :=
  let last := match op.condition, op.bounds with
    | some condition, _ =>
      loop (testOf (runFunction kernels fuel condition)) (op.executeBody kernels fuel) fuel inputs
    | none, some bounds =>
      match countedTrips inputs bounds with
      | some trips => repeated (op.executeBody kernels fuel) trips inputs
      | none => none
    | none, none => none
  last.bind fun last => op.outputIndices.mapM fun index => last[index]?

end Libtt.ControlFlow

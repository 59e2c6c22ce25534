import Libtt.Foundation.StraightLine
import Libtt.Foundation.Worklist

/-!
# Functions and their traces

The hoist pass partitions a function into traces: operations that the runtime can replay from a
trace, and others that run eagerly between them. A program that an eager operation calls is
partitioned in turn. An operation's operands are the values it reads, in its regions too.
-/
namespace Libtt.TraceHoist

open Libtt.Foundation

abbrev Symbol := String

/-- A ranked tensor, on the device or not, or another type. -/
inductive ValueType
  | tensor (isOnDevice : Bool) | other
  deriving DecidableEq, Repr

structure Value where
  name : Nat
  type : ValueType
  deriving DecidableEq, Repr

inductive LoopBound
  | constant (value : Int) | input (index : Nat)
  deriving DecidableEq, Repr

/-- The operations that the pass tells apart. -/
inductive OpKind
  | returnOp
  | callOp (callee : Symbol)
  | caseOp (branchPrograms : List Symbol)
  | whileLoopOp (bodyProgram : Symbol) (conditionProgram : Option Symbol)
      (initial limit step : Option LoopBound)
  | whileOp | loadCachedOp | getDeviceOp | adamWOp | deallocateOp | resetGlobalSemaphoreOp
  | dumpTensorOp | loadTensorOp | beginTraceCaptureOp | endTraceCaptureOp | executeTraceOp
  | captureOrExecuteTraceOp | sliceDynamicOp
  /-- Any other operation, and whether it has the trait of creation operations. -/
  | operation (dialectNamespace : String) (isCreation : Bool)
  deriving DecidableEq, Repr

/-- An operation. Its number is its identity. -/
structure Op where
  id : Nat
  kind : OpKind
  numRegions : Nat
  operands : List Value
  results : List Value
  deriving DecidableEq, Repr

structure Block where
  /-- The operations without the terminator. -/
  operations : List Op
  terminator : Op
  deriving DecidableEq, Repr

inductive Visibility
  | isPublic | isPrivate | isNested
  deriving DecidableEq, Repr

structure Func where
  visibility : Visibility
  isForwardDevice : Bool
  arguments : List Value
  blocks : List Block
  deriving DecidableEq, Repr

/-- The functions of a module in their order. The functions of traces, which nothing here looks up,
are left out. -/
structure Module where
  functions : List (Symbol × Func)

def Module.lookup (m : Module) (symbol : Symbol) : Option Func := m.functions.lookup symbol

/-- The module with another function of a name. -/
def Module.update (m : Module) (symbol : Symbol) (f : Func) : Module where
  functions := m.functions.map fun (name, old) => (name, if name = symbol then f else old)

def isOnDeviceType : ValueType → Bool
  | .tensor isOnDevice => isOnDevice
  | .other => true

/-- Straight-line device work: none of the operations that are named. -/
def shouldHoistOp (op : Op) : Bool :=
  match op.kind with
  | .operation dialectNamespace isCreation =>
    op.numRegions = 0 ∧ dialectNamespace ≠ "debug" ∧ ¬isCreation ∧
      (op.operands.all fun value => isOnDeviceType value.type) ∧
      op.results.all fun value => isOnDeviceType value.type
  | _ => false

/-- The device handle and const-eval loads. -/
def isHandleOrLoad (op : Op) : Bool :=
  match op.kind with
  | .getDeviceOp | .loadCachedOp => true
  | _ => false

/-- A counted loop with constant bounds whose body is straight-line device work. -/
def isCapturableCountedLoop (m : Module) (op : Op) : Bool :=
  match op.kind with
  | .whileLoopOp bodyProgram none (some (.constant _)) (some (.constant _)) (some (.constant _)) =>
    match m.lookup bodyProgram with
    | some ⟨_, _, _, [body]⟩ =>
      (op.operands.all fun value => isOnDeviceType value.type) &&
        (op.results.all fun value => isOnDeviceType value.type) &&
        body.operations.all fun op => shouldHoistOp op || isHandleOrLoad op
    | _ => false
  | _ => false

def isCapturable (m : Module) (op : Op) : Bool := shouldHoistOp op || isCapturableCountedLoop m op

/-- Operations that depend on nothing a trace computes. -/
def isIndependentOp (op : Op) : Bool :=
  isHandleOrLoad op ||
    match op.kind with
    | .operation _ isCreation => isCreation
    | _ => false

/-- The programs that an operation runs. -/
def Op.programs (op : Op) : List Symbol :=
  match op.kind with
  | .caseOp branchPrograms => branchPrograms
  | .whileLoopOp bodyProgram conditionProgram _ _ _ => bodyProgram :: conditionProgram.toList
  | .callOp callee => [callee]
  | _ => []

def collectEagerCallees (m : Module) (op : Op) : List Symbol :=
  op.programs.filter fun symbol => (m.lookup symbol).isSome

/-- What the pass uses from outside: what sinks the optimizer's updates, the handle that a trace is
given, what a trace cannot be made of, and the fold of conversions into the arguments. -/
structure Upstream where
  sinkAdamWOpsToEnd : List Op → List Op
  device : Block → List Value
  rejects : Block → List Op → Bool
  mergeToLayoutOpsWithFuncArgs : Func → Option Func

/-- The first capturable operation, and the independent ones after it. -/
structure Scan where
  firstHoistable : Option Op
  independentOps : List Op

def scanOp (m : Module) (scan : Scan) (op : Op) : Scan :=
  match scan.firstHoistable with
  | none => if isCapturable m op then { scan with firstHoistable := some op } else scan
  | some _ =>
    if isIndependentOp op then { scan with independentOps := scan.independentOps ++ [op] } else scan

/-- `moveBefore`: out of its place, and in front of another. -/
def moveBefore (first : Op) (operations : List Op) (op : Op) : List Op :=
  (operations.erase op).flatMap fun other => if other = first then [op, other] else [other]

def moveIndependentOps (m : Module) (operations : List Op) : List Op :=
  let scan := operations.foldl (scanOp m) ⟨none, []⟩
  match scan.firstHoistable with
  | none => operations
  | some first => scan.independentOps.foldl (moveBefore first) operations

/-- The runs so far, the one that is not ended, and the programs to partition in turn. -/
structure Grouping where
  runs : List (List Op)
  run : List Op
  callees : List Symbol

/-- The runs with the one that is not ended. -/
def Grouping.allRuns (grouping : Grouping) : List (List Op) :=
  if grouping.run.isEmpty then grouping.runs else grouping.runs ++ [grouping.run]

def groupOp (m : Module) (grouping : Grouping) (op : Op) : Grouping :=
  if isCapturable m op then { grouping with run := grouping.run ++ [op] }
  else ⟨grouping.allRuns, [], grouping.callees ++ collectEagerCallees m op⟩

/-- The values that a run reads and does not define. -/
def boundaryInputs (run : List Op) : List Value :=
  (run.flatMap Op.operands).filter fun value => value ∉ run.flatMap Op.results

/-- The values that a run defines and others read. -/
def boundaryOutputs (block : Block) (run : List Op) : List Value :=
  (run.flatMap Op.results).filter fun value =>
    (block.operations ++ [block.terminator]).any fun op => op ∉ run ∧ value ∈ op.operands

/-- The trace of a run, which begins with some operation. Its results are called as the values that
they replace. -/
def traceOp (upstream : Upstream) (block : Block) (first : Op) (run : List Op) : Op where
  id := first.id
  kind := .captureOrExecuteTraceOp
  numRegions := 0
  operands := upstream.device block ++ boundaryInputs run
  results := boundaryOutputs block run

/-- The trace comes where the run began, and the run's operations are erased. -/
def performHoistTransform (upstream : Upstream) (block : Block) (run : List Op) : Option Block :=
  match run with
  | [] => some block
  | first :: _ =>
    if upstream.rejects block run then none
    else some { block with
      operations := block.operations.flatMap fun op =>
        if op = first then [traceOp upstream block first run] else if op ∈ run then [] else [op] }

/-- A function whose runs are hoisted: its operations after the move, and the programs to partition
in turn. -/
structure Hoisted where
  function : Func
  moved : List Op
  runs : List (List Op)
  block : Block
  callees : List Symbol

def processFuncOp (upstream : Upstream) (m : Module) (f : Func) : Option Hoisted :=
  match f.blocks with
  | [block] =>
    let moved := moveIndependentOps m (upstream.sinkAdamWOpsToEnd block.operations)
    let grouping := moved.foldl (groupOp m) ⟨[], [], []⟩
    let runs := grouping.allRuns
    (runs.foldlM (performHoistTransform upstream) { block with operations := moved }).bind
      fun hoisted =>
        let f := { f with blocks := [hoisted] }
        -- A private program keeps the signature its caller passes.
        let merged := if runs ≠ [] ∧ f.visibility = .isPublic then
            upstream.mergeToLayoutOpsWithFuncArgs f else some f
        merged.map fun f => ⟨f, moved, runs, hoisted, grouping.callees⟩
  -- "FuncOp should have exactly one block"
  | _ => none

/-- The module so far, and what was partitioned, with the module before it. -/
structure Pass where
  current : Module
  partitions : List (Symbol × Module × Hoisted)

/-- A function of the worklist. -/
def processSymbol (upstream : Upstream) (symbol : Symbol) (pass : Pass) :
    Option (Pass × List Symbol) :=
  (pass.current.lookup symbol).bind fun f =>
    (processFuncOp upstream pass.current f).map fun hoisted =>
      (⟨pass.current.update symbol hoisted.function,
        (symbol, pass.current, hoisted) :: pass.partitions⟩, hoisted.callees)

/-- The entry functions. -/
def entries (m : Module) : List Symbol :=
  (m.functions.filter fun (_, f) => f.isForwardDevice && f.visibility ≠ .isPrivate).map Prod.fst

def start (m : Module) : Worklist Symbol Pass := ⟨(entries m).reverse, [], ⟨m, []⟩⟩

/-- A turn of the loop in `runOnOperation`; none at its end, and where the pass fails. -/
def step (upstream : Upstream) : Worklist Symbol Pass → Option (Worklist Symbol Pass) :=
  Worklist.step (processSymbol upstream)

end Libtt.TraceHoist

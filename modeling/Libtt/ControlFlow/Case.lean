import Libtt.ControlFlow.Counted
import Libtt.ControlFlow.Evaluated

/-!
# Cases

A `stablehlo.case` becomes a `ttcore.case`, which names an outlined function for each branch and
passes the captures to the one selected.
-/

namespace Libtt.ControlFlow

/-- `isScalarI1`. -/
def isScalarI1 (value : Value) : Bool :=
  decide (value.type.numElements = 1) && decide (value.type.element = .boolean)

/-- `matchPattern` with `m_One` or `m_Zero`: an integer constant with just these elements. -/
def matchConstant (scope : List Op) (value : Value) (bits : Nat) : Bool :=
  match constantOf scope value with
  | some tensor =>
    match tensor.type.element with
    | .other _ => false
    | _ => tensor.elements.all (· = bits)
  | none => false

/-- The predicate that a `stablehlo.convert` made the index of. -/
def convertedPredicate (scope : List Op) (index : Value) : Value :=
  match definingOp scope index with
  | some (.mk _ .convert [operand] _ _) => if isScalarI1 operand then operand else index
  | _ => index

/-- The predicate that a `ttir.where` made the index of. -/
def wherePredicate (scope : List Op) (index : Value) : Value :=
  match definingOp scope index with
  | some (.mk _ .whereOp [first, second, third] _ _) =>
    if isScalarI1 first ∧ matchConstant scope second 1 ∧ matchConstant scope third 0 then first
    else index
  | _ => index

/-- The selector of a case with so many branches. -/
def branchSelector (scope : List Op) (index : Value) (branches : Nat) : Value :=
  if branches = 2 then wherePredicate scope (convertedPredicate scope index) else index

/-- A `stablehlo.case`: its index and its branches. -/
structure CaseOp where
  index : Value
  branches : List Region
  resultTypes : List TensorType

/-- A `ttcore.case`, with the functions it names. -/
structure CaseProgramsOp where
  branchPrograms : List Region
  index : Value
  inputs : List Value

/-- `CaseOpConversionPattern::matchAndRewrite`. -/
def convertCase (outer : List Op) (op : CaseOp) : Option CaseProgramsOp :=
  if ∀ branch ∈ op.branches, branch.returned.length = op.resultTypes.length then
    let captures := collectCaptures outer op.branches
    some {
      branchPrograms := op.branches.map fun branch =>
        outlineRegion outer branch [] captures (List.range op.resultTypes.length)
      index := branchSelector outer op.index op.branches.length
      inputs := captures }
  else none

/-- `readConditionScalar`. Booleans are stored as numbers of some type. -/
def readConditionScalar (tensor : Tensor) : Option Bool :=
  match tensor.type.element, tensor.scalar with
  | .signed width, some bits => if width ≤ 32 then some (signedValue width bits != 0) else none
  | .unsigned width, some bits => if width ≤ 32 then some (bits % 2 ^ width != 0) else none
  | .boolean, some bits => some (bits != 0)
  | _, _ => none

/-- The branch index that `run` of a `CaseOp` reads from the selector. -/
def readBranchIndex (branches : Nat) (index : Tensor) : Option Int :=
  if branches = 2 then (readConditionScalar index).map fun flag => if flag then 1 else 0
  else readIntegerScalar index

/-- `run` of a `CaseOp`. -/
def CaseProgramsOp.run (kernels : Kernels) (fuel : Nat) (op : CaseProgramsOp) (index : Tensor)
    (inputs : List Tensor) : Option (List Tensor) :=
  match readBranchIndex op.branchPrograms.length index with
  | none => none
  | some branchIndex =>
    match op.branchPrograms[selectBranch branchIndex op.branchPrograms.length]? with
    | none => none
    | some program => runFunction kernels fuel program inputs

/-- The meaning of a case operation. -/
def CaseOp.eval (kernels : Kernels) (fuel : Nat) (env : Env) (op : CaseOp) :
    Option (List Tensor) :=
  (env.get op.index).bind fun index =>
    Kind.case.apply kernels fuel op.resultTypes [index] (Region.evalAll kernels fuel env op.branches)

end Libtt.ControlFlow

import Libtt.Cumulative.Matchers

/-!
# Running logsumexp

A window whose body is JAX's logaddexp of two floats is a running logsumexp.
-/
namespace Libtt.Cumulative

open Libtt.StableHlo

inductive ComparisonType where
  | FLOAT
  | TOTALORDER
  | SIGNED
  | UNSIGNED
  deriving DecidableEq, Repr

/-- An argument of the block, what an operation in it returns, or a value from outside. -/
inductive Value where
  | argument (index : Nat)
  | result (operation : Nat)
  | outside (index : Nat)
  deriving DecidableEq, Repr

/-- The operations that the matcher looks for. -/
inductive BodyOp where
  | add
  | subtract
  | max
  | abs
  | neg
  | exp
  | log1p
  | compare (direction : ComparisonDirection) (compareType : Option ComparisonType)
  | select
  | returnOp
  | other
  deriving DecidableEq, Repr

structure Operation where
  op : BodyOp
  operands : List Value
  deriving DecidableEq, Repr

/-- A block of operations, of which the last is the terminator. -/
structure Block where
  arguments : List ElementType
  operations : List Operation
  outside : Nat → Option Operation

namespace Block

variable (block : Block)

def getDefiningOp : Value → Option Operation
  | .argument _ => none
  | .result operation => block.operations[operation]?
  | .outside index => block.outside index

/-- The body is logaddexp of its arguments `a` and `b`: with `d = a - b`,
`select(d != d, a + b, max(a, b) + log1p(exp(-|d|)))`. -/
def isLogAddExpBody : Bool :=
  let a := Value.argument 0
  let b := Value.argument 1
  -- The ten operations above and the return, nothing else.
  if block.arguments.length ≠ 2 ∨ block.operations.length ≠ 11 then false
  else
    let isFloat := match block.arguments with
      | [.float left, .float right] => left == right
      | _ => false
    isFloat && match block.operations.getLast? with
    | some ⟨.returnOp, [value]⟩ =>
      match block.getDefiningOp value with
      | some ⟨.select, [pred, onTrue, onFalse]⟩ =>
        match block.getDefiningOp pred with
        | some ⟨.compare direction compareType, [lhs, rhs]⟩ =>
          -- Under total order a NaN equals itself.
          direction == .NE && (compareType == none || compareType == some .FLOAT) && lhs == rhs &&
            block.getDefiningOp lhs == some ⟨.subtract, [a, b]⟩ &&
            block.getDefiningOp onTrue == some ⟨.add, [a, b]⟩ &&
            match block.getDefiningOp onFalse with
            | some ⟨.add, [left, right]⟩ =>
              block.getDefiningOp left == some ⟨.max, [a, b]⟩ &&
              match block.getDefiningOp right with
              | some ⟨.log1p, [exponential]⟩ =>
                match block.getDefiningOp exponential with
                | some ⟨.exp, [negated]⟩ =>
                  match block.getDefiningOp negated with
                  | some ⟨.neg, [absolute]⟩ =>
                    block.getDefiningOp absolute == some ⟨.abs, [lhs]⟩
                  | _ => false
                | _ => false
              | _ => false
            | _ => false
        | _ => false
      | _ => false
    | _ => false

end Block

/-- What StableHLO leaves to a float format. -/
structure FloatFunctions (format : FloatFormat) where
  add : FloatValue format → FloatValue format → FloatValue format
  subtract : FloatValue format → FloatValue format → FloatValue format
  abs : FloatValue format → FloatValue format
  neg : FloatValue format → FloatValue format
  exp : FloatValue format → FloatValue format
  log1p : FloatValue format → FloatValue format

variable {format : FloatFormat}

/-- JAX's logaddexp. -/
def FloatFunctions.logAddExp (functions : FloatFunctions format) (a b : FloatValue format) :
    FloatValue format :=
  let d := functions.subtract a b
  if compareOp .NE (.float format) d d then functions.add a b
  else
    functions.add (a.maximum b)
      (functions.log1p (functions.exp (functions.neg (functions.abs d))))

inductive Datum (format : FloatFormat) where
  | element (value : FloatValue format)
  | pred (value : Bool)
  deriving DecidableEq

/-- A comparison of floats. In total order NaNs are behind all numbers, and equal. -/
def compareFloats (direction : ComparisonDirection) :
    Option ComparisonType → FloatValue format → FloatValue format → Bool
  | some .TOTALORDER, lhs, rhs =>
    let place : FloatValue format → Int
      | .nan => format.greatest + 1
      | .number key _ => key
    match direction with
    | .EQ => place lhs = place rhs
    | .NE => place lhs ≠ place rhs
    | .LT => place lhs < place rhs
    | .GT => place rhs < place lhs
  | _, lhs, rhs => compareOp direction (.float format) lhs rhs

/-- What an operation returns, for the operations that are looked for. -/
def BodyOp.apply (functions : FloatFunctions format) : BodyOp → List (Datum format) →
    Option (Datum format)
  | .add, [.element x, .element y] => some (.element (functions.add x y))
  | .subtract, [.element x, .element y] => some (.element (functions.subtract x y))
  | .max, [.element x, .element y] => some (.element (x.maximum y))
  | .abs, [.element x] => some (.element (functions.abs x))
  | .neg, [.element x] => some (.element (functions.neg x))
  | .exp, [.element x] => some (.element (functions.exp x))
  | .log1p, [.element x] => some (.element (functions.log1p x))
  | .compare direction compareType, [.element x, .element y] =>
    some (.pred (compareFloats direction compareType x y))
  | .select, [.pred condition, .element x, .element y] =>
    some (.element (if condition then x else y))
  | _, _ => none

/-- The values that a run of the block with two arguments has. -/
structure Block.Runs (block : Block) (functions : FloatFunctions format)
    (x y : FloatValue format) (data : Value → Datum format) : Prop where
  first : data (.argument 0) = .element x
  second : data (.argument 1) = .element y
  defined : ∀ value operation, block.getDefiningOp value = some operation →
    ∀ datum, operation.op.apply functions (operation.operands.map data) = some datum →
      data value = datum

/-- The block returns what a function of its arguments does. -/
def Block.Computes (block : Block) (functions : FloatFunctions format)
    (body : FloatValue format → FloatValue format → FloatValue format) : Prop :=
  ∃ value, block.operations.getLast? = some ⟨.returnOp, [value]⟩ ∧
    ∀ x y data, block.Runs functions x y data → data value = .element (body x y)

/-- A running logsumexp: one input reduced with logaddexp from log(0) = -inf along one dimension. -/
def isCumulativeLogSumExp (checks : Checks (FloatValue format))
    (op : ReduceWindowOp (FloatValue format)) (body : Block) (shape : List Nat) :
    Option CumulativeReductionMatch :=
  if body.isLogAddExpBody ∧ checkInitValue .negInf (.float format) op.initValue ∧
      checks.hasValidWindowAttributes op
  then @hasValidInputAndPadding (.float format) checks op shape
  else none

/-- `ttir.cumulative` with logsumexp. Floats keep their type. -/
def replaceWithCumulativeLogSumExp (functions : FloatFunctions format)
    (found : CumulativeReductionMatch) (operand : Tensor (FloatValue format)) :
    Tensor (FloatValue format) :=
  operand.running functions.logAddExp found.dimension found.reverse

end Libtt.Cumulative

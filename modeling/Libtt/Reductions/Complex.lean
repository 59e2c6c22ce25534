import Libtt.StableHlo.Block
import Libtt.StableHlo.Reduce
import Mathlib.Algebra.Ring.Prod
import Mathlib.Data.Prod.Lex

/-!
# Complex reductions

A reduction of complex numbers becomes operations on their real and imaginary parts.
-/
namespace Libtt.Reductions

open Libtt.StableHlo

inductive ReducerKind where
  | Add
  | Multiply
  | Maximum
  | Minimum
  deriving DecidableEq, Repr

inductive ComparisonDirection where
  | EQ
  | NE
  | GE
  | GT
  | LE
  | LT
  deriving DecidableEq, Repr

inductive ComparisonType where
  | FLOAT
  | TOTALORDER
  | SIGNED
  | UNSIGNED
  deriving DecidableEq, Repr

/-- The operations that are looked for in a body. -/
inductive ComplexBodyOp where
  | add
  | multiply
  | real
  | imag
  | compare (direction : ComparisonDirection) (compareType : Option ComparisonType)
  | select
  | other
  deriving DecidableEq, Repr

/-- `matchLexicographicReducer`: the reducer that JAX has for the maximum and the minimum,
`(real(lhs) == real(rhs) ? imag(lhs) cmp imag(rhs) : real(lhs) cmp real(rhs)) ? lhs : rhs`. -/
def matchLexicographicReducer (body : Block ComplexBodyOp) : Option ReducerKind :=
  let lhs := BlockValue.argument 0
  let rhs := BlockValue.argument 1
  let real (value argument : BlockValue) : Bool :=
    body.getDefiningOp value = some ⟨.real, [argument]⟩
  let imag (value argument : BlockValue) : Bool :=
    body.getDefiningOp value = some ⟨.imag, [argument]⟩
  -- Ten operations, with the return.
  if body.arguments ≠ 2 ∨ body.operations.length + 1 ≠ 10 then none
  else
    match body.returned with
    | [returned] =>
      match body.getDefiningOp returned with
      | some ⟨.select, [pred, onTrue, onFalse]⟩ =>
        match body.getDefiningOp pred with
        | some ⟨.select, [equalReal, orderedImag, orderedReal]⟩ =>
          match body.getDefiningOp equalReal, body.getDefiningOp orderedImag,
            body.getDefiningOp orderedReal with
          | some ⟨.compare realEqual equalType, [lhsEqual, rhsEqual]⟩,
            some ⟨.compare imagOrdered imagType, [lhsImag, rhsImag]⟩,
            some ⟨.compare direction realType, [lhsReal, rhsReal]⟩ =>
            if !(real lhsEqual lhs && real rhsEqual rhs && imag lhsImag lhs && imag rhsImag rhs &&
                real lhsReal lhs && real rhsReal rhs && onTrue = lhs && onFalse = rhs) then none
            else if (direction ≠ .GT ∧ direction ≠ .LT) ∨ imagOrdered ≠ direction ∨
                realEqual ≠ .EQ ∨ equalType ≠ some .FLOAT ∨ realType ≠ some .FLOAT ∨
                imagType ≠ some .FLOAT then none
            else some (if direction = .GT then .Maximum else .Minimum)
          | _, _, _ => none
        | _ => none
      | _ => none
    | _ => none

/-- `getReducerKind`. -/
def getReducerKind (body : Block ComplexBodyOp) : Option ReducerKind :=
  if body.matchesBinaryReducer .add then some .Add
  else if body.matchesBinaryReducer .multiply then some .Multiply
  else matchLexicographicReducer body

variable {α : Type} [CommRing α] [LinearOrder α]

/-- The function of a kind; complex numbers are pairs, of which the lexicographic order compares the
real parts first. -/
def ReducerKind.function : ReducerKind → α × α → α × α → α × α
  | .Add, left, right => left + right
  | .Multiply, left, right =>
    (left.1 * right.1 - left.2 * right.2, left.1 * right.2 + left.2 * right.1)
  | .Maximum, left, right => ofLex (max (toLex left) (toLex right))
  | .Minimum, left, right => ofLex (min (toLex left) (toLex right))

inductive ComplexDatum (α : Type) where
  | complex (value : α × α)
  | component (value : α)
  | pred (value : Bool)
  deriving DecidableEq

/-- A comparison of exact components; there is no NaN among them. -/
def ComparisonDirection.holds (direction : ComparisonDirection) (lhs rhs : α) : Bool :=
  match direction with
  | .EQ => lhs = rhs
  | .NE => lhs ≠ rhs
  | .GE => rhs ≤ lhs
  | .GT => rhs < lhs
  | .LE => lhs ≤ rhs
  | .LT => lhs < rhs

/-- What an operation returns, for the operations that are looked for. -/
def ComplexBodyOp.apply : ComplexBodyOp → List (ComplexDatum α) → Option (ComplexDatum α)
  | .add, [.complex x, .complex y] => some (.complex (x + y))
  | .multiply, [.complex x, .complex y] => some (.complex (ReducerKind.Multiply.function x y))
  | .real, [.complex x] => some (.component x.1)
  | .imag, [.complex x] => some (.component x.2)
  | .compare direction _, [.component x, .component y] => some (.pred (direction.holds x y))
  | .select, [.pred condition, onTrue, onFalse] => some (if condition then onTrue else onFalse)
  | _, _ => none

/-- The real and the imaginary parts. -/
abbrev ComplexParts (α : Type) : Type := Tensor α × Tensor α

def unpackRealImag (value : Tensor (α × α)) : ComplexParts α :=
  (value.map Prod.fst, value.map Prod.snd)

def packRealImag (parts : ComplexParts α) : Tensor (α × α) := parts.1.zipWith Prod.mk parts.2

def combine (lhs rhs : ComplexParts α) (kind : ReducerKind) : ComplexParts α :=
  let add (x y : Tensor α) := x.zipWith (· + ·) y
  let subtract (x y : Tensor α) := x.zipWith (· - ·) y
  let multiply (x y : Tensor α) := x.zipWith (· * ·) y
  match kind with
  | .Add => (add lhs.1 rhs.1, add lhs.2 rhs.2)
  | .Multiply =>
    let ac := multiply lhs.1 rhs.1
    let bd := multiply lhs.2 rhs.2
    let ad := multiply lhs.1 rhs.2
    let bc := multiply lhs.2 rhs.1
    (subtract ac bd, add ad bc)
  | kind =>
    let direction := if kind = .Maximum then ComparisonDirection.GT else ComparisonDirection.LT
    let compare (direction : ComparisonDirection) (x y : Tensor α) := x.zipWith direction.holds y
    let realEqual := compare .EQ lhs.1 rhs.1
    let realOrdered := compare direction lhs.1 rhs.1
    let imagOrdered := compare direction lhs.2 rhs.2
    let predicate := select realEqual imagOrdered realOrdered
    (select predicate lhs.1 rhs.1, select predicate lhs.2 rhs.2)

/-- A `stablehlo.slice` of one dimension. -/
def sliceDim {β : Type} (value : Tensor β) (dimension first limit stride : Nat) : Tensor β :=
  let rank := value.shape.length
  value.slice ((List.replicate rank 0).set dimension first) (value.shape.set dimension limit)
    ((List.replicate rank 1).set dimension stride)

def sliceParts (parts : ComplexParts α) (dimension first limit stride : Nat) : ComplexParts α :=
  (sliceDim parts.1 dimension first limit stride, sliceDim parts.2 dimension first limit stride)

/-- `stablehlo.concatenate` of two operands. -/
def concatenate {β : Type} (lhs rhs : Tensor β) (dimension : Nat) : Tensor β where
  shape := lhs.shape.set dimension (lhs.shape.getD dimension 0 + rhs.shape.getD dimension 0)
  data index :=
    let coordinate := index.getD dimension 0
    let size := lhs.shape.getD dimension 0
    if coordinate < size then lhs.data index else rhs.data (index.set dimension (coordinate - size))

/-- A round of the loop of one dimension. -/
def combinePairs (kind : ReducerKind) (dimension size : Nat) (current : ComplexParts α) :
    ComplexParts α :=
  let pairedSize := size / 2
  let even := sliceParts current dimension 0 (pairedSize * 2) 2
  let odd := sliceParts current dimension 1 (pairedSize * 2) 2
  let next := combine even odd kind
  if size % 2 ≠ 0 then
    let tail := sliceParts current dimension (size - 1) size 1
    (concatenate next.1 tail.1 dimension, concatenate next.2 tail.2 dimension)
  else next

/-- The loop of one dimension. -/
def reduceDimension (kind : ReducerKind) (dimension size : Nat) (current : ComplexParts α) :
    ComplexParts α :=
  if 1 < size then
    let pairedSize := size / 2
    reduceDimension kind dimension (pairedSize + size % 2)
      (combinePairs kind dimension size current)
  else current
termination_by size
decreasing_by omega

/-- `stablehlo.reduce` of complex numbers. -/
structure ComplexReduceOp (α : Type) where
  dimensions : List Nat
  body : Block ComplexBodyOp
  initValue : α × α

namespace ComplexReduceOp

variable (op : ComplexReduceOp α)

def resultShape (operand : Tensor (α × α)) : List Nat := without op.dimensions 0 operand.shape

/-- `ComplexReduceOpConversionPattern::matchAndRewrite`, with what runs the sums of the real and of
the imaginary parts. -/
def matchAndRewrite (schedules : Schedules) (realSite imagSite : Site) (operand : Tensor (α × α)) :
    Option (Tensor (α × α)) :=
  match getReducerKind op.body with
  | none => none
  | some kind =>
    let resultShape := op.resultShape operand
    let broadcastInit (value : α) : Tensor α :=
      (⟨[], fun _ => value⟩ : Tensor α).broadcastInDim resultShape []
    let result : ComplexParts α := (broadcastInit op.initValue.1, broadcastInit op.initValue.2)
    let isEmpty := op.dimensions.any fun dimension => operand.shape.getD dimension 0 = 0
    if isEmpty then some (packRealImag result)
    else
      let current := unpackRealImag operand
      match kind with
      | .Add =>
        let reduceSum (site : Site) (value : Tensor α) : Tensor α :=
          if op.dimensions = [] then value
          else (⟨op.dimensions, (· + ·), 0⟩ : ReduceOp α).eval schedules site value
        let sum : ComplexParts α := (reduceSum realSite current.1, reduceSum imagSite current.2)
        some (packRealImag (combine sum result kind))
      | kind =>
        let current := op.dimensions.foldl
          (fun current dimension =>
            reduceDimension kind dimension (operand.shape.getD dimension 0) current)
          current
        let reshape (value : Tensor α) : Tensor α :=
          if value.shape = resultShape then value else value.reshape resultShape
        some (packRealImag (combine (reshape current.1, reshape current.2) result kind))

end ComplexReduceOp

end Libtt.Reductions

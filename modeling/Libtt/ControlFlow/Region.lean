import Mathlib.Algebra.BigOperators.Group.List.Basic
import Libtt.Foundation.Loop

/-!
# Operations, regions and their meaning

The part of the StableHLO intermediate form that control flow is written in: values, operations
with nested single-block regions, and an evaluator. An environment gives values their tensors
and keeps them of the declared type; an operation that finds an operand missing, or would bind a
result of another type, does not evaluate. What operations other than those of this module
compute is a parameter.
-/

namespace Libtt.ControlFlow

open Libtt.Foundation

/-- Element types. Signless integers are signed, but for one bit, which is boolean. -/
inductive ElementType
  | signed (width : Nat)
  | unsigned (width : Nat)
  | boolean
  | other (code : Nat)
  deriving DecidableEq, Repr

/-- A ranked tensor type. -/
structure TensorType where
  shape : List Nat
  element : ElementType
  deriving DecidableEq, Repr

/-- `getNumElements`. -/
def TensorType.numElements (type : TensorType) : Nat := type.shape.prod

/-- A tensor: its elements in row-major order, as raw bits. -/
structure Tensor where
  type : TensorType
  elements : List Nat
  /-- There are as many elements as the shape has. -/
  count : elements.length = type.numElements
  deriving DecidableEq

/-- What defines a value. -/
inductive Owner
  /-- An operation, whose result the value is. -/
  | operation (id : Nat)
  /-- A block, whose argument the value is. -/
  | block (id : Nat)
  deriving DecidableEq, Repr

/-- An SSA value. -/
structure Value where
  owner : Owner
  index : Nat
  type : TensorType
  deriving DecidableEq, Repr

/-- Directions of `stablehlo.compare`. -/
inductive Direction
  | EQ | NE | GE | GT | LE | LT
  deriving DecidableEq, Repr

/-- `stablehlo::ComparisonType`. -/
inductive ComparisonType
  | FLOAT | TOTALORDER | SIGNED | UNSIGNED
  deriving DecidableEq, Repr

/-- What an operation does. -/
inductive Kind
  | constant (value : Tensor)
  | add
  | compare (direction : Direction) (type : Option ComparisonType)
  | whileLoop
  | case
  | convert
  /-- `ttir.where`, which a lowered conversion is made of. -/
  | whereOp
  | other (code : Nat)
  deriving DecidableEq

mutual
/-- An operation with its regions. -/
inductive Op
  | mk (id : Nat) (kind : Kind) (operands : List Value) (resultTypes : List TensorType)
    (regions : List Region)
/-- A region of one block, with the operands of its `stablehlo.return`. -/
inductive Region
  | mk (block : Nat) (argumentTypes : List TensorType) (ops : List Op) (returned : List Value)
end

namespace Op

def id : Op → Nat
  | .mk id _ _ _ _ => id

def kind : Op → Kind
  | .mk _ kind _ _ _ => kind

def operands : Op → List Value
  | .mk _ _ operands _ _ => operands

def resultTypes : Op → List TensorType
  | .mk _ _ _ resultTypes _ => resultTypes

def regions : Op → List Region
  | .mk _ _ _ _ regions => regions

/-- The values an operation defines. -/
def results (op : Op) : List Value :=
  op.resultTypes.mapIdx fun index type => ⟨.operation op.id, index, type⟩

end Op

namespace Region

def block : Region → Nat
  | .mk block _ _ _ => block

def argumentTypes : Region → List TensorType
  | .mk _ argumentTypes _ _ => argumentTypes

def ops : Region → List Op
  | .mk _ _ ops _ => ops

def returned : Region → List Value
  | .mk _ _ _ returned => returned

/-- The arguments of a region's block. -/
def arguments (region : Region) : List Value :=
  region.argumentTypes.mapIdx fun index type => ⟨.block region.block, index, type⟩

end Region

mutual
/-- The operands of an operation and, before them, of the operations nested in it: the order in
which `walk` meets them. -/
def Op.walk : Op → List Value
  | .mk _ _ operands _ regions => Region.walkAll regions ++ operands
/-- The operands in a region, those of its terminator last. -/
def Region.walk : Region → List Value
  | .mk _ _ ops returned => Op.walkAll ops ++ returned
def Op.walkAll : List Op → List Value
  | [] => []
  | op :: ops => op.walk ++ Op.walkAll ops
def Region.walkAll : List Region → List Value
  | [] => []
  | region :: regions => region.walk ++ Region.walkAll regions
end

mutual
/-- The operations and blocks an operation consists of. -/
def Op.owners : Op → List Owner
  | .mk id _ _ _ regions => .operation id :: Region.ownersAll regions
/-- The operations and blocks in a region. -/
def Region.owners : Region → List Owner
  | .mk block _ ops _ => .block block :: Op.ownersAll ops
def Op.ownersAll : List Op → List Owner
  | [] => []
  | op :: ops => op.owners ++ Op.ownersAll ops
def Region.ownersAll : List Region → List Owner
  | [] => []
  | region :: regions => region.owners ++ Region.ownersAll regions
end

/-- The tensors of the values in scope. -/
structure Env where
  get : Value → Option Tensor
  /-- A tensor has the type of its value. -/
  typed : ∀ {value tensor}, get value = some tensor → tensor.type = value.type

namespace Env

/-- The environment with nothing in scope. -/
def empty : Env := ⟨fun _ => none, nofun⟩

/-- Give the values of an owner their tensors. -/
def bind (env : Env) (owner : Owner) (tensors : List Tensor) : Env where
  get value :=
    if value.owner = owner then
      match tensors[value.index]? with
      | none => none
      | some tensor => if tensor.type = value.type then some tensor else none
    else env.get value
  typed := by
    intro value tensor isTensor
    split at isTensor
    · split at isTensor
      · contradiction
      · split at isTensor
        · rename_i same
          rwa [← Option.some.inj isTensor]
        · contradiction
    · exact env.typed isTensor

/-- The tensors of several values. -/
def getAll (env : Env) (values : List Value) : Option (List Tensor) := values.mapM env.get

theorem bind_other {env : Env} {owner : Owner} {tensors : List Tensor} {value : Value}
    (other : value.owner ≠ owner) : (env.bind owner tensors).get value = env.get value :=
  if_neg other

/-- Two environments with the same tensors are the same. -/
theorem ext {first second : Env} (same : ∀ value, first.get value = second.get value) :
    first = second := by
  cases first
  cases second
  congr
  exact funext same

end Env

/-- The signed value of an element. -/
def signedValue (width bits : Nat) : Int := (BitVec.ofNat width bits).toInt

/-- Whether a comparison of two integers holds. -/
def Direction.holds (direction : Direction) (lhs rhs : Int) : Bool :=
  match direction with
  | .EQ => lhs == rhs
  | .NE => lhs != rhs
  | .GE => decide (rhs ≤ lhs)
  | .GT => decide (rhs < lhs)
  | .LE => decide (lhs ≤ rhs)
  | .LT => decide (lhs < rhs)

/-- Combine two tensors of one shape element by element. -/
def Tensor.zip (element : ElementType) (combine : Nat → Nat → Nat) (lhs rhs : Tensor)
    (same : lhs.type = rhs.type) : Tensor where
  type := ⟨lhs.type.shape, element⟩
  elements := List.zipWith combine lhs.elements rhs.elements
  count := by
    rw [List.length_zipWith, lhs.count, rhs.count, same, Nat.min_self]
    rfl

/-- `stablehlo.add` on signed integers, modulo the width. -/
def addSigned (lhs rhs : Tensor) : Option Tensor :=
  if same : lhs.type = rhs.type then
    match lhs.type.element with
    | .signed width => some (Tensor.zip (.signed width) (fun a b => (a + b) % 2 ^ width) lhs rhs same)
    | _ => none
  else none

/-- `stablehlo.compare` on signed integers. -/
def compareSigned (direction : Direction) (lhs rhs : Tensor) : Option Tensor :=
  if same : lhs.type = rhs.type then
    match lhs.type.element with
    | .signed width =>
      some (Tensor.zip .boolean
        (fun a b => if direction.holds (signedValue width a) (signedValue width b) then 1 else 0)
        lhs rhs same)
    | _ => none
  else none

/-- `stablehlo.convert` of booleans to integers. -/
def convertBoolean (element : ElementType) (operand : Tensor) : Tensor where
  type := ⟨operand.type.shape, element⟩
  elements := operand.elements.map fun bits => if bits = 0 then 0 else 1
  count := (List.length_map ..).trans operand.count

/-- `ttir.where` on tensors of one shape: the second element where the first is true. -/
def whereBoolean (first second third : Tensor) (shape : first.type.shape = second.type.shape)
    (same : second.type = third.type) : Tensor where
  type := second.type
  elements := List.zipWith (fun flag (pair : Nat × Nat) => if flag = 0 then pair.2 else pair.1)
    first.elements (second.elements.zip third.elements)
  count := by
    rw [List.length_zipWith, List.length_zip, first.count, second.count, third.count, ← same,
      Nat.min_self, TensorType.numElements, shape]
    exact Nat.min_self _

/-- The one element of a tensor. -/
def Tensor.scalar (tensor : Tensor) : Option Nat :=
  match tensor.elements with
  | [bits] => some bits
  | _ => none

/-- A region as a function of its arguments. -/
abbrev Denotation := List Tensor → Option (List Tensor)

/-- What the operations that are not modelled compute from their operands and regions, given the
types of their results. -/
abbrev Kernels := Kind → List TensorType → List Tensor → List Denotation → Option (List Tensor)

/-- The test of a loop: whether its condition returns true. -/
def testOf (condition : Denotation) (state : List Tensor) : Option Bool :=
  match condition state with
  | some [flag] => flag.scalar.map (· != 0)
  | _ => none

/-- The branch a case selects: the last one for every index outside the range. -/
def selectBranch (index : Int) (branches : Nat) : Nat :=
  if 0 ≤ index ∧ index < branches then index.toNat else branches - 1

/-- The results of an operation. `fuel` bounds the iterations of a loop. -/
def Kind.apply (kernels : Kernels) (fuel : Nat) (kind : Kind) (resultTypes : List TensorType)
    (operands : List Tensor) (regions : List Denotation) : Option (List Tensor) :=
  match kind, operands, regions with
  | .constant value, _, _ => some [value]
  | .add, [lhs, rhs], regions =>
    if lhs.type = rhs.type then
      match lhs.type.element with
      | .signed _ => (addSigned lhs rhs).map ([·])
      | _ => kernels .add resultTypes [lhs, rhs] regions
    else none
  | .compare direction (some .SIGNED), [lhs, rhs], _ =>
    (compareSigned direction lhs rhs).map ([·])
  | .whileLoop, state, [condition, body] => loop (testOf condition) body fuel state
  | .case, [index], branches =>
    match index.type.element, index.scalar with
    | .signed width, some bits =>
      match branches[selectBranch (signedValue width bits) branches.length]? with
      | some branch => branch []
      | none => none
    | _, _ => none
  | .convert, [operand], regions =>
    match operand.type.element, resultTypes with
    | .boolean, [⟨_, .signed width⟩] => some [convertBoolean (.signed width) operand]
    | _, _ => kernels .convert resultTypes [operand] regions
  | .whereOp, [first, second, third], regions =>
    if same : first.type.element = .boolean ∧ first.type.shape = second.type.shape ∧
        second.type = third.type then
      some [whereBoolean first second third same.2.1 same.2.2]
    else kernels .whereOp resultTypes [first, second, third] regions
  | kind, operands, regions => kernels kind resultTypes operands regions

section
variable (kernels : Kernels) (fuel : Nat)

mutual
/-- The environment after an operation. -/
def Op.eval (env : Env) : Op → Option Env
  | .mk id kind operands resultTypes regions => do
    let tensors ← env.getAll operands
    let results ← kind.apply kernels fuel resultTypes tensors (Region.evalAll env regions)
    if results.map Tensor.type = resultTypes then some (env.bind (.operation id) results) else none
/-- What a region returns for its arguments. -/
def Region.eval (env : Env) : Region → Denotation
  | .mk block argumentTypes ops returned => fun arguments =>
    if arguments.map Tensor.type = argumentTypes then do
      let env ← Op.evalAll (env.bind (.block block) arguments) ops
      env.getAll returned
    else none
def Op.evalAll (env : Env) : List Op → Option Env
  | [] => some env
  | op :: ops => do
    let env ← op.eval env
    Op.evalAll env ops
def Region.evalAll (env : Env) : List Region → List Denotation
  | [] => []
  | region :: regions => region.eval env :: Region.evalAll env regions
end

/-- What a region does with its arguments. -/
theorem Region.eval_apply (region : Region) (env : Env) (arguments : List Tensor) :
    region.eval kernels fuel env arguments =
      if arguments.map Tensor.type = region.argumentTypes then
        (Op.evalAll kernels fuel (env.bind (.block region.block) arguments) region.ops).bind
          fun env => env.getAll region.returned
      else none := by
  cases region
  rfl

end

end Libtt.ControlFlow

import Libtt.Foundation.PathText
import Libtt.Foundation.Words
import Mathlib.Data.Char
import Mathlib.Data.List.Lex

/-!
# The hash that keys cached const-eval results

`hashConstEvalFuncOp` hashes each operation of a function by its name, attributes, result types
and operands, an operand by the key of the operation that makes it, and the function by its type
and the sorted keys. A function with an operation that nests regions or may write memory, or that
uses a value from elsewhere, keeps the exact hash `hashFuncOp`.
-/
namespace Libtt.ConstEval

open Libtt.Foundation

/-- An operand: an argument of the block, or a result of an operation, which the number names. -/
inductive Value where
  | blockArgument (argNumber : Nat)
  | opResult (definingOp resultNumber : Nat)
  deriving DecidableEq, Repr

/-- An operation. `id` stands for its identity, `mlir::Operation *`. -/
structure Operation (Name Attribute Ty : Type) where
  id : Nat
  name : Name
  rawDictionaryAttrs : Attribute
  propertiesAsAttribute : Option Attribute
  resultTypes : List Ty
  operands : List Value
  numRegions : Nat
  mightWrite : Bool

structure FuncOp (Name Attribute Ty : Type) where
  functionType : Ty
  blocks : List (List (Operation Name Attribute Ty))

/-- An operand as it stands in the text of an operation's key. -/
def IsOperandText (text : Text) : Prop :=
  (∃ number : Nat, text = "arg".toList ++ (toString number).toList) ∨
    ∃ (bytes : List UInt8) (number : Nat), text = toHex bytes ++ '#' :: (toString number).toList

/-- How names, attributes and types print. A name has no brace, attributes print within braces,
so where one ends can be seen; a type is read back when a space or the end follows it, and is not
an operand. -/
structure Printing (Name Attribute Ty : Type) where
  name : Name → Text
  attr : Attribute → Text
  type : Ty → Text
  name_injective : Function.Injective name
  name_plain : ∀ own, '{' ∉ name own
  attr_opens : ∀ own, ∃ rest, attr own = '{' :: rest
  attr_read : ∀ own other rest more, attr own ++ rest = attr other ++ more →
    own = other ∧ rest = more
  type_read : ∀ own other rest more, Ends rest → Ends more →
    type own ++ rest = type other ++ more → own = other ∧ rest = more
  type_apart : ∀ own operand rest more, IsOperandText operand → Ends rest → Ends more →
    type own ++ rest ≠ operand ++ more

section

variable {Name Attribute Ty : Type} (print : Printing Name Attribute Ty)
  (sha256 : Text → List UInt8) (hashFuncOp : FuncOp Name Attribute Ty → Text)

/-- The digest of a text, in hexadecimal. -/
def sha (text : Text) : Text := toHex (sha256 text)

/-- An operand in the text, unless its producer has no key. -/
def operandText (keys : Nat → Option Text) : Value → Option Text
  | .blockArgument argNumber => some ("arg".toList ++ (toString argNumber).toList)
  | .opResult definingOp resultNumber =>
    (keys definingOp).map fun key => key ++ '#' :: (toString resultNumber).toList

/-- The name, attributes and result types of an operation. -/
def headText (op : Operation Name Attribute Ty) : Text :=
  print.name op.name ++ (print.attr op.rawDictionaryAttrs ++
    ((op.propertiesAsAttribute.elim [] print.attr) ++ spaced (op.resultTypes.map print.type)))

/-- The key of an operation, where the exact hash is not kept for it. -/
def opKey (keys : Nat → Option Text) (op : Operation Name Attribute Ty) : Option Text :=
  if op.numRegions ≠ 0 ∨ op.mightWrite then none
  else (op.operands.mapM (operandText keys)).map fun operands =>
    sha sha256 (headText print op ++ spaced operands)

/-- The keys of the operations, in their order. -/
def opKeys (keys : Nat → Option Text) : List (Operation Name Attribute Ty) → Option (List Text)
  | [] => some []
  | op :: rest => (opKey print sha256 keys op).bind fun key =>
      (opKeys (Function.update keys op.id (some key)) rest).map (key :: ·)

def hashConstEvalFuncOp (func : FuncOp Name Attribute Ty) : Text :=
  match func.blocks with
  | [block] =>
    match opKeys print sha256 (fun _ => none) block with
    | none => hashFuncOp func
    | some keys => sha sha256 (print.type func.functionType ++ spaced (keys.mergeSort (· ≤ ·)))
  | _ => hashFuncOp func

end

section

variable {Name Attribute Ty Data : Type} [Inhabited Data]

/-- What operations compute: from the name, attributes and result types and the operands' values,
the values of the results. -/
abbrev Interpretation (Name Attribute Ty Data : Type) :=
  Name → Attribute → Option Attribute → List Ty → List Data → List Data

/-- The value of an operand, from the arguments and the results of the operations so far. -/
def operandValue (arguments : List Data) (results : Nat → List Data) : Value → Data
  | .blockArgument argNumber => arguments.getD argNumber default
  | .opResult definingOp resultNumber => (results definingOp).getD resultNumber default

def resultsOf (interpret : Interpretation Name Attribute Ty Data) (arguments : List Data)
    (results : Nat → List Data) (op : Operation Name Attribute Ty) : List Data :=
  interpret op.name op.rawDictionaryAttrs op.propertiesAsAttribute op.resultTypes
    (op.operands.map (operandValue arguments results))

/-- The results of the operations, run in their order. -/
def run (interpret : Interpretation Name Attribute Ty Data) (arguments : List Data)
    (results : Nat → List Data) (ops : List (Operation Name Attribute Ty)) : Nat → List Data :=
  ops.foldl (fun results op =>
    Function.update results op.id (resultsOf interpret arguments results op)) results

/-- What a block returns: the operands of its last operation. -/
def returned (interpret : Interpretation Name Attribute Ty Data) (arguments : List Data)
    (block : List (Operation Name Attribute Ty)) : Option (List Data) :=
  block.getLast?.map fun last => last.operands.map
    (operandValue arguments (run interpret arguments (fun _ => []) block))

end

/-- Producers stand before their consumers. -/
def Ordered {Name Attribute Ty : Type} :
    List Nat → List (Operation Name Attribute Ty) → Prop
  | _, [] => True
  | before, op :: rest => (∀ definingOp resultNumber,
      Value.opResult definingOp resultNumber ∈ op.operands → definingOp ∈ before) ∧
        Ordered (op.id :: before) rest

/-- A block whose order matters to nothing. -/
structure OrderFree {Name Attribute Ty : Type} (block : List (Operation Name Attribute Ty)) :
    Prop where
  distinct : (block.map Operation.id).Nodup
  ordered : Ordered [] block
  noRegions : ∀ op ∈ block, op.numRegions = 0
  noWrites : ∀ op ∈ block, op.mightWrite = false

/-- A block ends with a return, and only its end is one. -/
def Returns {Name Attribute Ty : Type} (return' : Name)
    (block : List (Operation Name Attribute Ty)) : Prop :=
  ∃ ops last, block = ops ++ [last] ∧ last.name = return' ∧ ∀ op ∈ ops, op.name ≠ return'

end Libtt.ConstEval

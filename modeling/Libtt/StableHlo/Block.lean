import Mathlib.Data.List.Basic

/-!
# Blocks of operations

The body of a reduction is a block: operations of one result each, over its arguments, what earlier
operations return and values from outside.
-/
namespace Libtt.StableHlo

/-- An argument of a block, what an operation in it returns, or a value from outside. -/
inductive BlockValue where
  | argument (index : Nat)
  | result (operation : Nat)
  | outside (index : Nat)
  deriving DecidableEq, Repr

structure BlockOperation (Op : Type) where
  op : Op
  operands : List BlockValue
  deriving DecidableEq, Repr

/-- A block; its terminator is the return. -/
structure Block (Op : Type) where
  arguments : Nat
  operations : List (BlockOperation Op)
  returned : List BlockValue
  deriving DecidableEq, Repr

variable {Op Datum : Type}

namespace BlockValue

/-- What a value is, once some operations have returned. -/
def read (arguments outside results : List Datum) : BlockValue → Option Datum
  | .argument index => arguments[index]?
  | .result operation => results[operation]?
  | .outside index => outside[index]?

theorem read_append {arguments outside results : List Datum} {value : BlockValue} {datum : Datum}
    (more : List Datum) (isRead : value.read arguments outside results = some datum) :
    value.read arguments outside (results ++ more) = some datum := by
  cases value with
  | argument index => exact isRead
  | outside index => exact isRead
  | result operation =>
    have below : operation < results.length := (List.getElem?_eq_some_iff.mp isRead).1
    rw [read, List.getElem?_append_left below]
    exact isRead

end BlockValue

namespace Block

variable (apply : Op → List Datum → Option Datum) (arguments outside : List Datum)

/-- One operation more. -/
def step (results : List Datum) (operation : BlockOperation Op) : Option (List Datum) := do
  let operands ← operation.operands.mapM (BlockValue.read arguments outside results)
  let result ← apply operation.op operands
  some (results ++ [result])

/-- What the operations return, one after the other. -/
def results (block : Block Op) : Option (List Datum) :=
  block.operations.foldlM (step apply arguments outside) []

/-- What the block returns. -/
def run (block : Block Op) : Option (List Datum) := do
  let results ← block.results apply arguments outside
  block.returned.mapM (BlockValue.read arguments outside results)

/-- The block computes a function of two arguments. -/
def Computes (block : Block Op) (body : Datum → Datum → Datum) : Prop :=
  ∀ left right, block.run apply [left, right] outside = some [body left right]

/-- `Value::getDefiningOp`. -/
def getDefiningOp (block : Block Op) : BlockValue → Option (BlockOperation Op)
  | .result operation => block.operations[operation]?
  | _ => none

/-- `utils::matchesBinaryReducer`: the block returns one operation of its two arguments, in either
order, and has no other. -/
def matchesBinaryReducer [DecidableEq Op] (op : Op) (block : Block Op) : Bool :=
  if block.arguments ≠ 2 ∨ block.operations.length + 1 ≠ 2 then false
  else
    match block.operations with
    | binary :: _ =>
      binary.op = op && block.returned == [.result 0] &&
        (binary.operands == [.argument 0, .argument 1] ||
          binary.operands == [.argument 1, .argument 0])
    | [] => false

variable {apply arguments outside}

theorem foldlM_append {operations : List (BlockOperation Op)} {before after : List Datum}
    (runs : operations.foldlM (step apply arguments outside) before = some after) :
    ∃ more, after = before ++ more := by
  induction operations generalizing before with
  | nil =>
    refine ⟨[], ?_⟩
    rw [List.append_nil]
    exact (Option.some.inj runs).symm
  | cons operation operations ih =>
    rw [List.foldlM_cons] at runs
    obtain ⟨next, isNext, rest⟩ := Option.bind_eq_some_iff.mp runs
    obtain ⟨operands, -, isResult⟩ := Option.bind_eq_some_iff.mp isNext
    obtain ⟨result, -, same⟩ := Option.bind_eq_some_iff.mp isResult
    obtain ⟨more, rfl⟩ := ih rest
    refine ⟨result :: more, ?_⟩
    rw [← Option.some.inj same, List.append_assoc]
    rfl

theorem mapM_read_append {values : List BlockValue} {results operands : List Datum}
    (more : List Datum)
    (isRead : values.mapM (BlockValue.read arguments outside results) = some operands) :
    values.mapM (BlockValue.read arguments outside (results ++ more)) = some operands := by
  induction values generalizing operands with
  | nil => exact isRead
  | cons value values ih =>
    rw [List.mapM_cons] at isRead ⊢
    obtain ⟨datum, isDatum, rest⟩ := Option.bind_eq_some_iff.mp isRead
    obtain ⟨others, areOthers, same⟩ := Option.bind_eq_some_iff.mp rest
    refine Option.bind_eq_some_iff.mpr ⟨datum, BlockValue.read_append more isDatum, ?_⟩
    exact Option.bind_eq_some_iff.mpr ⟨others, ih areOthers, same⟩

theorem operation_of_foldlM {operations : List (BlockOperation Op)} {before after : List Datum}
    (runs : operations.foldlM (step apply arguments outside) before = some after) {number : Nat}
    {operation : BlockOperation Op} (isOperation : operations[number]? = some operation) :
    ∃ operands datum, operation.operands.mapM (BlockValue.read arguments outside after) =
      some operands ∧ apply operation.op operands = some datum ∧
      after[before.length + number]? = some datum := by
  induction operations generalizing before number with
  | nil => cases isOperation
  | cons first operations ih =>
    rw [List.foldlM_cons] at runs
    obtain ⟨next, isNext, rest⟩ := Option.bind_eq_some_iff.mp runs
    obtain ⟨operands, areOperands, isResult⟩ := Option.bind_eq_some_iff.mp isNext
    obtain ⟨result, applied, same⟩ := Option.bind_eq_some_iff.mp isResult
    obtain rfl := Option.some.inj same
    cases number with
    | zero =>
      obtain rfl := Option.some.inj isOperation
      obtain ⟨more, rfl⟩ := foldlM_append rest
      refine ⟨operands, result, ?_, applied, ?_⟩
      · rw [List.append_assoc]
        exact mapM_read_append _ areOperands
      · simp
    | succ number =>
      have found := ih rest isOperation
      rw [List.length_append, List.length_singleton, Nat.add_assoc, Nat.add_comm 1] at found
      exact found

/-- An operation of a block that runs has operands, and returns what it makes of them. -/
theorem operation_of_results {block : Block Op} {results : List Datum}
    (runs : block.results apply arguments outside = some results) {value : BlockValue}
    {operation : BlockOperation Op} (isOperation : block.getDefiningOp value = some operation) :
    ∃ operands datum, operation.operands.mapM (BlockValue.read arguments outside results) =
      some operands ∧ apply operation.op operands = some datum ∧
      value.read arguments outside results = some datum := by
  cases value with
  | result number =>
    obtain ⟨operands, datum, areOperands, applied, isDatum⟩ := operation_of_foldlM runs isOperation
    refine ⟨operands, datum, areOperands, applied, ?_⟩
    rw [List.length_nil, Nat.zero_add] at isDatum
    exact isDatum
  | argument index => cases isOperation
  | outside index => cases isOperation

/-- What an operation makes of operands that are known. -/
theorem read_of_operation {block : Block Op} {results operands : List Datum}
    (runs : block.results apply arguments outside = some results) {value : BlockValue}
    {operation : BlockOperation Op} (isOperation : block.getDefiningOp value = some operation)
    (areOperands : operation.operands.mapM (BlockValue.read arguments outside results) =
      some operands)
    {datum : Datum} (applied : apply operation.op operands = some datum) :
    value.read arguments outside results = some datum := by
  obtain ⟨found, result, areFound, appliedFound, isResult⟩ := operation_of_results runs isOperation
  obtain rfl := Option.some.inj (areFound.symm.trans areOperands)
  obtain rfl := Option.some.inj (appliedFound.symm.trans applied)
  exact isResult

/-- A body that is one operation of its arguments returns what that makes of them. -/
theorem run_of_matchesBinaryReducer [DecidableEq Op] {op : Op} {block : Block Op}
    (isReducer : block.matchesBinaryReducer op) (left right : Datum) :
    block.run apply [left, right] outside = (apply op [left, right]).map ([·]) ∨
      block.run apply [left, right] outside = (apply op [right, left]).map ([·]) := by
  unfold matchesBinaryReducer at isReducer
  split at isReducer
  · cases isReducer
  · rename_i counts
    split at isReducer
    · rename_i binary others isFirst
      simp only [Bool.and_eq_true, Bool.or_eq_true, decide_eq_true_eq, beq_iff_eq] at isReducer
      obtain ⟨⟨rfl, returned⟩, order⟩ := isReducer
      have single : others = [] := by
        rw [isFirst, List.length_cons] at counts
        exact List.length_eq_zero_iff.mp (by omega)
      rw [run, results, isFirst, single, returned]
      simp only [List.foldlM_cons, List.foldlM_nil, step]
      cases order with
      | inl inOrder =>
        left
        rw [inOrder]
        cases applied : apply binary.op [left, right] <;> simp [BlockValue.read, applied]
      | inr reversed =>
        right
        rw [reversed]
        cases applied : apply binary.op [right, left] <;> simp [BlockValue.read, applied]
    · cases isReducer

/-- Such a body computes a function in which the order of the arguments does not matter. -/
theorem computes_of_matchesBinaryReducer [DecidableEq Op] {op : Op} {block : Block Op}
    (isReducer : block.matchesBinaryReducer op) {body : Datum → Datum → Datum}
    (applies : ∀ left right, apply op [left, right] = some (body left right))
    (commutes : ∀ left right, body left right = body right left) :
    block.Computes apply outside body := by
  intro left right
  cases run_of_matchesBinaryReducer isReducer left right with
  | inl inOrder => rw [inOrder, applies, Option.map_some]
  | inr reversed => rw [reversed, applies, Option.map_some, commutes]

end Block

end Libtt.StableHlo

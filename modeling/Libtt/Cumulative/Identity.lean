import Libtt.Cumulative.Correct
import Libtt.Cumulative.LogSumExp

/-!
# Init values that are identities

The init values that the conversion checks for leave the elements as they are: the least of a
maximum, the greatest of a minimum, and zero of a sum of integers.
-/
namespace Libtt.Cumulative

open Libtt.StableHlo

variable {type : ElementType} {initValue : Element type}

/-- The init value of a maximum is an identity. -/
theorem maximum_negInf (semantics : Semantics) (isInit : checkInitValue .negInf type initValue)
    (value : Element type) : semantics.combine .maximum type value initValue = value := by
  cases type with
  | float format =>
    cases initValue with
    | nan => cases isInit
    | number key mem =>
      simp only [checkInitValue, Bool.and_eq_true, beq_iff_eq] at isInit
      obtain ⟨-, infinite, rfl⟩ := isInit
      have least := FloatValue.getInf_maximum infinite value
      rw [FloatValue.getInf, if_pos infinite, if_pos rfl] at least
      exact (FloatValue.maximum_comm _ _).trans least
  | integer type =>
    change type.combine .maximum value initValue = value
    simp only [checkInitValue] at isInit
    rw [type.combine_comm, IntegerType.combine]
    by_cases bool : type.width = 1
    · rw [if_pos (by simp [bool]), beq_iff_eq] at isInit
      rw [if_pos bool, isInit, BitVec.zero_or]
    · rw [if_neg bool]
      refine IntegerType.maximum_least ?_ value
      by_cases isSigned : type.signed
      · rw [if_neg (by simp [bool, isSigned]), beq_iff_eq] at isInit
        rw [isInit, IntegerType.read_intMin isSigned]
      · rw [if_pos (by simp [isSigned]), beq_iff_eq] at isInit
        rw [isInit, IntegerType.read_zero isSigned]

/-- The init value of a minimum is an identity. -/
theorem minimum_posInf (semantics : Semantics) (isInit : checkInitValue .posInf type initValue)
    (value : Element type) : semantics.combine .minimum type value initValue = value := by
  cases type with
  | float format =>
    cases initValue with
    | nan => cases isInit
    | number key mem =>
      simp only [checkInitValue, Bool.and_eq_true, beq_iff_eq] at isInit
      obtain ⟨-, infinite, rfl⟩ := isInit
      have greatest := FloatValue.getInf_minimum infinite value
      rw [FloatValue.getInf, if_pos infinite, if_neg Bool.false_ne_true] at greatest
      exact (FloatValue.minimum_comm _ _).trans greatest
  | integer type =>
    change type.combine .minimum value initValue = value
    simp only [checkInitValue] at isInit
    rw [type.combine_comm, IntegerType.combine]
    by_cases bool : type.width = 1
    · rw [if_pos (by simp [bool]), beq_iff_eq] at isInit
      rw [if_pos bool, isInit, BitVec.allOnes_and]
    · rw [if_neg bool]
      refine IntegerType.minimum_largest ?_ value
      by_cases isSigned : type.signed
      · rw [if_neg (by simp [bool, isSigned]), beq_iff_eq] at isInit
        rw [isInit, IntegerType.read_intMax isSigned]
      · rw [if_pos (by simp [isSigned]), beq_iff_eq] at isInit
        rw [isInit, IntegerType.read_allOnes isSigned]

/-- The init value of a sum of integers is an identity. -/
theorem add_zero {type : IntegerType} {initValue : type.Word}
    (isInit : checkInitValue .zero (.integer type) initValue) (value : type.Word) :
    type.combine .add value initValue = value := by
  simp only [checkInitValue, beq_iff_eq] at isInit
  rw [isInit, IntegerType.combine]
  split
  · exact BitVec.or_zero
  · exact BitVec.add_zero value

end Libtt.Cumulative

/-! ## Windows that the matchers accept -/
namespace Libtt.Cumulative

open Libtt.Foundation Libtt.StableHlo

variable {type : ElementType} {found : CumulativeReductionMatch}

/-- After a dimension was found, the others are of size one. -/
theorem findWindowDimension_some {dims : List Nat} {idx : Nat} {first result : Nat × Nat}
    (isFound : findWindowDimension dims idx (some first) = some (some result)) :
    result = first ∧ dims = List.replicate dims.length 1 := by
  induction dims generalizing idx with
  | nil => exact ⟨(Option.some.inj (Option.some.inj isFound)).symm, rfl⟩
  | cons windowDim rest ih =>
    rw [findWindowDimension] at isFound
    by_cases one : windowDim = 1
    · rw [if_pos one] at isFound
      obtain ⟨same, ones⟩ := ih isFound
      rw [List.length_cons, List.replicate_succ, ← ones, one]
      exact ⟨same, rfl⟩
    · rw [if_neg one, Option.isSome_some, if_pos rfl] at isFound
      cases isFound

/-- The dimension that is found is the only one that is not of size one. -/
theorem findWindowDimension_none {dims : List Nat} {idx size place : Nat}
    (isFound : findWindowDimension dims idx none = some (some (size, place))) :
    ∃ dim < dims.length, place = idx + dim ∧
      dims = (List.replicate dims.length 1).set dim size := by
  induction dims generalizing idx with
  | nil => cases isFound
  | cons windowDim rest ih =>
    rw [findWindowDimension] at isFound
    by_cases one : windowDim = 1
    · rw [if_pos one] at isFound
      obtain ⟨dim, inside, rfl, dims⟩ := ih isFound
      refine ⟨dim + 1, Nat.succ_lt_succ inside, by omega, ?_⟩
      rw [List.length_cons, List.replicate_succ, List.set_cons_succ, ← dims, one]
    · rw [if_neg one, Option.isSome_none, if_neg Bool.false_ne_true] at isFound
      obtain ⟨same, ones⟩ := findWindowDimension_some isFound
      obtain ⟨rfl, rfl⟩ := Prod.mk.inj same
      refine ⟨0, Nat.zero_lt_succ _, rfl, ?_⟩
      rw [List.length_cons, List.replicate_succ, List.set_cons_zero, ← ones]

/-- What is accepted spans the dimension of the match. -/
theorem validateNonSplatPadding_spans {α : Type} {op : ReduceWindowOp α} {shape : List Nat}
    (length : op.windowDimensions.length = shape.length)
    (valid : validateNonSplatPadding op.windowDimensions op.padding shape = some found) :
    op.Spans shape.length found.dimension (shape.getD found.dimension 0) found.reverse ∧
      1 < shape.getD found.dimension 0 := by
  unfold validateNonSplatPadding at valid
  split at valid
  · rename_i size dimension isFound
    obtain ⟨dim, inside, place, dims⟩ := findWindowDimension_none isFound
    obtain rfl : dim = dimension := by omega
    split at valid
    · cases valid
    have isSize : size = shape.getD dim 0 := by omega
    have several : 1 < size := by omega
    subst isSize
    split at valid
    · cases valid
    rename_i others
    rw [length] at inside dims
    have zero {place : Nat} (low : place ≠ dim * 2) (high : place ≠ dim * 2 + 1) :
        op.padding.getD place 0 = 0 := by
      by_contra nonzero
      by_cases listed : place < op.padding.length
      · exact others ⟨place, listed, low, high, nonzero⟩
      · exact nonzero (List.getD_eq_default _ _ (by omega))
    dsimp only at valid
    split at valid
    · rename_i padding
      rw [← Option.some.inj valid]
      refine ⟨⟨inside, dims, fun place _ => ?_⟩, several⟩
      simp only [Bool.false_eq_true, if_false]
      by_cases low : place = 2 * dim + 0
      · rw [if_pos low, low, Nat.add_zero, Nat.mul_comm, padding.1]
      · rw [if_neg low]
        by_cases high : place = 2 * dim + 1
        · rw [high, Nat.mul_comm, padding.2]
        · exact zero (by omega) (by omega)
    · split at valid
      · rename_i padding
        rw [← Option.some.inj valid]
        refine ⟨⟨inside, dims, fun place _ => ?_⟩, several⟩
        simp only [if_true]
        by_cases high : place = 2 * dim + 1
        · rw [if_pos high, high, Nat.mul_comm, padding.2]
        · rw [if_neg high]
          by_cases low : place = 2 * dim
          · rw [low, Nat.mul_comm, padding.1]
          · exact zero (by omega) (by omega)
      · cases valid
  · cases valid

/-- The elements along the dimension of a match, up to an index or from it on. -/
def passed {α : Type} (found : CumulativeReductionMatch) (operand : Tensor α) (index : List Nat) :
    List α :=
  if found.reverse then (operand.scanned found.dimension true index).reverse
  else operand.scanned found.dimension false index

/-- The window of each index holds the elements along the dimension and init values. -/
structure RunsAlong {α : Type} (op : ReduceWindowOp α) (found : CumulativeReductionMatch)
    (operand : Tensor α) : Prop where
  inside : found.dimension < operand.shape.length
  shape : op.resultShape operand.shape = operand.shape
  window : ∀ index, Within index operand.shape → ∃ padding,
    op.window operand index = if found.reverse
      then passed found operand index ++ List.replicate padding op.initValue
      else List.replicate padding op.initValue ++ passed found operand index

theorem runsAlong_of_spans {α : Type} {op : ReduceWindowOp α} {operand : Tensor α}
    (spans : op.Spans operand.shape.length found.dimension
      (operand.shape.getD found.dimension 0) found.reverse)
    (several : 1 < operand.shape.getD found.dimension 0) : RunsAlong op found operand where
  inside := spans.within
  shape := spans.resultShape rfl rfl (Nat.zero_lt_of_lt several)
  window index within := by
    obtain ⟨dimension, reverse⟩ := found
    obtain ⟨before, after, isShape, rfl⟩ := exists_split spans.within
    generalize operand.shape.getD before.length 0 = size at *
    rw [isShape] at within spans
    obtain ⟨first, position, last, rfl, isFirst, below, isLast⟩ := within_split.mp within
    cases reverse with
    | false =>
      refine ⟨size - 1 - position, ?_⟩
      rw [window_forward spans isShape isFirst isLast below]
      rfl
    | true =>
      refine ⟨position, ?_⟩
      rw [window_reverse spans isShape isFirst isLast below]
      rfl

/-- Every reduction of the window is one of the elements. -/
theorem RunsAlong.reduces {α : Type} {op : ReduceWindowOp α} {operand : Tensor α}
    (along : RunsAlong op found operand) {body : α → α → α} {index : List Nat}
    (within : Within index operand.shape) {result : α}
    (reduces : Reduces body op.initValue (op.window operand index) result) :
    Reduces body op.initValue (passed found operand index) result := by
  obtain ⟨padding, window⟩ := along.window index within
  rw [window] at reduces
  split at reduces
  · exact reduces.thin (.append_replicate _ _)
  · exact reduces.thin (.replicate_append _ _)

/-- What the cumulative operations reduce: the elements in the order of their scan. -/
theorem running_combines {α : Type} (body : α → α → α) (operand : Tensor α)
    (inside : found.dimension < operand.shape.length) {index : List Nat}
    (within : Within index operand.shape) :
    Combines body (operand.scanned found.dimension found.reverse index)
      ((operand.running body found.dimension found.reverse).data index) := by
  have some : operand.scanned found.dimension found.reverse index ≠ [] :=
    scanned_ne_nil within inside
  rw [Tensor.running]
  dsimp only
  generalize operand.scanned found.dimension found.reverse index = elements at some ⊢
  cases elements with
  | nil => exact absurd rfl some
  | cons element elements => exact .foldl body element elements

/-- The operations of a body that is accepted. -/
theorem isLogAddExpBody_operations {block : Block} (accepted : block.isLogAddExpBody) :
    ∃ value pred onTrue onFalse compareType d left right exponential negated absolute,
      block.operations.getLast? = some ⟨.returnOp, [value]⟩ ∧
      block.getDefiningOp value = some ⟨.select, [pred, onTrue, onFalse]⟩ ∧
      block.getDefiningOp pred = some ⟨.compare .NE compareType, [d, d]⟩ ∧
      compareType ≠ some .TOTALORDER ∧
      block.getDefiningOp d = some ⟨.subtract, [.argument 0, .argument 1]⟩ ∧
      block.getDefiningOp onTrue = some ⟨.add, [.argument 0, .argument 1]⟩ ∧
      block.getDefiningOp onFalse = some ⟨.add, [left, right]⟩ ∧
      block.getDefiningOp left = some ⟨.max, [.argument 0, .argument 1]⟩ ∧
      block.getDefiningOp right = some ⟨.log1p, [exponential]⟩ ∧
      block.getDefiningOp exponential = some ⟨.exp, [negated]⟩ ∧
      block.getDefiningOp negated = some ⟨.neg, [absolute]⟩ ∧
      block.getDefiningOp absolute = some ⟨.abs, [d]⟩ := by
  unfold Block.isLogAddExpBody at accepted
  split at accepted
  · cases accepted
  rw [Bool.and_eq_true] at accepted
  replace accepted := accepted.2
  split at accepted
  · rename_i value isReturn
    split at accepted
    · rename_i pred onTrue onFalse isSelect
      split at accepted
      · rename_i direction compareType lhs rhs isCompare
        split at accepted
        · rename_i left right isResult
          simp only [Bool.and_eq_true, Bool.or_eq_true, beq_iff_eq] at accepted
          obtain ⟨⟨⟨⟨⟨rfl, float⟩, rfl⟩, isDiff⟩, isSum⟩, isMax, accepted⟩ := accepted
          split at accepted
          · rename_i exponential isLog1p
            split at accepted
            · rename_i negated isExp
              split at accepted
              · rename_i absolute isNeg
                have notTotal : compareType ≠ some .TOTALORDER := by
                  rcases float with rfl | rfl <;> simp
                exact ⟨value, pred, onTrue, onFalse, compareType, lhs, left, right, exponential,
                  negated, absolute, isReturn, isSelect, isCompare, notTotal, isDiff, isSum,
                  isResult, isMax, isLog1p, isExp, isNeg, beq_iff_eq.mp accepted⟩
              · cases accepted
            · cases accepted
          · cases accepted
        · simp at accepted
      · cases accepted
    · cases accepted
  · cases accepted

theorem isLogAddExpBody_computes {format : FloatFormat} {block : Block}
    (accepted : block.isLogAddExpBody) (functions : FloatFunctions format) :
    block.Computes functions functions.logAddExp := by
  obtain ⟨value, pred, onTrue, onFalse, compareType, d, left, right, exponential, negated,
    absolute, isReturn, isSelect, isCompare, notTotal, isDiff, isSum, isResult, isMax, isLog1p,
    isExp, isNeg, isAbs⟩ := isLogAddExpBody_operations accepted
  refine ⟨value, isReturn, fun x y data runs => ?_⟩
  have data_of {value : Value} {operation : Operation} {datum : Datum format}
      (isDefined : block.getDefiningOp value = some operation)
      (applied : operation.op.apply functions (operation.operands.map data) = some datum) :
      data value = datum := runs.defined value operation isDefined datum applied
  have diff : data d = .element (functions.subtract x y) :=
    data_of isDiff (by simp [runs.first, runs.second, BodyOp.apply])
  have sum : data onTrue = .element (functions.add x y) :=
    data_of isSum (by simp [runs.first, runs.second, BodyOp.apply])
  have max : data left = .element (x.maximum y) :=
    data_of isMax (by simp [runs.first, runs.second, BodyOp.apply])
  have abs : data absolute = .element (functions.abs (functions.subtract x y)) :=
    data_of isAbs (by simp [diff, BodyOp.apply])
  have neg : data negated = .element (functions.neg (functions.abs (functions.subtract x y))) :=
    data_of isNeg (by simp [abs, BodyOp.apply])
  have exp : data exponential =
      .element (functions.exp (functions.neg (functions.abs (functions.subtract x y)))) :=
    data_of isExp (by simp [neg, BodyOp.apply])
  have log1p : data right = .element (functions.log1p (functions.exp
      (functions.neg (functions.abs (functions.subtract x y))))) :=
    data_of isLog1p (by simp [exp, BodyOp.apply])
  have result : data onFalse = .element (functions.add (x.maximum y) (functions.log1p
      (functions.exp (functions.neg (functions.abs (functions.subtract x y)))))) :=
    data_of isResult (by simp [max, log1p, BodyOp.apply])
  have compares : compareFloats .NE compareType (functions.subtract x y)
      (functions.subtract x y) = compareOp .NE (.float format) (functions.subtract x y)
        (functions.subtract x y) := by
    unfold compareFloats
    split
    · exact absurd rfl notTotal
    · rfl
  have isNan : data pred = .pred (compareOp .NE (.float format) (functions.subtract x y)
      (functions.subtract x y)) := data_of isCompare (by simp [diff, BodyOp.apply, compares])
  refine data_of isSelect ?_
  simp only [List.map_cons, List.map_nil, isNan, sum, result, BodyOp.apply]
  rfl

end Libtt.Cumulative

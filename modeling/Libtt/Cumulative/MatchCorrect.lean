import Libtt.Cumulative.Identity

/-!
# Recognised running reductions

What the matchers accept is the running reduction of the dimension and direction that they return,
and the operations that replace it compute that reduction, in f32 for integers that are multiplied,
or summed in another width than 32 bits.
-/
namespace Libtt.Cumulative

open Libtt.Foundation Libtt.StableHlo

variable {semantics : Semantics} {type : ElementType} {checks : Checks (Element type)}
  {op : ReduceWindowOp (Element type)} {body : Combiner} {found : CumulativeReductionMatch}
  {operand : Tensor (Element type)}

/-- The matcher of a body, which is the only one that may accept it. -/
def matcher (checks : Checks (Element type)) (op : ReduceWindowOp (Element type))
    (body : Combiner) (shape : List Nat) : Option CumulativeReductionMatch :=
  match body with
  | .add => isCumSum checks op body shape
  | .multiply => isCumProd checks op body shape
  | .maximum | .minimum => isCumulativeExtremum checks op body shape

/-- The operations that replace a window with a body. -/
def replacement (semantics : Semantics) (body : Combiner) (found : CumulativeReductionMatch)
    (operand : Tensor (Element type)) : Tensor (Element type) :=
  match body with
  | .add | .multiply => replaceWithCumulativeOp semantics body found operand
  | .maximum | .minimum => replaceWithCumulativeReduction semantics body found operand

/-- The init value that the matcher of a body asks for. -/
def identityOf : Combiner → TypicalInitReductionValue
  | .add => .zero
  | .multiply => .one
  | .maximum => .negInf
  | .minimum => .posInf

theorem isCumulative_other {combiner : Combiner} (desired : TypicalInitReductionValue)
    (other : body ≠ combiner) (shape : List Nat) :
    isCumulative checks combiner desired op body shape = none :=
  if_neg fun accepted => other accepted.1

theorem lowerReduceWindow_matcher : lowerReduceWindow semantics checks op body operand =
    (matcher checks op body operand.shape).map fun found =>
      replacement semantics body found operand := by
  have notSum (other : body ≠ .add) : isCumSum checks op body operand.shape = none :=
    isCumulative_other .zero other _
  have notProd (other : body ≠ .multiply) : isCumProd checks op body operand.shape = none :=
    isCumulative_other .one other _
  unfold lowerReduceWindow
  cases body with
  | add =>
    change _ = (isCumSum checks op .add operand.shape).map _
    cases isCumSum checks op .add operand.shape <;> rfl
  | multiply =>
    change _ = (isCumProd checks op .multiply operand.shape).map _
    cases isCumProd checks op .multiply operand.shape <;> rfl
  | maximum => rw [notSum (by decide), notProd (by decide)]; rfl
  | minimum => rw [notSum (by decide), notProd (by decide)]; rfl

theorem isCumulative_accepts {combiner : Combiner} {desired : TypicalInitReductionValue}
    {shape : List Nat} (isFound : isCumulative checks combiner desired op body shape = some found) :
    checkInitValue desired type op.initValue ∧
      hasValidInputAndPadding checks op shape = some found := by
  unfold isCumulative at isFound
  split at isFound
  · rename_i accepted
    exact ⟨accepted.2.1, isFound⟩
  · cases isFound

theorem matcher_accepts {shape : List Nat} (isFound : matcher checks op body shape = some found) :
    checkInitValue (identityOf body) type op.initValue ∧
      hasValidInputAndPadding checks op shape = some found := by
  cases body with
  | add | multiply | maximum | minimum => exact isCumulative_accepts isFound

/-- Padding that is not the same everywhere. -/
theorem runsAlong_of_padding {op : ReduceWindowOp (Element type)}
    (length : op.windowDimensions.length = operand.shape.length)
    (notSplat : ¬∀ amount ∈ op.padding, amount = op.padding.headD 0)
    (valid : hasValidInputAndPadding checks op operand.shape = some found) :
    RunsAlong op found operand := by
  rw [hasValidInputAndPadding, if_neg notSplat] at valid
  obtain ⟨spans, several⟩ := validateNonSplatPadding_spans length valid
  exact runsAlong_of_spans spans several

/-- What replaces a window is the running reduction in the type of the operation. -/
theorem replacement_running (within : found.dimension < operand.shape.length) :
    (replacement semantics body found operand).shape = operand.shape ∧
      ∀ index, Within index operand.shape →
        (replacement semantics body found operand).data index =
          (runningIn semantics body (computedIn body type) operand found.dimension
            found.reverse).data index := by
  have reduction : (replaceWithCumulativeReduction semantics body found operand).shape =
      operand.shape := by
    unfold replaceWithCumulativeReduction
    rw [castToElementType_shape]
    exact castToElementType_shape _ _ operand
  cases body with
  | add | multiply =>
    exact ⟨replaceWithCumulativeOp_shape _ _ _, fun index inside =>
      replaceWithCumulativeOp_data _ _ operand inside within⟩
  | maximum | minimum => exact ⟨reduction, fun _ _ => rfl⟩

/-- The operations keep the elements exactly: floats, the greatest or the least, and sums of 32
bits. Other sums and products of integers are computed in f32. -/
def Keeps (body : Combiner) : ElementType → Prop
  | .float _ => True
  | .integer type => body = .maximum ∨ body = .minimum ∨ body = .add ∧ type.width = 32

/-- There the operations are the running reduction in the elements' own type. -/
theorem runningIn_keeps (keeps : Keeps body type) {dim : Nat} {reverse : Bool} (index : List Nat) :
    (runningIn semantics body (computedIn body type) operand dim reverse).data index =
      (operand.running (semantics.combine body type) dim reverse).data index := by
  have own : (runningIn semantics body type operand dim reverse).data index =
      (operand.running (semantics.combine body type) dim reverse).data index := by
    rw [runningIn, castToElementType_self, castToElementType_self]
  cases type with
  | float format =>
    have isType : computedIn body (.float format) = .float format := by cases body <;> rfl
    rw [isType, own]
  | integer type =>
    rcases keeps with rfl | rfl | ⟨rfl, isWide⟩
    · exact runningIn_extremum (.inl rfl) operand index
    · exact runningIn_extremum (.inr rfl) operand index
    · have isType : computedIn .add (.integer type) = .integer type := if_pos ⟨rfl, isWide⟩
      rw [isType, own]

/-- The order of the elements, and where init values are put in, is no matter. -/
structure Unordered (op : Element type → Element type → Element type) (init : Element type) :
    Prop where
  assoc : Std.Associative op
  comm : Std.Commutative op
  identity : Std.LawfulIdentity op init

theorem Unordered.of {combine : Element type → Element type → Element type} {init : Element type}
    (assoc : ∀ first second third, combine (combine first second) third =
      combine first (combine second third))
    (comm : ∀ first second, combine first second = combine second first)
    (identity : ∀ value, combine value init = value) : Unordered combine init where
  assoc := ⟨assoc⟩
  comm := ⟨comm⟩
  identity := { left_id := fun value => (comm init value).trans (identity value),
                right_id := identity }

theorem unordered_combine (semantics : Semantics) {init : Element type}
    (isInit : checkInitValue (identityOf body) type init)
    (exact : body = .maximum ∨ body = .minimum ∨
      body = .add ∧ ∃ integer : IntegerType, type = .integer integer) :
    Unordered (semantics.combine body type) init := by
  rcases exact with rfl | rfl | ⟨rfl, integer, rfl⟩
  · refine .of ?_ ?_ (maximum_negInf semantics isInit)
    · cases type with
      | float format => exact FloatValue.maximum_assoc
      | integer type => exact IntegerType.combine_assoc .maximum
    · cases type with
      | float format => exact FloatValue.maximum_comm
      | integer type => exact IntegerType.combine_comm .maximum
  · refine .of ?_ ?_ (minimum_posInf semantics isInit)
    · cases type with
      | float format => exact FloatValue.minimum_assoc
      | integer type => exact IntegerType.combine_assoc .minimum
    · cases type with
      | float format => exact FloatValue.minimum_comm
      | integer type => exact IntegerType.combine_comm .minimum
  · exact .of (IntegerType.combine_assoc .add) (IntegerType.combine_comm .add) (add_zero isInit)

theorem foldr_passed {α : Type} {combine : α → α → α} {init : α} [Std.Associative combine]
    [Std.Commutative combine] [Std.LawfulIdentity combine init] (operand : Tensor α)
    (index : List Nat) : (passed found operand index).foldr combine init =
      (operand.scanned found.dimension found.reverse index).foldr combine init := by
  unfold passed
  split
  · rename_i isReverse
    rw [foldr_reverse, isReverse]
  · rename_i isForward
    rw [Bool.not_eq_true] at isForward
    rw [isForward]

/-- A window is the running reduction of its match, and the operations that replace it compute
that: in the type of the operation, which keeps the elements of some types. -/
structure Recognised (semantics : Semantics) (checks : Checks (Element type))
    (op : ReduceWindowOp (Element type)) (body : Combiner) (found : CumulativeReductionMatch)
    (operand result : Tensor (Element type)) : Prop where
  along : RunsAlong op found operand
  lowered : lowerReduceWindow semantics checks op body operand = some result
  shape : result.shape = operand.shape
  elements : ∀ index, Within index operand.shape → ∀ reduced,
    Reduces (semantics.combine body type) op.initValue (op.window operand index) reduced →
      Reduces (semantics.combine body type) op.initValue (passed found operand index) reduced
  computed : ∀ index, Within index operand.shape → result.data index =
    (runningIn semantics body (computedIn body type) operand found.dimension
      found.reverse).data index
  kept : Keeps body type → ∀ index, Within index operand.shape →
    Combines (semantics.combine body type)
      (operand.scanned found.dimension found.reverse index) (result.data index)
  exact : Keeps body type → (body = .maximum ∨ body = .minimum ∨
      body = .add ∧ ∃ integer : IntegerType, type = .integer integer) →
    ∀ index, Within index operand.shape → ∀ reduced,
      Reduces (semantics.combine body type) op.initValue (op.window operand index) reduced →
        result.data index = reduced

/-- A window with one of the bodies. -/
theorem recognised (semantics : Semantics)
    (length : op.windowDimensions.length = operand.shape.length)
    (notSplat : ¬∀ amount ∈ op.padding, amount = op.padding.headD 0)
    (isFound : matcher checks op body operand.shape = some found) :
    Recognised semantics checks op body found operand
      (replacement semantics body found operand) := by
  obtain ⟨isInit, valid⟩ := matcher_accepts isFound
  have along := runsAlong_of_padding length notSplat valid
  have shape : (replacement semantics body found operand).shape = operand.shape :=
    (replacement_running along.inside).1
  have data {index : List Nat} (within : Within index operand.shape) :
      (replacement semantics body found operand).data index =
        (runningIn semantics body (computedIn body type) operand found.dimension
          found.reverse).data index := (replacement_running along.inside).2 index within
  have own (keeps : Keeps body type) {index : List Nat} (within : Within index operand.shape) :
      (replacement semantics body found operand).data index =
        (operand.running (semantics.combine body type) found.dimension found.reverse).data index :=
    (data within).trans (runningIn_keeps keeps index)
  exact {
    along, shape
    lowered := by
      rw [lowerReduceWindow_matcher, isFound]
      rfl
    elements := fun index within reduced => along.reduces within
    computed := fun index within => data within
    kept := fun keeps index within => by
      rw [own keeps within]
      exact running_combines _ operand along.inside within
    exact := fun keeps exact index within reduced reduces => by
      obtain ⟨assoc, comm, identity⟩ := unordered_combine semantics isInit exact
      have total : (operand.running (semantics.combine body type) found.dimension
          found.reverse).data index = (operand.scanned found.dimension found.reverse index).foldr
            (semantics.combine body type) op.initValue := running_data within along.inside
      rw [own keeps within, total, ← foldr_passed]
      exact (along.reduces within reduces).eq_foldr.symm }

/-- A window is the running logaddexp of its match, and so is what replaces it. -/
structure RecognisedLogSumExp {format : FloatFormat} (functions : FloatFunctions format)
    (op : ReduceWindowOp (FloatValue format)) (body : Block) (found : CumulativeReductionMatch)
    (operand result : Tensor (FloatValue format)) : Prop where
  computes : body.Computes functions functions.logAddExp
  along : RunsAlong op found operand
  shape : result.shape = operand.shape
  elements : ∀ index, Within index operand.shape → ∀ reduced,
    Reduces functions.logAddExp op.initValue (op.window operand index) reduced →
      Reduces functions.logAddExp op.initValue (passed found operand index) reduced
  kept : ∀ index, Within index operand.shape → Combines functions.logAddExp
    (operand.scanned found.dimension found.reverse index) (result.data index)

/-- A window with JAX's logaddexp for its body. -/
theorem recognised_logsumexp {format : FloatFormat} (functions : FloatFunctions format)
    {checks : Checks (FloatValue format)} {op : ReduceWindowOp (FloatValue format)} {body : Block}
    {operand : Tensor (FloatValue format)}
    (length : op.windowDimensions.length = operand.shape.length)
    (notSplat : ¬∀ amount ∈ op.padding, amount = op.padding.headD 0)
    (isFound : isCumulativeLogSumExp checks op body operand.shape = some found) :
    RecognisedLogSumExp functions op body found operand
      (replaceWithCumulativeLogSumExp functions found operand) := by
  unfold isCumulativeLogSumExp at isFound
  split at isFound
  · rename_i accepted
    have along : RunsAlong op found operand :=
      @runsAlong_of_padding (.float format) checks found operand op length notSplat isFound
    exact {
      along
      computes := isLogAddExpBody_computes accepted.1 functions
      shape := rfl
      elements := fun index within reduced => along.reduces within
      kept := fun index within => running_combines _ operand along.inside within }
  · cases isFound

/-- Every window that the matchers accept, with padding that is not the same everywhere, is the
running reduction of its match, and is replaced by operations that compute it. -/
theorem running_reductions (semantics : Semantics) :
    (∀ (type : ElementType) (checks : Checks (Element type)) (op : ReduceWindowOp (Element type))
        (body : Combiner) (found : CumulativeReductionMatch) (operand : Tensor (Element type)),
      op.windowDimensions.length = operand.shape.length →
      (¬∀ amount ∈ op.padding, amount = op.padding.headD 0) →
      matcher checks op body operand.shape = some found →
        ∃ result, Recognised semantics checks op body found operand result) ∧
    ∀ (format : FloatFormat) (functions : FloatFunctions format)
        (checks : Checks (FloatValue format)) (op : ReduceWindowOp (FloatValue format))
        (body : Block) (found : CumulativeReductionMatch) (operand : Tensor (FloatValue format)),
      op.windowDimensions.length = operand.shape.length →
      (¬∀ amount ∈ op.padding, amount = op.padding.headD 0) →
      isCumulativeLogSumExp checks op body operand.shape = some found →
        RecognisedLogSumExp functions op body found operand
          (replaceWithCumulativeLogSumExp functions found operand) := by
  refine ⟨?_, ?_⟩
  · intro type checks op body found operand length notSplat isFound
    exact ⟨_, recognised semantics length notSplat isFound⟩
  · intro format functions checks op body found operand length notSplat isFound
    exact recognised_logsumexp functions length notSplat isFound

/-- Bytes, accumulated from the end. -/
def bytes : Tensor (Element (.integer ⟨8, false, positive8⟩)) :=
  ⟨[2, 3], fun index => BitVec.ofNat 8 (7 * index.getD 0 0 + 100 * index.getD 1 0)⟩

def anyChecks {α : Type} : Checks α := ⟨fun _ => true, fun _ _ => none⟩

theorem running_reductions_bytes : ∃ result,
    Recognised Semantics.ofIntegers anyChecks ⟨[1, 3], [0, 0, 0, 2], BitVec.ofNat 8 0⟩ .maximum
      ⟨1, true⟩ bytes result :=
  (running_reductions .ofIntegers).1 (.integer ⟨8, false, positive8⟩) anyChecks
    ⟨[1, 3], [0, 0, 0, 2], BitVec.ofNat 8 0⟩ .maximum ⟨1, true⟩ bytes rfl (by decide) (by decide)

def int32 : IntegerType := ⟨32, true, positive32⟩

/-- A running product, whose first element f32 does not hold. -/
def products : ReduceWindowOp (Element (.integer int32)) := ⟨[2], [1, 0], 1#32⟩

def factors : Tensor (Element (.integer int32)) :=
  ⟨[2], fun index => if index = [0] then 16777217#32 else 1#32⟩

theorem running_product_rounds :
    matcher anyChecks products .multiply factors.shape = some ⟨0, false⟩ ∧
      (lowerReduceWindow Semantics.ofIntegers anyChecks products .multiply factors).map
        (fun result => BitVec.toNat (result.data [0])) = some 16777216 ∧
      BitVec.toNat ((products.eval (fun _ elements =>
        elements.foldl (int32.combine .multiply) 1#32) factors).data [0]) = 16777217 := by
  refine ⟨by decide, ?_, by decide⟩
  decide +kernel

end Libtt.Cumulative

import Libtt.Cumulative.Correct

/-!
# Scans to windows

A `chlo.scan` whose body only combines its two arguments is a running reduction.
`ChloScanConversionPattern` rewrites it to the reduce_window form that JAX uses for cumsum, cumprod,
cummax and cummin:
  output = combiner(reduce_window(input, identity), broadcast(init))
  carry = output at the last scanned position
-/
namespace Libtt.ChloScan

open Libtt.StableHlo

/-- The composite's attributes: "tt.scan_combiner", "dimension" and "is_reverse". -/
structure CompositeAttributes where
  combiner : Option Combiner
  dimension : Option Nat
  isReverse : Option Bool

/-- A composite over one input and one init value, with the types of its operands and results. -/
structure CompositeOp where
  name : String
  attributes : Option CompositeAttributes
  numOperands : Nat
  numResults : Nat
  elementType : ElementType
  inputShape : List Nat
  hasStaticShape : Bool
  initShape : List Nat
  outputIsInputType : Bool
  carryShape : List Nat

/-- The StableHLO operations that the pattern creates, over the input and the init value. -/
inductive Expr (type : ElementType) where
  | input
  | init
  | reduceWindow (op : ReduceWindowOp (Element type)) (body : Combiner) (operand : Expr type)
  | broadcastInDim (operand : Expr type) (shape dims : List Nat)
  | combine (combiner : Combiner) (lhs rhs : Expr type)
  | slice (operand : Expr type) (start limit strides : List Nat)
  | reshape (shape : List Nat) (operand : Expr type)

def getIdentity (combiner : Combiner) : (elementType : ElementType) → Option (Element elementType)
  | .float _ => match combiner with
    | .add => some .zero
    | .multiply => some .one
    | .maximum | .minimum => some (.getInf (combiner == .maximum))
  | .integer type =>
    if type.width = 1 then none
    else match combiner with
      | .add => some (BitVec.ofNat type.width 0)
      | .multiply => some (BitVec.ofNat type.width 1)
      | .maximum => some (if !type.signed then BitVec.ofNat type.width 0 else BitVec.intMin type.width)
      | .minimum =>
        some (if !type.signed then BitVec.allOnes type.width else BitVec.intMax type.width)

/-- The running reduction of the input, before the init value. -/
def scanned (type : ElementType) (combiner : Combiner) (rank dim size : Nat) (reverse : Bool) :
    Option (Expr type) :=
  -- A scan of length 1 only combines with the init value.
  if 1 < size then
    (getIdentity combiner type).map fun identity =>
      .reduceWindow {
        windowDimensions := (List.replicate rank 1).set dim size
        padding := (List.replicate (rank * 2) 0).set (dim * 2 + if reverse then 1 else 0)
          ((size : Int) - 1)
        initValue := identity } combiner .input
  else some .input

/-- The output and the carry that replace the scan, unless the pattern fails. -/
def matchAndRewrite (srcOp : CompositeOp) :
    Option (Expr srcOp.elementType × Expr srcOp.elementType) :=
  if srcOp.name ≠ "chlo.scan" then none
  else (srcOp.attributes.bind CompositeAttributes.combiner).bind fun combiner =>
    (srcOp.attributes.bind CompositeAttributes.dimension).bind fun dim =>
      let rank := srcOp.inputShape.length
      let size := srcOp.inputShape.getD dim 0
      let reverse := (srcOp.attributes.bind CompositeAttributes.isReverse).getD false
      if srcOp.numOperands ≠ 2 ∨ srcOp.numResults ≠ 2 then none
      else if ¬srcOp.hasStaticShape ∨ ¬srcOp.outputIsInputType then none
      -- An empty scan has no last position: the carry is the init value.
      else if size = 0 then some (.input, .init)
      else (scanned srcOp.elementType combiner rank dim size reverse).map fun scanned =>
        let initDimensions := (List.range rank).filter (· ≠ dim)
        let initBroadcast := .broadcastInDim .init srcOp.inputShape initDimensions
        let output := .combine combiner scanned initBroadcast
        let start := (List.replicate rank 0).set dim (if reverse then 0 else size - 1)
        let limit := srcOp.inputShape.set dim ((if reverse then 0 else size - 1) + 1)
        let last := .slice output start limit (List.replicate rank 1)
        (output, .reshape srcOp.carryShape last)

/-- The value of the operations, where `window` evaluates the windows. -/
def Expr.eval {type : ElementType} (semantics : Semantics)
    (window : ReduceWindowOp (Element type) → Combiner → Tensor (Element type) →
      Option (Tensor (Element type))) (input init : Tensor (Element type)) :
    Expr type → Option (Tensor (Element type))
  | .input => some input
  | .init => some init
  | .reduceWindow op body operand => (operand.eval semantics window input init).bind (window op body)
  | .broadcastInDim operand shape dims =>
    (operand.eval semantics window input init).map (·.broadcastInDim shape dims)
  | .combine combiner lhs rhs =>
    (lhs.eval semantics window input init).bind fun lhs =>
      (rhs.eval semantics window input init).map fun rhs =>
        lhs.zipWith (semantics.combine combiner type) rhs
  | .slice operand start limit strides =>
    (operand.eval semantics window input init).map (·.slice start limit strides)
  | .reshape shape operand => (operand.eval semantics window input init).map (·.reshape shape)

/-- A scan as its verifier has it: the init value and the carry have the input's shape without the
scanned dimension. -/
structure CompositeOp.Verified (srcOp : CompositeOp) (combiner : Combiner) (dim : Nat)
    (reverse : Bool) : Prop where
  combiner : srcOp.attributes.bind CompositeAttributes.combiner = some combiner
  dimension : srcOp.attributes.bind CompositeAttributes.dimension = some dim
  reverse : (srcOp.attributes.bind CompositeAttributes.isReverse).getD false = reverse
  within : dim < srcOp.inputShape.length
  initShape : srcOp.initShape = srcOp.inputShape.eraseIdx dim
  carryShape : srcOp.carryShape = srcOp.inputShape.eraseIdx dim

/-- The init value combined with all elements from the scan's start up to a position. -/
def outputAt {α : Type} (op : α → α → α) (input init : Tensor α) (dim : Nat) (reverse : Bool)
    (index : List Nat) : α :=
  (input.scanned dim reverse index).foldl op (init.data (index.eraseIdx dim))

/-- The output at the last scanned position, or the init value when there is none. -/
def carryAt {α : Type} (op : α → α → α) (input init : Tensor α) (dim : Nat) (reverse : Bool)
    (index : List Nat) : α :=
  let size := input.shape.getD dim 0
  if size = 0 then init.data index
  else outputAt op input init dim reverse
    (index.take dim ++ (if reverse then 0 else size - 1) :: index.drop dim)

end Libtt.ChloScan

/-! ## The lowered scan is a running reduction -/
namespace Libtt.ChloScan

open Libtt.Foundation Libtt.StableHlo Libtt.Cumulative

variable {α : Type} {shape index before after first last : List Nat}
  {dim size position rank : Nat} {reverse : Bool}

theorem range_filter_ne (before after : Nat) :
    (List.range (before + (after + 1))).filter (· ≠ before) =
      List.range before ++ (List.range after).map (before + 1 + ·) := by
  have others : ∀ place, place ∈ List.range before → decide (place ≠ before) = true := by
    intro place inside
    simp only [List.mem_range] at inside
    simp only [decide_eq_true_eq]
    omega
  have rest : ∀ place ∈ (List.range after).map (before + 1 + ·), decide (place ≠ before) = true := by
    intro place inside
    obtain ⟨offset, _, rfl⟩ := List.mem_map.mp inside
    simp only [decide_eq_true_eq]
    omega
  have tail : (List.range (after + 1)).map (before + ·) =
      before :: (List.range after).map (before + 1 + ·) := by
    rw [List.range_succ_eq_map, List.map_cons, List.map_map, Nat.add_zero]
    congr 1
    exact List.map_congr_left fun place _ => by simp only [Function.comp_apply]; omega
  rw [List.range_add, tail, List.filter_append, List.filter_eq_self.mpr others,
    List.filter_cons_of_neg (by simp), List.filter_eq_self.mpr rest]

theorem broadcastInDim_init {init : Tensor α} (isInit : init.shape = before ++ after)
    (isFirst : Within first before) (isLast : Within last after) (shape : List Nat) :
    (init.broadcastInDim shape ((List.range (before ++ size :: after).length).filter
      (· ≠ before.length))).data (first ++ position :: last) = init.data (first ++ last) := by
  rw [List.length_append, List.length_cons, range_filter_ne,
    broadcastInDim_around isInit isFirst isLast]

/-- The position that a scan ends at. -/
def lastPosition (reverse : Bool) (size : Nat) : Nat := if reverse then 0 else size - 1

/-- An output and a carry that combine a running reduction with the init value. -/
structure Scans (op : α → α → α) (running input init : Tensor α) (dim : Nat) (reverse : Bool)
    (output carry : Tensor α) : Prop where
  output_shape : output.shape = input.shape
  output_data : ∀ index, Within index input.shape →
    output.data index = op (running.data index) (init.data (index.eraseIdx dim))
  carry_shape : carry.shape = input.shape.eraseIdx dim
  carry_data : ∀ index, Within index (input.shape.eraseIdx dim) → carry.data index =
    if input.shape.getD dim 0 = 0 then init.data index
    else output.data (index.take dim ++ lastPosition reverse (input.shape.getD dim 0) ::
      index.drop dim)

/-- An index split at a place behind which it goes on. -/
theorem scans_nonempty {op : α → α → α} {running input init : Tensor α}
    (isShape : input.shape = before ++ size :: after) (isInit : init.shape = before ++ after)
    (isRunning : running.shape = input.shape) (nonempty : size ≠ 0) {outputs : Tensor α}
    (isOutput : outputs = running.zipWith op (init.broadcastInDim (before ++ size :: after)
      ((List.range (before ++ size :: after).length).filter (· ≠ before.length)))) :
    Scans op running input init before.length reverse outputs
      ((outputs.slice ((List.replicate (before ++ size :: after).length 0).set before.length
          (lastPosition reverse size))
        ((before ++ size :: after).set before.length (lastPosition reverse size + 1))
        (List.replicate (before ++ size :: after).length 1)).reshape (before ++ after)) := by
  refine ⟨by rw [isOutput]; exact isRunning, fun index inside => ?_, ?_, fun index inside => ?_⟩
  · rw [isShape] at inside
    obtain ⟨first, position, last, rfl, isFirst, _, isLast⟩ := within_split.mp inside
    rw [isOutput, Tensor.zipWith, eraseIdx_split isFirst.length]
    dsimp only
    rw [broadcastInDim_init isInit isFirst isLast]
  · rw [isShape, eraseIdx_split rfl]
    rfl
  · rw [isShape, eraseIdx_split rfl] at inside
    obtain ⟨first, last, rfl, isFirst, isLast⟩ := within_append.mp inside
    rw [isShape, getD_split rfl, if_neg nonempty, slice_reshape outputs _ isFirst isLast,
      ← isFirst.length, List.take_left, List.drop_left]

section

variable {srcOp : CompositeOp} {combiner : Combiner} {semantics : Semantics}
  {window : ReduceWindowOp (Element srcOp.elementType) → Combiner →
    Tensor (Element srcOp.elementType) → Option (Tensor (Element srcOp.elementType))}
  {output carry : Expr srcOp.elementType} {input init : Tensor (Element srcOp.elementType)}

/-- What the pattern makes of an accepted scan. -/
theorem matchAndRewrite_eq_some (verified : srcOp.Verified combiner dim reverse)
    (accepted : matchAndRewrite srcOp = some (output, carry)) :
    (srcOp.inputShape.getD dim 0 = 0 ∧ output = .input ∧ carry = .init) ∨
    (srcOp.inputShape.getD dim 0 ≠ 0 ∧ ∃ expr, scanned srcOp.elementType combiner
        srcOp.inputShape.length dim (srcOp.inputShape.getD dim 0) reverse = some expr ∧
      output = .combine combiner expr (.broadcastInDim .init srcOp.inputShape
        ((List.range srcOp.inputShape.length).filter (· ≠ dim))) ∧
      carry = .reshape srcOp.carryShape (.slice output
        ((List.replicate srcOp.inputShape.length 0).set dim
          (lastPosition reverse (srcOp.inputShape.getD dim 0)))
        (srcOp.inputShape.set dim (lastPosition reverse (srcOp.inputShape.getD dim 0) + 1))
        (List.replicate srcOp.inputShape.length 1))) := by
  have guard : ∀ {β : Type} {condition : Prop} [Decidable condition] {other : Option β} {result : β},
      (if condition then none else other) = some result → ¬condition ∧ other = some result :=
    fun isSome => by
      split at isSome
      · cases isSome
      · next fails => exact ⟨fails, isSome⟩
  unfold matchAndRewrite at accepted
  rw [verified.combiner, verified.dimension, verified.reverse] at accepted
  obtain ⟨_, accepted⟩ := guard (guard (guard accepted).2).2
  by_cases empty : srcOp.inputShape.getD dim 0 = 0
  · rw [if_pos empty] at accepted
    obtain ⟨rfl, rfl⟩ := Prod.mk.inj (Option.some.inj accepted)
    exact .inl ⟨empty, rfl, rfl⟩
  · rw [if_neg empty] at accepted
    obtain ⟨expr, isScanned, made⟩ := Option.map_eq_some_iff.mp accepted
    obtain ⟨rfl, rfl⟩ := Prod.mk.inj made
    exact .inr ⟨empty, expr, isScanned, rfl, rfl⟩

theorem eval_broadcastInDim_init (semantics : Semantics)
    (window : ReduceWindowOp (Element srcOp.elementType) → Combiner →
      Tensor (Element srcOp.elementType) → Option (Tensor (Element srcOp.elementType)))
    (input init : Tensor (Element srcOp.elementType)) (shape dims : List Nat) :
    (Expr.broadcastInDim .init shape dims).eval semantics window input init =
      some (init.broadcastInDim shape dims) := rfl

theorem eval_combine (combiner : Combiner) {lhs rhs : Expr srcOp.elementType}
    {left right : Tensor (Element srcOp.elementType)}
    (isLeft : lhs.eval semantics window input init = some left)
    (isRight : rhs.eval semantics window input init = some right) :
    (Expr.combine combiner lhs rhs).eval semantics window input init =
      some (left.zipWith (semantics.combine combiner srcOp.elementType) right) := by
  rw [Expr.eval, isLeft, isRight]
  rfl

theorem eval_slice_reshape {operand : Expr srcOp.elementType}
    {value : Tensor (Element srcOp.elementType)}
    (isValue : operand.eval semantics window input init = some value)
    (start limit strides shape : List Nat) :
    (Expr.reshape shape (.slice operand start limit strides)).eval semantics window input init =
      some ((value.slice start limit strides).reshape shape) := by
  rw [Expr.eval, Expr.eval, isValue]
  rfl

/-- The emitted operations combine a running reduction with the init value. -/
theorem scans_of_accepted (verified : srcOp.Verified combiner dim reverse)
    (accepted : matchAndRewrite srcOp = some (output, carry))
    (isInput : input.shape = srcOp.inputShape) (isInit : init.shape = srcOp.initShape)
    {running : Tensor (Element srcOp.elementType)} (isRunning : running.shape = input.shape)
    (runs : ∀ expr, scanned srcOp.elementType combiner srcOp.inputShape.length dim
      (srcOp.inputShape.getD dim 0) reverse = some expr →
        expr.eval semantics window input init = some running) :
    ∃ outputs carries, output.eval semantics window input init = some outputs ∧
      carry.eval semantics window input init = some carries ∧
        Scans (semantics.combine combiner srcOp.elementType) running input init dim reverse
          outputs carries := by
  have initShape := verified.initShape
  have carryShape := verified.carryShape
  obtain ⟨before, after, isShape, isDim⟩ := exists_split verified.within
  rcases matchAndRewrite_eq_some verified accepted with ⟨empty, rfl, rfl⟩ |
    ⟨nonempty, expr, isScanned, rfl, rfl⟩
  · refine ⟨input, init, rfl, rfl, rfl, fun index inside => ?_, by rw [isInit, initShape, isInput],
      fun index _ => by rw [isInput, if_pos empty]⟩
    rw [isInput, isShape, empty] at inside
    obtain ⟨_, _, _, _, _, below, _⟩ := within_split.mp inside
    exact absurd below (Nat.not_lt_zero _)
  · have evaluated := runs expr isScanned
    generalize srcOp.inputShape.getD dim 0 = size at *
    subst isDim
    rw [isShape, eraseIdx_split rfl] at initShape carryShape
    rw [isShape, carryShape]
    have outputs := eval_combine combiner evaluated (eval_broadcastInDim_init semantics window input
      init (before ++ size :: after) ((List.range (before ++ size :: after).length).filter
        (· ≠ before.length)))
    exact ⟨_, _, outputs, eval_slice_reshape outputs _ _ _ _,
      scans_nonempty (isInput.trans isShape) (isInit.trans initShape) isRunning nonempty rfl⟩

/-- The running reduction that the pattern emits: a window, or the input itself. -/
theorem scanned_eq_some {type : ElementType} {expr : Expr type}
    (isScanned : scanned type combiner rank dim size reverse = some expr) :
    (size ≤ 1 ∧ expr = .input) ∨ (1 < size ∧ ∃ identity, getIdentity combiner type = some identity ∧
      expr = .reduceWindow (windowAlong rank dim size reverse identity) combiner .input) := by
  unfold scanned at isScanned
  split at isScanned
  · next several =>
    obtain ⟨identity, isIdentity, rfl⟩ := Option.map_eq_some_iff.mp isScanned
    exact .inr ⟨several, identity, isIdentity, rfl⟩
  · next few => exact .inl ⟨Nat.le_of_not_lt few, (Option.some.inj isScanned).symm⟩

end

/-- The combiner is associative and commutative, and the chosen identity is one. -/
structure Lawful (semantics : Semantics) (combiner : Combiner) (type : ElementType) : Prop where
  assoc : ∀ first second third, semantics.combine combiner type
    (semantics.combine combiner type first second) third =
      semantics.combine combiner type first (semantics.combine combiner type second third)
  comm : ∀ first second, semantics.combine combiner type first second =
    semantics.combine combiner type second first
  identity : ∀ identity, getIdentity combiner type = some identity →
    ∀ value, semantics.combine combiner type identity value = value

/-- Integers, and the greatest or the least float of a format with infinities. -/
def Exact (combiner : Combiner) : ElementType → Prop
  | .integer _ => True
  | .float format => (combiner = .maximum ∨ combiner = .minimum) ∧ format.hasInfinities = true

/-- One-bit integers have no identity. -/
theorem width_ne_one {combiner : Combiner} {type : IntegerType} {identity : type.Word}
    (isIdentity : getIdentity combiner (.integer type) = some identity) : type.width ≠ 1 := by
  intro one
  have none : getIdentity combiner (.integer type) = none := if_pos one
  exact absurd (none.symm.trans isIdentity) (by simp)

theorem lawful_integer (semantics : Semantics) (combiner : Combiner) (type : IntegerType) :
    Lawful semantics combiner (.integer type) where
  assoc := IntegerType.combine_assoc combiner
  comm := IntegerType.combine_comm combiner
  identity := by
    intro identity isIdentity value
    have wide := width_ne_one isIdentity
    cases combiner with
    | add =>
      obtain rfl := Option.some.inj ((if_neg wide).symm.trans isIdentity)
      exact (if_neg wide).trans (BitVec.zero_add value)
    | multiply =>
      obtain rfl := Option.some.inj ((if_neg wide).symm.trans isIdentity)
      exact (if_neg wide).trans (BitVec.one_mul value)
    | maximum =>
      obtain rfl := Option.some.inj ((if_neg wide).symm.trans isIdentity)
      refine (if_neg wide).trans (IntegerType.maximum_least ?_ value)
      cases isSigned : type.signed
      · exact IntegerType.read_zero (by rw [isSigned]; exact Bool.false_ne_true)
      · exact IntegerType.read_intMin isSigned
    | minimum =>
      obtain rfl := Option.some.inj ((if_neg wide).symm.trans isIdentity)
      refine (if_neg wide).trans (IntegerType.minimum_largest ?_ value)
      cases isSigned : type.signed
      · exact IntegerType.read_allOnes (by rw [isSigned]; exact Bool.false_ne_true)
      · exact IntegerType.read_intMax isSigned

theorem lawful_extremum (semantics : Semantics) {combiner : Combiner} {format : FloatFormat}
    (extremum : combiner = .maximum ∨ combiner = .minimum) (infinite : format.hasInfinities) :
    Lawful semantics combiner (.float format) := by
  rcases extremum with rfl | rfl
  · refine ⟨FloatValue.maximum_assoc, FloatValue.maximum_comm, fun identity isIdentity => ?_⟩
    rw [← Option.some.inj isIdentity]
    exact FloatValue.getInf_maximum infinite
  · refine ⟨FloatValue.minimum_assoc, FloatValue.minimum_comm, fun identity isIdentity => ?_⟩
    rw [← Option.some.inj isIdentity]
    exact FloatValue.getInf_minimum infinite

/-- The output and the carry of a scan. -/
structure IsScan (op : α → α → α) (input init : Tensor α) (dim : Nat) (reverse : Bool)
    (output carry : Tensor α) : Prop where
  output_shape : output.shape = input.shape
  output_data : ∀ index, Within index input.shape →
    output.data index = outputAt op input init dim reverse index
  carry_shape : carry.shape = input.shape.eraseIdx dim
  carry_data : ∀ index, Within index (input.shape.eraseIdx dim) →
    carry.data index = carryAt op input init dim reverse index

theorem Scans.congr {op : α → α → α} {running other input init output carry : Tensor α}
    (scans : Scans op running input init dim reverse output carry)
    (same : ∀ index, Within index input.shape → running.data index = other.data index) :
    Scans op other input init dim reverse output carry :=
  { scans with output_data := fun index within => same index within ▸ scans.output_data index within }

section

variable {op : α → α → α} {running input init output carry : Tensor α}
  (assoc : ∀ first second third, op (op first second) third = op first (op second third))
  (comm : ∀ first second, op first second = op second first)

include assoc comm

theorem combineAll_start (default start : α) {elements : List α} (nonempty : elements ≠ []) :
    op (combineAll op default elements) start = elements.foldl op start := by
  cases elements with
  | nil => exact absurd rfl nonempty
  | cons element elements =>
    change op (elements.foldl op element) start = elements.foldl op (op start element)
    rw [comm start element]
    clear nonempty
    induction elements generalizing element with
    | nil => rfl
    | cons next elements ih =>
      rw [List.foldl_cons, ih, List.foldl_cons, assoc, assoc,
        comm next start]

/-- The running reduction combined with the init value is the scan. -/
theorem Scans.isScan (scans : Scans op running input init dim reverse output carry)
    (inside : dim < input.shape.length)
    (runs : ∀ index, Within index input.shape →
      running.data index = (input.running op dim reverse).data index) :
    IsScan op input init dim reverse output carry := by
  have outputs : ∀ index, Within index input.shape →
      output.data index = outputAt op input init dim reverse index := by
    intro index within
    rw [scans.output_data index within, runs index within]
    exact combineAll_start assoc comm _ _ (scanned_ne_nil within inside)
  refine ⟨scans.output_shape, outputs, scans.carry_shape, fun index within => ?_⟩
  rw [scans.carry_data index within, carryAt]
  split
  · rfl
  · next nonempty =>
    apply outputs
    obtain ⟨before, after, isShape, rfl⟩ := exists_split inside
    generalize input.shape.getD before.length 0 = size at *
    rw [isShape, eraseIdx_split rfl] at within
    obtain ⟨first, last, rfl, isFirst, isLast⟩ := within_append.mp within
    rw [← isFirst.length, List.take_left, List.drop_left, isShape]
    refine List.rel_append isFirst (.cons ?_ isLast)
    unfold lastPosition
    split <;> omega

end

/-- Along a dimension of at most one position, a running reduction is the input. -/
theorem running_few (op : α → α → α) {input : Tensor α} (inside : dim < input.shape.length)
    (few : input.shape.getD dim 0 ≤ 1) {index : List Nat} (within : Within index input.shape) :
    (input.running op dim reverse).data index = input.data index := by
  obtain ⟨before, after, isShape, rfl⟩ := exists_split inside
  generalize input.shape.getD before.length 0 = size at *
  rw [isShape] at within
  obtain ⟨first, position, last, rfl, isFirst, below, isLast⟩ := within_split.mp within
  obtain rfl : position = 0 := by omega
  obtain rfl : size = 1 := by omega
  change combineAll op _ _ = _
  rw [scanned_split isShape isFirst.length]
  cases reverse <;> rfl

/-- The evaluation of a window as StableHLO specifies it, for the schedules of a reduction. -/
def windowOf (semantics : Semantics) (type : ElementType)
    (reduce : (Element type → Element type → Element type) → Element type → List Nat →
      List (Element type) → Element type)
    (op : ReduceWindowOp (Element type)) (body : Combiner) (operand : Tensor (Element type)) :
    Option (Tensor (Element type)) :=
  some (op.eval (reduce (semantics.combine body type) op.initValue) operand)

section

variable {semantics : Semantics} {combiner : Combiner} {type : ElementType}
  {identity : Element type} {input : Tensor (Element type)}

/-- The emitted window evaluates to the running reduction. -/
theorem window_running (reverse : Bool) (lawful : Lawful semantics combiner type)
    (isIdentity : getIdentity combiner type = some identity) (inside : dim < input.shape.length)
    (several : 1 < input.shape.getD dim 0)
    {reduce : (Element type → Element type → Element type) → Element type → List Nat →
      List (Element type) → Element type}
    (schedules : ∀ op init index elements, Reduces op init elements (reduce op init index elements))
    {window : ReduceWindowOp (Element type)}
    (isWindow : window =
      windowAlong input.shape.length dim (input.shape.getD dim 0) reverse identity) :
    (window.eval (reduce (semantics.combine combiner type) window.initValue) input).shape =
      input.shape ∧
    ∀ index, Within index input.shape →
      (window.eval (reduce (semantics.combine combiner type) window.initValue) input).data index =
        (input.running (semantics.combine combiner type) dim reverse).data index := by
  have spans : window.Spans input.shape.length dim (input.shape.getD dim 0) reverse :=
    isWindow ▸ spans_window inside identity
  have isInit : window.initValue = identity := by rw [isWindow]
  have laws := lawful.identity identity isIdentity
  have associative : Std.Associative (semantics.combine combiner type) := ⟨lawful.assoc⟩
  have commutative : Std.Commutative (semantics.combine combiner type) := ⟨lawful.comm⟩
  have lawfulIdentity : Std.LawfulIdentity (semantics.combine combiner type) identity :=
    { left_id := laws, right_id := fun value => (lawful.comm _ _).trans (laws value) }
  refine ⟨spans.resultShape rfl rfl (Nat.zero_lt_of_lt several), fun index within => ?_⟩
  rw [@running_data _ _ _ (semantics.combine combiner type) identity _ _ _ _ _ within inside]
  refine reduces_window spans isInit rfl rfl within ?_
  rw [← isInit]
  exact schedules _ _ _ _

end

section

variable {semantics : Semantics} {srcOp : CompositeOp} {combiner : Combiner}
  {output carry : Expr srcOp.elementType} {input init outputs carries : Tensor (Element srcOp.elementType)}
  {window : ReduceWindowOp (Element srcOp.elementType) → Combiner →
    Tensor (Element srcOp.elementType) → Option (Tensor (Element srcOp.elementType))}

section

variable (verified : srcOp.Verified combiner dim reverse)
  (accepted : matchAndRewrite srcOp = some (output, carry))
include verified accepted

section

variable (isInput : input.shape = srcOp.inputShape) (isInit : init.shape = srcOp.initShape)
include isInput isInit

/-- A scan of at most one position combines the input with the init value. -/
theorem scans_few
    (few : srcOp.inputShape.getD dim 0 ≤ 1) :
    ∃ outputs carries, output.eval semantics window input init = some outputs ∧
      carry.eval semantics window input init = some carries ∧
        Scans (semantics.combine combiner srcOp.elementType) input input init dim reverse
          outputs carries := by
  refine scans_of_accepted verified accepted isInput isInit rfl fun expr isScanned => ?_
  rcases scanned_eq_some isScanned with ⟨_, rfl⟩ | ⟨several, _⟩
  · rfl
  · omega

variable (window) in
/-- A longer scan combines what its window evaluates to with the init value. -/
theorem scans_several
    (several : 1 < srcOp.inputShape.getD dim 0) {running : Tensor (Element srcOp.elementType)}
    (isRunning : running.shape = input.shape)
    (runs : ∀ identity, getIdentity combiner srcOp.elementType = some identity →
      window (windowAlong srcOp.inputShape.length dim (srcOp.inputShape.getD dim 0) reverse identity)
        combiner input = some running) :
    ∃ outputs carries, output.eval semantics window input init = some outputs ∧
      carry.eval semantics window input init = some carries ∧
        Scans (semantics.combine combiner srcOp.elementType) running input init dim reverse
          outputs carries := by
  refine scans_of_accepted verified accepted isInput isInit isRunning fun expr isScanned => ?_
  rcases scanned_eq_some isScanned with ⟨few, _⟩ | ⟨_, identity, isIdentity, rfl⟩
  · omega
  · exact runs identity isIdentity

end

/-- A longer scan has an identity, and where its output has a value, its window has one. -/
theorem window_of_output
    (several : 1 < srcOp.inputShape.getD dim 0) :
    ∃ identity, getIdentity combiner srcOp.elementType = some identity ∧
      ∀ semantics window input init outputs,
        output.eval semantics window input init = some outputs → ∃ running,
          window (windowAlong srcOp.inputShape.length dim (srcOp.inputShape.getD dim 0) reverse
            identity) combiner input = some running := by
  rcases matchAndRewrite_eq_some verified accepted with ⟨empty, _⟩ | ⟨_, expr, isScanned, rfl, _⟩
  · omega
  rcases scanned_eq_some isScanned with ⟨few, _⟩ | ⟨_, identity, isIdentity, rfl⟩
  · omega
  refine ⟨identity, isIdentity, fun semantics window input init outputs evaluated => ?_⟩
  obtain ⟨running, isRunning, _⟩ := Option.bind_eq_some_iff.mp evaluated
  exact ⟨running, isRunning⟩

end

/-- A type in which the cumulative operation is exact: the type of the elements, or one that a
greatest or least element keeps its number in. -/
theorem runningIn_exact {type : ElementType}
    (exact : computedIn combiner type = type ∨ combiner = .maximum ∨ combiner = .minimum)
    (operand : Tensor (Element type)) (index : List Nat) :
    (runningIn semantics combiner (computedIn combiner type) operand dim reverse).data index =
      (operand.running (semantics.combine combiner type) dim reverse).data index := by
  rcases exact with same | extremum
  · rw [same, runningIn, castToElementType_self, castToElementType_self]
  · cases type with
    | float format =>
      have same : computedIn combiner (.float format) = .float format := by
        rcases extremum with rfl | rfl <;> rfl
      rw [same, runningIn, castToElementType_self, castToElementType_self]
    | integer type =>
      have isScan : computedIn combiner (.integer type) = scanType (.integer type) := by
        rcases extremum with rfl | rfl <;> rfl
      rw [isScan]
      exact runningIn_extremum extremum operand index

/-- A scan lowers to a prefix reduction. As StableHLO specifies it, the emitted program computes
the scan for every schedule; with the cumulative operation that the matchers choose, it does where
the operation is computed in the type of the elements or finds the greatest or least, and else
combines the init value with the running reduction in the type that the operation is computed in. -/
theorem chlo_scan (verified : srcOp.Verified combiner dim reverse)
    (accepted : matchAndRewrite srcOp = some (output, carry))
    (isInput : input.shape = srcOp.inputShape) (isInit : init.shape = srcOp.initShape)
    (lawful : Exact combiner srcOp.elementType ∨ Lawful semantics combiner srcOp.elementType) :
    (∀ reduce, (∀ op init index elements, Reduces op init elements (reduce op init index elements)) →
      ∃ outputs carries,
        output.eval semantics (windowOf semantics _ reduce) input init = some outputs ∧
        carry.eval semantics (windowOf semantics _ reduce) input init = some carries ∧
        IsScan (semantics.combine combiner srcOp.elementType) input init dim reverse
          outputs carries) ∧
    (∀ checks outputs carries,
      output.eval semantics (lowerReduceWindow semantics checks) input init = some outputs →
      carry.eval semantics (lowerReduceWindow semantics checks) input init = some carries →
      (srcOp.inputShape.getD dim 0 ≤ 1 ∨ computedIn combiner srcOp.elementType = srcOp.elementType ∨
          combiner = .maximum ∨ combiner = .minimum →
        IsScan (semantics.combine combiner srcOp.elementType) input init dim reverse
          outputs carries) ∧
      (1 < srcOp.inputShape.getD dim 0 →
        Scans (semantics.combine combiner srcOp.elementType)
          (runningIn semantics combiner (computedIn combiner srcOp.elementType) input dim reverse)
          input init dim reverse outputs carries)) := by
  have laws : Lawful semantics combiner srcOp.elementType := by
    rcases lawful with exact | laws
    · generalize srcOp.elementType = type at exact
      cases type with
      | integer type => exact lawful_integer semantics combiner type
      | float format => exact lawful_extremum semantics exact.1 exact.2
    · exact laws
  have inside : dim < input.shape.length := isInput ▸ verified.within
  rcases Nat.lt_or_ge 1 (srcOp.inputShape.getD dim 0) with several | few
  · obtain ⟨identity, isIdentity, windows⟩ := window_of_output verified accepted several
    refine ⟨fun reduce schedules => ?_, fun checks outputs carries isOutput isCarry => ?_⟩
    · have isWindow := window_running reverse laws isIdentity inside (isInput.symm ▸ several)
        schedules rfl
      obtain ⟨outputs, carries, isOutput, isCarry, scans⟩ := scans_several
        (windowOf semantics _ reduce) verified accepted isInput isInit several isWindow.1
        fun other isOther => by
          obtain rfl := Option.some.inj (isIdentity.symm.trans isOther)
          rw [isInput]
          rfl
      exact ⟨outputs, carries, isOutput, isCarry,
        scans.isScan laws.assoc laws.comm inside isWindow.2⟩
    · obtain ⟨result, isResult⟩ := windows _ _ _ _ _ isOutput
      have isRunning := lowerReduceWindow_window verified.within several (isInput ▸ rfl) isResult
      obtain ⟨outputs', carries', isOutput', isCarry', scans⟩ := scans_several _ verified
        accepted isInput isInit several isRunning.1 fun other isOther => by
          obtain rfl := Option.some.inj (isIdentity.symm.trans isOther)
          exact isResult
      obtain rfl := Option.some.inj (isOutput.symm.trans isOutput')
      obtain rfl := Option.some.inj (isCarry.symm.trans isCarry')
      refine ⟨fun exact => scans.isScan laws.assoc laws.comm inside fun index within => ?_,
        fun _ => ?_⟩
      · rw [isRunning.2 index within]
        exact runningIn_exact (exact.resolve_left (by omega)) input index
      · exact scans.congr isRunning.2
  · have isFew : input.shape.getD dim 0 ≤ 1 := isInput ▸ few
    have runs : ∀ index, Within index input.shape → input.data index =
        (input.running (semantics.combine combiner srcOp.elementType) dim reverse).data index :=
      fun index within => (running_few _ inside isFew within).symm
    refine ⟨fun reduce _ => ?_, fun checks outputs carries isOutput isCarry => ⟨fun _ => ?_, ?_⟩⟩
    · obtain ⟨outputs, carries, isOutput, isCarry, scans⟩ :=
        scans_few verified accepted isInput isInit few
      exact ⟨outputs, carries, isOutput, isCarry, scans.isScan laws.assoc laws.comm inside runs⟩
    · obtain ⟨outputs', carries', isOutput', isCarry', scans⟩ :=
        scans_few verified accepted isInput isInit few
      obtain rfl := Option.some.inj (isOutput.symm.trans isOutput')
      obtain rfl := Option.some.inj (isCarry.symm.trans isCarry')
      exact scans.isScan laws.assoc laws.comm inside runs
    · intro several
      omega

end

def int32 : IntegerType := ⟨32, true, positive32⟩

/-- A scan of 32-bit integers. -/
def integerScan (combiner : Combiner) (shape : List Nat) (dim : Nat) (reverse : Bool) :
    CompositeOp where
  name := "chlo.scan"
  attributes := some ⟨some combiner, some dim, some reverse⟩
  numOperands := 2
  numResults := 2
  elementType := .integer int32
  inputShape := shape
  hasStaticShape := true
  initShape := shape.eraseIdx dim
  outputIsInputType := true
  carryShape := shape.eraseIdx dim

theorem integerScan_verified {combiner : Combiner} {shape : List Nat} {dim : Nat} {reverse : Bool}
    (within : dim < shape.length) :
    (integerScan combiner shape dim reverse).Verified combiner dim reverse :=
  ⟨rfl, rfl, rfl, within, rfl, rfl⟩

/-- Checks that accept every window. -/
def accepting : Checks (Element (.integer int32)) := ⟨fun _ => true, fun _ _ => none⟩

def productInput : Tensor int32.Word := ⟨[2], fun index => if index = [0] then 16777217#32 else 1#32⟩

def productInit : Tensor int32.Word := ⟨[], fun _ => 1#32⟩

/-- The product of 16777217 and 1 is computed in f32, which has no 16777217. -/
theorem chlo_scan_product : ∃ output carry outputs carries,
    matchAndRewrite (integerScan .multiply [2] 0 false) = some (output, carry) ∧
    output.eval .ofIntegers (lowerReduceWindow .ofIntegers accepting) productInput productInit =
      some outputs ∧
    carry.eval .ofIntegers (lowerReduceWindow .ofIntegers accepting) productInput productInit =
      some carries ∧
    outputs.data [0] = 16777216#32 ∧
    ¬IsScan (Semantics.combine .ofIntegers .multiply (.integer int32)) productInput productInit 0
      false outputs carries := by
  refine ⟨_, _, _, _, rfl, rfl, rfl, rfl, fun isScan => ?_⟩
  have first : 16777216#32 = 16777217#32 := isScan.output_data [0] (by decide)
  exact absurd first (by decide)

def sumInput : Tensor int32.Word := ⟨[2, 3], fun index => BitVec.ofNat 32 (index.getD 0 0 * 10 + index.getD 1 0)⟩

def sumInit : Tensor int32.Word := ⟨[2], fun index => BitVec.ofNat 32 (100 * index.getD 0 0)⟩

/-- Sums of rows from their ends. -/
theorem chlo_scan_sums : ∃ output carry outputs carries,
    matchAndRewrite (integerScan .add [2, 3] 1 true) = some (output, carry) ∧
    output.eval .ofIntegers (lowerReduceWindow .ofIntegers accepting) sumInput sumInit =
      some outputs ∧
    carry.eval .ofIntegers (lowerReduceWindow .ofIntegers accepting) sumInput sumInit =
      some carries ∧
    outputs.data [1, 1] = 123#32 ∧ carries.data [1] = 133#32 := by
  have verified : (integerScan .add [2, 3] 1 true).Verified .add 1 true :=
    integerScan_verified (by decide)
  have contract := @chlo_scan 1 true .ofIntegers (integerScan .add [2, 3] 1 true) .add _ _
    sumInput sumInit verified rfl rfl rfl (.inl trivial)
  refine ⟨_, _, _, _, rfl, rfl, rfl, ?_⟩
  have isScan := (contract.2 accepting _ _ rfl rfl).1 (.inr (.inl rfl))
  exact ⟨(isScan.output_data [1, 1] (by decide)).trans rfl,
    (isScan.carry_data [1] (by decide)).trans rfl⟩

end Libtt.ChloScan

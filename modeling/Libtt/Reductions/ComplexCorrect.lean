import Libtt.Reductions.Tree

/-!
# Complex reductions are the fold of their reducer

The bodies that are recognised compute their kind's function, and the parts of the tree are those
of the tree of complex numbers.
-/
namespace Libtt.Reductions

open Libtt.Foundation Libtt.StableHlo

variable {α : Type} [CommRing α] [LinearOrder α]
variable {body : Block ComplexBodyOp} {kind : ReducerKind} {outside outcome : List (ComplexDatum α)}
  {lhs rhs : α × α} {value : BlockValue}

namespace ReducerKind

variable (kind : ReducerKind)

omit [CommRing α] in
/-- The real parts decide, or else the imaginary parts. -/
theorem toLex_lt_iff (lhs rhs : α × α) :
    toLex lhs < toLex rhs ↔ if lhs.1 = rhs.1 then lhs.2 < rhs.2 else lhs.1 < rhs.1 := by
  rw [Prod.Lex.toLex_lt_toLex]
  by_cases same : lhs.1 = rhs.1 <;> simp [same]

/-- A reducer as JAX has it chooses between its arguments. -/
theorem select_maximum (lhs rhs : α × α) :
    (if (if lhs.1 = rhs.1 then rhs.2 < lhs.2 else rhs.1 < lhs.1) then lhs else rhs) =
      function .Maximum lhs rhs := by
  have order := toLex_lt_iff rhs lhs
  simp only [eq_comm (a := rhs.1)] at order
  simp only [← order, function]
  split
  · rename_i less
    rw [max_eq_left less.le, ofLex_toLex]
  · rename_i notLess
    rw [max_eq_right (not_lt.mp notLess), ofLex_toLex]

theorem select_minimum (lhs rhs : α × α) :
    (if (if lhs.1 = rhs.1 then lhs.2 < rhs.2 else lhs.1 < rhs.1) then lhs else rhs) =
      function .Minimum lhs rhs := by
  simp only [← toLex_lt_iff lhs rhs, function]
  split
  · rename_i less
    rw [min_eq_left less.le, ofLex_toLex]
  · rename_i notLess
    rw [min_eq_right (not_lt.mp notLess), ofLex_toLex]

instance : Std.Associative (kind.function : α × α → α × α → α × α) where
  assoc first second third := by
    cases kind
    · exact add_assoc _ _ _
    · simp only [function]
      apply Prod.ext <;> dsimp only <;> ring
    · exact congrArg ofLex (max_assoc _ _ _)
    · exact congrArg ofLex (min_assoc _ _ _)

instance : Std.Commutative (kind.function : α × α → α × α → α × α) where
  comm first second := by
    cases kind
    · exact add_comm _ _
    · simp only [function]
      apply Prod.ext <;> dsimp only <;> ring
    · exact congrArg ofLex (max_comm _ _)
    · exact congrArg ofLex (min_comm _ _)

end ReducerKind

theorem binary_sound {body : Block ComplexBodyOp} {op : ComplexBodyOp} {kind : ReducerKind}
    (accepted : body.matchesBinaryReducer op)
    (applies : ∀ x y : α × α,
      op.apply [.complex x, .complex y] = some (.complex (kind.function x y)))
    {outside : List (ComplexDatum α)} {lhs rhs : α × α} {outcome : List (ComplexDatum α)}
    (runs : body.run ComplexBodyOp.apply [.complex lhs, .complex rhs] outside = some outcome) :
    outcome = [.complex (kind.function lhs rhs)] := by
  have comm := (inferInstance : Std.Commutative (kind.function : α × α → α × α → α × α)).comm
  have returns : some outcome = some [.complex (kind.function lhs rhs)] := by
    rw [← runs]
    cases Block.run_of_matchesBinaryReducer accepted (ComplexDatum.complex lhs)
        (ComplexDatum.complex rhs) with
    | inl inOrder => rw [inOrder, applies, Option.map_some]
    | inr reversed => rw [reversed, applies, Option.map_some, comm]
  exact Option.some.inj returns

section Reads

variable {body : Block ComplexBodyOp} {arguments outside results : List (ComplexDatum α)}
  (runs : body.results ComplexBodyOp.apply arguments outside = some results)
include runs

theorem read_real {argument : BlockValue} {datum : α × α}
    (isOperation : body.getDefiningOp value = some ⟨.real, [argument]⟩)
    (isRead : argument.read arguments outside results = some (.complex datum)) :
    value.read arguments outside results = some (.component datum.1) :=
  Block.read_of_operation runs isOperation (by simp [isRead]; rfl) rfl

theorem read_imag {argument : BlockValue} {datum : α × α}
    (isOperation : body.getDefiningOp value = some ⟨.imag, [argument]⟩)
    (isRead : argument.read arguments outside results = some (.complex datum)) :
    value.read arguments outside results = some (.component datum.2) :=
  Block.read_of_operation runs isOperation (by simp [isRead]; rfl) rfl

theorem read_compare {value first second : BlockValue} {x y : α} {direction : ComparisonDirection}
    {compareType : Option ComparisonType}
    (isOperation : body.getDefiningOp value =
      some ⟨.compare direction compareType, [first, second]⟩)
    (isFirst : first.read arguments outside results = some (.component x))
    (isSecond : second.read arguments outside results = some (.component y)) :
    value.read arguments outside results = some (.pred (direction.holds x y)) :=
  Block.read_of_operation runs isOperation (by simp [isFirst, isSecond]; rfl) rfl

theorem read_select {pred onTrue onFalse : BlockValue} {condition : Bool} {x y : ComplexDatum α}
    (isOperation : body.getDefiningOp value = some ⟨.select, [pred, onTrue, onFalse]⟩)
    (isPred : pred.read arguments outside results = some (.pred condition))
    (isTrue : onTrue.read arguments outside results = some x)
    (isFalse : onFalse.read arguments outside results = some y) :
    value.read arguments outside results = some (if condition then x else y) :=
  Block.read_of_operation runs isOperation (by simp [isPred, isTrue, isFalse]; rfl) rfl

end Reads

/-- The values that the body of a maximum or of a minimum goes through. Either comparison of the
real parts has its own, and `true` stands for the right argument. -/
structure LexicographicGraph (body : Block ComplexBodyOp) (direction : ComparisonDirection)
    (returned : BlockValue) where
  pred : BlockValue
  equalReal : BlockValue
  orderedImag : BlockValue
  orderedReal : BlockValue
  reals : Bool → Bool → BlockValue
  imags : Bool → BlockValue
  equalType : Option ComparisonType
  imagType : Option ComparisonType
  realType : Option ComparisonType
  isSelected : body.getDefiningOp returned = some ⟨.select, [pred, .argument 0, .argument 1]⟩
  isPredicate : body.getDefiningOp pred =
    some ⟨.select, [equalReal, orderedImag, orderedReal]⟩
  isEqual : body.getDefiningOp equalReal =
    some ⟨.compare .EQ equalType, [reals false false, reals false true]⟩
  isImag : body.getDefiningOp orderedImag =
    some ⟨.compare direction imagType, [imags false, imags true]⟩
  isReal : body.getDefiningOp orderedReal =
    some ⟨.compare direction realType, [reals true false, reals true true]⟩
  areReals : ∀ comparison right, body.getDefiningOp (reals comparison right) =
    some ⟨.real, [.argument right.toNat]⟩
  areImags : ∀ right, body.getDefiningOp (imags right) = some ⟨.imag, [.argument right.toNat]⟩

theorem graph_of_accepted (accepted : matchLexicographicReducer body = some kind) :
    ∃ returned direction, body.returned = [returned] ∧
      Nonempty (LexicographicGraph body direction returned) ∧
      (direction = .GT ∧ kind = .Maximum ∨ direction = .LT ∧ kind = .Minimum) := by
  unfold matchLexicographicReducer at accepted
  dsimp only at accepted
  split at accepted
  · cases accepted
  · split at accepted
    · rename_i returned isReturned
      split at accepted
      · rename_i pred onTrue onFalse isSelected
        split at accepted
        · rename_i equalReal orderedImag orderedReal isPredicate
          split at accepted
          · rename_i realEqual equalType lhsEqual rhsEqual imagOrdered imagType lhsImag rhsImag
              direction realType lhsReal rhsReal isEqual isImag isReal
            split at accepted
            · cases accepted
            · rename_i graph
              split at accepted
              · cases accepted
              · rename_i directions
                simp only [Bool.not_eq_true', Bool.not_eq_false, Bool.and_eq_true,
                  decide_eq_true_eq] at graph
                obtain ⟨⟨⟨⟨⟨⟨⟨isLhsEqual, isRhsEqual⟩, isLhsImag⟩, isRhsImag⟩, isLhsReal⟩,
                  isRhsReal⟩, rfl⟩, rfl⟩ := graph
                simp only [not_or, not_not] at directions
                obtain ⟨either, rfl, rfl, -⟩ := directions
                refine ⟨returned, imagOrdered, isReturned, ⟨?_⟩, ?_⟩
                · exact ⟨pred, equalReal, orderedImag, orderedReal,
                    fun comparison right => if comparison then if right then rhsReal else lhsReal
                      else if right then rhsEqual else lhsEqual,
                    fun right => if right then rhsImag else lhsImag, equalType, imagType, realType,
                    isSelected, isPredicate, isEqual, isImag, isReal, by simp [*], by simp [*]⟩
                · by_cases greater : imagOrdered = .GT
                  · rw [if_pos greater] at accepted
                    exact .inl ⟨greater, (Option.some.inj accepted).symm⟩
                  · rw [if_neg greater] at accepted
                    rw [not_and_or, not_not, not_not] at either
                    exact .inr ⟨either.resolve_left greater, (Option.some.inj accepted).symm⟩
          · cases accepted
        · cases accepted
      · cases accepted
    · cases accepted

theorem LexicographicGraph.read {direction : ComparisonDirection} {returned : BlockValue}
    (graph : LexicographicGraph body direction returned) {results : List (ComplexDatum α)}
    (runs : body.results ComplexBodyOp.apply [.complex lhs, .complex rhs] outside = some results) :
    returned.read [.complex lhs, .complex rhs] outside results =
      some (.complex (if (if lhs.1 = rhs.1 then direction.holds lhs.2 rhs.2
        else direction.holds lhs.1 rhs.1) then lhs else rhs)) := by
  let argument (right : Bool) : α × α := if right then rhs else lhs
  have isArgument (right : Bool) : (BlockValue.argument right.toNat).read
      [.complex lhs, .complex rhs] outside results = some (.complex (argument right)) := by
    cases right <;> rfl
  have real (comparison right : Bool) :=
    read_real runs (graph.areReals comparison right) (isArgument right)
  have imag (right : Bool) := read_imag runs (graph.areImags right) (isArgument right)
  have equal := read_compare runs graph.isEqual (real false false) (real false true)
  have orderedImag := read_compare runs graph.isImag (imag false) (imag true)
  have orderedReal := read_compare runs graph.isReal (real true false) (real true true)
  have predicate := read_select runs graph.isPredicate equal orderedImag orderedReal
  rw [← apply_ite ComplexDatum.pred] at predicate
  have selected := read_select runs graph.isSelected predicate (isArgument false) (isArgument true)
  rw [← apply_ite ComplexDatum.complex] at selected
  simpa [argument, ComparisonDirection.holds] using selected

theorem lexicographic_sound (accepted : matchLexicographicReducer body = some kind)
    (runs : body.run ComplexBodyOp.apply [.complex lhs, .complex rhs] outside = some outcome) :
    outcome = [.complex (kind.function lhs rhs)] := by
  obtain ⟨returned, direction, isReturned, ⟨graph⟩, directions⟩ := graph_of_accepted accepted
  obtain ⟨results, isResults, isOutcome⟩ := Option.bind_eq_some_iff.mp runs
  have selected := graph.read isResults
  have isFunction : (if (if lhs.1 = rhs.1 then direction.holds lhs.2 rhs.2
      else direction.holds lhs.1 rhs.1) then lhs else rhs) = kind.function lhs rhs := by
    cases directions with
    | inl maximum =>
      rw [maximum.1, maximum.2, ← ReducerKind.select_maximum]
      simp [ComparisonDirection.holds]
    | inr minimum =>
      rw [minimum.1, minimum.2, ← ReducerKind.select_minimum]
      simp [ComparisonDirection.holds]
  rw [isFunction] at selected
  rw [isReturned, List.mapM_cons, selected] at isOutcome
  exact (Option.some.inj isOutcome).symm

theorem getReducerKind_sound (accepted : getReducerKind body = some kind)
    (runs : body.run ComplexBodyOp.apply [.complex lhs, .complex rhs] outside = some outcome) :
    outcome = [.complex (kind.function lhs rhs)] := by
  unfold getReducerKind at accepted
  split at accepted
  · rename_i isAdd
    obtain rfl := Option.some.inj accepted
    exact binary_sound isAdd (fun _ _ => rfl) runs
  · split at accepted
    · rename_i isMultiply
      obtain rfl := Option.some.inj accepted
      exact binary_sound isMultiply (fun _ _ => rfl) runs
    · exact lexicographic_sound accepted runs

omit [CommRing α] [LinearOrder α] in
theorem pack_unpack (value : Tensor (α × α)) : packRealImag (unpackRealImag value) = value := rfl

omit [CommRing α] in
theorem holds_EQ (x y : α) : ComparisonDirection.EQ.holds x y = decide (x = y) := rfl

omit [CommRing α] in
/-- The parts of a choice between numbers are choices between their parts. -/
theorem select_unpack (lhs rhs : Tensor (α × α)) (direction : ComparisonDirection)
    (function : α × α → α × α → α × α)
    (chooses : ∀ x y : α × α, (if (if x.1 = y.1 then direction.holds x.2 y.2
      else direction.holds x.1 y.1) then x else y) = function x y) :
    let predicate := select ((lhs.map Prod.fst).zipWith (ComparisonDirection.holds .EQ)
      (rhs.map Prod.fst)) ((lhs.map Prod.snd).zipWith direction.holds (rhs.map Prod.snd))
      ((lhs.map Prod.fst).zipWith direction.holds (rhs.map Prod.fst))
    (select predicate (lhs.map Prod.fst) (rhs.map Prod.fst),
      select predicate (lhs.map Prod.snd) (rhs.map Prod.snd)) =
        unpackRealImag (lhs.zipWith function rhs) := by
  apply Prod.ext
  · refine congrArg (Tensor.mk lhs.shape) (funext fun index => ?_)
    refine Eq.trans ?_ (congrArg Prod.fst (chooses (lhs.data index) (rhs.data index)))
    simp only [apply_ite Prod.fst, Tensor.zipWith, Tensor.map, select, holds_EQ, decide_eq_true_eq]
  · refine congrArg (Tensor.mk lhs.shape) (funext fun index => ?_)
    refine Eq.trans ?_ (congrArg Prod.snd (chooses (lhs.data index) (rhs.data index)))
    simp only [apply_ite Prod.snd, Tensor.zipWith, Tensor.map, select, holds_EQ, decide_eq_true_eq]

/-- Combining the parts combines the numbers. -/
theorem combine_unpack (lhs rhs : Tensor (α × α)) (kind : ReducerKind) :
    combine (unpackRealImag lhs) (unpackRealImag rhs) kind =
      unpackRealImag (lhs.zipWith kind.function rhs) := by
  cases kind with
  | Add => rfl
  | Multiply => rfl
  | Maximum =>
    apply select_unpack lhs rhs .GT
    intro x y
    rw [← ReducerKind.select_maximum]
    simp [ComparisonDirection.holds]
  | Minimum =>
    apply select_unpack lhs rhs .LT
    intro x y
    rw [← ReducerKind.select_minimum]
    simp [ComparisonDirection.holds]

omit [CommRing α] [LinearOrder α] in
theorem concatenate_unpack (lhs rhs : Tensor (α × α)) (dimension : Nat) :
    (concatenate (unpackRealImag lhs).1 (unpackRealImag rhs).1 dimension,
      concatenate (unpackRealImag lhs).2 (unpackRealImag rhs).2 dimension) =
      unpackRealImag (concatenate lhs rhs dimension) := by
  simp only [concatenate, unpackRealImag, Tensor.map, apply_ite Prod.fst, apply_ite Prod.snd]
  rfl

theorem combinePairs_unpack (kind : ReducerKind) (dimension size : Nat)
    (current : Tensor (α × α)) :
    combinePairs kind dimension size (unpackRealImag current) =
      unpackRealImag (halved kind.function dimension size current) := by
  have combined := combine_unpack (sliceDim current dimension 0 (size / 2 * 2) 2)
    (sliceDim current dimension 1 (size / 2 * 2) 2) kind
  have sliced (first limit stride : Nat) : sliceParts (unpackRealImag current) dimension first limit
      stride = unpackRealImag (sliceDim current dimension first limit stride) := rfl
  simp only [combinePairs, halved, sliced, combined]
  split
  · exact concatenate_unpack _ _ _
  · rfl

/-- The loop on the parts is the tree on the numbers. -/
theorem reduceDimension_unpack (kind : ReducerKind) (dimension size : Nat)
    (current : Tensor (α × α)) :
    reduceDimension kind dimension size (unpackRealImag current) =
      unpackRealImag (treeDimension kind.function dimension size current) := by
  induction size using Nat.strong_induction_on generalizing current with
  | h size ih =>
    rw [reduceDimension, treeDimension]
    split
    · rename_i large
      rw [combinePairs_unpack]
      exact ih _ (by omega) _
    · rfl

instance : Std.LawfulIdentity (ReducerKind.Add.function : α × α → α × α → α × α) 0 where
  left_id := zero_add
  right_id := add_zero

/-- The parts of a sum are the sums of the parts. -/
theorem foldr_add (elements : List (α × α)) :
    elements.foldr ReducerKind.Add.function 0 =
      ((elements.map Prod.fst).foldr (· + ·) 0, (elements.map Prod.snd).foldr (· + ·) 0) := by
  induction elements with
  | nil => rfl
  | cons element elements ih =>
    rw [List.foldr_cons, ih]
    rfl

namespace ComplexReduceOp

variable (op : ComplexReduceOp α)

/-- The elements that are combined at an index of the result, each once. -/
def elements (operand : Tensor (α × α)) (index : List Nat) : List (α × α) :=
  (positions op.dimensions 0 operand.shape index).map operand.data

/-- A result of a reduce: all of its elements combined, each once, and the init value. -/
structure Reduced (function : α × α → α × α → α × α) (elements : List (α × α))
    (init result : α × α) : Prop where
  combined : elements ≠ [] → ∃ order total, order.Perm elements ∧ Combines function order total ∧
    result = function total init
  empty : elements = [] → result = init

omit [CommRing α] [LinearOrder α] in
/-- With one order as good as another, that is the fold. -/
theorem Reduced.foldl_eq {function : α × α → α × α → α × α} [Std.Associative function]
    [Std.Commutative function] {elements : List (α × α)} {init result : α × α}
    (reduced : Reduced function elements init result) : result = elements.foldl function init := by
  have assoc := @Std.Associative.assoc _ function _
  have comm := @Std.Commutative.comm _ function _
  cases elements with
  | nil => exact reduced.empty rfl
  | cons first rest =>
    obtain ⟨order, total, perm, combines, rfl⟩ := reduced.combined (List.cons_ne_nil _ _)
    rw [← combines.foldl_eq init]
    apply perm.foldl_eq'
    intro x _ y _ start
    rw [assoc, comm x y, ← assoc]

/-- What runs the sums of the parts does not matter. -/
theorem sum_data (schedules : Schedules) (realSite imagSite : Site) (operand : Tensor (α × α))
    {index : List Nat} (inside : Within index (op.resultShape operand)) :
    let reduceSum (site : Site) (value : Tensor α) : Tensor α :=
      if op.dimensions = [] then value
      else (⟨op.dimensions, (· + ·), 0⟩ : ReduceOp α).eval schedules site value
    ((reduceSum realSite (unpackRealImag operand).1).data index,
        (reduceSum imagSite (unpackRealImag operand).2).data index) =
      (op.elements operand index).foldr ReducerKind.Add.function 0 := by
  have summed (site : Site) (value : Tensor α) (sameShape : value.shape = operand.shape) :
      (if op.dimensions = [] then value
        else (⟨op.dimensions, (· + ·), 0⟩ : ReduceOp α).eval schedules site value).data index =
      ((positions op.dimensions 0 operand.shape index).map value.data).foldr (· + ·) 0 := by
    split
    · rename_i none
      rw [ComplexReduceOp.resultShape, none] at inside
      have outside : ∀ d, 0 ≤ d → d < 0 + operand.shape.length → d ∉ ([] : List Nat) :=
        fun _ _ _ => List.not_mem_nil
      rw [without_outside outside] at inside
      rw [none, positions_outside inside.length outside]
      exact (add_zero _).symm
    · rw [← sameShape]
      exact (schedules.reduces site index _ 0 _).eq_foldr
  rw [foldr_add, elements, List.map_map, List.map_map]
  exact Prod.ext (summed realSite _ rfl) (summed imagSite _ rfl)

/-- The sums, the init value with them. -/
theorem reduced_of_sum (elements : List (α × α)) (init : α × α) :
    Reduced ReducerKind.Add.function elements init
      (ReducerKind.Add.function (elements.foldr ReducerKind.Add.function 0) init) where
  combined notEmpty := by
    cases elements with
    | nil => exact absurd rfl notEmpty
    | cons first rest =>
      have combines := Combines.foldl ReducerKind.Add.function first rest
      refine ⟨first :: rest, _, .refl _, combines, ?_⟩
      rw [← combines.foldl_eq init, foldl_eq_foldr init]
  empty isEmpty := by
    rw [isEmpty]
    exact zero_add init

/-- The tree of the parts, and the init value with it, are those of the numbers. -/
theorem tree_unpack (kind : ReducerKind) (operand : Tensor (α × α)) (resultShape : List Nat) :
    let current := op.dimensions.foldl (fun current dimension =>
      reduceDimension kind dimension (operand.shape.getD dimension 0) current)
      (unpackRealImag operand)
    let reshape (value : Tensor α) : Tensor α :=
      if value.shape = resultShape then value else value.reshape resultShape
    let tree := op.dimensions.foldl (fun current dimension =>
      treeDimension kind.function dimension (operand.shape.getD dimension 0) current) operand
    packRealImag (combine (reshape current.1, reshape current.2)
      (unpackRealImag ⟨resultShape, fun _ => op.initValue⟩) kind) =
        (if tree.shape = resultShape then tree else tree.reshape resultShape).zipWith kind.function
          ⟨resultShape, fun _ => op.initValue⟩ := by
  intro current reshape tree
  have isTree : current = unpackRealImag tree := by
    refine List.foldl_hom unpackRealImag ?_
    intro value dimension
    exact reduceDimension_unpack kind dimension _ value
  have reshaped : (reshape current.1, reshape current.2) = unpackRealImag
      (if tree.shape = resultShape then tree else tree.reshape resultShape) := by
    rw [isTree]
    by_cases same : tree.shape = resultShape
    · rw [if_pos same]
      exact Prod.ext (if_pos same) (if_pos same)
    · rw [if_neg same]
      exact Prod.ext (if_neg same) (if_neg same)
  rw [reshaped, combine_unpack, pack_unpack]

omit [CommRing α] [LinearOrder α] in
/-- A dimension without elements has no positions. -/
theorem elements_eq_nil {operand : Tensor (α × α)} {index : List Nat}
    (inside : Within index (op.resultShape operand)) {d : Nat}
    (less : d < operand.shape.length) (none : operand.shape.getD d 0 = 0) :
    op.elements operand index = [] := by
  rw [elements, List.map_eq_nil_iff, List.eq_nil_iff_forall_not_mem]
  intro position member
  have within := ((mem_positions inside).mp member).1
  have below := (within_iff_getD.mp within).2 d less
  omega

theorem reduced_of_grouped (kind : ReducerKind) {operand tree : Tensor (α × α)}
    (grouped : Grouped kind.function operand op.dimensions tree) {index : List Nat}
    (inside : Within index (op.resultShape operand)) :
    Reduced kind.function (op.elements operand index) op.initValue
      (((if tree.shape = op.resultShape operand then tree
        else tree.reshape (op.resultShape operand)).zipWith kind.function
          ⟨op.resultShape operand, fun _ => op.initValue⟩).data index) := by
  obtain ⟨order, combines, perm⟩ := grouped.reshaped _ inside
  constructor
  · intro _
    exact ⟨order, _, perm, combines, rfl⟩
  · intro isEmpty
    rw [elements] at isEmpty
    rw [isEmpty] at perm
    exact absurd perm.eq_nil combines.ne_nil

theorem matchAndRewrite_reduced (accepted : getReducerKind op.body = some kind)
    (schedules : Schedules) (realSite imagSite : Site) (operand : Tensor (α × α))
    (distinct : op.dimensions.Nodup) (dimensions : ∀ d ∈ op.dimensions, d < operand.shape.length) :
    ∃ result, op.matchAndRewrite schedules realSite imagSite operand = some result ∧
      result.shape = op.resultShape operand ∧
      ∀ index, Within index (op.resultShape operand) →
        Reduced kind.function (op.elements operand index) op.initValue (result.data index) := by
  unfold matchAndRewrite
  simp only [accepted]
  split
  · rename_i isEmpty
    obtain ⟨d, reduced, none⟩ := List.any_eq_true.mp isEmpty
    refine ⟨_, rfl, rfl, ?_⟩
    intro index inside
    have empty := op.elements_eq_nil inside (dimensions d reduced) (of_decide_eq_true none)
    exact ⟨fun notEmpty => absurd empty notEmpty, fun _ => rfl⟩
  · rename_i notEmpty
    have positive : ∀ d ∈ op.dimensions, 0 < operand.shape.getD d 0 := by
      intro d reduced
      apply Nat.pos_of_ne_zero
      intro none
      exact notEmpty (List.any_eq_true.mpr ⟨d, reduced, decide_eq_true none⟩)
    have grouped := Grouped.foldl kind.function distinct dimensions positive
    have tree := op.tree_unpack kind operand (op.resultShape operand)
    cases kind with
    | Add =>
      refine ⟨_, rfl, ?_, ?_⟩
      · by_cases none : op.dimensions = []
        · simp only [if_pos none]
          rw [resultShape, none, without_outside fun _ _ _ => List.not_mem_nil]
          rfl
        · simp only [if_neg none]
          rfl
      · intro index inside
        have reduced := reduced_of_sum (op.elements operand index) op.initValue
        rw [← op.sum_data schedules realSite imagSite operand inside] at reduced
        exact reduced
    | Multiply | Maximum | Minimum =>
      refine ⟨_, congrArg some tree, ?_, ?_⟩
      · exact (apply_ite Tensor.shape _ _ _).trans (ite_eq_right_iff.mpr id)
      · intro index inside
        exact op.reduced_of_grouped _ grouped inside

end ComplexReduceOp

/-- A body that is recognised computes its kind's function, and the reduction combines each element
of a slice once, and the init value once, which is the fold of the reducer from the init value. -/
theorem complex_reduce (op : ComplexReduceOp α) {kind : ReducerKind}
    (accepted : getReducerKind op.body = some kind) (schedules : Schedules)
    (realSite imagSite : Site) (operand : Tensor (α × α)) (distinct : op.dimensions.Nodup)
    (dimensions : ∀ d ∈ op.dimensions, d < operand.shape.length) :
    (∀ (outside : List (ComplexDatum α)) (lhs rhs : α × α) (outcome : List (ComplexDatum α)),
        op.body.run ComplexBodyOp.apply [.complex lhs, .complex rhs] outside = some outcome →
          outcome = [.complex (kind.function lhs rhs)]) ∧
      ∃ result, op.matchAndRewrite schedules realSite imagSite operand = some result ∧
        result.shape = without op.dimensions 0 operand.shape ∧
        ∀ index, Within index result.shape →
          ComplexReduceOp.Reduced kind.function (op.elements operand index) op.initValue
              (result.data index) ∧
            result.data index = (op.elements operand index).foldl kind.function op.initValue := by
  constructor
  · intro outside lhs rhs outcome runs
    exact getReducerKind_sound accepted runs
  · obtain ⟨result, isResult, shape, reduced⟩ := op.matchAndRewrite_reduced accepted schedules
      realSite imagSite operand distinct dimensions
    refine ⟨result, isResult, shape, ?_⟩
    intro index inside
    rw [shape] at inside
    exact ⟨reduced index inside, (reduced index inside).foldl_eq⟩

/-- The body that JAX has for the maximum. -/
def jaxMaximum : Block ComplexBodyOp where
  arguments := 2
  operations := [⟨.real, [.argument 0]⟩, ⟨.real, [.argument 1]⟩, ⟨.imag, [.argument 0]⟩,
    ⟨.imag, [.argument 1]⟩, ⟨.compare .EQ (some .FLOAT), [.result 0, .result 1]⟩,
    ⟨.compare .GT (some .FLOAT), [.result 2, .result 3]⟩,
    ⟨.compare .GT (some .FLOAT), [.result 0, .result 1]⟩,
    ⟨.select, [.result 4, .result 5, .result 6]⟩,
    ⟨.select, [.result 7, .argument 0, .argument 1]⟩]
  returned := [.result 8]

/-- Maxima of three rows: the imaginary parts decide between `1` and `1 + 2i`. -/
theorem complex_reduce_maximum :
    let op : ComplexReduceOp Int := ⟨[0], jaxMaximum, (-5, 0)⟩
    let operand : Tensor (Int × Int) :=
      ⟨[3, 2], fun index => if index = [2, 1] then (1, 2) else (1 - index.sum, 0)⟩
    ∃ result, op.matchAndRewrite .inOrder ⟨0, []⟩ ⟨1, []⟩ operand = some result ∧
      result.data [1] = (1, 2) := by
  intro op operand
  have accepted : getReducerKind op.body = some .Maximum := by decide
  obtain ⟨-, result, isResult, shape, reduced⟩ := complex_reduce op accepted .inOrder ⟨0, []⟩
    ⟨1, []⟩ operand (by decide) (by decide)
  refine ⟨result, isResult, ?_⟩
  have inside : Within [1] result.shape := by
    rw [shape]
    decide
  exact (reduced [1] inside).2.trans (by decide)

end Libtt.Reductions

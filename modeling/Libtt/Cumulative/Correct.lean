import Libtt.Cumulative.Matchers

/-!
# The cumulative operations are running reductions

The matchers read the dimension and the direction off the window.
-/
namespace Libtt.Cumulative

open Libtt.StableHlo

variable {type : ElementType} {semantics : Semantics} {combiner : Combiner}
  {checks : Checks (Element type)} {found : CumulativeReductionMatch} {reverse : Bool}
  {rank dim size : Nat} {op : ReduceWindowOp (Element type)}

theorem findWindowDimension_ones (count idx : Nat) (rest : List Nat)
    (state : Option (Nat × Nat)) :
    findWindowDimension (List.replicate count 1 ++ rest) idx state =
      findWindowDimension rest (idx + count) state := by
  induction count generalizing idx with
  | zero => rfl
  | succ count ih =>
    rw [List.replicate_succ, List.cons_append, findWindowDimension, if_pos rfl, ih]
    congr 1
    omega

theorem findWindowDimension_window (inside : dim < rank) (several : 1 < size) :
    findWindowDimension ((List.replicate rank 1).set dim size) 0 none = some (some (size, dim)) := by
  rw [replicate_split inside, findWindowDimension_ones, findWindowDimension, if_neg (by omega),
    Option.isSome_none, if_neg Bool.false_ne_true, Nat.zero_add]
  have tail := findWindowDimension_ones (rank - dim - 1) (dim + 1) [] (some (size, dim))
  rwa [List.append_nil] at tail

/-- The padding that a window along one dimension has. -/
def windowPadding (rank dim size : Nat) (reverse : Bool) : List Int :=
  (List.replicate (rank * 2) 0).set (dim * 2 + if reverse then 1 else 0) ((size : Int) - 1)

/-- A window along one dimension. -/
abbrev windowAlong {α : Type} (rank dim size : Nat) (reverse : Bool) (init : α) :
    ReduceWindowOp α :=
  ⟨(List.replicate rank 1).set dim size, windowPadding rank dim size reverse, init⟩

theorem getD_windowPadding {place : Nat} (inside : place < rank * 2) :
    (windowPadding rank dim size reverse).getD place 0 =
      if place = dim * 2 + (if reverse then 1 else 0) then (size : Int) - 1 else 0 := by
  rw [windowPadding, List.getD_eq_getElem _ _ (by simpa using inside), List.getElem_set,
    List.getElem_replicate]
  simp only [eq_comm]

theorem spans_window (inside : dim < rank) (init : Element type) :
    (windowAlong rank dim size reverse init).Spans rank dim size reverse where
  within := inside
  windowDimensions := rfl
  padding place below := by
    rw [getD_windowPadding (by omega), Nat.mul_comm dim]

/-- A match of such a window has its dimension and direction. -/
theorem validateNonSplatPadding_window (inside : dim < rank) (several : 1 < size) {shape : List Nat}
    (valid : validateNonSplatPadding ((List.replicate rank 1).set dim size)
      (windowPadding rank dim size reverse) shape = some found) : found = ⟨dim, reverse⟩ := by
  unfold validateNonSplatPadding at valid
  rw [findWindowDimension_window inside several] at valid
  dsimp only at valid
  have low : (windowPadding rank dim size reverse).getD (dim * 2) 0 =
      if reverse then 0 else (size : Int) - 1 := by
    rw [getD_windowPadding (by omega)]
    cases reverse <;> simp
  have high : (windowPadding rank dim size reverse).getD (dim * 2 + 1) 0 =
      if reverse then (size : Int) - 1 else 0 := by
    rw [getD_windowPadding (by omega)]
    cases reverse <;> simp
  rw [low, high] at valid
  cases reverse <;> simp only [Bool.false_eq_true, if_false, if_true] at valid <;>
    split_ifs at valid
  · exact (Option.some.inj valid).symm
  · omega
  · omega
  · exact (Option.some.inj valid).symm

theorem windowPadding_not_splat (inside : dim < rank) (several : 1 < size) :
    ¬∀ amount ∈ windowPadding rank dim size reverse,
      amount = (windowPadding rank dim size reverse).headD 0 := by
  intro same
  have length : (windowPadding rank dim size reverse).length = rank * 2 := by
    simp [windowPadding]
  have all : ∀ place < rank * 2, (windowPadding rank dim size reverse).getD place 0 =
      (windowPadding rank dim size reverse).headD 0 := by
    intro place below
    rw [List.getD_eq_getElem _ _ (length ▸ below)]
    exact same _ (List.getElem_mem _)
  have low := all (dim * 2) (by omega)
  have high := all (dim * 2 + 1) (by omega)
  rw [getD_windowPadding (by omega)] at low high
  cases reverse <;> simp at low high <;> omega

theorem isCumulative_window {desired : TypicalInitReductionValue} {body : Combiner}
    {init : Element type} {shape : List Nat} (inside : dim < rank) (several : 1 < size)
    (isFound : isCumulative checks combiner desired (windowAlong rank dim size reverse init) body
      shape = some found) :
    body = combiner ∧ found = ⟨dim, reverse⟩ := by
  unfold isCumulative at isFound
  split at isFound
  · next checked =>
    rw [hasValidInputAndPadding, if_neg (windowPadding_not_splat inside several)] at isFound
    exact ⟨checked.1, validateNonSplatPadding_window inside several isFound⟩
  · cases isFound

/-- The type that a cumulative operation is computed in. -/
def computedIn (combiner : Combiner) (type : ElementType) : ElementType :=
  match combiner with
  | .add | .multiply => computeType combiner type
  | .maximum | .minimum => scanType type

/-- A running reduction in another type. -/
def runningIn (semantics : Semantics) (combiner : Combiner) (compute : ElementType)
    (operand : Tensor (Element type)) (dim : Nat) (reverse : Bool) : Tensor (Element type) :=
  castToElementType semantics compute type
    ((castToElementType semantics type compute operand).running
      (semantics.combine combiner compute) dim reverse)

theorem castToElementType_shape (source target : ElementType) (operand : Tensor (Element source)) :
    (castToElementType semantics source target operand).shape = operand.shape := by
  unfold castToElementType
  split
  · next same =>
    subst same
    rfl
  · rfl

theorem castToElementType_self (operand : Tensor (Element type)) :
    castToElementType semantics type type operand = operand := dif_pos rfl

theorem castToElementType_data (source target : ElementType) (index : List Nat)
    {first second : Tensor (Element source)} (same : first.data index = second.data index) :
    (castToElementType semantics source target first).data index =
      (castToElementType semantics source target second).data index := by
  unfold castToElementType
  split
  · next equal =>
    subst equal
    exact same
  · exact congrArg (semantics.typecast source target) same

/-- Reversed, accumulated and reversed again, the elements are accumulated from the end. -/
theorem reverse_running {α : Type} (combine : α → α → α) (operand : Tensor α) {index : List Nat}
    (within : Within index operand.shape) (inside : dim < operand.shape.length) :
    (((operand.reverse dim).running combine dim false).reverse dim).data index =
      (operand.running combine dim true).data index := by
  obtain ⟨before, after, isShape, rfl⟩ := exists_split inside
  generalize operand.shape.getD before.length 0 = size at *
  rw [isShape] at within
  obtain ⟨first, position, last, rfl, isFirst, below, isLast⟩ := within_split.mp within
  have isReversed : (operand.reverse before.length).shape = before ++ size :: after := isShape
  have reversedData : ∀ place, (operand.reverse before.length).data (first ++ place :: last) =
      operand.data (first ++ (size - 1 - place) :: last) := by
    intro place
    rw [Tensor.reverse, isShape]
    dsimp only
    rw [getD_split rfl, getD_split isFirst.length, set_split isFirst.length]
  have passed : (scannedPositions false size (size - 1 - position)).map (fun place =>
      operand.data (first ++ (size - 1 - place) :: last)) =
        (scannedPositions true size position).map fun place =>
          operand.data (first ++ place :: last) := by
    rw [scannedPositions, scannedPositions, if_neg Bool.false_ne_true, if_pos rfl, List.map_map,
      show size - 1 - position + 1 = size - position by omega]
    rfl
  change combineAll combine _ (Tensor.scanned _ _ _ _) = combineAll combine _ _
  have outer : ((operand.reverse before.length).running combine before.length false).shape =
      before ++ size :: after := isShape
  rw [outer, getD_split rfl, getD_split isFirst.length, set_split isFirst.length,
    scanned_split isReversed isFirst.length, scanned_split isShape isFirst.length, reversedData,
    show size - 1 - (size - 1 - position) = position by omega]
  simp only [reversedData]
  rw [passed]

theorem replaceWithCumulativeOp_data (combiner : Combiner) (found : CumulativeReductionMatch)
    (operand : Tensor (Element type)) {index : List Nat} (within : Within index operand.shape)
    (inside : found.dimension < operand.shape.length) :
    (replaceWithCumulativeOp semantics combiner found operand).data index =
      (runningIn semantics combiner (computeType combiner type) operand found.dimension
        found.reverse).data index := by
  refine castToElementType_data _ _ index ?_
  have shape : (castToElementType semantics type (computeType combiner type) operand).shape =
      operand.shape := castToElementType_shape _ _ operand
  cases isReverse : found.reverse with
  | false => rfl
  | true =>
    exact reverse_running _ _ (shape ▸ within) (shape ▸ inside)

theorem replaceWithCumulativeOp_shape (combiner : Combiner) (found : CumulativeReductionMatch)
    (operand : Tensor (Element type)) :
    (replaceWithCumulativeOp semantics combiner found operand).shape = operand.shape := by
  unfold replaceWithCumulativeOp
  rw [castToElementType_shape]
  cases found.reverse <;> exact castToElementType_shape _ _ operand

/-- The operation that replaces a window is the running reduction in the type of the operation. -/
theorem lowerReduceWindow_window {init : Element type} (inside : dim < rank) (several : 1 < size)
    {operand result : Tensor (Element type)} (length : operand.shape.length = rank)
    (lowered : lowerReduceWindow semantics checks (windowAlong rank dim size reverse init) combiner
      operand = some result) :
    result.shape = operand.shape ∧ ∀ index, Within index operand.shape → result.data index =
      (runningIn semantics combiner (computedIn combiner type) operand dim reverse).data index := by
  unfold lowerReduceWindow at lowered
  split at lowered
  · next found isFound =>
    obtain ⟨rfl, rfl⟩ := isCumulative_window inside several isFound
    rw [← Option.some.inj lowered]
    exact ⟨replaceWithCumulativeOp_shape _ _ _, fun index within =>
      replaceWithCumulativeOp_data _ _ operand within (length ▸ inside)⟩
  split at lowered
  · next found isFound =>
    obtain ⟨rfl, rfl⟩ := isCumulative_window inside several isFound
    rw [← Option.some.inj lowered]
    exact ⟨replaceWithCumulativeOp_shape _ _ _, fun index within =>
      replaceWithCumulativeOp_data _ _ operand within (length ▸ inside)⟩
  · obtain ⟨found, isFound, rfl⟩ := Option.map_eq_some_iff.mp lowered
    unfold isCumulativeExtremum at isFound
    have shape : (replaceWithCumulativeReduction semantics combiner found operand).shape =
        operand.shape := by
      unfold replaceWithCumulativeReduction
      rw [castToElementType_shape]
      exact castToElementType_shape _ _ operand
    split at isFound
    · obtain ⟨_, rfl⟩ := isCumulative_window inside several isFound
      exact ⟨shape, fun _ _ => rfl⟩
    · obtain ⟨_, rfl⟩ := isCumulative_window inside several isFound
      exact ⟨shape, fun _ _ => rfl⟩
    · cases isFound

theorem combineAll_map {α β : Type} {combine : α → α → α} {combine' : β → β → β} {lift : α → β}
    (commutes : ∀ left right, combine' (lift left) (lift right) = lift (combine left right))
    (default : α) (elements : List α) :
    combineAll combine' (lift default) (elements.map lift) =
      lift (combineAll combine default elements) := by
  cases elements with
  | nil => rfl
  | cons element elements =>
    change (elements.map lift).foldl combine' (lift element) = lift (elements.foldl combine element)
    induction elements generalizing element with
    | nil => rfl
    | cons next elements ih => rw [List.map_cons, List.foldl_cons, commutes, ih, List.foldl_cons]

theorem scanned_map {α β : Type} (lift : α → β) (operand : Tensor α) (index : List Nat) :
    (operand.map lift).scanned dim reverse index = (operand.scanned dim reverse index).map lift := by
  rw [Tensor.scanned, Tensor.scanned, Tensor.line, Tensor.line, List.map_map]
  rfl

/-- A running reduction in a type that the combiner commutes with the cast to. -/
theorem runningIn_of_commutes {compute : ElementType} (different : type ≠ compute)
    (commutes : ∀ left right, semantics.combine combiner compute
        (semantics.typecast type compute left) (semantics.typecast type compute right) =
      semantics.typecast type compute (semantics.combine combiner type left right))
    (back : ∀ value, semantics.typecast compute type (semantics.typecast type compute value) =
      value) (operand : Tensor (Element type)) (index : List Nat) :
    (runningIn semantics combiner compute operand dim reverse).data index =
      (operand.running (semantics.combine combiner type) dim reverse).data index := by
  unfold runningIn castToElementType
  rw [dif_neg different, dif_neg different.symm]
  change semantics.typecast compute type (combineAll _ (semantics.typecast type compute _)
    (Tensor.scanned _ _ _ _)) = _
  rw [scanned_map, combineAll_map commutes, back]
  rfl

theorem unsigned_typecast (semantics : Semantics) {source target : IntegerType}
    (isSource : source.signed = false) (isTarget : target.signed = false) (wider : source.width ≤ target.width) (value : source.Word) :
    target.read (semantics.typecast (.integer source) (.integer target) value) =
      source.read value := by
  have positive : 0 ≤ source.read value := by
    rw [IntegerType.read, isSource, if_neg Bool.false_ne_true]
    exact Int.natCast_nonneg _
  refine IntegerType.read_constant (le_trans IntegerType.least_le positive) ?_
  refine le_trans (IntegerType.read_le_largest value) (Int.ofNat_le.mpr ?_)
  rw [IntegerType.largest, IntegerType.largest, isSource, isTarget, if_neg Bool.false_ne_true,
    if_neg Bool.false_ne_true]
  exact Nat.sub_le_sub_right (Nat.pow_le_pow_right (by decide) wider) 1

/-- Of unsigned integers, booleans too, the operations are the greater and the lesser. -/
theorem read_combine_unsigned {type : IntegerType} (isUnsigned : type.signed = false)
    (left right : type.Word) :
    type.read (type.combine .maximum left right) = max (type.read left) (type.read right) ∧
      type.read (type.combine .minimum left right) = min (type.read left) (type.read right) := by
  by_cases isBit : type.width = 1
  · have bits : ∀ left right : IntegerType.Word ⟨1, false, by decide⟩,
        IntegerType.read ⟨1, false, by decide⟩
            (IntegerType.combine ⟨1, false, by decide⟩ .maximum left right) =
          max (IntegerType.read ⟨1, false, by decide⟩ left)
            (IntegerType.read ⟨1, false, by decide⟩ right) ∧
        IntegerType.read ⟨1, false, by decide⟩
            (IntegerType.combine ⟨1, false, by decide⟩ .minimum left right) =
          min (IntegerType.read ⟨1, false, by decide⟩ left)
            (IntegerType.read ⟨1, false, by decide⟩ right) := by decide
    obtain ⟨width, signed, positive⟩ := type
    subst isBit isUnsigned
    exact bits left right
  · simp only [IntegerType.combine, if_neg isBit]
    exact ⟨IntegerType.read_maximum .., IntegerType.read_minimum ..⟩

/-- A scan of the greatest or the least is exact, of booleans too. -/
theorem runningIn_extremum {type : IntegerType}
    (extremum : combiner = .maximum ∨ combiner = .minimum)
    (operand : Tensor (Element (.integer type))) (index : List Nat) :
    (runningIn semantics combiner (scanType (.integer type)) operand dim reverse).data index =
      (operand.running (semantics.combine combiner (.integer type)) dim reverse).data index := by
  by_cases narrow : type.signed = false ∧ type.width < 32
  · have isScan : scanType (.integer type) = .integer ⟨32, false, by decide⟩ := if_pos narrow
    have cast : ∀ value : type.Word, IntegerType.read ⟨32, false, by decide⟩
        (semantics.typecast (.integer type) (.integer ⟨32, false, by decide⟩) value) =
          type.read value :=
      unsigned_typecast semantics narrow.1 rfl narrow.2.le
    rw [isScan]
    refine runningIn_of_commutes ?_ ?_ ?_ operand index
    · intro same
      have widths : type.width = 32 := congrArg IntegerType.width (ElementType.integer.inj same)
      omega
    · intro left right
      refine IntegerType.eq_of_read ?_
      rw [cast]
      rcases extremum with rfl | rfl
      · refine (read_combine_unsigned rfl _ _).1.trans ?_
        rw [cast, cast]
        exact (read_combine_unsigned narrow.1 left right).1.symm
      · refine (read_combine_unsigned rfl _ _).2.trans ?_
        rw [cast, cast]
        exact (read_combine_unsigned narrow.1 left right).2.symm
    · intro value
      exact (congrArg type.constant (cast value)).trans (IntegerType.constant_read value)
  · have isScan : scanType (.integer type) = .integer type := if_neg narrow
    rw [isScan, runningIn, castToElementType_self, castToElementType_self]

end Libtt.Cumulative

import Libtt.Pooling.PositionsCorrect
import Mathlib.Data.List.Find

/-!
# Select and scatter on a normalized layout

The scatter gives each position the sum of the source elements whose windows' pool index it is, also
where updates overwrite.
-/
namespace Libtt.Pooling

open Libtt.Foundation Libtt.StableHlo

variable {α β : Type} {format : FloatFormat}

/-- A scatter into zeros. Where updates overwrite, no two may be at the same position. -/
theorem scatter_data [AddCommMonoid β] {reduceType : ReduceType} {input updates : Tensor β}
    {chosen : Tensor (Option (List Nat))} {position : List Nat}
    (isZero : input.data position = 0)
    (apart : reduceType = .Invalid → ∀ first ∈ indices updates.shape,
      ∀ second ∈ indices updates.shape, chosen.data first = some position →
        chosen.data second = some position → first = second) :
    (scatter reduceType input chosen updates).data position =
      (((indices updates.shape).filter fun index => chosen.data index = some position).map
        updates.data).sum := by
  have filtered (step : β → List Nat → β) : (indices updates.shape).foldl (fun value index =>
      if chosen.data index = some position then step value index else value) 0 =
        ((indices updates.shape).filter fun index => chosen.data index = some position).foldl
          step 0 := by
    simp only [List.foldl_filter, decide_eq_true_eq]
  simp only [scatter, isZero]
  cases reduceType with
  | Sum =>
    rw [List.sum_eq_foldl, List.foldl_map]
    exact filtered fun value index => value + updates.data index
  | Invalid =>
    refine (filtered fun _ index => updates.data index).trans ?_
    have distinct := (nodup_indices updates.shape).filter
      fun index => chosen.data index = some position
    have alone : ∀ first ∈ (indices updates.shape).filter fun index =>
          chosen.data index = some position,
        ∀ second ∈ (indices updates.shape).filter fun index =>
          chosen.data index = some position, first = second := by
      intro first isFirst second isSecond
      simp only [List.mem_filter, decide_eq_true_eq] at isFirst isSecond
      exact apart rfl first isFirst.1 second isSecond.1 isFirst.2 isSecond.2
    generalize ((indices updates.shape).filter fun index => chosen.data index = some position) =
      hits at distinct alone ⊢
    rcases hits with _ | ⟨first, _ | ⟨second, rest⟩⟩
    · rfl
    · simp
    · have same := alone first (by simp) second (by simp)
      simp [same] at distinct

namespace SelectAndScatterOp

variable (op : SelectAndScatterOp)

/-- The operand whose greatest elements are selected. -/
def selection (operand : Tensor (FloatValue format)) : Tensor (FloatValue format) :=
  if op.direction = .LE ∨ op.direction = .LT then operand.map negate else operand

/-- The first greatest position of a window. -/
def pooledPosition (operand : Tensor (FloatValue format)) (index : List Nat) :
    Option (List Nat) :=
  let positions := windowPositions operand.shape (op.windows operand.shape) index
  positions.find? fun position => positions.all fun other =>
    SelectDirection.LE.compare ((op.selection operand).data other)
      ((op.selection operand).data position)

theorem window_dilation (d : Nat) : (op.attributes.window d).dilation = 1 := by
  change (List.replicate op.windowDimensions.length 1).getD d 1 = 1
  rw [List.getD_eq_getElem?_getD, List.getElem?_replicate]
  split <;> rfl

@[simp] theorem selection_shape (operand : Tensor (FloatValue format)) :
    (op.selection operand).shape = operand.shape := by
  unfold selection
  split <;> rfl

theorem pooledPosition_mem {operand : Tensor (FloatValue format)} {index position : List Nat}
    (found : op.pooledPosition operand index = some position) :
    position ∈ windowPositions operand.shape (op.windows operand.shape) index :=
  List.mem_of_find?_eq_some found

end SelectAndScatterOp

section

variable {op : SelectAndScatterOp} {layout : Pool2DLayout} {operand : Tensor (FloatValue format)}
  {groups : Groups} (isGroups : groups.Of layout op.attributes operand.shape.length)
include isGroups

/-- The index that the pool has for a window, on the normalized layout. -/
theorem pool_normalized {index : List Nat} (inside : Within index (op.sourceShape operand.shape)) :
    (maxPool2dWithIndices (layout.kernel op.attributes 0) (layout.kernel op.attributes 1)
      (layout.normalize (op.selection operand))).data
        (groups.normalizedIndex (op.sourceShape operand.shape) index) =
      (op.pooledPosition operand index).map (groups.normalizedIndex operand.shape) := by
  have ranked : (op.selection operand).shape.length = operand.shape.length := by simp
  have isShape := isGroups.normalize_shape ranked
  have positions : windowPositions (groups.normalizedShape operand.shape)
      (poolWindows (layout.kernel op.attributes 0) (layout.kernel op.attributes 1))
      (groups.normalizedIndex (op.sourceShape operand.shape) index) =
        (windowPositions operand.shape (op.windows operand.shape) index).map
          (groups.normalizedIndex operand.shape) :=
    isGroups.windowPositions_normalized rfl inside
  have element : ∀ position ∈ windowPositions operand.shape (op.windows operand.shape) index,
      (layout.normalize (op.selection operand)).data
        (groups.normalizedIndex operand.shape position) = (op.selection operand).data position := by
    intro position member
    have within := within_windowPositions member
    have data := isGroups.normalize_data ranked (by rwa [op.selection_shape])
    rwa [op.selection_shape] at data
  rw [op.selection_shape] at isShape
  simp only [maxPool2dWithIndices, isShape, positions, List.find?_map, List.all_map]
  refine congrArg (Option.map _) (List.find?_congr fun position member => ?_)
  simp only [Function.comp_apply, element position member]
  rw [Bool.eq_iff_iff, List.all_eq_true, List.all_eq_true]
  refine forall₂_congr fun other alsoMember => ?_
  rw [Function.comp_apply, element other alsoMember]

/-- The index that the pool has is that of a position if this is the first greatest one. -/
theorem pool_eq_iff {index position : List Nat}
    (inside : Within index (op.sourceShape operand.shape))
    (isPosition : Within position operand.shape) :
    (maxPool2dWithIndices (layout.kernel op.attributes 0) (layout.kernel op.attributes 1)
      (layout.normalize (op.selection operand))).data
        (groups.normalizedIndex (op.sourceShape operand.shape) index) =
          some (groups.normalizedIndex operand.shape position) ↔
      op.pooledPosition operand index = some position := by
  rw [pool_normalized isGroups inside, Option.map_eq_some_iff]
  constructor
  · rintro ⟨other, found, same⟩
    have alsoInside := within_windowPositions (op.pooledPosition_mem found)
    rwa [← isGroups.normalizedIndex_injective rfl alsoInside isPosition same]
  · exact fun found => ⟨position, found, rfl⟩

end

variable {op : SelectAndScatterOp} {layout : Pool2DLayout} {operand : Tensor (FloatValue format)}

/-- The windows are no larger than their strides where updates overwrite. -/
theorem windows_apart {groups : Groups}
    (isGroups : groups.Of layout op.attributes operand.shape.length)
    (first : (layout.kernel op.attributes 0).size ≤ (layout.kernel op.attributes 0).stride)
    (second : (layout.kernel op.attributes 1).size ≤ (layout.kernel op.attributes 1).stride) :
    ∀ d < operand.shape.length, ((op.windows operand.shape).getD d .unit).dilation = 1 ∧
      ((op.windows operand.shape).getD d .unit).size ≤
        ((op.windows operand.shape).getD d .unit).stride := by
  intro d less
  have isWindow : (op.windows operand.shape).getD d .unit = op.attributes.window d :=
    windows_getD less
  rw [isWindow]
  refine ⟨op.window_dilation d, ?_⟩
  by_cases isFirst : d = groups.first
  · rwa [isFirst, ← isGroups.kernel_first]
  by_cases isSecond : d = groups.second
  · rwa [isSecond, ← isGroups.kernel_second]
  rw [isGroups.units d less isFirst isSecond]
  exact le_rfl

/-- The result of the conversion. -/
theorem lowerSelectAndScatter_data [AddCommMonoid β]
    (isLayout : getPool2DLayout operand.shape op.attributes = some layout) {source : Tensor β}
    (isSource : source.shape = op.sourceShape operand.shape) {position : List Nat}
    (inside : Within position operand.shape) :
    (lowerSelectAndScatter layout op operand source).data position =
      (((indices source.shape).filter fun index =>
        op.pooledPosition operand index = some position).map source.data).sum := by
  obtain ⟨groups, isGroups⟩ := groups_of isLayout
  have ranked : source.shape.length = operand.shape.length := by
    rw [isSource]
    exact Tensor.length_windowedShape _ _
  have fullShape : (layout.normalize (⟨operand.shape, fun _ => 0⟩ : Tensor β)).shape =
      groups.normalizedShape operand.shape := isGroups.normalize_shape rfl
  have fullData : (layout.normalize (⟨operand.shape, fun _ => 0⟩ : Tensor β)).data
      (groups.normalizedIndex operand.shape position) = 0 := isGroups.normalize_data rfl inside
  have updates := isGroups.normalize_shape ranked
  have perm := isGroups.indices_normalized ranked
  have isPool {index : List Nat} (member : index ∈ indices source.shape) :=
    pool_eq_iff isGroups (isSource ▸ mem_indices.mp member) inside
  let reduceType :=
    if (layout.kernel op.attributes 0).size ≤ (layout.kernel op.attributes 0).stride ∧
        (layout.kernel op.attributes 1).size ≤ (layout.kernel op.attributes 1).stride then
      ReduceType.Invalid
    else ReduceType.Sum
  let chosen := maxPool2dWithIndices (layout.kernel op.attributes 0) (layout.kernel op.attributes 1)
    (layout.normalize (op.selection operand))
  have isScatter : lowerSelectAndScatter layout op operand source =
      layout.restoreOriginalLayout operand.shape (scatter reduceType
        (layout.normalize ⟨operand.shape, fun _ => 0⟩) chosen (layout.normalize source)) := rfl
  have scatterShape : (scatter reduceType (layout.normalize ⟨operand.shape, fun _ => (0 : β)⟩)
      chosen (layout.normalize source)).shape = groups.normalizedShape operand.shape := fullShape
  rw [isScatter, isGroups.restore_data rfl scatterShape inside, scatter_data fullData ?_, updates]
  · rw [((perm.filter _).map _).sum_eq, List.filter_map, List.map_map]
    have filters : ∀ index ∈ indices source.shape,
        ((fun index => decide (chosen.data index =
          some (groups.normalizedIndex operand.shape position))) ∘
            groups.normalizedIndex source.shape) index =
            decide (op.pooledPosition operand index = some position) := fun index member => by
      rw [Function.comp_apply, isSource]
      exact decide_eq_decide.mpr (isPool member)
    rw [List.filter_congr filters]
    refine congrArg List.sum (List.map_congr_left fun index member => ?_)
    exact isGroups.normalize_data ranked (mem_indices.mp (List.mem_filter.mp member).1)
  · intro overwrites first isFirst second isSecond atFirst atSecond
    rw [updates, perm.mem_iff, List.mem_map] at isFirst isSecond
    obtain ⟨first, firstMember, rfl⟩ := isFirst
    obtain ⟨second, secondMember, rfl⟩ := isSecond
    rw [isSource] at atFirst atSecond
    have bounds : (layout.kernel op.attributes 0).size ≤ (layout.kernel op.attributes 0).stride ∧
        (layout.kernel op.attributes 1).size ≤ (layout.kernel op.attributes 1).stride := by
      by_contra larger
      simp only [reduceType, if_neg larger] at overwrites
      cases overwrites
    have windowsLength : (op.windows operand.shape).length = operand.shape.length := by
      simp [SelectAndScatterOp.windows, WindowAttributes.windows]
    have same := eq_of_mem_windowPositions ((mem_indices.mp firstMember).length.trans ranked)
      ((mem_indices.mp secondMember).length.trans ranked) windowsLength
      (windows_apart isGroups bounds.1 bounds.2)
      (op.pooledPosition_mem ((isPool firstMember).mp atFirst))
      (op.pooledPosition_mem ((isPool secondMember).mp atSecond))
    rw [same]

/-- The number that a float without NaN stands for. -/
def numberKey (value : FloatValue format) : Int := (number (.float format) value).getD 0

theorem number_eq {value : FloatValue format} (numeric : value ≠ .nan) :
    number (.float format) value = some (numberKey value) := by
  cases value with
  | nan => exact absurd rfl numeric
  | number key mem => rfl

theorem negate_ne_nan {value : FloatValue format} (numeric : value ≠ .nan) :
    negate value ≠ .nan := by
  cases value with
  | nan => exact absurd rfl numeric
  | number key mem => exact fun same => by cases same

/-- Negation turns the order around. -/
theorem numberKey_negate (mirrored : Mirrored format) {left right : FloatValue format}
    (leftNumeric : left ≠ .nan) (rightNumeric : right ≠ .nan) :
    numberKey (negate left) < numberKey (negate right) ↔ numberKey right < numberKey left := by
  cases left with
  | nan => exact absurd rfl leftNumeric
  | number key mem =>
    cases right with
    | nan => exact absurd rfl rightNumeric
    | number other isOther =>
      rw [negate_number mem (negate_mem mirrored mem),
        negate_number isOther (negate_mem mirrored isOther)]
      simp only [numberKey, number, Option.getD_some]
      split <;> split <;> split <;> split <;> omega

namespace SelectAndScatterOp

variable (op : SelectAndScatterOp)

/-- The key of a position, of which the greatest is selected. -/
def key (operand : Tensor (FloatValue format)) (position : List Nat) : Int :=
  numberKey ((op.selection operand).data position)

/-- No element in the window is preferred to that of the position. -/
def IsExtreme (operand : Tensor (FloatValue format)) (index position : List Nat) : Prop :=
  ∀ other ∈ windowPositions operand.shape (op.windows operand.shape) index,
    ¬op.direction.compare (operand.data other) (operand.data position)

/-- At most one position in the window is extreme. -/
def Unambiguous (operand : Tensor (FloatValue format)) (index : List Nat) : Prop :=
  ∀ first ∈ windowPositions operand.shape (op.windows operand.shape) index,
    ∀ second ∈ windowPositions operand.shape (op.windows operand.shape) index,
      op.IsExtreme operand index first → op.IsExtreme operand index second → first = second

variable {op} {operand : Tensor (FloatValue format)} (mirrored : Mirrored format)
  (numeric : ∀ position, Within position operand.shape → operand.data position ≠ .nan)
include mirrored numeric

/-- The select region compares the keys. -/
theorem compare_eq {current candidate : List Nat} (isCurrent : Within current operand.shape)
    (isCandidate : Within candidate operand.shape) :
    op.direction.compare (operand.data current) (operand.data candidate) =
      if op.direction = .GE ∨ op.direction = .LE then
        keepFirst (op.key operand) current candidate
      else keepLast (op.key operand) current candidate := by
  have less := numberKey_negate mirrored (numeric candidate isCandidate) (numeric current isCurrent)
  have atMost : numberKey (negate (operand.data candidate)) ≤
      numberKey (negate (operand.data current)) ↔
        numberKey (operand.data current) ≤ numberKey (operand.data candidate) := by
    rw [← not_lt, ← not_lt, numberKey_negate mirrored (numeric current isCurrent)
      (numeric candidate isCandidate)]
  rw [SelectDirection.compare, number_eq (numeric current isCurrent),
    number_eq (numeric candidate isCandidate)]
  cases isDirection : op.direction with
  | GE => simp [keepFirst, key, selection, isDirection]
  | GT => simp [keepLast, key, selection, isDirection]
  | LE => simp [keepFirst, key, selection, isDirection, Tensor.map, atMost]
  | LT => simp [keepLast, key, selection, isDirection, Tensor.map, less]

omit mirrored in
theorem selection_numeric {position : List Nat} (inside : Within position operand.shape) :
    (op.selection operand).data position ≠ .nan := by
  unfold selection
  split
  · exact negate_ne_nan (numeric position inside)
  · exact numeric position inside

omit mirrored in
/-- The first greatest position, by the keys. -/
theorem pooledPosition_eq (index : List Nat) : op.pooledPosition operand index =
    (windowPositions operand.shape (op.windows operand.shape) index).find?
      (isGreatest (op.key operand)
        (windowPositions operand.shape (op.windows operand.shape) index)) := by
  refine List.find?_congr fun position member => ?_
  have isNumeric : (op.selection operand).data position ≠ .nan :=
    selection_numeric numeric (within_windowPositions member)
  rw [isGreatest, Bool.eq_iff_iff, List.all_eq_true, List.all_eq_true]
  refine forall₂_congr fun other alsoMember => ?_
  have alsoNumeric : (op.selection operand).data other ≠ .nan :=
    selection_numeric numeric (within_windowPositions alsoMember)
  rw [SelectDirection.compare, number_eq isNumeric, number_eq alsoNumeric]
  rfl

/-- Where the current of equal elements is kept, the window selects its first greatest. -/
theorem selectedPosition_first (keeps : op.direction = .GE ∨ op.direction = .LE)
    (index : List Nat) :
    op.selectedPosition operand index = op.pooledPosition operand index := by
  rw [pooledPosition_eq numeric, ← selected_first]
  refine selected_congr fun first isFirst second isSecond => ?_
  rw [compare_eq mirrored numeric (within_windowPositions isFirst)
    (within_windowPositions isSecond), if_pos keeps]

/-- Where it is not, it does so if one position alone is extreme. -/
theorem selectedPosition_last (keeps : ¬(op.direction = .GE ∨ op.direction = .LE))
    (index : List Nat) :
    op.selectedPosition operand index = op.pooledPosition operand index ↔
      op.Unambiguous operand index := by
  have distinct : (windowPositions operand.shape (op.windows operand.shape) index).Nodup := by
    refine nodup_windowPositions (by simp [windows, WindowAttributes.windows])
      (fun d less => ?_) index
    have isWindow : (op.windows operand.shape).getD d .unit = op.attributes.window d :=
      windows_getD less
    rw [isWindow, op.window_dilation]
    exact Nat.one_pos
  have compares {current candidate : List Nat} (isCurrent : Within current operand.shape)
      (isCandidate : Within candidate operand.shape) :
      op.direction.compare (operand.data current) (operand.data candidate) =
        keepLast (op.key operand) current candidate := by
    rw [compare_eq mirrored numeric isCurrent isCandidate, if_neg keeps]
  have isSelected : op.selectedPosition operand index = selected (keepLast (op.key operand))
      (windowPositions operand.shape (op.windows operand.shape) index) :=
    selected_congr fun first isFirst second isSecond =>
      compares (within_windowPositions isFirst) (within_windowPositions isSecond)
  rw [isSelected, pooledPosition_eq numeric, selected_last_eq_first distinct]
  refine forall₂_congr fun first isFirst => forall₂_congr fun second isSecond => ?_
  have extreme {position : List Nat}
      (member : position ∈ windowPositions operand.shape (op.windows operand.shape) index) :
      isGreatest (op.key operand)
        (windowPositions operand.shape (op.windows operand.shape) index) position ↔
          op.IsExtreme operand index position := by
    rw [isGreatest, List.all_eq_true]
    refine forall₂_congr fun other alsoMember => ?_
    rw [compares (within_windowPositions alsoMember) (within_windowPositions member), keepLast,
      decide_eq_true_eq, decide_eq_true_eq, not_lt]
  rw [extreme isFirst, extreme isSecond]

omit mirrored in
/-- A window without positions selects none. -/
theorem selectedPosition_none {index : List Nat}
    (missing : op.pooledPosition operand index = none) :
    op.selectedPosition operand index = none := by
  rw [pooledPosition_eq numeric, ← selected_first] at missing
  unfold selectedPosition
  cases isPositions : windowPositions operand.shape (op.windows operand.shape) index with
  | nil => rfl
  | cons first rest =>
    rw [isPositions] at missing
    cases missing

end SelectAndScatterOp

theorem lowerSelectAndScatter_shape [AddCommMonoid β]
    (isLayout : getPool2DLayout operand.shape op.attributes = some layout) (source : Tensor β) :
    (lowerSelectAndScatter layout op operand source).shape = operand.shape := by
  obtain ⟨groups, isGroups⟩ := groups_of isLayout
  have fullShape : (layout.normalize (⟨operand.shape, fun _ => 0⟩ : Tensor β)).shape =
      groups.normalizedShape operand.shape := isGroups.normalize_shape rfl
  exact isGroups.restore_shape rfl fullShape

/-- A source with one element that is not zero. -/
theorem sum_single {A : Type} [DecidableEq A] [AddCommMonoid β] {list : List A}
    (distinct : list.Nodup) (index : A) (value : β) :
    (list.map fun other => if other = index then value else 0).sum =
      if index ∈ list then value else 0 := by
  rw [List.sum_map_eq_nsmul_single index _ fun other different _ => if_neg different, if_pos rfl]
  by_cases member : index ∈ list
  · rw [if_pos member, List.count_eq_one_of_mem distinct member, one_nsmul]
  · rw [if_neg member, List.count_eq_zero_of_not_mem member, zero_nsmul]

/-- For every source the conversion gives the sums of the elements whose windows select each
position, if and only if the select region keeps the current of equal elements, or no window has
its extreme at several positions. -/
theorem select_and_scatter_iff [AddCommMonoid β] [Nontrivial β] (mirrored : Mirrored format)
    (isLayout : getPool2DLayout operand.shape op.attributes = some layout)
    (numeric : ∀ position, Within position operand.shape → operand.data position ≠ .nan) :
    (∀ source : Tensor β, source.shape = op.sourceShape operand.shape →
      (lowerSelectAndScatter layout op operand source).Same (op.eval operand source)) ↔
        (op.direction = .GE ∨ op.direction = .LE) ∨
          ∀ index, Within index (op.sourceShape operand.shape) → op.Unambiguous operand index := by
  constructor
  · intro correct
    refine or_iff_not_imp_left.mpr fun takes index inside => ?_
    refine (SelectAndScatterOp.selectedPosition_last mirrored numeric takes index).mp ?_
    cases found : op.pooledPosition operand index with
    | none => exact SelectAndScatterOp.selectedPosition_none numeric found
    | some position =>
      obtain ⟨value, nonzero⟩ := exists_ne (0 : β)
      have isPosition := within_windowPositions (op.pooledPosition_mem found)
      let source : Tensor β :=
        ⟨op.sourceShape operand.shape, fun other => if other = index then value else 0⟩
      obtain ⟨isShape, same⟩ := correct source rfl
      rw [lowerSelectAndScatter_shape isLayout] at same
      have sums := same position isPosition
      rw [lowerSelectAndScatter_data isLayout rfl isPosition] at sums
      have member : index ∈ indices source.shape := mem_indices.mpr inside
      have pooled : index ∈ (indices source.shape).filter fun other =>
          op.pooledPosition operand other = some position :=
        List.mem_filter.mpr ⟨member, decide_eq_true found⟩
      by_contra different
      have missed : index ∉ (indices source.shape).filter fun other =>
          op.selectedPosition operand other = some position := fun selects =>
        different (of_decide_eq_true (List.mem_filter.mp selects).2)
      apply nonzero
      calc value = (((indices source.shape).filter fun other =>
            op.pooledPosition operand other = some position).map source.data).sum := by
              rw [sum_single ((nodup_indices _).filter _), if_pos pooled]
        _ = (((indices source.shape).filter fun other =>
            op.selectedPosition operand other = some position).map source.data).sum := sums
        _ = 0 := by rw [sum_single ((nodup_indices _).filter _), if_neg missed]
  · intro condition source isSource
    refine ⟨lowerSelectAndScatter_shape isLayout source, fun position inside => ?_⟩
    rw [lowerSelectAndScatter_shape isLayout] at inside
    rw [lowerSelectAndScatter_data isLayout isSource inside]
    refine congrArg (fun list => (list.map source.data).sum)
      (List.filter_congr fun index member => ?_)
    have isIndex : Within index (op.sourceShape operand.shape) := isSource ▸ mem_indices.mp member
    have same : op.selectedPosition operand index = op.pooledPosition operand index := by
      by_cases keeps : op.direction = .GE ∨ op.direction = .LE
      · exact SelectAndScatterOp.selectedPosition_first mirrored numeric keeps index
      · exact (SelectAndScatterOp.selectedPosition_last mirrored numeric keeps index).mpr
          (condition.resolve_left keeps index isIndex)
    rw [same]

/-- A row of two equal elements, in one window. -/
def pairOp (direction : SelectDirection) : SelectAndScatterOp := ⟨direction, [1, 2], [1, 2], []⟩

def pairOperand : Tensor (FloatValue Cumulative.single) := ⟨[1, 2], fun _ => .zero⟩

def pairSource : Tensor Nat := ⟨[1, 1], fun _ => 1⟩

def pairLayout : Pool2DLayout := ⟨[0, 1], [0, 1], [0, 1]⟩

theorem select_and_scatter_iff_pair :
    (lowerSelectAndScatter pairLayout (pairOp .GE) pairOperand pairSource).Same
      ((pairOp .GE).eval pairOperand pairSource) := by
  have isLayout : getPool2DLayout pairOperand.shape (pairOp .GE).attributes = some pairLayout := by
    decide
  have numeric : ∀ position, Within position pairOperand.shape →
      pairOperand.data position ≠ .nan := fun _ _ same => by cases same
  have mirrored : Mirrored Cumulative.single := rfl
  exact (select_and_scatter_iff mirrored isLayout numeric).mpr (.inl (.inl rfl)) pairSource rfl

/-- Where the next of equal elements is selected, the source element goes to the first. -/
theorem select_and_scatter_tie :
    getPool2DLayout pairOperand.shape (pairOp .GT).attributes = some pairLayout ∧
      (pairOp .GT).sourceShape pairOperand.shape = pairSource.shape ∧
        ¬(lowerSelectAndScatter pairLayout (pairOp .GT) pairOperand pairSource).Same
          ((pairOp .GT).eval pairOperand pairSource) := by
  refine ⟨by decide, by decide, fun same => ?_⟩
  have first := same.2 [0, 0] (.cons (by decide) (.cons (by decide) .nil))
  revert first
  decide

end Libtt.Pooling

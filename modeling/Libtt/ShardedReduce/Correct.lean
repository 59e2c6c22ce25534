import Libtt.ShardedReduce.Extreme

/-!
# The lowered reductions are those of the whole tensor

The devices along the axis hold the parts of each line of the whole tensor, in its order.
-/
namespace Libtt.ShardedReduce

open Libtt.Foundation Libtt.StableHlo

variable {α : Type} {type : ElementType} {indexType : IntegerType} {reduction : ArgReduction}
  {semantics : Semantics} {schedules : Schedules} {site : Site}
  {before after first last : List Nat} {size place meshAxis dim : Nat}
variable {reduceOp : ReduceOp (Element type × indexType.Word)}

/-- Two tensors' elements along the reduced dimension. -/
theorem elements_split (op : ReduceOp α) {operand : Tensor α} {dim : Nat}
    (isDim : op.dimensions = [dim]) (isBefore : before.length = dim)
    (isShape : operand.shape = before ++ size :: after)
    (isFirst : first.length = before.length) (isLast : last.length = after.length) :
    op.elements operand (first ++ last) =
      (List.range size).map fun coordinate => operand.data (first ++ coordinate :: last) := by
  subst isBefore
  rw [ReduceOp.elements, isDim, isShape, positions_split isFirst isLast, List.map_map]
  rfl

theorem iota_split (shape : List Nat) (isFirst : first.length = before.length) (coordinate : Nat) :
    (iota indexType shape before.length).data (first ++ coordinate :: last) =
      indexType.constant coordinate := by
  simp only [iota, getD_split isFirst]

/-- What a reduce over the values and their indices finds. -/
theorem jaxReduceOp_split (reduction : ArgReduction) (schedules : Schedules) (site : Site)
    (operand : Tensor (Element type × indexType.Word)) (values : Nat → Element type)
    (isShape : operand.shape = before ++ size :: after)
    (isFirst : first.length = before.length) (isLast : last.length = after.length)
    (isData : ∀ coordinate < size, operand.data (first ++ coordinate :: last) =
      (values coordinate, indexType.constant coordinate))
    (nonempty : 0 < size) (fits : size ≤ indexType.largest + 1) :
    ∃ place, IsFirstBest (fun place => rank reduction type (values place)) size place ∧
      (((jaxReduceOp reduction type indexType [before.length]).eval schedules site operand).data
        (first ++ last)).2 = indexType.constant place ∧
      number type (((jaxReduceOp reduction type indexType [before.length]).eval schedules site
        operand).data (first ++ last)).1 = number type (values place) := by
  refine first_best_of_reduces ?_ nonempty fits
  have elements := elements_split (jaxReduceOp reduction type indexType [before.length]) rfl rfl
    isShape isFirst isLast
  have same : ((List.range size).map fun coordinate =>
      operand.data (first ++ coordinate :: last)) =
        (List.range size).map fun place => (values place, indexType.constant place) :=
    List.map_congr_left fun coordinate inside => isData coordinate (List.mem_range.mp inside)
  rw [← same, ← elements]
  exact schedules.reduces _ _ _ _ _

theorem argMinMax_split (schedules : Schedules) (site : Site)
    (isJax : ∃ dimensions, reduceOp = jaxReduceOp reduction type indexType dimensions)
    (input : Tensor (Element type)) (isShape : input.shape = before ++ size :: after)
    (isFirst : first.length = before.length) (isLast : last.length = after.length)
    (nonempty : 0 < size) (fits : size ≤ indexType.largest + 1) :
    ∃ place, IsFirstBest (fun place => rank reduction type (input.data (first ++ place :: last)))
        size place ∧
      (argMinMax schedules site reduceOp input before.length).data (first ++ last) =
        indexType.constant place := by
  obtain ⟨dimensions, rfl⟩ := isJax
  obtain ⟨place, isBest, isIndex, -⟩ := jaxReduceOp_split
    reduction schedules site (input.zipWith Prod.mk (iota indexType input.shape before.length))
    (fun place => input.data (first ++ place :: last)) isShape isFirst isLast
    (fun coordinate inside => by simp only [Tensor.zipWith, iota_split _ isFirst]) nonempty fits
  exact ⟨place, isBest, isIndex⟩

/-- Numbers of an index type are as different as their words. -/
theorem constant_inj (indexType : IntegerType) {left right : Nat} (isLeft : left ≤ indexType.largest)
    (isRight : right ≤ indexType.largest) :
    compareOp .EQ (.integer indexType) (indexType.constant left) (indexType.constant right) = true ↔
      left = right := by
  simp [compareOp, number, indexType.read_constant_nat isLeft, indexType.read_constant_nat isRight]

theorem pick_split (schedules : Schedules) (site : Site) (sums : ZeroSums semantics type)
    {input : Tensor (Element type)} {index : Tensor indexType.Word} (isShape : input.shape = before ++ size :: after)
    (isIndexShape : index.shape = before ++ after) (isFirst : Within first before)
    (isLast : Within last after)
    (isIndex : index.data (first ++ last) = indexType.constant place) (below : place < size)
    (fits : size ≤ indexType.largest + 1) :
    number type ((pick semantics schedules site input index before.length).data (first ++ last)) =
      number type (input.data (first ++ place :: last)) := by
  have rank : input.shape.length - (before.length + 1) = after.length := by
    rw [isShape, List.length_append, List.length_cons]
    omega
  have isSelect : ∀ mask zeros, (select mask input zeros).shape = before ++ size :: after :=
    fun mask zeros => isShape
  have isElements : ∀ coordinate < size,
      (select ((iota indexType input.shape before.length).zipWith
        (compareOp .EQ (.integer indexType)) (index.broadcastInDim input.shape
          (List.range before.length ++ (List.range (input.shape.length - (before.length + 1))).map
            (before.length + 1 + ·)))) input
        { shape := input.shape, data := fun _ => zeroAttr type }).data (first ++ coordinate :: last) =
          if coordinate = place then input.data (first ++ coordinate :: last) else zeroAttr type := by
    intro coordinate inside
    have isCoordinate : (iota indexType input.shape before.length).data (first ++ coordinate :: last) =
        indexType.constant coordinate := iota_split _ isFirst.length coordinate
    have isPlace : (index.broadcastInDim input.shape (List.range before.length ++
        (List.range (input.shape.length - (before.length + 1))).map (before.length + 1 + ·))).data
          (first ++ coordinate :: last) = indexType.constant place := by
      rw [rank, broadcastInDim_around isIndexShape isFirst isLast, isIndex]
    have masked := constant_inj indexType (show coordinate ≤ indexType.largest by omega)
      (show place ≤ indexType.largest by omega)
    rw [← isCoordinate, ← isPlace] at masked
    exact if_congr masked rfl rfl
  have reduces := schedules.reduces site (first ++ last) (semantics.combine .add type)
    (zeroAttr type) ((List.range size).map fun other =>
      if other = place then input.data (first ++ other :: last) else zeroAttr type)
  have picked := picked_of_reduces sums (fun other => input.data (first ++ other :: last)) reduces 0
    size (by rw [List.range_eq_range'])
  rw [if_pos (by omega)] at picked
  refine Eq.trans (congrArg (number type) ?_) picked
  rw [pick, reduceWith, ReduceOp.eval]
  dsimp only
  rw [elements_split _ rfl rfl (isSelect _ _) isFirst.length isLast.length]
  exact congrArg _ (List.map_congr_left fun coordinate inside =>
    isElements coordinate (List.mem_range.mp inside))

/-- The same along a last dimension. -/
theorem argMinMax_last (schedules : Schedules) (site : Site)
    (isJax : ∃ dimensions, reduceOp = jaxReduceOp reduction type indexType dimensions)
    (input : Tensor (Element type)) {shape index : List Nat}
    (isShape : input.shape = shape ++ [size]) (isIndex : index.length = shape.length)
    (nonempty : 0 < size) (fits : size ≤ indexType.largest + 1) :
    ∃ place, IsFirstBest (fun place => rank reduction type (input.data (index ++ [place]))) size
        place ∧
      (argMinMax schedules site reduceOp input shape.length).data index =
        indexType.constant place := by
  have split := argMinMax_split schedules site isJax input isShape isIndex
    (show ([] : List Nat).length = ([] : List Nat).length from rfl) nonempty fits
  rwa [List.append_nil] at split

theorem pick_last (schedules : Schedules) (site : Site) (sums : ZeroSums semantics type)
    {input : Tensor (Element type)} {index : Tensor indexType.Word} {shape position : List Nat}
    (isShape : input.shape = shape ++ [size]) (isIndexShape : index.shape = shape)
    (inside : Within position shape) (isIndex : index.data position = indexType.constant place)
    (below : place < size) (fits : size ≤ indexType.largest + 1) :
    number type ((pick semantics schedules site input index shape.length).data position) =
      number type (input.data (position ++ [place])) := by
  have split := pick_split schedules site sums isShape
    (isIndexShape.trans (List.append_nil shape).symm) inside .nil
    ((congrArg index.data (List.append_nil position)).trans isIndex) below fits
  rwa [List.append_nil] at split

theorem shardNumber_set (sharding : Sharding) {axes : List Nat} (alone : meshAxis ∉ axes)
    (device : List Nat) (coordinate : Nat) :
    sharding.shardNumber axes (device.set meshAxis coordinate) =
      sharding.shardNumber axes device := by
  suffices kept : ∀ number, axes.foldl (fun number axis => number * sharding.mesh.getD axis 0 +
      (device.set meshAxis coordinate).getD axis 0) number =
        axes.foldl (fun number axis => number * sharding.mesh.getD axis 0 + device.getD axis 0)
          number from kept 0
  induction axes with
  | nil => exact fun number => rfl
  | cons axis axes ih =>
    intro number
    have different : meshAxis ≠ axis := List.ne_of_not_mem_cons alone
    have same : (device.set meshAxis coordinate).getD axis 0 = device.getD axis 0 := by
      rw [List.getD_eq_getElem?_getD, List.getD_eq_getElem?_getD, List.getElem?_set_ne different]
    rw [List.foldl_cons, List.foldl_cons, ih (List.not_mem_of_not_mem_cons alone), same]

/-- A sharding, around its dimension along one axis. -/
structure Sharding.SplitAt (sharding : Sharding) (meshAxis : Nat) (axesBefore : List (List Nat))
    (before : List Nat) (size : Nat) (axesAfter : List (List Nat)) (after : List Nat) : Prop where
  axes : sharding.axes = axesBefore ++ [meshAxis] :: axesAfter
  localShape : sharding.localShape = before ++ size :: after
  beforeLength : axesBefore.length = before.length
  afterLength : axesAfter.length = after.length
  isAxis : meshAxis < sharding.mesh.length
  alone : ∀ axes ∈ axesBefore ++ axesAfter, meshAxis ∉ axes

theorem Sharding.Along.split {sharding : Sharding} (along : sharding.Along dim meshAxis) :
    ∃ axesBefore before size axesAfter after, before.length = dim ∧
      sharding.SplitAt meshAxis axesBefore before size axesAfter after := by
  obtain ⟨mesh, axes, localShape⟩ := sharding
  obtain ⟨isAxis, isRank, within, isAlong, alone⟩ := along
  obtain ⟨axesBefore, axesAfter, isAxes, axesLength⟩ : ∃ axesBefore axesAfter,
      axes = axesBefore ++ [meshAxis] :: axesAfter ∧ axesBefore.length = dim := by
    refine ⟨axes.take dim, axes.drop (dim + 1), ?_, List.length_take_of_le (le_of_lt within)⟩
    rw [← isAlong, List.getD_eq_getElem _ _ within, List.getElem_cons_drop, List.take_append_drop]
  obtain ⟨before, after, isShape, isDim⟩ := exists_split (isRank ▸ within)
  generalize localShape.getD dim 0 = size at isShape
  subst isDim isAxes isShape
  refine ⟨axesBefore, before, size, axesAfter, after, rfl, rfl, rfl, axesLength, ?_, isAxis, ?_⟩
  · simp only [List.length_append, List.length_cons] at isRank
    omega
  · intro axes isMember
    rcases List.mem_append.mp isMember with inside | inside
    · obtain ⟨place, below, rfl⟩ := List.getElem_of_mem inside
      have other := alone place (by omega)
      rwa [List.getD_append _ _ _ _ below, List.getD_eq_getElem _ _ below] at other
    · obtain ⟨place, below, rfl⟩ := List.getElem_of_mem inside
      have other := alone (axesBefore.length + 1 + place) (by omega)
      rwa [List.getD_append_right _ _ _ _ (by omega),
        show axesBefore.length + 1 + place - axesBefore.length = place + 1 by omega,
        List.getD_cons_succ, List.getD_eq_getElem _ _ below] at other

/-- Where a device's part starts, along some dimensions. -/
def Sharding.start (sharding : Sharding) (device : List Nat) (axes : List (List Nat))
    (shape : List Nat) : List Nat :=
  List.zipWith (fun axes size => sharding.shardNumber axes device * size) axes shape

/-- The sizes of some dimensions of the whole tensor. -/
def Sharding.sizes (sharding : Sharding) (axes : List (List Nat)) (shape : List Nat) : List Nat :=
  List.zipWith (fun (axes : List Nat) size =>
    (axes.map fun axis => sharding.mesh.getD axis 0).prod * size) axes shape

theorem start_set (sharding : Sharding) (device : List Nat) (coordinate : Nat)
    {axes : List (List Nat)} (shape : List Nat) (alone : ∀ own ∈ axes, meshAxis ∉ own) :
    sharding.start (device.set meshAxis coordinate) axes shape =
      sharding.start device axes shape := by
  unfold Sharding.start
  induction axes generalizing shape with
  | nil => rfl
  | cons own axes ih =>
    cases shape with
    | nil => rfl
    | cons size shape =>
      rw [List.zipWith_cons_cons, List.zipWith_cons_cons,
        shardNumber_set sharding (alone own List.mem_cons_self),
        ih shape fun axes later => alone axes (List.mem_cons_of_mem _ later)]

section

variable {sharding : Sharding} {device after : List Nat} {axesBefore axesAfter : List (List Nat)}

/-- Where a member's part starts. -/
theorem Sharding.SplitAt.origin_set
    (split : sharding.SplitAt meshAxis axesBefore before size axesAfter after)
    (isDevice : Within device sharding.mesh) (coordinate : Nat) :
    sharding.origin (device.set meshAxis coordinate) =
      sharding.start device axesBefore before ++
        coordinate * size :: sharding.start device axesAfter after := by
  have own : sharding.shardNumber [meshAxis] (device.set meshAxis coordinate) = coordinate := by
    have inside : meshAxis < (device.set meshAxis coordinate).length := by
      rw [List.length_set, isDevice.length]
      exact split.isAxis
    rw [Sharding.shardNumber, List.foldl_cons, List.foldl_nil, Nat.zero_mul, Nat.zero_add,
      List.getD_eq_getElem _ _ inside, List.getElem_set_self]
  rw [Sharding.origin, split.axes, split.localShape, List.zipWith_append split.beforeLength,
    List.zipWith_cons_cons, own]
  exact congrArg₂ (· ++ _ :: ·)
    (start_set sharding device coordinate before fun axes inside =>
      split.alone axes (List.mem_append_left _ inside))
    (start_set sharding device coordinate after fun axes inside =>
      split.alone axes (List.mem_append_right _ inside))

theorem Sharding.SplitAt.wholeShape
    (split : sharding.SplitAt meshAxis axesBefore before size axesAfter after) :
    sharding.wholeShape = sharding.sizes axesBefore before ++
      (sharding.mesh.getD meshAxis 0 * size) :: sharding.sizes axesAfter after := by
  rw [Sharding.wholeShape, split.axes, split.localShape, List.zipWith_append split.beforeLength,
    List.zipWith_cons_cons, List.map_singleton, List.prod_singleton]
  rfl

end

/-- Around the sharded dimension, the parts of a line of the whole tensor have the same place. -/
structure Lines (sharding : Sharding) (meshAxis : Nat) (device before : List Nat) (size : Nat)
    (after outer inner : List Nat) : Prop where
  localShape : sharding.localShape = before ++ size :: after
  kept : (sharding.kept [before.length]).localShape = before ++ after
  origin : (sharding.kept [before.length]).origin device = outer ++ inner
  outerLength : outer.length = before.length
  innerLength : inner.length = after.length
  whole : ∃ wholeBefore wholeAfter, wholeBefore.length = before.length ∧
    wholeAfter.length = after.length ∧ sharding.wholeShape =
      wholeBefore ++ (sharding.mesh.getD meshAxis 0 * size) :: wholeAfter
  members : ∀ coordinate, sharding.origin (device.set meshAxis coordinate) =
    outer ++ coordinate * size :: inner

theorem Sharding.Along.lines {sharding : Sharding} (along : sharding.Along dim meshAxis)
    {device : List Nat} (isDevice : Within device sharding.mesh) :
    ∃ before size after outer inner, before.length = dim ∧
      Lines sharding meshAxis device before size after outer inner := by
  obtain ⟨axesBefore, before, size, axesAfter, after, isDim, split⟩ := along.split
  have lengths : ∀ {axes : List (List Nat)} {shape : List Nat} {count : List Nat → Nat → Nat},
      axes.length = shape.length → (List.zipWith count axes shape).length = shape.length :=
    fun same => (List.length_zipWith ..).trans (by rw [same, min_self])
  refine ⟨before, size, after, sharding.start device axesBefore before,
    sharding.start device axesAfter after, isDim, split.localShape, ?_, ?_,
    lengths split.beforeLength, lengths split.afterLength, ⟨sharding.sizes axesBefore before,
      sharding.sizes axesAfter after, lengths split.beforeLength, lengths split.afterLength,
      split.wholeShape⟩, split.origin_set isDevice⟩
  · rw [Sharding.kept, split.localShape]
    exact without_split before after size
  · rw [Sharding.origin, Sharding.kept, split.axes, split.localShape]
    rw [without_split, ← split.beforeLength, without_split, List.zipWith_append split.beforeLength]
    rfl

section

variable {sharding : Sharding} {device after outer inner : List Nat}

section

variable (lines : Lines sharding meshAxis device before size after outer inner)
include lines

/-- An element of a member's part, in the whole tensor. -/
theorem Lines.localPart (whole : Tensor α) (isFirst : first.length = before.length)
    (coordinate place : Nat) :
    (sharding.localPart whole (device.set meshAxis coordinate)).data (first ++ place :: last) =
      whole.data (List.zipWith (· + ·) outer first ++
        (coordinate * size + place) :: List.zipWith (· + ·) inner last) := by
  rw [Sharding.localPart]
  dsimp only
  rw [lines.members, List.zipWith_append (lines.outerLength.trans isFirst.symm),
    List.zipWith_cons_cons]

theorem Lines.keptPart (whole : Tensor α) (isFirst : first.length = before.length) :
    ((sharding.kept [before.length]).localPart whole device).data (first ++ last) =
      whole.data (List.zipWith (· + ·) outer first ++ List.zipWith (· + ·) inner last) := by
  rw [Sharding.localPart]
  dsimp only
  rw [lines.origin, List.zipWith_append (lines.outerLength.trans isFirst.symm)]

/-- Where a member's slice of the iota starts. -/
theorem Lines.start
    (isFirst : Within first before) (isLast : Within last after) (coordinate : Nat) :
    (sliceStart (sharding.localPart (iota indexType sharding.wholeShape before.length)
      (device.set meshAxis coordinate)) before.length (before ++ after)).data (first ++ last) =
        indexType.constant (coordinate * size : Nat) := by
  have isShape : (sharding.localPart (iota indexType sharding.wholeShape before.length)
      (device.set meshAxis coordinate)).shape = before ++ size :: after := lines.localShape
  have starts : (List.replicate (before ++ size :: after).length 0).set before.length 0 =
      List.replicate (before ++ size :: after).length 0 := by
    simp [List.replicate_add, List.replicate_succ]
  rw [sliceStart, isShape, List.length_set, ← starts,
    slice_reshape _ 0 isFirst isLast, lines.localPart _ isFirst.length]
  have place : (List.zipWith (· + ·) outer first).length = before.length := by
    rw [List.length_zipWith, lines.outerLength, isFirst.length, min_self]
  simp only [iota, getD_split place, Nat.add_zero]

end

/-- What the devices along the axis have, in a last dimension. -/
theorem gather_data {mesh shape index : List Nat} {result : OnDevices α}
    (isShape : ∀ coordinate, (result (device.set meshAxis coordinate)).shape = shape)
    (own : (result device).shape = shape) (inside : Within index shape) {coordinate : Nat}
    (below : coordinate < mesh.getD meshAxis 0) :
    (gather mesh meshAxis result device).data (index ++ [coordinate]) =
      (result (device.set meshAxis coordinate)).data index := by
  have member : (replicaGroup mesh meshAxis device).getD coordinate [] =
      device.set meshAxis coordinate := by
    rw [replicaGroup, List.getD_eq_getElem _ _ (by rwa [List.length_map, List.length_range]),
      List.getElem_map, List.getElem_range]
  have place : (index ++ [coordinate]).getD shape.length 0 = coordinate := getD_split inside.length
  have extent : (shape ++ [1]).getD shape.length 0 = 1 := getD_split rfl
  have isIndex : (index ++ [coordinate]).set shape.length 0 = index ++ [0] :=
    set_split inside.length 0
  have grown : (result (device.set meshAxis coordinate)).shape = shape ++ [] :=
    (isShape coordinate).trans (List.append_nil shape).symm
  have reshaped := reshape_add_one grown inside .nil
  simp only [List.append_nil] at reshaped
  simp only [gather, allGather, own, place]
  rw [show ((result device).reshape (shape ++ [1])).shape.getD shape.length 0 = 1 from extent,
    Nat.div_one, Nat.mod_one, isIndex, member, reshaped]

/-- Adding to an index, where the sum is a number of the index type. -/
theorem combine_constant {left right : Nat} (fits : left + right ≤ indexType.largest) :
    indexType.combine .add (indexType.constant left) (indexType.constant right) =
      indexType.constant (left + right : Nat) := by
  have sum : indexType.constant left + indexType.constant right =
      indexType.constant (left + right : Nat) := by
    rw [IntegerType.add_eq, indexType.read_constant_nat (by omega),
      indexType.read_constant_nat (by omega), Int.natCast_add]
  rw [IntegerType.combine]
  split_ifs with isBit
  · -- of two bits that do not both count, the sum is the union
    have most : indexType.largest < 2 := by
      have below := indexType.largest_lt
      rwa [IntegerType.count, isBit, Nat.pow_one] at below
    rw [← sum]
    have cases : left = 0 ∨ right = 0 := by omega
    have zero : indexType.constant (0 : Nat) = BitVec.ofNat indexType.width 0 := rfl
    rcases cases with rfl | rfl
    · rw [zero, BitVec.zero_or, BitVec.zero_add]
    · rw [zero, BitVec.or_zero, BitVec.add_zero]
  · exact sum

/-- A member's first best place. -/
theorem Lines.memberBest (lines : Lines sharding meshAxis device before size after outer inner)
    (isJax : ∃ dimensions, reduceOp = jaxReduceOp reduction type indexType dimensions)
    (schedules : Schedules) (site : Site) (whole : Tensor (Element type))
    (isFirst : first.length = before.length) (isLast : last.length = after.length)
    (nonempty : 0 < size) (fits : size ≤ indexType.largest + 1) (coordinate : Nat) :
    ∃ place, IsFirstBest (fun place => rank reduction type (whole.data
        (List.zipWith (· + ·) outer first ++ (coordinate * size + place) ::
          List.zipWith (· + ·) inner last))) size place ∧
      (argMinMax schedules site reduceOp (sharding.localPart whole (device.set meshAxis coordinate))
        before.length).data (first ++ last) = indexType.constant place := by
  obtain ⟨place, isBest, isIndex⟩ := argMinMax_split schedules site isJax
    (sharding.localPart whole (device.set meshAxis coordinate)) lines.localShape isFirst isLast
    nonempty fits
  refine ⟨place, isBest.congr fun other _ => ?_, isIndex⟩
  rw [lines.localPart whole isFirst]

/-- What a device's winner of the winners is. -/
theorem Lines.picked (lines : Lines sharding meshAxis device before size after outer inner)
    (schedules : Schedules) (sums : ZeroSums semantics type)
    (isJax : ∃ dimensions, reduceOp = jaxReduceOp reduction type indexType dimensions)
    (whole : Tensor (Element type)) (isFirst : Within first before) (isLast : Within last after)
    (devices : 0 < sharding.mesh.getD meshAxis 0) (nonempty : 0 < size)
    (fits : sharding.mesh.getD meshAxis 0 * size ≤ indexType.largest + 1) :
    let input := sharding.localPart whole
    let slicedIota := sharding.localPart (iota indexType sharding.wholeShape before.length)
    let value := localValue semantics schedules reduceOp before.length input
    let index := globalIndex semantics schedules reduceOp before.length input slicedIota
    let values := gather sharding.mesh meshAxis value
    let indices := gather sharding.mesh meshAxis index
    let line := fun place => whole.data (List.zipWith (· + ·) outer first ++ place ::
      List.zipWith (· + ·) inner last)
    let rest := (before ++ after).length
    ∃ place, IsFirstBest (fun place => rank reduction type (line place))
        (sharding.mesh.getD meshAxis 0 * size) place ∧
      number type ((pickWinner semantics schedules reduceOp 3 type values values rest device).data
        (first ++ last)) = number type (line place) ∧
      number (.integer indexType) ((pickWinner semantics schedules reduceOp 4
        (.integer indexType) indices values rest device).data (first ++ last)) =
          number (.integer indexType) (indexType.constant place) := by
  intro input slicedIota value index values indices line rest
  have fitsSize : size ≤ indexType.largest + 1 :=
    le_trans (Nat.le_mul_of_pos_left size devices) fits
  have fitsCount : sharding.mesh.getD meshAxis 0 ≤ indexType.largest + 1 :=
    le_trans (Nat.le_mul_of_pos_right _ nonempty) fits
  have valueShape : ∀ member, (value member).shape = before ++ after := fun _ => lines.kept
  have indexShape : ∀ member, (index member).shape = before ++ after := fun _ => lines.kept
  have inside : Within (first ++ last) (before ++ after) := List.rel_append isFirst isLast
  -- each device's extreme value and global index
  choose winners within localIndices using fun coordinate => lines.memberBest isJax schedules
    ⟨0, device.set meshAxis coordinate⟩ whole isFirst.length isLast.length nonempty fitsSize
      coordinate
  have isValue : ∀ coordinate, number type ((value (device.set meshAxis coordinate)).data
      (first ++ last)) = number type (line (coordinate * size + winners coordinate)) := by
    intro coordinate
    have picked := pick_split schedules ⟨1, device.set meshAxis coordinate⟩ sums
      (show (input (device.set meshAxis coordinate)).shape = _ from lines.localShape)
      (show (localIndex schedules reduceOp before.length input
        (device.set meshAxis coordinate)).shape = _ from lines.kept) isFirst isLast
      (localIndices coordinate) (within coordinate).inside fitsSize
    rwa [lines.localPart whole isFirst.length] at picked
  have isIndex : ∀ coordinate < sharding.mesh.getD meshAxis 0,
      (index (device.set meshAxis coordinate)).data (first ++ last) =
        indexType.constant (coordinate * size + winners coordinate : Nat) := by
    intro coordinate below
    have bound : (coordinate + 1) * size ≤ sharding.mesh.getD meshAxis 0 * size :=
      Nat.mul_le_mul_right size below
    have own := (within coordinate).inside
    rw [Nat.succ_mul] at bound
    have shape : (localIndex schedules reduceOp before.length input
        (device.set meshAxis coordinate)).shape = before ++ after := lines.kept
    change indexType.combine .add ((localIndex schedules reduceOp before.length input
      (device.set meshAxis coordinate)).data (first ++ last)) ((sliceStart (slicedIota
        (device.set meshAxis coordinate)) before.length _).data (first ++ last)) = _
    rw [shape, lines.start isFirst isLast, Nat.add_comm]
    exact (congrArg (indexType.combine .add · _) (localIndices coordinate)).trans
      (combine_constant (by omega))
  -- the first best of them
  have gathered : ∀ coordinate < sharding.mesh.getD meshAxis 0,
      (values device).data ((first ++ last) ++ [coordinate]) =
        (value (device.set meshAxis coordinate)).data (first ++ last) :=
    fun coordinate below => gather_data (fun _ => valueShape _) (valueShape device) inside below
  have valuesShape : (values device).shape = (before ++ after) ++ [sharding.mesh.getD meshAxis 0] :=
    congrArg (· ++ _) (valueShape device)
  obtain ⟨block, isBest, isWinner⟩ := argMinMax_last schedules ⟨2, device⟩ isJax (values device)
    valuesShape inside.length devices fitsCount
  have winnerShape : (winner schedules reduceOp values rest device).shape = before ++ after := by
    refine (congrArg (without [rest] 0) valuesShape).trans ?_
    rw [without_split, List.append_nil]
  have isFirstBest : IsFirstBest (fun place => rank reduction type (line place))
      (sharding.mesh.getD meshAxis 0 * size) (block * size + winners block) := by
    refine IsFirstBest.blocks (fun coordinate _ => within coordinate) (isBest.congr ?_)
    intro coordinate below
    refine rank_eq_iff.mpr ((isValue coordinate).symm.trans (congrArg (number type) ?_))
    exact (gathered coordinate below).symm
  refine ⟨block * size + winners block, isFirstBest, ?_, ?_⟩
  · have picked := pick_last schedules ⟨3, device⟩ sums valuesShape winnerShape inside isWinner
      isBest.inside fitsCount
    rw [gathered block isBest.inside] at picked
    exact picked.trans (isValue block)
  · have picked := pick_last schedules ⟨4, device⟩ (zeroSums_integer semantics indexType)
      (show (indices device).shape = _ from congrArg (· ++ _) (indexShape device)) winnerShape inside
      isWinner isBest.inside fitsCount
    rw [gather_data (fun _ => indexShape _) (indexShape device) inside isBest.inside] at picked
    exact picked.trans (congrArg (number (.integer indexType)) (isIndex block isBest.inside))

end

end Libtt.ShardedReduce

import Libtt.ShardedReduce.Correct
import Libtt.Foundation.Spans

/-!
# Partial results combine to the whole one

A reduce over some dimensions, of which one is sharded, has for each device along the axis the
elements of its part.
-/
namespace Libtt.ShardedReduce

open Libtt.Foundation Libtt.StableHlo

variable {α β : Type} {sharding : Sharding} {device dims first last : List Nat}
  {dim size meshAxis count : Nat}

theorem foldr_flatMap {op : α → α → α} {init : α} [Std.Associative op] [Std.LawfulIdentity op init]
    (parts : β → List α) (places : List β) : (places.flatMap parts).foldr op init =
      (places.map fun place => (parts place).foldr op init).foldr op init := by
  induction places with
  | nil => rfl
  | cons place places ih => rw [List.flatMap_cons, foldr_append, ih, List.map_cons, List.foldr_cons]

/-- The places of equal parts, one part after the other. -/
theorem range_parts (count size : Nat) : List.range (count * size) =
    (List.range count).flatMap fun part => (List.range size).map (part * size + ·) := by
  induction count with
  | zero => rw [Nat.zero_mul]; rfl
  | succ count ih =>
    rw [Nat.succ_mul, List.range_add, ih, List.range_succ, List.flatMap_append,
      List.flatMap_singleton]

/-- What is around the sharded dimension starts where the whole tensor does along the reduced
dimensions, and elsewhere at the device's origin. -/
theorem positions_shift (sharding : Sharding) (device : List Nat) {axes : List (List Nat)}
    {shape index : List Nat} (isRank : axes.length = shape.length)
    (isIndex : index.length = (without dims dim shape).length)
    (replicated : ∀ other < axes.length, dim + other ∈ dims → axes.getD other [] = []) :
    positions dims dim (sharding.sizes axes shape)
        (List.zipWith (· + ·) (without dims dim (sharding.start device axes shape)) index) =
      (positions dims dim shape index).map
        (List.zipWith (· + ·) (sharding.start device axes shape)) := by
  unfold Sharding.sizes Sharding.start
  induction axes generalizing dim shape index with
  | nil =>
    obtain rfl := List.length_eq_zero_iff.mp isRank.symm
    rfl
  | cons own axes ih =>
    cases shape with
    | nil => cases isRank
    | cons size shape =>
      have rest : ∀ {index : List Nat}, index.length = (without dims (dim + 1) shape).length → _ :=
        fun isIndex => ih (Nat.succ.inj isRank) isIndex fun other below reduced =>
          replicated (other + 1) (Nat.succ_lt_succ below) (by
            rwa [show dim + (other + 1) = dim + 1 + other by omega])
      rw [List.zipWith_cons_cons, List.zipWith_cons_cons]
      by_cases reduced : dim ∈ dims
      · -- a reduced dimension has one part
        have isOwn : own = [] := replicated 0 (Nat.succ_pos _) reduced
        subst isOwn
        rw [without, if_pos reduced] at isIndex
        simp only [without, positions, if_pos reduced, rest isIndex, List.map_nil, List.prod_nil,
          Nat.one_mul, List.map_flatMap, List.map_map]
        refine List.flatMap_congr fun coordinate _ => List.map_congr_left fun position _ => ?_
        simp only [Function.comp_apply, List.zipWith_cons_cons]
        rw [Sharding.shardNumber, List.foldl_nil, Nat.zero_mul, Nat.zero_add]
      · rw [without, if_neg reduced] at isIndex
        cases index with
        | nil => cases isIndex
        | cons coordinate index =>
          simp only [without, positions, if_neg reduced, List.zipWith_cons_cons, List.tail_cons,
            List.headD_cons, rest (Nat.succ.inj isIndex), List.map_map]
          rfl

section

variable {before after : List Nat} {axesBefore axesAfter : List (List Nat)}

/-- The devices along the axis have the elements that the whole reduction combines. -/
theorem elements_perm (split : sharding.SplitAt meshAxis axesBefore before size axesAfter after)
    (isDevice : Within device sharding.mesh) (op : ReduceOp α)
    (isReduced : before.length ∈ op.dimensions)
    (replicatedBefore : ∀ other < axesBefore.length, 0 + other ∈ op.dimensions →
      axesBefore.getD other [] = [])
    (replicatedAfter : ∀ other < axesAfter.length, before.length + 1 + other ∈ op.dimensions →
      axesAfter.getD other [] = [])
    {whole : Tensor α} (isShape : whole.shape = sharding.wholeShape)
    (isFirst : first.length = (without op.dimensions 0 before).length)
    (isLast : last.length = (without op.dimensions (before.length + 1) after).length) :
    (op.elements whole
      (List.zipWith (· + ·) (without op.dimensions 0 (sharding.start device axesBefore before))
          first ++
        List.zipWith (· + ·) (without op.dimensions (before.length + 1)
          (sharding.start device axesAfter after)) last)).Perm
      ((List.range (sharding.mesh.getD meshAxis 0)).flatMap fun coordinate =>
        op.elements (sharding.localPart whole (device.set meshAxis coordinate)) (first ++ last)) := by
  have sizesLength : (sharding.sizes axesBefore before).length = before.length :=
    (List.length_zipWith ..).trans (by rw [split.beforeLength, min_self])
  have startLength : (sharding.start device axesBefore before).length = before.length :=
    (List.length_zipWith ..).trans (by rw [split.beforeLength, min_self])
  have shiftedFirst : (List.zipWith (· + ·) (without op.dimensions 0
      (sharding.start device axesBefore before)) first).length =
        (without op.dimensions 0 (sharding.sizes axesBefore before)).length := by
    rw [List.length_zipWith, length_without startLength, isFirst, min_self,
      length_without sizesLength]
  -- the elements before, at, and behind the sharded dimension
  let element := fun coordinate position place rest => whole.data
    (List.zipWith (· + ·) (sharding.start device axesBefore before) position ++
      (coordinate * size + place) ::
        List.zipWith (· + ·) (sharding.start device axesAfter after) rest)
  let elements := fun position coordinate => (List.range size).flatMap fun place =>
    (positions op.dimensions (before.length + 1) after last).map (element coordinate position place)
  have wholeElements : op.elements whole
      (List.zipWith (· + ·) (without op.dimensions 0 (sharding.start device axesBefore before))
          first ++
        List.zipWith (· + ·) (without op.dimensions (before.length + 1)
          (sharding.start device axesAfter after)) last) = (positions op.dimensions 0 before first).flatMap
      fun position => (List.range (sharding.mesh.getD meshAxis 0)).flatMap (elements position) := by
    rw [ReduceOp.elements, isShape, split.wholeShape, positions_append shiftedFirst, Nat.zero_add,
      sizesLength, positions, if_pos isReduced,
      positions_shift sharding device split.beforeLength isFirst replicatedBefore,
      positions_shift sharding device split.afterLength isLast replicatedAfter, range_parts]
    simp only [List.map_flatMap, List.flatMap_map, List.flatMap_assoc, List.map_map]
    rfl
  have partElements : ∀ coordinate,
      op.elements (sharding.localPart whole (device.set meshAxis coordinate)) (first ++ last) =
        (positions op.dimensions 0 before first).flatMap fun position =>
          elements position coordinate := by
    intro coordinate
    rw [ReduceOp.elements, Sharding.localPart]
    rw [split.localShape, split.origin_set isDevice, positions_append isFirst, Nat.zero_add,
      positions, if_pos isReduced]
    simp only [List.map_flatMap, List.map_map]
    refine List.flatMap_congr fun position isPosition => ?_
    refine List.flatMap_congr fun place _ => List.map_congr_left fun rest _ => ?_
    have positionLength := length_of_mem_positions isPosition
    simp only [Function.comp_apply]
    rw [List.zipWith_append (startLength.trans positionLength.symm), List.zipWith_cons_cons]
  rw [wholeElements, funext partElements]
  exact flatMap_perm_comm _ _ elements

end

theorem allReduce_combines (schedules : Schedules) (operation : Nat) (body : α → α → α)
    {mesh : List Nat} (operand : OnDevices α) (index : List Nat)
    (devices : replicaGroup mesh meshAxis device ≠ []) :
    Combines body ((replicaGroup mesh meshAxis device).map fun member =>
      (operand member).data index)
        ((allReduce schedules operation body mesh meshAxis operand device).data index) := by
  rw [allReduce]
  dsimp only
  split
  case h_1 none => exact absurd (List.map_eq_nil_iff.mp none) devices
  case h_2 first rest some =>
    rw [some]
    exact schedules.combines _ _ _ _ _

/-- The all-reduce of the partial results, with the reduce's own body. -/
theorem combined_whole (along : sharding.Along dim meshAxis) {op : ReduceOp α}
    (isReduced : dim ∈ op.dimensions)
    (replicated : ∀ other ∈ op.dimensions, other ≠ dim → sharding.axes.getD other [] = [])
    [Std.Associative op.body] [Std.Commutative op.body] [Std.LawfulIdentity op.body op.initValue]
    (schedules : Schedules) (sites : List Nat → Site) (operation : Nat) (site : Site)
    {whole : Tensor α} (isShape : whole.shape = sharding.wholeShape) :
    sharding.IsWhole op.dimensions (· = ·)
      (allReduce schedules operation op.body sharding.mesh meshAxis fun device =>
        op.eval schedules (sites device) (sharding.localPart whole device))
      (op.eval schedules site whole) where
  shape device isDevice := rfl
  data device isDevice index inside := by
    obtain ⟨axesBefore, before, size, axesAfter, after, isDim, split⟩ := along.split
    subst isDim
    have keptShape : (sharding.kept op.dimensions).localShape =
        without op.dimensions 0 before ++ without op.dimensions (before.length + 1) after := by
      rw [Sharding.kept, split.localShape]
      rw [without_append, Nat.zero_add, without, if_pos isReduced]
    have keptOrigin : (sharding.kept op.dimensions).origin device =
        without op.dimensions 0 (sharding.start device axesBefore before) ++
          without op.dimensions (before.length + 1) (sharding.start device axesAfter after) := by
      rw [Sharding.origin, Sharding.kept, split.axes, split.localShape]
      rw [without_append, without_append, Nat.zero_add, Nat.zero_add, without, without,
        if_pos isReduced, split.beforeLength, if_pos isReduced,
        List.zipWith_append (length_without split.beforeLength), without_zipWith _ split.beforeLength,
        without_zipWith _ split.afterLength]
      rfl
    obtain ⟨first, last, rfl, isFirst, isLast⟩ : ∃ first last, index = first ++ last ∧
        first.length = (without op.dimensions 0 before).length ∧
        last.length = (without op.dimensions (before.length + 1) after).length := by
      have length := inside.length
      rw [keptShape, List.length_append] at length
      refine ⟨index.take _, index.drop _, (List.take_append_drop _ index).symm,
        List.length_take_of_le (by omega), ?_⟩
      rw [List.length_drop]
      omega
    have startLength : (sharding.start device axesBefore before).length = before.length :=
      (List.length_zipWith ..).trans (by rw [split.beforeLength, min_self])
    have position : List.zipWith (· + ·) ((sharding.kept op.dimensions).origin device)
        (first ++ last) =
          List.zipWith (· + ·) (without op.dimensions 0 (sharding.start device axesBefore before))
            first ++
          List.zipWith (· + ·) (without op.dimensions (before.length + 1)
            (sharding.start device axesAfter after)) last := by
      rw [keptOrigin, List.zipWith_append ((length_without startLength).trans isFirst.symm)]
    have devices : replicaGroup sharding.mesh meshAxis device ≠ [] := by
      have below : meshAxis < device.length := isDevice.length.symm ▸ split.isAxis
      have coordinate := (List.forall₂_iff_get.mp isDevice).2 meshAxis below split.isAxis
      rw [replicaGroup, Ne, List.map_eq_nil_iff, List.range_eq_nil,
        List.getD_eq_getElem _ _ split.isAxis]
      exact Nat.ne_of_gt (Nat.zero_lt_of_lt coordinate)
    have each : ∀ member, (op.eval schedules (sites member) (sharding.localPart whole member)).data
        (first ++ last) = (op.elements (sharding.localPart whole member) (first ++ last)).foldr
          op.body op.initValue := fun member => (schedules.reduces _ _ _ _ _).eq_foldr
    have combined := ((allReduce_combines schedules operation op.body
      (fun device => op.eval schedules (sites device) (sharding.localPart whole device))
      (first ++ last) devices).reduces op.initValue).eq_foldr
    have around : ∀ other, other ∈ op.dimensions → other ≠ before.length →
        (axesBefore ++ [meshAxis] :: axesAfter).getD other [] = [] := by
      intro other reduced different
      rw [← split.axes]
      exact replicated other reduced different
    have same := elements_perm split isDevice op isReduced
      (fun other below reduced => by
        have own := around (0 + other) reduced (by rw [← split.beforeLength]; omega)
        rwa [Nat.zero_add, List.getD_append _ _ _ _ below] at own)
      (fun other below reduced => by
        have own := around _ reduced (by omega)
        rwa [List.getD_append_right _ _ _ _ (by rw [split.beforeLength]; omega),
          split.beforeLength, show before.length + 1 + other - before.length = other + 1 by omega,
          List.getD_cons_succ] at own)
      isShape isFirst isLast
    change _ = (op.eval schedules site whole).data (List.zipWith (· + ·)
      ((sharding.kept op.dimensions).origin device) (first ++ last))
    rw [position]
    refine combined.trans ?_
    rw [replicaGroup, List.map_map]
    simp only [Function.comp_def, each]
    rw [← foldr_flatMap]
    exact same.symm.foldr_op_eq.trans (schedules.reduces _ _ _ _ _).eq_foldr.symm

section

variable {type : ElementType} {indexType : IntegerType} {reduction : ArgReduction}
  {semantics : Semantics}

/-- The winners of an argmin or argmax. -/
theorem argReduce_whole (along : sharding.Along dim meshAxis) (sums : ZeroSums semantics type)
    (indexed : sharding.Indexed dim indexType) (schedules : Schedules) (site : Site)
    {whole : Tensor (Element type)} (isShape : whole.shape = sharding.wholeShape)
    {reduceOp : ReduceOp (Element type × indexType.Word)}
    (isJax : reduceOp = jaxReduceOp reduction type indexType [dim]) :
    let input := sharding.localPart whole
    let slicedIota := sharding.localPart (iota indexType sharding.wholeShape dim)
    let value := localValue semantics schedules reduceOp dim input
    let index := globalIndex semantics schedules reduceOp dim input slicedIota
    let values := gather sharding.mesh meshAxis value
    let last := (value (List.replicate sharding.mesh.length 0)).shape.length
    let result := reduceOp.eval schedules site
      (whole.zipWith Prod.mk (iota indexType whole.shape dim))
    sharding.IsWhole [dim] (fun value pair => number type value = number type pair.1)
        (pickWinner semantics schedules reduceOp 3 type values values last) result ∧
      sharding.IsWhole [dim] (fun index pair => index = pair.2)
        (pickWinner semantics schedules reduceOp 4 (.integer indexType)
          (gather sharding.mesh meshAxis index) values last) result := by
  intro input slicedIota value index values last result
  have found : ∀ device, Within device sharding.mesh →
      ∀ position, Within position (sharding.kept [dim]).localShape →
        number type ((pickWinner semantics schedules reduceOp 3 type values values last device).data
          position) = number type (((sharding.kept [dim]).localPart result device).data position).1 ∧
        (pickWinner semantics schedules reduceOp 4 (.integer indexType)
          (gather sharding.mesh meshAxis index) values last device).data position =
            (((sharding.kept [dim]).localPart result device).data position).2 := by
    intro device isDevice position inside
    obtain ⟨before, size, after, outer, inner, isDim, lines⟩ := along.lines isDevice
    subst isDim
    have isLast : last = (before ++ after).length := congrArg List.length lines.kept
    obtain ⟨wholeBefore, wholeAfter, beforeLength, afterLength, wholeShape⟩ := lines.whole
    have extent : sharding.wholeShape.getD before.length 0 =
        sharding.mesh.getD meshAxis 0 * size := by rw [wholeShape, getD_split beforeLength]
    have nonempty := indexed.nonempty
    have fits := indexed.fits
    rw [extent] at nonempty fits
    rw [lines.kept] at inside
    obtain ⟨first, rest, rfl, isFirst, isRest⟩ : ∃ first rest, position = first ++ rest ∧
        Within first before ∧ Within rest after :=
      ⟨_, _, (List.take_append_drop before.length position).symm,
        List.forall₂_take_append _ _ _ inside, List.forall₂_drop_append _ _ _ inside⟩
    obtain ⟨place, isBest, isValue, isIndex⟩ := lines.picked schedules sums
      ⟨[before.length], isJax⟩ whole isFirst isRest (Nat.pos_of_mul_pos_right nonempty)
      (Nat.pos_of_mul_pos_left nonempty) fits
    rw [← isLast] at isValue isIndex
    -- the reduce on the whole tensor
    have outerLength : (List.zipWith (· + ·) outer first).length = wholeBefore.length := by
      rw [List.length_zipWith, lines.outerLength, isFirst.length, min_self, beforeLength]
    have innerLength : (List.zipWith (· + ·) inner rest).length = wholeAfter.length := by
      rw [List.length_zipWith, lines.innerLength, isRest.length, min_self, afterLength]
    obtain ⟨wholePlace, isWholeBest, isWholeIndex, isWholeValue⟩ := jaxReduceOp_split
      reduction schedules site (whole.zipWith Prod.mk (iota indexType whole.shape before.length))
      (fun place => whole.data (List.zipWith (· + ·) outer first ++ place ::
        List.zipWith (· + ·) inner rest)) (isShape.trans wholeShape) outerLength innerLength
      (fun coordinate below => by
        simp only [Tensor.zipWith, ← beforeLength, iota_split _ outerLength]) nonempty fits
    obtain rfl := isBest.unique isWholeBest
    rw [beforeLength, ← isJax] at isWholeIndex isWholeValue
    rw [lines.keptPart result isFirst.length]
    refine ⟨isValue.trans isWholeValue.symm, Eq.trans ?_ isWholeIndex.symm⟩
    exact IntegerType.eq_of_read (Option.some.inj isIndex)
  have shape : without [last] 0 ((sharding.kept [dim]).localShape ++
      [sharding.mesh.getD meshAxis 0]) = (sharding.kept [dim]).localShape :=
    (without_split _ [] _).trans (List.append_nil _)
  exact ⟨⟨fun _ _ => shape, fun device isDevice position inside =>
      (found device isDevice position inside).1⟩,
    ⟨fun _ _ => shape, fun device isDevice position inside =>
      (found device isDevice position inside).2⟩⟩

end

/-- A reduction over a dimension that is sharded along one axis is that of the whole tensor: of an
argmin or argmax whose indices are numbers of the index type, each result that is used; and a reduce
with a single result, whose all-reduce has its own associative and commutative body. -/
theorem sharded_reduce (along : sharding.Along dim meshAxis) {srcOp : AllReduceOp}
    (isAxis : srcOp.reductionAxes = [meshAxis]) (schedules : Schedules) (site : Site) :
    (∀ (semantics : Semantics) (type : ElementType) (indexType : IntegerType)
      (reduction : ArgReduction) (source : SourceReduce (Element type × indexType.Word))
      (whole : Tensor (Element type)), ZeroSums semantics type →
      source.IsArgReduce reduction dim → sharding.Indexed dim indexType →
      whole.shape = sharding.wholeShape →
      ∃ values indices, reduceArgMinMax semantics schedules (sharding.localPart whole)
          (sharding.localPart (iota indexType whole.shape dim)) sharding.mesh srcOp source =
            some (if source.users.getD 0 .none = .allReduce then some values else none,
              if source.users.getD 1 .none = .allReduce then some indices else none) ∧
        sharding.IsWhole [dim] (fun value pair => number type value = number type pair.1) values
          (source.op.eval schedules site (whole.zipWith Prod.mk (iota indexType whole.shape dim))) ∧
        sharding.IsWhole [dim] (fun index pair => index = pair.2) indices
          (source.op.eval schedules site
            (whole.zipWith Prod.mk (iota indexType whole.shape dim)))) ∧
    ∀ (α : Type) (add : α → α → α) (source : SourceReduce α) (whole : Tensor α)
      (sites : List Nat → Site), srcOp.unreducedAxes.getD [] = [] → dim ∈ source.op.dimensions →
      (∀ other ∈ source.op.dimensions, other ≠ dim → sharding.axes.getD other [] = []) →
      Std.Associative source.op.body → Std.Commutative source.op.body →
      Std.LawfulIdentity source.op.body source.op.initValue →
      whole.shape = sharding.wholeShape →
      sharding.IsWhole source.op.dimensions (· = ·)
        (matchAndRewrite schedules add sharding.mesh srcOp (some source) fun device =>
          source.op.eval schedules (sites device) (sharding.localPart whole device))
        (source.op.eval schedules site whole) := by
  constructor
  · intro semantics type indexType reduction source whole sums isArg indexed isShape
    have result := argReduce_whole along sums indexed schedules site isShape isArg.op
    refine ⟨_, _, ?_, result⟩
    have dimensions : source.op.dimensions = [dim] := congrArg ReduceOp.dimensions isArg.op
    simp only [reduceArgMinMax, dimensions, isAxis, isArg.numResults, isArg.slicedIota, isArg.users,
      isShape, ne_eq, not_true_eq_false, or_self, if_false]
  · intro α add source whole sites unreduced isReduced replicated assoc comm identity isShape
    have isSource : getSourceReduce srcOp (some source) = some source := by
      rw [getSourceReduce]
      cases axes : srcOp.unreducedAxes with
      | none => rfl
      | some axes =>
        rw [axes] at unreduced
        cases unreduced
        rfl
    rw [matchAndRewrite, isAxis, isSource]
    exact combined_whole along isReduced replicated schedules sites 0 site isShape

def bfloat16 : FloatFormat where
  least := -0x7F81
  greatest := 0x7F80
  fractionBits := 7
  bias := 127
  hasInfinities := true
  checked := true
  zero_mem := by decide

def int8 : IntegerType := ⟨8, true, positive8⟩

def int32 : IntegerType := ⟨32, true, positive32⟩

/-- A vector with a part of some size on each of two devices. -/
def halves (size : Nat) : Sharding where
  mesh := [2]
  axes := [[0]]
  localShape := [size]

theorem halves_along (size : Nat) : (halves size).Along 0 0 where
  isAxis := Nat.zero_lt_one
  rank := rfl
  within := Nat.zero_lt_one
  along := rfl
  alone other different := by
    cases other with
    | zero => exact absurd rfl different
    | succ other => exact List.not_mem_nil

/-- An argmax whose values and indices are used as they are. -/
def argMaxOf (type : ElementType) (indexType : IntegerType) (users : List Users) :
    SourceReduce (Element type × indexType.Word) where
  op := jaxReduceOp .argMax type indexType [0]
  numResults := 2
  inputs := [.other, .composite "sdy.all_slice" (.iota 0)]
  users := users

/-- Sums of floats of which one is zero, or both are whole numbers. -/
def wholeSums : Semantics where
  add format left right :=
    if number (.float format) left = some 0 then right
    else if number (.float format) right = some 0 then left
    else .ofInt (left.toInt + right.toInt)
  multiply := Semantics.ofIntegers.multiply
  widen := Semantics.ofIntegers.widen
  round := Semantics.ofIntegers.round
  truncate := Semantics.ofIntegers.truncate

theorem zeroSums_wholeSums (format : FloatFormat) : ZeroSums wholeSums (.float format) := by
  intro value zero isZero
  constructor
  · change number _ (if _ then _ else _) = _
    split
    case isTrue valueZero => rw [isZero, valueZero]
    case isFalse => rfl
  · change number _ (if _ then _ else _) = _
    exact congrArg _ (if_pos isZero)

/-- The values 1, 3, NaN and NaN: the first NaN is on the second device. -/
def twoNans : Tensor (Element (.float bfloat16)) where
  shape := [4]
  data index := match index with
    | [0] => FloatValue.one
    | [1] => FloatValue.ofInt 3
    | _ => FloatValue.nan

theorem sharded_reduce_nan : ∃ values indices,
    reduceArgMinMax wholeSums .inOrder ((halves 2).localPart twoNans)
      ((halves 2).localPart (iota int32 [4] 0)) [2] ⟨[0], none⟩
        (argMaxOf (.float bfloat16) int32 [.allReduce, .allReduce]) =
          some (some values, some indices) ∧
    number (.float bfloat16) ((values [0]).data []) = none ∧
    int32.read ((indices [0]).data []) = 2 := by
  obtain ⟨values, indices, lowered, isValue, isIndex⟩ := (sharded_reduce (halves_along 2)
    (show AllReduceOp.reductionAxes ⟨[0], none⟩ = [0] from rfl) .inOrder ⟨0, []⟩).1 wholeSums (.float bfloat16) int32
    .argMax (argMaxOf _ _ [.allReduce, .allReduce]) twoNans (zeroSums_wholeSums bfloat16)
    ⟨rfl, rfl, rfl, by decide⟩ ⟨by decide, by decide⟩ rfl
  have device : Within [0] (halves 2).mesh := .cons (by decide) .nil
  refine ⟨values, indices, lowered, ?_, ?_⟩
  · rw [isValue.data [0] device [] .nil]
    decide
  · rw [isIndex.data [0] device [] .nil]
    decide

/-- Zeros, as many as 130: in i8, the index 128 wraps to the least one. -/
def zeros : Tensor (Element (.integer int32)) where
  shape := [130]
  data _ := 0#32

theorem sharded_reduce_wraps :
    ((reduceArgMinMax .ofIntegers .inOrder ((halves 65).localPart zeros)
      ((halves 65).localPart (iota int8 [130] 0)) [2] ⟨[0], none⟩
        (argMaxOf (.integer int32) int8 [.none, .allReduce])).bind Prod.snd).map
          (fun indices => int8.read ((indices [0]).data [])) = some 0 ∧
    int8.read (((argMaxOf (.integer int32) int8 [.none, .allReduce]).op.eval .inOrder ⟨0, []⟩
      (zeros.zipWith Prod.mk (iota int8 [130] 0))).data []).2 = -128 := by
  constructor <;> decide +kernel

end Libtt.ShardedReduce

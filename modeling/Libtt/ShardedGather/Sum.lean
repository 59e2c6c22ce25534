import Libtt.ShardedGather.Correct
import Mathlib.Algebra.BigOperators.Group.Finset.Piecewise
import Mathlib.Tactic.Linarith

/-!
# When the sum of the local gathers is the whole gather

The shard number that a device computes, where its own number fits; the rows that it reads; and
for a last index that does not fit the index type, an index that gathers a wrong row.
-/
namespace Libtt.ShardedGather

open Libtt.Foundation Libtt.StableHlo

variable {mesh : Mesh} {axes : List AxisRef} {shardSize dim : Nat} {gather : GatherOp}
  {type : IntegerType} {device : Nat}

theorem constant_add (left right : Int) :
    type.constant left + type.constant right = type.constant (left + right) :=
  (BitVec.ofInt_add left right).symm

theorem constant_mul (left right : Int) :
    type.constant left * type.constant right = type.constant (left * right) :=
  (BitVec.ofInt_mul left right).symm

theorem constant_sub (left right : Int) :
    type.constant left - type.constant right = type.constant (left - right) := by
  have sum : type.constant _ + type.constant _ = _ := constant_add (left - right) right
  rw [Int.sub_add_cancel] at sum
  rw [← sum, BitVec.add_sub_cancel]

/-- The value of `stablehlo.partition_id`, in the index type. -/
theorem eval_partitionId (fits : DevicesFit mesh axes type) (below : device < mesh.devices)
    (index : type.Word) : (Value.convert .partitionId).eval type
      (partitionId 32 mesh.shape (mesh.coordinates device)) index = type.constant device := by
  have small : device < 2 ^ 32 := lt_of_lt_of_le below fits.partitionIds
  rw [partitionId_coordinates 32 below, Value.eval, Value.eval, BitVec.toNat_ofNat,
    Nat.mod_eq_of_lt small]

theorem eval_coord (fits : DevicesFit mesh axes type) (below : device < mesh.devices)
    {axis : AxisRef} (isAxis : axis ∈ axes) (index : type.Word) :
    (coord mesh axis).eval type (partitionId 32 mesh.shape (mesh.coordinates device)) index =
      type.constant ((place mesh axis).digit device : Nat) := by
  have number : device ≤ type.largest := by
    have := fits.numbers
    omega
  have stride := fits.strides axis isAxis
  have quotient : device / axis.stride mesh ≤ type.largest :=
    le_trans (Nat.div_le_self _ _) number
  change type.remainder (type.divide ((Value.convert .partitionId).eval type _ index)
    (type.constant (axis.stride mesh))) (type.constant (axis.getSize mesh)) = _
  rw [eval_partitionId fits below, IntegerType.divide_constant number stride,
    IntegerType.remainder_constant quotient (fits.sizes axis isAxis)]
  rfl

/-- The loop over the axes computes the shard number. -/
theorem eval_foldl (fits : DevicesFit mesh axes type) (below : device < mesh.devices)
    (index : type.Word) {rest : List AxisRef} (subset : rest ⊆ axes) {shard : Value} {number : Nat}
    (now : shard.eval type (partitionId 32 mesh.shape (mesh.coordinates device)) index =
      type.constant number) :
    ∃ last, rest.foldl (nextShard mesh) (some shard) = some last ∧
      last.eval type (partitionId 32 mesh.shape (mesh.coordinates device)) index = type.constant
        ((rest.map (place mesh)).foldl (fun total p => total * p.size + p.digit device) number :
          Nat) := by
  induction rest generalizing shard number with
  | nil => exact ⟨shard, rfl, now⟩
  | cons axis rest ih =>
    have coordinate := eval_coord fits below (subset List.mem_cons_self) index
    refine ih (fun other member => subset (List.mem_cons_of_mem _ member)) ?_
    rw [Value.eval, Value.eval, Value.eval, now, coordinate, constant_mul, constant_add]
    rfl

theorem exists_shard (fits : DevicesFit mesh axes type)
    (valid : ∀ axis ∈ axes, axis.Valid mesh) (sharded : axes ≠ []) :
    ∃ shard, axes.foldl (nextShard mesh) none = some shard ∧ ∀ device < mesh.devices,
      ∀ index, shard.eval type (partitionId 32 mesh.shape (mesh.coordinates device)) index =
        type.constant (shardNumber mesh axes device) := by
  obtain ⟨axis, rest, rfl⟩ := List.exists_cons_of_ne_nil sharded
  have subset : rest ⊆ axis :: rest := List.subset_cons_self _ _
  have found : ∃ shard, rest.foldl (nextShard mesh) (some (coord mesh axis)) = some shard := by
    clear fits valid sharded subset
    generalize coord mesh axis = shard
    induction rest generalizing shard with
    | nil => exact ⟨shard, rfl⟩
    | cons next rest ih => exact ih _
  obtain ⟨shard, isShard⟩ := found
  refine ⟨shard, isShard, fun device below index => ?_⟩
  obtain ⟨last, isLast, value⟩ := eval_foldl fits below index subset
    (eval_coord fits below List.mem_cons_self index)
  rw [isShard] at isLast
  cases isLast
  rw [value, shardNumber_eq valid, Place.number, List.map_cons, List.foldl_cons, Nat.zero_mul,
    Nat.zero_add]

/-- The number that the last index of the whole dimension is in the index type. -/
def lastIndex (mesh : Mesh) (axes : List AxisRef) (shardSize : Nat) (type : IntegerType) : Int :=
  type.read (type.constant (shards mesh axes * shardSize - 1 : Nat))

/-- The index clamped as the lowering clamps it. -/
def clamped (mesh : Mesh) (axes : List AxisRef) (shardSize : Nat) (type : IntegerType)
    (index : type.Word) : Int :=
  min (max (type.read index) 0) (lastIndex mesh axes shardSize type)

section

variable (setting : Sharded mesh axes shardSize dim gather) (fits : DevicesFit mesh axes type)

include setting fits

theorem lowered : (shiftGatherIndicesIntoShards mesh gather).fillOutOfBounds = true ∧
    ∀ device < mesh.devices, ∀ index, localStart mesh gather type index device = type.constant
      (clamped mesh axes shardSize type index - shardNumber mesh axes device * shardSize) := by
  obtain ⟨shard, isShard, value⟩ := exists_shard fits setting.valid setting.sharded
  have single : gather.startIndexMap = [dim] := by
    have kept := setting.kept
    rw [gatherFactorType] at kept
    by_contra different
    rw [if_pos ⟨rfl, different⟩] at kept
    cases kept
  have isAxes : gather.operandSharding.getD dim [] = axes := by
    rw [List.getD_eq_getElem?_getD, setting.along, Option.getD_some]
  have isSize : gather.operandShape.getD dim 1 = shardSize := by
    rw [List.getD_eq_getElem?_getD, setting.shard, Option.getD_some]
  have result : shiftGatherIndicesIntoShards mesh gather =
      { gather with
        startIndices := shiftedIndices mesh axes shard shardSize .startIndices
        fillOutOfBounds := true } := by
    unfold shiftGatherIndicesIntoShards
    simp only [single, isAxes, isShard, isSize, setting.outside, setting.indices]
    rfl
  refine ⟨by rw [result], fun device below index => ?_⟩
  rw [localStart, result]
  have clamp : (Value.clamp (.constant 0) .startIndices (.constant (shards mesh axes * shardSize -
      1))).eval type (partitionId 32 mesh.shape (mesh.coordinates device)) index =
        type.constant (clamped mesh axes shardSize type index) := by
    rw [← IntegerType.constant_read (Value.eval _ _ _ _), Value.eval, IntegerType.read_clamp,
      Value.eval, Value.eval, Value.eval, IntegerType.read_constant_nat (Nat.zero_le _)]
    rfl
  rw [shiftedIndices, Value.eval, clamp, Value.eval, value device below index, Value.eval,
    constant_mul, constant_sub]

theorem contributes_iff_read (below : device < mesh.devices) (index : type.Word) :
    Contributes mesh shardSize gather type index device ↔
      0 ≤ type.read (type.constant (clamped mesh axes shardSize type index -
        shardNumber mesh axes device * shardSize)) ∧
      type.read (type.constant (clamped mesh axes shardSize type index -
        shardNumber mesh axes device * shardSize)) < shardSize := by
  rw [Contributes, (lowered setting fits).2 device below index]

end

/-- The row that StableHLO gathers for an index. -/
def target (mesh : Mesh) (axes : List AxisRef) (shardSize : Nat) (type : IntegerType)
    (index : type.Word) : Nat :=
  (min (max (type.read index) 0) ((shards mesh axes * shardSize : Nat) - 1)).toNat

section

variable (setting : Sharded mesh axes shardSize dim gather)

include setting

theorem spread_places : Place.Spread (axes.map (place mesh)) mesh.devices :=
  spread setting.valid setting.disjoint

theorem whole_pos : 0 < shards mesh axes * shardSize := by
  rw [shards_eq]
  exact Nat.mul_pos (spread_places setting).volume_pos setting.nonempty

theorem target_lt (index : type.Word) :
    target mesh axes shardSize type index < shards mesh axes * shardSize := by
  have positive := whole_pos setting
  rw [target]
  omega

theorem target_eq (index : type.Word) : (target mesh axes shardSize type index : Int) =
    min (max (type.read index) 0) ((shards mesh axes * shardSize : Nat) - 1) := by
  have positive := whole_pos setting
  rw [target]
  omega

/-- Where the last index fits, the lowering clamps as the gather does. -/
theorem clamped_eq (fits : LastIndexFits mesh axes shardSize type) (index : type.Word) :
    clamped mesh axes shardSize type index = target mesh axes shardSize type index := by
  have positive := whole_pos setting
  have bound := type.read_le_largest index
  rw [target_eq setting, clamped, lastIndex]
  by_cases small : shards mesh axes * shardSize - 1 ≤ type.largest
  · rw [IntegerType.read_constant_nat small]
    omega
  · -- One shard, whose last index wraps to the largest number.
    obtain ⟨one, congruent⟩ := fits.resolve_left (by omega)
    rw [one, Nat.one_mul] at positive small ⊢
    have last : type.read (type.constant (shardSize - 1 : Nat)) = type.largest := by
      refine IntegerType.eq_of_modEq ((IntegerType.read_constant_modEq _).trans ?_)
        (IntegerType.least_le_read _) (IntegerType.read_le_largest _)
        (le_trans IntegerType.least_le (Int.natCast_nonneg _)) (le_refl _)
      have shifted := (Int.natCast_modEq_iff.mpr congruent).sub_right 1
      push_cast at shifted
      rwa [Int.add_sub_cancel, ← Int.natCast_one, ← Int.natCast_sub (by omega)] at shifted
    omega

theorem target_le (index : type.Word) :
    target mesh axes shardSize type index ≤ type.largest := by
  have bound := type.read_le_largest index
  have equation := target_eq setting index
  omega

/-- The shard of a row reads it at its place in the shard; other shards read nothing. -/
theorem read_iff (fits : LastIndexFits mesh axes shardSize type) {row number : Nat}
    (inside : row < shards mesh axes * shardSize) (large : row ≤ type.largest)
    (isShard : number < shards mesh axes) :
    (row / shardSize = number →
      type.read (type.constant (row - number * shardSize)) = (row % shardSize : Nat)) ∧
    (0 ≤ type.read (type.constant (row - number * shardSize)) ∧
      type.read (type.constant (row - number * shardSize)) < shardSize ↔
        row / shardSize = number) := by
  have positive := setting.nonempty
  have own : row / shardSize = number →
      type.read (type.constant (row - number * shardSize)) = (row % shardSize : Nat) := by
    rintro rfl
    have parts := Nat.div_add_mod' row shardSize
    have place : (row : Int) - (row / shardSize : Nat) * shardSize = (row % shardSize : Nat) := by
      have := congrArg (Nat.cast (R := Int)) parts
      push_cast at this ⊢
      linarith
    rw [place]
    exact IntegerType.read_constant_nat (le_trans (Nat.mod_le _ _) large)
  refine ⟨own, fun reads => ?_, fun same => ?_⟩
  · by_contra different
    rcases fits with small | ⟨one, _⟩
    · -- The difference is outside the shard, and so is what it wraps to.
      have range := type.range_count
      have congruent := type.read_constant_modEq (row - number * shardSize)
      have above : (number + 1) * shardSize ≤ shards mesh axes * shardSize :=
        Nat.mul_le_mul_right _ isShard
      rw [Nat.add_mul, Nat.one_mul] at above
      have most : type.largest < type.count := IntegerType.largest_lt
      by_cases low : row < number * shardSize
      · by_cases least : type.least ≤ row - number * shardSize
        · rw [IntegerType.read_constant least (by omega)] at reads
          omega
        · have turned : type.read (type.constant (row - number * shardSize)) =
              row - number * shardSize + type.count := by
            refine IntegerType.eq_of_modEq (congruent.trans ?_) (IntegerType.least_le_read _)
              (IntegerType.read_le_largest _) (by omega) (by omega)
            exact (Int.add_modEq_right).symm
          omega
      · have high : number * shardSize + shardSize ≤ row := by
          by_contra inShard
          refine different (Nat.div_eq_of_lt_le (by omega) ?_)
          rw [Nat.add_mul, Nat.one_mul]
          omega
        rw [IntegerType.read_constant (le_trans IntegerType.least_le (by omega)) (by omega)]
          at reads
        omega
    · rw [one] at isShard inside
      rw [Nat.one_mul] at inside
      rw [Nat.div_eq_of_lt inside] at different
      omega
  · rw [own same]
    exact ⟨Int.natCast_nonneg _, Int.ofNat_lt.mpr (Nat.mod_lt _ positive)⟩

variable (fits : DevicesFit mesh axes type) (last : LastIndexFits mesh axes shardSize type)

include fits last

theorem contributes_iff (below : device < mesh.devices) (index : type.Word) :
    Contributes mesh shardSize gather type index device ↔
      target mesh axes shardSize type index / shardSize = shardNumber mesh axes device := by
  have isShard : shardNumber mesh axes device < shards mesh axes := by
    rw [shardNumber_eq setting.valid, shards_eq]
    exact (spread_places setting).number_lt device
  rw [contributes_iff_read setting fits below, clamped_eq setting last]
  exact (read_iff setting last (target_lt setting index) (target_le setting index) isShard).2

theorem localRow_eq {Row : Type} [AddCommMonoid Row] (operand : Nat → Row)
    (below : device < mesh.devices) (index : type.Word) :
    localRow mesh axes shardSize gather type operand index device =
      if target mesh axes shardSize type index / shardSize = shardNumber mesh axes device then
        operand (target mesh axes shardSize type index) else 0 := by
  have isShard : shardNumber mesh axes device < shards mesh axes := by
    rw [shardNumber_eq setting.valid, shards_eq]
    exact (spread_places setting).number_lt device
  have reads := read_iff setting last (target_lt setting index) (target_le setting index) isShard
  rw [localRow, (lowered setting fits).1, (lowered setting fits).2 device below index,
    clamped_eq setting last, gatherRow]
  simp only [if_true, reads.2]
  split
  case isTrue same =>
    rw [reads.1 same, Int.toNat_natCast, ← same, Nat.div_add_mod']
  case isFalse => rfl

/-- Where the device numbers and the last index fit, the lowering does what it is for. -/
theorem gathersWhole : GathersWhole mesh axes shardSize gather type where
  shardNumbers shard isShard device below index := by
    obtain ⟨other, isOther, value⟩ := exists_shard fits setting.valid setting.sharded
    rw [isShard] at isOther
    cases isOther
    have bound : shardNumber mesh axes device ≤ type.largest := by
      have number := (spread_places setting).number_lt device
      rcases last with small | ⟨one, _⟩
      · rw [shards_eq] at small
        rw [shardNumber_eq setting.valid]
        have := Nat.mul_le_mul_left (Place.volume (axes.map (place mesh))) setting.nonempty
        omega
      · rw [shards_eq] at one
        rw [shardNumber_eq setting.valid]
        omega
    rw [value device below index, IntegerType.read_constant_nat bound]
  owner index device below := by
    have spread := spread_places setting
    have less : target mesh axes shardSize type index / shardSize <
        Place.volume (axes.map (place mesh)) := by
      rw [← shards_eq]
      exact Nat.div_lt_of_lt_mul (Nat.mul_comm _ _ ▸ target_lt setting index)
    obtain ⟨holder, inside, cleared, number⟩ := spread.exists_number below less
    have numberOf : ∀ other, shardNumber mesh axes other = _ := shardNumber_eq setting.valid
    refine ⟨holder, ⟨?_, ?_⟩, ?_⟩
    · exact Finset.mem_filter.mpr ⟨Finset.mem_range.mpr inside, cleared⟩
    · rw [contributes_iff setting fits last inside, numberOf, number]
    · rintro other ⟨member, contributes⟩
      have parts := Finset.mem_filter.mp member
      rw [contributes_iff setting fits last (Finset.mem_range.mp parts.1), numberOf] at contributes
      exact spread.eq_of_number (parts.2.trans cleared.symm) (contributes.symm.trans number.symm)
  sum Row _ operand index device below := by
    have spread := spread_places setting
    have sum := spread.sum_group below fun number =>
      if target mesh axes shardSize type index / shardSize = number then
        operand (target mesh axes shardSize type index) else 0
    have less : target mesh axes shardSize type index / shardSize <
        Place.volume (axes.map (place mesh)) := by
      rw [← shards_eq]
      exact Nat.div_lt_of_lt_mul (Nat.mul_comm _ _ ▸ target_lt setting index)
    calc (devicesAlong mesh axes device).sum (fun holder =>
          localRow mesh axes shardSize gather type operand index holder)
        = (Place.group (axes.map (place mesh)) mesh.devices device).sum fun holder =>
            if target mesh axes shardSize type index / shardSize =
              Place.number (axes.map (place mesh)) holder then
                operand (target mesh axes shardSize type index) else 0 := by
          refine Finset.sum_congr rfl fun holder member => ?_
          have inside := Finset.mem_range.mp (Finset.mem_filter.mp member).1
          rw [localRow_eq setting fits last operand inside, shardNumber_eq setting.valid]
      _ = operand (target mesh axes shardSize type index) := by
          rw [sum, Finset.sum_ite_eq, if_pos (Finset.mem_range.mpr less)]
      _ = gatherRow type false (shards mesh axes * shardSize) operand index := rfl

end

section

variable (setting : Sharded mesh axes shardSize dim gather) (fits : DevicesFit mesh axes type)
  (whole : GathersWhole mesh axes shardSize gather type)

include setting fits whole

/-- Indices that the lowering clamps to one gather one row. -/
theorem target_of_clamped {index other : type.Word} (devices : 0 < mesh.devices)
    (same : clamped mesh axes shardSize type index = clamped mesh axes shardSize type other) :
    target mesh axes shardSize type index = target mesh axes shardSize type other := by
  have first := whole.sum Nat id index 0 devices
  have second := whole.sum Nat id other 0 devices
  change _ = target mesh axes shardSize type index at first
  change _ = target mesh axes shardSize type other at second
  rw [← first, ← second]
  refine Finset.sum_congr rfl fun holder member => ?_
  have inside := Finset.mem_range.mp (Finset.mem_filter.mp member).1
  rw [localRow, localRow, (lowered setting fits).2 holder inside index,
    (lowered setting fits).2 holder inside other, same]

/-- A row that a device reads for an index is the row that the index gathers. -/
theorem target_of_read (below : device < mesh.devices) {index : type.Word} {row : Nat}
    (inside : row < shardSize) (reads : type.read (type.constant (clamped mesh axes shardSize type
      index - shardNumber mesh axes device * shardSize)) = row) :
    shardNumber mesh axes device * shardSize + row = target mesh axes shardSize type index := by
  let operand := fun other => if other = shardNumber mesh axes device * shardSize + row then 1 else 0
  have sum := whole.sum Nat operand index device below
  have own : localRow mesh axes shardSize gather type operand index device = 1 := by
    rw [localRow, (lowered setting fits).1, (lowered setting fits).2 device below index, gatherRow,
      reads]
    simp [operand, inside]
  have member : device ∈ devicesAlong mesh axes device :=
    Finset.mem_filter.mpr ⟨Finset.mem_range.mpr below, rfl⟩
  have part := Finset.single_le_sum (f := fun holder =>
    localRow mesh axes shardSize gather type operand index holder) (fun _ _ => Nat.zero_le _) member
  rw [own, sum] at part
  change 1 ≤ operand (target mesh axes shardSize type index) at part
  by_contra different
  rw [show operand (target mesh axes shardSize type index) = 0 from if_neg (Ne.symm different)]
    at part
  omega

/-- Where the last index does not fit, the lowering still clamps every index of the type to itself,
so the last index wraps to the largest number of the type. -/
theorem last_congruent (devices : 0 < mesh.devices) (some : 0 < type.largest)
    (big : type.largest + 1 < shards mesh axes * shardSize) :
    lastIndex mesh axes shardSize type = type.largest := by
  have most : lastIndex mesh axes shardSize type ≤ type.largest := IntegerType.read_le_largest _
  by_contra different
  have nonneg : max (lastIndex mesh axes shardSize type) 0 ≤ type.largest := by omega
  have first : type.read (type.constant type.largest) = type.largest :=
    IntegerType.read_constant_nat (le_refl _)
  have second : type.read (type.constant (max (lastIndex mesh axes shardSize type) 0)) =
      max (lastIndex mesh axes shardSize type) 0 :=
    IntegerType.read_constant (le_trans IntegerType.least_le (le_max_right _ _)) nonneg
  have equal : clamped mesh axes shardSize type (type.constant type.largest) =
      clamped mesh axes shardSize type
        (type.constant (max (lastIndex mesh axes shardSize type) 0)) := by
    rw [clamped, clamped, first, second]
    omega
  have same := target_of_clamped setting fits whole devices equal
  have left := target_eq setting (type.constant (type.largest : Int))
  have right := target_eq setting (type.constant (max (lastIndex mesh axes shardSize type) 0))
  omega

/-- No shard reads a row for an index of the type that is not at its place in it. -/
theorem no_stray (big : type.largest + 1 < shards mesh axes * shardSize)
    (last : lastIndex mesh axes shardSize type = type.largest) (number index row : Nat)
    (isShard : number < shards mesh axes) (small : index ≤ type.largest) (inside : row < shardSize)
    (fitting : row ≤ type.largest)
    (reads : (index : Int) - number * shardSize ≡ row [ZMOD type.count])
    (devices : 0 < mesh.devices) : number * shardSize + row = index := by
  rw [shards_eq] at isShard
  obtain ⟨device, below, _, isNumber⟩ := (spread_places setting).exists_number devices isShard
  have read := IntegerType.read_constant_nat small
  have isClamped : clamped mesh axes shardSize type (type.constant index) = index := by
    rw [clamped, read, last]
    omega
  have isTarget := target_eq setting (type.constant (index : Int))
  have reads : type.read (type.constant (clamped mesh axes shardSize type
      (type.constant index) - shardNumber mesh axes device * shardSize)) = row := by
    rw [isClamped, shardNumber_eq setting.valid, isNumber]
    exact IntegerType.eq_of_modEq ((IntegerType.read_constant_modEq _).trans reads)
      (IntegerType.least_le_read _) (IntegerType.read_le_largest _)
      (le_trans IntegerType.least_le (Int.natCast_nonneg _)) (Int.ofNat_le.mpr fitting)
  have found := target_of_read setting fits whole below inside reads
  rw [shardNumber_eq setting.valid, isNumber] at found
  omega

/-- Where the device numbers fit, the lowering needs the last index to fit too. -/
theorem lastIndexFits : LastIndexFits mesh axes shardSize type := by
  by_contra! notFits
  have big : type.largest + 1 < shards mesh axes * shardSize := by
    by_contra small
    exact notFits (.inl (not_lt.mp small))
  obtain ⟨axis, isAxis⟩ := List.exists_mem_of_ne_nil _ setting.sharded
  have positive := (setting.valid axis isAxis).positive
  have some : 0 < type.largest := lt_of_lt_of_le positive (fits.sizes axis isAxis)
  have devices : 0 < mesh.devices := by
    refine Nat.pos_of_ne_zero fun zero => ?_
    obtain ⟨own, member, isZero⟩ := List.mem_map.mp (List.prod_eq_zero_iff.mp zero)
    have := mesh.positive own member
    omega
  have last := last_congruent setting fits whole devices some big
  have stray := no_stray setting fits whole big last
  have nonempty := setting.nonempty
  -- The whole dimension is the type's nonnegative numbers and some whole turns.
  have congruent : shards mesh axes * shardSize ≡ type.largest + 1 [MOD type.count] := by
    have read : type.read _ ≡ _ [ZMOD type.count] :=
      IntegerType.read_constant_modEq (shards mesh axes * shardSize - 1 : Nat)
    rw [← lastIndex, last] at read
    have shifted := (Int.natCast_modEq_iff.mp read).symm.add_right 1
    rwa [Nat.sub_add_cancel (by omega)] at shifted
  have turns : type.largest + 1 + type.count ≤ shards mesh axes * shardSize := by
    obtain ⟨turns, difference⟩ := (Nat.modEq_iff_dvd' (le_of_lt big)).mp congruent.symm
    have one : 1 ≤ turns := Nat.one_le_iff_ne_zero.mpr fun zero => by
      rw [zero] at difference
      omega
    have := Nat.mul_le_mul_left type.count one
    omega
  have several : 2 ≤ shards mesh axes := by
    have notOne : shards mesh axes ≠ 1 := fun one =>
      notFits (.inr ⟨one, by rwa [one, Nat.one_mul] at congruent⟩)
    have notNone : shards mesh axes ≠ 0 := fun none => by
      rw [none, Nat.zero_mul] at turns
      omega
    omega
  have count := type.count_cases
  rcases Nat.lt_or_ge shardSize type.count with less | more
  · -- The shard that row `count` is in reads it for index zero.
    have parts := Nat.div_add_mod' type.count shardSize
    have rest := Nat.mod_lt type.count nonempty
    have once : 1 ≤ type.count / shardSize := Nat.div_pos less.le nonempty
    have turn := Nat.mul_le_mul_right shardSize once
    have isShard : type.count / shardSize < shards mesh axes :=
      Nat.div_lt_of_lt_mul (by rw [Nat.mul_comm]; omega)
    have row := stray _ 0 (type.count % shardSize) isShard (Nat.zero_le _) rest
      (by omega) (Int.modEq_iff_dvd.mpr ⟨1, by
        have := congrArg (Nat.cast (R := Int)) parts
        push_cast at this ⊢
        linarith⟩) devices
    omega
  · have parts := Nat.div_add_mod' shardSize type.count
    have rest := Nat.mod_lt shardSize type.count_pos
    by_cases small : shardSize % type.count ≤ type.largest
    · -- The second shard begins at the index that its offset wraps to.
      have row := stray 1 (shardSize % type.count) 0 (by omega) small
        nonempty (Nat.zero_le _) (Int.modEq_iff_dvd.mpr ⟨(shardSize / type.count : Nat), by
          push_cast
          linarith⟩) devices
      omega
    · by_cases wraps : shardSize % type.count = type.largest + 1
      · -- Two shards make whole turns, so there is a third, and its offset wraps to zero.
        have third : 2 < shards mesh axes := by
          by_contra two
          have isTwo : shards mesh axes = 2 := by omega
          rw [isTwo] at congruent
          have even : 2 * shardSize ≡ 0 [MOD type.count] := by
            refine Nat.modEq_zero_iff_dvd.mpr ⟨2 * (shardSize / type.count) + 1, ?_⟩
            have double := congrArg (2 * ·) parts
            simp only [wraps] at double
            rw [← double, show type.count = 2 * (type.largest + 1) by omega]
            ring
          have zero := (congruent.symm.trans even)
          have divides := Nat.le_of_dvd (Nat.succ_pos _) (Nat.modEq_zero_iff_dvd.mp zero)
          omega
        have row := stray 2 0 0 third (Nat.zero_le _) nonempty (Nat.zero_le _)
          (Int.modEq_iff_dvd.mpr ⟨2 * (shardSize / type.count : Nat) + 1, by
            have isCount : (type.count : Int) = 2 * (shardSize % type.count : Nat) := by omega
            push_cast at isCount ⊢
            linarith⟩) devices
        omega
      · have row := stray 1 0 (type.count - shardSize % type.count)
          (by omega) (Nat.zero_le _) (by omega) (by omega)
          (Int.modEq_iff_dvd.mpr ⟨(shardSize / type.count : Nat) + 1, by
            rw [Nat.cast_sub rest.le]
            push_cast
            linarith⟩) devices
        omega

end

/-- The sum of the gathers from the shards is the gather from the whole operand, each index
contributing from one shard, where the device numbers and the last index fit the index type. Where
the device numbers fit, it is only there. -/
theorem sharded_gather (setting : Sharded mesh axes shardSize dim gather) :
    (DevicesFit mesh axes type ∧ LastIndexFits mesh axes shardSize type →
      GathersWhole mesh axes shardSize gather type) ∧
    (DevicesFit mesh axes type → (GathersWhole mesh axes shardSize gather type ↔
      LastIndexFits mesh axes shardSize type)) :=
  ⟨fun both => gathersWhole setting both.1 both.2, fun fits =>
    ⟨lastIndexFits setting fits, gathersWhole setting fits⟩⟩

def uint8 : IntegerType := ⟨8, false, positive8⟩

/-- A mesh of two rows and four columns. -/
def grid : Mesh where
  axes := [⟨"x", 2⟩, ⟨"y", 4⟩]
  distinct := by decide
  positive := by decide

/-- A gather of rows that are sharded along the minor half of the columns, then the rows. -/
def rowsAlong (shardSize : Nat) (axes : List AxisRef) : GatherOp where
  startIndexMap := [0]
  operandShape := [shardSize, 16]
  operandSharding := [axes, []]
  manualAxes := none
  startIndices := .startIndices
  fillOutOfBounds := false

theorem sharded_gather_grid :
    GathersWhole grid [⟨"y", some ⟨2, 2⟩⟩, ⟨"x", none⟩] 60
      (rowsAlong 60 [⟨"y", some ⟨2, 2⟩⟩, ⟨"x", none⟩]) uint8 := by
  have setting : Sharded grid [⟨"y", some ⟨2, 2⟩⟩, ⟨"x", none⟩] 60 0
      (rowsAlong 60 [⟨"y", some ⟨2, 2⟩⟩, ⟨"x", none⟩]) := by
    refine ⟨?_, ?_, by decide, rfl, rfl, rfl, by decide, rfl, rfl, rfl⟩
    · intro axis member
      rcases List.mem_cons.mp member with rfl | member
      · exact ⟨by decide, by decide, by decide⟩
      · rw [List.mem_singleton] at member
        subst member
        exact ⟨by decide, by decide, by decide⟩
    · exact List.pairwise_pair.mpr fun same => absurd same (by decide)
  exact (sharded_gather setting).1 ⟨⟨by decide, by decide, by decide, by decide⟩, .inl (by decide)⟩

/-- Row 100 of 300 rows in two shards, with an index of eight bits: the last index wraps to 43, and
both devices read a row for it, 43 and 299. -/
theorem sharded_gather_wraps :
    ((devicesAlong grid [⟨"x", none⟩] 0).sum (fun holder =>
        localRow grid [⟨"x", none⟩] 150 (rowsAlong 150 [⟨"x", none⟩]) uint8 id 100#8 holder) =
          43 + 299 ∧
      gatherRow uint8 false (shards grid [⟨"x", none⟩] * 150) id 100#8 = 100) ∧
    ¬GathersWhole grid [⟨"x", none⟩] 150 (rowsAlong 150 [⟨"x", none⟩]) uint8 := by
  have sums : (devicesAlong grid [⟨"x", none⟩] 0).sum (fun holder =>
      localRow grid [⟨"x", none⟩] 150 (rowsAlong 150 [⟨"x", none⟩]) uint8 id 100#8 holder) =
        43 + 299 ∧
      gatherRow uint8 false (shards grid [⟨"x", none⟩] * 150) id 100#8 = 100 := by
    decide
  refine ⟨sums, fun whole => ?_⟩
  have equal := whole.sum Nat id 100#8 0 (by decide)
  exact absurd equal (by decide)

end Libtt.ShardedGather

import Libtt.Foundation.Digits
import Libtt.StableHlo.Integer

/-!
# Gathers from a sharded operand

`shiftGatherIndicesIntoShards` makes the indices of a gather relative to each device's shard of
the operand dimension that they index. The devices' results are summed; an index outside a shard
reads zeros there. The shard number comes from `stablehlo.partition_id` by quotients and
remainders in the indices' own element type.
-/
namespace Libtt.ShardedGather

open Libtt.Foundation Libtt.StableHlo

structure MeshAxis where
  name : String
  size : Nat
  deriving DecidableEq, Repr

/-- The axes of a mesh, major to minor. -/
structure Mesh where
  axes : List MeshAxis
  distinct : (axes.map MeshAxis.name).Nodup
  positive : ∀ axis ∈ axes, 0 < axis.size

/-- Part of an axis: `"x":(preSize)size` splits x into `[preSize, size, rest]`, major to minor. -/
structure SubAxisInfo where
  preSize : Nat
  size : Nat
  deriving DecidableEq, Repr

structure AxisRef where
  name : String
  subAxisInfo : Option SubAxisInfo
  deriving DecidableEq, Repr

namespace Mesh

variable (mesh : Mesh)

def shape : List Nat := mesh.axes.map MeshAxis.size

/-- How many devices the mesh has. Their numbers are row-major over the mesh. -/
def devices : Nat := mesh.shape.prod

def getAxisSize (name : String) : Nat :=
  ((mesh.axes.find? (·.name = name)).map MeshAxis.size).getD 1

end Mesh

namespace AxisRef

variable (axis : AxisRef) (mesh : Mesh)

def getSize : Nat :=
  match axis.subAxisInfo with
  | none => mesh.getAxisSize axis.name
  | some subAxis => subAxis.size

/-- The stride that the loop over the mesh axes, last first, computes for the axis. -/
def stride : Nat :=
  let stride := ((mesh.axes.reverse.takeWhile (·.name ≠ axis.name)).map MeshAxis.size).prod
  match axis.subAxisInfo with
  | none => stride
  | some subAxis =>
    stride * (mesh.getAxisSize axis.name / (subAxis.preSize * axis.getSize mesh))

end AxisRef

/-- The emitted operations. A scalar is broadcast where it meets the indices. -/
inductive Value where
  | startIndices
  | partitionId
  | constant (value : Nat)
  | convert (operand : Value)
  | div (left right : Value)
  | rem (left right : Value)
  | mul (left right : Value)
  | add (left right : Value)
  | subtract (left right : Value)
  | clamp (min operand max : Value)
  deriving DecidableEq, Repr

/-- A gather, with the shape and sharding of its operand: the dimensions' sizes on each device,
and the axes that shard them. `manualAxes` are those of a nested `shard_map` around it. -/
structure GatherOp where
  startIndexMap : List Nat
  operandShape : List Nat
  operandSharding : List (List AxisRef)
  manualAxes : Option (List String)
  startIndices : Value
  fillOutOfBounds : Bool

/-- The device's coordinate along an axis. -/
def coord (mesh : Mesh) (axis : AxisRef) : Value :=
  .rem (.div (.convert .partitionId) (.constant (axis.stride mesh))) (.constant (axis.getSize mesh))

/-- One turn of the loop over the axes. -/
def nextShard (mesh : Mesh) (shard : Option Value) (axis : AxisRef) : Option Value :=
  match shard with
  | none => some (coord mesh axis)
  | some shard => some (.add (.mul shard (.constant (axis.getSize mesh))) (coord mesh axis))

/-- How many shards the axes make. -/
def shards (mesh : Mesh) (axes : List AxisRef) : Nat :=
  axes.foldl (fun shards axis => shards * axis.getSize mesh) 1

/-- The indices relative to the device's shard. -/
def shiftedIndices (mesh : Mesh) (axes : List AxisRef) (shard : Value) (shardSize : Nat)
    (indices : Value) : Value :=
  .subtract (.clamp (.constant 0) indices (.constant (shards mesh axes * shardSize - 1)))
    (.mul shard (.constant shardSize))

def shiftGatherIndicesIntoShards (mesh : Mesh) (gather : GatherOp) : GatherOp :=
  match gather.startIndexMap with
  | [dim] =>
    let axes := gather.operandSharding.getD dim []
    match axes.foldl (nextShard mesh) none with
    | none => gather
    | some shard =>
      if axes.any fun axis => (gather.manualAxes.getD []).contains axis.name then gather
      else { gather with
        startIndices := shiftedIndices mesh axes shard (gather.operandShape.getD dim 1)
          gather.startIndices
        fillOutOfBounds := true }
  | _ => gather

/-- How a factor of the gather's sharding rule may be sharded. -/
inductive FactorType where
  | kPassThrough | kReduction | kNeedReplication
  deriving DecidableEq, Repr

/-- The rule's factor of an operand dimension: kept where only this dimension is indexed. -/
def gatherFactorType (startIndexMap : List Nat) (inputDim : Nat) (factorType : FactorType) :
    FactorType :=
  if factorType = .kReduction ∧ startIndexMap ≠ [inputDim] then .kNeedReplication else factorType

/-- The position of an element in a row-major tensor. -/
def rowMajor : List Nat → List Nat → Nat
  | _ :: shape, coordinate :: position => coordinate * shape.prod + rowMajor shape position
  | _, _ => 0

/-- The part of a tensor that a device with the coordinate along the mesh axis keeps. -/
def meshPartition {Element : Type} (tensor : List Nat → Element) (axis coordinate : Nat) :
    List Nat → Element :=
  fun position => tensor (position.modify axis (coordinate + ·))

/-- `StableHLOToTTIRPartitionIdOpConversionPattern`, on the device with the coordinates: an iota
over the mesh, of which it keeps its own element. -/
def partitionId (width : Nat) (meshShape coordinates : List Nat) : BitVec width :=
  let ids := fun position => BitVec.ofNat width (rowMajor meshShape position)
  let current := meshShape.zipIdx.foldl (fun current axis =>
    if axis.1 = 1 then current else meshPartition current axis.2 (coordinates.getD axis.2 0)) ids
  current (List.replicate meshShape.length 0)

/-- What a value is on the device of a number, for one of the indices. -/
def Value.eval (type : IntegerType) (device : BitVec 32) (index : type.Word) : Value → type.Word
  | startIndices => index
  | partitionId => type.constant device.toNat
  | constant value => type.constant value
  | convert operand => operand.eval type device index
  | div left right => type.divide (left.eval type device index) (right.eval type device index)
  | rem left right => type.remainder (left.eval type device index) (right.eval type device index)
  | mul left right => left.eval type device index * right.eval type device index
  | add left right => left.eval type device index + right.eval type device index
  | subtract left right => left.eval type device index - right.eval type device index
  | clamp min operand max => type.clamp (min.eval type device index)
      (operand.eval type device index) (max.eval type device index)

/-- The row that a start index gathers from rows of a number: of an index out of bounds the
nearest row, or zeros where the gather fills. -/
def gatherRow {Row : Type} [Zero Row] (type : IntegerType) (fillOutOfBounds : Bool) (size : Nat)
    (rows : Nat → Row) (start : type.Word) : Row :=
  let index := type.read start
  if fillOutOfBounds then if 0 ≤ index ∧ index < size then rows index.toNat else 0
  else rows (min (max index 0) (size - 1)).toNat

namespace Mesh

variable (mesh : Mesh)

/-- The devices' coordinates along the axes after the first few, from their row-major numbers. -/
def coordinatesOf : List Nat → Nat → List Nat
  | [], _ => []
  | size :: shape, device => device / shape.prod % size :: coordinatesOf shape device

/-- The coordinates of a device. -/
def coordinates (device : Nat) : List Nat := coordinatesOf mesh.shape device

/-- The coordinate of a device along the axis of a name. -/
def coordinate (name : String) (device : Nat) : Nat :=
  (mesh.coordinates device).getD (mesh.axes.findIdx (·.name = name)) 0

end Mesh

namespace AxisRef

variable (axis : AxisRef) (mesh : Mesh)

/-- The coordinate of a device along an axis, or along a part of one. -/
def coordinate (device : Nat) : Nat :=
  match axis.subAxisInfo with
  | none => mesh.coordinate axis.name device
  | some subAxis => mesh.coordinate axis.name device /
      (mesh.getAxisSize axis.name / (subAxis.preSize * subAxis.size)) % subAxis.size

/-- The sizes before the part of the axis and with it. -/
def extent : Nat × Nat :=
  match axis.subAxisInfo with
  | none => (1, mesh.getAxisSize axis.name)
  | some subAxis => (subAxis.preSize, subAxis.preSize * subAxis.size)

/-- The axis is one of the mesh, and a part of it divides it. -/
structure Valid : Prop where
  isAxis : axis.name ∈ mesh.axes.map MeshAxis.name
  divides : (axis.extent mesh).2 ∣ mesh.getAxisSize axis.name
  positive : 0 < axis.getSize mesh

/-- Axes, or parts of one axis, that do not overlap. -/
def Disjoint (other : AxisRef) : Prop :=
  axis.name = other.name → (axis.extent mesh).2 ∣ (other.extent mesh).1 ∨
    (other.extent mesh).2 ∣ (axis.extent mesh).1

end AxisRef

/-- The number of a device's shard: its coordinates along the axes, major to minor. -/
def shardNumber (mesh : Mesh) (axes : List AxisRef) (device : Nat) : Nat :=
  axes.foldl (fun number axis => number * axis.getSize mesh + axis.coordinate mesh device) 0

/-- The devices along the axes: those that agree with one apart from their coordinates there. -/
def devicesAlong (mesh : Mesh) (axes : List AxisRef) (device : Nat) : Finset Nat :=
  Place.group (axes.map fun axis => ⟨axis.stride mesh, axis.getSize mesh⟩) mesh.devices device

/-- A gather whose indexed operand dimension Shardy keeps sharded along some axes, evenly. -/
structure Sharded (mesh : Mesh) (axes : List AxisRef) (shardSize dim : Nat) (gather : GatherOp) :
    Prop where
  valid : ∀ axis ∈ axes, axis.Valid mesh
  disjoint : axes.Pairwise fun axis other => axis.Disjoint mesh other
  sharded : axes ≠ []
  kept : gatherFactorType gather.startIndexMap dim .kReduction = .kReduction
  along : gather.operandSharding[dim]? = some axes
  shard : gather.operandShape[dim]? = some shardSize
  nonempty : 0 < shardSize
  outside : axes.any (fun axis => (gather.manualAxes.getD []).contains axis.name) = false
  indices : gather.startIndices = .startIndices
  clamps : gather.fillOutOfBounds = false

section
variable (mesh : Mesh) (axes : List AxisRef) (shardSize : Nat) (gather : GatherOp)
  (type : IntegerType)

/-- The start index that a device gathers from after the lowering. -/
def localStart (index : type.Word) (device : Nat) : type.Word :=
  (shiftGatherIndicesIntoShards mesh gather).startIndices.eval type
    (partitionId 32 mesh.shape (mesh.coordinates device)) index

/-- What a device gathers for an index after the lowering. -/
def localRow {Row : Type} [Zero Row] (operand : Nat → Row) (index : type.Word) (device : Nat) :
    Row :=
  gatherRow type (shiftGatherIndicesIntoShards mesh gather).fillOutOfBounds shardSize
    (fun row => operand (shardNumber mesh axes device * shardSize + row))
    (localStart mesh gather type index device)

/-- A device reads a row of its shard for the index. -/
def Contributes (index : type.Word) (device : Nat) : Prop :=
  0 ≤ type.read (localStart mesh gather type index device) ∧
    type.read (localStart mesh gather type index device) < shardSize

/-- The lowering does what it is for: a device's shard number is computed, each index contributes
from one shard, and the sum over the devices along the axes is the gather from the whole
operand. -/
structure GathersWhole : Prop where
  shardNumbers : ∀ shard, axes.foldl (nextShard mesh) none = some shard →
    ∀ device < mesh.devices, ∀ index : type.Word, type.read (shard.eval type
      (partitionId 32 mesh.shape (mesh.coordinates device)) index) = shardNumber mesh axes device
  owner : ∀ index, ∀ device < mesh.devices, ∃! holder, holder ∈ devicesAlong mesh axes device ∧
    Contributes mesh shardSize gather type index holder
  sum : ∀ (Row : Type) [AddCommMonoid Row] (operand : Nat → Row) (index : type.Word),
    ∀ device < mesh.devices,
      ((devicesAlong mesh axes device).sum fun holder =>
        localRow mesh axes shardSize gather type operand index holder) =
          gatherRow type false (shards mesh axes * shardSize) operand index

/-- The device numbers, and the constants that find the shard number, are numbers of the index
type, and of the type of `stablehlo.partition_id`. -/
structure DevicesFit : Prop where
  numbers : mesh.devices ≤ type.largest + 1
  partitionIds : mesh.devices ≤ 2 ^ 32
  strides : ∀ axis ∈ axes, axis.stride mesh ≤ type.largest
  sizes : ∀ axis ∈ axes, axis.getSize mesh ≤ type.largest

/-- The last index of the whole dimension is a number of the index type; or there is one shard,
and the last index wraps to the largest number of the type. -/
def LastIndexFits : Prop :=
  shards mesh axes * shardSize ≤ type.largest + 1 ∨
    shards mesh axes = 1 ∧ shardSize ≡ type.largest + 1 [MOD type.count]

end

end Libtt.ShardedGather

import Libtt.StableHlo.Reduce

/-!
# Reductions over a sharded dimension

Shardy inserts all-reduces after ops whose reduction dimensions are sharded. The partial results of
a reduce with a single result combine with the reduce's own computation. For an argmin or argmax,
each device finds its extreme value and global index, both are gathered, and the reducer picks the
winning device.
-/
namespace Libtt.ShardedReduce

open Libtt.Foundation Libtt.StableHlo

variable {α : Type}

/-- A tensor on each device. A device is its coordinates along the axes of the mesh. -/
abbrev OnDevices (α : Type) := List Nat → Tensor α

/-- `populateReplicaGroups`: the devices along an axis, in its order. -/
def replicaGroup (mesh : List Nat) (meshAxis : Nat) (device : List Nat) : List (List Nat) :=
  (List.range (mesh.getD meshAxis 0)).map (device.set meshAxis ·)

/-- `stablehlo.all_gather` to a shape. -/
def allGather (mesh : List Nat) (meshAxis : Nat) (operand : OnDevices α) (shape : List Nat)
    (dim : Nat) : OnDevices α := fun device =>
  { shape := shape
    data index :=
      let size := (operand device).shape.getD dim 0
      let coordinate := index.getD dim 0
      let member := (replicaGroup mesh meshAxis device).getD (coordinate / size) []
      (operand member).data (index.set dim (coordinate % size)) }

/-- `stablehlo.all_reduce`. -/
def allReduce (schedules : Schedules) (operation : Nat) (body : α → α → α) (mesh : List Nat)
    (meshAxis : Nat) (operand : OnDevices α) : OnDevices α := fun device =>
  { shape := (operand device).shape
    data index :=
      match (replicaGroup mesh meshAxis device).map fun member => (operand member).data index with
      | [] => (operand device).data index
      | first :: rest => schedules.allReduce ⟨operation, device⟩ index body first rest }

/-- What makes a value, as far as the patterns look. -/
inductive Producer where
  | iota (iotaDimension : Nat)
  | composite (name : String) (operand : Producer)
  | other
  deriving DecidableEq, Repr

/-- The users of a result: none, one `sdy.all_reduce`, or others. -/
inductive Users where
  | none
  | allReduce
  | other
  deriving DecidableEq, Repr

/-- A reduce whose results are partial, with what makes its inputs and uses its results. -/
structure SourceReduce (α : Type) where
  op : ReduceOp α
  numResults : Nat
  inputs : List Producer
  users : List Users

/-- An `sdy.all_reduce`, and whether the sharding of its operand has unreduced axes. -/
structure AllReduceOp where
  reductionAxes : List Nat
  unreducedAxes : Option (List Nat)

def getSourceReduce (srcOp : AllReduceOp) (definingOp : Option (SourceReduce α)) :
    Option (SourceReduce α) :=
  match srcOp.unreducedAxes with
  | some (_ :: _) => none
  | _ => definingOp

/-- The body of the all-reduces: a clone of the source's, or a sum. -/
def addSourceReductionBlock (add : α → α → α) : Option (SourceReduce α) → α → α → α
  | none => add
  | some sourceReduce => sourceReduce.op.body

/-- The all-reduces that replace an `sdy.all_reduce`, one for each axis. -/
def matchAndRewrite (schedules : Schedules) (add : α → α → α) (mesh : List Nat)
    (srcOp : AllReduceOp) (definingOp : Option (SourceReduce α)) (operand : OnDevices α) :
    OnDevices α :=
  srcOp.reductionAxes.zipIdx.foldl (fun result axis => allReduce schedules axis.2
    (addSourceReductionBlock add (getSourceReduce srcOp definingOp)) mesh axis.1 result) operand

/-- Whether a value is this device's slice of an iota along `dim`. -/
def isSlicedIota (value : Producer) (dim : Nat) : Bool :=
  match value with
  | .composite name (.iota iotaDimension) => name = "sdy.all_slice" && iotaDimension = dim
  | _ => false

section

variable (semantics : Semantics) (schedules : Schedules) {type : ElementType}
  {indexType : IntegerType}

/-- A reduce with a single result over `dim`. -/
def reduceWith (site : Site) (body : α → α → α) (input : Tensor α) (init : α) (dim : Nat) :
    Tensor α :=
  ReduceOp.eval { dimensions := [dim], body := body, initValue := init } schedules site input

/-- The index along `dim` that the reducer picks. -/
def argMinMax (site : Site) (reduceOp : ReduceOp (Element type × indexType.Word))
    (input : Tensor (Element type)) (dim : Nat) : Tensor indexType.Word :=
  let argReduce := { reduceOp with dimensions := [dim] }
  (argReduce.eval schedules site
    (input.zipWith Prod.mk (iota indexType input.shape dim))).map Prod.snd

/-- The elements of `input` at `index` along `dim`, as a masked sum. -/
def pick (site : Site) (input : Tensor (Element type)) (index : Tensor indexType.Word)
    (dim : Nat) : Tensor (Element type) :=
  let dims := List.range dim ++
    (List.range (input.shape.length - (dim + 1))).map (dim + 1 + ·)
  let isIndex := (iota indexType input.shape dim).zipWith
    (compareOp .EQ (.integer indexType)) (index.broadcastInDim input.shape dims)
  let zeros := { shape := input.shape, data := fun _ => zeroAttr type }
  reduceWith schedules site (semantics.combine .add type) (select isIndex input zeros)
    (zeroAttr type) dim

/-- Where this device's slice of the iota starts, as a tensor of the shape of its indices. -/
def sliceStart (slicedIota : Tensor indexType.Word) (dim : Nat) (shape : List Nat) :
    Tensor indexType.Word :=
  let limits := slicedIota.shape.set dim 1
  (slicedIota.slice (List.replicate limits.length 0) limits
    (List.replicate limits.length 1)).reshape shape

/-- What is gathered from every device along the axis, into a last dimension. -/
def gather (mesh : List Nat) (meshAxis : Nat) (result : OnDevices α) : OnDevices α :=
  fun device =>
    let shape := (result device).shape
    allGather mesh meshAxis (fun member => (result member).reshape (shape ++ [1]))
      (shape ++ [mesh.getD meshAxis 0]) shape.length device

variable (reduceOp : ReduceOp (Element type × indexType.Word)) (dim : Nat)
  (input : OnDevices (Element type)) (slicedIota : OnDevices indexType.Word)

/-- The index of this device's extreme value, within its part. -/
def localIndex : OnDevices indexType.Word := fun device =>
  argMinMax schedules ⟨0, device⟩ reduceOp (input device) dim

/-- This device's extreme value. -/
def localValue : OnDevices (Element type) := fun device =>
  pick semantics schedules ⟨1, device⟩ (input device)
    (localIndex schedules reduceOp dim input device) dim

/-- Its global index: the local index plus where this device's slice of the iota starts. -/
def globalIndex : OnDevices indexType.Word := fun device =>
  let localIndex := localIndex schedules reduceOp dim input device
  localIndex.zipWith (semantics.combine .add (.integer indexType))
    (sliceStart (slicedIota device) dim localIndex.shape)

/-- The winning device, of those whose values are gathered into a dimension. -/
def winner (values : OnDevices (Element type)) (last : Nat) : OnDevices indexType.Word :=
  fun device => argMinMax schedules ⟨2, device⟩ reduceOp (values device) last

/-- What the winning device gathered. -/
def pickWinner (operation : Nat) (picked : ElementType) (gathered : OnDevices (Element picked))
    (values : OnDevices (Element type)) (last : Nat) : OnDevices (Element picked) := fun device =>
  pick semantics schedules ⟨operation, device⟩ (gathered device)
    (winner schedules reduceOp values last device) last

/-- What replaces the all-reduces of the results, of those that have one. -/
def reduceArgMinMax (mesh : List Nat) (srcOp : AllReduceOp)
    (source : SourceReduce (Element type × indexType.Word)) :
    Option (Option (OnDevices (Element type)) × Option (OnDevices indexType.Word)) :=
  match source.op.dimensions, srcOp.reductionAxes with
  | [dim], [meshAxis] =>
    if source.numResults ≠ 2 ∨ ¬isSlicedIota (source.inputs.getD 1 .other) dim then none
    else if .other ∈ source.users then none
    else
      let value := localValue semantics schedules source.op dim input
      let index := globalIndex semantics schedules source.op dim input slicedIota
      -- A value's type is the same on every device.
      let last := (value (List.replicate mesh.length 0)).shape.length
      let values := gather mesh meshAxis value
      let valuesPicked := pickWinner semantics schedules source.op 3 type values values last
      let indexPicked : OnDevices (Element (.integer indexType)) :=
        pickWinner semantics schedules source.op 4 (.integer indexType) (gather mesh meshAxis index)
          values last
      some (if source.users.getD 0 .none = .allReduce then some valuesPicked else none,
        if source.users.getD 1 .none = .allReduce then some indexPicked else none)
  | _, _ => none

end

/-- The axes of each dimension, major to minor, and the shape on each device. -/
structure Sharding where
  mesh : List Nat
  axes : List (List Nat)
  localShape : List Nat

namespace Sharding

variable (sharding : Sharding)

/-- The number of a device's shard, of those that some axes make. -/
def shardNumber (axes : List Nat) (device : List Nat) : Nat :=
  axes.foldl (fun number axis => number * sharding.mesh.getD axis 0 + device.getD axis 0) 0

/-- Where a device's part of the whole tensor starts. -/
def origin (device : List Nat) : List Nat :=
  List.zipWith (fun axes size => sharding.shardNumber axes device * size) sharding.axes
    sharding.localShape

def wholeShape : List Nat :=
  List.zipWith (fun axes size => (axes.map fun axis => sharding.mesh.getD axis 0).prod * size)
    sharding.axes sharding.localShape

/-- The part of a whole tensor that each device has. -/
def localPart (whole : Tensor α) : OnDevices α := fun device =>
  { shape := sharding.localShape
    data index := whole.data (List.zipWith (· + ·) (sharding.origin device) index) }

/-- The sharding of what remains without some dimensions. -/
def kept (dims : List Nat) : Sharding where
  mesh := sharding.mesh
  axes := without dims 0 sharding.axes
  localShape := without dims 0 sharding.localShape

/-- The dimension is sharded along one whole axis, and others along none or others. -/
structure Along (dim meshAxis : Nat) : Prop where
  isAxis : meshAxis < sharding.mesh.length
  rank : sharding.axes.length = sharding.localShape.length
  within : dim < sharding.axes.length
  along : sharding.axes.getD dim [] = [meshAxis]
  alone : ∀ other, other ≠ dim → meshAxis ∉ sharding.axes.getD other []

end Sharding

/-- Each device's result has, for its part of the kept dimensions, what the whole one has there. -/
structure Sharding.IsWhole {β : Type} (sharding : Sharding) (dims : List Nat)
    (agree : α → β → Prop) (result : OnDevices α) (whole : Tensor β) : Prop where
  shape : ∀ device, Within device sharding.mesh →
    (result device).shape = (sharding.kept dims).localShape
  data : ∀ device, Within device sharding.mesh →
    ∀ index, Within index (sharding.kept dims).localShape → agree ((result device).data index)
      (((sharding.kept dims).localPart whole device).data index)

/-- What JAX's reductions to an index look for. -/
inductive ArgReduction where
  | argMin
  | argMax
  deriving DecidableEq, Repr

def ArgReduction.comparison : ArgReduction → ComparisonDirection
  | argMin => .LT
  | argMax => .GT

/-- The reducer of JAX's argmin or argmax: NaN first, then the extreme value, and the first index
of equal values. -/
def jaxReducer (reduction : ArgReduction) (type : ElementType) (indexType : IntegerType)
    (op acc : Element type × indexType.Word) : Element type × indexType.Word :=
  let pickOpVal := compareOp reduction.comparison type op.1 acc.1 || compareOp .NE type op.1 op.1
  let pickOpIndex := pickOpVal || (compareOp .EQ type op.1 acc.1 &&
    compareOp .LT (.integer indexType) op.2 acc.2)
  (if pickOpVal then op.1 else acc.1, if pickOpIndex then op.2 else acc.2)

/-- The value that JAX starts with: no number is greater, or none is less. -/
def jaxInitValue : ArgReduction → (type : ElementType) → Element type
  | .argMin, .integer type => type.constant type.largest
  | .argMax, .integer type => type.constant type.least
  | .argMin, .float format => .number format.greatest format.greatest_mem
  | .argMax, .float format => .number format.least format.least_mem

/-- JAX's argmin or argmax over some dimensions. -/
def jaxReduceOp (reduction : ArgReduction) (type : ElementType) (indexType : IntegerType)
    (dimensions : List Nat) : ReduceOp (Element type × indexType.Word) where
  dimensions := dimensions
  body := jaxReducer reduction type indexType
  initValue := (jaxInitValue reduction type, BitVec.ofNat indexType.width 0)

/-- A reduce over the whole tensor and its iota along `dim`, whose results only all-reduces use. -/
structure SourceReduce.IsArgReduce {type : ElementType} {indexType : IntegerType}
    (source : SourceReduce (Element type × indexType.Word)) (reduction : ArgReduction) (dim : Nat) :
    Prop where
  op : source.op = jaxReduceOp reduction type indexType [dim]
  numResults : source.numResults = 2
  slicedIota : isSlicedIota (source.inputs.getD 1 .other) dim = true
  users : .other ∉ source.users

/-- The index type has a number for each index along the dimension, and there is one. -/
structure Sharding.Indexed (sharding : Sharding) (dim : Nat) (indexType : IntegerType) : Prop where
  nonempty : 0 < sharding.wholeShape.getD dim 0
  fits : sharding.wholeShape.getD dim 0 ≤ indexType.largest + 1

/-- Adding a zero leaves a number or NaN what it is, up to the sign of a zero. -/
def ZeroSums (semantics : Semantics) (type : ElementType) : Prop :=
  ∀ value zero, number type zero = some 0 →
    number type (semantics.combine .add type value zero) = number type value ∧
      number type (semantics.combine .add type zero value) = number type value

end Libtt.ShardedReduce

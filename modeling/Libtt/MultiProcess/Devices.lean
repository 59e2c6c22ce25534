import Mathlib.Data.List.GetD
import Mathlib.Data.List.ReduceOption
import Libtt.Foundation.SharedStore
import Libtt.Store.Context

/-!
# Devices of a group of processes

`tt_xla_multi_process.patch`: every process publishes the mesh positions of its chips and its system
descriptor in the store, reads those of all processes and merges them into one descriptor by mesh
position, with the process that owns each position.
-/
namespace Libtt.MultiProcess

open Libtt.Foundation Libtt.KeyValue

/-- The bytes of a text. -/
def bytesOf (text : List Char) : Bytes := text.map fun letter => UInt8.ofNat letter.toNat

/-- The text that a stream reads bytes as. -/
def textOf (bytes : Bytes) : List Char := bytes.map fun byte => Char.ofNat byte.toNat

/-- What `operator>>` skips. -/
def isSpace (letter : Char) : Bool :=
  letter = ' ' || 9 ≤ letter.toNat && letter.toNat ≤ 13

/-- `operator>>` to a `size_t`, with the text after it; none where the stream fails. -/
def extractSize (text : List Char) : Option (Nat × List Char) :=
  let text := text.dropWhile isSpace
  let negative := text.head? = some '-'
  let text := if negative ∨ text.head? = some '+' then text.tail else text
  let digits := text.takeWhile Char.isDigit
  let value := Nat.ofDigitChars 10 digits 0
  if digits = [] ∨ 2 ^ 64 ≤ value then none
  else some (if negative then (2 ^ 64 - value) % 2 ^ 64 else value, text.dropWhile Char.isDigit)

variable {ChipDesc Capability Channel Others : Type}

/-- A system descriptor; `others` stands for the fields that the gathering keeps. -/
structure SystemDesc (ChipDesc Capability Channel Others : Type) where
  chipDescs : List ChipDesc
  chipDescIndices : List Nat
  chipCapabilities : List Capability
  chipChannels : List Channel
  others : Others
  deriving DecidableEq

/-- The flatbuffers of system descriptors. -/
structure Flatbuffers (Desc : Type) where
  storeToMemory : Desc → Bytes
  verify : Bytes → Bool
  unpack : Bytes → Desc

/-- What is read back is what was stored. -/
structure Flatbuffers.RoundTrips {Desc : Type} (flat : Flatbuffers Desc) : Prop where
  verified : ∀ desc, flat.verify (flat.storeToMemory desc) = true
  unpacked : ∀ desc, flat.unpack (flat.storeToMemory desc) = desc

/-- The order of pairs. -/
def pairLe (left right : Int × Int) : Bool :=
  left.1 < right.1 || left.1 = right.1 && left.2 ≤ right.2

/-- The local chips of a mapping, a physical ID where a device is local: the IDs with the mesh
positions, which are `int`s. -/
def localPairs (deviceIds : List (Option Int)) : List (Int × Int) :=
  (List.range deviceIds.length).filterMap fun i =>
    (deviceIds.getD i none).map fun physicalId => (physicalId, (Int32.ofNat i).toInt)

def localIds (deviceIds : List (Option Int)) : List (Int × Int) :=
  (localPairs deviceIds).insertionSort fun left right => pairLe left right = true

/-- The text of mesh positions. -/
def idsText (ids : List (Int × Int)) : List Char :=
  ids.flatMap fun id => (toString id.2).toList ++ [' ']

def deviceKey (process : Nat) (name : String) : String :=
  "libtt/devices/" ++ toString process ++ name

/-- What has been merged of the descriptors. -/
structure Merged (ChipDesc Capability : Type) where
  chipDescs : List (Option ChipDesc)
  chipCapabilities : List Capability
  owners : List Int

/-- `vector::at`. -/
def at? {α : Type} (elements : List α) (i : Nat) : Except String α :=
  match elements[i]? with
  | some element => .ok element
  | none => .error "vector::_M_range_check"

/-- Merges one chip of a process, at the next position of its text. -/
def mergeChip (count process : Nat) (remote : SystemDesc ChipDesc Capability Channel Others)
    (state : Merged ChipDesc Capability × List Char) (i : Nat) :
    Except String (Merged ChipDesc Capability × List Char) :=
  match extractSize state.2 with
  | none => .error "Inconsistent global device ownership"
  | some (id, text) =>
    if count ≤ id ∨ state.1.owners[id]? ≠ some (-1) then
      .error "Inconsistent global device ownership"
    else do
      let chipIndex := remote.chipDescIndices.getD i 0
      let chipDesc ← at? remote.chipDescs chipIndex
      let capability ← at? remote.chipCapabilities i
      return ({ chipDescs := state.1.chipDescs.set id (some chipDesc)
                chipCapabilities := state.1.chipCapabilities.set id capability
                owners := state.1.owners.set id process }, text)

/-- Merges what a process published. -/
def mergeProcess (count process : Nat) (remote : SystemDesc ChipDesc Capability Channel Others)
    (ids : Bytes) (merged : Merged ChipDesc Capability) :
    Except String (Merged ChipDesc Capability) := do
  let state ← (List.range remote.chipDescIndices.length).foldlM
    (mergeChip count process remote) (merged, textOf ids)
  return state.1

/-- A merged descriptor with the owners, or what was thrown. -/
abbrev Gathered (ChipDesc Capability Channel Others : Type) :=
  Except String (SystemDesc ChipDesc Capability Channel Others × List Int)

/-- Reads what the processes published, one after the other. -/
def mergeProcesses (flat : Flatbuffers (SystemDesc ChipDesc Capability Channel Others))
    (count : Nat)
    (finish : Merged ChipDesc Capability → Gathered ChipDesc Capability Channel Others) :
    List Nat → Merged ChipDesc Capability →
      Action String Bytes (Gathered ChipDesc Capability Channel Others)
  | [], merged => .done (finish merged)
  | process :: processes, merged => .get (deviceKey process "/desc") fun descriptor =>
    if flat.verify descriptor = false then .done (.error "Invalid remote system descriptor")
    else
      let remote := flat.unpack descriptor
      .get (deviceKey process "/ids") fun ids =>
        match mergeProcess count process remote ids merged with
        | .error message => .done (.error message)
        | .ok merged => mergeProcesses flat count finish processes merged

/-- The merged descriptor, where every position has an owner. -/
def packMerged (flat : Flatbuffers (SystemDesc ChipDesc Capability Channel Others))
    (count : Nat) (desc : SystemDesc ChipDesc Capability Channel Others)
    (merged : Merged ChipDesc Capability) : Gathered ChipDesc Capability Channel Others :=
  if -1 ∈ merged.owners then .error "A global mesh device has no owning process"
  else
    let desc := { desc with
      chipDescs := merged.chipDescs.reduceOption
      chipDescIndices := List.range count
      chipCapabilities := merged.chipCapabilities
      chipChannels := [] }
    .ok (flat.unpack (flat.storeToMemory desc), merged.owners)

/-- `vector::resize`. -/
def resize {α : Type} [Inhabited α] (elements : List α) (count : Nat) : List α :=
  elements.take count ++ List.replicate (count - elements.length) default

def gatherSystemDescriptors [Inhabited Capability]
    (flat : Flatbuffers (SystemDesc ChipDesc Capability Channel Others))
    (deviceIds : List (Option Int)) (desc : SystemDesc ChipDesc Capability Channel Others)
    (rank size : Nat) : Action String Bytes (Gathered ChipDesc Capability Channel Others) :=
  if (localIds deviceIds).length ≠ desc.chipDescIndices.length then
    .done (.error "System mesh and local descriptor disagree")
  else
    .put (deviceKey rank "/ids") (bytesOf (idsText (localIds deviceIds))) <|
    .put (deviceKey rank "/desc") (flat.storeToMemory desc) <|
      let count := deviceIds.length
      mergeProcesses flat count (packMerged flat count desc) (List.range size)
        { chipDescs := List.replicate count none
          chipCapabilities := resize desc.chipCapabilities count
          owners := List.replicate count (-1) }

/-- A device of the client. -/
structure DeviceInstance (ChipDesc : Type) where
  globalDeviceId : Nat
  isAddressable : Bool
  localDeviceId : Int
  chipDesc : Option ChipDesc
  processIndex : Int

/-- The devices, and how many of them are addressable, after one more. -/
def addDevice (processIndex processCount : Nat) (owners : List Int) (chipDescs : List ChipDesc)
    (state : List (DeviceInstance ChipDesc) × Nat) (i : Nat) :
    List (DeviceInstance ChipDesc) × Nat :=
  let owner : Int := if processCount > 1 then owners.getD i 0 else processIndex
  let isAddressable := owner = processIndex
  let localDeviceId : Int := if isAddressable then state.2 else -1
  (state.1 ++ [{
      globalDeviceId := i
      isAddressable := isAddressable
      localDeviceId := localDeviceId
      chipDesc := chipDescs[i]?
      processIndex := owner }],
    if isAddressable then state.2 + 1 else state.2)

def populateDevices (processIndex processCount : Nat) (owners : List Int)
    (desc : SystemDesc ChipDesc Capability Channel Others) : List (DeviceInstance ChipDesc) :=
  ((List.range desc.chipDescIndices.length).foldl
    (addDevice processIndex processCount owners desc.chipDescs) ([], 0)).1

/-- A process, by what it knows of its machine. -/
structure Machine (ChipDesc Capability Channel Others : Type) where
  deviceIds : List (Option Int)
  desc : SystemDesc ChipDesc Capability Channel Others

namespace Machine

variable (machine : Machine ChipDesc Capability Channel Others)

/-- A chip of the process is mapped to a position. -/
def Maps (position : Nat) : Prop :=
  ∃ physicalId, machine.deviceIds.getD position none = some physicalId

/-- The place of a position's chip among the process's chips, by physical ID. -/
def chipPlace (position : Nat) : Nat :=
  (List.range machine.deviceIds.length).countP fun other =>
    match machine.deviceIds.getD other none, machine.deviceIds.getD position none with
    | some otherId, some physicalId =>
      otherId < physicalId || otherId = physicalId && other < position
    | _, _ => false

/-- The descriptor that the process has for the chip at a position. -/
def chipDescAt (position : Nat) : Option ChipDesc :=
  machine.desc.chipDescIndices[machine.chipPlace position]?.bind fun chipIndex =>
    machine.desc.chipDescs[chipIndex]?

/-- The capabilities that the process has for the chip at a position. -/
def chipCapabilityAt (position : Nat) : Option Capability :=
  machine.desc.chipCapabilities[machine.chipPlace position]?

end Machine

/-- A result gives every position to the process that maps a chip to it. -/
structure OwnedByMappers (machines : Nat → Machine ChipDesc Capability Channel Others)
    (size count : Nat) (desc : SystemDesc ChipDesc Capability Channel Others) (owners : List Int) :
    Prop where
  length_eq : owners.length = count ∧ desc.chipDescs.length = count ∧
    desc.chipCapabilities.length = count ∧ desc.chipDescIndices = List.range count
  owned : ∀ position < count, ∃ owner < size,
    (∀ process < size, (machines process).Maps position ↔ process = owner) ∧
    owners[position]? = some (owner : Int) ∧
    (∃ chipDesc, (machines owner).chipDescAt position = some chipDesc ∧
      desc.chipDescs[position]? = some chipDesc) ∧
    ∃ capability, (machines owner).chipCapabilityAt position = some capability ∧
      desc.chipCapabilities[position]? = some capability

/-- A position that the processes cannot agree on: two of them map a chip to it, none does, or one
publishes what is no position. -/
def Faulty (machines : Nat → Machine ChipDesc Capability Channel Others) (size count : Nat) :
    Prop :=
  (∃ position < count, ∃ process < size, ∃ other < size, process ≠ other ∧
    (machines process).Maps position ∧ (machines other).Maps position) ∨
  (∃ position < count, ∀ process < size, ¬(machines process).Maps position) ∨
  ∃ process < size, ∃ id ∈ localIds (machines process).deviceIds,
    count ≤ (id.2 % 2 ^ 64).toNat

/-- The devices of a process, by the owners of the positions. -/
structure Addressed (processIndex : Nat) (owners : List Int)
    (devices : List (DeviceInstance ChipDesc)) : Prop where
  length_eq : devices.length = owners.length
  device : ∀ (i : Nat) (device : DeviceInstance ChipDesc), devices[i]? = some device →
    device.globalDeviceId = i ∧ owners[i]? = some device.processIndex ∧
    (device.isAddressable = true ↔ device.processIndex = processIndex) ∧
    device.localDeviceId =
      if device.isAddressable then ((owners.take i).count (processIndex : Int) : Int) else -1

end Libtt.MultiProcess

import Libtt.Allocator.ReplaySafety

/-!
# The trace cache

Runs of `capture_or_execute_trace` (`capture_or_execute_trace.cpp` and `trace_cache.cpp` as the
trace patches leave them). A run finds the entry of its key, stages the inputs that moved, and
replays a variant that was captured with the current buffers and whose footprint nothing overlaps,
or captures a new one. What the device does meanwhile is arbitrary: buffers come and go between
runs, and allocations and captures may fail.
-/
namespace Libtt.Trace.Cache

open Libtt.Allocator

/-- A runtime tensor: its handle, and the device buffer it holds with its address. -/
structure Tensor where
  handle : Nat
  buffer : Nat
  address : Nat

/-- The operation. Its device-resident inputs come first, the stageable ones last among them. -/
structure Op where
  inputs : Nat
  outputs : Nat
  deviceResidentInputCount : Nat
  stageableInputCount : Nat
  stageable_le : stageableInputCount ≤ deviceResidentInputCount
  deviceResident_le : deviceResidentInputCount ≤ inputs

def isDeviceResidentInput (op : Op) (inputIndex : Nat) : Bool :=
  inputIndex < op.deviceResidentInputCount

def isStageableInput (op : Op) (inputIndex : Nat) : Bool :=
  isDeviceResidentInput op inputIndex &&
    decide (inputIndex + op.stageableInputCount ≥ op.deviceResidentInputCount)

/-- What a capture recorded for one memory of an allocator. -/
structure Footprint where
  manager : Nat
  regions : AllocationFootprint
  sorted : Sorted regions

/-- A captured trace, which has a number of its own. -/
structure MeshTrace where
  id : Nat
  allocationFootprints : List Footprint

/-- The slots of a variant, by index. -/
structure TraceVariant where
  trace : MeshTrace
  inputTensors : Nat → Tensor
  outputTensors : Nat → Tensor
  ownedTensors : List Tensor

structure TraceData where
  variants : List TraceVariant
  stagedSlots : List (Option Tensor)

/-- The slot of a staged input. -/
def TraceData.stagedSlot (traceData : TraceData) (inputIndex : Nat) : Option Tensor :=
  traceData.stagedSlots[inputIndex]?.join

def isStaged (traceData : TraceData) (inputIndex : Nat) : Bool :=
  (traceData.stagedSlot inputIndex).isSome

/-- The runtime tensors: which of them are retained, and the handle of the next one. -/
structure Tensors where
  retain : Nat → Bool
  next : Nat

def Tensors.setRetain (tensors : Tensors) (tensor : Tensor) (retain : Bool) : Tensors :=
  { tensors with retain := Function.update tensors.retain tensor.handle retain }

variable {Key σ : Type} [DecidableEq Key]

structure TraceCache (Key : Type) where
  cache : Key → Option TraceData
  leastToMostRecentlyUsed : List Key

structure State (Key : Type) where
  traceCache : TraceCache Key
  tensors : Tensors

/-- The inputs of a run with what the device does in it. -/
structure Call (σ : Type) (op : Op) where
  inputs : Nat → Tensor
  /-- Whether an input is on device. The types of device-resident inputs say so. -/
  onDevice : Nat → Bool
  resident : ∀ i, isDeviceResidentInput op i = true → onDevice i = true
  /-- Whether an input has the version of a slot. -/
  sameVersion : Nat → Tensor → Bool
  isAllocated : Nat → Bool
  managers : Nat → BankManager σ
  /-- The buffers and addresses for staged inputs, until allocating fails. -/
  stagedSlots : List (Nat × Nat)
  /-- The buffers and addresses of new slots, unless allocating fails. -/
  slots : Option (Nat → Nat × Nat)
  /-- The captured trace, unless capturing fails. -/
  captured : Option MeshTrace

/-- `releaseOwnedTensors`, with the handles released so far. -/
def releaseOwnedTensors (liveTensorHandles : List Nat) :
    List Tensor → Tensors → List Nat → Tensors × List Nat
  | [], state, released => (state, released)
  | tensor :: tensors, state, released =>
    if tensor.handle ∈ liveTensorHandles ∨ tensor.handle ∈ released then
      releaseOwnedTensors liveTensorHandles tensors state released
    else
      releaseOwnedTensors liveTensorHandles tensors (state.setRetain tensor false)
        (tensor.handle :: released)

/-- The loop of `releaseTraceData` over the variants. -/
def releaseVariants : List TraceVariant → Tensors → List Nat → Tensors
  | [], state, _ => state
  | variant :: variants, state, released =>
    let (state, released) := releaseOwnedTensors [] variant.ownedTensors state released
    releaseVariants variants state released

/-- The loop of `releaseTraceData` over the staged slots. -/
def releaseStagedSlots : List (Option Tensor) → Tensors → Tensors
  | [], state => state
  | some slot :: slots, state => releaseStagedSlots slots (state.setRetain slot false)
  | none :: slots, state => releaseStagedSlots slots state

def releaseTraceData (traceData : TraceData) (state : Tensors) : Tensors :=
  releaseStagedSlots traceData.stagedSlots (releaseVariants traceData.variants state [])

/-- `evictOldestVariant` of an entry with the variant in front. -/
def evictOldestVariant (oldest : TraceVariant) (variants : List TraceVariant)
    (replacementTensors : List Tensor) (state : Tensors) : Tensors :=
  let liveTensorHandles := replacementTensors.map Tensor.handle ++
    variants.flatMap fun variant => variant.ownedTensors.map Tensor.handle
  (releaseOwnedTensors liveTensorHandles oldest.ownedTensors state []).1

def kMaxEntries : Nat := 16

def kMaxTraceVariants : Nat := 8

namespace State

variable (state : State Key)

def contains (key : Key) : Bool := (state.traceCache.cache key).isSome

def touch (key : Key) : State Key :=
  { state with traceCache := { state.traceCache with
      leastToMostRecentlyUsed := state.traceCache.leastToMostRecentlyUsed.erase key ++ [key] } }

def evictLeastRecentlyUsed : State Key :=
  match state.traceCache.leastToMostRecentlyUsed with
  | [] => state
  | entry :: rest =>
    match state.traceCache.cache entry with
    | none => { state with traceCache := { state.traceCache with leastToMostRecentlyUsed := rest } }
    | some traceData =>
      { traceCache := ⟨Function.update state.traceCache.cache entry none, rest⟩
        tensors := releaseTraceData traceData state.tensors }

theorem length_evictLeastRecentlyUsed :
    state.evictLeastRecentlyUsed.traceCache.leastToMostRecentlyUsed.length =
      state.traceCache.leastToMostRecentlyUsed.length - 1 := by
  unfold evictLeastRecentlyUsed
  split
  · next empty => rw [empty]; rfl
  · next listed =>
    split <;> rw [listed] <;> rfl

/-- The loop of `prepareForInsert`. -/
def makeRoom (state : State Key) : State Key :=
  if kMaxEntries ≤ state.traceCache.leastToMostRecentlyUsed.length then
    makeRoom state.evictLeastRecentlyUsed
  else state
termination_by state.traceCache.leastToMostRecentlyUsed.length
decreasing_by
  rw [length_evictLeastRecentlyUsed]
  have some : 0 < kMaxEntries := by decide
  omega

def prepareForInsert (key : Key) : State Key :=
  if state.contains key then state else state.makeRoom

/-- Set the entry of a key. -/
def setEntry (key : Key) (traceData : TraceData) (tensors : Tensors) : State Key :=
  { traceCache := { state.traceCache with
      cache := Function.update state.traceCache.cache key (some traceData) }
    tensors := tensors }

def insert (key : Key) (traceData : TraceData) : State Key :=
  let state := state.prepareForInsert key
  (state.setEntry key traceData state.tensors).touch key

end State

section
variable (algorithm : Algorithm σ) (op : Op) (call : Call σ op)

/-- `allocateTraceSlots`: the slots of device-resident inputs are the inputs, the others are new and
retained. -/
def allocateTraceSlots (state : Tensors) : Option ((Nat → Tensor) × (Nat → Tensor) × Tensors) :=
  call.slots.map fun slots =>
    let slot := fun i => ⟨state.next + i, (slots i).1, (slots i).2⟩
    (fun i => if isDeviceResidentInput op i then call.inputs i else slot i,
      fun i => slot (op.inputs + i),
      { retain := fun handle =>
          (decide (state.next ≤ handle ∧ handle < state.next + op.inputs + op.outputs) &&
            !isDeviceResidentInput op (handle - state.next)) || state.retain handle
        next := state.next + op.inputs + op.outputs })

/-- `updateTraceInputSlots`: the copies it makes, each an input and its slot. -/
def updateTraceInputSlots (traceData : TraceData) (inputSlots : Nat → Tensor)
    (deviceResidentOnly : Bool) : List (Tensor × Tensor) :=
  (List.range op.inputs).filterMap fun i =>
    let deviceResident := isDeviceResidentInput op i
    let staged := isStaged traceData i
    let stagedOnDevice := (!deviceResident || staged) && call.onDevice i
    if deviceResidentOnly && !deviceResident then none
    else if isStageableInput op i && !staged then none
    else if !stagedOnDevice && call.sameVersion i (inputSlots i) then none
    else some (call.inputs i, inputSlots i)

/-- `captureTrace`: the variant. -/
def captureTrace (trace : MeshTrace) (inputSlots outputSlots : Nat → Tensor) : TraceVariant where
  trace := trace
  inputTensors := inputSlots
  outputTensors := outputSlots
  ownedTensors :=
    ((List.range op.inputs).filter fun i => !isDeviceResidentInput op i).map inputSlots ++
      (List.range op.outputs).map outputSlots

def deviceInputsMatch (variant : TraceVariant) : Bool :=
  (List.range (op.deviceResidentInputCount - op.stageableInputCount)).all fun i =>
    call.isAllocated (variant.inputTensors i).buffer &&
      (call.inputs i).address == (variant.inputTensors i).address

/-- `is_mesh_trace_replay_safe`. -/
def isMeshTraceReplaySafe (trace : MeshTrace) : Except String Bool := do
  return !(← trace.allocationFootprints.anyM fun footprint =>
    (call.managers footprint.manager).hasLiveAllocationOverlap algorithm footprint.regions)

/-- The stageable inputs that came in another buffer than a variant was captured with. -/
def movedInputs (traceData : TraceData) (captured : TraceVariant) : List Nat :=
  (List.range op.inputs).filter fun i =>
    isStageableInput op i && !isStaged traceData i &&
      (!call.isAllocated (captured.inputTensors i).buffer ||
        (captured.inputTensors i).address != (call.inputs i).address)

/-- Evict variants until none is left. -/
def evictVariants : List TraceVariant → Tensors → Tensors
  | [], state => state
  | oldest :: variants, state =>
    evictVariants variants (evictOldestVariant oldest variants [] state)

/-- Allocate the slots of inputs, until that fails. -/
def stageInputs : List Nat → List (Nat × Nat) → TraceData → Tensors → Bool × TraceData × Tensors
  | [], _, traceData, state => (true, traceData, state)
  | _ :: _, [], traceData, state => (false, traceData, state)
  | i :: moved, (buffer, address) :: slots, traceData, state =>
    let slot : Tensor := ⟨state.next, buffer, address⟩
    stageInputs moved slots
      { traceData with stagedSlots := traceData.stagedSlots.set i (some slot) }
      ({ state with next := state.next + 1 }.setRetain slot true)

/-- `stageMovedInputs`, and whether it returns. -/
def stageMovedInputs (traceData : TraceData) (state : Tensors) : Bool × TraceData × Tensors :=
  match traceData.variants with
  | [] => (true, traceData, state)
  | captured :: variants =>
    let moved := movedInputs op call traceData captured
    if moved = [] then (true, traceData, state)
    else
      stageInputs moved call.stagedSlots { traceData with variants := [] }
        (evictVariants (captured :: variants) state)

/-- `useStagedSlots`. -/
def useStagedSlots (traceData : TraceData) (inputSlots : Nat → Tensor) : Nat → Tensor := fun i =>
  (traceData.stagedSlot i).getD (inputSlots i)

/-- The first element that passes a test, and the others. -/
def extractFirst {α : Type} (test : α → Except String Bool) :
    List α → Except String (Option (α × List α))
  | [] => .ok none
  | first :: rest => do
    if ← test first then
      return some (first, rest)
    else
      return (← extractFirst test rest).map fun (found, others) => (found, first :: others)

/-- What a run does: fail, or make copies and capture or replay a variant. -/
inductive Outcome where
  | threw
  | captured (copies : List (Tensor × Tensor)) (variant : TraceVariant)
  | replayed (copies : List (Tensor × Tensor)) (variant : TraceVariant)

/-- The variants that a run may replay. -/
def replayable (variant : TraceVariant) : Except String Bool :=
  if deviceInputsMatch op call variant then isMeshTraceReplaySafe algorithm op call variant.trace
  else .ok false

/-- The slots of a matching variant, or new ones. -/
def variantSlots (traceData : TraceData) (matching : Option TraceVariant) (state : Tensors) :
    Option ((Nat → Tensor) × (Nat → Tensor) × Tensors) :=
  match matching with
  | some variant => some (variant.inputTensors, variant.outputTensors, state)
  | none => (allocateTraceSlots op call state).map fun (inputSlots, outputSlots, state) =>
    (useStagedSlots traceData inputSlots, outputSlots, state)

/-- Make room for another variant, keeping the slots of a matching one. -/
def makeRoomForVariant (traceData : TraceData) (matching : Option TraceVariant) (state : Tensors) :
    TraceData × Tensors :=
  match traceData.variants with
  | [] => (traceData, state)
  | oldest :: variants =>
    if traceData.variants.length = kMaxTraceVariants then
      let replacementTensors := matching.toList.flatMap fun variant =>
        (List.range op.inputs).map variant.inputTensors ++
          (List.range op.outputs).map variant.outputTensors
      ({ traceData with variants := variants },
        evictOldestVariant oldest variants replacementTensors state)
    else (traceData, state)

/-- Capture another variant of an entry. -/
def captureVariant (traceData : TraceData) (state : Tensors) : Outcome × TraceData × Tensors :=
  let matching := traceData.variants.reverse.find? (deviceInputsMatch op call)
  let (traceData, state) := makeRoomForVariant op traceData matching state
  match variantSlots op call traceData matching state with
  | none => (.threw, traceData, state)
  | some (inputSlots, outputSlots, state) =>
    match call.captured with
    | none => (.threw, traceData, state)
    | some trace =>
      let variant := captureTrace op trace inputSlots outputSlots
      (.captured (updateTraceInputSlots op call traceData inputSlots true) variant,
        { traceData with variants := traceData.variants ++ [variant] }, state)

/-- The rest of `run` where the entry is cached. -/
def runEntry (traceData : TraceData) (state : Tensors) : Outcome × TraceData × Tensors :=
  match stageMovedInputs op call traceData state with
  | (false, traceData, state) => (.threw, traceData, state)
  | (true, traceData, state) =>
    match extractFirst (replayable algorithm op call) traceData.variants.reverse with
    | .error _ => (.threw, traceData, state)
    | .ok (some (variant, others)) =>
      (.replayed (updateTraceInputSlots op call traceData variant.inputTensors false) variant,
        { traceData with variants := others.reverse ++ [variant] }, state)
    | .ok none => captureVariant op call traceData state

/-- `run`. -/
def run (key : Key) (state : State Key) : Outcome × State Key :=
  match state.traceCache.cache key with
  | none =>
    let state := state.prepareForInsert key
    match allocateTraceSlots op call state.tensors with
    | none => (.threw, state)
    | some (inputSlots, outputSlots, tensors) =>
      let state := { state with tensors := tensors }
      match call.captured with
      | none => (.threw, state)
      | some trace =>
        let variant := captureTrace op trace inputSlots outputSlots
        let stagedSlots := List.replicate op.inputs none
        (.captured (updateTraceInputSlots op call ⟨[], stagedSlots⟩ inputSlots true) variant,
          state.insert key ⟨[variant], stagedSlots⟩)
  | some traceData =>
    let state := state.touch key
    let (outcome, traceData, tensors) := runEntry algorithm op call traceData state.tensors
    (outcome, state.setEntry key traceData tensors)

end

end Libtt.Trace.Cache

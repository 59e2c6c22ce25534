import Libtt.Foundation.SortedRanges

/-!
# Bank managers and the regions a capture touches

A `BankManager` (`bank_manager.cpp`) places buffers of one memory through one free-list allocator
for each of its allocator ids. While a trace is captured it records the region of every buffer it
allocates or frees; the merged regions are the footprint of the trace. Caches of occupied ranges
are left out: they only speed up the search for a place, whose result is an argument here.
-/
namespace Libtt.Allocator

open Libtt.Foundation

/-- `AllocationRegion`: the bytes from `begin` up to `end`, here `lower` and `upper`, of the
allocator that is the key. -/
abbrev AllocationRegion := KeyedRange Nat Nat

abbrev AllocationFootprint := List AllocationRegion

/-- `allocator::Algorithm`, the free list. -/
structure Algorithm (σ : Type) where
  /-- A place for so many bytes, from the bottom or the top and within a limit. -/
  allocate : σ → Nat → Bool → Nat → Option (Nat × σ)
  allocateAtAddress : σ → Nat → Nat → Option σ
  deallocate : σ → Nat → σ
  availableAddresses : σ → Nat → List (Nat × Nat)
  getAllocationSize : σ → Nat → Option Nat
  clear : σ → σ

/-- What a bank manager relies on, for free lists in a valid state over the bytes from `base` up
to `limit`: a free list holds ranges that are apart, and its operations do what they say. -/
structure Algorithm.Lawful {σ : Type} (algorithm : Algorithm σ) (valid : σ → Prop)
    (base limit : Nat) : Prop where
  positive {alloc address size} : valid alloc →
    algorithm.getAllocationSize alloc address = some size → 0 < size
  inside {alloc address size} : valid alloc →
    algorithm.getAllocationSize alloc address = some size → base ≤ address ∧ address + size ≤ limit
  apart {alloc address size other otherSize} : valid alloc →
    algorithm.getAllocationSize alloc address = some size →
    algorithm.getAllocationSize alloc other = some otherSize → address ≠ other →
      address + size ≤ other ∨ other + otherSize ≤ address
  /-- A new range may be larger than asked for. -/
  allocate {alloc size bottomUp bound address alloc'} : valid alloc →
    algorithm.allocate alloc size bottomUp bound = some (address, alloc') →
      valid alloc' ∧ algorithm.getAllocationSize alloc address = none ∧
      ∃ held ≥ size, algorithm.getAllocationSize alloc' =
        Function.update (algorithm.getAllocationSize alloc) address (some held)
  /-- Only an empty range is made larger. -/
  allocateAtAddress {alloc address size alloc'} : valid alloc →
    algorithm.allocateAtAddress alloc address size = some alloc' →
      valid alloc' ∧ algorithm.getAllocationSize alloc address = none ∧
      ∃ held ≥ size, (0 < size → held = size) ∧ algorithm.getAllocationSize alloc' =
        Function.update (algorithm.getAllocationSize alloc) address (some held)
  /-- A free range can be taken. -/
  fits {alloc address size} : valid alloc → 0 < size → base ≤ address → address + size ≤ limit →
    (∀ other held, algorithm.getAllocationSize alloc other = some held →
      address + size ≤ other ∨ other + held ≤ address) →
    (algorithm.allocateAtAddress alloc address size).isSome
  deallocate {alloc} (address : Nat) : valid alloc → valid (algorithm.deallocate alloc address) ∧
    algorithm.getAllocationSize (algorithm.deallocate alloc address) =
      Function.update (algorithm.getAllocationSize alloc) address none
  /-- The available ranges are the bytes that are not held. -/
  available {alloc} (byte : Nat) : valid alloc →
    ((∃ range ∈ algorithm.availableAddresses alloc 1, range.1 ≤ byte ∧ byte < range.2) ↔
      base ≤ byte ∧ byte < limit ∧ ∀ other held,
        algorithm.getAllocationSize alloc other = some held → byte < other ∨ other + held ≤ byte)
  availableApart {alloc} : valid alloc → (algorithm.availableAddresses alloc 1).Pairwise
    fun first second => first.2 ≤ second.1 ∨ second.2 ≤ first.1

/-- `BankManager`. -/
structure BankManager (σ : Type) where
  /-- `get_allocator_from_id`. -/
  allocators : Nat → Option σ
  /-- `allocator_dependencies_.allocator_ids()`. -/
  allocatorIds : List Nat
  /-- `allocator_dependencies_.dependencies`. -/
  dependencies : Nat → List Nat
  /-- The allocators whose buffers a placement of this one avoids. -/
  dependentAllocators : Nat → List Nat
  allocatedBuffers : Nat → List Nat
  trackingHighWaterMark : Bool
  allocationHighWaterMark : Nat
  deletionHighWaterMark : Nat
  allocationFootprint : AllocationFootprint

/-- `out_of_memory_handler_`, which acts on its owner and reports whether it freed memory. It
leaves the record of a capture alone. -/
structure OutOfMemoryHandler (σ ω : Type) where
  run : ω → BankManager σ → Except String Bool × ω × BankManager σ
  tracking (owner : ω) (manager : BankManager σ) :
    (run owner manager).2.2.trackingHighWaterMark = manager.trackingHighWaterMark
  footprint (owner : ω) (manager : BankManager σ) :
    (run owner manager).2.2.allocationFootprint = manager.allocationFootprint

namespace BankManager

variable {σ ω : Type} (algorithm : Algorithm σ) (manager : BankManager σ)

/-- `get_allocation_size` of one of the allocators. -/
def getAllocationSize (id : Nat) (address : Nat) : Option Nat :=
  (manager.allocators id).bind fun alloc => algorithm.getAllocationSize alloc address

/-- `record_allocation_region`. -/
def recordAllocationRegion (id : Nat) (address : Nat) (size : Nat) : BankManager σ :=
  if manager.trackingHighWaterMark then
    { manager with
      allocationFootprint := manager.allocationFootprint ++ [⟨id, address, address + size⟩] }
  else manager

def setAllocator (id : Nat) (alloc : σ) : BankManager σ :=
  { manager with allocators := Function.update manager.allocators id (some alloc) }

@[simp] theorem setAllocator_self (id : Nat) (alloc : σ) :
    (manager.setAllocator id alloc).allocators id = some alloc := Function.update_self ..

theorem setAllocator_other {id other : Nat} (different : other ≠ id) (alloc : σ) :
    (manager.setAllocator id alloc).allocators other = manager.allocators other :=
  Function.update_of_ne different ..

theorem setAllocator_same {id : Nat} {alloc : σ} (isAlloc : manager.allocators id = some alloc) :
    manager.setAllocator id alloc = manager := by
  rw [setAllocator, ← isAlloc, Function.update_eq_self]

theorem setAllocator_twice (id : Nat) (alloc alloc' : σ) :
    (manager.setAllocator id alloc).setAllocator id alloc' = manager.setAllocator id alloc' := by
  simp only [setAllocator, Function.update_idem]

/-- `allocated_buffers_[id].insert(address)`. -/
def insertBuffer (id : Nat) (address : Nat) : BankManager σ :=
  { manager with
    allocatedBuffers := Function.update manager.allocatedBuffers id
      ((manager.allocatedBuffers id).insert address) }

/-- `allocated_buffers_[id].erase(address)`. -/
def eraseBuffer (id : Nat) (address : Nat) : BankManager σ :=
  { manager with
    allocatedBuffers := Function.update manager.allocatedBuffers id
      ((manager.allocatedBuffers id).filter (· ≠ address)) }

def raiseAllocationHighWaterMark (last : Nat) : BankManager σ :=
  if manager.trackingHighWaterMark then
    { manager with allocationHighWaterMark := max manager.allocationHighWaterMark last }
  else manager

def raiseDeletionHighWaterMark (last : Nat) : BankManager σ :=
  if manager.trackingHighWaterMark then
    { manager with deletionHighWaterMark := max manager.deletionHighWaterMark last }
  else manager

/-- What `allocate_buffer` does with the address it found. -/
def placeBuffer (id : Nat) (alloc : σ) (address : Nat) (size : Nat) : BankManager σ :=
  (((manager.setAllocator id alloc).insertBuffer id address).raiseAllocationHighWaterMark
    (address + size)).recordAllocationRegion id address size

/-- `allocate_buffer` of `size` bytes in every bank. Where other allocators have to be avoided,
`placed` is the address that the search among them finds. -/
def allocateBuffer (handler : OutOfMemoryHandler σ ω) (owner : ω) (id size : Nat) (bottomUp : Bool)
    (limit : Nat) (placed : Option Nat) :
    Except String Nat × ω × BankManager σ :=
  match manager.allocators id with
  | none => (.error "Allocator not initialized!", owner, manager)
  | some alloc =>
    if manager.dependentAllocators id = [] then
      match algorithm.allocate alloc size bottomUp limit with
      | some (address, alloc) => (.ok address, owner, manager.placeBuffer id alloc address size)
      | none =>
        match handler.run owner manager with
        | (.error what, owner, manager) => (.error what, owner, manager)
        | (.ok false, owner, manager) => (.error "Out of Memory", owner, manager)
        | (.ok true, owner, manager) =>
          match (manager.allocators id).bind fun alloc =>
              algorithm.allocate alloc size bottomUp limit with
          | some (address, alloc) =>
            (.ok address, owner, manager.placeBuffer id alloc address size)
          | none => (.error "Out of Memory", owner, manager)
    else
      match placed.bind fun address =>
          (algorithm.allocateAtAddress alloc address size).map (address, ·) with
      | some (address, alloc) => (.ok address, owner, manager.placeBuffer id alloc address size)
      | none => (.error "Out of Memory", owner, manager)

/-- `deallocate_buffer`. -/
def deallocateBuffer (id : Nat) (address : Nat) : Except String Unit × BankManager σ :=
  match manager.allocators id with
  | none => (.error "Allocator not initialized!", manager)
  | some alloc =>
    let manager := match algorithm.getAllocationSize alloc address with
      | some size => (manager.raiseDeletionHighWaterMark (address + size)).recordAllocationRegion id
          address size
      | none => manager
    (.ok (), (manager.setAllocator id (algorithm.deallocate alloc address)).eraseBuffer id address)

/-- The inner loop of `deallocate_all`: one buffer. -/
def freeBuffer (id : Nat) (address : Nat) : BankManager σ :=
  match manager.allocators id with
  | none => manager
  | some alloc =>
    let manager := match algorithm.getAllocationSize alloc address with
      | some size => manager.recordAllocationRegion id address size
      | none => manager
    manager.setAllocator id (algorithm.deallocate alloc address)

/-- The outer loop of `deallocate_all`: the buffers of one allocator. -/
def freeBuffers (id : Nat) : BankManager σ :=
  let manager := (manager.allocatedBuffers id).foldl
    (fun manager address => manager.freeBuffer algorithm id address) manager
  { manager with allocatedBuffers := Function.update manager.allocatedBuffers id [] }

/-- `deallocate_all` for the allocators of a list. -/
def deallocateAllFrom (manager : BankManager σ) : List Nat → Except String Unit × BankManager σ
  | [] => (.ok (), manager)
  | id :: ids =>
    match manager.allocators id with
    | none => (.error "Allocator not initialized!", manager)
    | some _ => (manager.freeBuffers algorithm id).deallocateAllFrom ids

/-- `deallocate_all`. -/
def deallocateAll : Except String Unit × BankManager σ :=
  deallocateAllFrom algorithm manager manager.allocatorIds

/-- `mark_allocated`. -/
def markAllocated (id : Nat) (address : Nat) (size : Nat) :
    Except String Unit × BankManager σ :=
  match manager.allocators id with
  | none => (.error "Allocator not initialized!", manager)
  | some alloc =>
    match algorithm.allocateAtAddress alloc address size with
    | none => (.error "Failed to mark region as allocated", manager)
    | some alloc =>
      (.ok (), ((manager.setAllocator id alloc).insertBuffer id address).recordAllocationRegion id
        address size)

/-- `mark_deallocated`. -/
def markDeallocated (id : Nat) (address : Nat) : Except String Unit × BankManager σ :=
  match manager.allocators id with
  | none => (.error "Allocator not initialized!", manager)
  | some alloc =>
    if address ∉ manager.allocatedBuffers id then (.ok (), manager)
    else
      let manager := match algorithm.getAllocationSize alloc address with
        | some size => manager.recordAllocationRegion id address size
        | none => manager
      (.ok (), (manager.setAllocator id (algorithm.deallocate alloc address)).eraseBuffer id
        address)

/-- `begin_high_water_mark_tracking`. -/
def beginHighWaterMarkTracking : BankManager σ :=
  { manager with
    trackingHighWaterMark := true
    allocationHighWaterMark := 0
    deletionHighWaterMark := 0
    allocationFootprint := [] }

/-- `end_high_water_mark_tracking`. -/
def endHighWaterMarkTracking : Nat × BankManager σ :=
  (max manager.allocationHighWaterMark manager.deletionHighWaterMark,
    { manager with
      trackingHighWaterMark := false
      allocationFootprint := KeyedRange.coalesce manager.allocationFootprint })

/-- `take_allocation_footprint`. -/
def takeAllocationFootprint : AllocationFootprint × BankManager σ :=
  (manager.allocationFootprint, { manager with allocationFootprint := [] })

/-- Whether a test holds of a buffer of the allocator, given by its address and size. -/
def anyBuffer (id : Nat) (test : Nat → Nat → Bool) : Except String Bool :=
  match manager.allocators id with
  | none => .error s!"Allocator not initialized for ID {id}"
  | some alloc => (manager.allocatedBuffers id).anyM fun address =>
    match algorithm.getAllocationSize alloc address with
    | none => .error s!"Missing allocation size for address {address}"
    | some size => .ok (test address size)

/-- The test of a buffer against a run of sorted regions. The first region that ends after the
buffer starts is the only candidate. -/
def runOverlaps (run : AllocationFootprint) (address : Nat) (size : Nat) : Bool :=
  (run[upperBound (fun region => address < region.upper) run]?).any fun region =>
    region.lower < address + size

/-- `has_live_allocation_overlap`, a run of regions of one allocator after another. -/
def hasLiveAllocationOverlap (footprint : AllocationFootprint) : Except String Bool :=
  match footprint with
  | [] => .ok false
  | first :: rest =>
    let run := first :: rest.takeWhile fun region => region.key = first.key
    if ¬run.IsChain fun lhs rhs => ¬rhs.lower < lhs.upper then
      .error "Allocation footprint is not sorted and merged"
    else do
      if ← (first.key :: manager.dependencies first.key).anyM fun id =>
          manager.anyBuffer algorithm id (runOverlaps run) then
        return true
      hasLiveAllocationOverlap (rest.dropWhile fun region => region.key = first.key)
termination_by footprint.length
decreasing_by
  have shorter := (rest.dropWhile_sublist fun region => region.key = first.key).length_le
  simp only [List.length_cons]
  omega

/-- The test of a buffer against one region. -/
def regionOverlaps (region : AllocationRegion) (address : Nat) (size : Nat) : Bool :=
  region.lower < address + size && address < region.upper

/-- `has_live_allocation_overlap` as it was before runs: every region with every buffer. -/
def hasLiveAllocationOverlapPairwise (footprint : AllocationFootprint) : Except String Bool :=
  footprint.anyM fun region => (region.key :: manager.dependencies region.key).anyM fun id =>
    manager.anyBuffer algorithm id (regionOverlaps region)

end BankManager

end Libtt.Allocator

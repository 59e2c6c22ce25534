import Libtt.Allocator.ReplaySafety

/-!
# The DRAM reserved for captured traces

`AllocatorImpl` keeps the DRAM regions of the live traces' footprints out of the free list: it
allocates their free parts without tracking them as buffers. A capture, a release of a trace and a
reset of the allocator give the reservations up and, except for a reset, make them again; an
allocation that does not fit gives them up.
-/
namespace Libtt.Allocator

open Libtt.Foundation

section Model

variable {σ : Type} (algorithm : Algorithm σ)

namespace BankManager

variable (manager : BankManager σ)

/-- The loop of `reserve_free_regions` over the free ranges of one allocator. -/
def reserveFreeRanges (region : AllocationRegion) (alloc : σ) :
    List (Nat × Nat) → AllocationFootprint × σ
  | [] => ([], alloc)
  | (freeBegin, freeEnd) :: ranges =>
    let first := max region.lower freeBegin
    let last := min region.upper freeEnd
    if first ≥ last then reserveFreeRanges region alloc ranges
    else
      match algorithm.allocateAtAddress alloc first (last - first) with
      | some alloc =>
        let (reserved, alloc) := reserveFreeRanges region alloc ranges
        (⟨region.key, first, last⟩ :: reserved, alloc)
      | none => reserveFreeRanges region alloc ranges

/-- `reserve_free_regions`. -/
def reserveFreeRegions (manager : BankManager σ) :
    AllocationFootprint → Except String AllocationFootprint × BankManager σ
  | [] => (.ok [], manager)
  | region :: footprint =>
    match manager.allocators region.key with
    | none => (.error s!"Allocator not initialized for ID {region.key}", manager)
    | some alloc =>
      let (reserved, alloc) :=
        reserveFreeRanges algorithm region alloc (algorithm.availableAddresses alloc 1)
      match (manager.setAllocator region.key alloc).reserveFreeRegions footprint with
      | (.ok others, manager) => (.ok (reserved ++ others), manager)
      | (.error what, manager) => (.error what, manager)

/-- `release_reserved_regions`. -/
def releaseReservedRegions (manager : BankManager σ) :
    AllocationFootprint → Except String Unit × BankManager σ
  | [] => (.ok (), manager)
  | region :: reserved =>
    match manager.allocators region.key with
    | none => (.error s!"Allocator not initialized for ID {region.key}", manager)
    | some alloc =>
      -- Never free a buffer that took the address after the allocator was reset.
      if region.lower ∈ manager.allocatedBuffers region.key then
        manager.releaseReservedRegions reserved
      else
        (manager.setAllocator region.key
          (algorithm.deallocate alloc region.lower)).releaseReservedRegions reserved

/-- A release changes the free lists only. -/
theorem releaseReservedRegions_frame (manager : BankManager σ) (reserved : AllocationFootprint) :
    ∃ allocators, (manager.releaseReservedRegions algorithm reserved).2 =
      { manager with allocators := allocators } := by
  induction reserved generalizing manager with
  | nil => exact ⟨_, rfl⟩
  | cons region reserved ih =>
    rw [releaseReservedRegions]
    split
    · exact ⟨_, rfl⟩
    · split
      · exact ih manager
      · exact ih _

end BankManager

/-- `trace_dram_footprints_`, in order of the trace ids. -/
abbrev TraceFootprints := List (Nat × AllocationFootprint)

/-- `trace_dram_footprints_[traceId] = footprint`. -/
def TraceFootprints.set (traceId : Nat) (footprint : AllocationFootprint) :
    TraceFootprints → TraceFootprints
  | [] => [(traceId, footprint)]
  | (id, other) :: footprints =>
    if traceId < id then (traceId, footprint) :: (id, other) :: footprints
    else if traceId = id then (traceId, footprint) :: footprints
    else (id, other) :: TraceFootprints.set traceId footprint footprints

theorem TraceFootprints.mem_set {traceId : Nat} {footprint : AllocationFootprint}
    {footprints : TraceFootprints} {entry : Nat × AllocationFootprint}
    (member : entry ∈ footprints.set traceId footprint) :
    entry = (traceId, footprint) ∨ entry ∈ footprints := by
  induction footprints with
  | nil => exact .inl (List.mem_singleton.mp member)
  | cons first footprints ih =>
    rw [TraceFootprints.set] at member
    split at member
    · exact List.mem_cons.mp member
    · split at member
      · exact (List.mem_cons.mp member).imp_right (List.mem_cons_of_mem _)
      · rcases List.mem_cons.mp member with equal | member
        · exact .inr (equal ▸ List.mem_cons_self)
        · exact (ih member).imp_right (List.mem_cons_of_mem _)

/-- `trace_dram_footprints_.erase(traceId)`. -/
def TraceFootprints.erase (footprints : TraceFootprints) (traceId : Nat) : TraceFootprints :=
  footprints.filter fun entry => entry.1 ≠ traceId

/-- The handler that `init_one_bank_per_channel` sets, on the reservations. -/
def outOfMemoryHandler : OutOfMemoryHandler σ AllocationFootprint where
  run reservations manager :=
    if reservations = [] then (.ok false, reservations, manager)
    else
      match manager.releaseReservedRegions algorithm reservations with
      | (.ok (), manager) => (.ok true, [], manager)
      | (.error what, manager) => (.error what, reservations, manager)
  tracking reservations manager := by
    obtain ⟨allocators, equal⟩ :=
      manager.releaseReservedRegions_frame algorithm reservations
    split
    · rfl
    · split <;> simp_all
  footprint reservations manager := by
    obtain ⟨allocators, equal⟩ :=
      manager.releaseReservedRegions_frame algorithm reservations
    split
    · rfl
    · split <;> simp_all

/-- The DRAM of an `AllocatorImpl`. -/
structure AllocatorImpl (σ : Type) where
  dramManager : BankManager σ
  traceDramFootprints : TraceFootprints
  traceDramReservations : AllocationFootprint

namespace AllocatorImpl

variable (self : AllocatorImpl σ)

/-- `release_trace_dram_reservations`. -/
def releaseTraceDramReservations : Except String Unit × AllocatorImpl σ :=
  match self.dramManager.releaseReservedRegions algorithm self.traceDramReservations with
  | (.ok (), manager) =>
    (.ok (), { self with dramManager := manager, traceDramReservations := [] })
  | (.error what, manager) => (.error what, { self with dramManager := manager })

/-- The loop of `refresh_trace_dram_reservations`. -/
def reserveFootprints (self : AllocatorImpl σ) :
    TraceFootprints → Except String Unit × AllocatorImpl σ
  | [] => (.ok (), self)
  | (_, footprint) :: footprints =>
    match self.dramManager.reserveFreeRegions algorithm footprint with
    | (.ok reserved, manager) =>
      AllocatorImpl.reserveFootprints
        { self with
          dramManager := manager
          traceDramReservations := self.traceDramReservations ++ reserved } footprints
    | (.error what, manager) => (.error what, { self with dramManager := manager })

/-- `refresh_trace_dram_reservations`. -/
def refreshTraceDramReservations : Except String Unit × AllocatorImpl σ :=
  match self.releaseTraceDramReservations algorithm with
  | (.ok (), self) => self.reserveFootprints algorithm self.traceDramFootprints
  | (.error what, self) => (.error what, self)

/-- `add_trace_dram_footprint`. -/
def addTraceDramFootprint (traceId : Nat) (footprint : AllocationFootprint) :
    Except String Unit × AllocatorImpl σ :=
  let self := if footprint ≠ [] then
    { self with traceDramFootprints := self.traceDramFootprints.set traceId footprint }
    else self
  self.refreshTraceDramReservations algorithm

/-- `remove_trace_dram_footprint`. -/
def removeTraceDramFootprint (traceId : Nat) : Except String Unit × AllocatorImpl σ :=
  let self := { self with traceDramFootprints := self.traceDramFootprints.erase traceId }
  self.refreshTraceDramReservations algorithm

/-- `suspend_trace_dram_reservations`. -/
def suspendTraceDramReservations : Except String Unit × AllocatorImpl σ :=
  self.releaseTraceDramReservations algorithm

/-- `deallocate_buffers`. -/
def deallocateBuffers : Except String Unit × AllocatorImpl σ :=
  match self.releaseTraceDramReservations algorithm with
  | (.ok (), self) =>
    let (result, manager) := self.dramManager.deallocateAll algorithm
    (result, { self with dramManager := manager, traceDramFootprints := [] })
  | (.error what, self) => (.error what, self)

/-- `clear`, where `reset` is the clear of the bank manager. -/
def clear (reset : BankManager σ → BankManager σ) : AllocatorImpl σ where
  dramManager := reset self.dramManager
  traceDramFootprints := []
  traceDramReservations := []

/-- What `begin_mesh_trace` does with the allocator of the mesh. -/
def beginMeshTrace : Except String Unit × AllocatorImpl σ :=
  match self.suspendTraceDramReservations algorithm with
  | (.ok (), self) =>
    (.ok (), { self with dramManager := self.dramManager.beginHighWaterMarkTracking })
  | (.error what, self) => (.error what, self)

/-- What `end_mesh_trace` does with it: `end_trace_allocation_tracking` and the footprint. -/
def endMeshTrace (traceId : Nat) : Except String Unit × AllocatorImpl σ :=
  let (footprint, manager) :=
    self.dramManager.endHighWaterMarkTracking.2.takeAllocationFootprint
  { self with dramManager := manager }.addTraceDramFootprint algorithm traceId footprint

/-- What `release_mesh_trace` does with it. -/
def releaseMeshTrace (traceId : Nat) : Except String Unit × AllocatorImpl σ :=
  self.removeTraceDramFootprint algorithm traceId

/-- An operation on DRAM buffers, with the handler of the allocator. -/
def onBuffers (operation : Operation) : AllocatorImpl σ :=
  let (reservations, manager) := operation.apply algorithm (outOfMemoryHandler algorithm)
    (self.traceDramReservations, self.dramManager)
  { self with dramManager := manager, traceDramReservations := reservations }

end AllocatorImpl

/-- The calls that change the allocator's DRAM. -/
inductive Event where
  | beginMeshTrace
  | endMeshTrace (traceId : Nat)
  | releaseMeshTrace (traceId : Nat)
  | buffers (operation : Operation)
  | deallocateBuffers
  | clear

/-- A buffer is deallocated once, while it is live. -/
def Event.Proper (self : AllocatorImpl σ) : Event → Prop
  | buffers (.deallocateBuffer id address) => address ∈ self.dramManager.allocatedBuffers id
  | _ => True

variable (reset : BankManager σ → BankManager σ)

/-- What a call does, with the result it returns or throws. -/
def Event.apply (self : AllocatorImpl σ) : Event → Except String Unit × AllocatorImpl σ
  | beginMeshTrace => self.beginMeshTrace algorithm
  | endMeshTrace traceId => self.endMeshTrace algorithm traceId
  | releaseMeshTrace traceId => self.releaseMeshTrace algorithm traceId
  | buffers operation => (.ok (), self.onBuffers algorithm operation)
  | deallocateBuffers => self.deallocateBuffers algorithm
  | clear => (.ok (), self.clear reset)

/-- The clear of the bank manager empties the free lists and forgets the buffers. -/
structure Resets (valid : σ → Prop) : Prop where
  valid (manager : BankManager σ) (id : Nat) : ∀ alloc ∈ (reset manager).allocators id, valid alloc
  empty (manager : BankManager σ) (id address : Nat) :
    (reset manager).getAllocationSize algorithm id address = none
  untracked (manager : BankManager σ) (id : Nat) : (reset manager).allocatedBuffers id = []
  initialized (manager : BankManager σ) (id : Nat) :
    ((reset manager).allocators id).isSome = (manager.allocators id).isSome
  footprint (manager : BankManager σ) :
    (reset manager).allocationFootprint = manager.allocationFootprint

/-- An allocator whose free lists hold nothing yet. -/
structure AllocatorImpl.Fresh (valid : σ → Prop) (impl : AllocatorImpl σ) : Prop where
  valid (id : Nat) : ∀ alloc ∈ impl.dramManager.allocators id, valid alloc
  empty (id address : Nat) : impl.dramManager.getAllocationSize algorithm id address = none
  untracked (id : Nat) : impl.dramManager.allocatedBuffers id = []
  unrecorded : impl.dramManager.allocationFootprint = []
  footprints : impl.traceDramFootprints = []
  reservations : impl.traceDramReservations = []

/-- The allocators that calls lead to. -/
inductive AllocatorImpl.Reachable (valid : σ → Prop) : AllocatorImpl σ → Prop where
  | start {self : AllocatorImpl σ} (fresh : self.Fresh algorithm valid) : Reachable valid self
  | step {self : AllocatorImpl σ} (reachable : Reachable valid self) {event : Event}
      (proper : event.Proper self) : Reachable valid (event.apply algorithm reset self).2

end Model

end Libtt.Allocator

import Libtt.Allocator.Pool

/-!
# The reserved DRAM is consistent

In every reachable allocator the free lists hold the live buffers and the reservations and nothing
else, and the reservations lie in the footprints of the live traces.
-/
namespace Libtt.Allocator

open Libtt.Foundation

section Manager

variable {σ : Type} {algorithm : Algorithm σ} {valid : σ → Prop} {base limit : Nat}
  {manager manager' : BankManager σ} {reserved : AllocationFootprint}
  (lawful : algorithm.Lawful valid base limit)
include lawful

namespace BankManager

/-- A release frees the regions of the list and changes the free lists only. -/
structure Releases (algorithm : Algorithm σ) (valid : σ → Prop) (before after : BankManager σ)
    (regions : AllocationFootprint) : Prop where
  valid : ∀ id, ∀ alloc ∈ after.allocators id, valid alloc
  sameIds : before.SameIds after
  free : ∀ region ∈ regions, after.held algorithm region.key region.lower = none
  others : ∀ id address, (∀ region ∈ regions, ¬(region.key = id ∧ region.lower = address)) →
    after.held algorithm id address = before.held algorithm id address
  buffers : after.allocatedBuffers = before.allocatedBuffers
  footprint : after.allocationFootprint = before.allocationFootprint

theorem releaseReservedRegions_releases {regions : AllocationFootprint}
    (isValid : ∀ id, ∀ alloc ∈ manager.allocators id, valid alloc)
    (exist : ∀ region ∈ regions, (manager.allocators region.key).isSome)
    (untracked : ∀ region ∈ regions, ¬manager.Tracked region.key region.lower) :
    (manager.releaseReservedRegions algorithm regions).1 = .ok () ∧
      manager.Releases algorithm valid (manager.releaseReservedRegions algorithm regions).2
        regions := by
  induction regions generalizing manager with
  | nil => exact ⟨rfl, isValid, .refl manager, nofun, fun _ _ _ => rfl, rfl, rfl⟩
  | cons region regions ih =>
    obtain ⟨alloc, isAlloc⟩ := Option.isSome_iff_exists.mp (exist region (by simp))
    obtain ⟨allocValid, changed⟩ :=
      lawful.deallocate region.lower (isValid region.key alloc isAlloc)
    have same := setAllocator_sameIds isAlloc (algorithm.deallocate alloc region.lower)
    obtain ⟨isOk, released⟩ := ih (setAllocator_valid isValid allocValid)
      (fun other member => (same other.key).trans (exist other (List.mem_cons_of_mem _ member)))
      (fun other member => untracked other (List.mem_cons_of_mem _ member))
    have step := held_setAllocator isAlloc changed
    rw [releaseReservedRegions, isAlloc]
    simp only [if_neg (show region.lower ∉ manager.allocatedBuffers region.key from
      untracked region (by simp))]
    refine ⟨isOk, released.valid, same.trans released.sameIds, fun other member => ?_,
      fun id address none => ?_, released.buffers, released.footprint⟩
    · by_cases later : ∃ again ∈ regions, SameStart again other
      · obtain ⟨again, isAgain, sameKey, sameLower⟩ := later
        rw [← sameKey, ← sameLower]
        exact released.free again isAgain
      · have isRegion : other = region := (List.mem_cons.mp member).resolve_right
          fun member => later ⟨other, member, rfl, rfl⟩
        rw [released.others _ _ fun again member start => later ⟨again, member, start⟩, step,
          isRegion, Holdings.set, if_pos ⟨rfl, rfl⟩]
    · rw [released.others id address fun other member =>
        none other (List.mem_cons_of_mem _ member), step, Holdings.set,
        if_neg fun start => none region (by simp) ⟨start.1.symm, start.2.symm⟩]

/-- What a release does to a manager with its reservations. -/
theorem Good.release (good : manager.Good algorithm valid base limit reserved) :
    (manager.releaseReservedRegions algorithm reserved).1 = .ok () ∧
      manager.Releases algorithm valid (manager.releaseReservedRegions algorithm reserved).2
        reserved ∧
      (manager.releaseReservedRegions algorithm reserved).2.Good algorithm valid base limit [] := by
  have exist : ∀ region ∈ reserved, (manager.allocators region.key).isSome := by
    intro region member
    have isHeld := (good.pool.kept region member).2.1
    cases isAlloc : manager.allocators region.key with
    | none =>
      rw [held, getAllocationSize, isAlloc] at isHeld
      cases isHeld
    | some alloc => rfl
  obtain ⟨isOk, released⟩ := releaseReservedRegions_releases lawful good.valid exist
    fun region member => (good.pool.kept region member).2.2
  refine ⟨isOk, released, released.valid, ?_, fun region member => ?_⟩
  · have tracked : (manager.releaseReservedRegions algorithm reserved).2.Tracked =
        manager.Tracked := by
      funext id address
      rw [Tracked, Tracked, released.buffers]
    rw [tracked]
    exact good.pool.release released.free released.others
  · exact released.sameIds.inside (good.recorded region (released.footprint ▸ member))

omit lawful in
/-- A release keeps every tracked buffer. -/
theorem Releases.keeps {regions : AllocationFootprint}
    (released : manager.Releases algorithm valid manager' regions)
    (good : manager.Good algorithm valid base limit regions) {id address : Nat}
    (tracked : manager.Tracked id address) :
    manager'.held algorithm id address = manager.held algorithm id address := by
  apply released.others
  rintro region member ⟨rfl, rfl⟩
  exact (good.pool.kept region member).2.2 tracked

/-- A byte of the memory that the free list does not hold. -/
def FreeByte (algorithm : Algorithm σ) (base limit : Nat) (alloc : σ) (byte : Nat) : Prop :=
  base ≤ byte ∧ byte < limit ∧ ∀ other held,
    algorithm.getAllocationSize alloc other = some held → byte < other ∨ other + held ≤ byte

/-- A range of free bytes can be taken. -/
theorem exists_allocateAtAddress {alloc : σ} (isValid : valid alloc) {first last : Nat}
    (order : first < last)
    (free : ∀ byte, first ≤ byte → byte < last → FreeByte algorithm base limit alloc byte) :
    ∃ alloc', algorithm.allocateAtAddress alloc first (last - first) = some alloc' := by
  apply Option.isSome_iff_exists.mp
  have low := (free first (Nat.le_refl _) order).1
  have high := (free (last - 1) (by omega) (by omega)).2.1
  refine lawful.fits isValid (by omega) low (by omega) fun other size isHeld => ?_
  -- Otherwise the ranges have a byte in common.
  by_contra common
  have positive := lawful.positive isValid isHeld
  have byte := (free (max first other) (by omega) (by omega)).2.2 other size isHeld
  omega

/-- The loop over free ranges takes their parts in the region. -/
theorem reserveFreeRanges_takes {region : AllocationRegion} {alloc : σ} (ranges : List (Nat × Nat))
    (isAlloc : manager.allocators region.key = some alloc) (isValid : valid alloc)
    (apart : ranges.Pairwise fun first second => first.2 ≤ second.1 ∨ second.2 ≤ first.1)
    (free : ∀ range ∈ ranges, ∀ byte, range.1 ≤ byte → byte < range.2 →
      FreeByte algorithm base limit alloc byte) :
    let result := reserveFreeRanges algorithm region alloc ranges
    valid result.2 ∧
      Takes (manager.held algorithm) ((manager.setAllocator region.key result.2).held algorithm)
        result.1 ∧
      (∀ other ∈ result.1, region.key = other.key ∧ region.lower ≤ other.lower ∧
        other.upper ≤ region.upper) ∧
      ∀ byte, region.lower ≤ byte → byte < region.upper →
        (∃ range ∈ ranges, range.1 ≤ byte ∧ byte < range.2) →
          ∃ other ∈ result.1, other.lower ≤ byte ∧ byte < other.upper := by
  induction ranges generalizing manager alloc with
  | nil =>
    refine ⟨isValid, ?_, nofun, nofun⟩
    simp only [reserveFreeRanges, manager.setAllocator_same isAlloc]
    exact .refl _
  | cons range ranges ih =>
    obtain ⟨freeBegin, freeEnd⟩ := range
    obtain ⟨here, others⟩ := List.pairwise_cons.mp apart
    simp only [reserveFreeRanges]
    by_cases empty : max region.lower freeBegin ≥ min region.upper freeEnd
    · -- The range has no part in the region.
      rw [if_pos empty]
      obtain ⟨isValid', takes, contained, covers⟩ := ih isAlloc isValid others
        fun range member => free range (List.mem_cons_of_mem _ member)
      refine ⟨isValid', takes, contained, ?_⟩
      rintro byte low high ⟨range, member, above, below⟩
      rcases List.mem_cons.mp member with equal | member
      · subst equal
        omega
      · exact covers byte low high ⟨range, member, above, below⟩
    · rw [if_neg empty]
      obtain ⟨alloc', taken⟩ := exists_allocateAtAddress lawful isValid (Nat.lt_of_not_le empty)
        fun byte low high => free _ List.mem_cons_self byte (by omega) (by omega)
      obtain ⟨isValid', isFree, held, _, exact, changed⟩ := lawful.allocateAtAddress isValid taken
      rw [exact (Nat.sub_pos_of_lt (Nat.lt_of_not_le empty))] at changed
      -- The other ranges are still free.
      have free' : ∀ range ∈ ranges, ∀ byte, range.1 ≤ byte → byte < range.2 →
          FreeByte algorithm base limit alloc' byte := by
        intro range member byte above below
        obtain ⟨low, high, unheld⟩ := free range (List.mem_cons_of_mem _ member) byte above below
        refine ⟨low, high, fun other size isHeld => ?_⟩
        rw [changed] at isHeld
        by_cases same : other = max region.lower freeBegin
        · rw [same, Function.update_self] at isHeld
          have size := Option.some.inj isHeld
          have gap := here range member
          omega
        · rw [Function.update_of_ne same] at isHeld
          exact unheld other size isHeld
      obtain ⟨isValid'', takes, contained, covers⟩ :=
        ih (manager.setAllocator_self region.key alloc') isValid' others free'
      rw [manager.setAllocator_twice] at takes
      have step := held_setAllocator isAlloc changed
      have first : Takes (manager.held algorithm)
          ((manager.setAllocator region.key alloc').held algorithm)
          [⟨region.key, max region.lower freeBegin, min region.upper freeEnd⟩] := by
        refine ⟨fun other member => ?_, fun id address none => ?_, List.pairwise_singleton _ _⟩
        · rw [List.mem_singleton.mp member]
          refine ⟨Nat.lt_of_not_le empty, (held_eq isAlloc _).trans isFree, ?_⟩
          rw [step, Holdings.set, if_pos ⟨rfl, rfl⟩]
        · rw [step, Holdings.set, if_neg fun same =>
            none _ List.mem_cons_self ⟨same.1.symm, same.2.symm⟩]
      simp only [taken]
      refine ⟨isValid'', first.trans takes, fun other member => ?_, ?_⟩
      · rcases List.mem_cons.mp member with equal | member
        · subst equal
          exact ⟨rfl, Nat.le_max_left _ _, Nat.min_le_left _ _⟩
        · exact contained other member
      · rintro byte low high ⟨range, member, above, below⟩
        rcases List.mem_cons.mp member with equal | member
        · subst equal
          exact ⟨_, List.mem_cons_self, by simp only; omega, by simp only; omega⟩
        · obtain ⟨other, isOther, bounds⟩ := covers byte low high ⟨range, member, above, below⟩
          exact ⟨other, List.mem_cons_of_mem _ isOther, bounds⟩

/-- Reservations are made of the free parts of the footprint, and the free lists alone change. -/
structure Reserves (algorithm : Algorithm σ) (valid : σ → Prop) (before after : BankManager σ)
    (footprint regions : AllocationFootprint) : Prop where
  valid : ∀ id, ∀ alloc ∈ after.allocators id, valid alloc
  sameIds : before.SameIds after
  takes : Takes (before.held algorithm) (after.held algorithm) regions
  contained : ∀ region ∈ regions, ∃ whole ∈ footprint, whole.key = region.key ∧
    whole.lower ≤ region.lower ∧ region.upper ≤ whole.upper
  filled : ∀ region ∈ footprint, Filled (after.held algorithm) region
  buffers : after.allocatedBuffers = before.allocatedBuffers
  footprint : after.allocationFootprint = before.allocationFootprint

theorem reserveFreeRegions_reserves {footprint : AllocationFootprint}
    (isValid : ∀ id, ∀ alloc ∈ manager.allocators id, valid alloc)
    (inside : ∀ region ∈ footprint, manager.Inside base limit region) :
    ∃ regions after, manager.reserveFreeRegions algorithm footprint = (.ok regions, after) ∧
      manager.Reserves algorithm valid after footprint regions := by
  induction footprint generalizing manager with
  | nil => exact ⟨[], manager, rfl, isValid, .refl manager, .refl _, nofun, nofun, rfl, rfl⟩
  | cons region footprint ih =>
    obtain ⟨isSome, low, _, high⟩ := inside region (by simp)
    obtain ⟨alloc, isAlloc⟩ := Option.isSome_iff_exists.mp isSome
    have allocValid := isValid region.key alloc isAlloc
    obtain ⟨isValid', takes, contained, covers⟩ := reserveFreeRanges_takes lawful
      (algorithm.availableAddresses alloc 1) isAlloc allocValid
      (lawful.availableApart allocValid) fun range member byte above below =>
        (lawful.available byte allocValid).mp ⟨range, member, above, below⟩
    generalize made : reserveFreeRanges algorithm region alloc
      (algorithm.availableAddresses alloc 1) = result at isValid' takes contained covers
    obtain ⟨here, alloc'⟩ := result
    have same := setAllocator_sameIds isAlloc alloc'
    obtain ⟨others, after, isOk, reserves⟩ := ih (setAllocator_valid isValid isValid')
      fun other member => same.inside (inside other (List.mem_cons_of_mem _ member))
    refine ⟨here ++ others, after, ?_, reserves.valid, same.trans reserves.sameIds,
      takes.trans reserves.takes, fun other member => ?_, fun other member => ?_,
      reserves.buffers, reserves.footprint⟩
    · rw [reserveFreeRegions, isAlloc]
      simp only [made, isOk]
    · rcases List.mem_append.mp member with member | member
      · exact ⟨region, by simp, contained other member⟩
      · obtain ⟨whole, isWhole, bounds⟩ := reserves.contained other member
        exact ⟨whole, List.mem_cons_of_mem _ isWhole, bounds⟩
    · rcases List.mem_cons.mp member with equal | member
      · subst equal
        refine (takes.trans reserves.takes).filled fun byte above below => ?_
        -- A byte is held already, or it is in an available range.
        by_cases isHeld : ∃ held size, algorithm.getAllocationSize alloc held = some size ∧
            held ≤ byte ∧ byte < held + size
        · obtain ⟨held, size, has, bounds⟩ := isHeld
          exact .inl ⟨held, size, (held_eq isAlloc held).trans has, bounds⟩
        · have free : FreeByte algorithm base limit alloc byte := by
            refine ⟨by omega, by omega, fun held size has => ?_⟩
            by_contra common
            exact isHeld ⟨held, size, has, by omega, by omega⟩
          obtain ⟨other', isOther, bounds⟩ :=
            covers byte above below ((lawful.available byte allocValid).mpr free)
          exact .inr ⟨other', List.mem_append_left _ isOther, (contained other' isOther).1, bounds⟩
      · exact reserves.filled other member

/-- What making reservations does to a manager. -/
theorem Good.reserve (good : manager.Good algorithm valid base limit reserved)
    {footprint : AllocationFootprint}
    (inside : ∀ region ∈ footprint, manager.Inside base limit region) :
    ∃ regions after, manager.reserveFreeRegions algorithm footprint = (.ok regions, after) ∧
      manager.Reserves algorithm valid after footprint regions ∧
      after.Good algorithm valid base limit (reserved ++ regions) := by
  obtain ⟨regions, after, isOk, reserves⟩ :=
    reserveFreeRegions_reserves lawful good.valid inside
  refine ⟨regions, after, isOk, reserves, reserves.valid, ?_, fun region member => ?_⟩
  · have tracked : after.Tracked = manager.Tracked := by
      funext id address
      rw [Tracked, Tracked, reserves.buffers]
    rw [tracked]
    exact good.pool.reserve reserves.takes
  · exact reserves.sameIds.inside (good.recorded region (reserves.footprint ▸ member))

theorem Good.placeBuffer (good : manager.Good algorithm valid base limit reserved)
    {id address size held : Nat} {alloc alloc' : σ} (isAlloc : manager.allocators id = some alloc)
    (isValid : valid alloc') (free : algorithm.getAllocationSize alloc address = none)
    (fits : size ≤ held) (changed : algorithm.getAllocationSize alloc' =
      Function.update (algorithm.getAllocationSize alloc) address (some held)) :
    (manager.placeBuffer id alloc' address size).Good algorithm valid base limit reserved ∧
      manager.SameIds (manager.placeBuffer id alloc' address size) := by
  obtain ⟨placed, same, inside⟩ := good.place lawful isAlloc isValid free fits changed
  obtain ⟨raised, allocators⟩ := placed.raiseAllocation (address + size)
  obtain ⟨recorded, same'⟩ := raised.record ⟨allocators ▸ inside.1, inside.2⟩
  refine ⟨recorded, same.trans fun other => ?_⟩
  rw [← allocators]
  exact same' other

theorem Good.allocateBuffer (good : manager.Good algorithm valid base limit reserved)
    (id size : Nat) (bottomUp : Bool) (bound : Nat) (placed : Option Nat) :
    let result := (manager.allocateBuffer algorithm (outOfMemoryHandler algorithm) reserved id size
      bottomUp bound placed).2
    result.2.Good algorithm valid base limit result.1 ∧ manager.SameIds result.2 ∧
      (result.1 = reserved ∨ result.1 = []) := by
  simp only [BankManager.allocateBuffer]
  cases isAlloc : manager.allocators id with
  | none => exact ⟨good, .refl manager, .inl rfl⟩
  | some alloc =>
    have isValid := good.valid id alloc isAlloc
    by_cases alone : manager.dependentAllocators id = []
    · simp only [if_pos alone]
      cases found : algorithm.allocate alloc size bottomUp bound with
      | some place =>
        obtain ⟨isValid', free, held, fits, changed⟩ := lawful.allocate isValid found
        obtain ⟨good', same⟩ := good.placeBuffer lawful isAlloc isValid' free fits changed
        exact ⟨good', same, .inl rfl⟩
      | none =>
        by_cases none : reserved = []
        · subst none
          exact ⟨good, .refl manager, .inl rfl⟩
        · obtain ⟨isOk, released, good'⟩ := good.release lawful
          simp only [outOfMemoryHandler, if_neg none]
          generalize manager.releaseReservedRegions algorithm reserved = result
            at isOk released good' ⊢
          obtain ⟨outcome, after⟩ := result
          subst isOk
          simp only
          cases found' : (after.allocators id).bind fun alloc =>
              algorithm.allocate alloc size bottomUp bound with
          | none => exact ⟨good', released.sameIds, .inr rfl⟩
          | some place =>
            obtain ⟨alloc', isAlloc', found'⟩ := Option.bind_eq_some_iff.mp found'
            obtain ⟨isValid', free, held, fits, changed⟩ :=
              lawful.allocate (good'.valid id alloc' isAlloc') found'
            obtain ⟨good'', same⟩ := good'.placeBuffer lawful isAlloc' isValid' free fits changed
            exact ⟨good'', released.sameIds.trans same, .inr rfl⟩
    · simp only [if_neg alone]
      cases found : placed.bind fun address =>
          (algorithm.allocateAtAddress alloc address size).map (address, ·) with
      | none => exact ⟨good, .refl manager, .inl rfl⟩
      | some place =>
        obtain ⟨address, _, found⟩ := Option.bind_eq_some_iff.mp found
        obtain ⟨alloc', found, equal⟩ := Option.map_eq_some_iff.mp found
        obtain ⟨isValid', free, held, fits, _, changed⟩ :=
          lawful.allocateAtAddress isValid found
        subst equal
        obtain ⟨good', same⟩ := good.placeBuffer lawful isAlloc isValid' free fits changed
        exact ⟨good', same, .inl rfl⟩

theorem Good.markAllocated (good : manager.Good algorithm valid base limit reserved)
    (id address size : Nat) :
    (manager.markAllocated algorithm id address size).2.Good algorithm valid base limit reserved ∧
      manager.SameIds (manager.markAllocated algorithm id address size).2 := by
  simp only [BankManager.markAllocated]
  cases isAlloc : manager.allocators id with
  | none => exact ⟨good, .refl manager⟩
  | some alloc =>
    simp only
    cases found : algorithm.allocateAtAddress alloc address size with
    | none => exact ⟨good, .refl manager⟩
    | some alloc' =>
      obtain ⟨isValid', free, held, fits, _, changed⟩ :=
        lawful.allocateAtAddress (good.valid id alloc isAlloc) found
      obtain ⟨placed, same, inside⟩ := good.place lawful isAlloc isValid' free fits changed
      obtain ⟨recorded, same'⟩ := placed.record inside
      exact ⟨recorded, same.trans same'⟩

section

variable (good : manager.Good algorithm valid base limit reserved)
include good

omit lawful in
/-- The size of a held range, at its free list. -/
theorem Good.size {id address : Nat} (tracked : manager.Tracked id address) {alloc : σ}
    (isAlloc : manager.allocators id = some alloc) :
    ∃ size, algorithm.getAllocationSize alloc address = some size := by
  have isSome := good.pool.live id address tracked
  rw [held_eq isAlloc] at isSome
  exact Option.isSome_iff_exists.mp isSome

/-- A held range lies in memory. -/
theorem Good.inside_held {id address size : Nat} {alloc : σ}
    (isAlloc : manager.allocators id = some alloc)
    (isSize : algorithm.getAllocationSize alloc address = some size) :
    manager.Inside base limit (region id address size) :=
  have bounds := lawful.inside (good.valid id alloc isAlloc) isSize
  ⟨by rw [region, isAlloc]; rfl, bounds.1, Nat.le_add_right address size, bounds.2⟩

section

variable {id address : Nat} (tracked : manager.Tracked id address)
include tracked

/-- A tracked buffer gives its range back. -/
theorem Good.drop {alloc : σ} (isAlloc : manager.allocators id = some alloc) :
    ((manager.setAllocator id (algorithm.deallocate alloc address)).eraseBuffer id address).Good
        algorithm valid base limit reserved ∧
      manager.SameIds
        ((manager.setAllocator id (algorithm.deallocate alloc address)).eraseBuffer id address) := by
  obtain ⟨allocValid, changed⟩ := lawful.deallocate address (good.valid id alloc isAlloc)
  have same := setAllocator_sameIds isAlloc (algorithm.deallocate alloc address)
  have step : ((manager.setAllocator id (algorithm.deallocate alloc address)).eraseBuffer id
      address).held algorithm = (manager.held algorithm).set id address none :=
    held_setAllocator isAlloc changed
  refine ⟨⟨setAllocator_valid good.valid allocValid, ?_, fun other member =>
    same.inside (good.recorded other member)⟩, same⟩
  apply @Pool.free _ _ _ _ _ good.pool fun other otherAddress => other = id ∧ otherAddress = address
  · rintro other otherAddress ⟨rfl, rfl⟩
    exact tracked
  · rintro other otherAddress isFreed
    rw [step, Holdings.set, if_pos isFreed]
  · intro other otherAddress isKept
    rw [step, Holdings.set, if_neg isKept]
  · intro other otherAddress
    simp only [Tracked, eraseBuffer, setAllocator]
    by_cases isId : other = id
    · subst isId
      simp
    · simp [isId]

/-- A tracked buffer is recorded and gives its range back. -/
theorem Good.recordDrop {size : Nat} {alloc : σ} (isAlloc : manager.allocators id = some alloc)
    (isSize : algorithm.getAllocationSize alloc address = some size) :
    (((manager.recordAllocationRegion id address size).setAllocator id
        (algorithm.deallocate alloc address)).eraseBuffer id address).Good algorithm valid base
        limit reserved ∧
      manager.SameIds (((manager.recordAllocationRegion id address size).setAllocator id
        (algorithm.deallocate alloc address)).eraseBuffer id address) := by
  obtain ⟨recorded, same⟩ := good.record (good.inside_held lawful isAlloc isSize)
  obtain ⟨allocators, buffers⟩ := manager.recordAllocationRegion_same id address size
  have tracked' : (manager.recordAllocationRegion id address size).Tracked id address := by
    rw [Tracked, buffers]
    exact tracked
  obtain ⟨dropped, same'⟩ :=
    recorded.drop lawful tracked' ((congrFun allocators id).trans isAlloc)
  exact ⟨dropped, same.trans same'⟩

theorem Good.deallocateBuffer :
    (manager.deallocateBuffer algorithm id address).2.Good algorithm valid base limit reserved ∧
      manager.SameIds (manager.deallocateBuffer algorithm id address).2 := by
  simp only [BankManager.deallocateBuffer]
  cases isAlloc : manager.allocators id with
  | none => exact ⟨good, .refl manager⟩
  | some alloc =>
    obtain ⟨size, isSize⟩ := good.size tracked isAlloc
    obtain ⟨raised, allocators, buffers⟩ := good.raiseDeletion (address + size)
    have tracked' : (manager.raiseDeletionHighWaterMark (address + size)).Tracked id address := by
      rw [Tracked, buffers]
      exact tracked
    obtain ⟨dropped, same⟩ :=
      raised.recordDrop lawful tracked' ((congrFun allocators id).trans isAlloc) isSize
    simp only [isSize]
    refine ⟨dropped, SameIds.trans (fun other => ?_) same⟩
    rw [allocators]

end

theorem Good.markDeallocated (id address : Nat) :
    (manager.markDeallocated algorithm id address).2.Good algorithm valid base limit reserved ∧
      manager.SameIds (manager.markDeallocated algorithm id address).2 := by
  simp only [BankManager.markDeallocated]
  cases isAlloc : manager.allocators id with
  | none => exact ⟨good, .refl manager⟩
  | some alloc =>
    simp only
    split
    · exact ⟨good, .refl manager⟩
    next tracked =>
      have tracked := not_not.mp tracked
      obtain ⟨size, isSize⟩ := good.size tracked isAlloc
      simp only [isSize]
      exact good.recordDrop lawful tracked isAlloc isSize

end

/-- Some ranges of one allocator are freed and recorded; they stay tracked. -/
structure Frees (algorithm : Algorithm σ) (valid : σ → Prop) (base limit : Nat)
    (before after : BankManager σ) (id : Nat) (addresses : List Nat) : Prop where
  valid : ∀ id, ∀ alloc ∈ after.allocators id, valid alloc
  sameIds : before.SameIds after
  free : ∀ address ∈ addresses, after.held algorithm id address = none
  others : ∀ other address, ¬(other = id ∧ address ∈ addresses) →
    after.held algorithm other address = before.held algorithm other address
  buffers : after.allocatedBuffers = before.allocatedBuffers
  recorded : ∀ region ∈ after.allocationFootprint, after.Inside base limit region

theorem freeBuffer_frees (isValid : ∀ id, ∀ alloc ∈ manager.allocators id, valid alloc)
    (recorded : ∀ region ∈ manager.allocationFootprint, manager.Inside base limit region)
    {id : Nat} (exists_alloc : (manager.allocators id).isSome) (address : Nat) :
    manager.Frees algorithm valid base limit (manager.freeBuffer algorithm id address) id
      [address] := by
  obtain ⟨alloc, isAlloc⟩ := Option.isSome_iff_exists.mp exists_alloc
  obtain ⟨allocValid, changed⟩ := lawful.deallocate address (isValid id alloc isAlloc)
  have frees {middle : BankManager σ} (allocators : middle.allocators = manager.allocators)
      (buffers : middle.allocatedBuffers = manager.allocatedBuffers)
      (recorded : ∀ region ∈ middle.allocationFootprint, middle.Inside base limit region) :
      manager.Frees algorithm valid base limit
        (middle.setAllocator id (algorithm.deallocate alloc address)) id [address] := by
    have isAlloc' : middle.allocators id = some alloc := (congrFun allocators id).trans isAlloc
    have step := held_setAllocator isAlloc' changed
    have held : middle.held algorithm = manager.held algorithm := by
      funext other otherAddress
      rw [BankManager.held, BankManager.held, getAllocationSize, getAllocationSize, allocators]
    have same := setAllocator_sameIds isAlloc' (algorithm.deallocate alloc address)
    refine ⟨setAllocator_valid (allocators ▸ isValid) allocValid, fun other => ?_,
      fun other member => ?_, fun other otherAddress isKept => ?_, buffers,
      fun region member => same.inside (recorded region member)⟩
    · rw [same other, allocators]
    · rw [List.mem_singleton.mp member, step, Holdings.set, if_pos ⟨rfl, rfl⟩]
    · rw [step, Holdings.set, if_neg fun both => isKept ⟨both.1, List.mem_singleton.mpr both.2⟩, held]
  rw [freeBuffer, isAlloc]
  simp only
  cases isSize : algorithm.getAllocationSize alloc address with
  | none => exact frees rfl rfl recorded
  | some size =>
    obtain ⟨allocators, buffers⟩ := manager.recordAllocationRegion_same id address size
    refine frees allocators buffers fun other member => ?_
    rw [Inside, allocators]
    rcases mem_recordAllocationRegion member with member | equal
    · exact recorded other member
    · have bounds := lawful.inside (isValid id alloc isAlloc) isSize
      exact equal ▸ ⟨exists_alloc, bounds.1, Nat.le_add_right address size, bounds.2⟩

section

variable (good : manager.Good algorithm valid base limit reserved)
include good

theorem Good.freeBuffers {id : Nat} (exists_alloc : (manager.allocators id).isSome) :
    (manager.freeBuffers algorithm id).Good algorithm valid base limit reserved ∧
      manager.SameIds (manager.freeBuffers algorithm id) := by
  have each (addresses : List Nat) {manager : BankManager σ}
      (isValid : ∀ id, ∀ alloc ∈ manager.allocators id, valid alloc)
      (recorded : ∀ region ∈ manager.allocationFootprint, manager.Inside base limit region)
      (exists_alloc : (manager.allocators id).isSome) :
      manager.Frees algorithm valid base limit (addresses.foldl
        (fun manager address => manager.freeBuffer algorithm id address) manager) id addresses := by
    induction addresses generalizing manager with
    | nil => exact ⟨isValid, .refl manager, nofun, fun _ _ _ => rfl, rfl, recorded⟩
    | cons address addresses ih =>
      have first := freeBuffer_frees lawful isValid recorded exists_alloc address
      have rest := ih first.valid first.recorded ((first.sameIds id).trans exists_alloc)
      refine ⟨rest.valid, first.sameIds.trans rest.sameIds, fun other member => ?_,
        fun other otherAddress isKept => ?_, rest.buffers.trans first.buffers, rest.recorded⟩
      · by_cases later : other ∈ addresses
        · exact rest.free other later
        · rw [List.foldl_cons, rest.others id other fun both => later both.2]
          exact first.free other
            (List.mem_singleton.mpr ((List.mem_cons.mp member).resolve_right later))
      · rw [List.foldl_cons, rest.others other otherAddress fun both =>
          isKept ⟨both.1, List.mem_cons_of_mem _ both.2⟩, first.others other otherAddress fun both =>
          isKept ⟨both.1, List.mem_singleton.mp both.2 ▸ List.mem_cons_self⟩]
  have frees := each (manager.allocatedBuffers id) good.valid good.recorded exists_alloc
  refine ⟨⟨frees.valid, ?_, frees.recorded⟩, frees.sameIds⟩
  apply @Pool.free _ _ _ _ _ good.pool fun other address =>
    other = id ∧ address ∈ manager.allocatedBuffers id
  · rintro other address ⟨rfl, member⟩
    exact member
  · rintro other address ⟨rfl, member⟩
    exact frees.free address member
  · exact frees.others
  · intro other address
    simp only [Tracked, BankManager.freeBuffers, frees.buffers]
    by_cases isId : other = id
    · subst isId
      simp
    · simp [isId]

theorem Good.deallocateAllFrom (ids : List Nat) :
    (manager.deallocateAllFrom algorithm ids).2.Good algorithm valid base limit reserved ∧
      manager.SameIds (manager.deallocateAllFrom algorithm ids).2 := by
  induction ids generalizing manager with
  | nil => exact ⟨good, .refl manager⟩
  | cons id ids ih =>
    rw [BankManager.deallocateAllFrom]
    cases isAlloc : manager.allocators id with
    | none => exact ⟨good, .refl manager⟩
    | some alloc =>
      obtain ⟨first, same⟩ := good.freeBuffers lawful (congrArg Option.isSome isAlloc)
      obtain ⟨rest, same'⟩ := ih first
      exact ⟨rest, same.trans same'⟩

/-- What an operation on buffers does to a manager and the reservations. -/
theorem Good.apply {operation : Operation}
    (proper : ∀ id address, operation = .deallocateBuffer id address → manager.Tracked id address) :
    let world := operation.apply algorithm (outOfMemoryHandler algorithm) (reserved, manager)
    world.2.Good algorithm valid base limit world.1 ∧ manager.SameIds world.2 ∧
      (world.1 = reserved ∨ world.1 = []) := by
  have keeps {world : AllocationFootprint × BankManager σ} (kept : world.1 = reserved)
      (both : world.2.Good algorithm valid base limit reserved ∧ manager.SameIds world.2) :
      world.2.Good algorithm valid base limit world.1 ∧ manager.SameIds world.2 ∧
        (world.1 = reserved ∨ world.1 = []) := ⟨kept ▸ both.1, both.2, .inl kept⟩
  cases operation with
  | allocateBuffer id size bottomUp bound placed =>
    exact good.allocateBuffer lawful id size bottomUp bound placed
  | deallocateBuffer id address =>
    exact keeps rfl (good.deallocateBuffer lawful (proper id address rfl))
  | markAllocated id address size => exact keeps rfl (good.markAllocated lawful id address size)
  | markDeallocated id address => exact keeps rfl (good.markDeallocated lawful id address)
  | deallocateAll => exact keeps rfl (good.deallocateAllFrom lawful _)

end

end BankManager

end Manager

section Allocator

variable {σ : Type} {algorithm : Algorithm σ} {valid : σ → Prop} {base limit : Nat}
  {self : AllocatorImpl σ}

namespace AllocatorImpl

/-- The invariant of the allocator. -/
structure Consistent (algorithm : Algorithm σ) (valid : σ → Prop) (base limit : Nat)
    (impl : AllocatorImpl σ) : Prop where
  good : impl.dramManager.Good algorithm valid base limit impl.traceDramReservations
  contained : ∀ region ∈ impl.traceDramReservations, ∃ entry ∈ impl.traceDramFootprints,
    ∃ whole ∈ entry.2, whole.key = region.key ∧ whole.lower ≤ region.lower ∧
      region.upper ≤ whole.upper
  inside : ∀ entry ∈ impl.traceDramFootprints, ∀ region ∈ entry.2,
    impl.dramManager.Inside base limit region

/-- Every byte of the footprints is reserved or in a live buffer. -/
def Covered (algorithm : Algorithm σ) (self : AllocatorImpl σ) : Prop :=
  ∀ entry ∈ self.traceDramFootprints, ∀ region ∈ entry.2,
    ∀ byte, region.lower ≤ byte → byte < region.upper →
      (∃ other ∈ self.traceDramReservations, other.Contains region.key byte) ∨
      ∃ address size, self.dramManager.Live algorithm region.key address size ∧
        address ≤ byte ∧ byte < address + size

variable (lawful : algorithm.Lawful valid base limit)
include lawful

section

variable (consistent : self.Consistent algorithm valid base limit)
include consistent

theorem Consistent.release :
    ∃ manager, self.releaseTraceDramReservations algorithm =
        (.ok (), { self with dramManager := manager, traceDramReservations := [] }) ∧
      self.dramManager.Releases algorithm valid manager self.traceDramReservations ∧
      manager.Good algorithm valid base limit [] := by
  obtain ⟨isOk, released, good⟩ := consistent.good.release lawful
  rw [releaseTraceDramReservations]
  generalize self.dramManager.releaseReservedRegions algorithm self.traceDramReservations = result
    at isOk released good ⊢
  obtain ⟨outcome, manager⟩ := result
  subst isOk
  exact ⟨manager, rfl, released, good⟩

/-- The loop of a refresh, for footprints of the allocator. -/
theorem reserveFootprints_consistent {footprints : TraceFootprints}
    (listed : ∀ entry ∈ footprints, entry ∈ self.traceDramFootprints) :
    ∃ after, self.reserveFootprints algorithm footprints = (.ok (), after) ∧
      after.Consistent algorithm valid base limit ∧
      after.traceDramFootprints = self.traceDramFootprints ∧
      (∀ region, Filled (self.dramManager.held algorithm) region →
        Filled (after.dramManager.held algorithm) region) ∧
      ∀ entry ∈ footprints, ∀ region ∈ entry.2,
        Filled (after.dramManager.held algorithm) region := by
  induction footprints generalizing self with
  | nil => exact ⟨self, rfl, consistent, rfl, fun _ filled => filled, nofun⟩
  | cons entry footprints ih =>
    have member := listed entry (by simp)
    obtain ⟨regions, manager, isOk, reserves, good⟩ :=
      consistent.good.reserve lawful (consistent.inside entry member)
    have consistent' : AllocatorImpl.Consistent algorithm valid base limit { self with
        dramManager := manager
        traceDramReservations := self.traceDramReservations ++ regions } := by
      refine ⟨good, fun region isRegion => ?_, fun other isOther region isRegion =>
        reserves.sameIds.inside (consistent.inside other isOther region isRegion)⟩
      rcases List.mem_append.mp isRegion with isRegion | isRegion
      · exact consistent.contained region isRegion
      · exact ⟨entry, member, reserves.contained region isRegion⟩
    obtain ⟨after, isOk', consistent'', footprints', keeps, filled⟩ := ih consistent'
      fun other isOther => listed other (List.mem_cons_of_mem _ isOther)
    refine ⟨after, ?_, consistent'', footprints', fun region was => keeps region
      (was.takes reserves.takes), fun other isOther region isRegion => ?_⟩
    · obtain ⟨traceId, footprint⟩ := entry
      rw [reserveFootprints, isOk]
      exact isOk'
    · rcases List.mem_cons.mp isOther with equal | isOther
      · subst equal
        exact keeps region (reserves.filled region isRegion)
      · exact filled other isOther region isRegion

/-- A refresh reserves whatever of the footprints is free. -/
theorem Consistent.refresh {footprints : TraceFootprints}
    (inside : ∀ entry ∈ footprints, ∀ region ∈ entry.2, self.dramManager.Inside base limit region) :
    ∃ after, AllocatorImpl.refreshTraceDramReservations algorithm
        { self with traceDramFootprints := footprints } = (.ok (), after) ∧
      after.Consistent algorithm valid base limit ∧ after.Covered algorithm := by
  obtain ⟨manager, isOk, released, good⟩ := consistent.release lawful
  have consistent' : AllocatorImpl.Consistent algorithm valid base limit
      ⟨manager, footprints, []⟩ := ⟨good, nofun, fun entry member region isRegion =>
    released.sameIds.inside (inside entry member region isRegion)⟩
  obtain ⟨after, isOk', consistent'', same, _, filled⟩ :=
    reserveFootprints_consistent lawful consistent' fun _ member => member
  refine ⟨after, ?_, consistent'', fun entry member region isRegion byte above below => ?_⟩
  · have isOk' : AllocatorImpl.releaseTraceDramReservations algorithm
        { self with traceDramFootprints := footprints } = (.ok (), ⟨manager, footprints, []⟩) := by
      rw [releaseTraceDramReservations] at isOk ⊢
      split at isOk <;> simp_all
    rw [refreshTraceDramReservations, isOk']
    assumption
  · obtain ⟨address, size, isHeld, bounds⟩ :=
      filled entry (same ▸ member) region isRegion byte above below
    rcases consistent''.good.pool.exact _ _ _ isHeld with tracked | ⟨other, isOther, isKey, isLower⟩
    · exact .inr ⟨address, size, ⟨tracked, isHeld⟩, bounds⟩
    · obtain ⟨order, has, _⟩ := consistent''.good.pool.kept other isOther
      rw [isKey, isLower, isHeld] at has
      have sizes := Option.some.inj has
      exact .inl ⟨other, isOther, isKey, by omega, by omega⟩

end

omit lawful in
/-- The merged regions of a capture lie in memory. -/
theorem inside_coalesce {manager : BankManager σ} {regions : List AllocationRegion}
    (inside : ∀ region ∈ regions, manager.Inside base limit region) :
    ∀ whole ∈ KeyedRange.coalesce regions, manager.Inside base limit whole := by
  intro whole member
  have merged := KeyedRange.coalesce_merged regions
  obtain ⟨first, isFirst, isKey, lower, upper⟩ := merged.begins whole member
  have low := inside first isFirst
  refine ⟨isKey ▸ low.1, lower ▸ low.2.1, ?_, ?_⟩
  · have bounds := low.2
    omega
  by_cases bytes : whole.lower < whole.upper
  · -- The last byte is one of a region.
    have covers : KeyedRange.Covers (KeyedRange.coalesce regions) whole.key (whole.upper - 1) :=
      ⟨whole, member, rfl, by omega, by omega⟩
    obtain ⟨last, isLast, _, _, below⟩ := (merged.covers _ _).mp covers
    have high := (inside last isLast).2
    omega
  · have bounds := low.2
    omega

section

variable (consistent : self.Consistent algorithm valid base limit)
include consistent

theorem Consistent.endMeshTrace (traceId : Nat) :
    ∃ after, self.endMeshTrace algorithm traceId = (.ok (), after) ∧
      after.Consistent algorithm valid base limit ∧ after.Covered algorithm := by
  let footprint := KeyedRange.coalesce self.dramManager.allocationFootprint
  let manager := self.dramManager.endHighWaterMarkTracking.2.takeAllocationFootprint.2
  have inside : ∀ region ∈ footprint, manager.Inside base limit region :=
    inside_coalesce consistent.good.recorded
  have good : manager.Good algorithm valid base limit self.traceDramReservations :=
    ⟨consistent.good.valid, consistent.good.pool, nofun⟩
  have consistent' : AllocatorImpl.Consistent algorithm valid base limit
      { self with dramManager := manager } :=
    ⟨good, consistent.contained, consistent.inside⟩
  simp only [AllocatorImpl.endMeshTrace, addTraceDramFootprint]
  split
  · apply consistent'.refresh lawful
    intro entry member
    rcases TraceFootprints.mem_set member with equal | old
    · exact equal ▸ inside
    · exact consistent.inside entry old
  · exact consistent'.refresh lawful consistent.inside

theorem Consistent.releaseMeshTrace (traceId : Nat) :
    ∃ after, self.releaseMeshTrace algorithm traceId = (.ok (), after) ∧
      after.Consistent algorithm valid base limit ∧ after.Covered algorithm := by
  apply consistent.refresh lawful
  intro entry member
  exact consistent.inside entry (List.mem_of_mem_filter member)

theorem Consistent.beginMeshTrace :
    (self.beginMeshTrace algorithm).2.Consistent algorithm valid base limit := by
  obtain ⟨manager, isOk, released, good⟩ := consistent.release lawful
  rw [AllocatorImpl.beginMeshTrace, suspendTraceDramReservations, isOk]
  exact ⟨⟨good.valid, good.pool, nofun⟩, nofun, fun entry member region isRegion =>
    released.sameIds.inside (consistent.inside entry member region isRegion)⟩

theorem Consistent.deallocateBuffers :
    (self.deallocateBuffers algorithm).2.Consistent algorithm valid base limit := by
  obtain ⟨manager, isOk, released, good⟩ := consistent.release lawful
  rw [AllocatorImpl.deallocateBuffers, isOk]
  exact ⟨(good.deallocateAllFrom lawful _).1, nofun, nofun⟩

theorem Consistent.onBuffers {operation : Operation}
    (proper : (Event.buffers operation).Proper self) :
    (self.onBuffers algorithm operation).Consistent algorithm valid base limit := by
  have live : ∀ id address, operation = .deallocateBuffer id address →
      address ∈ self.dramManager.allocatedBuffers id := by
    rintro id address rfl
    exact proper
  obtain ⟨good, same, kept⟩ := consistent.good.apply lawful live
  refine ⟨good, fun region member => ?_, fun entry member region isRegion =>
    same.inside (consistent.inside entry member region isRegion)⟩
  rcases kept with kept | none
  · exact consistent.contained region (kept ▸ member)
  · rw [show (self.onBuffers algorithm operation).traceDramReservations = [] from none] at member
    cases member

end

variable {reset : BankManager σ → BankManager σ} (resets : Resets algorithm reset valid)
include resets

theorem Consistent.apply (consistent : self.Consistent algorithm valid base limit) {event : Event}
    (proper : event.Proper self) :
    (event.apply algorithm reset self).2.Consistent algorithm valid base limit := by
  cases event with
  | beginMeshTrace => exact consistent.beginMeshTrace lawful
  | endMeshTrace traceId =>
    obtain ⟨after, isOk, consistent', _⟩ := consistent.endMeshTrace lawful traceId
    rw [Event.apply, isOk]
    exact consistent'
  | releaseMeshTrace traceId =>
    obtain ⟨after, isOk, consistent', _⟩ := consistent.releaseMeshTrace lawful traceId
    rw [Event.apply, isOk]
    exact consistent'
  | buffers operation => exact consistent.onBuffers lawful proper
  | deallocateBuffers => exact consistent.deallocateBuffers lawful
  | clear =>
    refine ⟨⟨resets.valid self.dramManager, ⟨fun id address member => ?_, nofun,
      fun id address size isHeld => ?_, .nil⟩, fun region member => ?_⟩, nofun, nofun⟩
    · have tracked : address ∈ (reset self.dramManager).allocatedBuffers id := member
      rw [resets.untracked self.dramManager id] at tracked
      cases tracked
    · have held : (reset self.dramManager).getAllocationSize algorithm id address = some size :=
        isHeld
      rw [resets.empty self.dramManager id address] at held
      cases held
    · have recorded : region ∈ (reset self.dramManager).allocationFootprint := member
      rw [resets.footprint self.dramManager] at recorded
      obtain ⟨isSome, bounds⟩ := consistent.good.recorded region recorded
      exact ⟨(resets.initialized self.dramManager region.key).trans isSome, bounds⟩

theorem Reachable.consistent (reachable : self.Reachable algorithm reset valid) :
    self.Consistent algorithm valid base limit := by
  induction reachable with
  | start fresh =>
    refine ⟨⟨fresh.valid, ⟨fun id address member => ?_, ?_, fun id address size isHeld => ?_, ?_⟩,
      ?_⟩, ?_, ?_⟩
    · rw [BankManager.Tracked, fresh.untracked id] at member
      cases member
    · simp [fresh.reservations]
    · rw [BankManager.held, fresh.empty id address] at isHeld
      cases isHeld
    · rw [fresh.reservations]
      exact .nil
    · simp [fresh.unrecorded]
    · simp [fresh.reservations]
    · simp [fresh.footprints]
  | step _ proper ih => exact ih.apply lawful resets proper

end AllocatorImpl

/-- No byte is in both. -/
def Disjoint (first second : AllocationRegion) : Prop :=
  first.key = second.key → first.upper ≤ second.lower ∨ second.upper ≤ first.lower

/-- In every reachable allocator the reservations are apart from each other and from the live
buffers, lie in the footprints of the live traces, and are what the free lists hold beyond the
buffers. Releasing them frees no buffer, and the end and the release of a trace leave no byte of a
footprint that is neither reserved nor in a live buffer. -/
theorem reserved_consistent {reset : BankManager σ → BankManager σ}
    (lawful : algorithm.Lawful valid base limit) (resets : Resets algorithm reset valid)
    (reachable : self.Reachable algorithm reset valid) :
    self.traceDramReservations.Pairwise Disjoint ∧
      (∀ reserved ∈ self.traceDramReservations, ∀ id address size,
        self.dramManager.Live algorithm id address size →
          Disjoint reserved (region id address size)) ∧
      (∀ reserved ∈ self.traceDramReservations, ∃ entry ∈ self.traceDramFootprints,
        ∃ whole ∈ entry.2, whole.key = reserved.key ∧ whole.lower ≤ reserved.lower ∧
          reserved.upper ≤ whole.upper) ∧
      (∀ id address size, self.dramManager.getAllocationSize algorithm id address = some size ↔
        (self.dramManager.Live algorithm id address size ∨
          region id address size ∈ self.traceDramReservations)) ∧
      (∀ id address size, self.dramManager.Live algorithm id address size →
        (self.releaseTraceDramReservations algorithm).2.dramManager.Live algorithm id address
          size) ∧
      ∀ traceId, ((self.endMeshTrace algorithm traceId).1 = .ok () ∧
          (self.endMeshTrace algorithm traceId).2.Covered algorithm) ∧
        (self.releaseMeshTrace algorithm traceId).1 = .ok () ∧
          (self.releaseMeshTrace algorithm traceId).2.Covered algorithm := by
  have consistent := reachable.consistent lawful resets
  have pool := consistent.good.pool
  have apart {id address size other otherSize : Nat}
      (isHeld : self.dramManager.getAllocationSize algorithm id address = some size)
      (isHeld' : self.dramManager.getAllocationSize algorithm id other = some otherSize)
      (different : address ≠ other) :
      address + size ≤ other ∨ other + otherSize ≤ address := by
    obtain ⟨alloc, isAlloc, isSize⟩ := Option.bind_eq_some_iff.mp isHeld
    obtain ⟨alloc', isAlloc', isSize'⟩ := Option.bind_eq_some_iff.mp isHeld'
    rw [isAlloc] at isAlloc'
    cases isAlloc'
    exact lawful.apart (consistent.good.valid id alloc isAlloc) isSize isSize' different
  refine ⟨?_, ?_, consistent.contained, ?_, ?_, fun traceId => ⟨?_, ?_⟩⟩
  · refine pool.distinct.imp_of_mem fun {first second} isFirst isSecond different same => ?_
    obtain ⟨order, has, _⟩ := pool.kept first isFirst
    obtain ⟨order', has', _⟩ := pool.kept second isSecond
    rw [← same] at has'
    have gap := apart has has' fun equal => different ⟨same, equal⟩
    omega
  · rintro reserved member id address size ⟨tracked, isHeld⟩ same
    obtain ⟨order, has, untracked⟩ := pool.kept reserved member
    simp only [region] at same ⊢
    subst same
    have gap := apart has isHeld fun equal => untracked (equal ▸ tracked)
    omega
  · intro id address size
    constructor
    · intro isHeld
      rcases pool.exact id address size isHeld with tracked | ⟨reserved, member, isKey, isLower⟩
      · exact .inl ⟨tracked, isHeld⟩
      · obtain ⟨order, has, _⟩ := pool.kept reserved member
        rw [isKey, isLower] at has
        have sizes := Option.some.inj (isHeld.symm.trans has)
        have equal : reserved = region id address size := by
          obtain ⟨key, lower, upper⟩ := reserved
          simp only [region, KeyedRange.mk.injEq] at isKey isLower order sizes ⊢
          omega
        exact .inr (equal ▸ member)
    · rintro (live | member)
      · exact live.2
      · have has := (pool.kept _ member).2.1
        simpa [region, BankManager.held] using has
  · rintro id address size ⟨tracked, isHeld⟩
    obtain ⟨manager, isOk, released, _⟩ := consistent.release lawful
    rw [isOk]
    refine ⟨?_, ?_⟩
    · simp only [released.buffers]
      exact tracked
    · exact (released.keeps consistent.good tracked).trans isHeld
  · obtain ⟨after, isOk, _, covered⟩ := consistent.endMeshTrace lawful traceId
    rw [isOk]
    exact ⟨rfl, covered⟩
  · obtain ⟨after, isOk, _, covered⟩ := consistent.releaseMeshTrace lawful traceId
    rw [isOk]
    exact ⟨rfl, covered⟩

end Allocator

/-- The clear of a manager of first-fit free lists. -/
def clearManager (manager : BankManager FirstFit.Held) : BankManager FirstFit.Held :=
  { manager with
    allocators := fun id => (manager.allocators id).map fun _ => []
    allocatedBuffers := fun _ => [] }

theorem clearManager_resets (capacity : Nat) :
    Resets (FirstFit.algorithm capacity) clearManager (FirstFit.Sorted capacity 0) where
  valid manager id alloc member := by
    obtain ⟨_, _, rfl⟩ := Option.map_eq_some_iff.mp member
    exact Nat.zero_le capacity
  empty manager id address := by
    rw [BankManager.getAllocationSize, clearManager, Option.bind_map]
    cases manager.allocators id <;> rfl
  untracked _ _ := rfl
  initialized _ _ := Option.isSome_map
  footprint _ := rfl

/-- An allocator with one free list of 16 bytes. -/
def freshAllocator : AllocatorImpl FirstFit.Held where
  dramManager := singleManager [] []
  traceDramFootprints := []
  traceDramReservations := []

theorem freshAllocator_fresh :
    freshAllocator.Fresh (FirstFit.algorithm 16) (FirstFit.Sorted 16 0) where
  valid id alloc member := by
    simp only [freshAllocator, singleManager] at member
    split at member
    · cases member
      exact Nat.zero_le 16
    · cases member
  empty id address := by
    simp only [BankManager.getAllocationSize, freshAllocator, singleManager]
    split <;> rfl
  untracked id := ite_self []
  unrecorded := rfl
  footprints := rfl
  reservations := rfl

/-- A trace that allocates a buffer of 4 bytes and frees it, with a buffer of 8 bytes before it. -/
def capture : List Event :=
  [.buffers (.allocateBuffer 0 8 true 0 none), .beginMeshTrace,
    .buffers (.allocateBuffer 0 4 true 0 none), .buffers (.deallocateBuffer 0 8), .endMeshTrace 7]

/-- The allocator after some events. -/
def afterCapture (events : Nat) : AllocatorImpl FirstFit.Held :=
  (capture.take events).foldl
    (fun impl event => (event.apply (FirstFit.algorithm 16) clearManager impl).2) freshAllocator

/-- What the trace freed is reserved for it. -/
theorem reserved_consistent_capture :
    (afterCapture 5).traceDramReservations = [⟨0, 8, 12⟩] ∧
      ∃ entry ∈ (afterCapture 5).traceDramFootprints, ∃ whole ∈ entry.2,
        whole.key = 0 ∧ whole.lower ≤ 8 ∧ 12 ≤ whole.upper := by
  have reserved : (afterCapture 5).traceDramReservations = [⟨0, 8, 12⟩] := by decide +kernel
  have tracked : 8 ∈ (afterCapture 3).dramManager.allocatedBuffers 0 := by decide +kernel
  have step {impl : AllocatorImpl FirstFit.Held}
      (reachable : impl.Reachable (FirstFit.algorithm 16) clearManager (FirstFit.Sorted 16 0))
      (event : Event) (proper : event.Proper impl) :
      (event.apply (FirstFit.algorithm 16) clearManager impl).2.Reachable (FirstFit.algorithm 16)
        clearManager (FirstFit.Sorted 16 0) := reachable.step proper
  have reachable : (afterCapture 3).Reachable (FirstFit.algorithm 16) clearManager
      (FirstFit.Sorted 16 0) :=
    step (step (step (.start freshAllocator_fresh) (.buffers (.allocateBuffer 0 8 true 0 none))
      trivial) .beginMeshTrace trivial) (.buffers (.allocateBuffer 0 4 true 0 none)) trivial
  have reachable : (afterCapture 5).Reachable (FirstFit.algorithm 16) clearManager
      (FirstFit.Sorted 16 0) :=
    step (step reachable (.buffers (.deallocateBuffer 0 8)) tracked) (.endMeshTrace 7) trivial
  have consistent := reserved_consistent (FirstFit.lawful 16) (clearManager_resets 16) reachable
  exact ⟨reserved, consistent.2.2.1 ⟨0, 8, 12⟩ (by rw [reserved]; exact List.mem_cons_self)⟩

end Libtt.Allocator

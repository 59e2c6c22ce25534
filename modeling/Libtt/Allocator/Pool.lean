import Libtt.Allocator.TraceDram

/-!
# Two records of what free lists hold

The free lists hold the tracked buffers and the reserved regions, and nothing else.
-/
namespace Libtt.Allocator

open Libtt.Foundation

/-- The sizes of the ranges that are held, by allocator and address. -/
abbrev Holdings := Nat → Nat → Option Nat

/-- Regions that begin at one address of one allocator. -/
def SameStart (first second : AllocationRegion) : Prop :=
  first.key = second.key ∧ first.lower = second.lower

/-- The holdings with one range changed. -/
def Holdings.set (held : Holdings) (id address : Nat) (size : Option Nat) : Holdings :=
  fun other otherAddress =>
    if other = id ∧ otherAddress = address then size else held other otherAddress

/-- The regions are held, apart from the tracked buffers, and nothing else is. -/
structure Pool (held : Holdings) (tracked : Nat → Nat → Prop) (reserved : AllocationFootprint) :
    Prop where
  live : ∀ id address, tracked id address → (held id address).isSome
  kept : ∀ region ∈ reserved, region.lower < region.upper ∧
    held region.key region.lower = some (region.upper - region.lower) ∧
    ¬tracked region.key region.lower
  exact : ∀ id address size, held id address = some size → tracked id address ∨
    ∃ region ∈ reserved, region.key = id ∧ region.lower = address
  distinct : reserved.Pairwise fun first second => ¬SameStart first second

/-- The holdings after ranges that were free are reserved. -/
structure Takes (before after : Holdings) (reserved : AllocationFootprint) : Prop where
  fresh : ∀ region ∈ reserved, region.lower < region.upper ∧
    before region.key region.lower = none ∧
    after region.key region.lower = some (region.upper - region.lower)
  others : ∀ id address, (∀ region ∈ reserved, ¬(region.key = id ∧ region.lower = address)) →
    after id address = before id address
  distinct : reserved.Pairwise fun first second => ¬SameStart first second

theorem Takes.refl (held : Holdings) : Takes held held [] := ⟨nofun, fun _ _ _ => rfl, .nil⟩

theorem Takes.trans {first second third : Holdings} {reserved others : AllocationFootprint}
    (takes : Takes first second reserved) (takes' : Takes second third others) :
    Takes first third (reserved ++ others) := by
  have apart : ∀ region ∈ reserved, ∀ other ∈ others, ¬SameStart region other := by
    rintro region member other isOther ⟨sameKey, sameLower⟩
    have isHeld := (takes.fresh region member).2.2
    have isFree := (takes'.fresh other isOther).2.1
    rw [sameKey, sameLower, isFree] at isHeld
    cases isHeld
  refine ⟨fun region member => ?_, fun id address none => ?_, ?_⟩
  · rcases List.mem_append.mp member with member | member
    · obtain ⟨order, isFree, isHeld⟩ := takes.fresh region member
      refine ⟨order, isFree, ?_⟩
      rw [takes'.others _ _ fun other isOther same => apart region member other isOther
        ⟨same.1.symm, same.2.symm⟩, isHeld]
    · obtain ⟨order, isFree, isHeld⟩ := takes'.fresh region member
      refine ⟨order, ?_, isHeld⟩
      rw [← takes.others _ _ fun other isOther same => apart other isOther region member same,
        isFree]
  · rw [takes'.others _ _ fun region member => none region (List.mem_append_right _ member),
      takes.others _ _ fun region member => none region (List.mem_append_left _ member)]
  · exact List.pairwise_append.mpr ⟨takes.distinct, takes'.distinct, apart⟩

/-- Every byte of the region is held. -/
def Filled (held : Holdings) (region : AllocationRegion) : Prop :=
  ∀ byte, region.lower ≤ byte → byte < region.upper →
    ∃ other size, held region.key other = some size ∧ other ≤ byte ∧ byte < other + size

/-- Taking ranges frees none. -/
theorem Takes.holds {before after : Holdings} {regions : AllocationFootprint}
    (takes : Takes before after regions) {id address size : Nat}
    (isHeld : before id address = some size) : after id address = some size := by
  rw [takes.others, isHeld]
  rintro region member ⟨rfl, rfl⟩
  rw [(takes.fresh region member).2.1] at isHeld
  cases isHeld

/-- A region whose bytes were held or are taken is filled. -/
theorem Takes.filled {before after : Holdings} {regions : AllocationFootprint}
    (takes : Takes before after regions) {region : AllocationRegion}
    (each : ∀ byte, region.lower ≤ byte → byte < region.upper →
      (∃ other size, before region.key other = some size ∧ other ≤ byte ∧ byte < other + size) ∨
      ∃ other ∈ regions, region.key = other.key ∧ other.lower ≤ byte ∧ byte < other.upper) :
    Filled after region := by
  intro byte above below
  rcases each byte above below with ⟨other, size, isHeld, bounds⟩ | ⟨other, member, isKey, bounds⟩
  · exact ⟨other, size, takes.holds isHeld, bounds⟩
  · obtain ⟨order, _, has⟩ := takes.fresh other member
    exact ⟨other.lower, other.upper - other.lower, isKey ▸ has, bounds.1, by omega⟩

/-- What is filled stays so. -/
theorem Filled.takes {before after : Holdings} {regions : AllocationFootprint}
    {region : AllocationRegion} (filled : Filled before region)
    (takes : Takes before after regions) : Filled after region :=
  takes.filled fun byte above below => .inl (filled byte above below)

namespace Pool

variable {held held' : Holdings} {tracked tracked' : Nat → Nat → Prop}
  {reserved others : AllocationFootprint}

/-- A buffer takes a free range. -/
theorem take (pool : Pool held tracked reserved) {id address size : Nat}
    (free : held id address = none) (isHeld : held' = held.set id address (some size))
    (isTracked : ∀ other otherAddress, tracked' other otherAddress ↔
      tracked other otherAddress ∨ other = id ∧ otherAddress = address) :
    Pool held' tracked' reserved := by
  subst isHeld
  constructor
  · intro other otherAddress member
    by_cases same : other = id ∧ otherAddress = address
    · rw [Holdings.set, if_pos same]
      rfl
    · rw [Holdings.set, if_neg same]
      exact pool.live _ _ (((isTracked _ _).mp member).resolve_right same)
  · intro region member
    obtain ⟨order, isHeld, untracked⟩ := pool.kept region member
    have different : ¬(region.key = id ∧ region.lower = address) := by
      rintro ⟨isKey, isLower⟩
      rw [isKey, isLower, free] at isHeld
      cases isHeld
    rw [Holdings.set, if_neg different, isTracked]
    exact ⟨order, isHeld, fun either => either.elim untracked different⟩
  · intro other otherAddress size isHeld
    rw [isTracked]
    by_cases same : other = id ∧ otherAddress = address
    · exact .inl (.inr same)
    · rw [Holdings.set, if_neg same] at isHeld
      exact (pool.exact _ _ _ isHeld).imp_left .inl
  · exact pool.distinct

/-- Buffers free their ranges. -/
theorem free (pool : Pool held tracked reserved) {freed : Nat → Nat → Prop}
    (wasTracked : ∀ id address, freed id address → tracked id address)
    (isFree : ∀ id address, freed id address → held' id address = none)
    (isHeld : ∀ id address, ¬freed id address → held' id address = held id address)
    (isTracked : ∀ id address, tracked' id address ↔ tracked id address ∧ ¬freed id address) :
    Pool held' tracked' reserved := by
  constructor
  · intro id address member
    obtain ⟨was, kept⟩ := (isTracked id address).mp member
    rw [isHeld id address kept]
    exact pool.live id address was
  · intro region member
    obtain ⟨order, has, untracked⟩ := pool.kept region member
    have kept : ¬freed region.key region.lower := fun freed => untracked (wasTracked _ _ freed)
    exact ⟨order, (isHeld _ _ kept).trans has, fun still => untracked ((isTracked _ _).mp still).1⟩
  · intro id address size has
    have kept : ¬freed id address := fun freed => by
      rw [isFree id address freed] at has
      cases has
    rw [isHeld id address kept] at has
    exact (pool.exact id address size has).imp_left fun was => (isTracked id address).mpr ⟨was, kept⟩
  · exact pool.distinct

/-- The reservations are given up. -/
theorem release (pool : Pool held tracked reserved)
    (isFree : ∀ region ∈ reserved, held' region.key region.lower = none)
    (isHeld : ∀ id address, (∀ region ∈ reserved, ¬(region.key = id ∧ region.lower = address)) →
      held' id address = held id address) : Pool held' tracked [] := by
  refine ⟨fun id address member => ?_, nofun, fun id address size has => ?_, .nil⟩
  · rw [isHeld id address fun region isRegion same => (pool.kept region isRegion).2.2
      (by rw [same.1, same.2]; exact member)]
    exact pool.live id address member
  · by_cases none : ∃ region ∈ reserved, region.key = id ∧ region.lower = address
    · obtain ⟨region, member, isKey, isLower⟩ := none
      rw [← isKey, ← isLower, isFree region member] at has
      cases has
    · have kept := isHeld id address fun region member same => none ⟨region, member, same⟩
      rw [kept] at has
      exact .inl ((pool.exact id address size has).resolve_right none)

/-- Free ranges are reserved. -/
theorem reserve (pool : Pool held tracked reserved) (takes : Takes held held' others) :
    Pool held' tracked (reserved ++ others) := by
  constructor
  · intro id address member
    obtain ⟨size, has⟩ := Option.isSome_iff_exists.mp (pool.live id address member)
    rw [takes.holds has]
    rfl
  · intro region member
    rcases List.mem_append.mp member with member | member
    · obtain ⟨order, has, untracked⟩ := pool.kept region member
      exact ⟨order, takes.holds has, untracked⟩
    · obtain ⟨order, wasFree, has⟩ := takes.fresh region member
      refine ⟨order, has, fun member => ?_⟩
      have isSome := pool.live _ _ member
      rw [wasFree] at isSome
      cases isSome
  · intro id address size has
    by_cases new : ∃ region ∈ others, region.key = id ∧ region.lower = address
    · obtain ⟨region, member, same⟩ := new
      exact .inr ⟨region, List.mem_append_right _ member, same⟩
    · rw [takes.others id address fun region member same => new ⟨region, member, same⟩] at has
      refine (pool.exact id address size has).imp_right ?_
      rintro ⟨region, member, same⟩
      exact ⟨region, List.mem_append_left _ member, same⟩
  · refine List.pairwise_append.mpr ⟨pool.distinct, takes.distinct, ?_⟩
    rintro region member other isOther ⟨isKey, isLower⟩
    have has := (pool.kept region member).2.1
    rw [isKey, isLower, (takes.fresh other isOther).2.1] at has
    cases has

end Pool

section Manager

variable {σ : Type} (algorithm : Algorithm σ) (valid : σ → Prop) (base limit : Nat)

namespace BankManager

variable (manager : BankManager σ)

/-- What the free lists of a manager hold. -/
def held : Holdings := fun id address => manager.getAllocationSize algorithm id address

def Tracked (id address : Nat) : Prop := address ∈ manager.allocatedBuffers id

/-- A region of the memory of an allocator that exists. -/
def Inside (region : AllocationRegion) : Prop :=
  (manager.allocators region.key).isSome ∧ base ≤ region.lower ∧ region.lower ≤ region.upper ∧
    region.upper ≤ limit

/-- The free lists are valid, the records match them and what was recorded lies in memory. -/
structure Good (reserved : AllocationFootprint) : Prop where
  valid : ∀ id, ∀ alloc ∈ manager.allocators id, valid alloc
  pool : Pool (manager.held algorithm) manager.Tracked reserved
  recorded : ∀ region ∈ manager.allocationFootprint, manager.Inside base limit region

/-- The same allocators exist. -/
def SameIds (manager' : BankManager σ) : Prop :=
  ∀ id, (manager'.allocators id).isSome = (manager.allocators id).isSome

end BankManager

variable {algorithm valid base limit} {manager manager' manager'' : BankManager σ}
  {reserved : AllocationFootprint}

namespace BankManager

theorem SameIds.refl (manager : BankManager σ) : manager.SameIds manager := fun _ => rfl

theorem SameIds.trans (first : manager.SameIds manager') (second : manager'.SameIds manager'') :
    manager.SameIds manager'' := fun id => (second id).trans (first id)

theorem SameIds.inside (same : manager.SameIds manager') {region : AllocationRegion}
    (inside : manager.Inside base limit region) : manager'.Inside base limit region :=
  ⟨(same region.key).trans inside.1, inside.2⟩

theorem held_eq {id : Nat} {alloc : σ} (isAlloc : manager.allocators id = some alloc)
    (address : Nat) : manager.held algorithm id address =
      algorithm.getAllocationSize alloc address := by
  rw [held, getAllocationSize, isAlloc]
  rfl

theorem setAllocator_sameIds {id : Nat} {alloc : σ} (isAlloc : manager.allocators id = some alloc)
    (alloc' : σ) : manager.SameIds (manager.setAllocator id alloc') := by
  intro other
  by_cases same : other = id
  · rw [same, setAllocator_self, isAlloc]
    rfl
  · rw [setAllocator_other _ same]

theorem held_setAllocator {id address : Nat} {alloc alloc' : σ} {size : Option Nat}
    (isAlloc : manager.allocators id = some alloc)
    (changed : algorithm.getAllocationSize alloc' =
      Function.update (algorithm.getAllocationSize alloc) address size) :
    (manager.setAllocator id alloc').held algorithm =
      (manager.held algorithm).set id address size := by
  funext other otherAddress
  by_cases same : other = id
  · subst same
    rw [held_eq (setAllocator_self manager other alloc'), changed, Holdings.set]
    by_cases sameAddress : otherAddress = address
    · rw [if_pos ⟨rfl, sameAddress⟩, sameAddress, Function.update_self]
    · rw [if_neg fun both => sameAddress both.2, Function.update_of_ne sameAddress,
        held_eq isAlloc]
  · rw [Holdings.set, if_neg fun both => same both.1]
    rw [held, held, getAllocationSize, getAllocationSize, setAllocator_other _ same]

theorem setAllocator_valid {id : Nat} {alloc : σ}
    (isValid : ∀ id, ∀ alloc ∈ manager.allocators id, valid alloc) (allocValid : valid alloc) :
    ∀ other, ∀ alloc' ∈ (manager.setAllocator id alloc).allocators other, valid alloc' := by
  intro other alloc' member
  by_cases same : other = id
  · rw [same, setAllocator_self] at member
    exact Option.some.inj member ▸ allocValid
  · rw [setAllocator_other _ same] at member
    exact isValid other alloc' member

theorem mem_recordAllocationRegion {id address size : Nat} {other : AllocationRegion}
    (member : other ∈ (manager.recordAllocationRegion id address size).allocationFootprint) :
    other ∈ manager.allocationFootprint ∨ other = region id address size := by
  rw [recordAllocationRegion] at member
  split at member
  · exact (List.mem_append.mp member).imp_right List.mem_singleton.mp
  · exact .inl member

section

variable (good : manager.Good algorithm valid base limit reserved)
include good

/-- Recording a region of the memory changes no record of holdings. -/
theorem Good.record {id address size : Nat}
    (inside : manager.Inside base limit (region id address size)) :
    (manager.recordAllocationRegion id address size).Good algorithm valid base limit reserved ∧
      manager.SameIds (manager.recordAllocationRegion id address size) := by
  rw [recordAllocationRegion]
  split
  · refine ⟨⟨good.valid, good.pool, fun other member => ?_⟩, fun _ => rfl⟩
    rcases List.mem_append.mp member with member | member
    · exact good.recorded other member
    · rw [List.mem_singleton.mp member]
      exact inside
  · exact ⟨good, .refl manager⟩

/-- High water marks do not matter. -/
theorem Good.congr (allocators : manager'.allocators = manager.allocators)
    (buffers : manager'.allocatedBuffers = manager.allocatedBuffers)
    (footprint : manager'.allocationFootprint = manager.allocationFootprint) :
    manager'.Good algorithm valid base limit reserved := by
  obtain ⟨isValid, pool, recorded⟩ := good
  refine ⟨allocators ▸ isValid, ?_, fun region member => ?_⟩
  · have held : manager'.held algorithm = manager.held algorithm := by
      funext id address
      rw [BankManager.held, BankManager.held, getAllocationSize, getAllocationSize, allocators]
    have tracked : manager'.Tracked = manager.Tracked := by
      funext id address
      rw [Tracked, Tracked, buffers]
    rw [held, tracked]
    exact pool
  · obtain ⟨isSome, bounds⟩ := recorded region (footprint ▸ member)
    exact ⟨allocators ▸ isSome, bounds⟩

theorem Good.raiseAllocation (last : Nat) :
    (manager.raiseAllocationHighWaterMark last).Good algorithm valid base limit reserved ∧
      (manager.raiseAllocationHighWaterMark last).allocators = manager.allocators := by
  rw [raiseAllocationHighWaterMark]
  split
  · exact ⟨good.congr rfl rfl rfl, rfl⟩
  · exact ⟨good, rfl⟩

theorem Good.raiseDeletion (last : Nat) :
    (manager.raiseDeletionHighWaterMark last).Good algorithm valid base limit reserved ∧
      (manager.raiseDeletionHighWaterMark last).allocators = manager.allocators ∧
      (manager.raiseDeletionHighWaterMark last).allocatedBuffers = manager.allocatedBuffers := by
  rw [raiseDeletionHighWaterMark]
  split
  · exact ⟨good.congr rfl rfl rfl, rfl, rfl⟩
  · exact ⟨good, rfl, rfl⟩

end

theorem recordAllocationRegion_same (id address size : Nat) :
    (manager.recordAllocationRegion id address size).allocators = manager.allocators ∧
      (manager.recordAllocationRegion id address size).allocatedBuffers =
        manager.allocatedBuffers := by
  rw [recordAllocationRegion]
  split <;> exact ⟨rfl, rfl⟩

variable (lawful : algorithm.Lawful valid base limit)
include lawful

/-- A new buffer in a free range. -/
theorem Good.place (good : manager.Good algorithm valid base limit reserved)
    {id address size held : Nat} {alloc alloc' : σ} (isAlloc : manager.allocators id = some alloc)
    (isValid : valid alloc') (free : algorithm.getAllocationSize alloc address = none)
    (fits : size ≤ held) (changed : algorithm.getAllocationSize alloc' =
      Function.update (algorithm.getAllocationSize alloc) address (some held)) :
    ((manager.setAllocator id alloc').insertBuffer id address).Good algorithm valid base limit
        reserved ∧
      manager.SameIds ((manager.setAllocator id alloc').insertBuffer id address) ∧
      ((manager.setAllocator id alloc').insertBuffer id address).Inside base limit
        (region id address size) := by
  have same := setAllocator_sameIds isAlloc alloc'
  have free' : manager.held algorithm id address = none := (held_eq isAlloc address).trans free
  refine ⟨⟨setAllocator_valid good.valid isValid, ?_, fun other member =>
    same.inside (good.recorded other member)⟩, same, ?_, ?_⟩
  · refine good.pool.take free' (held_setAllocator isAlloc changed) fun other otherAddress => ?_
    simp only [Tracked, insertBuffer, setAllocator]
    by_cases isId : other = id
    · subst isId
      rw [Function.update_self, List.mem_insert_iff]
      tauto
    · rw [Function.update_of_ne isId]
      tauto
  · exact congrArg Option.isSome (setAllocator_self manager id alloc')
  · have isHeld : algorithm.getAllocationSize alloc' address = some held := by
      rw [changed, Function.update_self]
    have bounds := lawful.inside isValid isHeld
    simp only [region]
    omega

end BankManager

end Manager

end Libtt.Allocator

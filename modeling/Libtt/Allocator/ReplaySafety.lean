import Libtt.Allocator.FirstFit

/-!
# The replay-safety check

The footprint of a capture is sorted, its regions lie apart, and it covers what the operations of
the capture touched.
-/
namespace Libtt.Allocator

open Libtt.Foundation

variable {regions : List AllocationRegion} {entries : List α} {result : Bool}
  {first : AllocationRegion} {footprint : AllocationFootprint}

/-- An operation on the buffers of a memory. -/
inductive Operation where
  | allocateBuffer (id size : Nat) (bottomUp : Bool) (limit : Nat)
    (placed : Option Nat)
  | deallocateBuffer (id : Nat) (address : Nat)
  | markAllocated (id : Nat) (address : Nat) (size : Nat)
  | markDeallocated (id : Nat) (address : Nat)
  | deallocateAll

section Capture

variable {σ ω : Type} (algorithm : Algorithm σ) (handler : OutOfMemoryHandler σ ω)

/-- The bytes of a buffer. -/
def region (id : Nat) (address : Nat) (size : Nat) : AllocationRegion :=
  ⟨id, address, address + size⟩

/-- What the operation does. A failed check throws, with the state as it is by then. -/
def Operation.apply (world : ω × BankManager σ) : Operation → ω × BankManager σ
  | allocateBuffer id size bottomUp limit placed =>
    (world.2.allocateBuffer algorithm handler world.1 id size bottomUp limit placed).2
  | deallocateBuffer id address => (world.1, (world.2.deallocateBuffer algorithm id address).2)
  | markAllocated id address size =>
    (world.1, (world.2.markAllocated algorithm id address size).2)
  | markDeallocated id address => (world.1, (world.2.markDeallocated algorithm id address).2)
  | deallocateAll => (world.1, (world.2.deallocateAll algorithm).2)

/-- The region of a buffer by its size in the allocator. -/
def BankManager.regionOf (manager : BankManager σ) (id : Nat) (address : Nat) :
    List AllocationRegion :=
  (manager.getAllocationSize algorithm id address).toList.map (region id address)

/-- The regions of the buffers that are freed one after another. -/
def BankManager.freed (id : Nat) (manager : BankManager σ) :
    List Nat → List AllocationRegion
  | [] => []
  | address :: addresses => manager.regionOf algorithm id address ++
    (manager.freeBuffer algorithm id address).freed id addresses

/-- The regions of all buffers of some allocators, which are freed one after another. -/
def BankManager.freedAll (manager : BankManager σ) : List Nat → List AllocationRegion
  | [] => []
  | id :: ids =>
    if (manager.allocators id).isSome then
      manager.freed algorithm id (manager.allocatedBuffers id) ++
        (manager.freeBuffers algorithm id).freedAll ids
    else []

/-- The regions of the buffers that an operation allocates or frees. -/
def Operation.touched (world : ω × BankManager σ) : Operation → List AllocationRegion
  | allocateBuffer id size bottomUp limit placed =>
    match (world.2.allocateBuffer algorithm handler world.1 id size bottomUp limit placed).1 with
    | .ok address => [region id address size]
    | .error _ => []
  | deallocateBuffer id address => world.2.regionOf algorithm id address
  | markAllocated id address size =>
    match (world.2.markAllocated algorithm id address size).1 with
    | .ok () => [region id address size]
    | .error _ => []
  | markDeallocated id address =>
    if address ∈ world.2.allocatedBuffers id then world.2.regionOf algorithm id address else []
  | deallocateAll => world.2.freedAll algorithm world.2.allocatorIds

/-- A sequence of operations. -/
def applyAll (operations : List Operation) (world : ω × BankManager σ) : ω × BankManager σ :=
  operations.foldl (fun world operation => operation.apply algorithm handler world) world

/-- The regions that a sequence of operations touches. -/
def touchedAll (world : ω × BankManager σ) : List Operation → List AllocationRegion
  | [] => []
  | operation :: operations => operation.touched algorithm handler world ++
    touchedAll (operation.apply algorithm handler world) operations

end Capture

section Recorded

variable {σ ω : Type} (algorithm : Algorithm σ) (handler : OutOfMemoryHandler σ ω)

/-- The manager is tracking and has recorded the regions in addition to those of another. -/
structure BankManager.Records (before : BankManager σ) (regions : List AllocationRegion)
    (after : BankManager σ) : Prop where
  tracking : after.trackingHighWaterMark = true
  footprint : after.allocationFootprint = before.allocationFootprint ++ regions

namespace BankManager

variable {manager manager' manager'' : BankManager σ}

theorem Records.refl (tracking : manager.trackingHighWaterMark = true) :
    manager.Records [] manager := ⟨tracking, (List.append_nil _).symm⟩

theorem Records.trans {regions' : List AllocationRegion} (first : manager.Records regions manager')
    (second : manager'.Records regions' manager'') :
    manager.Records (regions ++ regions') manager'' :=
  ⟨second.tracking, by rw [second.footprint, first.footprint, List.append_assoc]⟩

theorem records_region (tracking : manager.trackingHighWaterMark = true) (id : Nat)
    (address : Nat) (size : Nat) :
    manager.Records [region id address size] (manager.recordAllocationRegion id address size) := by
  rw [recordAllocationRegion, if_pos tracking]
  exact ⟨tracking, rfl⟩

/-- Other fields do not matter. -/
theorem Records.congr {other : BankManager σ} (records : manager.Records regions manager')
    (tracking : other.trackingHighWaterMark = manager'.trackingHighWaterMark)
    (footprint : other.allocationFootprint = manager'.allocationFootprint) :
    manager.Records regions other :=
  ⟨tracking.trans records.tracking, footprint.trans records.footprint⟩

section

variable (tracking : manager.trackingHighWaterMark = true)
include tracking

theorem placeBuffer_records (id : Nat) (alloc : σ) (address : Nat) (size : Nat) :
    manager.Records [region id address size] (manager.placeBuffer id alloc address size) := by
  simp only [placeBuffer, setAllocator, insertBuffer, raiseAllocationHighWaterMark,
    recordAllocationRegion, tracking, if_true]
  exact ⟨rfl, rfl⟩

theorem allocateBuffer_records (owner : ω) (id size : Nat) (bottomUp : Bool) (limit : Nat)
    (placed : Option Nat) :
    manager.Records ((Operation.allocateBuffer id size bottomUp limit placed).touched algorithm
      handler (owner, manager))
      (manager.allocateBuffer algorithm handler owner id size bottomUp limit placed).2.2 := by
  simp only [Operation.touched, allocateBuffer]
  cases manager.allocators id with
  | none => exact .refl tracking
  | some alloc =>
    by_cases alone : manager.dependentAllocators id = []
    · simp only [if_pos alone]
      cases algorithm.allocate alloc size bottomUp limit with
      | some found => exact placeBuffer_records tracking ..
      | none =>
        have tracking' := (handler.tracking owner manager).trans tracking
        have kept : manager.Records [] (handler.run owner manager).2.2 :=
          (Records.refl tracking).congr (handler.tracking owner manager)
            (handler.footprint owner manager)
        generalize handler.run owner manager = freeing at tracking' kept ⊢
        obtain ⟨freed, owner', manager'⟩ := freeing
        cases freed with
        | error what => exact kept
        | ok freed =>
          cases freed with
          | false => exact kept
          | true =>
            simp only
            cases (manager'.allocators id).bind fun alloc =>
                algorithm.allocate alloc size bottomUp limit with
            | some found => exact kept.trans (placeBuffer_records tracking' ..)
            | none => exact kept
    · simp only [if_neg alone]
      cases placed.bind fun address =>
          (algorithm.allocateAtAddress alloc address size).map (address, ·) with
      | some found => exact placeBuffer_records tracking ..
      | none => exact .refl tracking

theorem deallocateBuffer_records (id : Nat) (address : Nat) :
    manager.Records (manager.regionOf algorithm id address)
      (manager.deallocateBuffer algorithm id address).2 := by
  simp only [regionOf, getAllocationSize, deallocateBuffer]
  cases manager.allocators id with
  | none => exact .refl tracking
  | some alloc =>
    simp only [Option.bind_some]
    cases algorithm.getAllocationSize alloc address with
    | none => exact (Records.refl tracking).congr rfl rfl
    | some size =>
      simp only [raiseDeletionHighWaterMark, tracking, if_true, recordAllocationRegion, setAllocator,
        eraseBuffer]
      exact ⟨rfl, rfl⟩

theorem markAllocated_records (owner : ω) (id : Nat) (address : Nat) (size : Nat) :
    manager.Records ((Operation.markAllocated id address size).touched algorithm handler
      (owner, manager)) (manager.markAllocated algorithm id address size).2 := by
  simp only [Operation.touched, markAllocated]
  cases manager.allocators id with
  | none => exact .refl tracking
  | some alloc =>
    simp only
    cases algorithm.allocateAtAddress alloc address size with
    | none => exact .refl tracking
    | some alloc =>
      simp only [setAllocator, insertBuffer, recordAllocationRegion, tracking, if_true]
      exact ⟨rfl, rfl⟩

theorem freeBuffer_records (id : Nat) (address : Nat) :
    manager.Records (manager.regionOf algorithm id address)
      (manager.freeBuffer algorithm id address) := by
  simp only [regionOf, getAllocationSize, freeBuffer]
  cases manager.allocators id with
  | none => exact .refl tracking
  | some alloc =>
    simp only [Option.bind_some]
    cases algorithm.getAllocationSize alloc address with
    | none => exact (Records.refl tracking).congr rfl rfl
    | some size => exact (records_region tracking id address size).congr rfl rfl

theorem markDeallocated_records (owner : ω) (id : Nat) (address : Nat) :
    manager.Records ((Operation.markDeallocated id address).touched algorithm handler
      (owner, manager)) (manager.markDeallocated algorithm id address).2 := by
  have freed := freeBuffer_records algorithm tracking id address
  rw [freeBuffer] at freed
  rw [Operation.touched, markDeallocated]
  by_cases allocated : address ∈ manager.allocatedBuffers id
  · rw [if_pos allocated]
    cases isAlloc : manager.allocators id with
    | none =>
      rw [isAlloc] at freed
      exact freed
    | some alloc =>
      rw [isAlloc] at freed
      simp only [if_neg (not_not_intro allocated)]
      exact freed.congr rfl rfl
  · rw [if_neg allocated]
    cases manager.allocators id with
    | none => exact .refl tracking
    | some alloc =>
      simp only [if_pos allocated]
      exact .refl tracking

theorem freeBuffers_records (id : Nat) :
    manager.Records (manager.freed algorithm id (manager.allocatedBuffers id))
      (manager.freeBuffers algorithm id) := by
  have each (addresses : List Nat) {manager : BankManager σ}
      (tracking : manager.trackingHighWaterMark = true) :
      manager.Records (manager.freed algorithm id addresses) (addresses.foldl
        (fun manager address => manager.freeBuffer algorithm id address) manager) := by
    induction addresses generalizing manager with
    | nil => exact .refl tracking
    | cons address addresses ih =>
      have first := freeBuffer_records algorithm tracking id address
      exact first.trans (ih first.tracking)
  exact (each _ tracking).congr rfl rfl

theorem deallocateAllFrom_records (ids : List Nat) :
    manager.Records (manager.freedAll algorithm ids)
      (manager.deallocateAllFrom algorithm ids).2 := by
  induction ids generalizing manager with
  | nil => exact .refl tracking
  | cons id ids ih =>
    rw [freedAll, deallocateAllFrom]
    cases manager.allocators id with
    | none => exact .refl tracking
    | some alloc =>
      have first := freeBuffers_records algorithm tracking id
      exact first.trans (ih first.tracking)

end

end BankManager

theorem Operation.apply_records {world : ω × BankManager σ} (operation : Operation)
    (tracking : world.2.trackingHighWaterMark = true) :
    world.2.Records (operation.touched algorithm handler world)
      (operation.apply algorithm handler world).2 := by
  cases operation with
  | allocateBuffer id size bottomUp limit placed =>
    exact BankManager.allocateBuffer_records algorithm handler tracking ..
  | deallocateBuffer id address => exact BankManager.deallocateBuffer_records algorithm tracking ..
  | markAllocated id address size => exact BankManager.markAllocated_records algorithm handler tracking ..
  | markDeallocated id address => exact BankManager.markDeallocated_records algorithm handler tracking ..
  | deallocateAll => exact BankManager.deallocateAllFrom_records algorithm tracking _

theorem applyAll_records {world : ω × BankManager σ} (operations : List Operation)
    (tracking : world.2.trackingHighWaterMark = true) :
    world.2.Records (touchedAll algorithm handler world operations)
      (applyAll algorithm handler operations world).2 := by
  induction operations generalizing world with
  | nil => exact .refl tracking
  | cons operation operations ih =>
    have first := operation.apply_records algorithm handler tracking
    exact first.trans (ih first.tracking)

end Recorded

section

variable {α : Type} {entries : List α} {test : α → Except String Bool}

theorem anyM_ok_true (found : entries.anyM test = .ok true) :
    ∃ entry ∈ entries, test entry = .ok true := by
  induction entries with
  | nil => cases found
  | cons entry entries ih =>
    rw [List.anyM_cons] at found
    cases tested : test entry with
    | error what =>
      rw [tested] at found
      cases found
    | ok holds =>
      rw [tested] at found
      cases holds with
      | true => exact ⟨entry, by simp, tested⟩
      | false =>
        obtain ⟨other, member, holds⟩ := ih found
        exact ⟨other, List.mem_cons_of_mem _ member, holds⟩

theorem anyM_ok_false (missed : entries.anyM test = .ok false) :
    ∀ entry ∈ entries, test entry = .ok false := by
  induction entries with
  | nil => exact nofun
  | cons entry entries ih =>
    rw [List.anyM_cons] at missed
    cases tested : test entry with
    | error what =>
      rw [tested] at missed
      cases missed
    | ok holds =>
      rw [tested] at missed
      cases holds with
      | true => cases missed
      | false => exact List.forall_mem_cons.mpr ⟨tested, ih missed⟩

theorem anyM_isOk (each : ∀ entry ∈ entries, ∃ holds, test entry = .ok holds) :
    ∃ holds, entries.anyM test = .ok holds := by
  induction entries with
  | nil => exact ⟨false, rfl⟩
  | cons entry entries ih =>
    obtain ⟨first, others⟩ := List.forall_mem_cons.mp each
    obtain ⟨holds, tested⟩ := first
    rw [List.anyM_cons, tested]
    cases holds with
    | true => exact ⟨true, rfl⟩
    | false => exact ih others

end

section Overlap

variable {σ : Type} (algorithm : Algorithm σ) (manager : BankManager σ)

namespace BankManager

/-- A live buffer of an allocator. -/
def Live (id : Nat) (address : Nat) (size : Nat) : Prop :=
  address ∈ manager.allocatedBuffers id ∧
    manager.getAllocationSize algorithm id address = some size

/-- The allocators whose buffers a region is compared with: its own and their dependencies. -/
def Reaches (key id : Nat) : Prop := id ∈ key :: manager.dependencies key

/-- Some region overlaps some live buffer that it is compared with. -/
def Overlaps (footprint : AllocationFootprint) : Prop :=
  ∃ region ∈ footprint, ∃ id address size, manager.Reaches region.key id ∧
    manager.Live algorithm id address size ∧ regionOverlaps region address size = true

/-- The checks of the search pass: the allocators exist and know the sizes of their buffers. -/
def Ready (footprint : AllocationFootprint) : Prop :=
  ∀ region ∈ footprint, ∀ id, manager.Reaches region.key id →
    (manager.allocators id).isSome ∧ ∀ address ∈ manager.allocatedBuffers id,
      (manager.getAllocationSize algorithm id address).isSome

end BankManager

variable {algorithm} {manager}

/-- The merged regions of one footprint. -/
structure Sorted (footprint : AllocationFootprint) : Prop where
  apart : footprint.Pairwise KeyedRange.Apart
  ordered : ∀ region ∈ footprint, region.lower ≤ region.upper

theorem Sorted.append {front back : AllocationFootprint} (sorted : Sorted (front ++ back)) :
    Sorted front ∧ Sorted back := by
  obtain ⟨left, right, _⟩ := List.pairwise_append.mp sorted.apart
  exact ⟨⟨left, fun region member => sorted.ordered region (List.mem_append_left _ member)⟩,
    ⟨right, fun region member => sorted.ordered region (List.mem_append_right _ member)⟩⟩

namespace BankManager

theorem anyBuffer_ok {id : Nat} {test : Nat → Nat → Bool}
    (returned : manager.anyBuffer algorithm id test = .ok result) :
    result = true ↔ ∃ address size, manager.Live algorithm id address size ∧
      test address size = true := by
  rw [anyBuffer] at returned
  cases isAlloc : manager.allocators id with
  | none =>
    rw [isAlloc] at returned
    cases returned
  | some alloc =>
    rw [isAlloc] at returned
    have sized (address : Nat) : manager.getAllocationSize algorithm id address =
        algorithm.getAllocationSize alloc address := by rw [getAllocationSize, isAlloc]; rfl
    cases result with
    | true =>
      obtain ⟨address, member, tested⟩ := anyM_ok_true returned
      cases isSize : algorithm.getAllocationSize alloc address with
      | none =>
        rw [isSize] at tested
        cases tested
      | some size =>
        rw [isSize] at tested
        exact iff_of_true rfl ⟨address, size, ⟨member, (sized address).trans isSize⟩,
          Except.ok.inj tested⟩
    | false =>
      refine iff_of_false Bool.false_ne_true ?_
      rintro ⟨address, size, ⟨member, isSize⟩, holds⟩
      have tested := anyM_ok_false returned address member
      rw [sized] at isSize
      rw [isSize] at tested
      exact Bool.false_ne_true ((Except.ok.inj tested).symm.trans holds)

theorem anyBuffer_isOk {id : Nat} (test : Nat → Nat → Bool)
    (initialized : (manager.allocators id).isSome)
    (sized : ∀ address ∈ manager.allocatedBuffers id,
      (manager.getAllocationSize algorithm id address).isSome) :
    ∃ result, manager.anyBuffer algorithm id test = .ok result := by
  obtain ⟨alloc, isAlloc⟩ := Option.isSome_iff_exists.mp initialized
  rw [anyBuffer, isAlloc]
  apply anyM_isOk
  intro address member
  obtain ⟨size, isSize⟩ := Option.isSome_iff_exists.mp (sized address member)
  rw [getAllocationSize, isAlloc] at isSize
  rw [show algorithm.getAllocationSize alloc address = some size from isSize]
  exact ⟨_, rfl⟩

/-- The search in a run of one allocator's regions is the comparison with each of them. -/
theorem runOverlaps_eq {run : AllocationFootprint} {key : Nat} (sorted : Sorted run)
    (same : ∀ region ∈ run, region.key = key) (address : Nat) (size : Nat) :
    runOverlaps run address size = true ↔
      ∃ region ∈ run, regionOverlaps region address size = true := by
  have behind : run.Pairwise fun first second =>
      first.lower < second.lower ∧ first.upper < second.upper := by
    refine sorted.apart.imp_of_mem fun isFirst isSecond apart => ?_
    rcases apart with less | ⟨_, gap⟩
    · rw [same _ isFirst, same _ isSecond] at less
      exact absurd less (Nat.lt_irrefl key)
    · have first := sorted.ordered _ isFirst
      have second := sorted.ordered _ isSecond
      omega
  have monotone : run.Pairwise fun first second =>
      decide (address < first.upper) = true → decide (address < second.upper) = true := by
    refine behind.imp fun order => ?_
    simp only [decide_eq_true_eq]
    omega
  rw [runOverlaps, getElem?_upperBound monotone]
  cases found : run.find? fun region => decide (address < region.upper) with
  | none =>
    rw [List.find?_eq_none] at found
    simp only [Option.any_none, Bool.false_eq_true, false_iff]
    rintro ⟨region, member, overlaps⟩
    rw [regionOverlaps, Bool.and_eq_true] at overlaps
    exact found region member overlaps.2
  | some region =>
    have member := List.mem_of_find?_eq_some found
    have ends := List.find?_some found
    rw [Option.any_some, decide_eq_true_eq]
    constructor
    · intro begins
      exact ⟨region, member, by rw [regionOverlaps, Bool.and_eq_true]; exact ⟨decide_eq_true begins,
        ends⟩⟩
    · rintro ⟨other, isOther, overlaps⟩
      rw [regionOverlaps, Bool.and_eq_true, decide_eq_true_eq, decide_eq_true_eq] at overlaps
      -- No region before the candidate ends behind the address.
      obtain ⟨front, back, split, none⟩ := (List.find?_eq_some_iff_append.mp found).2
      rw [split] at isOther behind
      rcases List.mem_append.mp isOther with before | after
      · have fails := none other before
        simp only [Bool.not_eq_true', decide_eq_false_iff_not] at fails
        exact absurd overlaps.2 fails
      · rcases List.mem_cons.mp after with equal | after
        · exact equal ▸ overlaps.1
        · have order := (List.pairwise_cons.mp (List.pairwise_append.mp behind).2.1).1 other after
          omega

theorem overlaps_append (front back : AllocationFootprint) :
    manager.Overlaps algorithm (front ++ back) ↔
      manager.Overlaps algorithm front ∨ manager.Overlaps algorithm back := by
  simp only [Overlaps, List.mem_append, or_and_right, exists_or]

/-- The regions of one allocator at the front of a footprint. -/
def firstRun (first : AllocationRegion) (rest : AllocationFootprint) : AllocationFootprint :=
  first :: rest.takeWhile fun region => region.key = first.key

/-- What stands behind them. -/
def behindRun (first : AllocationRegion) (rest : AllocationFootprint) : AllocationFootprint :=
  rest.dropWhile fun region => region.key = first.key

theorem firstRun_append (first : AllocationRegion) (rest : AllocationFootprint) :
    first :: rest = firstRun first rest ++ behindRun first rest := by
  rw [firstRun, behindRun, List.cons_append, List.takeWhile_append_dropWhile]

theorem firstRun_key {rest : AllocationFootprint} :
    ∀ region ∈ firstRun first rest, region.key = first.key := by
  intro region member
  rcases List.mem_cons.mp member with equal | member
  · rw [equal]
  · exact of_decide_eq_true (List.all_eq_true.mp List.all_takeWhile region member)

/-- The search with its assertion passed. -/
theorem hasLiveAllocationOverlap_cons {first : AllocationRegion} {rest : AllocationFootprint}
    (sorted : Sorted (first :: rest)) :
    manager.hasLiveAllocationOverlap algorithm (first :: rest) = (do
      if ← (first.key :: manager.dependencies first.key).anyM fun id =>
          manager.anyBuffer algorithm id (runOverlaps (firstRun first rest)) then
        return true
      manager.hasLiveAllocationOverlap algorithm (behindRun first rest)) := by
  have chain : (firstRun first rest).IsChain fun lhs rhs => ¬rhs.lower < lhs.upper := by
    rw [firstRun_append first rest] at sorted
    refine (sorted.append.1.apart.imp_of_mem fun isFirst isSecond apart => ?_).isChain
    rcases apart with less | ⟨_, gap⟩
    · rw [firstRun_key _ isFirst, firstRun_key _ isSecond] at less
      exact absurd less (Nat.lt_irrefl _)
    · omega
  rw [hasLiveAllocationOverlap]
  exact if_neg (not_not_intro chain)

theorem run_overlaps {first : AllocationRegion} {rest : AllocationFootprint} {result : Bool}
    (sorted : Sorted (firstRun first rest))
    (returned : ((first.key :: manager.dependencies first.key).anyM fun id =>
      manager.anyBuffer algorithm id (runOverlaps (firstRun first rest))) = .ok result) :
    result = true ↔ manager.Overlaps algorithm (firstRun first rest) := by
  have search := runOverlaps_eq sorted firstRun_key
  cases result with
  | true =>
    obtain ⟨id, reaches, found⟩ := anyM_ok_true returned
    obtain ⟨address, size, live, overlaps⟩ := (anyBuffer_ok found).mp rfl
    obtain ⟨region, member, overlaps⟩ := (search address size).mp overlaps
    exact iff_of_true rfl ⟨region, member, id, address, size,
      (firstRun_key region member).symm ▸ reaches, live, overlaps⟩
  | false =>
    refine iff_of_false Bool.false_ne_true ?_
    rintro ⟨region, member, id, address, size, reaches, live, overlaps⟩
    rw [firstRun_key region member] at reaches
    have missed := (anyBuffer_ok (anyM_ok_false returned id reaches)).mpr
      ⟨address, size, live, (search address size).mpr ⟨region, member, overlaps⟩⟩
    cases missed

/-- What the search reports. -/
theorem hasLiveAllocationOverlap_ok (sorted : Sorted footprint)
    (returned : manager.hasLiveAllocationOverlap algorithm footprint = .ok result) :
    result = true ↔ manager.Overlaps algorithm footprint := by
  induction count : footprint.length using Nat.strongRecOn generalizing footprint with
  | ind count ih =>
    subst count
    cases footprint with
    | nil =>
      rw [hasLiveAllocationOverlap] at returned
      cases returned
      simp [Overlaps]
    | cons first rest =>
      rw [hasLiveAllocationOverlap_cons sorted] at returned
      have parts := firstRun_append first rest
      rw [parts] at sorted ⊢
      rw [overlaps_append]
      cases searched : (first.key :: manager.dependencies first.key).anyM fun id =>
          manager.anyBuffer algorithm id (runOverlaps (firstRun first rest)) with
      | error what =>
        rw [searched] at returned
        cases returned
      | ok found =>
        rw [searched] at returned
        have run := run_overlaps sorted.append.1 searched
        cases found with
        | true =>
          cases returned
          exact iff_of_true rfl (.inl (run.mp rfl))
        | false =>
          have shorter : (behindRun first rest).length < (first :: rest).length :=
            Nat.lt_succ_of_le (List.dropWhile_sublist _).length_le
          have behind := ih _ shorter sorted.append.2 returned rfl
          rw [behind, or_iff_right fun overlaps => Bool.false_ne_true (run.mpr overlaps)]

theorem hasLiveAllocationOverlap_isOk (sorted : Sorted footprint)
    (ready : manager.Ready algorithm footprint) :
    ∃ result, manager.hasLiveAllocationOverlap algorithm footprint = .ok result := by
  induction count : footprint.length using Nat.strongRecOn generalizing footprint with
  | ind count ih =>
    subst count
    cases footprint with
    | nil => exact ⟨false, by rw [hasLiveAllocationOverlap]⟩
    | cons first rest =>
      rw [hasLiveAllocationOverlap_cons sorted]
      have parts := firstRun_append first rest
      obtain ⟨found, searched⟩ := anyM_isOk fun id (reaches : manager.Reaches first.key id) =>
        anyBuffer_isOk (runOverlaps (firstRun first rest))
          (ready first (by simp) id reaches).1 (ready first (by simp) id reaches).2
      rw [searched]
      cases found with
      | true => exact ⟨true, rfl⟩
      | false =>
        have shorter : (behindRun first rest).length < (first :: rest).length :=
          Nat.lt_succ_of_le (List.dropWhile_sublist _).length_le
        rw [parts] at sorted
        exact ih _ shorter sorted.append.2
          (fun region member => ready region (parts ▸ List.mem_append_right _ member)) rfl

/-- What comparing every region with every buffer reports. -/
theorem hasLiveAllocationOverlapPairwise_ok {footprint : AllocationFootprint} {result : Bool}
    (returned : manager.hasLiveAllocationOverlapPairwise algorithm footprint = .ok result) :
    result = true ↔ manager.Overlaps algorithm footprint := by
  cases result with
  | true =>
    obtain ⟨region, member, found⟩ := anyM_ok_true returned
    obtain ⟨id, reaches, found⟩ := anyM_ok_true found
    obtain ⟨address, size, live, overlaps⟩ := (anyBuffer_ok found).mp rfl
    exact iff_of_true rfl ⟨region, member, id, address, size, reaches, live, overlaps⟩
  | false =>
    refine iff_of_false Bool.false_ne_true ?_
    rintro ⟨region, member, id, address, size, reaches, live, overlaps⟩
    have missed := anyM_ok_false (anyM_ok_false returned region member) id reaches
    cases (anyBuffer_ok missed).mpr ⟨address, size, live, overlaps⟩

theorem hasLiveAllocationOverlapPairwise_isOk (ready : manager.Ready algorithm footprint) :
    ∃ result, manager.hasLiveAllocationOverlapPairwise algorithm footprint = .ok result :=
  anyM_isOk fun region member => anyM_isOk fun id reaches =>
    anyBuffer_isOk _ (ready region member id reaches).1 (ready region member id reaches).2

end BankManager

end Overlap

section Exact

variable {σ ω : Type} {algorithm : Algorithm σ} {handler : OutOfMemoryHandler σ ω}

/-- A buffer shares a byte with a region of the key, or has no byte and lies between two bytes of
such regions, or has a region without bytes strictly inside. -/
def Meets (regions : List AllocationRegion) (key address size : Nat) : Prop :=
  (∃ byte, KeyedRange.Covers regions key byte ∧ address ≤ byte ∧ byte < address + size) ∨
    (size = 0 ∧ 0 < address ∧ KeyedRange.Covers regions key (address - 1) ∧
      KeyedRange.Covers regions key address) ∨
    ∃ region ∈ regions, region.key = key ∧ region.lower = region.upper ∧
      address < region.lower ∧ region.lower < address + size

/-- Regions whose bounds are in order. -/
def Ordered (regions : List AllocationRegion) : Prop :=
  ∀ region ∈ regions, region.lower ≤ region.upper

theorem Ordered.append {front back : List AllocationRegion} (first : Ordered front)
    (second : Ordered back) : Ordered (front ++ back) := fun region member =>
  (List.mem_append.mp member).elim (first region) (second region)

theorem ordered_region (id address size : Nat) : Ordered [region id address size] := by
  intro other member
  rw [List.mem_singleton.mp member]
  exact Nat.le_add_right address size

theorem ordered_regionOf (manager : BankManager σ) (id address : Nat) :
    Ordered (manager.regionOf algorithm id address) := by
  rw [BankManager.regionOf]
  cases manager.getAllocationSize algorithm id address with
  | none => exact nofun
  | some size => exact ordered_region id address size

theorem ordered_freedAll (manager : BankManager σ) (ids : List Nat) :
    Ordered (manager.freedAll algorithm ids) := by
  have freed (id : Nat) (addresses : List Nat) (manager : BankManager σ) :
      Ordered (manager.freed algorithm id addresses) := by
    induction addresses generalizing manager with
    | nil => exact nofun
    | cons address addresses ih => exact (ordered_regionOf _ _ _).append (ih _)
  induction ids generalizing manager with
  | nil => exact nofun
  | cons id ids ih =>
    rw [BankManager.freedAll]
    split
    · exact (freed _ _ _).append (ih _)
    · exact nofun

theorem ordered_touched (world : ω × BankManager σ) (operation : Operation) :
    Ordered (operation.touched algorithm handler world) := by
  cases operation with
  | allocateBuffer =>
    rw [Operation.touched]
    split
    · exact ordered_region _ _ _
    · exact nofun
  | deallocateBuffer => exact ordered_regionOf _ _ _
  | markAllocated =>
    rw [Operation.touched]
    split
    · exact ordered_region _ _ _
    · exact nofun
  | markDeallocated =>
    rw [Operation.touched]
    split
    · exact ordered_regionOf _ _ _
    · exact nofun
  | deallocateAll => exact ordered_freedAll _ _

theorem ordered_touchedAll (world : ω × BankManager σ) (operations : List Operation) :
    Ordered (touchedAll algorithm handler world operations) := by
  induction operations generalizing world with
  | nil => exact nofun
  | cons operation operations ih => exact (ordered_touched world operation).append (ih _)

theorem sorted_coalesce (ordered : Ordered regions) :
    Sorted (KeyedRange.coalesce regions) := by
  refine ⟨KeyedRange.coalesce_apart regions, fun whole member => ?_⟩
  obtain ⟨region, isRegion, _, lower, upper⟩ :=
    (KeyedRange.coalesce_merged regions).begins whole member
  have order := ordered region isRegion
  omega

/-- Ranges that lie apart and cover neighbouring elements are one range. -/
theorem eq_of_neighbours (sorted : Sorted footprint) {second : AllocationRegion}
    (isFirst : first ∈ footprint) (isSecond : second ∈ footprint) {key address : Nat}
    (left : first.Contains key (address - 1)) (right : second.Contains key address) :
    first = second := by
  obtain ⟨isKey, above, below⟩ := left
  obtain ⟨isKey', above', below'⟩ := right
  rcases KeyedRange.eq_or_apart sorted.apart isFirst isSecond with equal | apart | apart
  · exact equal
  · rcases apart with less | ⟨_, gap⟩ <;> omega
  · rcases apart with less | ⟨_, gap⟩ <;> omega

/-- Some merged region overlaps a buffer exactly when the buffer meets the regions. -/
theorem overlaps_coalesce (ordered : Ordered regions) (key address size : Nat) :
    (∃ whole ∈ KeyedRange.coalesce regions, whole.key = key ∧
      BankManager.regionOverlaps whole address size = true) ↔ Meets regions key address size := by
  have merged := KeyedRange.coalesce_merged regions
  have sorted := sorted_coalesce ordered
  simp only [BankManager.regionOverlaps, Bool.and_eq_true, decide_eq_true_eq]
  constructor
  · rintro ⟨whole, member, isKey, begins, ends⟩
    have covers {byte : Nat} (above : whole.lower ≤ byte) (below : byte < whole.upper) :
        KeyedRange.Covers regions key byte :=
      (merged.covers key byte).mp ⟨whole, member, isKey, above, below⟩
    by_cases empty : size = 0
    · exact .inr (.inl ⟨empty, by omega, covers (by omega) (by omega),
        covers (by omega) (by omega)⟩)
    by_cases bytes : whole.lower < whole.upper
    · exact .inl ⟨max address whole.lower, covers (by omega) (by omega), by omega, by omega⟩
    · obtain ⟨region, isRegion, isKey', lower, upper⟩ := merged.begins whole member
      have order := ordered region isRegion
      exact .inr (.inr ⟨region, isRegion, isKey'.trans isKey, by omega, by omega, by omega⟩)
  · rintro (⟨byte, covers, above, below⟩ | ⟨empty, positive, left, right⟩ |
      ⟨region, isRegion, isKey, empty, above, below⟩)
    · obtain ⟨whole, member, isKey, lower, upper⟩ := (merged.covers key byte).mpr covers
      exact ⟨whole, member, isKey, by omega, by omega⟩
    · obtain ⟨whole, member, left⟩ := (merged.covers key _).mpr left
      obtain ⟨whole', member', right⟩ := (merged.covers key _).mpr right
      have equal := eq_of_neighbours sorted member member' left right
      obtain ⟨isKey, lower, upper⟩ := left
      obtain ⟨_, lower', upper'⟩ := right
      subst equal
      exact ⟨whole, member, isKey, by omega, upper'⟩
    · obtain ⟨whole, member, isKey', lower, upper⟩ := merged.within region isRegion
      exact ⟨whole, member, isKey'.trans isKey, by omega, by omega⟩

end Exact

/-- A manager of one free list of 16 bytes. -/
def singleManager (held : FirstFit.Held) (buffers : List Nat) : BankManager FirstFit.Held where
  allocators := fun id => if id = 0 then some held else none
  allocatorIds := [0]
  dependencies := fun _ => []
  dependentAllocators := fun _ => []
  allocatedBuffers := fun id => if id = 0 then buffers else []
  trackingHighWaterMark := false
  allocationHighWaterMark := 0
  deletionHighWaterMark := 0
  allocationFootprint := []

/-- No memory to give up. -/
def noHandler : OutOfMemoryHandler FirstFit.Held Unit where
  run owner manager := (.ok false, owner, manager)
  tracking _ _ := rfl
  footprint _ _ := rfl

/-- Two buffers side by side. -/
def neighbours : List Operation := [.markAllocated 0 0 4, .markAllocated 0 4 4]

end Libtt.Allocator

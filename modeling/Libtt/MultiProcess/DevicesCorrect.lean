import Libtt.MultiProcess.Merging

/-!
# All processes agree on who owns each device

The processes that return have merged the same chips, and a result has every position once.
-/
namespace Libtt.MultiProcess

open Libtt.Foundation Libtt.KeyValue

variable {ChipDesc Capability Channel Others : Type}

/-- In a sorted list as many elements come before one as its place says. -/
theorem countP_before {α : Type} {before : α → α → Bool} {elements : List α}
    (sorted : elements.Pairwise fun first second => before first second = true)
    (asymm : ∀ first second, before first second = true → before second first = false)
    {place : Nat} {element : α} (isElement : elements[place]? = some element) :
    elements.countP (before · element) = place := by
  induction elements generalizing place with
  | nil => cases isElement
  | cons first rest ih =>
    obtain ⟨least, restSorted⟩ := List.pairwise_cons.mp sorted
    cases place with
    | zero =>
      have isFirst : first = element := Option.some.inj isElement
      rw [List.countP_eq_zero]
      intro other member
      rw [← isFirst]
      rcases List.mem_cons.mp member with rfl | later
      · intro self
        have opposite := asymm other other self
        rw [self] at opposite
        cases opposite
      · rw [asymm _ _ (least other later)]
        decide
    | succ place =>
      have inRest : rest[place]? = some element := isElement
      have member := List.mem_of_getElem? inRest
      have counted := List.countP_cons_of_pos (p := (before · element)) (l := rest)
        (least element member)
      rw [counted, ih restSorted inRest]

/-- The strict order of pairs. -/
def pairBefore (left right : Int × Int) : Bool :=
  left.1 < right.1 || left.1 = right.1 && left.2 < right.2

theorem pairBefore_asymm (left right : Int × Int) (before : pairBefore left right = true) :
    pairBefore right left = false := by
  simp only [pairBefore, Bool.or_eq_true, decide_eq_true_eq, Bool.and_eq_true] at before
  simp only [pairBefore, Bool.or_eq_false_iff, decide_eq_false_iff_not, Bool.and_eq_false_imp,
    decide_eq_true_eq]
  omega

theorem pairLe_trans (first second third : Int × Int) (left : pairLe first second = true)
    (right : pairLe second third = true) : pairLe first third = true := by
  simp only [pairLe, Bool.or_eq_true, decide_eq_true_eq, Bool.and_eq_true] at *
  omega

theorem pairLe_total (first second : Int × Int) :
    pairLe first second = true ∨ pairLe second first = true := by
  simp only [pairLe, Bool.or_eq_true, decide_eq_true_eq, Bool.and_eq_true]
  omega

theorem toInt_position {position : Nat} (less : position < 2 ^ 31) :
    (Int32.ofNat position).toInt = position := Int32.toInt_ofNat_of_lt less

section Positions

variable {deviceIds : List (Option Int)} (small : deviceIds.length ≤ 2 ^ 31)

theorem inside_of_some {position : Nat} {physicalId : Int}
    (isLocal : deviceIds.getD position none = some physicalId) : position < deviceIds.length := by
  by_contra outside
  rw [List.getD_eq_default _ _ (Nat.not_lt.mp outside)] at isLocal
  cases isLocal

include small

theorem localPairs_nodup : (localPairs deviceIds).Nodup := by
  apply List.nodup_range.filterMap
  intro first second id isFirst isSecond
  obtain ⟨_, firstLocal, isId⟩ := Option.map_eq_some_iff.mp isFirst
  obtain ⟨_, secondLocal, isOther⟩ := Option.map_eq_some_iff.mp isSecond
  have firstLess := inside_of_some firstLocal
  have secondLess := inside_of_some secondLocal
  have same := congrArg Prod.snd (isId.trans isOther.symm)
  dsimp only at same
  rw [toInt_position (by omega), toInt_position (by omega)] at same
  exact_mod_cast same

/-- The chips are in the order of their physical IDs. -/
theorem localIds_sorted : (localIds deviceIds).Pairwise fun first second =>
    pairBefore first second = true := by
  have sorted : (localIds deviceIds).Pairwise fun left right => pairLe left right = true := by
    have total : Std.Total fun left right => pairLe left right = true := ⟨pairLe_total⟩
    have trans : IsTrans (Int × Int) fun left right => pairLe left right = true := ⟨pairLe_trans⟩
    exact List.pairwise_insertionSort _ _
  have nodup : (localIds deviceIds).Nodup :=
    (List.perm_insertionSort _ _).nodup_iff.mpr (localPairs_nodup small)
  refine (sorted.and nodup).imp fun {first second} both => ?_
  obtain ⟨ordered, different⟩ := both
  have apart : ¬(first.1 = second.1 ∧ first.2 = second.2) :=
    fun same => different (Prod.ext same.1 same.2)
  simp only [pairLe, pairBefore, Bool.or_eq_true, decide_eq_true_eq, Bool.and_eq_true] at *
  omega

end Positions

variable (machines : Nat → Machine ChipDesc Capability Channel Others)

/-- The place of a chip is how many come before it. -/
theorem chipPlace_eq {machine : Machine ChipDesc Capability Channel Others}
    (small : machine.deviceIds.length ≤ 2 ^ 31) {position place : Nat} {physicalId : Int}
    (isLocal : machine.deviceIds.getD position none = some physicalId)
    (isPlace : (localIds machine.deviceIds)[place]? = some (physicalId, (position : Int))) :
    machine.chipPlace position = place := by
  rw [← countP_before (localIds_sorted small) pairBefore_asymm isPlace]
  rw [localIds, (List.perm_insertionSort _ _).countP_eq, localPairs, List.countP_filterMap,
    Machine.chipPlace, isLocal]
  apply List.countP_congr
  intro other member
  have less := List.mem_range.mp member
  cases machine.deviceIds.getD other none with
  | none => exact Iff.rfl
  | some otherId =>
    simp only [Option.map_some, pairBefore, toInt_position (show other < 2 ^ 31 by omega)]
    simp

/-- A position that is published is one that a chip is mapped to, by its place. -/
theorem publishedAt_eq_some {process place id : Nat}
    (small : (machines process).deviceIds.length ≤ 2 ^ 31)
    (isId : publishedAt machines (process, place) = some id) :
    (machines process).Maps id ∧ (machines process).chipPlace id = place := by
  obtain ⟨pair, isPair, isSize⟩ := Option.map_eq_some_iff.mp isId
  have member := (List.mem_insertionSort _).mp (List.mem_of_getElem? isPair)
  obtain ⟨position, _, isPosition⟩ := List.mem_filterMap.mp member
  obtain ⟨physicalId, isLocal, rfl⟩ := Option.map_eq_some_iff.mp isPosition
  have inside : position < (machines process).deviceIds.length := inside_of_some isLocal
  rw [toInt_position (by omega)] at isSize isPair
  have same : position = id := by
    rw [← isSize]
    show position = ((position : Int) % 2 ^ 64).toNat
    omega
  rw [← same]
  exact ⟨⟨physicalId, isLocal⟩, chipPlace_eq small isLocal isPair⟩

theorem publishedAt_chipPlace {process position : Nat}
    (small : (machines process).deviceIds.length ≤ 2 ^ 31)
    (maps : (machines process).Maps position) :
    publishedAt machines (process, (machines process).chipPlace position) = some position ∧
      (machines process).chipPlace position < (localIds (machines process).deviceIds).length := by
  obtain ⟨physicalId, isLocal⟩ := maps
  have inside := inside_of_some isLocal
  have inPairs : (physicalId, (position : Int)) ∈ localPairs (machines process).deviceIds := by
    apply List.mem_filterMap.mpr
    refine ⟨position, List.mem_range.mpr inside, ?_⟩
    rw [isLocal, Option.map_some, toInt_position (by omega)]
  have inIds := (List.mem_insertionSort fun left right => pairLe left right = true).mpr inPairs
  obtain ⟨place, isPlace⟩ := List.mem_iff_getElem?.mp inIds
  have same := chipPlace_eq small isLocal isPlace
  have isSize : sizeOfInt (position : Int) = position := by
    show ((position : Int) % 2 ^ 64).toNat = position
    omega
  rw [same]
  constructor
  · rw [publishedAt]
    rw [localIds, isPlace, Option.map_some, isSize]
  · exact (List.getElem?_eq_some_iff.mp isPlace).1

theorem mem_chipsOfAll {size : Nat} {chip : Chip} : chip ∈ chipsOfAll machines (List.range size) ↔
    chip.1 < size ∧ chip.2 < (machines chip.1).desc.chipDescIndices.length := by
  simp only [chipsOfAll, chipsOf, List.mem_flatMap, List.mem_map, List.mem_range]
  constructor
  · rintro ⟨process, inside, i, less, rfl⟩
    exact ⟨inside, less⟩
  · rintro ⟨inside, less⟩
    exact ⟨chip.1, inside, chip.2, less, rfl⟩

theorem reduceOption_of_isSome {α : Type} {elements : List (Option α)}
    (all : ∀ element ∈ elements, element.isSome = true) :
    elements.reduceOption.map some = elements := by
  induction elements with
  | nil => rfl
  | cons first rest ih =>
    obtain ⟨element, rfl⟩ := Option.isSome_iff_exists.mp (all first (by simp))
    rw [List.reduceOption_cons_of_some, List.map_cons,
      ih fun other member => all other (by simp [member])]

/-- A position that is no `int` has no owner. -/
theorem count_le {count : Nat}
    (all : ∀ id < count, ∃ chip : Chip, publishedAt machines chip = some id) : count ≤ 2 ^ 31 := by
  by_contra more
  obtain ⟨chip, isId⟩ := all (2 ^ 31) (by omega)
  obtain ⟨pair, isPair, isSize⟩ := Option.map_eq_some_iff.mp isId
  obtain ⟨least, less⟩ := localIds_written _ pair (List.mem_of_getElem? isPair)
  have number : (pair.2 % 2 ^ 64).toNat = 2 ^ 31 := isSize
  omega

variable {machines} {size count : Nat} {merged : Merged ChipDesc Capability}

/-- Where every position has an owner, it is the process that maps a chip to it. -/
theorem Represents.ownedByMappers
    {flat : Flatbuffers (SystemDesc ChipDesc Capability Channel Others)}
    (roundTrips : flat.RoundTrips)
    (represents : Represents machines count (chipsOfAll machines (List.range size)) merged)
    (consistent : ∀ process < size, (machines process).Consistent)
    (sameCount : ∀ process < size, (machines process).deviceIds.length = count)
    {desc result : SystemDesc ChipDesc Capability Channel Others} {owners : List Int}
    (returned : packMerged flat count desc merged = .ok (result, owners)) :
    OwnedByMappers machines size count result owners ∧ ¬Faulty machines size count := by
  unfold packMerged at returned
  split at returned
  · cases returned
  rename_i noneFree
  dsimp only at returned
  rw [roundTrips.unpacked] at returned
  obtain ⟨isResult, isOwners⟩ := Prod.mk.inj (Except.ok.inj returned)
  obtain ⟨ownersLength, descsLength, capabilitiesLength⟩ := represents.lengths
  have covered (id : Nat) (inside : id < count) : ∃ chip ∈ chipsOfAll machines (List.range size),
      publishedAt machines chip = some id := by
    rcases represents.free id inside with free | claimed
    · exact absurd (List.mem_of_getElem? free) noneFree
    · exact claimed
  have small : count ≤ 2 ^ 31 := by
    apply count_le machines
    intro id inside
    obtain ⟨chip, _, isChip⟩ := covered id inside
    exact ⟨chip, isChip⟩
  have published {process place id : Nat} (inside : process < size)
      (isId : publishedAt machines (process, place) = some id) :=
    publishedAt_eq_some machines ((sameCount process inside).trans_le small) isId
  have mapped {process position : Nat} (inside : process < size)
      (maps : (machines process).Maps position) :
      publishedAt machines (process, (machines process).chipPlace position) = some position ∧
        (process, (machines process).chipPlace position) ∈
          chipsOfAll machines (List.range size) := by
    obtain ⟨isPublished, less⟩ :=
      publishedAt_chipPlace machines ((sameCount process inside).trans_le small) maps
    exact ⟨isPublished, (mem_chipsOfAll machines).mpr ⟨inside, consistent process inside ▸ less⟩⟩
  have unique {process other position : Nat} (inside : process < size) (otherInside : other < size)
      (maps : (machines process).Maps position) (otherMaps : (machines other).Maps position) :
      process = other := by
    obtain ⟨isPublished, member⟩ := mapped inside maps
    obtain ⟨otherPublished, otherMember⟩ := mapped otherInside otherMaps
    exact congrArg Prod.fst (represents.distinct _ member _ otherMember
      (isPublished.trans otherPublished.symm))
  have placedAt (id : Nat) (inside : id < count) : ∃ owner < size, (machines owner).Maps id ∧
      Placed machines count merged (owner, (machines owner).chipPlace id) id := by
    obtain ⟨⟨owner, place⟩, member, isChip⟩ := covered id inside
    obtain ⟨ownerInside, _⟩ := (mem_chipsOfAll machines).mp member
    obtain ⟨maps, isPlace⟩ := published ownerInside isChip
    obtain ⟨other, placed⟩ := represents.placed _ member
    have same : other = id := Option.some.inj (placed.isId.symm.trans isChip)
    rw [same, ← isPlace] at placed
    exact ⟨owner, ownerInside, maps, placed⟩
  have descs : merged.chipDescs.reduceOption.map some = merged.chipDescs := by
    apply reduceOption_of_isSome
    intro element member
    obtain ⟨id, isElement⟩ := List.mem_iff_getElem?.mp member
    obtain ⟨less, _⟩ := List.getElem?_eq_some_iff.mp isElement
    obtain ⟨_, _, _, placed⟩ := placedAt id (by omega)
    obtain ⟨desc, _, isDesc⟩ := placed.desc
    rw [← Option.some.inj (isDesc.symm.trans isElement)]
    rfl
  have isDescs : result.chipDescs = merged.chipDescs.reduceOption := by rw [← isResult]
  have isCapabilities : result.chipCapabilities = merged.chipCapabilities := by rw [← isResult]
  constructor
  · constructor
    · refine ⟨by rw [← isOwners, ownersLength], ?_, by rw [isCapabilities, capabilitiesLength],
        by rw [← isResult]⟩
      rw [isDescs, ← descsLength, ← descs, List.length_map]
      rw [descs]
    · intro position inside
      obtain ⟨owner, ownerInside, maps, placed⟩ := placedAt position inside
      refine ⟨owner, ownerInside, ?_, ?_, ?_, ?_⟩
      · intro process processInside
        constructor
        · intro processMaps
          exact unique processInside ownerInside processMaps maps
        · rintro rfl
          exact maps
      · rw [← isOwners]
        exact placed.owner
      · obtain ⟨desc, isDesc, atPosition⟩ := placed.desc
        refine ⟨desc, isDesc, ?_⟩
        rw [← descs, List.getElem?_map] at atPosition
        obtain ⟨found, isFound, same⟩ := Option.map_eq_some_iff.mp atPosition
        rw [isDescs, isFound, same]
      · obtain ⟨capability, isCapability, atPosition⟩ := placed.capability
        exact ⟨capability, isCapability, isCapabilities ▸ atPosition⟩
  · rintro (⟨position, _, process, inside, other, otherInside, different, maps, otherMaps⟩ |
      ⟨position, inside, unclaimed⟩ | ⟨process, inside, id, member, outside⟩)
    · exact different (unique inside otherInside maps otherMaps)
    · obtain ⟨owner, ownerInside, maps, _⟩ := placedAt position inside
      exact unclaimed owner ownerInside maps
    · obtain ⟨place, isPlace⟩ := List.mem_iff_getElem?.mp member
      have isId : publishedAt machines (process, place) = some (sizeOfInt id.2) := by
        show (localIds (machines process).deviceIds)[place]?.map _ = _
        rw [isPlace]
        rfl
      have less := (List.getElem?_eq_some_iff.mp isPlace).1
      have known : (process, place) ∈ chipsOfAll machines (List.range size) :=
        (mem_chipsOfAll machines).mpr ⟨inside, consistent process inside ▸ less⟩
      obtain ⟨other, placed⟩ := represents.placed _ known
      have same : other = sizeOfInt id.2 := Option.some.inj (placed.isId.symm.trans isId)
      have bound := placed.inside
      rw [same] at bound
      exact Nat.not_le.mpr bound outside

/-- Two results are of the same owners and chips. -/
theorem OwnedByMappers.agree {desc other : SystemDesc ChipDesc Capability Channel Others}
    {owners otherOwners : List Int} (first : OwnedByMappers machines size count desc owners)
    (second : OwnedByMappers machines size count other otherOwners) : owners = otherOwners ∧
      desc.chipDescs = other.chipDescs ∧ desc.chipCapabilities = other.chipCapabilities ∧
      desc.chipDescIndices = other.chipDescIndices := by
  obtain ⟨ownersLength, descsLength, capabilitiesLength, isIndices⟩ := first.length_eq
  obtain ⟨otherOwnersLength, otherDescsLength, otherCapabilitiesLength, isOtherIndices⟩ :=
    second.length_eq
  have same {α : Type} {left right : List α} (leftLength : left.length = count)
      (rightLength : right.length = count)
      (equal : ∀ position < count, left[position]? = right[position]?) : left = right := by
    apply List.ext_getElem?
    intro position
    by_cases inside : position < count
    · exact equal position inside
    · rw [List.getElem?_eq_none (by omega), List.getElem?_eq_none (by omega)]
  have owned (position : Nat) (inside : position < count) :
      owners[position]? = otherOwners[position]? ∧
      desc.chipDescs[position]? = other.chipDescs[position]? ∧
      desc.chipCapabilities[position]? = other.chipCapabilities[position]? := by
    obtain ⟨owner, ownerInside, maps, isOwner, ⟨chipDesc, isDesc, atDesc⟩,
      ⟨capability, isCapability, atCapability⟩⟩ := first.owned position inside
    obtain ⟨otherOwner, _, otherMaps, isOtherOwner, ⟨otherDesc, isOtherDesc, atOtherDesc⟩,
      ⟨otherCapability, isOtherCapability, atOtherCapability⟩⟩ := second.owned position inside
    have sameOwner : owner = otherOwner := (otherMaps owner ownerInside).mp
      ((maps owner ownerInside).mpr rfl)
    rw [← sameOwner] at isOtherOwner isOtherDesc isOtherCapability
    rw [isOwner, isOtherOwner, atDesc, atOtherDesc, atCapability, atOtherCapability, ← isDesc,
      ← isOtherDesc, ← isCapability, ← isOtherCapability]
    exact ⟨rfl, rfl, rfl⟩
  refine ⟨?_, ?_, ?_, isIndices.trans isOtherIndices.symm⟩
  · exact same ownersLength otherOwnersLength fun position inside => (owned position inside).1
  · exact same descsLength otherDescsLength fun position inside => (owned position inside).2.1
  · exact same capabilitiesLength otherCapabilitiesLength
      fun position inside => (owned position inside).2.2

/-- The loop over the devices. -/
theorem addDevices_addressed {processIndex processCount : Nat} {owners : List Int}
    (chipDescs : List ChipDesc)
    (single : ¬processCount > 1 → ∀ owner ∈ owners, owner = (processIndex : Int))
    {total : Nat} (within : total ≤ owners.length) :
    let state := (List.range total).foldl (addDevice processIndex processCount owners chipDescs)
      ([], 0)
    Addressed processIndex (owners.take total) state.1 ∧
      state.2 = (owners.take total).count (processIndex : Int) := by
  induction total with
  | zero =>
    refine ⟨⟨rfl, ?_⟩, rfl⟩
    rintro i device ⟨⟩
  | succ total ih =>
    obtain ⟨addressed, isNumber⟩ := ih (by omega)
    rw [List.range_succ, List.foldl_append, List.foldl_cons, List.foldl_nil]
    generalize (List.range total).foldl
      (addDevice processIndex processCount owners chipDescs) ([], 0) = state at *
    have inside : total < owners.length := within
    have isOwner : (if processCount > 1 then owners.getD total 0 else (processIndex : Int)) =
        owners[total] := by
      by_cases multi : processCount > 1
      · rw [if_pos multi, List.getD_eq_getElem _ _ inside]
      · rw [if_neg multi, single multi _ (List.getElem_mem inside)]
    have isTake : owners.take (total + 1) = owners.take total ++ [owners[total]] :=
      List.take_succ_eq_append_getElem inside
    have isLength : state.1.length = total := by
      rw [addressed.length_eq, List.length_take]
      omega
    dsimp only [addDevice]
    rw [isOwner, isTake]
    constructor
    · constructor
      · rw [List.length_append, List.length_append, addressed.length_eq]
        rfl
      · intro i device isDevice
        by_cases before : i < total
        · rw [List.getElem?_append_left (by omega)] at isDevice
          obtain ⟨isGlobal, isProcess, isAddressable, isLocal⟩ := addressed.device i device isDevice
          have takeBefore : (owners.take total ++ [owners[total]]).take i =
              (owners.take total).take i := by
            rw [List.take_append_of_le_length]
            rw [List.length_take]
            omega
          rw [List.getElem?_append_left (by rw [List.length_take]; omega), takeBefore]
          exact ⟨isGlobal, isProcess, isAddressable, isLocal⟩
        · have bound := (List.getElem?_eq_some_iff.mp isDevice).1
          rw [List.length_append, List.length_singleton] at bound
          have isLast : i = total := by omega
          have lengthTake : (owners.take total).length = total := by
            rw [List.length_take]
            omega
          subst isLast
          rw [List.getElem?_append_right (by omega), isLength, Nat.sub_self] at isDevice
          cases isDevice
          have takeAll : (owners.take i ++ [owners[i]]).take i = owners.take i :=
            List.take_left' lengthTake
          rw [takeAll, List.getElem?_append_right (by omega), lengthTake, Nat.sub_self, ← isNumber]
          refine ⟨rfl, rfl, ?_, ?_⟩
          · simp
          · simp
    · rw [List.count_append, isNumber]
      by_cases own : owners[total] = (processIndex : Int)
      · rw [if_pos own, own]
        simp
      · have none : List.count (processIndex : Int) [owners[total]] = 0 := by
          apply List.count_eq_zero_of_not_mem
          rw [List.mem_singleton]
          exact Ne.symm own
        rw [if_neg own, none]
        rfl

theorem populateDevices_addressed {rank : Nat} (inside : rank < size)
    {desc : SystemDesc ChipDesc Capability Channel Others} {owners : List Int}
    (owned : OwnedByMappers machines size count desc owners) :
    Addressed rank owners (populateDevices rank size owners desc) := by
  obtain ⟨ownersLength, _, _, isIndices⟩ := owned.length_eq
  have single (one : ¬size > 1) (owner : Int) (member : owner ∈ owners) : owner = (rank : Int) := by
    obtain ⟨position, isOwner⟩ := List.mem_iff_getElem?.mp member
    obtain ⟨less, _⟩ := List.getElem?_eq_some_iff.mp isOwner
    obtain ⟨process, processInside, _, isProcess, _⟩ := owned.owned position (by omega)
    rw [isProcess] at isOwner
    rw [← Option.some.inj isOwner]
    omega
  have addressed := (addDevices_addressed desc.chipDescs single le_rfl).1
  rw [List.take_length] at addressed
  rw [populateDevices, isIndices, List.length_range, ← ownersLength]
  exact addressed

/-- What the processes do. -/
def gatherProgram [Inhabited Capability]
    (flat : Flatbuffers (SystemDesc ChipDesc Capability Channel Others))
    (machines : Nat → Machine ChipDesc Capability Channel Others) (size : Nat) (rank : Fin size) :
    Action String Bytes (Gathered ChipDesc Capability Channel Others) :=
  gatherSystemDescriptors flat (machines rank).deviceIds (machines rank).desc rank size

/-- All processes agree on who owns each device. -/
theorem device_ownership [Inhabited Capability]
    {flat : Flatbuffers (SystemDesc ChipDesc Capability Channel Others)}
    (roundTrips : flat.RoundTrips) {machines : Nat → Machine ChipDesc Capability Channel Others}
    {size count : Nat} (sameCount : ∀ process < size, (machines process).deviceIds.length = count)
    {system : SharedStore (Fin size) String Bytes (Gathered ChipDesc Capability Channel Others)}
    (reachable : SharedStore.Reachable (gatherProgram flat machines size) system) :
    (∀ rank desc owners, system.program rank = .done (.ok (desc, owners)) →
      OwnedByMappers machines size count desc owners ∧
      Addressed rank owners (populateDevices rank size owners desc)) ∧
    (∀ rank desc owners other otherDesc otherOwners,
      system.program rank = .done (.ok (desc, owners)) →
      system.program other = .done (.ok (otherDesc, otherOwners)) →
      owners = otherOwners ∧ desc.chipDescs = otherDesc.chipDescs ∧
      desc.chipCapabilities = otherDesc.chipCapabilities ∧
      desc.chipDescIndices = otherDesc.chipDescIndices) ∧
    (Faulty machines size count → ∀ rank result, system.program rank = .done result →
      ∃ message, result = .error message) := by
  have starts (rank : Fin size) : (gatherProgram flat machines size rank).Keeps
      (Published flat machines) (Gathers machines size rank flat) :=
    gatherSystemDescriptors_keeps roundTrips size rank
  have keeps := reachable.keeps starts
  have returned {rank : Fin size} {desc : SystemDesc ChipDesc Capability Channel Others}
      {owners : List Int} (isDone : system.program rank = .done (.ok (desc, owners))) :
      OwnedByMappers machines size count desc owners ∧ ¬Faulty machines size count := by
    have gathers := keeps.programs rank
    rw [isDone] at gathers
    obtain ⟨last, represents, consistent, packed⟩ := gathers (desc, owners) rfl
    rw [sameCount rank rank.isLt] at represents packed
    exact represents.ownedByMappers roundTrips consistent sameCount packed
  refine ⟨?_, ?_, ?_⟩
  · intro rank desc owners isDone
    have owned := (returned isDone).1
    exact ⟨owned, populateDevices_addressed rank.isLt owned⟩
  · intro rank desc owners other otherDesc otherOwners isDone otherDone
    exact (returned isDone).1.agree (returned otherDone).1
  · intro faulty rank result isDone
    cases result with
    | error message => exact ⟨message, rfl⟩
    | ok gathered => exact absurd faulty (returned isDone).2

/-- Numbers in unary. -/
def numbersBytes (numbers : List Nat) : Bytes :=
  (numbers.flatMap fun number => List.replicate number 1 ++ [0]) ++ [2]

/-- The numbers that were written, after some of the first one, and the bytes after them. -/
def readNumbers : Bytes → Nat → List Nat × Bytes
  | [], _ => ([], [])
  | byte :: bytes, number =>
    if byte = 1 then readNumbers bytes (number + 1)
    else if byte = 0 then
      let rest := readNumbers bytes 0
      (number :: rest.1, rest.2)
    else ([], bytes)

theorem readNumbers_bytes (numbers : List Nat) (rest : Bytes) :
    readNumbers (numbersBytes numbers ++ rest) 0 = (numbers, rest) := by
  have ones (number : Nat) (bytes : Bytes) (before : Nat) :
      readNumbers (List.replicate number 1 ++ bytes) before =
        readNumbers bytes (before + number) := by
    induction number generalizing before with
    | zero => rfl
    | succ number ih =>
      rw [List.replicate_succ, List.cons_append, readNumbers, if_pos rfl, ih, Nat.add_right_comm]
      rfl
  induction numbers with
  | nil => rfl
  | cons number numbers ih =>
    have isBytes : numbersBytes (number :: numbers) ++ rest =
        List.replicate number 1 ++ 0 :: (numbersBytes numbers ++ rest) := by
      simp [numbersBytes]
    rw [isBytes, ones, Nat.zero_add, readNumbers, if_neg (by decide), if_pos rfl, ih]

/-- Descriptors of numbers. -/
def numberFlatbuffers : Flatbuffers (SystemDesc Nat Nat Nat Nat) where
  storeToMemory desc := numbersBytes desc.chipDescs ++ (numbersBytes desc.chipDescIndices ++
    (numbersBytes desc.chipCapabilities ++ (numbersBytes desc.chipChannels ++
      (numbersBytes [desc.others] ++ []))))
  verify _ := true
  unpack bytes :=
    let chipDescs := readNumbers bytes 0
    let chipDescIndices := readNumbers chipDescs.2 0
    let chipCapabilities := readNumbers chipDescIndices.2 0
    let chipChannels := readNumbers chipCapabilities.2 0
    let others := readNumbers chipChannels.2 0
    ⟨chipDescs.1, chipDescIndices.1, chipCapabilities.1, chipChannels.1, others.1.headD 0⟩

theorem numberFlatbuffers_roundTrips : numberFlatbuffers.RoundTrips where
  verified _ := rfl
  unpacked desc := by
    simp only [numberFlatbuffers, readNumbers_bytes]
    rfl

/-- A process with two chips and one with a chip. -/
def pairMachines (process : Nat) : Machine Nat Nat Nat Nat :=
  if process = 0 then ⟨[none, some 4, some 2], ⟨[1, 2], [1, 0], [3, 4], [], 0⟩⟩
  else ⟨[some 5, none, none], ⟨[5], [0], [6], [], 0⟩⟩

theorem device_ownership_pair : ∃ system desc,
    SharedStore.Reachable (gatherProgram numberFlatbuffers pairMachines 2) system ∧
    system.program 0 = .done (.ok (desc, [1, 0, 0])) ∧ desc.chipDescs = [5, 1, 2] ∧
    desc.chipCapabilities = [6, 4, 3] ∧ OwnedByMappers pairMachines 2 3 desc [1, 0, 0] ∧
    Addressed 0 [1, 0, 0] (populateDevices 0 2 [1, 0, 0] desc) := by
  have computed : (((SharedStore.start (gatherProgram numberFlatbuffers pairMachines 2)).run
      [0, 1, 1, 0, 0, 0, 1, 0, 0]).bind fun system => (system.program 0).result?.bind
        Except.toOption) = some (⟨[5, 1, 2], [0, 1, 2], [6, 4, 3], [], 0⟩, [1, 0, 0]) := by
    decide +kernel
  obtain ⟨system, ran, ended⟩ := Option.bind_eq_some_iff.mp computed
  obtain ⟨result, isResult, isOk⟩ := Option.bind_eq_some_iff.mp ended
  have reached := SharedStore.reaches_of_run ran
  have isDone := Action.eq_done_of_result? isResult
  cases result with
  | error message => cases isOk
  | ok gathered =>
    rw [Option.some.inj isOk] at isDone
    have sameCount : ∀ process < 2, (pairMachines process).deviceIds.length = 3 := by decide
    obtain ⟨owned, addressed⟩ :=
      (device_ownership numberFlatbuffers_roundTrips sameCount reached).1 0 _ _ isDone
    exact ⟨system, _, reached, isDone, rfl, rfl, owned, addressed⟩

end Libtt.MultiProcess

import Libtt.MultiProcess.PositionText

/-!
# Merging what the processes publish

What a process reads of another one is what that one publishes, whatever the order of the puts and
gets.
-/
namespace Libtt.MultiProcess

open Libtt.Foundation Libtt.KeyValue

variable {ChipDesc Capability Channel Others : Type}

theorem deviceKey_toList (process : Nat) {name : String} {rest : List Char}
    (isName : name.toList = '/' :: rest) : (deviceKey process name).toList =
      "libtt/devices/".toList ++ (Nat.toDigits 10 process ++ '/' :: rest) := by
  rw [deviceKey, String.toList_append, String.toList_append, Nat.toString_eq_repr, Nat.toList_repr,
    isName, List.append_assoc]

/-- A key names its process. -/
theorem deviceKey_injective {process other : Nat} {name otherName : String}
    {rest otherRest : List Char} (isName : name.toList = '/' :: rest)
    (isOther : otherName.toList = '/' :: otherRest)
    (same : deviceKey process name = deviceKey other otherName) :
    process = other ∧ name = otherName := by
  have letters := congrArg String.toList same
  rw [deviceKey_toList process isName, deviceKey_toList other isOther] at letters
  have texts := List.append_cancel_left letters
  have digits (number : Nat) (rest : List Char) :
      (Nat.toDigits 10 number ++ '/' :: rest).takeWhile Char.isDigit = Nat.toDigits 10 number := by
    rw [List.takeWhile_append_of_pos (toDigits_isDigit number),
      List.takeWhile_cons_of_neg (by decide), List.append_nil]
  have sameDigits : Nat.toDigits 10 process = Nat.toDigits 10 other := by
    rw [← digits process rest, texts, digits]
  constructor
  · apply Nat.repr_injective
    rw [← String.toList_inj, Nat.toList_repr, Nat.toList_repr, sameDigits]
  · rw [sameDigits] at texts
    rw [← String.toList_inj, isName, isOther]
    exact List.append_cancel_left texts

/-- A chip of a process: its place in the enumeration of the process. -/
abbrev Chip := Nat × Nat

section Merging

variable (machines : Nat → Machine ChipDesc Capability Channel Others)

/-- The position that a process publishes for a chip, as it is read. -/
def publishedAt (chip : Chip) : Option Nat :=
  (localIds (machines chip.1).deviceIds)[chip.2]?.map fun id => sizeOfInt id.2

/-- The descriptor of a chip. -/
def descOf (chip : Chip) : Option ChipDesc :=
  (machines chip.1).desc.chipDescIndices[chip.2]?.bind fun chipIndex =>
    (machines chip.1).desc.chipDescs[chipIndex]?

def capabilityOf (chip : Chip) : Option Capability :=
  (machines chip.1).desc.chipCapabilities[chip.2]?

/-- A chip is merged at its position. -/
structure Placed (count : Nat) (merged : Merged ChipDesc Capability) (chip : Chip) (id : Nat) :
    Prop where
  isId : publishedAt machines chip = some id
  inside : id < count
  owner : merged.owners[id]? = some (chip.1 : Int)
  desc : ∃ desc, descOf machines chip = some desc ∧ merged.chipDescs[id]? = some (some desc)
  capability : ∃ capability, capabilityOf machines chip = some capability ∧
    merged.chipCapabilities[id]? = some capability

/-- The chips that are merged, each at a position of its own. -/
structure Represents (count : Nat) (chips : List Chip) (merged : Merged ChipDesc Capability) :
    Prop where
  lengths : merged.owners.length = count ∧ merged.chipDescs.length = count ∧
    merged.chipCapabilities.length = count
  placed : ∀ chip ∈ chips, ∃ id, Placed machines count merged chip id
  distinct : ∀ chip ∈ chips, ∀ other ∈ chips,
    publishedAt machines chip = publishedAt machines other → chip = other
  free : ∀ id < count, merged.owners[id]? = some (-1) ∨
    ∃ chip ∈ chips, publishedAt machines chip = some id

variable {machines} {count : Nat} {chips : List Chip} {merged : Merged ChipDesc Capability}

theorem at?_eq_ok {α : Type} {elements : List α} {i : Nat} {element : α}
    (returned : at? elements i = .ok element) : elements[i]? = some element := by
  unfold at? at returned
  split at returned
  · rename_i found isFound
    rw [isFound, Except.ok.inj returned]
  · cases returned

/-- What merging one chip does. -/
theorem mergeChip_eq_ok {process : Nat} {remote : SystemDesc ChipDesc Capability Channel Others}
    {merged merged' : Merged ChipDesc Capability} {text text' : List Char} {i : Nat}
    (returned : mergeChip count process remote (merged, text) i = .ok (merged', text')) :
    ∃ id chipDesc capability, extractSize text = some (id, text') ∧ id < count ∧
      merged.owners[id]? = some (-1) ∧
      remote.chipDescs[remote.chipDescIndices.getD i 0]? = some chipDesc ∧
      remote.chipCapabilities[i]? = some capability ∧
      merged' = ⟨merged.chipDescs.set id (some chipDesc),
        merged.chipCapabilities.set id capability, merged.owners.set id process⟩ := by
  unfold mergeChip at returned
  split at returned
  · cases returned
  rename_i id rest isId
  split at returned
  · cases returned
  rename_i accepted
  obtain ⟨inside, free⟩ := not_or.mp accepted
  dsimp only at returned
  cases isDesc : at? remote.chipDescs (remote.chipDescIndices.getD i 0) with
  | error message =>
    rw [isDesc] at returned
    cases returned
  | ok chipDesc =>
    rw [isDesc] at returned
    cases isCapability : at? remote.chipCapabilities i with
    | error message =>
      rw [isCapability] at returned
      cases returned
    | ok capability =>
      rw [isCapability] at returned
      cases returned
      exact ⟨id, chipDesc, capability, isId, Nat.not_le.mp inside, not_not.mp free,
        at?_eq_ok isDesc, at?_eq_ok isCapability, rfl⟩

/-- A chip is merged at a position that is free. -/
theorem Represents.mergeChip (represents : Represents machines count chips merged)
    {process i id : Nat} {chipDesc : ChipDesc} {capability : Capability}
    (isId : publishedAt machines (process, i) = some id) (inside : id < count)
    (isFree : merged.owners[id]? = some (-1))
    (isDesc : descOf machines (process, i) = some chipDesc)
    (isCapability : capabilityOf machines (process, i) = some capability) :
    Represents machines count (chips ++ [(process, i)])
      ⟨merged.chipDescs.set id (some chipDesc), merged.chipCapabilities.set id capability,
        merged.owners.set id process⟩ := by
  obtain ⟨ownersLength, descsLength, capabilitiesLength⟩ := represents.lengths
  -- no chip before this one has the position
  have apart (chip : Chip) (member : chip ∈ chips) : publishedAt machines chip ≠ some id := by
    intro same
    obtain ⟨other, placed⟩ := represents.placed chip member
    have isOther : other = id := Option.some.inj (placed.isId.symm.trans same)
    have owner := placed.owner
    rw [isOther, isFree] at owner
    have negative := Option.some.inj owner
    omega
  constructor
  · simp only [List.length_set]
    exact represents.lengths
  · intro chip member
    rcases List.mem_append.mp member with before | last
    · obtain ⟨other, placed⟩ := represents.placed chip before
      have different : id ≠ other := by
        intro same
        exact apart chip before (same ▸ placed.isId)
      refine ⟨other, placed.isId, placed.inside, ?_, ?_, ?_⟩
      · rw [List.getElem?_set_ne different]
        exact placed.owner
      · rw [List.getElem?_set_ne different]
        exact placed.desc
      · rw [List.getElem?_set_ne different]
        exact placed.capability
    · rw [List.mem_singleton.mp last]
      refine ⟨id, isId, inside, ?_, ⟨chipDesc, isDesc, ?_⟩, ⟨capability, isCapability, ?_⟩⟩
      · exact List.getElem?_set_self (by omega)
      · exact List.getElem?_set_self (by omega)
      · exact List.getElem?_set_self (by omega)
  · intro chip member other otherMember same
    rcases List.mem_append.mp member with before | last
    · rcases List.mem_append.mp otherMember with otherBefore | otherLast
      · exact represents.distinct chip before other otherBefore same
      · rw [List.mem_singleton.mp otherLast, isId] at same
        exact absurd same (apart chip before)
    · rcases List.mem_append.mp otherMember with otherBefore | otherLast
      · rw [List.mem_singleton.mp last, isId] at same
        exact absurd same.symm (apart other otherBefore)
      · rw [List.mem_singleton.mp last, List.mem_singleton.mp otherLast]
  · intro other otherInside
    by_cases same : other = id
    · exact .inr ⟨(process, i), by simp, same ▸ isId⟩
    · rcases represents.free other otherInside with free | ⟨chip, member, isChip⟩
      · left
        rw [List.getElem?_set_ne (Ne.symm same)]
        exact free
      · exact .inr ⟨chip, by simp [member], isChip⟩

/-- A process whose chips and descriptor agree in number. -/
def Machine.Consistent (machine : Machine ChipDesc Capability Channel Others) : Prop :=
  (localIds machine.deviceIds).length = machine.desc.chipDescIndices.length

/-- The chips of a process. -/
def chipsOf (process count : Nat) : List Chip := (List.range count).map fun i => (process, i)

/-- The loop over the chips of a process. -/
theorem Represents.mergeChips {process : Nat} (consistent : (machines process).Consistent)
    {total : Nat} (within : total ≤ (machines process).desc.chipDescIndices.length)
    {text : List Char} (left : HasLeft (localIds (machines process).deviceIds) text)
    (represents : Represents machines count chips merged)
    {state : Merged ChipDesc Capability × List Char}
    (returned : (List.range total).foldlM
      (MultiProcess.mergeChip count process (machines process).desc) (merged, text) = .ok state) :
    Represents machines count (chips ++ chipsOf process total) state.1 ∧
      HasLeft ((localIds (machines process).deviceIds).drop total) state.2 := by
  induction total generalizing state with
  | zero =>
    cases returned
    rw [chipsOf, List.range_zero, List.map_nil, List.append_nil]
    exact ⟨represents, left⟩
  | succ total ih =>
    rw [List.range_succ, List.foldlM_append] at returned
    cases isBefore : (List.range total).foldlM
        (MultiProcess.mergeChip count process (machines process).desc) (merged, text) with
    | error message =>
      rw [isBefore] at returned
      cases returned
    | ok before =>
      obtain ⟨beforeRepresents, beforeLeft⟩ := ih (by omega) isBefore
      rw [isBefore] at returned
      have last : MultiProcess.mergeChip count process (machines process).desc before total =
          .ok state := by
        rw [← returned]
        show _ = List.foldlM _ before [total]
        simp
      have inside : total < (localIds (machines process).deviceIds).length := by
        rw [consistent]
        exact within
      rw [List.drop_eq_getElem_cons inside] at beforeLeft
      have written := localIds_written (machines process).deviceIds
      obtain ⟨rest, isRead, restLeft⟩ := beforeLeft.extractSize
        fun id member => written id (List.mem_of_mem_drop
          ((List.drop_eq_getElem_cons inside).symm ▸ member))
      obtain ⟨id, chipDesc, capability, isId, idInside, isFree, isDesc, isCapability, isState⟩ :=
        mergeChip_eq_ok last
      rw [isRead] at isId
      obtain ⟨sameId, sameText⟩ := Prod.mk.inj (Option.some.inj isId)
      have isPublished : publishedAt machines (process, total) = some id := by
        rw [publishedAt, List.getElem?_eq_getElem inside, ← sameId]
        rfl
      have hasDesc : descOf machines (process, total) = some chipDesc := by
        rw [descOf, List.getElem?_eq_getElem within, Option.bind_some, ← isDesc,
          List.getD_eq_getElem _ _ within]
      have added := beforeRepresents.mergeChip isPublished idInside isFree hasDesc isCapability
      constructor
      · rw [isState, chipsOf, List.range_succ, List.map_append, ← List.append_assoc]
        exact added
      · rw [← sameText]
        exact restLeft

theorem Represents.mergeProcess {process : Nat} (consistent : (machines process).Consistent)
    (represents : Represents machines count chips merged) {merged' : Merged ChipDesc Capability}
    (returned : MultiProcess.mergeProcess count process (machines process).desc
      (bytesOf (idsText (localIds (machines process).deviceIds))) merged = .ok merged') :
    Represents machines count
      (chips ++ chipsOf process (machines process).desc.chipDescIndices.length) merged' := by
  unfold MultiProcess.mergeProcess at returned
  cases isState : (List.range (machines process).desc.chipDescIndices.length).foldlM
      (MultiProcess.mergeChip count process (machines process).desc)
      (merged, textOf (bytesOf (idsText (localIds (machines process).deviceIds)))) with
  | error message =>
    rw [isState] at returned
    cases returned
  | ok state =>
    rw [isState] at returned
    cases returned
    exact (represents.mergeChips consistent le_rfl (hasLeft_published _) isState).1

/-- What the processes store. -/
def Published (flat : Flatbuffers (SystemDesc ChipDesc Capability Channel Others))
    (machines : Nat → Machine ChipDesc Capability Channel Others) (key : String) (value : Bytes) :
    Prop :=
  ∃ process, (machines process).Consistent ∧
    (key = deviceKey process "/ids" ∧
        value = bytesOf (idsText (localIds (machines process).deviceIds)) ∨
      key = deviceKey process "/desc" ∧ value = flat.storeToMemory (machines process).desc)

variable {flat : Flatbuffers (SystemDesc ChipDesc Capability Channel Others)}

theorem Published.ids {process : Nat} {value : Bytes}
    (published : Published flat machines (deviceKey process "/ids") value) :
    (machines process).Consistent ∧
      value = bytesOf (idsText (localIds (machines process).deviceIds)) := by
  obtain ⟨other, consistent, ⟨same, isValue⟩ | ⟨same, _⟩⟩ := published
  · obtain ⟨rfl, _⟩ := deviceKey_injective rfl rfl same
    exact ⟨consistent, isValue⟩
  · obtain ⟨_, names⟩ := deviceKey_injective rfl rfl same
    exact absurd names (by decide)

theorem Published.desc {process : Nat} {value : Bytes}
    (published : Published flat machines (deviceKey process "/desc") value) :
    value = flat.storeToMemory (machines process).desc := by
  obtain ⟨other, _, ⟨same, _⟩ | ⟨same, isValue⟩⟩ := published
  · obtain ⟨_, names⟩ := deviceKey_injective rfl rfl same
    exact absurd names (by decide)
  · obtain ⟨rfl, _⟩ := deviceKey_injective rfl rfl same
    exact isValue

/-- All chips of some processes. -/
def chipsOfAll (machines : Nat → Machine ChipDesc Capability Channel Others)
    (processes : List Nat) : List Chip :=
  processes.flatMap fun process =>
    chipsOf process (machines process).desc.chipDescIndices.length

/-- The loop over the processes. -/
theorem mergeProcesses_keeps (roundTrips : flat.RoundTrips)
    (finish : Merged ChipDesc Capability → Gathered ChipDesc Capability Channel Others)
    (processes : List Nat) (represents : Represents machines count chips merged) :
    (mergeProcesses flat count finish processes merged).Keeps (Published flat machines)
      fun result => ∀ gathered, result = .ok gathered → ∃ last,
        Represents machines count (chips ++ chipsOfAll machines processes) last ∧
        (∀ process ∈ processes, (machines process).Consistent) ∧ finish last = .ok gathered := by
  induction processes generalizing chips merged with
  | nil =>
    intro gathered isResult
    refine ⟨merged, ?_, by simp, isResult⟩
    rw [chipsOfAll, List.flatMap_nil, List.append_nil]
    exact represents
  | cons process processes ih =>
    intro descriptor isDescriptor
    have verified : ¬flat.verify (flat.storeToMemory (machines process).desc) = false := by
      rw [roundTrips.verified]
      decide
    rw [isDescriptor.desc]
    dsimp only
    rw [if_neg verified, roundTrips.unpacked]
    intro ids isIds
    obtain ⟨consistent, isText⟩ := isIds.ids
    rw [isText]
    dsimp only
    cases isMerged : mergeProcess count process (machines process).desc
        (bytesOf (idsText (localIds (machines process).deviceIds))) merged with
    | error message =>
      intro gathered isResult
      cases isResult
    | ok next =>
      apply (ih (represents.mergeProcess consistent isMerged)).weaken
      intro result middle gathered isResult
      obtain ⟨last, isLast, others, finished⟩ := middle gathered isResult
      refine ⟨last, ?_, ?_, finished⟩
      · rw [List.append_assoc] at isLast
        exact isLast
      · intro other member
        rcases List.mem_cons.mp member with rfl | later
        · exact consistent
        · exact others other later

/-- What a process returns. -/
def Gathers (machines : Nat → Machine ChipDesc Capability Channel Others) (size rank : Nat)
    (flat : Flatbuffers (SystemDesc ChipDesc Capability Channel Others))
    (result : Gathered ChipDesc Capability Channel Others) : Prop :=
  ∀ gathered, result = .ok gathered → ∃ last,
    Represents machines (machines rank).deviceIds.length
      (chipsOfAll machines (List.range size)) last ∧
    (∀ process < size, (machines process).Consistent) ∧
    packMerged flat (machines rank).deviceIds.length (machines rank).desc last = .ok gathered

theorem length_resize {α : Type} [Inhabited α] (elements : List α) (count : Nat) :
    (resize elements count).length = count := by
  rw [resize, List.length_append, List.length_take, List.length_replicate]
  omega

theorem gatherSystemDescriptors_keeps [Inhabited Capability] (roundTrips : flat.RoundTrips)
    (size rank : Nat) :
    (gatherSystemDescriptors flat (machines rank).deviceIds (machines rank).desc rank size).Keeps
      (Published flat machines) (Gathers machines size rank flat) := by
  unfold gatherSystemDescriptors
  by_cases consistent : (machines rank).Consistent
  · have start : Represents machines (machines rank).deviceIds.length []
        ⟨List.replicate (machines rank).deviceIds.length (none : Option ChipDesc),
          resize (machines rank).desc.chipCapabilities (machines rank).deviceIds.length,
          List.replicate (machines rank).deviceIds.length (-1)⟩ := by
      constructor
      · exact ⟨List.length_replicate, List.length_replicate, length_resize _ _⟩
      · simp
      · simp
      · intro id inside
        left
        exact List.getElem?_replicate_of_lt inside
    have agrees : ¬(localIds (machines rank).deviceIds).length ≠
        (machines rank).desc.chipDescIndices.length := not_not.mpr consistent
    rw [if_neg agrees]
    refine ⟨⟨rank, consistent, .inl ⟨rfl, rfl⟩⟩, ⟨rank, consistent, .inr ⟨rfl, rfl⟩⟩, ?_⟩
    apply (mergeProcesses_keeps roundTrips _ (List.range size) start).weaken
    intro result middle gathered isResult
    obtain ⟨last, isLast, others, finished⟩ := middle gathered isResult
    exact ⟨last, isLast, fun process less => others process (List.mem_range.mpr less), finished⟩
  · have disagrees : (localIds (machines rank).deviceIds).length ≠
        (machines rank).desc.chipDescIndices.length := consistent
    rw [if_pos disagrees]
    intro gathered isResult
    cases isResult

end Merging

end Libtt.MultiProcess

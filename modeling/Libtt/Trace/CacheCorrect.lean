import Libtt.Trace.Cache

/-!
# What a trace cache keeps

An entry keeps its variants on the same buffers and its slots retained, whatever a run does with it,
and no run touches the tensors of another entry.
-/
namespace Libtt.Trace.Cache

open Libtt.Allocator

variable {variants : List TraceVariant} {handle : Nat} {traceData : TraceData} {op : Op}
  {tensors tensors' : Tensors} {stagedSlots : List (Option Tensor)} {variant : TraceVariant}
  {inputSlots outputSlots : Nat → Tensor} {key : Key}

/-- Some variant owns a tensor with the handle. -/
def Owns (variants : List TraceVariant) (handle : Nat) : Prop :=
  ∃ variant ∈ variants, ∃ tensor ∈ variant.ownedTensors, tensor.handle = handle

/-- A staged slot has the handle. -/
def Stages (traceData : TraceData) (handle : Nat) : Prop :=
  ∃ i slot, traceData.stagedSlot i = some slot ∧ slot.handle = handle

/-- The tensors that an entry keeps. -/
def Holds (traceData : TraceData) (handle : Nat) : Prop :=
  Owns traceData.variants handle ∨ Stages traceData handle

theorem owns_cons {oldest : TraceVariant} :
    Owns (oldest :: variants) handle ↔
      handle ∈ oldest.ownedTensors.map Tensor.handle ∨ Owns variants handle := by
  simp only [Owns, List.mem_cons, exists_eq_or_imp, List.mem_map]

theorem mem_ownedHandles :
    handle ∈ variants.flatMap (fun variant => variant.ownedTensors.map Tensor.handle) ↔
      Owns variants handle := by
  simp only [Owns, List.mem_flatMap, List.mem_map]

theorem releaseOwnedTensors_spec (live : List Nat) (tensors : List Tensor) (state : Tensors)
    (released : List Nat) (handle : Nat) :
    let result := releaseOwnedTensors live tensors state released
    result.1.next = state.next ∧
      (result.1.retain handle =
        if handle ∈ tensors.map Tensor.handle ∧ handle ∉ live ∧ handle ∉ released then false
        else state.retain handle) ∧
      (handle ∈ result.2 ↔ handle ∈ released ∨
        handle ∈ tensors.map Tensor.handle ∧ handle ∉ live) := by
  induction tensors generalizing state released with
  | nil => simp [releaseOwnedTensors]
  | cons tensor tensors ih =>
    intro result
    by_cases skip : tensor.handle ∈ live ∨ tensor.handle ∈ released
    · have step : result = releaseOwnedTensors live tensors state released := if_pos skip
      rw [step]
      obtain ⟨next, retain, members⟩ := ih state released
      refine ⟨next, ?_, ?_⟩
      · rw [retain]
        by_cases own : handle = tensor.handle
        · subst own
          rcases skip with live | released <;> simp [*]
        · simp [own]
      · rw [members]
        by_cases own : handle = tensor.handle
        · subst own
          rcases skip with live | released <;> simp [*]
        · simp [own]
    · have step : result = releaseOwnedTensors live tensors (state.setRetain tensor false)
          (tensor.handle :: released) := if_neg skip
      rw [step]
      obtain ⟨next, retain, members⟩ := ih (state.setRetain tensor false)
        (tensor.handle :: released)
      rw [not_or] at skip
      refine ⟨next, ?_, ?_⟩
      · rw [retain]
        by_cases own : handle = tensor.handle
        · subst own
          simp [skip, Tensors.setRetain]
        · simp [own, Tensors.setRetain, Function.update_of_ne]
      · rw [members]
        by_cases own : handle = tensor.handle
        · subst own
          simp [skip]
        · simp [own]

/-- An evicted variant loses exactly what no other variant and no replacement has. -/
theorem evictOldestVariant_retain (oldest : TraceVariant) (variants : List TraceVariant)
    (replacementTensors : List Tensor) (state : Tensors) (handle : Nat) :
    (evictOldestVariant oldest variants replacementTensors state).retain handle = false ↔
      state.retain handle = false ∨ (handle ∈ oldest.ownedTensors.map Tensor.handle ∧
        handle ∉ replacementTensors.map Tensor.handle ∧ ¬Owns variants handle) := by
  rw [evictOldestVariant, (releaseOwnedTensors_spec _ _ _ _ _).2.1, ← mem_ownedHandles]
  simp only [List.mem_append, List.not_mem_nil, not_false_eq_true, and_true, not_or]
  split
  case isTrue cleared => exact iff_of_true rfl (.inr cleared)
  case isFalse kept => exact (or_iff_left kept).symm

theorem evictOldestVariant_next (oldest : TraceVariant) (variants : List TraceVariant)
    (replacementTensors : List Tensor) (state : Tensors) :
    (evictOldestVariant oldest variants replacementTensors state).next = state.next :=
  (releaseOwnedTensors_spec _ _ _ _ 0).1

theorem releaseVariants_spec (variants : List TraceVariant) (state : Tensors) (released : List Nat)
    (cleared : ∀ handle ∈ released, state.retain handle = false) (handle : Nat) :
    (releaseVariants variants state released).next = state.next ∧
      ((releaseVariants variants state released).retain handle = false ↔
        state.retain handle = false ∨ Owns variants handle) := by
  induction variants generalizing state released with
  | nil => simp [releaseVariants, Owns]
  | cons variant variants ih =>
    have spec := releaseOwnedTensors_spec [] variant.ownedTensors state released
    simp only [List.not_mem_nil, not_false_eq_true, true_and, and_true] at spec
    rw [releaseVariants, owns_cons]
    have cleared' : ∀ other ∈ (releaseOwnedTensors [] variant.ownedTensors state released).2,
        (releaseOwnedTensors [] variant.ownedTensors state released).1.retain other = false := by
      intro other member
      rw [(spec other).2.1]
      split
      · rfl
      · next kept =>
        rcases (spec other).2.2.mp member with before | own
        · exact cleared other before
        · exact cleared other (not_not.mp fun fresh => kept ⟨own, fresh⟩)
    obtain ⟨next, retain⟩ := ih _ _ cleared'
    refine ⟨next.trans (spec handle).1, retain.trans ?_⟩
    rw [(spec handle).2.1, ← or_assoc]
    apply or_congr_left
    split
    case isTrue own => exact iff_of_true rfl (.inr own.1)
    case isFalse kept =>
      refine ⟨.inl, fun either => either.elim id fun own => ?_⟩
      exact cleared handle (not_not.mp fun fresh => kept ⟨own, fresh⟩)

theorem releaseStagedSlots_spec (slots : List (Option Tensor)) (state : Tensors) (handle : Nat) :
    (releaseStagedSlots slots state).next = state.next ∧
      ((releaseStagedSlots slots state).retain handle = false ↔
        state.retain handle = false ∨ ∃ slot, some slot ∈ slots ∧ slot.handle = handle) := by
  induction slots generalizing state with
  | nil => simp [releaseStagedSlots]
  | cons first slots ih =>
    cases first with
    | none => simpa [releaseStagedSlots] using ih state
    | some slot =>
      obtain ⟨next, retain⟩ := ih (state.setRetain slot false)
      refine ⟨next, retain.trans ?_⟩
      by_cases own : handle = slot.handle
      · subst own
        simp [Tensors.setRetain]
      · simp [Tensors.setRetain, Function.update_of_ne own, Ne.symm own]

theorem stages_iff :
    Stages traceData handle ↔ ∃ slot, some slot ∈ traceData.stagedSlots ∧ slot.handle = handle := by
  constructor
  · rintro ⟨i, slot, isSlot, same⟩
    exact ⟨slot, List.mem_of_getElem? (Option.join_eq_some_iff.mp isSlot), same⟩
  · rintro ⟨slot, member, same⟩
    obtain ⟨i, isSlot⟩ := List.getElem?_of_mem member
    exact ⟨i, slot, Option.join_eq_some_iff.mpr isSlot, same⟩

/-- Releasing an entry releases what it holds. -/
theorem releaseTraceData_retain (traceData : TraceData) (state : Tensors) (handle : Nat) :
    (releaseTraceData traceData state).next = state.next ∧
      ((releaseTraceData traceData state).retain handle = false ↔
        state.retain handle = false ∨ Holds traceData handle) := by
  obtain ⟨next, retain⟩ := releaseVariants_spec traceData.variants state [] nofun handle
  obtain ⟨next', retain'⟩ := releaseStagedSlots_spec traceData.stagedSlots
    (releaseVariants traceData.variants state []) handle
  refine ⟨next'.trans next, retain'.trans ?_⟩
  rw [retain, Holds, stages_iff, or_assoc]

/-- The tensors that a variant owns. -/
theorem mem_ownedTensors (op : Op) (trace : MeshTrace) (inputSlots outputSlots : Nat → Tensor)
    (tensor : Tensor) : tensor ∈ (captureTrace op trace inputSlots outputSlots).ownedTensors ↔
      (∃ i < op.inputs, isDeviceResidentInput op i = false ∧ inputSlots i = tensor) ∨
        ∃ i < op.outputs, outputSlots i = tensor := by
  simp only [captureTrace, List.mem_append, List.mem_map, List.mem_filter, List.mem_range,
    Bool.not_eq_true', and_assoc]

/-- What holds of an entry of the cache. -/
structure Entry (op : Op) (tensors : Tensors) (traceData : TraceData) : Prop where
  few : traceData.variants.length ≤ kMaxTraceVariants
  slots : traceData.stagedSlots.length = op.inputs
  owned : ∀ variant ∈ traceData.variants, variant.ownedTensors =
    (captureTrace op variant.trace variant.inputTensors variant.outputTensors).ownedTensors
  staged : ∀ i slot, traceData.stagedSlot i = some slot → isStageableInput op i = true
  same : ∀ variant ∈ traceData.variants, ∀ other ∈ traceData.variants, ∀ i,
    isStageableInput op i = true → traceData.stagedSlot i = none →
      (variant.inputTensors i).address = (other.inputTensors i).address
  reads : ∀ variant ∈ traceData.variants, ∀ i slot, traceData.stagedSlot i = some slot →
    variant.inputTensors i = slot
  retained : ∀ handle, Holds traceData handle →
    tensors.retain handle = true ∧ handle < tensors.next
  apart : ∀ handle, Stages traceData handle → ¬Owns traceData.variants handle

/-- A change of an entry that touches no tensors but its own and new ones. -/
structure Local (tensors : Tensors) (traceData : TraceData) (tensors' : Tensors)
    (traceData' : TraceData) : Prop where
  next : tensors.next ≤ tensors'.next
  keeps : ∀ handle, handle < tensors.next → ¬Holds traceData handle →
    tensors'.retain handle = tensors.retain handle
  within : ∀ handle, Holds traceData' handle → Holds traceData handle ∨ tensors.next ≤ handle

namespace Local

variable {tensors tensors' tensors'' : Tensors} {traceData traceData' traceData'' : TraceData}

theorem refl (tensors : Tensors) (traceData : TraceData) :
    Local tensors traceData tensors traceData :=
  ⟨Nat.le_refl _, fun _ _ _ => rfl, fun _ => .inl⟩

theorem trans (first : Local tensors traceData tensors' traceData')
    (second : Local tensors' traceData' tensors'' traceData'') :
    Local tensors traceData tensors'' traceData'' where
  next := first.next.trans second.next
  keeps handle below other := by
    have below' : handle < tensors'.next := Nat.lt_of_lt_of_le below first.next
    have other' : ¬Holds traceData' handle := fun held =>
      (first.within handle held).elim other (Nat.not_le_of_lt below)
    rw [second.keeps handle below' other', first.keeps handle below other]
  within handle held := by
    rcases second.within handle held with before | fresh
    · exact first.within handle before
    · exact .inr (first.next.trans fresh)

end Local

/-- New tensors leave an entry alone. -/
theorem Entry.frame (entry : Entry op tensors traceData) (next : tensors.next ≤ tensors'.next)
    (keeps : ∀ handle, Holds traceData handle → tensors'.retain handle = tensors.retain handle) :
    Entry op tensors' traceData :=
  { entry with
    retained := fun handle held => by
      obtain ⟨retained, below⟩ := entry.retained handle held
      exact ⟨(keeps handle held).trans retained, Nat.lt_of_lt_of_le below next⟩ }

/-- The order of the variants does not matter. -/
theorem Entry.reorder {op : Op} {tensors : Tensors} {traceData : TraceData}
    (entry : Entry op tensors traceData) {variants : List TraceVariant}
    (perm : variants.Perm traceData.variants) :
    Entry op tensors { traceData with variants := variants } ∧
      Local tensors traceData tensors { traceData with variants := variants } := by
  have owns (handle : Nat) : Owns variants handle ↔ Owns traceData.variants handle := by
    simp only [Owns, perm.mem_iff]
  have holds (handle : Nat) : Holds { traceData with variants := variants } handle ↔
      Holds traceData handle := or_congr_left (owns handle)
  refine ⟨?_, Nat.le_refl _, fun _ _ _ => rfl, fun handle held => .inl ((holds handle).mp held)⟩
  exact {
    few := perm.length_eq ▸ entry.few
    slots := entry.slots
    owned := fun variant member => entry.owned variant (perm.mem_iff.mp member)
    staged := entry.staged
    same := fun variant member other member' =>
      entry.same variant (perm.mem_iff.mp member) other (perm.mem_iff.mp member')
    reads := fun variant member => entry.reads variant (perm.mem_iff.mp member)
    retained := fun handle held => entry.retained handle ((holds handle).mp held)
    apart := fun handle staged owned => entry.apart handle staged ((owns handle).mp owned) }

/-- Evicting a variant leaves the others their slots. -/
theorem Entry.evict {op : Op} {tensors : Tensors} {oldest : TraceVariant}
    {variants : List TraceVariant} {stagedSlots : List (Option Tensor)}
    (entry : Entry op tensors ⟨oldest :: variants, stagedSlots⟩)
    (replacementTensors : List Tensor) :
    let tensors' := evictOldestVariant oldest variants replacementTensors tensors
    Entry op tensors' ⟨variants, stagedSlots⟩ ∧
      Local tensors ⟨oldest :: variants, stagedSlots⟩ tensors' ⟨variants, stagedSlots⟩ := by
  intro tensors'
  have next : tensors'.next = tensors.next := evictOldestVariant_next ..
  have cleared := evictOldestVariant_retain oldest variants replacementTensors tensors
  have holds (handle : Nat) (held : Holds ⟨variants, stagedSlots⟩ handle) :
      Holds ⟨oldest :: variants, stagedSlots⟩ handle :=
    held.imp_left fun owned => owns_cons.mpr (.inr owned)
  have later {variant : TraceVariant} (member : variant ∈ variants) : variant ∈ oldest :: variants :=
    List.mem_cons_of_mem oldest member
  constructor
  · exact {
      few := (Nat.le_succ _).trans entry.few
      slots := entry.slots
      owned := fun variant member => entry.owned variant (later member)
      staged := entry.staged
      same := fun variant member other member' =>
        entry.same variant (later member) other (later member')
      reads := fun variant member => entry.reads variant (later member)
      retained := fun handle held => by
        obtain ⟨retained, below⟩ := entry.retained handle (holds handle held)
        refine ⟨Bool.not_eq_false _ ▸ fun lost => ?_, next ▸ below⟩
        rcases (cleared handle).mp lost with before | ⟨own, -, unowned⟩
        · exact Bool.false_ne_true (before.symm.trans retained)
        · rcases held with owned | staged
          · exact unowned owned
          · exact entry.apart handle staged (owns_cons.mpr (.inl own))
      apart := fun handle staged owned =>
        entry.apart handle staged (owns_cons.mpr (.inr owned)) }
  · refine ⟨Nat.le_of_eq next.symm, fun handle _ other => ?_, fun handle held => .inl (holds handle held)⟩
    have own : handle ∉ oldest.ownedTensors.map Tensor.handle := fun own =>
      other (.inl (owns_cons.mpr (.inl own)))
    apply Bool.eq_iff_iff.mpr
    rw [← not_iff_not, Bool.not_eq_true, Bool.not_eq_true, cleared handle]
    exact or_iff_left fun lost => own lost.1

theorem stagedSlot_set (variants : List TraceVariant) (stagedSlots : List (Option Tensor)) (i : Nat)
    (slot : Tensor) (j : Nat) :
    (⟨variants, stagedSlots.set i (some slot)⟩ : TraceData).stagedSlot j =
      if i = j ∧ j < stagedSlots.length then some slot
      else (⟨variants, stagedSlots⟩ : TraceData).stagedSlot j := by
  simp only [TraceData.stagedSlot, List.getElem?_set]
  by_cases here : i = j
  · subst here
    by_cases within : i < stagedSlots.length
    · simp [within]
    · simp [within]
  · simp [here]

/-- Evicting all variants. -/
theorem evictVariants_spec (variants : List TraceVariant)
    (entry : Entry op tensors ⟨variants, stagedSlots⟩) :
    Entry op (evictVariants variants tensors) ⟨[], stagedSlots⟩ ∧
      Local tensors ⟨variants, stagedSlots⟩ (evictVariants variants tensors) ⟨[], stagedSlots⟩ := by
  induction variants generalizing tensors with
  | nil => exact ⟨entry, Local.refl ..⟩
  | cons oldest variants ih =>
    obtain ⟨rest, change⟩ := entry.evict []
    obtain ⟨none, changes⟩ := ih rest
    exact ⟨none, change.trans changes⟩

/-- A slot is staged where no variant reads the input in place. -/
theorem Entry.stage (entry : Entry op tensors ⟨[], stagedSlots⟩) {i : Nat}
    (stageable : isStageableInput op i = true) (buffer address : Nat) :
    let slot : Tensor := ⟨tensors.next, buffer, address⟩
    let tensors' := { tensors with next := tensors.next + 1 }.setRetain slot true
    Entry op tensors' ⟨[], stagedSlots.set i (some slot)⟩ ∧
      Local tensors ⟨[], stagedSlots⟩ tensors' ⟨[], stagedSlots.set i (some slot)⟩ := by
  intro slot tensors'
  have new : tensors'.retain tensors.next = true := Function.update_self ..
  have old (handle : Nat) (below : handle < tensors.next) :
      tensors'.retain handle = tensors.retain handle :=
    Function.update_of_ne (Nat.ne_of_lt below) ..
  have holds (handle : Nat) (held : Holds ⟨[], stagedSlots.set i (some slot)⟩ handle) :
      Holds ⟨[], stagedSlots⟩ handle ∨ handle = tensors.next := by
    rcases held with owned | ⟨j, other, isOther, same⟩
    · exact .inl (.inl owned)
    · rw [stagedSlot_set] at isOther
      split at isOther
      · cases isOther
        exact .inr same.symm
      · exact .inl (.inr ⟨j, other, isOther, same⟩)
  constructor
  · exact {
      few := entry.few
      slots := List.length_set.trans entry.slots
      owned := nofun
      staged := fun j other isOther => by
        rw [stagedSlot_set] at isOther
        split at isOther
        case isTrue here => exact here.1 ▸ stageable
        case isFalse => exact entry.staged j other isOther
      same := nofun
      reads := nofun
      retained := fun handle held => by
        rcases holds handle held with before | rfl
        · obtain ⟨retained, below⟩ := entry.retained handle before
          exact ⟨(old handle below).trans retained, Nat.lt_succ_of_lt below⟩
        · exact ⟨new, Nat.lt_succ_self _⟩
      apart := fun _ _ ⟨_, member, _⟩ => nomatch member }
  · refine ⟨Nat.le_succ _, fun handle below _ => old handle below, fun handle held => ?_⟩
    exact (holds handle held).imp_right fun same => Nat.le_of_eq same.symm

theorem stageInputs_spec (moved : List Nat) (slots : List (Nat × Nat))
    (entry : Entry op tensors ⟨[], stagedSlots⟩)
    (stageable : ∀ i ∈ moved, isStageableInput op i = true) :
    let result := stageInputs moved slots ⟨[], stagedSlots⟩ tensors
    Entry op result.2.2 result.2.1 ∧ Local tensors ⟨[], stagedSlots⟩ result.2.2 result.2.1 ∧
      result.2.1.variants = [] := by
  induction moved generalizing slots tensors stagedSlots with
  | nil => exact ⟨entry, Local.refl .., rfl⟩
  | cons i moved ih =>
    cases slots with
    | nil => exact ⟨entry, Local.refl .., rfl⟩
    | cons slot slots =>
      obtain ⟨staged, change⟩ := entry.stage (stageable i List.mem_cons_self) slot.1 slot.2
      obtain ⟨rest, changes, none⟩ := ih slots staged fun j member =>
        stageable j (List.mem_cons_of_mem _ member)
      exact ⟨rest, change.trans changes, none⟩

variable {σ : Type} {algorithm : Algorithm σ} {op : Op} {call : Call σ op}

/-- The unstaged stageable inputs of a call are where the variants read them. -/
def InPlace (op : Op) (call : Call σ op) (traceData : TraceData) : Prop :=
  ∀ variant ∈ traceData.variants, ∀ i, isStageableInput op i = true →
    traceData.stagedSlot i = none → (variant.inputTensors i).address = (call.inputs i).address

theorem isStageableInput_lt {i : Nat} (stageable : isStageableInput op i = true) : i < op.inputs := by
  have bound := op.deviceResident_le
  simp only [isStageableInput, isDeviceResidentInput, Bool.and_eq_true, decide_eq_true_eq]
    at stageable
  omega

variable (call) in
theorem stageMovedInputs_spec (entry : Entry op tensors traceData) :
    let result := stageMovedInputs op call traceData tensors
    Entry op result.2.2 result.2.1 ∧ Local tensors traceData result.2.2 result.2.1 ∧
      InPlace op call result.2.1 := by
  obtain ⟨variants, stagedSlots⟩ := traceData
  cases variants with
  | nil => exact ⟨entry, Local.refl .., by simp [InPlace, stageMovedInputs]⟩
  | cons captured variants =>
    unfold stageMovedInputs
    simp only
    split
    case isTrue still =>
      refine ⟨entry, Local.refl .., fun variant member i stageable unstaged => ?_⟩
      rw [entry.same variant member captured List.mem_cons_self i stageable unstaged]
      have stays : i ∉ movedInputs op call ⟨captured :: variants, stagedSlots⟩ captured := by
        rw [still]
        exact List.not_mem_nil
      simp only [movedInputs, List.mem_filter, List.mem_range, isStageableInput_lt stageable,
        stageable, isStaged, unstaged, Option.isSome_none, Bool.not_false, Bool.true_and, true_and,
        Bool.or_eq_true, not_or, bne_iff_ne, not_not] at stays
      exact stays.2
    case isFalse =>
      obtain ⟨evicted, change⟩ := evictVariants_spec _ entry
      obtain ⟨staged, changes, none⟩ := stageInputs_spec
        (movedInputs op call ⟨captured :: variants, stagedSlots⟩ captured) call.stagedSlots evicted
        fun i member => by
          have conditions := (List.mem_filter.mp member).2
          simp only [Bool.and_eq_true] at conditions
          exact conditions.1.1
      refine ⟨staged, change.trans changes, ?_⟩
      intro variant member
      rw [none] at member
      cases member

theorem extractFirst_some {α : Type} {test : α → Except String Bool} {items others : List α}
    {found : α} (extracted : extractFirst test items = .ok (some (found, others))) :
    test found = .ok true ∧ (found :: others).Perm items := by
  induction items generalizing others with
  | nil => cases extracted
  | cons first rest ih =>
    rw [extractFirst] at extracted
    cases tested : test first with
    | error what =>
      rw [tested] at extracted
      cases extracted
    | ok holds =>
      rw [tested] at extracted
      cases holds with
      | true =>
        cases extracted
        exact ⟨tested, .refl _⟩
      | false =>
        cases searched : extractFirst test rest with
        | error what =>
          rw [searched] at extracted
          cases extracted
        | ok result =>
          rw [searched] at extracted
          cases result with
          | none => cases extracted
          | some result =>
            cases extracted
            obtain ⟨holds, perm⟩ := ih searched
            exact ⟨holds, (List.Perm.swap ..).trans (perm.cons first)⟩

/-- No live allocation overlaps what a trace uses. -/
def ReplaySafe (algorithm : Algorithm σ) (managers : Nat → BankManager σ) (trace : MeshTrace) :
    Prop :=
  ∀ footprint ∈ trace.allocationFootprints,
    ¬(managers footprint.manager).Overlaps algorithm footprint.regions

/-- What a variant that may be replayed was captured with. -/
theorem replayable_spec (tested : replayable algorithm op call variant = .ok true) :
    (∀ i < op.deviceResidentInputCount - op.stageableInputCount,
      call.isAllocated (variant.inputTensors i).buffer = true ∧
        (call.inputs i).address = (variant.inputTensors i).address) ∧
      ReplaySafe algorithm call.managers variant.trace := by
  unfold replayable at tested
  split at tested
  case isFalse => cases tested
  case isTrue matches_ =>
    constructor
    · intro i within
      have same := List.all_eq_true.mp matches_ i (List.mem_range.mpr within)
      rw [Bool.and_eq_true, beq_iff_eq] at same
      exact same
    · intro footprint member overlaps
      unfold isMeshTraceReplaySafe at tested
      cases searched : variant.trace.allocationFootprints.anyM fun footprint =>
          (call.managers footprint.manager).hasLiveAllocationOverlap algorithm footprint.regions with
      | error what =>
        rw [searched] at tested
        cases tested
      | ok found =>
        rw [searched] at tested
        cases found with
        | true => cases tested
        | false =>
          have missed := anyM_ok_false searched footprint member
          have reported := (BankManager.hasLiveAllocationOverlap_ok footprint.sorted missed).mpr
            overlaps
          cases reported

/-- Room for another variant leaves the slots of a matching one. -/
theorem makeRoomForVariant_spec (entry : Entry op tensors traceData)
    {matching : Option TraceVariant} (member : ∀ variant ∈ matching, variant ∈ traceData.variants) :
    let result := makeRoomForVariant op traceData matching tensors
    Entry op result.2 result.1 ∧ Local tensors traceData result.2 result.1 ∧
      result.1.variants.length < kMaxTraceVariants ∧
      result.1.stagedSlots = traceData.stagedSlots ∧
      (∀ variant ∈ result.1.variants, variant ∈ traceData.variants) ∧
      ∀ variant ∈ matching, ∀ tensor ∈ variant.ownedTensors,
        result.2.retain tensor.handle = true ∧ tensor.handle < result.2.next := by
  obtain ⟨variants, stagedSlots⟩ := traceData
  have held {variant : TraceVariant} (isMatch : variant ∈ matching) {tensor : Tensor}
      (owned : tensor ∈ variant.ownedTensors) :
      tensors.retain tensor.handle = true ∧ tensor.handle < tensors.next :=
    entry.retained _ (.inl ⟨variant, member variant isMatch, tensor, owned, rfl⟩)
  cases variants with
  | nil =>
    exact ⟨entry, Local.refl .., (by decide : 0 < kMaxTraceVariants), rfl, fun _ => id,
      fun variant isMatch tensor owned => held isMatch owned⟩
  | cons oldest variants =>
    unfold makeRoomForVariant
    simp only
    split
    case isFalse room =>
      refine ⟨entry, Local.refl .., Nat.lt_of_le_of_ne entry.few room, rfl, fun _ => id, ?_⟩
      exact fun variant isMatch tensor owned => held isMatch owned
    case isTrue full =>
      obtain ⟨evicted, change⟩ := entry.evict (matching.toList.flatMap fun variant =>
        (List.range op.inputs).map variant.inputTensors ++
          (List.range op.outputs).map variant.outputTensors)
      refine ⟨evicted, change, ?_, rfl, fun _ => List.mem_cons_of_mem oldest, ?_⟩
      · exact Nat.lt_of_succ_le (Nat.le_of_eq full)
      · intro variant isMatch tensor owned
        obtain ⟨retained, below⟩ := held isMatch owned
        refine ⟨Bool.not_eq_false _ ▸ fun lost => ?_, (evictOldestVariant_next ..).symm ▸ below⟩
        rcases (evictOldestVariant_retain ..).mp lost with before | ⟨-, unreplaced, -⟩
        · exact Bool.false_ne_true (before.symm.trans retained)
        · apply unreplaced
          apply List.mem_map_of_mem
          refine List.mem_flatMap.mpr ⟨variant, Option.mem_toList.mpr isMatch, ?_⟩
          rw [entry.owned variant (member variant isMatch), mem_ownedTensors] at owned
          rcases owned with ⟨i, within, -, rfl⟩ | ⟨i, within, rfl⟩
          · exact List.mem_append_left _ (List.mem_map_of_mem (List.mem_range.mpr within))
          · exact List.mem_append_right _ (List.mem_map_of_mem (List.mem_range.mpr within))

/-- Another variant on the same buffers and slots. -/
theorem Entry.push {tensors : Tensors} {traceData : TraceData} (entry : Entry op tensors traceData)
    (room : traceData.variants.length < kMaxTraceVariants) {variant : TraceVariant}
    (owned : variant.ownedTensors =
      (captureTrace op variant.trace variant.inputTensors variant.outputTensors).ownedTensors)
    (same : ∀ other ∈ traceData.variants, ∀ i, isStageableInput op i = true →
      traceData.stagedSlot i = none →
        (other.inputTensors i).address = (variant.inputTensors i).address)
    (reads : ∀ i slot, traceData.stagedSlot i = some slot → variant.inputTensors i = slot)
    (retained : ∀ tensor ∈ variant.ownedTensors,
      tensors.retain tensor.handle = true ∧ tensor.handle < tensors.next)
    (apart : ∀ tensor ∈ variant.ownedTensors, ¬Stages traceData tensor.handle) :
    Entry op tensors { traceData with variants := traceData.variants ++ [variant] } := by
  have cases_ {P : TraceVariant → Prop} (before : ∀ other ∈ traceData.variants, P other)
      (new : P variant) : ∀ other ∈ traceData.variants ++ [variant], P other := by
    intro other member
    rcases List.mem_append.mp member with old | new'
    · exact before other old
    · exact List.mem_singleton.mp new' ▸ new
  exact {
    few := by
      rw [List.length_append]
      exact room
    slots := entry.slots
    owned := cases_ entry.owned owned
    staged := entry.staged
    same := cases_
      (fun first member => cases_ (entry.same first member) (same first member))
      (cases_ (fun other member i stageable unstaged =>
        (same other member i stageable unstaged).symm) fun _ _ _ => rfl)
    reads := cases_ entry.reads reads
    retained := by
      rintro handle (⟨other, member, tensor, own, rfl⟩ | staged)
      · revert tensor
        exact cases_ (fun other old tensor own =>
          entry.retained _ (.inl ⟨other, old, tensor, own, rfl⟩)) retained other member
      · exact entry.retained handle (.inr staged)
    apart := by
      rintro handle staged ⟨other, member, tensor, own, rfl⟩
      revert tensor
      exact cases_ (fun other old tensor own staged =>
        entry.apart _ staged ⟨other, old, tensor, own, rfl⟩) apart other member }

/-- New slots: those of device-resident inputs are the inputs, the others have new handles. -/
theorem allocateTraceSlots_spec
    (allocated : allocateTraceSlots op call tensors = some (inputSlots, outputSlots, tensors')) :
    tensors.next ≤ tensors'.next ∧
      (∀ handle < tensors.next, tensors'.retain handle = tensors.retain handle) ∧
      (∀ i, isDeviceResidentInput op i = true → inputSlots i = call.inputs i) ∧
      ∀ inputSlots' : Nat → Tensor,
        (∀ i, isDeviceResidentInput op i = false → inputSlots' i = inputSlots i) →
        ∀ trace, ∀ tensor ∈ (captureTrace op trace inputSlots' outputSlots).ownedTensors,
          tensors.next ≤ tensor.handle ∧ tensor.handle < tensors'.next ∧
            tensors'.retain tensor.handle = true := by
  obtain ⟨slots, isSlots, result⟩ := Option.map_eq_some_iff.mp allocated
  cases result
  have resident := op.deviceResident_le
  refine ⟨by simp only; omega, fun handle below => ?_, fun i isResident => if_pos isResident, ?_⟩
  · have old : ¬(tensors.next ≤ handle ∧ handle < tensors.next + op.inputs + op.outputs) := by omega
    simp only [decide_eq_false old, Bool.false_and, Bool.false_or]
  · intro inputSlots' same trace tensor owned
    simp only [Bool.or_eq_true, Bool.and_eq_true, decide_eq_true_eq, Bool.not_eq_true']
    rcases (mem_ownedTensors ..).mp owned with ⟨i, within, staged, rfl⟩ | ⟨i, within, rfl⟩
    · rw [same i staged]
      simp only [staged, Bool.false_eq_true, if_false, Nat.add_sub_cancel_left]
      exact ⟨by omega, by omega, .inl ⟨⟨by omega, by omega⟩, trivial⟩⟩
    · have notResident : isDeviceResidentInput op (op.inputs + i) = false :=
        decide_eq_false (by omega)
      simp only [Nat.add_sub_cancel_left, notResident]
      exact ⟨by omega, by omega, .inl ⟨⟨by omega, by omega⟩, trivial⟩⟩

theorem resident_of_stageable {i : Nat} (stageable : isStageableInput op i = true) :
    isDeviceResidentInput op i = true := (Bool.and_eq_true_iff.mp stageable).1

/-- A variant with the slots of a matching one. -/
theorem Entry.recapture {tensors : Tensors} {variants : List TraceVariant}
    {stagedSlots : List (Option Tensor)} {old : Tensors} {oldVariants : List TraceVariant}
    (before : Entry op old ⟨oldVariants, stagedSlots⟩)
    (entry : Entry op tensors ⟨variants, stagedSlots⟩)
    (kept : ∀ variant ∈ variants, variant ∈ oldVariants)
    (room : variants.length < kMaxTraceVariants) {variant : TraceVariant}
    (isMatch : variant ∈ oldVariants)
    (retained : ∀ tensor ∈ variant.ownedTensors,
      tensors.retain tensor.handle = true ∧ tensor.handle < tensors.next) (trace : MeshTrace) :
    Entry op tensors ⟨variants ++
      [captureTrace op trace variant.inputTensors variant.outputTensors], stagedSlots⟩ := by
  have owned : (captureTrace op trace variant.inputTensors variant.outputTensors).ownedTensors =
      variant.ownedTensors := (before.owned variant isMatch).symm
  refine entry.push room rfl ?_ (before.reads variant isMatch) ?_ ?_
  · exact fun other member => before.same other (kept other member) variant isMatch
  · rw [owned]
    exact retained
  · intro tensor own staged
    rw [owned] at own
    exact before.apart _ staged ⟨variant, isMatch, tensor, own, rfl⟩

/-- A variant with new slots. -/
theorem Entry.capture (entry : Entry op tensors traceData)
    (room : traceData.variants.length < kMaxTraceVariants) (inPlace : InPlace op call traceData)
    (allocated : allocateTraceSlots op call tensors = some (inputSlots, outputSlots, tensors'))
    (trace : MeshTrace) :
    let variant := captureTrace op trace (useStagedSlots traceData inputSlots) outputSlots
    Entry op tensors' { traceData with variants := traceData.variants ++ [variant] } ∧
      Local tensors traceData tensors' { traceData with variants := traceData.variants ++ [variant] }
    := by
  intro variant
  obtain ⟨next, keeps, resident, new⟩ := allocateTraceSlots_spec allocated
  have frame : Entry op tensors' traceData :=
    entry.frame next fun handle held => keeps handle (entry.retained handle held).2
  have unstaged (i : Nat) (notResident : isDeviceResidentInput op i = false) :
      useStagedSlots traceData inputSlots i = inputSlots i := by
    unfold useStagedSlots
    cases staged : traceData.stagedSlot i with
    | none => rfl
    | some slot =>
      have stageable := resident_of_stageable (entry.staged i slot staged)
      rw [notResident] at stageable
      cases stageable
  have fresh := new (useStagedSlots traceData inputSlots) unstaged trace
  constructor
  · refine frame.push room rfl ?_ ?_ (fun tensor own => (fresh tensor own).2.symm) ?_
    · intro other member i stageable none
      rw [inPlace other member i stageable none, ← resident i (resident_of_stageable stageable)]
      show _ = (useStagedSlots traceData inputSlots i).address
      rw [useStagedSlots, none, Option.getD_none]
    · intro i slot isSlot
      show useStagedSlots traceData inputSlots i = slot
      rw [useStagedSlots, isSlot, Option.getD_some]
    · intro tensor own staged
      exact Nat.not_le_of_lt (entry.retained _ (.inr staged)).2 (fresh tensor own).1
  · refine ⟨next, fun handle below _ => keeps handle below, ?_⟩
    rintro handle (⟨other, member, tensor, own, rfl⟩ | staged)
    · rcases List.mem_append.mp member with old | isNew
      · exact .inl (.inl ⟨other, old, tensor, own, rfl⟩)
      · rw [List.mem_singleton.mp isNew] at own
        exact .inr (fresh tensor own).1
    · exact .inl (.inr staged)

/-- Whether an outcome is a replay. -/
def Outcome.isReplay : Outcome → Bool
  | replayed _ _ => true
  | _ => false

theorem captureVariant_spec (entry : Entry op tensors traceData)
    (inPlace : InPlace op call traceData) :
    let result := captureVariant op call traceData tensors
    Entry op result.2.2 result.2.1 ∧ Local tensors traceData result.2.2 result.2.1 ∧
      result.1.isReplay = false := by
  unfold captureVariant
  simp only
  generalize isMatching : traceData.variants.reverse.find? (deviceInputsMatch op call) = matching
  have member : ∀ variant ∈ matching, variant ∈ traceData.variants := by
    rintro variant rfl
    exact List.mem_reverse.mp (List.mem_of_find?_eq_some isMatching)
  obtain ⟨entry', change, room, slots, kept, owned⟩ := makeRoomForVariant_spec entry member
  generalize makeRoomForVariant op traceData matching tensors = result
    at entry' change room slots kept owned ⊢
  obtain ⟨⟨variants, stagedSlots⟩, tensors'⟩ := result
  obtain ⟨oldVariants, stagedSlots'⟩ := traceData
  subst slots
  cases matching with
  | some variant =>
    cases call.captured with
    | none => exact ⟨entry', change, rfl⟩
    | some trace =>
      have isMatch := member variant rfl
      refine ⟨entry.recapture entry' kept room isMatch (owned variant rfl) trace, ?_, rfl⟩
      refine ⟨change.next, change.keeps, ?_⟩
      rintro handle (⟨other, new, tensor, own, rfl⟩ | staged)
      · rcases List.mem_append.mp new with old | isNew
        · exact change.within _ (.inl ⟨other, old, tensor, own, rfl⟩)
        · rw [List.mem_singleton.mp isNew] at own
          refine .inl (.inl ⟨variant, isMatch, tensor, ?_, rfl⟩)
          rw [entry.owned variant isMatch]
          exact own
      · exact change.within handle (.inr staged)
  | none =>
    simp only [variantSlots]
    cases allocated : allocateTraceSlots op call tensors' with
    | none => exact ⟨entry', change, rfl⟩
    | some slots =>
      cases call.captured with
      | none =>
        obtain ⟨next, keeps, -, -⟩ := allocateTraceSlots_spec allocated
        refine ⟨entry'.frame next fun handle held => keeps handle (entry'.retained handle held).2,
          change.trans ⟨next, fun handle below _ => keeps handle below, fun _ => .inl⟩, rfl⟩
      | some trace =>
        have inPlace' : InPlace op call ⟨variants, stagedSlots⟩ := fun variant isOld =>
          inPlace variant (kept variant isOld)
        obtain ⟨pushed, changes⟩ := entry'.capture room inPlace' allocated trace
        exact ⟨pushed, change.trans changes, rfl⟩

/-- What a replay of a variant is sure of: it reads the buffers of the call. -/
structure Faithful (algorithm : Algorithm σ) (op : Op) (call : Call σ op) (traceData : TraceData)
    (copies : List (Tensor × Tensor)) (variant : TraceVariant) : Prop where
  cached : variant ∈ traceData.variants
  /-- The other device-resident inputs are where the variant was captured with them. -/
  captured : ∀ i < op.deviceResidentInputCount, isStageableInput op i = false →
    call.isAllocated (variant.inputTensors i).buffer = true ∧
      (call.inputs i).address = (variant.inputTensors i).address
  /-- A stageable input that is not staged is where the variant reads it. -/
  inPlace : ∀ i, isStageableInput op i = true → traceData.stagedSlot i = none →
    (call.inputs i).address = (variant.inputTensors i).address
  /-- A staged input was copied into the slot that the variant reads. -/
  staged : ∀ i slot, traceData.stagedSlot i = some slot →
    variant.inputTensors i = slot ∧ (call.inputs i, slot) ∈ copies
  safe : ReplaySafe algorithm call.managers variant.trace

/-- A staged input is copied. -/
theorem mem_updateTraceInputSlots {i : Nat} {slot : Tensor}
    (staged : traceData.stagedSlot i = some slot) (stageable : isStageableInput op i = true)
    (reads : inputSlots i = slot) :
    (call.inputs i, slot) ∈ updateTraceInputSlots op call traceData inputSlots false := by
  have isStaged_ : isStaged traceData i = true := Option.isSome_iff_exists.mpr ⟨slot, staged⟩
  have onDevice := call.resident i (resident_of_stageable stageable)
  refine List.mem_filterMap.mpr ⟨i, List.mem_range.mpr (isStageableInput_lt stageable), ?_⟩
  simp only [isStaged_, onDevice, reads, Bool.false_and, Bool.not_true, Bool.and_false,
    Bool.or_true, Bool.and_true, Bool.false_eq_true, if_false]

variable (algorithm call) in
theorem runEntry_spec (entry : Entry op tensors traceData) :
    let result := runEntry algorithm op call traceData tensors
    Entry op result.2.2 result.2.1 ∧ Local tensors traceData result.2.2 result.2.1 ∧
      ∀ copies variant, result.1 = .replayed copies variant →
        Faithful algorithm op call result.2.1 copies variant := by
  obtain ⟨entry', change, inPlace⟩ := stageMovedInputs_spec call entry
  unfold runEntry
  generalize stageMovedInputs op call traceData tensors = result at entry' change inPlace ⊢
  obtain ⟨returned, traceData', tensors'⟩ := result
  cases returned with
  | false => exact ⟨entry', change, nofun⟩
  | true =>
    simp only at entry' change inPlace ⊢
    cases extracted : extractFirst (replayable algorithm op call) traceData'.variants.reverse with
    | error what => exact ⟨entry', change, nofun⟩
    | ok found =>
      cases found with
      | none =>
        obtain ⟨entry'', changes, notReplay⟩ := captureVariant_spec entry' inPlace
        refine ⟨entry'', change.trans changes, fun copies variant isReplay => ?_⟩
        rw [isReplay] at notReplay
        cases notReplay
      | some found =>
        obtain ⟨variant, others⟩ := found
        obtain ⟨tested, perm⟩ := extractFirst_some extracted
        have member : variant ∈ traceData'.variants :=
          List.mem_reverse.mp (perm.mem_iff.mp List.mem_cons_self)
        have rotated : (others.reverse ++ [variant]).Perm traceData'.variants := by
          rw [← List.reverse_cons]
          exact (List.reverse_perm _).trans (perm.trans (List.reverse_perm _))
        obtain ⟨entry'', changes⟩ := entry'.reorder rotated
        obtain ⟨matches_, safe⟩ := replayable_spec tested
        refine ⟨entry'', change.trans changes, fun copies other isReplay => ?_⟩
        cases isReplay
        exact {
          cached := List.mem_append_right _ List.mem_cons_self
          captured := fun i within notStageable => matches_ i <| by
            simp only [isStageableInput, isDeviceResidentInput, decide_eq_true within,
              Bool.true_and, decide_eq_false_iff_not] at notStageable
            omega
          inPlace := fun i stageable unstaged => (inPlace variant member i stageable unstaged).symm
          staged := fun i slot isSlot => by
            have reads := entry'.reads variant member i slot isSlot
            exact ⟨reads, mem_updateTraceInputSlots isSlot (entry'.staged i slot isSlot) reads⟩
          safe := safe }

variable {Key : Type}

/-- What holds of the entries together: they keep different tensors. -/
structure Entries (ops : Key → Op) (cache : Key → Option TraceData) (tensors : Tensors) : Prop where
  each : ∀ key traceData, cache key = some traceData → Entry (ops key) tensors traceData
  apart : ∀ key other traceData otherData, key ≠ other → cache key = some traceData →
    cache other = some otherData → ∀ handle, Holds traceData handle → ¬Holds otherData handle

namespace Entries

variable {ops : Key → Op} {cache : Key → Option TraceData} {tensors tensors' : Tensors}

/-- New tensors leave the entries alone. -/
theorem frame (entries : Entries ops cache tensors) (next : tensors.next ≤ tensors'.next)
    (keeps : ∀ handle < tensors.next, tensors'.retain handle = tensors.retain handle) :
    Entries ops cache tensors' where
  each key traceData isEntry :=
    have entry := entries.each key traceData isEntry
    entry.frame next fun handle held => keeps handle (entry.retained handle held).2
  apart := entries.apart

variable [DecidableEq Key]

/-- An entry is set to what keeps only its own and new tensors. -/
theorem set (entries : Entries ops cache tensors) {key : Key} {traceData : TraceData}
    (entry : Entry (ops key) tensors' traceData) (next : tensors.next ≤ tensors'.next)
    (keeps : ∀ handle < tensors.next, (∀ before, cache key = some before → ¬Holds before handle) →
      tensors'.retain handle = tensors.retain handle)
    (within : ∀ handle, Holds traceData handle →
      (∃ before, cache key = some before ∧ Holds before handle) ∨ tensors.next ≤ handle) :
    Entries ops (Function.update cache key (some traceData)) tensors' := by
  -- Another entry keeps tensors that the entry does not.
  have other {key' : Key} (different : key' ≠ key) {otherData : TraceData}
      (isOther : cache key' = some otherData) {handle : Nat} (held : Holds otherData handle) :
      handle < tensors.next ∧ ∀ before, cache key = some before → ¬Holds before handle :=
    ⟨((entries.each key' otherData isOther).retained handle held).2, fun before isBefore =>
      entries.apart key' key otherData before different isOther isBefore handle held⟩
  have unshared {key' : Key} (different : key' ≠ key) {otherData : TraceData}
      (isOther : cache key' = some otherData) {handle : Nat} (held : Holds otherData handle) :
      ¬Holds traceData handle := by
    intro own
    obtain ⟨below, unheld⟩ := other different isOther held
    rcases within handle own with ⟨before, isBefore, heldBefore⟩ | fresh
    · exact unheld before isBefore heldBefore
    · exact Nat.not_le_of_lt below fresh
  constructor
  · intro key' otherData isEntry
    by_cases same : key' = key
    · subst same
      rw [Function.update_self] at isEntry
      cases isEntry
      exact entry
    · rw [Function.update_of_ne same] at isEntry
      exact (entries.each key' otherData isEntry).frame next fun handle held =>
        keeps handle (other same isEntry held).1 (other same isEntry held).2
  · intro first second firstData secondData different isFirst isSecond handle held
    by_cases same : first = key
    · subst same
      rw [Function.update_self] at isFirst
      rw [Function.update_of_ne different.symm] at isSecond
      cases isFirst
      exact fun held' => unshared different.symm isSecond held' held
    · rw [Function.update_of_ne same] at isFirst
      by_cases same' : second = key
      · subst same'
        rw [Function.update_self] at isSecond
        cases isSecond
        exact unshared same isFirst held
      · rw [Function.update_of_ne same'] at isSecond
        exact entries.apart first second firstData secondData different isFirst isSecond handle held

/-- An entry is released and removed. -/
theorem release (entries : Entries ops cache tensors) {key : Key} {traceData : TraceData}
    (isEntry : cache key = some traceData) :
    Entries ops (Function.update cache key none) (releaseTraceData traceData tensors) := by
  have remains {key' : Key} {otherData : TraceData}
      (isOther : Function.update cache key none key' = some otherData) :
      key' ≠ key ∧ cache key' = some otherData := by
    by_cases same : key' = key
    · subst same
      rw [Function.update_self] at isOther
      cases isOther
    · rw [Function.update_of_ne same] at isOther
      exact ⟨same, isOther⟩
  constructor
  · intro key' otherData isOther
    obtain ⟨different, isOther⟩ := remains isOther
    refine (entries.each key' otherData isOther).frame
      (Nat.le_of_eq (releaseTraceData_retain traceData tensors 0).1.symm) fun handle held => ?_
    have unheld := entries.apart key' key otherData traceData different isOther isEntry handle held
    apply Bool.eq_iff_iff.mpr
    rw [← not_iff_not, Bool.not_eq_true, Bool.not_eq_true,
      (releaseTraceData_retain traceData tensors handle).2]
    exact or_iff_left unheld
  · intro first second firstData secondData different isFirst isSecond
    exact entries.apart first second firstData secondData different (remains isFirst).2
      (remains isSecond).2

end Entries

variable [DecidableEq Key]

/-- What holds of the cache in every state. -/
structure Valid (ops : Key → Op) (state : State Key) : Prop where
  once : state.traceCache.leastToMostRecentlyUsed.Nodup
  listed : ∀ key, key ∈ state.traceCache.leastToMostRecentlyUsed ↔
    (state.traceCache.cache key).isSome = true
  few : state.traceCache.leastToMostRecentlyUsed.length ≤ kMaxEntries
  entries : Entries ops state.traceCache.cache state.tensors

theorem setEntry_isSome (state : State Key) (key : Key) (traceData : TraceData) (tensors : Tensors)
    (other : Key) : ((state.setEntry key traceData tensors).traceCache.cache other).isSome = true ↔
      other = key ∨ (state.traceCache.cache other).isSome = true := by
  show (Function.update state.traceCache.cache key (some traceData) other).isSome = true ↔ _
  by_cases same : other = key
  · rw [same, Function.update_self]
    exact iff_of_true rfl (.inl rfl)
  · rw [Function.update_of_ne same, or_iff_right same]

namespace Valid

variable {ops : Key → Op} {state : State Key}

section

variable (valid : Valid ops state)
include valid

theorem evictLeastRecentlyUsed : Valid ops state.evictLeastRecentlyUsed :=
  by
  unfold State.evictLeastRecentlyUsed
  split
  · exact valid
  · next entry rest isList =>
    have once := valid.once
    have few := valid.few
    rw [isList] at once few
    obtain ⟨fresh, once⟩ := List.nodup_cons.mp once
    have listed (key : Key) : key = entry ∨ key ∈ rest ↔
        (state.traceCache.cache key).isSome = true := by
      rw [← valid.listed, isList, List.mem_cons]
    split
    · next missing =>
      have present := (listed entry).mp (.inl rfl)
      rw [missing] at present
      cases present
    · next traceData isEntry =>
      refine ⟨once, fun key => ?_, (Nat.le_succ _).trans few, valid.entries.release isEntry⟩
      by_cases same : key = entry
      · subst same
        simp [fresh]
      · simp [← listed key, same]

theorem makeRoom : Valid ops state.makeRoom ∧
    state.makeRoom.traceCache.leastToMostRecentlyUsed.length < kMaxEntries ∧
    ∀ key, state.traceCache.cache key = none → state.makeRoom.traceCache.cache key = none := by
  induction state using State.makeRoom.induct with
  | case1 state full ih =>
    rw [State.makeRoom, if_pos full]
    obtain ⟨valid', room, absent⟩ := ih valid.evictLeastRecentlyUsed
    refine ⟨valid', room, fun key none => absent key ?_⟩
    unfold State.evictLeastRecentlyUsed
    split
    · exact none
    · split
      · exact none
      · next entry _ _ _ _ _ =>
        by_cases same : key = entry
        · rw [same]
          exact Function.update_self ..
        · exact (Function.update_of_ne same ..).trans none
  | case2 state room =>
    rw [State.makeRoom, if_neg room]
    exact ⟨valid, Nat.lt_of_not_le room, fun _ => id⟩

/-- Touching a cached entry. -/
theorem touch {key : Key} (cached : (state.traceCache.cache key).isSome = true) :
    Valid ops (state.touch key) := by
  have member := (valid.listed key).mpr cached
  have perm : (state.traceCache.leastToMostRecentlyUsed.erase key ++ [key]).Perm
      state.traceCache.leastToMostRecentlyUsed :=
    (List.perm_append_singleton ..).trans (List.perm_cons_erase member).symm
  exact ⟨perm.nodup_iff.mpr valid.once, fun other => perm.mem_iff.trans (valid.listed other),
    perm.length_eq ▸ valid.few, valid.entries⟩

/-- Setting a cached entry. -/
theorem setEntry {key : Key} {before traceData : TraceData}
    (isEntry : state.traceCache.cache key = some before) {tensors : Tensors}
    (entry : Entry (ops key) tensors traceData)
    (change : Local state.tensors before tensors traceData) :
    Valid ops (state.setEntry key traceData tensors) := by
  refine ⟨valid.once, fun other => ?_, valid.few, ?_⟩
  · rw [setEntry_isSome]
    by_cases same : other = key
    · exact iff_of_true ((valid.listed other).mpr (same ▸ isEntry ▸ rfl)) (.inl same)
    · rw [or_iff_right same]
      exact valid.listed other
  · refine valid.entries.set entry change.next (fun handle below unheld => ?_) fun handle held => ?_
    · exact change.keeps handle below (unheld before isEntry)
    · exact (change.within handle held).imp_left fun own => ⟨before, isEntry, own⟩

/-- Adding an entry with new tensors. -/
theorem insert {key : Key} {traceData : TraceData} {tensors : Tensors}
    (absent : state.traceCache.cache key = none)
    (room : state.traceCache.leastToMostRecentlyUsed.length < kMaxEntries)
    (entry : Entry (ops key) tensors traceData) (next : state.tensors.next ≤ tensors.next)
    (keeps : ∀ handle < state.tensors.next, tensors.retain handle = state.tensors.retain handle)
    (fresh : ∀ handle, Holds traceData handle → state.tensors.next ≤ handle) :
    Valid ops ({ state with tensors := tensors }.insert key traceData) := by
  have unlisted : key ∉ state.traceCache.leastToMostRecentlyUsed := by
    rw [valid.listed, absent]
    exact Bool.false_ne_true
  have prepared : ({ state with tensors := tensors } : State Key).prepareForInsert key =
      { state with tensors := tensors } := by
    rw [State.prepareForInsert, State.contains, absent]
    simp only [Option.isSome_none, Bool.false_eq_true, if_false]
    rw [State.makeRoom, if_neg (Nat.not_le_of_lt room)]
  generalize inserted : ({ state with tensors := tensors } : State Key).insert key traceData = after
  rw [State.insert, prepared] at inserted
  have listed : after.traceCache.leastToMostRecentlyUsed =
      state.traceCache.leastToMostRecentlyUsed ++ [key] := by
    rw [← inserted]
    show state.traceCache.leastToMostRecentlyUsed.erase key ++ [key] = _
    rw [List.erase_of_not_mem unlisted]
  have cache : after.traceCache.cache =
      Function.update state.traceCache.cache key (some traceData) := by
    rw [← inserted]
    rfl
  have kept : after.tensors = tensors := by
    rw [← inserted]
    rfl
  refine ⟨?_, fun other => ?_, ?_, ?_⟩
  · rw [listed, ← List.concat_eq_append]
    exact List.Nodup.concat unlisted valid.once
  · rw [listed, cache, List.mem_append, List.mem_singleton, valid.listed]
    by_cases same : other = key
    · rw [same, Function.update_self]
      exact iff_of_true (.inr rfl) rfl
    · rw [Function.update_of_ne same, or_iff_left same]
  · rw [listed, List.length_append]
    exact room
  · rw [cache, kept]
    exact valid.entries.set entry next (fun handle below _ => keeps handle below) fun handle held =>
      .inr (fresh handle held)

end

end Valid

/-- The entry of a first capture. -/
theorem Entry.first
    (allocated : allocateTraceSlots op call tensors = some (inputSlots, outputSlots, tensors'))
    (trace : MeshTrace) :
    let traceData : TraceData :=
      ⟨[captureTrace op trace inputSlots outputSlots], List.replicate op.inputs none⟩
    Entry op tensors' traceData ∧ ∀ handle, Holds traceData handle → tensors.next ≤ handle := by
  have unstaged (variants : List TraceVariant) (i : Nat) :
      (⟨variants, List.replicate op.inputs none⟩ : TraceData).stagedSlot i = none := by
    rw [TraceData.stagedSlot, List.getElem?_replicate]
    split <;> rfl
  have unstages (variants : List TraceVariant) (handle : Nat) :
      ¬Stages ⟨variants, List.replicate op.inputs none⟩ handle := by
    rintro ⟨i, slot, isSlot, -⟩
    rw [unstaged] at isSlot
    cases isSlot
  have empty : Entry op tensors ⟨[], List.replicate op.inputs none⟩ := {
    few := Nat.zero_le _
    slots := List.length_replicate
    owned := nofun
    staged := fun i slot isSlot => by
      rw [unstaged] at isSlot
      cases isSlot
    same := nofun
    reads := nofun
    retained := fun handle held => held.elim (fun ⟨_, member, _⟩ => nomatch member)
      fun staged => absurd staged (unstages [] handle)
    apart := fun handle staged => absurd staged (unstages [] handle) }
  have sameSlots : useStagedSlots ⟨[], List.replicate op.inputs none⟩ inputSlots = inputSlots := by
    funext i
    rw [useStagedSlots, unstaged, Option.getD_none]
  have inPlace : InPlace op call ⟨[], List.replicate op.inputs none⟩ := nofun
  obtain ⟨entry, change⟩ := empty.capture (by decide : 0 < kMaxTraceVariants) inPlace allocated trace
  rw [sameSlots] at entry change
  refine ⟨entry, fun handle held => (change.within handle held).resolve_left ?_⟩
  exact fun held => held.elim (fun ⟨_, member, _⟩ => nomatch member) (unstages [] handle)

/-- A run keeps the cache valid, and a replay reads the buffers of the call. -/
theorem run_spec {ops : Key → Op} {state : State Key} (valid : Valid ops state) (key : Key)
    (call : Call σ (ops key)) :
    let result := run algorithm (ops key) call key state
    Valid ops result.2 ∧ ∀ copies variant, result.1 = .replayed copies variant →
      ∃ traceData, result.2.traceCache.cache key = some traceData ∧
        Faithful algorithm (ops key) call traceData copies variant := by
  unfold run
  cases isEntry : state.traceCache.cache key with
  | none =>
    simp only
    have prepared : state.prepareForInsert key = state.makeRoom := by
      rw [State.prepareForInsert, State.contains, isEntry]
      rfl
    obtain ⟨valid', room, absent⟩ := valid.makeRoom
    have absent' := absent key isEntry
    rw [prepared]
    cases allocated : allocateTraceSlots (ops key) call state.makeRoom.tensors with
    | none => exact ⟨valid', nofun⟩
    | some slots =>
      obtain ⟨next, keeps, -, -⟩ := allocateTraceSlots_spec allocated
      cases call.captured with
      | none =>
        exact ⟨⟨valid'.once, valid'.listed, valid'.few, valid'.entries.frame next keeps⟩, nofun⟩
      | some trace =>
        obtain ⟨entry, fresh⟩ := Entry.first allocated trace
        exact ⟨valid'.insert absent' room entry next keeps fresh, nofun⟩
  | some traceData =>
    have cached : (state.traceCache.cache key).isSome = true := by rw [isEntry]; rfl
    obtain ⟨entry, change, replays⟩ := runEntry_spec algorithm call
      (valid.entries.each key traceData isEntry)
    refine ⟨(valid.touch cached).setEntry isEntry entry change, fun copies variant isReplay => ?_⟩
    exact ⟨_, Function.update_self .., replays copies variant isReplay⟩

/-- The states that runs reach from an empty cache. -/
inductive Reachable (algorithm : Algorithm σ) (ops : Key → Op) : State Key → Prop where
  | empty (tensors : Tensors) : Reachable algorithm ops ⟨⟨fun _ => none, []⟩, tensors⟩
  | run {state : State Key} (reachable : Reachable algorithm ops state) (key : Key)
      (call : Call σ (ops key)) :
      Reachable algorithm ops (run algorithm (ops key) call key state).2

theorem Reachable.valid {ops : Key → Op} {state : State Key}
    (reachable : Reachable algorithm ops state) : Valid ops state := by
  induction reachable with
  | empty tensors =>
    refine ⟨List.nodup_nil, fun key => ?_, Nat.zero_le _, ⟨nofun, nofun⟩⟩
    exact iff_of_false List.not_mem_nil Bool.false_ne_true
  | run _ key call ih => exact (run_spec ih key call).1

/-- The trace cache in every reachable state. -/
theorem trace_cache {ops : Key → Op} {state : State Key}
    (reachable : Reachable algorithm ops state) :
    (state.traceCache.leastToMostRecentlyUsed.Nodup ∧
      (∀ key, key ∈ state.traceCache.leastToMostRecentlyUsed ↔
        (state.traceCache.cache key).isSome = true) ∧
      state.traceCache.leastToMostRecentlyUsed.length ≤ 16) ∧
    (∀ key traceData, state.traceCache.cache key = some traceData →
      traceData.variants.length ≤ 8 ∧
      ∀ variant ∈ traceData.variants, ∀ i, isStageableInput (ops key) i = true →
        (traceData.stagedSlot i = none → ∀ other ∈ traceData.variants,
          (variant.inputTensors i).address = (other.inputTensors i).address) ∧
        ∀ slot, traceData.stagedSlot i = some slot → variant.inputTensors i = slot) ∧
    (∀ key (call : Call σ (ops key)) copies variant,
      (run algorithm (ops key) call key state).1 = .replayed copies variant →
        ∃ traceData, (run algorithm (ops key) call key state).2.traceCache.cache key =
            some traceData ∧ Faithful algorithm (ops key) call traceData copies variant) ∧
    ∀ key traceData, state.traceCache.cache key = some traceData →
      (∀ handle, Holds traceData handle → state.tensors.retain handle = true) ∧
      ∀ oldest variants, traceData.variants = oldest :: variants → ∀ replacementTensors handle,
        ((evictOldestVariant oldest variants replacementTensors state.tensors).retain handle =
            false ↔ state.tensors.retain handle = false ∨
              handle ∈ oldest.ownedTensors.map Tensor.handle ∧
                handle ∉ replacementTensors.map Tensor.handle ∧ ¬Owns variants handle) := by
  have valid := reachable.valid
  refine ⟨⟨valid.once, valid.listed, valid.few⟩, ?_, ?_, ?_⟩
  · intro key traceData isEntry
    have entry := valid.entries.each key traceData isEntry
    refine ⟨entry.few, fun variant member i stageable => ⟨fun unstaged other member' => ?_, ?_⟩⟩
    · exact entry.same variant member other member' i stageable unstaged
    · exact entry.reads variant member i
  · intro key call copies variant isReplay
    exact (run_spec valid key call).2 copies variant isReplay
  · intro key traceData isEntry
    have entry := valid.entries.each key traceData isEntry
    refine ⟨fun handle held => (entry.retained handle held).1, ?_⟩
    intro oldest variants _ replacementTensors handle
    exact evictOldestVariant_retain oldest variants replacementTensors state.tensors handle

/-- An operation with one stageable input and one output. -/
def stageableOp (_ : Unit) : Op := ⟨1, 1, 1, 1, by decide, by decide⟩

/-- A call with its input at an address, on a device with one buffer of four bytes. -/
def callAt (address : Nat) : Call FirstFit.Held (stageableOp ()) where
  inputs _ := ⟨0, 0, address⟩
  onDevice _ := true
  resident _ _ := rfl
  sameVersion _ _ := false
  isAllocated _ := true
  managers _ := singleManager [(0, 4)] [0]
  stagedSlots := [(1, 64)]
  slots := some fun i => (i + 2, 128 + i)
  captured := some ⟨0, [⟨0, [⟨0, 8, 12⟩], ⟨List.pairwise_singleton .., by decide⟩⟩]⟩

/-- The state after calls with inputs at some addresses. -/
def afterCalls (addresses : List Nat) : State Unit :=
  addresses.foldl (fun state address =>
    (run (FirstFit.algorithm 16) (stageableOp ()) (callAt address) () state).2)
    ⟨⟨fun _ => none, []⟩, ⟨fun _ => false, 0⟩⟩

/-- An input that moved is staged, and moves again before the replay. -/
theorem trace_cache_staged : ∃ copies variant traceData,
    (run (FirstFit.algorithm 16) (stageableOp ()) (callAt 48) () (afterCalls [16, 32])).1 =
      .replayed copies variant ∧
    Faithful (FirstFit.algorithm 16) (stageableOp ()) (callAt 48) traceData copies variant := by
  have reachable : Reachable (FirstFit.algorithm 16) stageableOp (afterCalls [16, 32]) :=
    ((Reachable.empty ⟨fun _ => false, 0⟩).run () (callAt 16)).run () (callAt 32)
  have replays : (run (FirstFit.algorithm 16) (stageableOp ()) (callAt 48) ()
      (afterCalls [16, 32])).1.isReplay = true := by decide +kernel
  cases outcome : (run (FirstFit.algorithm 16) (stageableOp ()) (callAt 48) ()
      (afterCalls [16, 32])).1 with
  | threw =>
    rw [outcome] at replays
    cases replays
  | captured copies variant =>
    rw [outcome] at replays
    cases replays
  | replayed copies variant =>
    obtain ⟨traceData, -, faithful⟩ :=
      (trace_cache reachable).2.2.1 () (callAt 48) copies variant outcome
    exact ⟨copies, variant, traceData, rfl, faithful⟩

end Libtt.Trace.Cache

import Libtt.Foundation.Selection
import Libtt.Store.GroupCorrect

/-!
# Calls that meet

A context is one call of its maker's members after another, and its prefix is numbered by what those
calls were.
-/
namespace Libtt.KeyValue

open Libtt.Foundation

variable {mark : Mark} {channel : Channel} {place process process' : Nat} {object object' : Object}

/-- All calls of an object, the one in progress without a result. -/
def Object.ledger (object : Object) : List Mark :=
  object.marks ++ object.current.toList.map fun running => ⟨object.context, running.call, none⟩

theorem Object.calls_eq_ledger (object : Object) :
    object.calls = object.ledger.map Mark.invocation := by
  rw [calls_eq, ledger, List.map_append, List.map_map]
  rfl

theorem Object.collectives_eq (object : Object) :
    object.collectives = (collectiveMarks object.ledger).map Mark.call := by
  rw [collectives, calls_eq_ledger, List.filterMap_map, collectiveMarks, List.map_filterMap]
  congr 1
  funext mark
  simp only [Function.comp, Invocation.chosen, Mark.invocation]
  by_cases accepted : mark.call.Accepted mark.context <;>
    simp [accepted, Option.map_map, Function.comp_def]

/-- How often each collective call advanced a counter. -/
noncomputable def weights (marks : List Mark) (channel : Channel) : List Nat :=
  (collectiveMarks marks).map fun mark => mark.channels.count channel

/-- A counter of collectives, not of messages. -/
def Channel.IsCollective : Channel → Prop
  | send _ _ _ | recv _ _ _ => False
  | collective | duplicate | group _ => True

theorem collectiveMarks_append (first second : List Mark) :
    collectiveMarks (first ++ second) = collectiveMarks first ++ collectiveMarks second := by
  simp [collectiveMarks]

/-- A collective mark is an accepted collective call. -/
theorem mem_collectiveMarks {marks : List Mark} :
    mark ∈ collectiveMarks marks ↔ mark ∈ marks ∧ mark.call.Accepted mark.context ∧
      mark.call.collective.isSome := by
  simp only [collectiveMarks, List.mem_filterMap, Option.map_eq_some_iff]
  constructor
  · rintro ⟨other, member, kind, isChosen, rfl⟩
    refine ⟨member, ?_⟩
    by_cases accepted : other.call.Accepted other.context
    · have isKind : other.call.collective = some kind := by
        simpa [Invocation.chosen, Mark.invocation, accepted] using isChosen
      exact ⟨accepted, Option.isSome_iff_exists.mpr ⟨kind, isKind⟩⟩
    · simp [Invocation.chosen, Mark.invocation, accepted] at isChosen
  · rintro ⟨member, accepted, isCollective⟩
    obtain ⟨kind, isKind⟩ := Option.isSome_iff_exists.mp isCollective
    exact ⟨mark, member, kind, by simp [Invocation.chosen, Mark.invocation, accepted, isKind], rfl⟩

theorem branch_channel_isCollective (branch : Branch) : branch.channel.IsCollective := by
  cases branch <;> trivial

section Weights

variable {stored : String → Bytes → Prop} {undefinedColor : Int32} {object : Object}

/-- An accepted call that is no collective advances counters of messages only. -/
theorem advanced_messages {context : KeyValueContext} {call : Call}
    (isCollective : channel.IsCollective)
    (other : ¬(call.Accepted context ∧ call.collective.isSome)) :
    (advanced context call).count channel = 0 := by
  by_cases accepted : call.Accepted context
  case neg => simp [advanced, accepted]
  rw [List.count_eq_zero]
  intro member
  simp only [advanced, if_pos accepted] at member
  have notCollective : ¬call.collective.isSome := fun isSome => other ⟨accepted, isSome⟩
  cases call with
  | send | ssend | recv | irecv =>
    rw [List.mem_singleton] at member
    subst member
    exact isCollective
  | snoopIncomingMsgSize => simp at member
  | allGather | barrier | broadcast | createSubContext | duplicate | split =>
    simp [Call.collective] at notCollective

section

variable (valid : object.Valid stored undefinedColor)
include valid

/-- A returned call that is no collective advances no counter of collectives. -/
theorem Object.Valid.channels_other (member : mark ∈ object.marks)
    (isCollective : channel.IsCollective)
    (other : ¬(mark.call.Accepted mark.context ∧ mark.call.collective.isSome)) :
    mark.channels.count channel = 0 := by
  obtain ⟨place, found⟩ := List.mem_iff_getElem?.mp member
  rw [Mark.channels, channels, List.count_append, advanced_messages isCollective other]
  cases isChild : mark.child with
  | none => simp
  | some child =>
    obtain ⟨branch, makes⟩ := valid.child found isChild
    refine absurd ⟨makes.accepted, ?_⟩ other
    have creates := makes.creates
    cases isCall : mark.call <;> rw [isCall] at creates <;>
      first | rfl | (cases branch <;> cases creates)

/-- The counters of collectives are counted by the collective calls. -/
theorem Object.Valid.count_collective {marks : List Mark}
    (member : ∀ mark ∈ marks, mark ∈ object.marks) (isCollective : channel.IsCollective) :
    (counted marks).count channel = (weights marks channel).sum := by
  induction marks with
  | nil => rfl
  | cons mark marks ih =>
    have tail := ih fun other inside => member other (by simp [inside])
    have unfolded : (counted (mark :: marks)).count channel =
        mark.channels.count channel + (counted marks).count channel := by
      simp [counted, List.count_append]
    rw [unfolded, tail]
    by_cases isMark : mark.call.Accepted mark.context ∧ mark.call.collective.isSome
    · obtain ⟨kind, isKind⟩ := Option.isSome_iff_exists.mp isMark.2
      simp [weights, collectiveMarks, Invocation.chosen, Mark.invocation, isMark.1, isKind]
    · rw [valid.channels_other (member mark (by simp)) isCollective isMark]
      have skipped : collectiveMarks (mark :: marks) = collectiveMarks marks := by
        rw [← List.singleton_append, collectiveMarks_append]
        have none : collectiveMarks [mark] = [] := by
          rw [List.eq_nil_iff_forall_not_mem]
          intro other inside
          have parts := mem_collectiveMarks.mp inside
          rw [List.mem_singleton.mp parts.1] at parts
          exact isMark parts.2
        rw [none, List.nil_append]
      rw [weights, weights, skipped, Nat.zero_add]

/-- What a call finds in a counter of collectives: the weights of the collectives before it. -/
theorem Object.Valid.count_weights (found : object.ledger[place]? = some mark) (channel : Channel)
    (isCollective : channel.IsCollective) {rest : List Mark} {all : List Mark}
    (split : all = object.marks.take place ++ rest) : mark.context.count channel =
      ((weights all channel).take (collectiveMarks (object.marks.take place)).length).sum := by
  have call : object.calls[place]? = some (mark.context, mark.call) := by
    rw [Object.calls_eq_ledger, List.getElem?_map, found]
    rfl
  rw [(valid.at_call call).2, valid.count_collective (fun mark member => List.mem_of_mem_take member)
    isCollective, split, weights, weights, collectiveMarks_append, List.map_append]
  rw [List.take_left' (by simp)]

end

/-- The counter of the numbered collectives. -/
def Collective.numbered : Collective → Bool
  | allGather | barrier | broadcast _ | split => true
  | createSubContext _ | duplicate => false

theorem channels_collective (mark : Mark) (accepted : mark.call.Accepted mark.context) :
    mark.channels.count .collective = if mark.context.members.length ≠ 1 ∧
      mark.call.collective.any Collective.numbered then 1 else 0 := by
  have branches : ((mark.child.bind fun child => child.path.getLast?).toList.map
      Branch.channel).count .collective = 0 := by
    rw [List.count_eq_zero]
    intro member
    obtain ⟨branch, _, equal⟩ := List.mem_map.mp member
    cases branch <;> cases equal
  rw [Mark.channels, channels, List.count_append, branches, Nat.add_zero]
  simp only [advanced, if_pos accepted]
  cases mark.call <;> by_cases single : mark.context.members.length = 1 <;>
    simp [single, Call.collective, Collective.numbered]

end Weights

/-- The call in progress comes after all returned ones. -/
theorem Object.ledger_take (found : object.ledger[place]? = some mark) :
    object.ledger.take place = object.marks.take place := by
  have bound := (List.getElem?_eq_some_iff.mp found).1
  rw [ledger] at bound ⊢
  apply List.take_append_of_le_length
  cases busy : object.current <;> simp [busy] at bound <;> omega

/-- The number of a call among the collectives. -/
def Object.number (object : Object) (place : Nat) : Nat :=
  (collectiveMarks (object.marks.take place)).length

/-- A collective call has its number. -/
theorem Object.ledger_number (found : object.ledger[place]? = some mark)
    (accepted : mark.call.Accepted mark.context) (isCollective : mark.call.collective.isSome) :
    (collectiveMarks object.ledger)[object.number place]? = some mark := by
  obtain ⟨kind, isKind⟩ := Option.isSome_iff_exists.mp isCollective
  rw [number, ← Object.ledger_take found]
  exact getElem?_filterMap_of_place found
    (by simp [Invocation.chosen, Mark.invocation, accepted, isKind])

/-- A returned collective call has its number among the returned. -/
theorem Object.marks_number (found : object.marks[place]? = some mark)
    (accepted : mark.call.Accepted mark.context) (isCollective : mark.call.collective.isSome) :
    (collectiveMarks object.marks)[object.number place]? = some mark := by
  obtain ⟨kind, isKind⟩ := Option.isSome_iff_exists.mp isCollective
  exact getElem?_filterMap_of_place found
    (by simp [Invocation.chosen, Mark.invocation, accepted, isKind])

theorem Object.ledger_of_marks (found : object.marks[place]? = some mark) :
    object.ledger[place]? = some mark := by
  rw [ledger, List.getElem?_append_left (List.getElem?_eq_some_iff.mp found).1, found]

section Matching

variable {undefinedColor : Int32} {size : Nat} {system : System}

/-- A value that was put under a key. -/
abbrev System.Stored (system : System) (key : String) (value : Bytes) : Prop :=
  (key, value) ∈ system.puts

/-- The call that put an object's slot. -/
structure System.Writer (system : System) (object : Object) (slot : Slot) (value : Bytes)
    (process : Nat) (peer : Object) (place : Nat) (mark : Mark) : Prop where
  has : system.Has process peer
  found : peer.ledger[place]? = some mark
  owed : owes mark.context mark.call = some (slot, value)
  samePrefix : peer.context.keyPrefix = object.context.keyPrefix
  same : mark.context.Same peer.context
  rank : slot.owner = peer.context.rank
  member : object.context.members[slot.owner.toNat]? = some process

section

variable (valid : system.Valid system.Stored undefinedColor size) (has : system.Has process object)
include valid has

/-- Objects of one prefix have the same members. -/
theorem System.Valid.members_eq (has' : system.Has process' object')
    (same : object.context.keyPrefix = object'.context.keyPrefix) :
    object.context.members = object'.context.members := by
  obtain ⟨path, located⟩ := (valid.objects process object has).located
  rw [valid.members process object has path located,
    valid.members process' object' has' path (same.symm.trans located)]

/-- Every value under a key of an object was put by one call of an object of the same prefix. -/
theorem System.Valid.writer {slot : Slot} {value : Bytes}
    (stored : system.Stored (object.context.key slot) value) :
    ∃ process' peer place mark, system.Writer object slot value process' peer place mark := by
  obtain ⟨process', peer, place, context, call, owner, _⟩ := valid.wrote _ stored
  obtain ⟨path, located⟩ := (valid.objects process object has).located
  have peerValid := valid.objects process' peer owner.has
  obtain ⟨path', located'⟩ := peerValid.located
  have same := (peerValid.at_call owner.found).1
  obtain ⟨⟨slot', value'⟩, owed, entry⟩ := Option.map_eq_some_iff.mp owner.owed
  obtain ⟨keys, rfl⟩ := Prod.mk.inj entry
  rw [key_eq same located', key_eq (.refl _) located] at keys
  obtain ⟨rfl, rfl⟩ := keyText_injective keys
  have found := owner.found
  rw [Object.calls_eq_ledger, List.getElem?_map] at found
  obtain ⟨mark, isMark, equal⟩ := Option.map_eq_some_iff.mp found
  obtain ⟨rfl, rfl⟩ := Prod.mk.inj equal
  have rank := (owes_slot owed).2.1.trans (congrArg Int.ofNat same.rank)
  have samePrefix := located'.trans located.symm
  refine ⟨process', peer, place, mark, owner.has, isMark, owed, samePrefix, same, rank, ?_⟩
  rw [valid.members_eq has owner.has samePrefix.symm, rank, ← valid.ranks process' peer owner.has]
  exact peer.context.ranked

end

/-- Calls of one number in objects of one context are the same collective. -/
theorem System.SameOrder.kind (order : system.SameOrder) (has : system.Has process object)
    (has' : system.Has process' object') (same : object.lineage = object'.lineage) {number : Nat}
    {mark' : Mark} (found : (collectiveMarks object.ledger)[number]? = some mark)
    (found' : (collectiveMarks object'.ledger)[number]? = some mark') :
    mark.call.collective = mark'.call.collective := by
  have read {object : Object} {mark : Mark}
      (found : (collectiveMarks object.ledger)[number]? = some mark) :
      (object.collectives.map Call.collective)[number]? = some mark.call.collective := by
    rw [Object.collectives_eq, List.getElem?_map, List.getElem?_map, found]
    rfl
  exact eq_of_prefix_or_prefix (order process process' object object' has has' same) (read found)
    (read found')

/-- Lineage and prefix name the same contexts, at one depth. -/
def System.Level (system : System) (depth : Nat) : Prop :=
  ∀ process process' object object', system.Has process object → system.Has process' object' →
    object.lineage.length = depth →
    (object.lineage = object'.lineage ↔ object.context.keyPrefix = object'.context.keyPrefix)

/-- The same collective call of a peer. -/
structure System.Meets (system : System) (object : Object) (number : Nat) (call : Call)
    (slot : Slot) (value : Bytes) (peer : Object) (mark : Mark) : Prop where
  isPeer : system.Peer object slot.owner peer
  found : (collectiveMarks peer.ledger)[number]? = some mark
  owed : owes mark.context mark.call = some (slot, value)
  kind : call.collective = mark.call.collective
  same : mark.context.Same peer.context

/-- The mark of an object at a place is a call as the object found itself. -/
theorem Object.Valid.at_mark {stored : String → Bytes → Prop}
    (valid : object.Valid stored undefinedColor) (found : object.ledger[place]? = some mark) :
    mark.context.Same object.context := by
  have call : object.calls[place]? = some (mark.context, mark.call) := by
    rw [Object.calls_eq_ledger, List.getElem?_map, found]
    rfl
  exact (valid.at_call call).1

section

variable (valid : system.Valid system.Stored undefinedColor size) (order : system.SameOrder)
  (has : system.Has process object)
include valid order has

/-- Objects of one context weigh each numbered collective alike. -/
theorem System.Valid.weights_collective (has' : system.Has process' object')
    (same : object.lineage = object'.lineage)
    (samePrefix : object.context.keyPrefix = object'.context.keyPrefix) {number first second : Nat}
    (isFirst : (weights object.ledger .collective)[number]? = some first)
    (isSecond : (weights object'.ledger .collective)[number]? = some second) : first = second := by
  rw [weights, List.getElem?_map] at isFirst isSecond
  obtain ⟨mark, found, rfl⟩ := Option.map_eq_some_iff.mp isFirst
  obtain ⟨mark', found', rfl⟩ := Option.map_eq_some_iff.mp isSecond
  have inside := mem_collectiveMarks.mp (List.mem_of_getElem? found)
  have inside' := mem_collectiveMarks.mp (List.mem_of_getElem? found')
  obtain ⟨place, isMark⟩ := List.mem_iff_getElem?.mp inside.1
  obtain ⟨place', isMark'⟩ := List.mem_iff_getElem?.mp inside'.1
  have members : mark.context.members = mark'.context.members := by
    rw [((valid.objects _ _ has).at_mark isMark).members,
      ((valid.objects _ _ has').at_mark isMark').members, valid.members_eq has has' samePrefix]
  rw [channels_collective mark inside.2.1, channels_collective mark' inside'.2.1, members,
    order.kind has has' same found found']

/-- The entry a numbered collective gets was put by the same call of its owner. -/
theorem System.Valid.meets (level : system.Level object.lineage.length)
    (found : object.ledger[place]? = some mark)
    (numbered : .collective ∈ advanced mark.context mark.call) (slot : Slot) {value : Bytes}
    (isCollective : slot.channel = .collective)
    (sequence : slot.sequence = mark.context.count .collective)
    (stored : system.Stored (mark.context.key slot) value) :
    ∃ peer mark', system.Meets object (object.number place) mark.call slot value peer mark' := by
  have objectValid := valid.objects process object has
  have same := objectValid.at_mark found
  obtain ⟨path, located⟩ := objectValid.located
  rw [key_eq same located, ← key_eq (.refl _) located] at stored
  obtain ⟨process', peer, place', mark', writer⟩ := valid.writer has stored
  have peerValid := valid.objects process' peer writer.has
  have lineage : object.lineage = peer.lineage :=
    (level process process' object peer has writer.has rfl).mpr writer.samePrefix.symm
  have owed := owes_slot writer.owed
  rw [isCollective] at owed
  have collective {mark : Mark} (numbered : .collective ∈ advanced mark.context mark.call) :
      mark.call.Accepted mark.context ∧ mark.call.collective.isSome := by
    by_contra other
    have none : (advanced mark.context mark.call).count .collective = 0 :=
      advanced_messages trivial other
    exact List.count_eq_zero.mp none numbered
  have isMark := collective numbered
  have isMark' := collective owed.2.2
  have at_number := Object.ledger_number found isMark.1 isMark.2
  have at_number' := Object.ledger_number writer.found isMark'.1 isMark'.2
  have weigh {mark : Mark} (numbered : .collective ∈ advanced mark.context mark.call) :
      0 < mark.channels.count .collective := by
    apply List.count_pos_iff.mpr
    simp [Mark.channels, channels, numbered]
  have count := objectValid.count_weights found .collective trivial
    (Object.ledger_take found ▸ (List.take_append_drop place object.ledger).symm)
  have count' := peerValid.count_weights writer.found .collective trivial
    (Object.ledger_take writer.found ▸ (List.take_append_drop place' peer.ledger).symm)
  have first : (weights object.ledger .collective)[object.number place]? =
      some (mark.channels.count .collective) := by
    rw [weights, List.getElem?_map, at_number]
    rfl
  have second : (weights peer.ledger .collective)[peer.number place']? =
      some (mark'.channels.count .collective) := by
    rw [weights, List.getElem?_map, at_number']
    rfl
  have numbers : object.number place = peer.number place' := by
    apply place_eq_of_sum_take_eq first second
    · exact weigh numbered
    · exact weigh owed.2.2
    · exact fun place first second => valid.weights_collective order has writer.has lineage
        writer.samePrefix.symm
    · rw [Object.number, Object.number, ← count, ← count', ← sequence, owed.1]
  rw [← numbers] at at_number'
  exact ⟨peer, mark', ⟨⟨by rw [writer.rank]; omega, ⟨process', writer.member, writer.has⟩,
    lineage.symm⟩, at_number', writer.owed,
    order.kind has writer.has lineage at_number at_number', writer.same⟩⟩

end

end Matching

end Libtt.KeyValue

import Libtt.Store.GroupLineage

/-!
# Coordination over the store

In every reachable system whose members call their collectives in one order, no key is put twice,
every receive finds the message of its number, a snoop sees the message of the next receive, and
the collectives return what their peers passed to the same call.
-/
namespace Libtt.KeyValue

open Libtt.Foundation

section Coordination

variable {undefinedColor : Int32} {size : Nat} {system : System}

/-- A counter that a kind of call advances holds how many there were. -/
theorem count_eq_length {α : Type} {select : Call → Option α} {channel : Channel}
    {marks : List Mark} (counts : ∀ mark ∈ marks, mark.channels.count channel =
      if (mark.invocation.chosen select).isSome then 1 else 0) :
    (counted marks).count channel =
      (marks.filterMap fun mark => mark.invocation.chosen select).length := by
  induction marks with
  | nil => rfl
  | cons mark marks ih =>
    have unfolded : (counted (mark :: marks)).count channel =
        mark.channels.count channel + (counted marks).count channel := by
      simp [counted, List.count_append]
    rw [unfolded, ih fun other member => counts other (by simp [member]), counts mark (by simp),
      List.filterMap_cons]
    cases mark.invocation.chosen select <;> simp [Nat.add_comm]

/-- A creation advances no counter of messages. -/
theorem channels_message (mark : Mark) {channel : Channel} (message : ¬channel.IsCollective) :
    mark.channels.count channel = (advanced mark.context mark.call).count channel := by
  rw [Mark.channels, channels, List.count_append, Nat.add_eq_left, List.count_eq_zero]
  intro member
  obtain ⟨branch, _, rfl⟩ := List.mem_map.mp member
  exact message (branch_channel_isCollective branch)

theorem channels_send (mark : Mark) (destination tag : Int) :
    mark.channels.count (.send mark.context.rank destination tag) =
      if (mark.invocation.chosen (Call.sent destination tag)).isSome then 1 else 0 := by
  rw [channels_message mark id]
  by_cases accepted : mark.call.Accepted mark.context
  case neg => simp [advanced, Invocation.chosen, Mark.invocation, accepted]
  rw [show mark.invocation.chosen (Call.sent destination tag) = Call.sent destination tag mark.call from if_pos accepted]
  simp only [if_pos accepted, advanced]
  cases mark.call with
  | send buffer destination' tag' | ssend buffer destination' tag' =>
    by_cases same : destination' = destination ∧ tag' = tag <;>
      simp [Call.sent, same]
  | recv | irecv | snoopIncomingMsgSize | createSubContext | duplicate => simp [Call.sent]
  | allGather | barrier | broadcast | split =>
    by_cases single : mark.context.members.length = 1 <;> simp [Call.sent, single]

theorem channels_recv (mark : Mark) (source tag : Int) :
    mark.channels.count (.recv source mark.context.rank tag) =
      if (mark.invocation.chosen (Call.receives source tag)).isSome then 1 else 0 := by
  rw [channels_message mark id]
  by_cases accepted : mark.call.Accepted mark.context
  case neg => simp [advanced, Invocation.chosen, Mark.invocation, accepted]
  rw [show mark.invocation.chosen (Call.receives source tag) = Call.receives source tag mark.call from if_pos accepted]
  simp only [if_pos accepted, advanced]
  cases mark.call with
  | recv buffer source' tag' | irecv buffer source' tag' =>
    by_cases same : source' = source ∧ tag' = tag <;>
      simp [Call.receives, same]
  | send | ssend | snoopIncomingMsgSize | createSubContext | duplicate => simp [Call.receives]
  | allGather | barrier | broadcast | split =>
    by_cases single : mark.context.members.length = 1 <;> simp [Call.receives, single]

section

variable {stored : String → Bytes → Prop} {object : Object}
  (valid : object.Valid stored undefinedColor)
include valid

/-- The number of a message is how many were sent before it. -/
theorem Object.Valid.count_sends {place : Nat} {mark : Mark}
    (found : object.ledger[place]? = some mark) (destination tag : Int) :
    mark.context.count (.send object.context.rank destination tag) =
      ((object.calls.take place).filterMap
        (Invocation.chosen (Call.sent destination tag))).length := by
  have call : object.calls[place]? = some (mark.context, mark.call) := by
    rw [Object.calls_eq_ledger, List.getElem?_map, found]
    rfl
  rw [(valid.at_call call).2, Object.calls_eq_ledger, ← List.map_take, Object.ledger_take found,
    List.filterMap_map]
  apply count_eq_length
  intro other member
  have rank := (valid.identity other (List.mem_of_mem_take member)).rank
  rw [← rank]
  exact channels_send other destination tag

/-- The number that a receive takes is how many were posted before it. -/
theorem Object.Valid.count_receives {place : Nat} {record : Record}
    (posted : object.past[place]? = some record) (source tag : Int) :
    record.context.count (.recv source object.context.rank tag) =
      (receivesIn source tag (object.past.take place)).length := by
  have earlier : ∀ channel, record.context.count channel =
      (counted (object.marks.take place)).count channel :=
    valid.earlier place record.mark (marks_of_past posted)
  rw [earlier, Object.marks, ← List.map_take]
  rw [@count_eq_length _ (Call.receives source tag), List.filterMap_map, receivesIn]
  · rw [← List.countP_eq_length_filter, List.length_filterMap_eq_countP]
    rfl
  · intro mark member
    rw [List.map_take] at member
    rw [← (valid.identity mark (List.mem_of_mem_take member)).rank]
    exact channels_recv mark source tag

end

/-- The call that put a message. -/
theorem owes_message {context : KeyValueContext} {call : Call} {source destination tag : Int}
    {sequence : Nat} {value : Bytes}
    (owed : owes context call = some (.message source destination tag sequence, value)) :
    source = context.rank ∧ sequence = context.count (.send context.rank destination tag) ∧
      Invocation.chosen (Call.sent destination tag) (context, call) = some value := by
  by_cases accepted : call.Accepted context
  case neg => simp [owes, accepted] at owed
  simp only [owes, if_pos accepted, owes.part] at owed
  simp only [Invocation.chosen, if_pos accepted]
  cases call with
  | send | ssend =>
    cases owed
    simp [Call.sent]
  | recv | irecv => cases owed
  | allGather | barrier | split =>
    by_cases single : context.members.length = 1 <;> simp [single] at owed
  | broadcast buffer root =>
    by_cases writes : context.members.length ≠ 1 ∧ (context.rank : Int) = root <;>
      simp [writes] at owed
  | snoopIncomingMsgSize | createSubContext | duplicate => cases owed

/-- A message under the key that a receive looks at. -/
theorem System.Valid.message (valid : system.Valid system.Stored undefinedColor size)
    (order : system.SameOrder) {process : Nat} {object : Object}
    (has : system.Has process object) {place : Nat} {record : Record}
    (posted : object.past[place]? = some record) {source tag : Int} {message : Bytes}
    (stored : system.Stored (record.context.key (.message source record.context.rank tag
      (record.context.count (.recv source record.context.rank tag)))) message) :
    ∃ sender, system.Peer object source sender ∧ (sender.sends object.context.rank tag)[
      (receivesIn source tag (object.past.take place)).length]? = some message := by
  have objectValid := valid.objects process object has
  have same : record.context.Same object.context :=
    objectValid.at_mark (Object.ledger_of_marks (marks_of_past posted))
  obtain ⟨path, located⟩ := objectValid.located
  rw [same.rank, key_eq same located, ← key_eq (.refl _) located] at stored
  obtain ⟨process', peer, place', mark, writer⟩ := valid.writer has stored
  have owed := owes_message writer.owed
  have lineage := (valid.level order _ process process' object peer has writer.has rfl).mpr
    writer.samePrefix.symm
  have number : (receivesIn source tag (object.past.take place)).length =
      ((peer.calls.take place').filterMap
        (Invocation.chosen (Call.sent object.context.rank tag))).length := by
    rw [← objectValid.count_receives posted, owed.2.1, writer.same.rank]
    exact (valid.objects _ _ writer.has).count_sends writer.found object.context.rank tag
  refine ⟨peer, ⟨?_, ⟨process', writer.member, writer.has⟩, lineage.symm⟩, ?_⟩
  · rw [owed.1]
    omega
  · have call : peer.calls[place']? = some (mark.context, mark.call) := by
      rw [Object.calls_eq_ledger, List.getElem?_map, writer.found]
      rfl
    rw [number]
    exact getElem?_filterMap_of_place call owed.2.2

/-- A selected record stands at one place. -/
theorem exists_place_of_filter {records : List Record} {select : Record → Bool} {number : Nat}
    {record : Record} (found : (records.filter select)[number]? = some record) :
    ∃ place, records[place]? = some record ∧ select record = true ∧
      ((records.take place).filter select).length = number := by
  rw [← List.filterMap_eq_filter] at found
  obtain ⟨place, other, isOther, isChosen, count⟩ := exists_place_of_getElem?_filterMap found
  obtain ⟨equal, selected⟩ := Option.guard_eq_some_iff.mp isChosen
  subst equal
  exact ⟨place, isOther, selected, by rw [← count, List.filterMap_eq_filter]⟩

theorem accepted_of_chosen {α : Type} {select : Call → Option α} {invocation : Invocation}
    (chosen : (invocation.chosen select).isSome) :
    invocation.2.Accepted invocation.1 ∧ (select invocation.2).isSome := by
  by_cases accepted : invocation.2.Accepted invocation.1
  · rw [Invocation.chosen, if_pos accepted] at chosen
    exact ⟨accepted, chosen⟩
  · simp [Invocation.chosen, accepted] at chosen

section

variable (valid : system.Valid system.Stored undefinedColor size) (order : system.SameOrder)
include valid order

theorem System.Valid.receivesMatch : system.ReceivesMatch := by
  intro process object has source tag n record bytes result found receives received
  obtain ⟨place, posted, selected, number⟩ := exists_place_of_filter found
  have accepted : record.call.Accepted record.context := (accepted_of_chosen selected).1
  have isRecord := (valid.objects _ _ has).records record (List.mem_of_getElem? posted)
  rw [Record.Valid, if_pos accepted] at isRecord
  have isReceived : Received system.Stored record.context source tag bytes result := by
    cases isCall : record.call with
    | recv size' source' tag' =>
      rw [isCall] at receives isRecord
      have same : (source' = source ∧ tag' = tag) ∧ size' = bytes := by
        simpa [Call.receives] using receives
      obtain ⟨⟨rfl, rfl⟩, rfl⟩ := same
      obtain ⟨result', isReceived, outcome⟩ := isRecord
      have equal : result = result' := by
        cases result' <;>
          simpa [Record.received, outcome, Except.map, eq_comm] using received
      exact equal ▸ isReceived
    | irecv size' source' tag' =>
      rw [isCall] at receives isRecord
      have same : (source' = source ∧ tag' = tag) ∧ size' = bytes := by
        simpa [Call.receives] using receives
      obtain ⟨⟨rfl, rfl⟩, rfl⟩ := same
      obtain ⟨task, owed, outcome, _, met⟩ := isRecord
      cases task with
      | done result' =>
        have equal : result' = result := by simpa [Record.received, outcome] using received
        exact equal ▸ (Action.meets_done _).mp met
      | put | get => simp [Record.received, outcome] at received
    | send | ssend | snoopIncomingMsgSize | allGather | barrier | broadcast | createSubContext
    | duplicate | split =>
      rw [isCall] at receives
      cases receives
  obtain ⟨message, stored, isCopy⟩ := isReceived
  obtain ⟨sender, isPeer, sent⟩ := valid.message order has posted stored
  rw [receivesIn, number] at sent
  exact ⟨sender, message, isPeer, sent, isCopy⟩

theorem System.Valid.snoopsMatch : system.SnoopsMatch := by
  intro process object has before record after source tag bytes split isCall isOk
  have posted : object.past[before.length]? = some record := by rw [split]; simp
  have isRecord := (valid.objects _ _ has).records record (List.mem_of_getElem? posted)
  by_cases accepted : record.call.Accepted record.context
  case neg =>
    rw [Record.Valid, if_neg accepted, isOk] at isRecord
    obtain ⟨_, equal⟩ := isRecord
    cases equal
  rw [Record.Valid, if_pos accepted, isCall, isOk] at isRecord
  obtain ⟨message, stored, equal⟩ := isRecord
  cases equal
  obtain ⟨sender, isPeer, sent⟩ := valid.message order has posted stored
  rw [split, List.take_left] at sent
  exact ⟨sender, message, isPeer, sent, rfl⟩

end

/-- A returned collective call, its place and its number. -/
theorem Object.place_of_returned {object : Object} {number : Nat} {record : Record}
    (found : object.returned[number]? = some record) : ∃ place,
      object.past[place]? = some record ∧ record.call.Accepted record.context ∧
      record.call.collective.isSome ∧ object.number place = number := by
  obtain ⟨place, posted, selected, count⟩ := exists_place_of_filter found
  have chosen : record.call.Accepted record.context ∧ record.call.collective.isSome :=
    accepted_of_chosen selected
  refine ⟨place, posted, chosen.1, chosen.2, ?_⟩
  have front : object.marks.take place = ({ object with past := object.past.take place } :
      Object).marks := by rw [marks, marks, List.map_take]
  rw [Object.number, front, ← returned_length]
  exact count

theorem Object.collectives_number {object : Object} {number : Nat} {mark : Mark}
    (found : (collectiveMarks object.ledger)[number]? = some mark) :
    object.collectives[number]? = some mark.call := by
  rw [collectives_eq, List.getElem?_map, found]
  rfl

section

variable (valid : system.Valid system.Stored undefinedColor size) (order : system.SameOrder)
include valid order

theorem System.Valid.gathersMatch : system.GathersMatch := by
  intro process object has n record buffer recvSize gathered found isCall isOk
  obtain ⟨place, posted, accepted, _, rfl⟩ := Object.place_of_returned found
  have objectValid := valid.objects _ _ has
  have isRecord := objectValid.records record (List.mem_of_getElem? posted)
  rw [Record.Valid, if_pos accepted, isCall] at isRecord
  obtain ⟨parts, isGathered, equal⟩ := isRecord _ isOk
  cases equal
  have same : record.context.Same object.context :=
    objectValid.at_mark (Object.ledger_of_marks (marks_of_past posted))
  refine ⟨parts, rfl, by rw [isGathered.1, same.members], fun rank part at_rank => ?_⟩
  obtain ⟨peer, mark, isSame⟩ := valid.gathered_part order has (valid.level order _)
    (marks_of_past posted) accepted
    (by rw [record.mark_call, isCall]; rfl) isGathered at_rank
  have kind := isSame.kind
  rw [record.mark_call, isCall] at kind
  cases isOther : mark.call <;> rw [isOther] at kind <;> cases kind
  have isPart := isSame.isPart
  rw [isOther] at isPart
  cases isPart
  exact ⟨peer, _, isSame.isPeer, isOther ▸ Object.collectives_number isSame.found⟩

theorem System.Valid.barriersMatch : system.BarriersMatch := by
  intro process object has n record found isCall isOk rank bound
  obtain ⟨place, posted, accepted, _, rfl⟩ := Object.place_of_returned found
  have objectValid := valid.objects _ _ has
  have isRecord := objectValid.records record (List.mem_of_getElem? posted)
  rw [Record.Valid, if_pos accepted, isCall] at isRecord
  obtain ⟨parts, isGathered, _⟩ := isRecord _ isOk
  have same : record.context.Same object.context :=
    objectValid.at_mark (Object.ledger_of_marks (marks_of_past posted))
  have inside : rank < parts.length := by
    rw [isGathered.1, same.members]
    exact bound
  obtain ⟨peer, mark, isSame⟩ := valid.gathered_part order has (valid.level order _)
    (marks_of_past posted) accepted
    (by rw [record.mark_call, isCall]; rfl) isGathered
    (List.getElem?_eq_getElem inside)
  have kind := isSame.kind
  rw [record.mark_call, isCall] at kind
  cases isOther : mark.call <;> rw [isOther] at kind <;> cases kind
  exact ⟨peer, isSame.isPeer, isOther ▸ Object.collectives_number isSame.found⟩

end

theorem owes_broadcast {context : KeyValueContext} {call : Call} {sequence : Nat} {root : Int}
    {value : Bytes} (owed : owes context call = some (.broadcast sequence root, value)) :
    call = .broadcast value root := by
  by_cases accepted : call.Accepted context
  case neg => simp [owes, accepted] at owed
  simp only [owes, if_pos accepted, owes.part] at owed
  cases call with
  | broadcast buffer root' =>
    by_cases writes : context.members.length ≠ 1 ∧ (context.rank : Int) = root'
    · simp only [if_pos writes] at owed
      cases owed
      rfl
    · simp [writes] at owed
  | allGather | barrier | split =>
    by_cases single : context.members.length = 1 <;> simp [single] at owed
  | send | ssend | recv | irecv | snoopIncomingMsgSize | createSubContext | duplicate => cases owed

section

variable (valid : system.Valid system.Stored undefinedColor size) (order : system.SameOrder)
include valid order

theorem System.Valid.broadcastsMatch : system.BroadcastsMatch := by
  intro process object has n record buffer root bytes found isCall isOk
  obtain ⟨place, posted, accepted, isCollective, rfl⟩ := Object.place_of_returned found
  have objectValid := valid.objects _ _ has
  have at_place := Object.ledger_of_marks (marks_of_past posted)
  have same : record.context.Same object.context := objectValid.at_mark at_place
  have isRecord := objectValid.records record (List.mem_of_getElem? posted)
  rw [Record.Valid, if_pos accepted, isCall] at isRecord
  obtain ⟨bytes', equal, outcome⟩ := isRecord _ isOk
  cases equal
  by_cases own : record.context.members.length = 1 ∨ (record.context.rank : Int) = root
  · -- The caller is the root itself.
    rw [if_pos own] at outcome
    subst outcome
    have isRoot : (object.context.rank : Int) = root := by
      rw [← same.rank]
      rcases own with single | isRoot
      · have valid : record.context.IsRank root := by rw [isCall] at accepted; exact accepted
        have bound := record.context.isRank_rank
        rw [KeyValueContext.IsRank, single] at valid bound
        omega
      · exact isRoot
    refine ⟨object, isRoot ▸ valid.peer_self has, ?_⟩
    have call : record.mark.call = .broadcast bytes root := isCall
    rw [← call]
    exact Object.collectives_number (Object.ledger_number at_place accepted isCollective)
  · rw [if_neg own] at outcome
    have numbered : .collective ∈ advanced record.context record.call := by
      have several : record.context.members.length ≠ 1 := fun single => own (.inl single)
      rw [isCall] at accepted ⊢
      simp only [advanced, if_pos accepted, if_neg several, List.mem_singleton]
    obtain ⟨peer, mark, met⟩ := valid.meets order has (valid.level order _) at_place numbered
      (.broadcast _ root) rfl rfl outcome
    exact ⟨peer, met.isPeer, owes_broadcast met.owed ▸ Object.collectives_number met.found⟩

theorem System.Valid.contextsMatch : system.ContextsMatch := by
  have same {process process' : Nat} {object object' : Object} (has : system.Has process object)
      (has' : system.Has process' object') := valid.level order _ _ _ _ _ has has' rfl
  constructor
  · intro process
    rw [List.Nodup, List.pairwise_map]
    have prefixes := valid.prefixes process
    rw [List.Nodup, List.pairwise_map] at prefixes
    exact prefixes.imp_of_mem fun has has' other lineages => other ((same has has').mp lineages)
  · intro process process' object object' has has'
    exact ⟨same has has', fun lineages => valid.members_eq has has' ((same has has').mp lineages)⟩

end

/-- Host coordination is free of collisions and matches calls, in every run of any number of
processes that keeps the order of collectives. -/
theorem coordination (reachable : System.Reachable undefinedColor size system)
    (order : system.SameOrder) : (system.puts.map Prod.fst).Nodup ∧ system.ReceivesMatch ∧
      system.SnoopsMatch ∧ system.GathersMatch ∧ system.BarriersMatch ∧ system.BroadcastsMatch ∧
      system.ContextsMatch := by
  have valid : system.Valid system.Stored undefinedColor size := reachable.valid fun _ member => member
  exact ⟨valid.distinct, valid.receivesMatch order, valid.snoopsMatch order,
    valid.gathersMatch order, valid.barriersMatch order, valid.broadcastsMatch order,
    valid.contextsMatch order⟩

/-- The order of collectives among the objects of the first processes. -/
def System.SameOrderBelow (size : Nat) (system : System) : Prop :=
  ∀ process < size, ∀ process' < size, ∀ object ∈ system.processes process,
    ∀ object' ∈ system.processes process', System.Agree object object'

instance (size : Nat) (system : System) : Decidable (system.SameOrderBelow size) :=
  inferInstanceAs (Decidable (∀ process < size, ∀ process' < size,
    ∀ object ∈ system.processes process, ∀ object' ∈ system.processes process',
      System.Agree object object'))

/-- In a reachable system these are all. -/
theorem System.Reachable.sameOrder (reachable : System.Reachable undefinedColor size system)
    (order : system.SameOrderBelow size) : system.SameOrder := by
  have inside {process : Nat} {object : Object} (has : system.Has process object) :
      process < size := by
    by_contra outside
    rw [System.Has, reachable.process_lt (Nat.le_of_not_lt outside)] at has
    cases has
  exact fun process process' object object' has has' =>
    order process (inside has) process' (inside has') object has object' has'

end Coordination

/-- A message that is snooped and received, then a split into a context of reversed ranks whose
root broadcasts. -/
def exchange : List (Nat × Nat × Move) :=
  [(0, 0, .call (.ssend [7] 1 9)), (0, 0, .act),
    (1, 0, .call (.snoopIncomingMsgSize 0 9)), (1, 0, .act), (1, 0, .finish),
    (1, 0, .call (.recv 1 0 9)), (1, 0, .act), (1, 0, .act), (1, 0, .finish),
    (0, 0, .act), (0, 0, .finish),
    (0, 0, .call (.split 0 1)), (0, 0, .act), (1, 0, .call (.split 0 0)), (1, 0, .act),
    (0, 0, .act), (0, 0, .act), (0, 0, .finish), (1, 0, .act), (1, 0, .act), (1, 0, .finish),
    (1, 1, .call (.broadcast [5] 0)), (1, 1, .act), (1, 1, .finish),
    (0, 1, .call (.broadcast [0] 0)), (0, 1, .act), (0, 1, .finish)]

theorem coordination_exchange : ∃ system, (System.start 2).run (-1) exchange = some system ∧
    (system.puts.map Prod.fst).Nodup ∧ system.ReceivesMatch ∧ system.SnoopsMatch ∧
      system.GathersMatch ∧ system.BarriersMatch ∧ system.BroadcastsMatch ∧
      system.ContextsMatch := by
  have checked : ((System.start 2).run (-1) exchange).any
      (fun system => decide (system.SameOrderBelow 2)) = true := by decide +kernel
  obtain ⟨system, ran, order⟩ := (Option.any_eq_true _ _).mp checked
  have reachable := System.reachable_of_run .start ran
  exact ⟨system, ran, coordination reachable (reachable.sameOrder (of_decide_eq_true order))⟩

end Libtt.KeyValue

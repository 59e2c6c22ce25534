import Libtt.Store.GroupMatching

/-!
# Contexts of one lineage

Members of a context that make the same collective call make the same contexts by it: a `split`
gathers the same colors for all of them.
-/
namespace Libtt.KeyValue

open Libtt.Foundation

variable {context child : KeyValueContext} {parts parts' : List Bytes} {color key : Int32}
  {object : Object} {process place : Nat} {mark : Mark} {branch : Branch}

/-- What a call adds to a gather. -/
def Call.part : Call → Option Bytes
  | .allGather buffer _ => some buffer
  | .barrier => some [1]
  | .split color key => some (pairBytes color key)
  | _ => none

theorem owes_gathered {call : Call} {sequence : Nat} {rank : Int} {value : Bytes}
    (owed : owes context call = some (.gathered sequence rank, value)) :
    call.part = some value ∧ context.members.length ≠ 1 := by
  by_cases accepted : call.Accepted context
  case neg => simp [owes, accepted] at owed
  have part (buffer : Bytes)
      (isPart : owes.part context buffer = some (.gathered sequence rank, value)) :
      some buffer = some value ∧ context.members.length ≠ 1 := by
    by_cases single : context.members.length = 1
    · simp [owes.part, single] at isPart
    · rw [owes.part, if_neg single] at isPart
      exact ⟨congrArg some (Prod.mk.inj (Option.some.inj isPart)).2, single⟩
  simp only [owes, if_pos accepted] at owed
  cases call with
  | allGather | barrier | split => exact part _ owed
  | send | ssend | recv | irecv => cases owed
  | broadcast buffer root =>
    by_cases writes : context.members.length ≠ 1 ∧ (context.rank : Int) = root
    · simp only [if_pos writes] at owed
      cases owed
    · simp [writes] at owed
  | snoopIncomingMsgSize | createSubContext | duplicate => cases owed

theorem intOf_intBytes (value : Int32) : intOf (intBytes value) = value := by
  rw [intOf, intBytes, littleEndian_bytes 4 _ (by have := value.toUInt32.toNat_lt; omega)]
  simp

/-- One array of a gather. -/
theorem pairAt_flatten (sized : ∀ part ∈ parts, part.length = 8) {rank : Nat}
    (found : parts[rank]? = some (pairBytes color key)) :
    pairAt parts.flatten rank = (color, key) := by
  have dropped : (parts.flatten).drop (8 * rank) = (parts.drop rank).flatten := by
    induction parts generalizing rank with
    | nil => simp
    | cons part parts ih =>
      cases rank with
      | zero => simp
      | succ rank =>
        have length := sized part (by simp)
        rw [List.flatten_cons, List.drop_append, List.drop_of_length_le (by omega), length,
          show 8 * (rank + 1) - 8 = 8 * rank by omega, List.nil_append, List.drop_succ_cons]
        exact ih (fun other member => sized other (by simp [member])) (by simpa using found)
  have bound := (List.getElem?_eq_some_iff.mp found).1
  have value := (List.getElem?_eq_some_iff.mp found).2
  have front : (parts.flatten).drop (8 * rank) = intBytes color ++
      (intBytes key ++ (parts.drop (rank + 1)).flatten) := by
    rw [dropped, List.drop_eq_getElem_cons bound, value, List.flatten_cons, pairBytes,
      List.append_assoc]
  have length (value : Int32) : (intBytes value).length = 4 := by simp [intBytes]
  have back : (parts.flatten).drop (8 * rank + 4) =
      intBytes key ++ (parts.drop (rank + 1)).flatten := by
    rw [← List.drop_drop, front, List.drop_left' (length color)]
  rw [pairAt, front, back, List.take_left' (length color), List.take_left' (length key),
    intOf_intBytes, intOf_intBytes]

section Matching

variable {undefinedColor : Int32} {size : Nat} {system : System}

/-- An accepted call with a part in a context of several members is numbered. -/
theorem part_numbered {call : Call} (accepted : call.Accepted context)
    (several : context.members.length ≠ 1) (isPart : call.part.isSome) :
    .collective ∈ advanced context call := by
  simp only [advanced, if_pos accepted, if_neg several]
  cases call <;> simp [Call.part] at isPart ⊢

/-- Peers of one rank are one object. -/
theorem System.Valid.peer_unique (valid : system.Valid system.Stored undefinedColor size)
    {object' peer peer' : Object} (level : system.Level object.lineage.length)
    (members : object.context.members = object'.context.members)
    (lineage : object.lineage = object'.lineage) {rank : Int}
    (isPeer : system.Peer object rank peer) (isPeer' : system.Peer object' rank peer') :
    peer = peer' := by
  obtain ⟨_, ⟨process, member, has⟩, same⟩ := isPeer
  obtain ⟨_, ⟨process', member', has'⟩, same'⟩ := isPeer'
  have processes : process = process' := by
    rw [members, member'] at member
    exact (Option.some.inj member).symm
  subst processes
  have lineages : peer.lineage = peer'.lineage := same.trans (lineage.trans same'.symm)
  exact valid.object_unique has has'
    ((level process process peer peer' has has' (by rw [same])).mp lineages)

/-- An object is its own peer. -/
theorem System.Valid.peer_self (valid : system.Valid system.Stored undefinedColor size)
    (has : system.Has process object) :
    system.Peer object object.context.rank object := by
  refine ⟨by omega, ⟨process, ?_, has⟩, rfl⟩
  rw [← valid.ranks process object has]
  exact object.context.ranked

/-- The same call of a peer, and its part. -/
structure System.Part (system : System) (object : Object) (number : Nat) (call : Call) (rank : Int)
    (part : Bytes) (peer : Object) (mark : Mark) : Prop where
  isPeer : system.Peer object rank peer
  found : (collectiveMarks peer.ledger)[number]? = some mark
  isPart : mark.call.part = some part
  kind : call.collective = mark.call.collective

theorem call_part_collective {call : Call} (isPart : call.part.isSome) :
    call.collective.isSome := by
  cases call <;> simp [Call.part, Call.collective] at isPart ⊢

section

variable (valid : system.Valid system.Stored undefinedColor size) (order : system.SameOrder)
include valid order

/-- A value stored under a gather's key is a peer's part of the same call. -/
theorem System.Valid.stored_part {process : Nat} {object : Object}
    (has : system.Has process object) (level : system.Level object.lineage.length) {place : Nat}
    {mark : Mark} (found : object.marks[place]? = some mark)
    (accepted : mark.call.Accepted mark.context) (isPart : mark.call.part.isSome) (rank : Int)
    {part : Bytes} (stored : system.Stored (mark.context.key
      (.gathered (mark.context.count .collective) rank)) part) :
    ∃ peer mark', system.Part object (object.number place) mark.call rank part peer mark' := by
  have at_place := Object.ledger_of_marks found
  have objectValid := valid.objects process object has
  have same := objectValid.at_mark at_place
  obtain ⟨path, located⟩ := objectValid.located
  have several : mark.context.members.length ≠ 1 := by
    have stored' := stored
    rw [key_eq same located, ← key_eq (.refl _) located] at stored'
    obtain ⟨process', peer, place', mark', writer⟩ := valid.writer has stored'
    rw [same.members, valid.members_eq has writer.has writer.samePrefix.symm,
      ← writer.same.members]
    exact (owes_gathered writer.owed).2
  obtain ⟨peer, mark', met⟩ := valid.meets order has level at_place
    (part_numbered accepted several isPart) (.gathered _ rank) rfl rfl stored
  exact ⟨peer, mark', met.isPeer, met.found, (owes_gathered met.owed).1, met.kind⟩

section

variable (has : system.Has process object) (level : system.Level object.lineage.length)
  (found : object.marks[place]? = some mark) (accepted : mark.call.Accepted mark.context)
  {own : Bytes} (isPart : mark.call.part = some own)
  (gathered : Gathered system.Stored mark.context own parts)
include has level found accepted isPart gathered

/-- Every part of a gather is a peer's of the same call. -/
theorem System.Valid.gathered_part {rank : Nat} {part : Bytes}
    (at_rank : parts[rank]? = some part) :
    ∃ peer mark', system.Part object (object.number place) mark.call rank part peer mark' := by
  have at_place := Object.ledger_of_marks found
  have isSome : mark.call.part.isSome := by rw [isPart]; rfl
  by_cases single : mark.context.members.length = 1
  · have whole := gathered.2
    rw [if_pos single] at whole
    subst whole
    have zero : rank = 0 := by
      have bound := (List.getElem?_eq_some_iff.mp at_rank).1
      simp at bound
      omega
    subst zero
    have equal : own = part := by simpa using at_rank
    have ownRank : object.context.rank = 0 := by
      have bound := (List.getElem?_eq_some_iff.mp object.context.ranked).1
      rw [← ((valid.objects process object has).at_mark at_place).members, single] at bound
      omega
    have self := valid.peer_self has
    rw [ownRank] at self
    exact ⟨object, mark, self, Object.ledger_number at_place accepted (call_part_collective isSome),
      equal ▸ isPart, rfl⟩
  · have stored := gathered.2
    rw [if_neg single] at stored
    exact valid.stored_part order has level found accepted isSome rank (stored rank part at_rank).1

/-- The caller's own part stands at its rank. -/
theorem System.Valid.own_part :
    parts[object.context.rank]? = some own := by
  have at_place := Object.ledger_of_marks found
  have bound : object.context.rank < parts.length := by
    rw [gathered.1, ((valid.objects _ _ has).at_mark at_place).members]
    exact (List.getElem?_eq_some_iff.mp object.context.ranked).1
  have at_rank := List.getElem?_eq_getElem bound
  obtain ⟨peer, other, isSame⟩ :=
    valid.gathered_part order has level found accepted isPart gathered at_rank
  have peers := valid.peer_unique level rfl rfl isSame.isPeer (valid.peer_self has)
  subst peers
  have isSome : mark.call.part.isSome := by rw [isPart]; rfl
  have at_number := isSame.found
  rw [Object.ledger_number at_place accepted (call_part_collective isSome)] at at_number
  rw [at_rank, ← isSame.isPart, ← isPart, Option.some.inj at_number]

end

/-- Members that make the same gather get the same parts. -/
theorem System.Valid.parts_eq {process' : Nat} {object' : Object} (has : system.Has process object)
    (has' : system.Has process' object') (level : system.Level object.lineage.length)
    (lineage : object.lineage = object'.lineage)
    (samePrefix : object.context.keyPrefix = object'.context.keyPrefix) {place' : Nat}
    {mark' : Mark} (found : object.marks[place]? = some mark)
    (found' : object'.marks[place']? = some mark')
    (numbers : object.number place = object'.number place')
    (accepted : mark.call.Accepted mark.context) (accepted' : mark'.call.Accepted mark'.context)
    {own own' : Bytes} (isPart : mark.call.part = some own) (isPart' : mark'.call.part = some own')
    (gathered : Gathered system.Stored mark.context own parts)
    (gathered' : Gathered system.Stored mark'.context own' parts') : parts = parts' := by
  have members := valid.members_eq has has' samePrefix
  have same := (valid.objects _ _ has).at_mark (Object.ledger_of_marks found)
  have same' := (valid.objects _ _ has').at_mark (Object.ledger_of_marks found')
  have length : parts.length = parts'.length := by
    rw [gathered.1, gathered'.1, same.members, same'.members, members]
  apply List.ext_getElem length
  intro rank bound bound'
  obtain ⟨peer, other, isSame⟩ := valid.gathered_part order has level found accepted isPart gathered
    (List.getElem?_eq_getElem bound)
  obtain ⟨peer', other', isSame'⟩ := valid.gathered_part order has' (lineage ▸ level) found'
    accepted' isPart' gathered' (List.getElem?_eq_getElem bound')
  have peers := valid.peer_unique level members lineage isSame.isPeer isSame'.isPeer
  subst peers
  have marks : other = other' := by
    have at_number := isSame'.found
    rw [← numbers, isSame.found] at at_number
    exact Option.some.inj at_number
  rw [marks] at isSame
  exact Option.some.inj (isSame.isPart.symm.trans isSame'.isPart)

end

/-- The members of the context that a counter of creations numbers. -/
def Channel.members (parent : List Nat) : Channel → List Nat
  | group ranks => ranks.map fun rank => parent[rank.toNat]!
  | _ => parent

theorem branch_channel_members (parent : List Nat) (branch : Branch) :
    branch.members parent = branch.channel.members parent := by
  cases branch <;> rfl

/-- A returned call of an object, as its record. -/
theorem Object.record_of_mark (found : object.marks[place]? = some mark) :
    ∃ record, object.past[place]? = some record ∧ record.mark = mark :=
  Option.map_eq_some_iff.mp ((List.getElem?_map (f := Record.mark)).symm.trans found)

theorem outcome_of_created {outcome : Except String Result} (made : created outcome = some child) :
    outcome = .ok (.context (some child)) := by
  cases outcome with
  | error what => simp [created] at made
  | ok result => cases result <;> simp_all [created]

section

variable {stored : String → Bytes → Prop} (valid : object.Valid stored undefinedColor)
include valid

/-- Two names of the branch that made a context are one. -/
theorem Object.Makes.branch_eq {branch' : Branch} (makes : object.Makes place mark branch child)
    (same : context.Same object.context) (isChild : Child context branch' child) :
    branch = branch' := by
  obtain ⟨path, located⟩ := valid.located
  have last := isChild.path_getLast (same.keyPrefix.trans located)
  rw [makes.last] at last
  exact Option.some.inj last

/-- The values a successful `split` gathered, and the group it made. -/
theorem Object.Valid.split_made {record : Record} (posted : object.past[place]? = some record)
    (isCall : record.call = .split color key) (made : created record.outcome = some child)
    (makes : object.Makes place record.mark branch child) :
    color ≠ undefinedColor ∧ ∃ parts, Gathered stored record.context (pairBytes color key) parts ∧
      branch.channel = .group (splitRanks parts.flatten record.context.members.length color) := by
  have isRecord := valid.records record (List.mem_of_getElem? posted)
  have same : record.context.Same object.context := valid.identity record.mark
    (List.mem_map_of_mem (List.mem_of_getElem? posted))
  have accepted : (Call.split color key).Accepted record.context := trivial
  rw [Record.Valid, isCall, if_pos accepted, outcome_of_created made] at isRecord
  rcases isRecord with ⟨what, equal, _⟩ | ⟨parts, gathered, ⟨_, equal⟩ | ⟨defined, sub⟩⟩
  · cases equal
  · cases equal
  · rcases sub with ⟨_, equal⟩ | ⟨_, child', equal, _, isChild⟩
    · cases equal
    · cases equal
      exact ⟨defined, parts, gathered, by rw [makes.branch_eq valid same isChild]; rfl⟩

end

section Creations

variable {process process' : Nat} {object object' : Object} {place place' : Nat}
  {record record' : Record}

/-- The same call of two members. -/
structure System.SameCall (system : System) (process process' : Nat) (object object' : Object)
    (place place' : Nat) (record record' : Record) : Prop where
  has : system.Has process object
  has' : system.Has process' object'
  lineage : object.lineage = object'.lineage
  samePrefix : object.context.keyPrefix = object'.context.keyPrefix
  posted : object.past[place]? = some record
  posted' : object'.past[place']? = some record'
  numbers : object.number place = object'.number place'
  accepted : record.call.Accepted record.context
  accepted' : record'.call.Accepted record'.context
  isCollective : record.call.collective.isSome
  isCollective' : record'.call.collective.isSome

theorem marks_of_past {record : Record} (posted : object.past[place]? = some record) :
    object.marks[place]? = some record.mark := by
  rw [Object.marks, List.getElem?_map, posted]
  rfl

theorem System.SameCall.kind (order : system.SameOrder)
    (same : system.SameCall process process' object object' place place' record record') :
    record.call.collective = record'.call.collective := by
  have found := Object.ledger_number (Object.ledger_of_marks (marks_of_past same.posted))
    same.accepted same.isCollective
  have found' := Object.ledger_number (Object.ledger_of_marks (marks_of_past same.posted'))
    same.accepted' same.isCollective'
  rw [← same.numbers] at found'
  exact order.kind same.has same.has' same.lineage found found'

section

variable (valid : system.Valid system.Stored undefinedColor size) (order : system.SameOrder)
  (level : system.Level object.lineage.length)
  (same : system.SameCall process process' object object' place place' record record')
include valid order level same

/-- The same `split` gathers the same values everywhere. -/
theorem System.Valid.split_values {color' key' : Int32} (isCall : record.call = .split color key)
    (isCall' : record'.call = .split color' key')
    (gathered : Gathered system.Stored record.context (pairBytes color key) parts)
    (gathered' : Gathered system.Stored record'.context (pairBytes color' key') parts') :
    parts = parts' :=
  valid.parts_eq order same.has same.has' level same.lineage same.samePrefix
    (marks_of_past same.posted) (marks_of_past same.posted') same.numbers same.accepted
    same.accepted' (by rw [record.mark_call, isCall]; rfl)
    (by rw [record'.mark_call, isCall']; rfl) gathered gathered'

/-- Contexts made by the same call under the same color are numbered by the same counter. -/
theorem System.Valid.channel_eq {child' : KeyValueContext} {branch' : Branch}
    (made : created record.outcome = some child) (made' : created record'.outcome = some child')
    (makes : object.Makes place record.mark branch child)
    (makes' : object'.Makes place' record'.mark branch' child')
    (colors : record.call.color = record'.call.color) : branch.channel = branch'.channel := by
  have kind := same.kind order
  have creates : record.call.Creates branch := makes.creates
  have creates' : record'.call.Creates branch' := makes'.creates
  cases isCall : record.call with
  | duplicate =>
    cases isCall' : record'.call <;> rw [isCall, isCall'] at kind <;> cases kind
    rw [isCall] at creates
    rw [isCall'] at creates'
    cases branch with
    | group => exact absurd creates id
    | duplicate =>
      cases branch' with
      | group => exact absurd creates' id
      | duplicate => rfl
  | createSubContext ranks =>
    cases isCall' : record'.call <;> rw [isCall, isCall'] at kind <;> cases kind
    rw [isCall] at creates
    rw [isCall'] at creates'
    cases branch with
    | duplicate => cases creates
    | group =>
      cases branch' with
      | duplicate => cases creates'
      | group => rw [Branch.channel, Branch.channel, show _ = ranks from creates,
          show _ = ranks from creates']
  | split color key =>
    cases isCall' : record'.call <;> rw [isCall, isCall'] at kind <;> cases kind
    rw [isCall, isCall'] at colors
    cases colors
    obtain ⟨_, parts, gathered, isGroup⟩ :=
      (valid.objects _ _ same.has).split_made same.posted isCall made makes
    obtain ⟨_, parts', gathered', isGroup'⟩ :=
      (valid.objects _ _ same.has').split_made same.posted' isCall' made' makes'
    have values := valid.split_values order level same isCall isCall' gathered gathered'
    have lengths : record.context.members.length = record'.context.members.length := by
      rw [← gathered.1, ← gathered'.1, values]
    rw [isGroup, isGroup', values, lengths]
  | send | ssend | recv | irecv | snoopIncomingMsgSize | allGather | barrier | broadcast =>
    rw [isCall] at creates
    cases creates

/-- The split of a member that is in the group another member's split made has the same color. -/
theorem System.Valid.split_color
    {color key color' key' : Int32} (isCall : record.call = .split color key)
    (isCall' : record'.call = .split color' key') {parts parts' : List Bytes}
    (gathered : Gathered system.Stored record.context (pairBytes color key) parts)
    (gathered' : Gathered system.Stored record'.context (pairBytes color' key') parts')
    (member : object'.context.globalRank ∈ (splitRanks parts.flatten record.context.members.length
      color).map fun rank => object'.context.members[rank.toNat]!) : color' = color := by
  have values := valid.split_values order level same isCall isCall' gathered gathered'
  have sameContext := (valid.objects _ _ same.has).at_mark
    (Object.ledger_of_marks (marks_of_past same.posted))
  have members := valid.members_eq same.has same.has' same.samePrefix
  have own := valid.own_part order same.has' (same.lineage ▸ level) (marks_of_past same.posted')
    same.accepted' (by rw [record'.mark_call, isCall']; rfl) gathered'
  have lengths : ∀ part ∈ parts', part.length = 8 := by
    intro part inside
    have pair (color key : Int32) : (pairBytes color key).length = 8 := by
      simp [pairBytes, intBytes]
    have shape := gathered'.2
    by_cases single : record'.context.members.length = 1
    · rw [if_pos single] at shape
      rw [shape] at inside
      rw [List.mem_singleton.mp inside, pair]
    · rw [if_neg single] at shape
      obtain ⟨rank, at_rank⟩ := List.mem_iff_getElem?.mp inside
      rw [(shape rank part at_rank).2, pair]
  obtain ⟨rank, inRanks, equal⟩ := List.mem_map.mp member
  obtain ⟨i, isRank, inside, isColor⟩ := mem_splitRanks.mp inRanks
  -- The member's rank is the one that its global rank names.
  have ranks : i = object'.context.rank := by
    have distinct := (valid.objects _ _ same.has').distinct
    have sized : record.context.members.length = object'.context.members.length := by
      rw [← members]
      exact congrArg List.length sameContext.members
    have bound := (List.getElem?_eq_some_iff.mp object'.context.ranked).1
    have value := (List.getElem?_eq_some_iff.mp object'.context.ranked).2
    have isMember : object'.context.member i = object'.context.member object'.context.rank := by
      rw [KeyValueContext.member, ← isRank, equal]
      simp [KeyValueContext.member, bound, value]
    exact member_injective distinct (sized ▸ inside) bound isMember
  rw [values, ranks, pairAt_flatten lengths own] at isColor
  exact isColor

/-- A call that makes a context for one of its members makes it for all. -/
theorem System.Valid.creates_same (made : created record.outcome = some child)
    (makes : object.Makes place record.mark branch child)
    (member : object'.context.globalRank ∈ branch.members object'.context.members) :
    record.call.color = record'.call.color ∧ ∃ child' branch',
      created record'.outcome = some child' ∧ object'.Makes place' record'.mark branch' child' := by
  have kind := same.kind order
  have creates : record.call.Creates branch := makes.creates
  have objectValid' := valid.objects _ _ same.has'
  have sameContext' := objectValid'.at_mark (Object.ledger_of_marks (marks_of_past same.posted'))
  have isRecord' := objectValid'.records record' (List.mem_of_getElem? same.posted')
  rw [Record.Valid, if_pos same.accepted'] at isRecord'
  have finish {child' : KeyValueContext} (isOk : record'.outcome = .ok (.context (some child'))) :
      ∃ child' branch', created record'.outcome = some child' ∧
        object'.Makes place' record'.mark branch' child' := by
    have isChild : created record'.outcome = some child' := by rw [isOk]; rfl
    obtain ⟨branch', makes'⟩ := objectValid'.child (marks_of_past same.posted') isChild
    exact ⟨child', branch', isChild, makes'⟩
  have inGroup {ranks : List Int} (isGroup : branch.channel = .group ranks) :
      record'.context.globalRank ∈ ranks.map record'.context.member := by
    rw [branch_channel_members, isGroup] at member
    rw [show record'.context.globalRank = object'.context.globalRank from sameContext'.globalRank]
    have read : record'.context.member = fun rank => object'.context.members[rank.toNat]! := by
      funext rank
      rw [KeyValueContext.member, show record'.context.members = _ from sameContext'.members]
    rw [read]
    exact member
  cases isCall : record.call with
  | duplicate =>
    cases isCall' : record'.call <;> rw [isCall, isCall'] at kind <;> cases kind
    rw [isCall'] at isRecord'
    obtain ⟨child', isOk, _⟩ := isRecord'
    exact ⟨rfl, finish isOk⟩
  | createSubContext ranks =>
    cases isCall' : record'.call <;> rw [isCall, isCall'] at kind <;> cases kind
    rw [isCall'] at isRecord'
    rw [isCall] at creates
    have isGroup : branch.channel = .group ranks := by
      cases branch with
      | duplicate => exact absurd creates id
      | group => rw [Branch.channel, show _ = ranks from creates]
    rcases isRecord' with ⟨outside, _⟩ | ⟨_, child', isOk, _⟩
    · exact absurd (inGroup isGroup) outside
    · exact ⟨rfl, finish isOk⟩
  | split color key =>
    cases isCall' : record'.call <;> rw [isCall, isCall'] at kind <;> cases kind
    obtain ⟨defined, parts, gathered, isGroup⟩ :=
      (valid.objects _ _ same.has).split_made same.posted isCall made makes
    rw [isCall'] at isRecord'
    rcases isRecord' with ⟨what, _, rank, part, _, stored, misfit⟩ | ⟨parts', gathered', rest⟩
    · -- Every part of this call is a color and a key.
      have isPart : record'.mark.call.part.isSome := by
        rw [record'.mark_call, isCall']
        rfl
      obtain ⟨peer, mark', isSame⟩ := valid.stored_part order same.has' (same.lineage ▸ level)
        (marks_of_past same.posted') same.accepted' isPart rank stored
      have otherKind := isSame.kind
      rw [record'.mark_call, isCall'] at otherKind
      cases isOther : mark'.call <;> rw [isOther] at otherKind <;> cases otherKind
      have equal := isSame.isPart
      rw [isOther] at equal
      cases equal
      simp [pairBytes, intBytes] at misfit
    · have isMember : object'.context.globalRank ∈ (splitRanks parts.flatten
          record.context.members.length color).map
          fun rank => object'.context.members[rank.toNat]! := by
        rw [branch_channel_members, isGroup] at member
        exact member
      have colors := valid.split_color order level same isCall isCall' gathered gathered' isMember
      rcases rest with ⟨undefined, _⟩ | ⟨_, ⟨outside, _⟩ | ⟨_, child', isOk, _⟩⟩
      · exact absurd (colors.symm.trans undefined) defined
      · have values := valid.split_values order level same isCall isCall' gathered gathered'
        have sized : record.context.members.length = record'.context.members.length := by
          rw [← gathered.1, ← gathered'.1, values]
        rw [← values, ← sized, colors] at outside
        exact absurd (inGroup isGroup) outside
      · exact ⟨by rw [colors]; rfl, finish isOk⟩
  | send | ssend | recv | irecv | snoopIncomingMsgSize | allGather | barrier | broadcast =>
    rw [isCall] at creates
    cases creates

end

end Creations

/-- How often a call advances a counter of creations. -/
theorem Mark.count_creation (mark : Mark) {channel : Channel}
    (creation : channel.IsCollective ∧ channel ≠ .collective) : mark.channels.count channel =
      if (mark.child.bind fun child => child.path.getLast?).map Branch.channel = some channel
        then 1 else 0 := by
  have none : (advanced mark.context mark.call).count channel = 0 := by
    rw [List.count_eq_zero]
    intro member
    by_cases accepted : mark.call.Accepted mark.context
    case neg => simp [advanced, accepted] at member
    simp only [advanced, if_pos accepted] at member
    cases isCall : mark.call with
    | send | ssend | recv | irecv =>
      rw [isCall] at member
      rw [List.mem_singleton] at member
      exact absurd creation.1 (member ▸ id)
    | allGather | barrier | split | broadcast =>
      rw [isCall] at member
      by_cases single : mark.context.members.length = 1
      · simp [single] at member
      · simp only [if_neg single, List.mem_singleton] at member
        exact creation.2 member
    | snoopIncomingMsgSize | createSubContext | duplicate =>
      rw [isCall] at member
      cases member
  rw [Mark.channels, KeyValue.channels, List.count_append, none, Nat.zero_add]
  cases mark.child.bind fun child => child.path.getLast? with
  | none => simp
  | some branch => simp [List.count_singleton]

theorem Object.Makes.count (makes : object.Makes place mark branch child)
    (made : mark.child = some child) : mark.channels.count branch.channel = 1 := by
  have creation : branch.channel.IsCollective ∧ branch.channel ≠ .collective := by
    cases branch <;> exact ⟨trivial, by simp [Branch.channel]⟩
  rw [Mark.count_creation mark creation, made]
  simp [makes.last]

/-- What an object and the object that made it have in common with another such pair. -/
structure System.Creation (system : System) (process : Nat) (parent object : Object) (place : Nat)
    (record : Record) (branch : Branch) (child : KeyValueContext) : Prop where
  has : system.Has process parent
  posted : parent.past[place]? = some record
  made : created record.outcome = some child
  makes : parent.Makes place record.mark branch child
  same : child.Same object.context
  lineage : object.lineage = (parent.number place, record.call.color) :: parent.lineage

theorem System.Valid.creation (valid : system.Valid system.Stored undefinedColor size)
    {parent : Object} (has : system.Has process parent) (made : parent.Made object) :
    ∃ place record branch child, system.Creation process parent object place record branch child := by
  obtain ⟨place, mark, child, found, isChild, same, lineage⟩ := made
  obtain ⟨record, posted, rfl⟩ := Object.record_of_mark found
  obtain ⟨branch, makes⟩ := (valid.objects _ _ has).child found isChild
  exact ⟨place, record, branch, child, has, posted, isChild, makes, same, lineage⟩

section Depth

variable {process process' : Nat} {parent parent' object object' : Object} {place place' : Nat}
  {record record' : Record} {branch branch' : Branch} {child child' : KeyValueContext}

section

variable (creation : system.Creation process parent object place record branch child)
include creation

theorem System.Creation.isCollective :
    record.call.collective.isSome := by
  have creates : record.call.Creates branch := creation.makes.creates
  cases isCall : record.call <;> rw [isCall] at creates <;>
    first | rfl | (cases branch <;> cases creates)

/-- The process is in the group of the context it made. -/
theorem System.Creation.member :
    parent.context.globalRank ∈ branch.members parent.context.members := by
  rw [← creation.makes.members, ← creation.makes.globalRank]
  exact List.mem_of_getElem? child.ranked

/-- The prefix of a made object. -/
theorem System.Creation.text {path : Path} (located : parent.context.keyPrefix = path.text) :
    object.context.keyPrefix = Path.text (path ++ [branch]) := by
  rw [← creation.same.keyPrefix, creation.makes.keyPrefix, located, Path.text_child]

end

section

variable (valid : system.Valid system.Stored undefinedColor size)
include valid

/-- Members in the group of a creation count its channel alike. -/
theorem System.Valid.weights_creation (order : system.SameOrder)
    (level : system.Level parent.lineage.length) (has : system.Has process parent)
    (has' : system.Has process' parent') (lineage : parent.lineage = parent'.lineage)
    (samePrefix : parent.context.keyPrefix = parent'.context.keyPrefix) {channel : Channel}
    (creation : channel.IsCollective ∧ channel ≠ .collective)
    (member : parent.context.globalRank ∈ channel.members parent.context.members)
    (member' : parent'.context.globalRank ∈ channel.members parent'.context.members)
    {number first second : Nat} (isFirst : (weights parent.marks channel)[number]? = some first)
    (isSecond : (weights parent'.marks channel)[number]? = some second) : first = second := by
  -- A creation by one member is one by the other, numbered by the same counter.
  have follows {process process' : Nat} {parent parent' : Object}
      (level : system.Level parent.lineage.length) (has : system.Has process parent)
      (has' : system.Has process' parent') (lineage : parent.lineage = parent'.lineage)
      (samePrefix : parent.context.keyPrefix = parent'.context.keyPrefix)
      (member' : parent'.context.globalRank ∈ channel.members parent'.context.members)
      {mark mark' : Mark} (at_number : (collectiveMarks parent.marks)[number]? = some mark)
      (at_number' : (collectiveMarks parent'.marks)[number]? = some mark')
      (counts : mark.channels.count channel ≠ 0) : mark'.channels.count channel = 1 := by
    have placed {parent : Object} {mark : Mark}
        (at_number : (collectiveMarks parent.marks)[number]? = some mark) :
        ∃ place, parent.marks[place]? = some mark ∧ parent.number place = number := by
      obtain ⟨place, other, found, isChosen, isNumber⟩ :=
        exists_place_of_getElem?_filterMap at_number
      obtain ⟨_, _, equal⟩ := Option.map_eq_some_iff.mp isChosen
      exact ⟨place, equal ▸ found, isNumber⟩
    obtain ⟨place, found, isNumber⟩ := placed at_number
    obtain ⟨place', found', isNumber'⟩ := placed at_number'
    obtain ⟨record, posted, rfl⟩ := Object.record_of_mark found
    obtain ⟨record', posted', rfl⟩ := Object.record_of_mark found'
    have inside := mem_collectiveMarks.mp (List.mem_of_getElem? at_number)
    have inside' := mem_collectiveMarks.mp (List.mem_of_getElem? at_number')
    have same : system.SameCall process process' parent parent' place place' record record' :=
      ⟨has, has', lineage, samePrefix, posted, posted', isNumber.trans isNumber'.symm, inside.2.1,
        inside'.2.1, inside.2.2, inside'.2.2⟩
    cases isChild : record.mark.child with
    | none => simp [Mark.count_creation record.mark creation, isChild] at counts
    | some child =>
      obtain ⟨branch, makes⟩ := (valid.objects _ _ has).child found isChild
      have isChannel : branch.channel = channel := by
        by_contra other
        simp [Mark.count_creation record.mark creation, isChild, makes.last, other] at counts
      obtain ⟨colors, child', branch', made', makes'⟩ := valid.creates_same order level same isChild
        makes (by rw [branch_channel_members, isChannel]; exact member')
      have channels := valid.channel_eq order level same isChild made' makes makes' colors
      rw [← isChannel, channels]
      exact makes'.count made'
  rw [weights, List.getElem?_map] at isFirst isSecond
  obtain ⟨mark, at_number, rfl⟩ := Option.map_eq_some_iff.mp isFirst
  obtain ⟨mark', at_number', rfl⟩ := Option.map_eq_some_iff.mp isSecond
  by_cases counts : mark.channels.count channel = 0
  · by_cases counts' : mark'.channels.count channel = 0
    · rw [counts, counts']
    · have one := follows (lineage ▸ level) has' has lineage.symm samePrefix.symm member at_number'
        at_number counts'
      omega
  · have one := follows level has has' lineage samePrefix member' at_number at_number' counts
    by_cases counts' : mark'.channels.count channel = 0
    · omega
    · rw [one, follows (lineage ▸ level) has' has lineage.symm samePrefix.symm member at_number'
        at_number counts']

/-- The number in the prefix of a made context. -/
theorem System.Creation.sequence
    (creation : system.Creation process parent object place record branch child) :
    branch.sequence = ((weights parent.marks branch.channel).take (parent.number place)).sum := by
  have parentValid := valid.objects _ _ creation.has
  rw [creation.makes.sequence, parentValid.count_collective
    (fun mark member => List.mem_of_mem_take member) (branch_channel_isCollective branch),
    weights, weights, Object.number, ← List.map_take]
  conv_rhs => rw [← List.take_append_drop place parent.marks, collectiveMarks_append]
  rw [List.take_left' (by simp)]

/-- Prefix and lineage grow together. -/
theorem System.Valid.path_length {lineage : Lineage} (has : system.Has process object)
    (isLineage : object.lineage = lineage) {path : Path}
    (located : object.context.keyPrefix = path.text) :
    path.length = lineage.length := by
  induction lineage generalizing object path with
  | nil =>
    rcases valid.parents process object has with ⟨_, root⟩ | ⟨parent, _, made⟩
    · rw [Path.text_injective (located.symm.trans root)]
      rfl
    · obtain ⟨_, _, _, _, _, _, equal⟩ := made
      rw [isLineage] at equal
      cases equal
  | cons first rest ih =>
    rcases valid.parents process object has with ⟨empty, _⟩ | ⟨parent, hasParent, made⟩
    · rw [isLineage] at empty
      cases empty
    · obtain ⟨place, record, branch, child, creation⟩ := valid.creation hasParent made
      have parts := creation.lineage
      rw [isLineage, List.cons.injEq] at parts
      obtain ⟨path', located'⟩ := (valid.objects _ _ hasParent).located
      have paths := Path.text_injective (located.symm.trans (creation.text located'))
      rw [paths, List.length_append, ih hasParent parts.2.symm located']
      rfl

/-- Creations of one lineage are one branch, and the other way. -/
theorem System.Valid.creation_iff (order : system.SameOrder)
    (level : system.Level parent.lineage.length)
    (creation : system.Creation process parent object place record branch child)
    (creation' : system.Creation process' parent' object' place' record' branch' child')
    (lineage : parent.lineage = parent'.lineage)
    (samePrefix : parent.context.keyPrefix = parent'.context.keyPrefix) :
    (parent.number place = parent'.number place' ∧ record.call.color = record'.call.color) ↔
      branch = branch' := by
  have sameCall (numbers : parent.number place = parent'.number place') :
      system.SameCall process process' parent parent' place place' record record' :=
    ⟨creation.has, creation'.has, lineage, samePrefix, creation.posted, creation'.posted, numbers,
      creation.makes.accepted, creation'.makes.accepted, creation.isCollective,
      creation'.isCollective⟩
  have isCreation (branch : Branch) :
      branch.channel.IsCollective ∧ branch.channel ≠ .collective := by
    cases branch <;> exact ⟨trivial, by simp [Branch.channel]⟩
  have agree (channels : branch.channel = branch'.channel) (number first second : Nat)
      (isFirst : (weights parent.marks branch.channel)[number]? = some first)
      (isSecond : (weights parent'.marks branch.channel)[number]? = some second) :
      first = second :=
    valid.weights_creation order level creation.has creation'.has lineage samePrefix
      (isCreation branch) (branch_channel_members _ branch ▸ creation.member)
      (channels ▸ branch_channel_members _ branch' ▸ creation'.member) isFirst isSecond
  have at_number {process : Nat} {parent object : Object} {place : Nat} {record : Record}
      {branch : Branch} {child : KeyValueContext}
      (creation : system.Creation process parent object place record branch child) :
      (weights parent.marks branch.channel)[parent.number place]? = some 1 := by
    rw [weights, List.getElem?_map, Object.marks_number (marks_of_past creation.posted)
      creation.makes.accepted creation.isCollective, Option.map_some,
      creation.makes.count creation.made]
  constructor
  · rintro ⟨numbers, colors⟩
    have channels := valid.channel_eq order level (sameCall numbers) creation.made creation'.made
      creation.makes creation'.makes colors
    have sequences : branch.sequence = branch'.sequence := by
      rw [creation.sequence valid, creation'.sequence valid, ← numbers, ← channels]
      have bound := (List.getElem?_eq_some_iff.mp (at_number creation)).1
      have bound' := (List.getElem?_eq_some_iff.mp (at_number creation')).1
      rw [← channels, ← numbers] at bound'
      exact sum_take_eq _ (Nat.le_of_lt bound) (Nat.le_of_lt bound')
        fun number first second _ => agree channels number first second
    cases branch <;> cases branch' <;> simp_all [Branch.channel, Branch.sequence]
  · rintro rfl
    have numbers : parent.number place = parent'.number place' := by
      apply place_eq_of_sum_take_eq (at_number creation) (at_number creation') (by omega) (by omega)
        (agree rfl)
      rw [← creation.sequence valid, ← creation'.sequence valid]
    have same := valid.creates_same order level (sameCall numbers) creation.made creation.makes
      creation'.member
    exact ⟨numbers, same.1⟩

end

end Depth

/-- Where members call in one order, lineage and prefix name the same contexts. -/
theorem System.Valid.level (valid : system.Valid system.Stored undefinedColor size)
    (order : system.SameOrder) (depth : Nat) : system.Level depth := by
  induction depth with
  | zero =>
    intro process process' object object' has has' isRoot
    have empty : object.lineage = [] := List.length_eq_zero_iff.mp isRoot
    have root {process : Nat} {object : Object} (has : system.Has process object)
        (empty : object.lineage = []) : object.context.keyPrefix = Path.text [] := by
      rcases valid.parents process object has with ⟨_, root⟩ | ⟨parent, _, made⟩
      · exact root
      · obtain ⟨_, _, _, _, _, _, equal⟩ := made
        rw [empty] at equal
        cases equal
    rw [empty, root has empty]
    constructor
    · intro empty'
      rw [root has' empty'.symm]
    · intro located
      have length := valid.path_length has' rfl located.symm
      exact (List.length_eq_zero_iff.mp length.symm).symm
  | succ depth ih =>
    intro process process' object object' has has' isDepth
    have grown {process : Nat} {object : Object} (has : system.Has process object)
        (isDepth : object.lineage.length = depth + 1) :
        ∃ parent place record branch child, parent.lineage.length = depth ∧
          system.Creation process parent object place record branch child := by
      rcases valid.parents process object has with ⟨empty, _⟩ | ⟨parent, hasParent, made⟩
      · rw [empty] at isDepth
        cases isDepth
      · obtain ⟨place, record, branch, child, creation⟩ := valid.creation hasParent made
        rw [creation.lineage] at isDepth
        exact ⟨parent, place, record, branch, child, Nat.succ.inj isDepth, creation⟩
    obtain ⟨parent, place, record, branch, child, length, creation⟩ := grown has isDepth
    obtain ⟨path, located⟩ := (valid.objects _ _ creation.has).located
    constructor
    · intro lineages
      obtain ⟨parent', place', record', branch', child', _, creation'⟩ :=
        grown has' (lineages ▸ isDepth)
      rw [creation.lineage, creation'.lineage, List.cons.injEq, Prod.mk.injEq] at lineages
      have samePrefix := (ih _ _ _ _ creation.has creation'.has length).mp lineages.2
      have branches := (valid.creation_iff order (length ▸ ih) creation creation' lineages.2
        samePrefix).mp lineages.1
      rw [creation.text located, creation'.text (samePrefix.symm.trans located), branches]
    · intro prefixes
      have isDepth' : object'.lineage.length = depth + 1 := by
        obtain ⟨path', located'⟩ := (valid.objects _ _ has').located
        rw [← valid.path_length has' rfl located', ← isDepth,
          ← valid.path_length has rfl (prefixes.trans located')]
      obtain ⟨parent', place', record', branch', child', _, creation'⟩ := grown has' isDepth'
      obtain ⟨path', located'⟩ := (valid.objects _ _ creation'.has).located
      rw [creation.text located, creation'.text located'] at prefixes
      have parts := List.append_inj' (Path.text_injective prefixes) rfl
      have samePrefix : parent.context.keyPrefix = parent'.context.keyPrefix := by
        rw [located, located', parts.1]
      have lineages := (ih _ _ _ _ creation.has creation'.has length).mpr samePrefix
      have same := (valid.creation_iff order (length ▸ ih) creation creation' lineages
        samePrefix).mpr (List.cons.inj parts.2).1
      rw [creation.lineage, creation'.lineage, same.1, same.2, lineages]

end Matching

end Libtt.KeyValue

import Mathlib.Data.List.Count
import Libtt.Store.Group

/-!
# What one call does

An accepted call of a context owes the store at most one entry, under a key of its own context whose
number is a counter that the call advances.
-/

namespace Libtt.KeyValue

open Libtt.Foundation Operation

/-- The store's key of a slot of a context. -/
def KeyValueContext.key (context : KeyValueContext) (slot : Slot) : String :=
  context.keyPrefix ++ "/" ++ slashed slot.components

/-- A counter of a context. -/
def KeyValueContext.count (context : KeyValueContext) (channel : Channel) : Nat :=
  context.sequences channel.text

/-- A context with some counters advanced. -/
def KeyValueContext.advance (context : KeyValueContext) (channels : List Channel) :
    KeyValueContext :=
  { context with
    sequences := fun name => context.sequences name + (channels.map Channel.text).count name }

section

variable (context : KeyValueContext) (channels : List Channel)
include context channels

@[simp] theorem advance_members :
    (context.advance channels).members = context.members := rfl

@[simp] theorem advance_globalRank :
    (context.advance channels).globalRank = context.globalRank := rfl

@[simp] theorem advance_rank :
    (context.advance channels).rank = context.rank := rfl

@[simp] theorem advance_keyPrefix :
    (context.advance channels).keyPrefix = context.keyPrefix := rfl

@[simp] theorem advance_key (slot : Slot) :
    (context.advance channels).key slot = context.key slot := rfl

end

section

variable (context : KeyValueContext)
include context

@[simp] theorem advance_nil : context.advance [] = context := by
  simp [KeyValueContext.advance]

theorem advance_advance (first second : List Channel) :
    (context.advance first).advance second = context.advance (first ++ second) := by
  simp [KeyValueContext.advance, List.count_append, Nat.add_assoc]

/-- Advancing adds to each counter how often it is listed. -/
theorem count_advance (channels : List Channel) (channel : Channel) :
    (context.advance channels).count channel = context.count channel + channels.count channel := by
  simp only [KeyValueContext.count, KeyValueContext.advance]
  rw [List.count_map_of_injective channels Channel.text Channel.text_injective]

theorem bump_text (channel : Channel) :
    context.bump channel.text = context.advance [channel] := by
  simp only [KeyValueContext.bump, KeyValueContext.advance]
  congr
  funext name
  by_cases same : name = channel.text
  · subst same
    simp
  · have other : channel.text ≠ name := fun equal => same equal.symm
    simp [Function.update_of_ne same, other]

/-- The process's own rank is one. -/
theorem KeyValueContext.isRank_rank : context.IsRank context.rank := by
  have bound := (List.getElem?_eq_some_iff.mp context.ranked).1
  exact ⟨by omega, by omega⟩

end

theorem collective_text : Channel.collective.text = "collective" := rfl

theorem duplicate_text : Channel.duplicate.text = "duplicate" := rfl

theorem toString_natCast (value : Nat) : toString (value : Int) = toString value := rfl

theorem send_text (source destination tag : Int) :
    "send/" ++ ("message/" ++ toString source ++ "/" ++ toString destination ++ "/" ++
      toString tag) = (Channel.send source destination tag).text := by
  apply String.toList_inj.mp
  simp [Channel.text, Channel.components, slashed]

theorem recv_text (source destination tag : Int) :
    "recv/" ++ ("message/" ++ toString source ++ "/" ++ toString destination ++ "/" ++
      toString tag) = (Channel.recv source destination tag).text := by
  apply String.toList_inj.mp
  simp [Channel.text, Channel.components, slashed]

section

variable (context : KeyValueContext)
include context

theorem message_key (source destination tag : Int) (sequence : Nat) :
    context.keyPrefix ++ "/" ++ ("message/" ++ toString source ++ "/" ++ toString destination ++
      "/" ++ toString tag) ++ "/" ++ toString sequence =
      context.key (.message source destination tag sequence) := by
  apply String.toList_inj.mp
  simp [KeyValueContext.key, Slot.components, slashed]

theorem ack_key (source destination tag : Int) (sequence : Nat) :
    context.key (.message source destination tag sequence) ++ "/ack" =
      context.key (.ack source destination tag sequence) := by
  apply String.toList_inj.mp
  simp [KeyValueContext.key, Slot.components, slashed]

theorem gathered_key (sequence rank : Nat) :
    context.keyPrefix ++ "/" ++ "collective" ++ "/" ++ toString sequence ++ "/all_gather/" ++
      toString rank = context.key (.gathered sequence rank) := by
  rw [← toString_natCast rank]
  apply String.toList_inj.mp
  simp [KeyValueContext.key, Slot.components, slashed]

theorem broadcast_key (sequence : Nat) (root : Int) :
    context.keyPrefix ++ "/" ++ "collective" ++ "/" ++ toString sequence ++ "/broadcast/" ++
      toString root = context.key (.broadcast sequence root) := by
  apply String.toList_inj.mp
  simp [KeyValueContext.key, Slot.components, slashed]

end

theorem validateRank_ok {context : KeyValueContext} {rank : Int} (valid : context.IsRank rank) :
    validateRank rank context = .done (.ok (), context) := by
  simp [validateRank, valid]

theorem validateRank_error {context : KeyValueContext} {rank : Int}
    (invalid : ¬context.IsRank rank) : validateRank rank context =
      .done (.error "Coordination rank out of range", context) := by
  simp [validateRank, invalid]

@[simp] theorem number_apply (channel : String) (advance : Bool) (context : KeyValueContext) :
    number channel advance context = .done (.ok (context.sequences channel),
      if advance then context.bump channel else context) := rfl

theorem next_eq (channel : Channel) (context : KeyValueContext) :
    next channel.text context = .done (.ok (context.keyPrefix ++ "/" ++ channel.text ++ "/" ++
      toString (context.count channel)), context.advance [channel]) := by
  simp only [next, bind_apply, number_apply, Action.bind_done, if_true, this_apply, pure_apply,
    bump_text, advance_keyPrefix, KeyValueContext.count]

section

variable {context : KeyValueContext} {source destination : Int}
  (validSource : context.IsRank source) (validDestination : context.IsRank destination) (tag : Int)
include validSource validDestination tag

/-- The key of the next message to a member. -/
theorem messageKey_send : messageKey source destination tag true true context =
      .done (.ok (context.key (.message source destination tag
        (context.count (.send source destination tag)))),
        context.advance [.send source destination tag]) := by
  simp only [messageKey, bind_apply, validateRank_ok validSource, validateRank_ok validDestination,
    Action.bind_done, if_true, number_apply, this_apply, pure_apply, send_text, bump_text,
    message_key, advance_key, KeyValueContext.count]

/-- The key of the next message from a member, taken or only looked at. -/
theorem messageKey_recv (advance : Bool) : messageKey source destination tag false advance context =
      .done (.ok (context.key (.message source destination tag
        (context.count (.recv source destination tag)))),
        if advance then context.advance [.recv source destination tag] else context) := by
  simp only [messageKey, bind_apply, validateRank_ok validSource, validateRank_ok validDestination,
    Action.bind_done, Bool.false_eq_true, if_false, number_apply, this_apply, pure_apply, recv_text,
    bump_text, KeyValueContext.count]
  cases advance <;> simp only [Bool.false_eq_true, if_true, if_false, message_key, advance_key]

end

theorem messageKey_invalid_source {context : KeyValueContext} {source : Int}
    (invalid : ¬context.IsRank source) (destination tag : Int) (sending advance : Bool) :
    messageKey source destination tag sending advance context =
      .done (.error "Coordination rank out of range", context) := by
  simp only [messageKey, bind_apply, validateRank_error invalid, Action.bind_done]

theorem messageKey_invalid_destination {context : KeyValueContext} {source destination : Int}
    (valid : context.IsRank source) (invalid : ¬context.IsRank destination) (tag : Int)
    (sending advance : Bool) : messageKey source destination tag sending advance context =
      .done (.error "Coordination rank out of range", context) := by
  simp only [messageKey, bind_apply, validateRank_ok valid, validateRank_error invalid,
    Action.bind_done]

section Outcomes

variable (stored : String → Bytes → Prop) (undefinedColor : Int32) (context : KeyValueContext)

/-- The entry an accepted call owes. -/
def owes (call : Call) : Option (Slot × Bytes) :=
  if call.Accepted context then
    match call with
    | .send buffer destination tag | .ssend buffer destination tag =>
      some (.message context.rank destination tag
        (context.count (.send context.rank destination tag)), buffer)
    | .recv _ source tag | .irecv _ source tag =>
      some (.ack source context.rank tag (context.count (.recv source context.rank tag)), ackBytes)
    | .allGather buffer _ => part buffer
    | .barrier => part [1]
    | .split color key => part (pairBytes color key)
    | .broadcast buffer root =>
      if context.members.length ≠ 1 ∧ (context.rank : Int) = root then
        some (.broadcast (context.count .collective) root, buffer)
      else none
    | .snoopIncomingMsgSize _ _ | .createSubContext _ | .duplicate => none
  else none
where
  /-- The entry of an `all_gather`. -/
  part (buffer : Bytes) : Option (Slot × Bytes) :=
    if context.members.length = 1 then none
    else some (.gathered (context.count .collective) context.rank, buffer)

/-- The entry under its key. -/
def owedEntry (call : Call) : Option (String × Bytes) :=
  (owes context call).map fun entry => (context.key entry.1, entry.2)

/-- The entry that a call puts itself: the one an `irecv` owes is its task's. -/
def owedNow (call : Call) : Option (String × Bytes) :=
  match call with
  | .irecv _ _ _ => none
  | call => owedEntry context call

/-- The counters that an accepted call advances, apart from the one of a created context. -/
def advanced (call : Call) : List Channel :=
  if call.Accepted context then
    match call with
    | .send _ destination tag | .ssend _ destination tag => [.send context.rank destination tag]
    | .recv _ source tag | .irecv _ source tag => [.recv source context.rank tag]
    | .allGather _ _ | .barrier | .split _ _ | .broadcast _ _ =>
      if context.members.length = 1 then [] else [.collective]
    | .snoopIncomingMsgSize _ _ | .createSubContext _ | .duplicate => []
  else []

/-- The path that a context's prefix spells. -/
noncomputable def KeyValueContext.path : Path := Function.invFun Path.text context.keyPrefix

/-- The counters that a call advances, with the context it made if any. -/
noncomputable def channels (call : Call) (child : Option KeyValueContext) : List Channel :=
  advanced context call ++ (child.bind fun child => child.path.getLast?).toList.map Branch.channel

/-- A receive found the message with its number. -/
def Received (source tag : Int) (size : Nat) (result : Except String Bytes) : Prop :=
  ∃ message, stored (context.key (.message source context.rank tag
    (context.count (.recv source context.rank tag)))) message ∧ result = copy message size

/-- A gather found every member's part of its call. -/
def Gathered (own : Bytes) (parts : List Bytes) : Prop :=
  parts.length = context.members.length ∧
    if context.members.length = 1 then parts = [own]
    else ∀ (rank : Nat) part, parts[rank]? = some part →
      stored (context.key (.gathered (context.count .collective) rank)) part ∧
        part.length = own.length

/-- A context made from another by a branch. -/
structure Child (branch : Branch) (child : KeyValueContext) : Prop where
  keyPrefix : child.keyPrefix = context.keyPrefix ++ "/" ++ slashed branch.components
  sequence : branch.sequence = context.count branch.channel
  fresh : ∀ channel, child.count channel = 0
  globalRank : child.globalRank = context.globalRank

/-- What `create_sub_context` of distinct ranks returns. -/
def SubContext (ranks : List Int) (outcome : Except String Result) : Prop :=
  (context.globalRank ∉ ranks.map context.member ∧ outcome = .ok (.context none)) ∨
    (context.globalRank ∈ ranks.map context.member ∧ ∃ child,
      outcome = .ok (.context (some child)) ∧ child.members = ranks.map context.member ∧
        Child context (.group ranks (context.count (.group ranks))) child)

/-- The outcome of an accepted call. -/
def Outcome (call : Call) (outcome : Except String Result) : Prop :=
  match call with
  | .send _ _ _ | .ssend _ _ _ => outcome = .ok .nothing
  | .recv size source tag =>
    ∃ result, Received stored context source tag size result ∧ outcome = result.map .bytes
  | .irecv size source tag =>
    ∃ task owed, outcome = .ok (.request task) ∧
      (owed = none ∨ owed = owedEntry context (.irecv size source tag)) ∧
      task.Meets stored (Received stored context source tag size) owed
  | .snoopIncomingMsgSize source tag =>
    ∃ message, stored (context.key (.message source context.rank tag
      (context.count (.recv source context.rank tag)))) message ∧
      outcome = .ok (.size message.length)
  | .allGather buffer _ =>
    ∀ result, outcome = .ok result → ∃ parts, Gathered stored context buffer parts ∧
      result = .bytes parts.flatten
  | .barrier =>
    ∀ result, outcome = .ok result → ∃ parts, Gathered stored context [1] parts ∧ result = .nothing
  | .broadcast buffer root =>
    ∀ result, outcome = .ok result → ∃ bytes, result = .bytes bytes ∧
      if context.members.length = 1 ∨ (context.rank : Int) = root then bytes = buffer
      else stored (context.key (.broadcast (context.count .collective) root)) bytes
  | .createSubContext ranks => SubContext context ranks outcome
  | .duplicate =>
    ∃ child, outcome = .ok (.context (some child)) ∧ child.members = context.members ∧
      Child context (.duplicate (context.count .duplicate)) child
  | .split color key =>
    (∃ what, outcome = .error what ∧ ∃ (rank : Nat) (part : Bytes), rank < context.members.length ∧
      stored (context.key (.gathered (context.count .collective) rank)) part ∧
      part.length ≠ (pairBytes color key).length) ∨
    ∃ parts, Gathered stored context (pairBytes color key) parts ∧
      ((color = undefinedColor ∧ outcome = .ok (.context none)) ∨ (color ≠ undefinedColor ∧
        SubContext context (splitRanks parts.flatten context.members.length color) outcome))

/-- What is true when a call returns or throws: the outcome, and the counters it advanced. -/
def Finished (call : Call) (result : Except String Result × KeyValueContext) : Prop :=
  (if call.Accepted context then Outcome stored undefinedColor context call result.1
    else ∃ what, result.1 = .error what) ∧
    result.2 = context.advance (channels context call (created result.1))

end Outcomes

section Calls

variable {stored : String → Bytes → Prop} {undefinedColor : Int32} {context : KeyValueContext}

/-- The loop of `all_gather` gets every part under its key, or throws at one of another size. -/
theorem gatherLoop_meets (key : String) (size : Nat) (ranks : List Nat) (recv : Bytes) :
    ((ranks.foldlM (gatherPart key size) recv : Operation Bytes) context).Meets stored
      (fun result : Except String Bytes × KeyValueContext => result.2 = context ∧
        ((∃ parts : List Bytes, parts.length = ranks.length ∧
          result.1 = .ok (recv ++ parts.flatten) ∧
          ∀ (i : Nat) (part : Bytes), parts[i]? = some part → ∃ rank, ranks[i]? = some rank ∧
            stored (key ++ toString rank) part ∧ part.length = size) ∨
        ∃ what, result.1 = .error what ∧ ∃ rank ∈ ranks, ∃ part,
          stored (key ++ toString rank) part ∧ part.length ≠ size)) none := by
  induction ranks generalizing recv with
  | nil =>
    exact ⟨rfl, .inl ⟨[], by simp⟩⟩
  | cons rank ranks ih =>
    simp only [List.foldlM_cons, gatherPart, bind_apply, get_apply, Action.bind_get,
      Action.bind_done, ofExcept_apply, Action.meets_get]
    intro value isStored
    rw [copy]
    by_cases fits : value.length = size
    · simp only [fits, if_true, Action.bind_done, pure_apply]
      apply (ih (recv ++ value)).weaken
      rintro result ⟨same, ⟨parts, count, outcome, found⟩ | ⟨what, threw, other, member, found⟩⟩
      · refine ⟨same, .inl ⟨value :: parts, by simp [count], by simp [outcome], ?_⟩⟩
        intro i part at_i
        cases i with
        | zero =>
          have isValue : value = part := by simpa using at_i
          subst isValue
          exact ⟨rank, rfl, isStored, fits⟩
        | succ i => exact found i part at_i
      · exact ⟨same, .inr ⟨what, threw, other, by simp [member], found⟩⟩
    · simp only [fits, if_false, Action.bind_done, Action.meets_done]
      exact ⟨trivial, .inr ⟨_, rfl, rank, by simp, value, isStored, fits⟩⟩

/-- What an accepted `all_gather` does. -/
def GatherFinished (stored : String → Bytes → Prop) (context : KeyValueContext) (buffer : Bytes)
    (result : Except String Bytes × KeyValueContext) : Prop :=
  result.2 = context.advance (if context.members.length = 1 then [] else [.collective]) ∧
    ((∃ parts, Gathered stored context buffer parts ∧ result.1 = .ok parts.flatten) ∨
      ∃ what, result.1 = .error what ∧ ∃ (rank : Nat) (part : Bytes),
        rank < context.members.length ∧
        stored (context.key (.gathered (context.count .collective) rank)) part ∧
        part.length ≠ buffer.length)

theorem allGather_meets {buffer : Bytes} {recvSize : Nat}
    (fits : recvSize = buffer.length * context.members.length) :
    (allGather buffer recvSize context).Meets stored (GatherFinished stored context buffer)
      ((owes.part context buffer).map fun entry => (context.key entry.1, entry.2)) := by
  simp only [allGather, bind_apply, this_apply, Action.bind_done, check_apply, if_pos fits]
  by_cases single : context.members.length = 1
  · have whole : copy buffer recvSize = .ok buffer := by simp [copy, fits, single]
    rw [if_pos single, ofExcept_apply, whole, Action.meets_done]
    exact ⟨by simp [single], .inl ⟨[buffer], by simp [Gathered, single], by simp⟩⟩
  · rw [if_neg single, bind_apply, ← collective_text, next_eq]
    simp only [bind_apply, this_apply, Action.bind_done, put_apply, Action.bind_put, advance_rank,
      collective_text, gathered_key, Action.meets_put, owes.part, if_neg single, Option.map_some,
      true_and]
    apply (gatherLoop_meets _ _ _ _).weaken
    rintro result ⟨same, ⟨parts, count, outcome, found⟩ | ⟨what, threw, rank, member, part, found⟩⟩
    · have keyed (rank : Nat) (part : Bytes) (at_rank : parts[rank]? = some part) :
          stored (context.key (.gathered (context.count .collective) rank)) part ∧
            part.length = buffer.length := by
        obtain ⟨rank', inRange, isStored, length⟩ := found rank part at_rank
        have equal : rank' = rank := by
          rw [List.getElem?_range] at inRange
          · exact (Option.some.inj inRange).symm
          · simpa using (List.getElem?_eq_some_iff.mp inRange).1
        rw [equal, gathered_key] at isStored
        exact ⟨isStored, length⟩
      refine ⟨by simp [same, single], .inl ⟨parts, ⟨by simpa using count, ?_⟩, by simpa using outcome⟩⟩
      rw [if_neg single]
      exact keyed
    · rw [gathered_key] at found
      exact ⟨by simp [same, single],
        .inr ⟨what, threw, rank, part, by simpa using member, found⟩⟩

/-- The loop of `create_sub_context` over ranks it accepts. -/
theorem addRank_ok {ranks : List Int} {members : List Nat} {group : List String}
    (valid : ∀ rank ∈ ranks, context.IsRank rank)
    (distinct : (members ++ ranks.map context.member).Nodup) :
    (ranks.foldlM addRank (members, slashed ("group" :: group)) : Operation _) context =
      .done (.ok (members ++ ranks.map context.member,
        slashed ("group" :: (group ++ rankTexts ranks))), context) := by
  induction ranks generalizing members group with
  | nil => simp [rankTexts]
  | cons rank ranks ih =>
    have fresh : context.member rank ∉ members := by
      intro old
      rw [List.nodup_append] at distinct
      exact distinct.2.2 _ old _ (by simp) rfl
    have grown : slashed ("group" :: group) ++ "/" ++ toString rank =
        slashed ("group" :: (group ++ [toString rank])) := by
      rw [← List.cons_append, slashed_snoc _ (by simp)]
    have later := @ih (members ++ [context.member rank]) (group ++ [toString rank])
      (fun other member => valid other (by simp [member])) (by simpa using distinct)
    simp only [List.foldlM_cons, addRank, bind_apply, validateRank_ok (valid rank (by simp)),
      Action.bind_done, this_apply, check_apply, pure_apply]
    simp only [fresh, not_false_eq_true, if_true, Action.bind_done, grown]
    exact later.trans (by simp [rankTexts])

/-- It throws at the first rank that is out of range or whose member is there already. -/
theorem addRank_error {ranks : List Int} {group : List Nat × String} (clean : group.1.Nodup)
    (refused : ¬((∀ rank ∈ ranks, context.IsRank rank) ∧
      (group.1 ++ ranks.map context.member).Nodup)) :
    ∃ what, (ranks.foldlM addRank group : Operation _) context = .done (.error what, context) := by
  induction ranks generalizing group with
  | nil => simp [clean] at refused
  | cons rank ranks ih =>
    simp only [List.foldlM_cons, addRank, bind_apply]
    by_cases valid : context.IsRank rank
    · simp only [validateRank_ok valid, Action.bind_done, this_apply, check_apply, pure_apply]
      by_cases fresh : context.member rank ∉ group.1
      · simp only [fresh, not_false_eq_true, if_true, Action.bind_done]
        apply ih
        · rw [List.nodup_append]
          refine ⟨clean, by simp, ?_⟩
          intro member inside other single equal
          rw [List.mem_singleton] at single
          exact fresh (single ▸ equal ▸ inside)
        · rintro ⟨validRest, distinct⟩
          apply refused
          refine ⟨?_, by simpa using distinct⟩
          intro other member
          rcases List.mem_cons.mp member with rfl | inRest
          · exact valid
          · exact validRest other inRest
      · simp only [fresh, if_false, Action.bind_done]
        exact ⟨_, rfl⟩
    · rw [validateRank_error valid]
      exact ⟨_, rfl⟩

theorem makeContext_ok {members : List Nat} {globalRank : Nat} (keyPrefix : String)
    (member : globalRank ∈ members) : ∃ child, makeContext members globalRank keyPrefix = .ok child ∧
      child.members = members ∧ child.globalRank = globalRank ∧ child.keyPrefix = keyPrefix ∧
      ∀ channel, child.count channel = 0 := by
  rw [makeContext, dif_pos member]
  exact ⟨_, rfl, rfl, rfl, rfl, fun _ => rfl⟩

/-- A context made under the key that `Next` returns. -/
theorem makeContext_child {members : List Nat} (member : context.globalRank ∈ members)
    (branch : Branch) (sequence : branch.sequence = context.count branch.channel)
    (components : branch.components = branch.channel.components ++ [toString branch.sequence]) :
    ∃ child, makeContext members context.globalRank (context.keyPrefix ++ "/" ++
      branch.channel.text ++ "/" ++ toString (context.count branch.channel)) = .ok child ∧
      child.members = members ∧ Child context branch child := by
  obtain ⟨child, made, isMembers, isRank, isPrefix, fresh⟩ := makeContext_ok (context.keyPrefix ++
    "/" ++ branch.channel.text ++ "/" ++ toString (context.count branch.channel)) member
  refine ⟨child, made, isMembers, ?_, sequence, fresh, isRank⟩
  have nonempty : branch.channel.components ≠ [] := by cases branch <;> simp [Branch.channel,
    Channel.components]
  rw [isPrefix, components, slashed_snoc _ nonempty, sequence, Channel.text]
  simp only [String.append_assoc]

/-- The last branch of a child's path. -/
theorem Child.path_getLast {path : Path} {branch : Branch} {child : KeyValueContext}
    (located : context.keyPrefix = path.text) (made : Child context branch child) :
    child.path.getLast? = some branch := by
  have text : child.keyPrefix = Path.text (path ++ [branch]) := by
    rw [made.keyPrefix, located, Path.text_child]
  have inverse := Function.leftInverse_invFun (fun _ _ => Path.text_injective) (path ++ [branch])
  rw [KeyValueContext.path, text, inverse]
  simp

/-- Counters of collectives do not number groups. -/
theorem SubContext.of_advance {ranks : List Int} {outcome : Except String Result}
    {channels : List Channel} (other : ∀ ranks, .group ranks ∉ channels)
    (made : SubContext (context.advance channels) ranks outcome) :
    SubContext context ranks outcome := by
  have count : (context.advance channels).count (.group ranks) = context.count (.group ranks) := by
    rw [count_advance, List.count_eq_zero_of_not_mem (other ranks), Nat.add_zero]
  rcases made with outside | ⟨inside, child, isOk, members, isChild⟩
  · exact .inl outside
  · refine .inr ⟨inside, child, isOk, members, isChild.keyPrefix.trans ?_, rfl, isChild.fresh,
      isChild.globalRank⟩
    rw [count]
    rfl

/-- `create_sub_context` of ranks it accepts. -/
theorem createSubContext_ok {path : Path} (located : context.keyPrefix = path.text)
    {ranks : List Int} (valid : ∀ rank ∈ ranks, context.IsRank rank)
    (distinct : (ranks.map context.member).Nodup) :
    ∃ result, createSubContext ranks context = .done (.ok result, context.advance
        ((result.bind fun child => child.path.getLast?).toList.map Branch.channel)) ∧
      SubContext context ranks (.ok (.context result)) := by
  have group := @addRank_ok context ranks [] [] valid (by simpa using distinct)
  have start : slashed ["group"] = "group" := by simp [slashed]
  rw [start] at group
  simp only [createSubContext, bind_apply, group, Action.bind_done, this_apply, List.nil_append]
  by_cases member : context.globalRank ∈ ranks.map context.member
  · obtain ⟨child, made, isMembers, isChild⟩ := makeContext_child member
      (.group ranks (context.count (.group ranks))) rfl rfl
    have channel : slashed ("group" :: rankTexts ranks) = (Channel.group ranks).text := rfl
    rw [if_pos member]
    simp only [bind_apply, this_apply, Action.bind_done, channel, next_eq, ofExcept_apply, pure_apply]
    simp only [Branch.channel] at made
    rw [made]
    refine ⟨some child, ?_, .inr ⟨member, child, rfl, isMembers, isChild⟩⟩
    simp [isChild.path_getLast located, Branch.channel]
  · rw [if_neg member]
    exact ⟨none, by simp, .inl ⟨member, rfl⟩⟩

/-- A call that fails an argument check throws and changes nothing. -/
theorem run_rejected {call : Call} (rejected : ¬call.Accepted context) :
    ∃ what, call.run undefinedColor context = .done (.error what, context) := by
  have own := context.isRank_rank
  cases call with
  | send buffer destination tag =>
    simp only [Call.run, send, bind_apply, this_apply, Action.bind_done,
      messageKey_invalid_destination own rejected]
    exact ⟨_, rfl⟩
  | ssend buffer destination tag =>
    simp only [Call.run, ssend, bind_apply, this_apply, Action.bind_done,
      messageKey_invalid_destination own rejected]
    exact ⟨_, rfl⟩
  | recv size source tag =>
    simp only [Call.run, recv, bind_apply, this_apply, Action.bind_done,
      messageKey_invalid_source rejected]
    exact ⟨_, rfl⟩
  | irecv size source tag =>
    simp only [Call.run, irecv, bind_apply, this_apply, Action.bind_done, check_apply]
    by_cases small : size ≤ 2 ^ 31 - 1
    · have invalid : ¬context.IsRank source := fun valid => rejected ⟨small, valid⟩
      simp only [small, if_true, Action.bind_done, messageKey_invalid_source invalid]
      exact ⟨_, rfl⟩
    · simp only [small, if_false, Action.bind_done]
      exact ⟨_, rfl⟩
  | snoopIncomingMsgSize source tag =>
    simp only [Call.run, snoopIncomingMsgSize, bind_apply, this_apply,
      Action.bind_done, messageKey_invalid_source rejected]
    exact ⟨_, rfl⟩
  | allGather buffer recvSize =>
    have misfit : ¬recvSize = buffer.length * context.members.length := rejected
    simp only [Call.run, allGather, bind_apply, this_apply, Action.bind_done,
      check_apply, misfit, if_false]
    exact ⟨_, rfl⟩
  | broadcast buffer root =>
    simp only [Call.run, broadcast, bind_apply, validateRank_error rejected,
      Action.bind_done]
    exact ⟨_, rfl⟩
  | createSubContext ranks =>
    obtain ⟨what, threw⟩ := @addRank_error context ranks ([], "group") List.nodup_nil
      (by simpa [Call.Accepted] using rejected)
    exact ⟨what, by simp only [Call.run, createSubContext, bind_apply, threw, Action.bind_done]⟩
  | barrier | duplicate | split => exact absurd trivial rejected

/-- A call that makes no context advances the counters listed for it alone. -/
theorem channels_of_not_created {call : Call} :
    channels context call none = advanced context call := by
  simp [channels]

/-- The postcondition of an accepted call that makes no context. -/
theorem finished_intro {call : Call} {outcome : Except String Result} {channels' : List Channel}
    (accepted : call.Accepted context) (isOutcome : Outcome stored undefinedColor context call outcome)
    (none : created outcome = none) (advances : advanced context call = channels') :
    Finished stored undefinedColor context call (outcome, context.advance channels') := by
  refine ⟨by rw [if_pos accepted]; exact isOutcome, ?_⟩
  rw [none, channels_of_not_created, advances]

/-- A receive takes the number of its message, gets it and acknowledges what it copied. -/
theorem receiveTask_meets (source tag : Int) (size : Nat) (call : Call)
    (owed : owedEntry context call = some (context.key (.ack source context.rank tag
      (context.count (.recv source context.rank tag))), ackBytes)) :
    (receiveTask (context.key (.message source context.rank tag
      (context.count (.recv source context.rank tag)))) size).Meets stored
      (Received stored context source tag size) (owedEntry context call) := by
  intro message isStored
  by_cases fits : message.length = size
  · simp only [copy, fits, if_true, Action.meets_put, Action.meets_done, ack_key]
    exact ⟨owed, message, isStored, by simp [copy, fits]⟩
  · simp only [copy, fits, if_false, Action.meets_done]
    exact ⟨message, isStored, by simp [copy, fits]⟩

/-- A call that fails a check is finished and owes nothing. -/
theorem run_meets_rejected {call : Call} (rejected : ¬call.Accepted context) :
    (call.run undefinedColor context).Meets stored (Finished stored undefinedColor context call)
      (owedNow context call) := by
  have ⟨what, threw⟩ : ∃ what, call.run undefinedColor context = .done (.error what, context) :=
    run_rejected rejected
  rw [threw, Action.meets_done]
  refine ⟨by rw [if_neg rejected]; exact ⟨what, rfl⟩, ?_⟩
  rw [show created (Except.error what) = none from rfl, channels_of_not_created]
  simp [advanced, rejected]

theorem run_meets_send {buffer : Bytes} {destination tag : Int}
    (valid : context.IsRank destination) :
    ((Call.send buffer destination tag).run undefinedColor context).Meets stored
      (Finished stored undefinedColor context (.send buffer destination tag))
      (owedEntry context (.send buffer destination tag)) := by
  have accepted : (Call.send buffer destination tag).Accepted context := valid
  simp only [Call.run, send, bind_apply, this_apply, Action.bind_done,
    messageKey_send context.isRank_rank valid, put_apply, Action.bind_put, pure_apply,
    Action.meets_put, Action.meets_done]
  refine ⟨by simp [owedEntry, owes, accepted], ?_⟩
  apply finished_intro accepted rfl rfl
  simp [advanced, accepted]

theorem run_meets_ssend {buffer : Bytes} {destination tag : Int}
    (valid : context.IsRank destination) :
    ((Call.ssend buffer destination tag).run undefinedColor context).Meets stored
      (Finished stored undefinedColor context (.ssend buffer destination tag))
      (owedEntry context (.ssend buffer destination tag)) := by
  have accepted : (Call.ssend buffer destination tag).Accepted context := valid
  simp only [Call.run, ssend, bind_apply, this_apply, Action.bind_done,
    messageKey_send context.isRank_rank valid, put_apply, Action.bind_put, pure_apply, get_apply,
    Action.bind_get, Action.meets_put, Action.meets_get, Action.meets_done]
  refine ⟨by simp [owedEntry, owes, accepted], ?_⟩
  intro _ _
  apply finished_intro accepted rfl rfl
  simp [advanced, accepted]

theorem run_meets_recv {size : Nat} {source tag : Int} (valid : context.IsRank source) :
    ((Call.recv size source tag).run undefinedColor context).Meets stored
      (Finished stored undefinedColor context (.recv size source tag))
      (owedEntry context (.recv size source tag)) := by
  have accepted : (Call.recv size source tag).Accepted context := valid
  have advances : advanced context (.recv size source tag) =
      [.recv source context.rank tag] := by simp [advanced, accepted]
  simp only [Call.run, recv, bind_apply, this_apply, Action.bind_done,
    messageKey_recv valid context.isRank_rank, if_true, get_apply, Action.bind_get,
    ofExcept_apply, Action.meets_get]
  intro message isStored
  by_cases fits : message.length = size
  · simp only [copy, fits, if_true, Action.bind_done, put_apply, Action.bind_put, pure_apply,
      Action.meets_put, Action.meets_done, ack_key]
    refine ⟨by simp [owedEntry, owes, accepted], ?_⟩
    exact finished_intro accepted ⟨.ok message, ⟨message, isStored, by simp [copy, fits]⟩, rfl⟩ rfl
      advances
  · have refused : copy message size = .error "Coordination message size mismatch" := if_neg fits
    simp only [refused, Action.bind_done, Action.meets_done]
    exact finished_intro accepted ⟨_, ⟨message, isStored, refused.symm⟩, rfl⟩ rfl advances

theorem run_meets_irecv {size : Nat} {source tag : Int} (small : size ≤ 2 ^ 31 - 1)
    (valid : context.IsRank source) :
    ((Call.irecv size source tag).run undefinedColor context).Meets stored
      (Finished stored undefinedColor context (.irecv size source tag)) none := by
  have accepted : (Call.irecv size source tag).Accepted context := ⟨small, valid⟩
  simp only [Call.run, irecv, bind_apply, this_apply, check_apply, small, if_true,
    Action.bind_done, messageKey_recv valid context.isRank_rank, pure_apply, Action.meets_done]
  apply finished_intro accepted _ rfl (by simp [advanced, accepted])
  refine ⟨_, owedEntry context (.irecv size source tag), rfl, .inr rfl, ?_⟩
  exact receiveTask_meets source tag size _ (by simp [owedEntry, owes, accepted])

theorem run_meets_snoop {source tag : Int} (valid : context.IsRank source) :
    ((Call.snoopIncomingMsgSize source tag).run undefinedColor context).Meets stored
      (Finished stored undefinedColor context (.snoopIncomingMsgSize source tag))
      (owedEntry context (.snoopIncomingMsgSize source tag)) := by
  have accepted : (Call.snoopIncomingMsgSize source tag).Accepted context := valid
  simp only [Call.run, snoopIncomingMsgSize, bind_apply, this_apply, Action.bind_done,
    messageKey_recv valid context.isRank_rank, Bool.false_eq_true, if_false, get_apply,
    Action.bind_get, pure_apply, Action.meets_get, Action.meets_done]
  intro message isStored
  have finished := @finished_intro stored undefinedColor _ _ _ _ accepted
    ⟨message, isStored, rfl⟩ rfl (show advanced context _ = [] by simp [advanced, accepted])
  simpa using finished

theorem run_meets_allGather {buffer : Bytes} {recvSize : Nat}
    (fits : recvSize = buffer.length * context.members.length) :
    ((Call.allGather buffer recvSize).run undefinedColor context).Meets stored
      (Finished stored undefinedColor context (.allGather buffer recvSize))
      (owedEntry context (.allGather buffer recvSize)) := by
  have accepted : (Call.allGather buffer recvSize).Accepted context := fits
  have owed : owes context (.allGather buffer recvSize) = owes.part context buffer := by
    simp [owes, accepted]
  rw [owedEntry, owed, Call.run, bind_apply]
  apply (allGather_meets fits).bind
  rintro ⟨outcome, after⟩ owed' ⟨advances, ⟨parts, gathered, isOk⟩ | ⟨what, threw, _⟩⟩
  · simp only at advances isOk
    subst advances isOk
    apply finished_intro accepted _ rfl (by simp [advanced, accepted])
    intro result isResult
    exact ⟨parts, gathered, (Except.ok.inj isResult).symm⟩
  · simp only at advances threw
    subst advances threw
    apply finished_intro accepted _ rfl (by simp [advanced, accepted])
    intro result isResult
    cases isResult

theorem run_meets_barrier :
    (Call.barrier.run undefinedColor context).Meets stored
      (Finished stored undefinedColor context .barrier) (owedEntry context .barrier) := by
  have accepted : Call.barrier.Accepted context := trivial
  have owed : owes context .barrier = owes.part context [1] := by simp [owes, accepted]
  simp only [owedEntry, owed, Call.run, barrier, bind_apply, this_apply, Action.bind_done]
  have inner := @allGather_meets stored context [1] context.members.length (by simp)
  rw [Action.bind_assoc]
  apply inner.bind
  rintro ⟨outcome, after⟩ owed' ⟨advances, ⟨parts, gathered, isOk⟩ | ⟨what, threw, _⟩⟩
  · simp only at advances isOk
    subst advances isOk
    apply finished_intro accepted _ rfl (by simp [advanced, accepted])
    intro result isResult
    exact ⟨parts, gathered, (Except.ok.inj isResult).symm⟩
  · simp only at advances threw
    subst advances threw
    apply finished_intro accepted _ rfl (by simp [advanced, accepted])
    intro result isResult
    cases isResult

theorem run_meets_broadcast {buffer : Bytes} {root : Int} (valid : context.IsRank root) :
    ((Call.broadcast buffer root).run undefinedColor context).Meets stored
      (Finished stored undefinedColor context (.broadcast buffer root))
      (owedEntry context (.broadcast buffer root)) := by
  have accepted : (Call.broadcast buffer root).Accepted context := valid
  simp only [Call.run, broadcast, bind_apply, validateRank_ok valid, this_apply, Action.bind_done]
  by_cases single : context.members.length = 1
  · simp only [single, if_true, pure_apply, Action.bind_done, Action.meets_done]
    have finished := @finished_intro stored undefinedColor _ _ (.ok (.bytes buffer)) _
      accepted (fun result isResult => ⟨buffer,
        (Except.ok.inj isResult).symm, by rw [if_pos (.inl single)]⟩) rfl
      (show advanced context _ = [] by simp [advanced, accepted, single])
    simpa using finished
  · have advances : advanced context (.broadcast buffer root) = [.collective] := by
      simp [advanced, accepted, single]
    simp only [single, if_false, bind_apply, ← collective_text, next_eq, Action.bind_done,
      this_apply]
    simp only [collective_text, broadcast_key]
    by_cases isRoot : (context.rank : Int) = root
    · rw [if_pos (show ((context.advance _).rank : Int) = root from isRoot)]
      refine ⟨by simp [owedEntry, owes, accepted, single, isRoot], ?_⟩
      apply finished_intro accepted _ rfl advances
      intro result isResult
      exact ⟨buffer, (Except.ok.inj isResult).symm, by rw [if_pos (.inr isRoot)]⟩
    · rw [if_neg (show ¬((context.advance _).rank : Int) = root from isRoot)]
      simp only [bind_apply, get_apply, Action.bind_get, Action.bind_done,
        ofExcept_apply, Action.meets_get]
      intro value isStored
      by_cases fits : value.length = buffer.length
      · simp only [copy, fits, if_true, pure_apply, Action.meets_done]
        apply finished_intro accepted _ rfl advances
        intro result isResult
        refine ⟨value, (Except.ok.inj isResult).symm, ?_⟩
        rw [if_neg (by simp [single, isRoot])]
        exact isStored
      · simp only [copy, fits, if_false, Action.meets_done]
        apply finished_intro accepted _ rfl advances
        intro result isResult
        cases isResult

theorem run_meets_duplicate {path : Path} (located : context.keyPrefix = path.text) :
    (Call.duplicate.run undefinedColor context).Meets stored
      (Finished stored undefinedColor context .duplicate) (owedEntry context .duplicate) := by
  have accepted : Call.duplicate.Accepted context := trivial
  obtain ⟨child, made, isMembers, isChild⟩ := @makeContext_child context _
    (List.mem_of_getElem? context.ranked) (.duplicate (context.count .duplicate)) rfl rfl
  simp only [Branch.channel] at made
  simp only [Call.run, duplicate, bind_apply, this_apply, Action.bind_done, ← duplicate_text,
    next_eq, ofExcept_apply]
  rw [made]
  refine ⟨by rw [if_pos accepted]; exact ⟨child, rfl, isMembers, isChild⟩, ?_⟩
  simp [channels, created, advanced, isChild.path_getLast located, Branch.channel]

theorem run_meets_createSubContext {path : Path} (located : context.keyPrefix = path.text)
    {ranks : List Int} (valid : ∀ rank ∈ ranks, context.IsRank rank)
    (distinct : (ranks.map context.member).Nodup) :
    ((Call.createSubContext ranks).run undefinedColor context).Meets stored
      (Finished stored undefinedColor context (.createSubContext ranks))
      (owedEntry context (.createSubContext ranks)) := by
  have accepted : (Call.createSubContext ranks).Accepted context := ⟨valid, distinct⟩
  obtain ⟨result, made, isResult⟩ := createSubContext_ok located valid distinct
  simp only [Call.run, bind_apply, made, Action.bind_done, pure_apply, Action.meets_done]
  refine ⟨by rw [if_pos accepted]; exact isResult, ?_⟩
  simp [channels, created, advanced]

/-- Distinct members have distinct ranks. -/
theorem member_injective (distinct : context.members.Nodup) {left right : Nat}
    (inLeft : left < context.members.length) (inRight : right < context.members.length)
    (same : context.member left = context.member right) : left = right := by
  have read (rank : Nat) (inside : rank < context.members.length) :
      context.member rank = context.members[rank] := by simp [KeyValueContext.member, inside]
  rw [read left inLeft, read right inRight] at same
  exact (List.Nodup.getElem_inj_iff distinct).mp same

/-- The ranks of one color are the members' whose values have it. -/
theorem mem_splitRanks {values : Bytes} {size : Nat} {color : Int32} {rank : Int} :
    rank ∈ splitRanks values size color ↔
      ∃ i : Nat, rank = i ∧ i < size ∧ (pairAt values i).1 = color := by
  simp only [splitRanks, List.mem_map, List.mem_insertionSort, List.mem_filter, List.mem_range,
    decide_eq_true_eq]
  exact exists_congr fun i => and_comm.trans (and_congr_left' eq_comm)

/-- `split` passes ranks that `create_sub_context` accepts. -/
theorem splitRanks_accepted (distinct : context.members.Nodup) (values : Bytes) (color : Int32) :
    (Call.createSubContext (splitRanks values context.members.length color)).Accepted context := by
  constructor
  · intro rank member
    obtain ⟨i, same, inside, _⟩ := mem_splitRanks.mp member
    exact ⟨by omega, by omega⟩
  · rw [splitRanks, List.map_map]
    apply List.Nodup.map_on
    · intro left inLeft right inRight same
      simp only [List.mem_insertionSort, List.mem_filter, List.mem_range] at inLeft inRight
      exact member_injective distinct inLeft.1 inRight.1 same
    · exact (List.perm_insertionSort _ _).nodup_iff.mpr (List.nodup_range.filter _)

section

variable {path : Path} (located : context.keyPrefix = path.text) (distinct : context.members.Nodup)
include located distinct

theorem run_meets_split {color key : Int32} :
    ((Call.split color key).run undefinedColor context).Meets stored
      (Finished stored undefinedColor context (.split color key))
      (owedEntry context (.split color key)) := by
  have accepted : (Call.split color key).Accepted context := trivial
  have owed : owes context (.split color key) = owes.part context (pairBytes color key) := by
    simp [owes, accepted]
  have length : (pairBytes color key).length = 8 := by simp [pairBytes, intBytes]
  have advances : advanced context (.split color key) =
      if context.members.length = 1 then [] else [.collective] := by simp [advanced, accepted]
  simp only [owedEntry, owed, Call.run, split, bind_apply, this_apply, Action.bind_done]
  rw [Action.bind_assoc]
  apply (allGather_meets (by rw [length])).bind
  rintro ⟨outcome, after⟩ owed' ⟨isAfter, ⟨parts, gathered, isOk⟩ | ⟨what, threw, misfit⟩⟩
  · simp only at isAfter isOk
    subst isAfter isOk
    by_cases undefined : color = undefinedColor
    · simp only [if_pos undefined, pure_apply, Action.bind_done, Action.meets_done]
      apply finished_intro accepted _ rfl rfl
      exact .inr ⟨parts, gathered, .inl ⟨undefined, rfl⟩⟩
    · have ranks := splitRanks_accepted distinct parts.flatten color
      obtain ⟨result, made, isResult⟩ := @createSubContext_ok
        (context.advance (if context.members.length = 1 then [] else [.collective])) _
        located _ ranks.1 ranks.2
      simp only [if_neg undefined, made, Action.bind_done, pure_apply, Action.meets_done]
      refine ⟨?_, by simp [channels, created, advances, advance_advance]⟩
      refine .inr ⟨parts, gathered, .inr ⟨undefined, ?_⟩⟩
      exact isResult.of_advance (by split <;> simp)
  · simp only at isAfter threw
    subst isAfter threw
    apply finished_intro accepted _ rfl rfl
    exact .inl ⟨what, rfl, misfit⟩

/-- Every call keeps its specification. -/
theorem Call.run_meets (call : Call) :
    (call.run undefinedColor context).Meets stored (Finished stored undefinedColor context call)
      (owedNow context call) := by
  by_cases accepted : call.Accepted context
  case neg => exact run_meets_rejected accepted
  cases call with
  | send => exact run_meets_send accepted
  | ssend => exact run_meets_ssend accepted
  | recv => exact run_meets_recv accepted
  | irecv => exact run_meets_irecv accepted.1 accepted.2
  | snoopIncomingMsgSize => exact run_meets_snoop accepted
  | allGather => exact run_meets_allGather accepted
  | barrier => exact run_meets_barrier
  | broadcast => exact run_meets_broadcast accepted
  | createSubContext => exact run_meets_createSubContext located accepted.1 accepted.2
  | duplicate => exact run_meets_duplicate located
  | split => exact run_meets_split located distinct

end

end Calls

end Libtt.KeyValue

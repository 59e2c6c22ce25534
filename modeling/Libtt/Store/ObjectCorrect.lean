import Libtt.Store.ContextCorrect

/-!
# What one object keeps

The history of an object determines its counters: each holds how often the calls so far advanced it.
-/
namespace Libtt.KeyValue

open Libtt.Foundation

variable {first second place : Nat} {context : KeyValueContext} {call : Call} {record : Record}
  {branch : Branch}

/-- Two views of one object. -/
structure KeyValueContext.Same (first second : KeyValueContext) : Prop where
  members : first.members = second.members
  globalRank : first.globalRank = second.globalRank
  rank : first.rank = second.rank
  keyPrefix : first.keyPrefix = second.keyPrefix

theorem KeyValueContext.Same.refl (context : KeyValueContext) : context.Same context :=
  ⟨rfl, rfl, rfl, rfl⟩

theorem KeyValueContext.Same.trans {first second third : KeyValueContext}
    (left : first.Same second) (right : second.Same third) : first.Same third :=
  ⟨left.members.trans right.members, left.globalRank.trans right.globalRank,
    left.rank.trans right.rank, left.keyPrefix.trans right.keyPrefix⟩

theorem KeyValueContext.Same.symm {first second : KeyValueContext} (same : first.Same second) :
    second.Same first :=
  ⟨same.members.symm, same.globalRank.symm, same.rank.symm, same.keyPrefix.symm⟩

theorem same_advance (context : KeyValueContext) (channels : List Channel) :
    (context.advance channels).Same context := ⟨rfl, rfl, rfl, rfl⟩

/-- What of a returned call does not change any more. -/
structure Mark where
  context : KeyValueContext
  call : Call
  child : Option KeyValueContext

def Record.mark (record : Record) : Mark :=
  ⟨record.context, record.call, created record.outcome⟩

theorem Record.mark_call (record : Record) : record.mark.call = record.call := rfl

/-- The counters a returned call advanced. -/
noncomputable def Mark.channels (mark : Mark) : List Channel :=
  KeyValue.channels mark.context mark.call mark.child

def Mark.invocation (mark : Mark) : Invocation := (mark.context, mark.call)

/-- The counters that calls advanced, each as often as it was. -/
noncomputable def counted (marks : List Mark) : List Channel := marks.flatMap Mark.channels

/-- The returned calls of an object. -/
def Object.marks (object : Object) : List Mark := object.past.map Record.mark

theorem counted_append (first second : List Mark) :
    counted (first ++ second) = counted first ++ counted second := by
  simp [counted]

theorem Object.calls_eq (object : Object) : object.calls = object.marks.map Mark.invocation ++
    object.current.toList.map fun running => (object.context, running.call) := by
  simp only [calls, marks, List.map_map]
  rfl

/-- Counters only grow along a history. -/
theorem count_take_le (marks : List Mark) (le : first ≤ second) (channel : Channel) :
    (counted (marks.take first)).count channel ≤ (counted (marks.take second)).count channel := by
  have split : marks.take second = marks.take first ++ (marks.take second).drop first := by
    have parts := List.take_append_drop first (marks.take second)
    rw [List.take_take, Nat.min_eq_left le] at parts
    exact parts.symm
  rw [split, counted_append, List.count_append]
  omega

/-- A call that advances a counter is counted from then on. -/
theorem count_take_succ {marks : List Mark} {mark : Mark} (found : marks[place]? = some mark)
    (channel : Channel) :
    (counted (marks.take (place + 1))).count channel =
      (counted (marks.take place)).count channel + mark.channels.count channel := by
  have bound := (List.getElem?_eq_some_iff.mp found).1
  have last := (List.getElem?_eq_some_iff.mp found).2
  rw [List.take_succ_eq_append_getElem bound, last, counted_append, List.count_append]
  simp [counted]

section Valid

variable (stored : String → Bytes → Prop) (undefinedColor : Int32)

/-- What is known of a returned call. -/
def Record.Valid (record : Record) : Prop :=
  if record.call.Accepted record.context then
    Outcome stored undefinedColor record.context record.call record.outcome
  else ∃ what, record.outcome = .error what

/-- The invariant of one object. -/
structure Object.Valid (object : Object) : Prop where
  located : ∃ path : Path, object.context.keyPrefix = path.text
  distinct : object.context.members.Nodup
  identity : ∀ mark ∈ object.marks, mark.context.Same object.context
  counts : ∀ channel, object.context.count channel = (counted object.marks).count channel
  earlier : ∀ (place : Nat) mark, object.marks[place]? = some mark → ∀ channel,
    mark.context.count channel = (counted (object.marks.take place)).count channel
  records : ∀ record ∈ object.past, record.Valid stored undefinedColor
  running : ∀ running, object.current = some running → ∃ owed,
    (owed = none ∨ owed = owedNow object.context running.call) ∧
      running.action.Meets stored (Finished stored undefinedColor object.context running.call) owed

/-- The call at a place puts nothing more. -/
structure Object.Settled (object : Object) (place : Nat) : Prop where
  task : ∀ record task, object.past[place]? = some record →
    record.outcome = .ok (.request task) → task.Silent stored
  running : place = object.past.length → ∀ running, object.current = some running →
    running.action.Meets stored (fun result => ∀ task, result.1 = .ok (.request task) →
      task.Silent stored) none

end Valid

variable {stored : String → Bytes → Prop} {undefinedColor : Int32} {object object' : Object}

/-- Only an `irecv` returns a task. -/
theorem Outcome.irecv {task : Action String Bytes (Except String Bytes)}
    (outcome : Outcome stored undefinedColor context call (.ok (.request task))) :
    ∃ size source tag, call = .irecv size source tag := by
  cases call with
  | irecv size source tag => exact ⟨size, source, tag, rfl⟩
  | send | ssend | snoopIncomingMsgSize | duplicate | createSubContext =>
    simp [Outcome, SubContext] at outcome
  | recv =>
    obtain ⟨result, _, equal⟩ := outcome
    cases result <;> cases equal
  | allGather =>
    obtain ⟨_, _, equal⟩ := outcome _ rfl
    cases equal
  | barrier =>
    obtain ⟨_, _, equal⟩ := outcome _ rfl
    cases equal
  | broadcast =>
    obtain ⟨_, equal, _⟩ := outcome _ rfl
    cases equal
  | split => simp [Outcome, SubContext] at outcome

/-- A returned `irecv` and its task. -/
theorem Record.Valid.task {task : Action String Bytes (Except String Bytes)}
    (valid : record.Valid stored undefinedColor) (request : record.outcome = .ok (.request task)) :
    record.call.Accepted record.context ∧ ∃ size source tag owed,
      record.call = .irecv size source tag ∧
      (owed = none ∨ owed = owedEntry record.context record.call) ∧
      task.Meets stored (Received stored record.context source tag size) owed := by
  by_cases accepted : record.call.Accepted record.context
  · rw [Record.Valid, if_pos accepted] at valid
    rw [request] at valid
    obtain ⟨size, source, tag, isCall⟩ := Outcome.irecv valid
    rw [isCall] at valid
    obtain ⟨task', owed, equal, isOwed, met⟩ := valid
    cases equal
    exact ⟨accepted, size, source, tag, owed, isCall, isCall ▸ isOwed, met⟩
  · rw [Record.Valid, if_neg accepted, request] at valid
    obtain ⟨what, equal⟩ := valid
    cases equal

/-- The call in progress is the last. -/
theorem Object.calls_length (object : Object) :
    object.calls.length = object.past.length + object.current.toList.length := by
  simp [calls]

/-- A call is a returned one or the one in progress. -/
theorem Object.calls_cases (found : object.calls[place]? = some (context, call)) :
    (∃ mark, object.marks[place]? = some mark ∧ mark.invocation = (context, call)) ∨
      (place = object.past.length ∧ context = object.context ∧
        ∃ running, object.current = some running ∧ running.call = call) := by
  rw [calls_eq] at found
  by_cases before : place < object.marks.length
  · rw [List.getElem?_append_left (by simpa using before), List.getElem?_map] at found
    exact .inl (Option.map_eq_some_iff.mp found)
  · rw [List.getElem?_append_right (by simpa using before), List.length_map] at found
    cases busy : object.current with
    | none => simp [busy] at found
    | some running =>
      have bound := (List.getElem?_eq_some_iff.mp found).1
      simp only [busy, Option.toList_some, List.map_cons, List.map_nil, List.length_singleton]
        at bound
      have last : place = object.past.length := by simp only [marks, List.length_map] at *; omega
      have first : place - object.marks.length = 0 := by omega
      simp only [busy, Option.toList_some, List.map_cons, List.map_nil, first,
        List.getElem?_cons_zero, Option.some.injEq, Prod.mk.injEq] at found
      exact .inr ⟨last, found.1.symm, running, rfl, found.2⟩

/-- The number, owner and counter of an owed slot. -/
theorem owes_slot {slot : Slot} {value : Bytes} (owed : owes context call = some (slot, value)) :
    slot.sequence = context.count slot.channel ∧ slot.owner = context.rank ∧
      slot.channel ∈ advanced context call := by
  by_cases accepted : call.Accepted context
  case neg => simp [owes, accepted] at owed
  have part (buffer : Bytes) (isPart : owes.part context buffer = some (slot, value)) :
      context.members.length ≠ 1 ∧ slot = .gathered (context.count .collective) context.rank := by
    by_cases single : context.members.length = 1
    · simp [owes.part, single] at isPart
    · rw [owes.part, if_neg single] at isPart
      exact ⟨single, (Prod.mk.inj (Option.some.inj isPart)).1.symm⟩
  simp only [owes, if_pos accepted] at owed
  simp only [advanced, if_pos accepted]
  cases call with
  | send | ssend | recv | irecv =>
    obtain ⟨rfl, rfl⟩ := Prod.mk.inj (Option.some.inj owed)
    exact ⟨rfl, rfl, by simp [Slot.channel]⟩
  | allGather | barrier | split =>
    obtain ⟨several, rfl⟩ := part _ owed
    exact ⟨rfl, rfl, by simp [several, Slot.channel]⟩
  | broadcast buffer root =>
    by_cases writes : context.members.length ≠ 1 ∧ (context.rank : Int) = root
    · simp only [if_pos writes] at owed
      obtain ⟨rfl, rfl⟩ := Prod.mk.inj (Option.some.inj owed)
      exact ⟨rfl, writes.2.symm, by simp [writes.1, Slot.channel]⟩
    · simp [writes] at owed
  | snoopIncomingMsgSize | createSubContext | duplicate => cases owed

/-- What is known of the object as a call found it. -/
theorem Object.Valid.at_call (valid : object.Valid stored undefinedColor)
    (found : object.calls[place]? = some (context, call)) :
    context.Same object.context ∧
      ∀ channel, context.count channel = (counted (object.marks.take place)).count channel := by
  rcases Object.calls_cases found with ⟨mark, isMark, equal⟩ | ⟨last, rfl, _⟩
  · have contexts : mark.context = context := (Prod.mk.inj equal).1
    subst contexts
    exact ⟨valid.identity mark (List.mem_of_getElem? isMark), valid.earlier place mark isMark⟩
  · refine ⟨.refl _, fun channel => ?_⟩
    rw [List.take_of_length_le (by simp [Object.marks, last])]
    exact valid.counts channel

section

variable {context' : KeyValueContext} {call' : Call} (valid : object.Valid stored undefinedColor)
  (before : object.calls[first]? = some (context, call))
  (after : object.calls[second]? = some (context', call'))
include valid before after

/-- A later call finds a counter beyond the value an earlier one advanced. -/
theorem Object.Valid.count_lt (lt : first < second) {channel : Channel}
    (advances : channel ∈ advanced context call) :
    context.count channel < context'.count channel := by
  rw [(valid.at_call before).2, (valid.at_call after).2]
  have bound := (List.getElem?_eq_some_iff.mp after).1
  rw [Object.calls_length] at bound
  have returned : first < object.past.length := by
    cases busy : object.current <;> simp [busy] at bound <;> omega
  rcases Object.calls_cases before with ⟨mark, isMark, equal⟩ | ⟨last, _⟩
  case inr => omega
  obtain ⟨rfl, rfl⟩ := Prod.mk.inj equal
  have listed : 0 < mark.channels.count channel := by
    apply List.count_pos_iff.mpr
    simp [Mark.channels, channels, advances]
  have step := count_take_succ isMark channel
  have grows := count_take_le object.marks (show first + 1 ≤ second from lt) channel
  omega

/-- No two calls of one object owe the same slot. -/
theorem Object.Valid.owes_unique {slot : Slot} {value value' : Bytes}
    (owed : owes context call = some (slot, value))
    (owed' : owes context' call' = some (slot, value')) : first = second := by
  have one := owes_slot owed
  have two := owes_slot owed'
  rcases Nat.lt_trichotomy first second with lt | equal | lt
  · have grows := valid.count_lt before after lt one.2.2
    omega
  · exact equal
  · have grows := valid.count_lt after before lt two.2.2
    omega

end

/-- The members of a context made by a branch. -/
def Branch.members (parent : List Nat) : Branch → List Nat
  | group ranks _ => ranks.map fun rank => parent[rank.toNat]!
  | duplicate _ => parent

/-- The branches that a call may make. -/
def Call.Creates : Call → Branch → Prop
  | .duplicate, .duplicate _ => True
  | .createSubContext ranks, .group ranks' _ => ranks' = ranks
  | .split _ _, .group _ _ => True
  | _, _ => False

theorem creates_group {ranks ranks' : List Int} (isGroup : branch.channel = .group ranks)
    (same : ranks = ranks') :
    (Call.createSubContext ranks').Creates branch := by
  cases branch with
  | group ranks'' sequence => exact (Channel.group.inj isGroup).trans same
  | duplicate => cases isGroup

theorem creates_split {ranks : List Int} {color key : Int32}
    (isGroup : branch.channel = .group ranks) : (Call.split color key).Creates branch := by
  cases branch with
  | group => trivial
  | duplicate => cases isGroup

/-- What is known of a context that a returned call made. -/
theorem Record.Valid.child {child : KeyValueContext} {path : Path}
    (located : record.context.keyPrefix = path.text) (distinct : record.context.members.Nodup)
    (valid : record.Valid stored undefinedColor) (made : created record.outcome = some child) :
    record.call.Accepted record.context ∧ ∃ branch, Child record.context branch child ∧
      child.members = branch.members record.context.members ∧ child.members.Nodup ∧
      branch.channel ∈ record.mark.channels ∧ record.call.Creates branch := by
  have outcome : record.outcome = .ok (.context (some child)) := by
    cases isOutcome : record.outcome with
    | error what => simp [created, isOutcome] at made
    | ok result => cases result <;> simp_all [created]
  by_cases accepted : record.call.Accepted record.context
  case neg => simp [Record.Valid, accepted, outcome] at valid
  rw [Record.Valid, if_pos accepted, outcome] at valid
  have listed {branch : Branch} (isChild : Child record.context branch child) :
      branch.channel ∈ record.mark.channels := by
    simp [Mark.channels, channels, Record.mark, made, isChild.path_getLast located]
  have group {ranks : List Int} (acceptedRanks : (ranks.map record.context.member).Nodup)
      (sub : SubContext record.context ranks (.ok (.context (some child)))) :
      ∃ branch, branch.channel = .group ranks ∧ Child record.context branch child ∧
        child.members = branch.members record.context.members ∧ child.members.Nodup ∧
        branch.channel ∈ record.mark.channels := by
    rcases sub with ⟨_, equal⟩ | ⟨_, child', equal, members, isChild⟩
    · cases equal
    · cases equal
      exact ⟨_, rfl, isChild, members, members ▸ acceptedRanks, listed isChild⟩
  refine ⟨accepted, ?_⟩
  cases isCall : record.call with
  | createSubContext ranks =>
    rw [isCall] at valid accepted
    obtain ⟨branch, isGroup, isChild, members, nodup, inside⟩ := group accepted.2 valid
    exact ⟨branch, isChild, members, nodup, inside, creates_group isGroup rfl⟩
  | duplicate =>
    rw [isCall] at valid
    obtain ⟨child', equal, members, isChild⟩ := valid
    cases equal
    exact ⟨_, isChild, members, members ▸ distinct, listed isChild, trivial⟩
  | split color key =>
    rw [isCall] at valid
    rcases valid with ⟨what, equal, _⟩ | ⟨parts, _, ⟨_, equal⟩ | ⟨_, sub⟩⟩
    · cases equal
    · cases equal
    · obtain ⟨branch, isGroup, isChild, members, nodup, inside⟩ :=
        group (splitRanks_accepted distinct _ _).2 sub
      exact ⟨branch, isChild, members, nodup, inside, creates_split isGroup⟩
  | send | ssend | snoopIncomingMsgSize =>
    rw [isCall] at valid
    simp [Outcome] at valid
  | recv =>
    rw [isCall] at valid
    obtain ⟨result, _, equal⟩ := valid
    cases result <;> cases equal
  | irecv =>
    rw [isCall] at valid
    obtain ⟨_, _, equal, _⟩ := valid
    cases equal
  | allGather | barrier =>
    rw [isCall] at valid
    obtain ⟨_, _, equal⟩ := valid _ rfl
    cases equal
  | broadcast =>
    rw [isCall] at valid
    obtain ⟨_, equal, _⟩ := valid _ rfl
    cases equal

/-- The call at a place made a context by a branch. -/
structure Object.Makes (object : Object) (place : Nat) (mark : Mark) (branch : Branch)
    (child : KeyValueContext) : Prop where
  keyPrefix : child.keyPrefix = object.context.keyPrefix ++ "/" ++ slashed branch.components
  sequence : branch.sequence = (counted (object.marks.take place)).count branch.channel
  listed : branch.channel ∈ mark.channels
  members : child.members = branch.members object.context.members
  distinct : child.members.Nodup
  globalRank : child.globalRank = object.context.globalRank
  fresh : ∀ channel, child.count channel = 0
  accepted : mark.call.Accepted mark.context
  creates : mark.call.Creates branch
  last : child.path.getLast? = some branch

/-- What is known of a context that an object made. -/
theorem Object.Valid.child (valid : object.Valid stored undefinedColor) {mark : Mark}
    {child : KeyValueContext} (found : object.marks[place]? = some mark)
    (made : mark.child = some child) : ∃ branch, object.Makes place mark branch child := by
  obtain ⟨path, located⟩ := valid.located
  obtain ⟨record, isRecord, rfl⟩ :=
    Option.map_eq_some_iff.mp ((List.getElem?_map (f := Record.mark)).symm.trans found)
  have same : record.context.Same object.context :=
    valid.identity record.mark (List.mem_of_getElem? found)
  obtain ⟨accepted, branch, isChild, members, distinct, listed, creates⟩ := Record.Valid.child
    (same.keyPrefix.trans located) (same.members ▸ valid.distinct)
    (valid.records record (List.mem_of_getElem? isRecord)) made
  refine ⟨branch, ?_, ?_, listed, ?_, distinct, ?_, isChild.fresh, accepted, creates,
    isChild.path_getLast (same.keyPrefix.trans located)⟩
  · rw [isChild.keyPrefix, same.keyPrefix]
  · rw [isChild.sequence]
    exact valid.earlier place record.mark found branch.channel
  · rw [members, same.members]
  · rw [isChild.globalRank, same.globalRank]

/-- A child's prefix names its branch. -/
theorem branch_injective {path : Path} {branch branch' : Branch}
    (same : path.text ++ "/" ++ slashed branch.components =
      path.text ++ "/" ++ slashed branch'.components) : branch = branch' := by
  rw [← Path.text_child, ← Path.text_child] at same
  simpa using Path.text_injective same

/-- No two calls of one object make contexts of one prefix. -/
theorem Object.Valid.child_unique (valid : object.Valid stored undefinedColor) {mark mark' : Mark}
    {child child' : KeyValueContext} (found : object.marks[first]? = some mark)
    (found' : object.marks[second]? = some mark') (made : mark.child = some child)
    (made' : mark'.child = some child') (same : child.keyPrefix = child'.keyPrefix) :
    first = second := by
  obtain ⟨path, located⟩ := valid.located
  obtain ⟨branch, makes⟩ := valid.child found made
  obtain ⟨branch', makes'⟩ := valid.child found' made'
  rw [makes.keyPrefix, makes'.keyPrefix, located] at same
  have sequence := makes.sequence
  have sequence' := makes'.sequence
  have equal := branch_injective same
  subst equal
  have order {first second : Nat} {mark : Mark} (found : object.marks[first]? = some mark)
      (listed : branch.channel ∈ mark.channels) (lt : first < second) :
      (counted (object.marks.take first)).count branch.channel <
        (counted (object.marks.take second)).count branch.channel := by
    have step := count_take_succ found branch.channel
    have positive := List.count_pos_iff.mpr listed
    have grows := count_take_le object.marks (show first + 1 ≤ second from lt) branch.channel
    omega
  rcases Nat.lt_trichotomy first second with lt | equal | lt
  · have grows := order found makes.listed lt
    omega
  · exact equal
  · have grows := order found' makes'.listed lt
    omega

/-- A task's progress does not change the history. -/
theorem map_mark_set {records : List Record} {record' : Record}
    (found : records[place]? = some record) (same : record'.mark = record.mark) :
    (records.set place record').map Record.mark = records.map Record.mark := by
  have mapped : (records.map Record.mark)[place]? = some record.mark := by
    rw [List.getElem?_map, found]
    rfl
  rw [List.map_set, same]
  obtain ⟨inside, equal⟩ := List.getElem?_eq_some_iff.mp mapped
  rw [← equal, List.set_getElem_self]

/-- The record of a call that returns. -/
theorem Object.Valid.finish (valid : object.Valid stored undefinedColor) {call : Call}
    {outcome : Except String Result} {context : KeyValueContext}
    (busy : object.current = some ⟨call, .done (outcome, context)⟩) :
    (Record.mk object.context call outcome).Valid stored undefinedColor ∧
      context = object.context.advance (Record.mk object.context call outcome).mark.channels := by
  obtain ⟨owed, _, met⟩ := valid.running _ busy
  have finished : Finished stored undefinedColor object.context call (outcome, context) :=
    (Action.meets_done _).mp met
  exact finished

/-- Every step of an object keeps its invariant. -/
theorem Object.Step.valid {store : String → Option Bytes} {entry : Option (String × Bytes)}
    {child : Option Object} (sound : ∀ key value, store key = some value → stored key value)
    (valid : object.Valid stored undefinedColor)
    (step : object.Step undefinedColor store entry object' child) :
    object'.Valid stored undefinedColor := by
  cases step with
  | call call idle =>
    obtain ⟨path, located⟩ := valid.located
    refine { valid with running := ?_ }
    intro running isRunning
    cases isRunning
    exact ⟨_, .inr rfl, Call.run_meets located valid.distinct call⟩
  | act busy step =>
    refine { valid with running := ?_ }
    intro running isRunning
    cases isRunning
    obtain ⟨owed, isOwed, met⟩ := valid.running _ busy
    cases entry with
    | none => exact ⟨owed, isOwed, met.step_get sound step⟩
    | some entry => exact ⟨none, .inl rfl, (met.step_put step).2.2⟩
  | @task place record task entry task' posted request step =>
    have marks : Object.marks { object with
        past := object.past.set place { record with outcome := .ok (.request task') } } =
        object.marks := map_mark_set posted (by simp [Record.mark, created, request])
    have isRecord := List.mem_of_getElem? posted
    obtain ⟨accepted, size, source, tag, owed, isCall, isOwed, met⟩ :=
      (valid.records record isRecord).task request
    refine ⟨valid.located, valid.distinct, marks ▸ valid.identity, marks ▸ valid.counts,
      marks ▸ valid.earlier, ?_, valid.running⟩
    intro other member
    rcases List.mem_or_eq_of_mem_set member with old | rfl
    · exact valid.records other old
    · rw [Record.Valid, if_pos accepted, isCall]
      rw [isCall] at isOwed
      cases entry with
      | none => exact ⟨task', owed, rfl, isOwed, met.step_get sound step⟩
      | some entry => exact ⟨task', none, rfl, .inl rfl, (met.step_put step).2.2⟩
  | @finish call outcome context busy =>
    obtain ⟨isRecord, advances⟩ := valid.finish busy
    subst advances
    have marks : Object.marks { object with
        context := object.context.advance (Record.mk object.context call outcome).mark.channels
        past := object.past ++ [⟨object.context, call, outcome⟩]
        current := none } = object.marks ++ [(Record.mk object.context call outcome).mark] := by
      simp [Object.marks]
    refine ⟨valid.located, valid.distinct, ?_, ?_, ?_, ?_, by simp⟩
    · intro mark member
      rw [marks] at member
      rcases List.mem_append.mp member with old | new
      · exact (valid.identity mark old).trans (same_advance _ _).symm
      · rw [List.mem_singleton.mp new]
        exact (same_advance _ _).symm
    · intro channel
      rw [marks, counted_append, List.count_append, count_advance, valid.counts]
      simp [counted]
    · intro place mark found channel
      rw [marks] at found ⊢
      rcases Nat.lt_or_ge place object.marks.length with before | last
      · rw [List.getElem?_append_left before] at found
        rw [List.take_append_of_le_length (Nat.le_of_lt before)]
        exact valid.earlier place mark found channel
      · have bound := (List.getElem?_eq_some_iff.mp found).1
        have isLast : place = object.marks.length := by simp at bound; omega
        subst isLast
        have isNew : mark = (Record.mk object.context call outcome).mark := by simpa using found.symm
        rw [isNew, List.take_left]
        exact valid.counts channel
    · intro record member
      rcases List.mem_append.mp member with old | new
      · exact valid.records record old
      · rw [List.mem_singleton.mp new]
        exact isRecord

/-- What no step of an object takes back. -/
structure Object.Extends (stored : String → Bytes → Prop) (object object' : Object) : Prop where
  lineage : object'.lineage = object.lineage
  same : object'.context.Same object.context
  marks : object.marks <+: object'.marks
  calls : object.calls <+: object'.calls
  settled : ∀ place < object.calls.length, object.Settled stored place →
    object'.Settled stored place

/-- The result of a silent call is no task that still puts. -/
theorem Object.Step.extends {store : String → Option Bytes} {entry : Option (String × Bytes)}
    {child : Option Object} (sound : ∀ key value, store key = some value → stored key value)
    (valid : object.Valid stored undefinedColor)
    (step : object.Step undefinedColor store entry object' child) :
    object.Extends stored object' := by
  cases step with
  | call call idle =>
    refine ⟨rfl, .refl _, List.prefix_refl _, ?_, ?_⟩
    · rw [Object.calls_eq, Object.calls_eq, idle]
      simp only [Option.toList_none, List.map_nil, List.append_nil]
      exact List.prefix_append _ _
    · intro place bound settled
      rw [Object.calls_length, idle] at bound
      refine ⟨settled.task, fun last => ?_⟩
      simp at bound last
      omega
  | @act running entry action busy step =>
    refine ⟨rfl, .refl _, List.prefix_refl _, ?_, ?_⟩
    · rw [Object.calls_eq, Object.calls_eq, busy]
      exact List.prefix_refl _
    · intro place bound settled
      refine ⟨settled.task, fun last running' isRunning => ?_⟩
      cases isRunning
      have met := settled.running last running busy
      cases entry with
      | none => exact met.step_get sound step
      | some entry => exact absurd (met.step_put step).1 (by simp)
  | @task place' record task entry task' posted request step =>
    have marks : Object.marks { object with
        past := object.past.set place' { record with outcome := .ok (.request task') } } =
        object.marks := map_mark_set posted (by simp [Record.mark, created, request])
    refine ⟨rfl, .refl _, by rw [marks], ?_, ?_⟩
    · rw [Object.calls_eq, Object.calls_eq, marks]
    · intro place bound settled
      refine ⟨fun other task'' found isRequest => ?_, fun last => ?_⟩
      · by_cases here : place' = place
        · subst here
          have bound' := (List.getElem?_eq_some_iff.mp posted).1
          rw [List.getElem?_set_self bound', Option.some.injEq] at found
          subst found
          cases isRequest
          have met := settled.task record task posted request
          cases entry with
          | none => exact met.step_get sound step
          | some entry => exact absurd (met.step_put step).1 (by simp)
        · rw [List.getElem?_set_ne here] at found
          exact settled.task other task'' found isRequest
      · exact settled.running (by simpa using last)
  | @finish call outcome context busy =>
    obtain ⟨_, advances⟩ := valid.finish busy
    subst advances
    refine ⟨rfl, same_advance _ _, ?_, ?_, ?_⟩
    · simp only [Object.marks, List.map_append]
      exact List.prefix_append _ _
    · simp [Object.calls, busy, Record.invocation]
    · intro place bound settled
      refine ⟨fun record task found request => ?_, by simp⟩
      rcases Nat.lt_or_ge place object.past.length with before | last
      · rw [List.getElem?_append_left before] at found
        exact settled.task record task found request
      · have isLast : place = object.past.length := by
          have inside := (List.getElem?_eq_some_iff.mp found).1
          simp at inside
          omega
        subst isLast
        have isNew : record = ⟨object.context, call, outcome⟩ := by simpa using found.symm
        subst isNew
        have silent : ∀ task, outcome = .ok (.request task) → task.Silent stored :=
          (Action.meets_done (outcome, object.context.advance _)).mp (settled.running rfl _ busy)
        exact silent task request

/-- A step that puts an entry puts the only one that its call owes. -/
theorem Object.Step.entry {store : String → Option Bytes} {entry : String × Bytes}
    {child : Option Object} (valid : object.Valid stored undefinedColor)
    (step : object.Step undefinedColor store (some entry) object' child) :
    ∃ place context call, object.calls[place]? = some (context, call) ∧
      owedEntry context call = some entry ∧ ¬object.Settled stored place ∧
      object'.Settled stored place := by
  cases step with
  | @act running entry action busy step =>
    obtain ⟨owed, isOwed, met⟩ := valid.running running busy
    have put := met.step_put step
    have owes : owedNow object.context running.call = some entry := by
      rcases isOwed with none | now
      · rw [none] at put
        simp at put
      · rw [← now]
        exact put.1
    have notIrecv : ∀ size source tag, running.call ≠ .irecv size source tag := by
      intro size source tag isCall
      rw [isCall] at owes
      cases owes
    refine ⟨object.past.length, object.context, running.call, ?_, ?_, ?_, ?_⟩
    · simp [Object.calls, busy]
    · cases isCall : running.call <;> rw [isCall] at owes <;>
        first | exact owes | exact absurd isCall (notIrecv _ _ _)
    · intro settled
      have silent := settled.running rfl running busy
      exact put.2.1 silent.silent
    · refine ⟨fun record task found => ?_, fun _ running' isRunning => ?_⟩
      · have bound := (List.getElem?_eq_some_iff.mp found).1
        simp at bound
      · cases isRunning
        apply put.2.2.weaken
        intro result finished task request
        have isRecord : (Record.mk object.context running.call result.1).Valid stored
          undefinedColor := finished.1
        obtain ⟨_, size, source, tag, _, isCall, _⟩ := isRecord.task request
        exact absurd isCall (notIrecv size source tag)
  | @task place record task entry task' posted request step =>
    have isRecord := List.mem_of_getElem? posted
    obtain ⟨accepted, size, source, tag, owed, isCall, isOwed, met⟩ :=
      (valid.records record isRecord).task request
    have put := met.step_put step
    have bound := (List.getElem?_eq_some_iff.mp posted).1
    refine ⟨place, record.context, record.call, ?_, ?_, ?_, ?_⟩
    · rw [Object.calls, List.getElem?_append_left (by simpa using bound), List.getElem?_map, posted]
      rfl
    · rcases isOwed with none | owes
      · rw [none] at put
        simp at put
      · rw [← owes]
        exact put.1
    · intro settled
      exact put.2.1 (settled.task record task posted request)
    · refine ⟨fun other task'' found isRequest => ?_, fun last => ?_⟩
      · rw [List.getElem?_set_self bound, Option.some.injEq] at found
        subst found
        cases isRequest
        exact put.2.2.silent
      · simp at last
        omega

end Libtt.KeyValue

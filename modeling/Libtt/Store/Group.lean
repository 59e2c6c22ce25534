import Libtt.Store.Context

/-!
# Processes that coordinate through one store

Every process makes its root context and then calls member functions of its contexts in any
order. One context object runs at most one call at a time, beside the tasks of its `irecv`s; the
objects of a process are otherwise independent of each other. A step of the system is a call, a
put or a get of one object or task, or the return of a call. A get waits until its key is in the
store. The history of an object and the lineage of a context are not read by the code.
-/
namespace Libtt.KeyValue

open Libtt.Foundation

/-- The calls that brought a context about, newest first: for each, its place among the
collectives of the context it was called on, and for a `split` the caller's color. -/
abbrev Lineage := List (Nat × Option Int32)

/-- A call that returned or threw, with the object as the call found it. The outcome of an
`irecv` carries what its task still has to do. -/
structure Record where
  context : KeyValueContext
  call : Call
  outcome : Except String Result

/-- A call in progress. -/
structure Running where
  call : Call
  action : Action String Bytes (Except String Result × KeyValueContext)

/-- A context object of one process. -/
structure Object where
  lineage : Lineage
  context : KeyValueContext
  past : List Record
  current : Option Running

/-- All processes and their store, with every put so far. -/
structure System where
  store : String → Option Bytes
  puts : List (String × Bytes)
  processes : Nat → List Object

/-- The collective operations. -/
inductive Collective where
  | allGather
  | barrier
  | broadcast (root : Int)
  | createSubContext (ranks : List Int)
  | duplicate
  | split
  deriving DecidableEq

/-- Which collective a call is. -/
def Call.collective : Call → Option Collective
  | .allGather _ _ => some .allGather
  | .barrier => some .barrier
  | .broadcast _ root => some (.broadcast root)
  | .createSubContext ranks => some (.createSubContext ranks)
  | .duplicate => some .duplicate
  | .split _ _ => some .split
  | .send _ _ _ | .ssend _ _ _ | .recv _ _ _ | .irecv _ _ _ | .snoopIncomingMsgSize _ _ => none

/-- The checks a call makes of its arguments. A call that fails one throws at once. -/
def Call.Accepted (context : KeyValueContext) : Call → Prop
  | .send _ rank _ | .ssend _ rank _ | .recv _ rank _ | .snoopIncomingMsgSize rank _
  | .broadcast _ rank => context.IsRank rank
  | .irecv size source _ => size ≤ 2 ^ 31 - 1 ∧ context.IsRank source
  | .allGather buffer recvSize => recvSize = buffer.length * context.members.length
  | .createSubContext ranks =>
    (∀ rank ∈ ranks, context.IsRank rank) ∧ (ranks.map context.member).Nodup
  | .barrier | .duplicate | .split _ _ => True

instance (context : KeyValueContext) (call : Call) : Decidable (call.Accepted context) := by
  cases call <;> unfold Call.Accepted <;> infer_instance

/-- The message of a send to `destination` under `tag`. -/
def Call.sent (destination tag : Int) : Call → Option Bytes
  | .send buffer destination' tag' | .ssend buffer destination' tag' =>
    if destination' = destination ∧ tag' = tag then some buffer else none
  | _ => none

/-- The buffer size of a receive from `source` under `tag`. -/
def Call.receives (source tag : Int) : Call → Option Nat
  | .recv size source' tag' | .irecv size source' tag' =>
    if source' = source ∧ tag' = tag then some size else none
  | _ => none

/-- A call and the object as the call found it. -/
abbrev Invocation := KeyValueContext × Call

/-- What `select` has to say of an accepted call. -/
def Invocation.chosen {α : Type} (select : Call → Option α) (invocation : Invocation) : Option α :=
  if invocation.2.Accepted invocation.1 then select invocation.2 else none

def Record.invocation (record : Record) : Invocation := (record.context, record.call)

/-- The receives from `source` under `tag` among some calls. -/
def receivesIn (source tag : Int) (records : List Record) : List Record :=
  records.filter fun record => (record.invocation.chosen (Call.receives source tag)).isSome

namespace Object

/-- All calls of an object in order, the one in progress last. -/
def calls (object : Object) : List Invocation :=
  object.past.map Record.invocation ++ object.current.toList.map fun running =>
    (object.context, running.call)

/-- The messages sent to `destination` under `tag`, in order. -/
def sends (object : Object) (destination tag : Int) : List Bytes :=
  object.calls.filterMap (Invocation.chosen (Call.sent destination tag))

/-- The returned receives from `source` under `tag`, in posting order. -/
def receives (object : Object) (source tag : Int) : List Record :=
  receivesIn source tag object.past

/-- The collective calls, in order. -/
def collectives (object : Object) : List Call :=
  object.calls.filterMap (Invocation.chosen fun call => call.collective.map fun _ => call)

/-- The returned collective calls, in order. -/
def returned (object : Object) : List Record :=
  object.past.filter fun record => (record.invocation.chosen Call.collective).isSome

end Object

/-- The bytes a finished receive found, or its exception; none while its task waits. -/
def Record.received (record : Record) : Option (Except String Bytes) :=
  match record.outcome with
  | .ok (.bytes buffer) => some (.ok buffer)
  | .ok (.request (.done result)) => some result
  | .ok _ => none
  | .error what => some (.error what)

/-- The context a call made. -/
def created : Except String Result → Option KeyValueContext
  | .ok (.context created) => created
  | _ => none

/-- The color of a split. -/
def Call.color : Call → Option Int32
  | .split color _ => some color
  | _ => none

/-- A new object for the context that a call made. -/
def Object.child (object : Object) (call : Call) (context : KeyValueContext) : Object where
  lineage := (object.returned.length, call.color) :: object.lineage
  context := context
  past := []
  current := none

/-- The steps of one object: the entry it puts, the object afterwards and the object it makes. -/
inductive Object.Step (undefinedColor : Int32) (store : String → Option Bytes) (object : Object) :
    Option (String × Bytes) → Object → Option Object → Prop where
  | call (call : Call) (idle : object.current = none) :
    Step undefinedColor store object none
      { object with current := some ⟨call, call.run undefinedColor object.context⟩ } none
  | act {running : Running} {entry} {action} (busy : object.current = some running)
      (step : running.action.Step store entry action) :
    Step undefinedColor store object entry
      { object with current := some { running with action := action } } none
  | task {place : Nat} {record : Record} {task entry task'}
      (posted : object.past[place]? = some record) (request : record.outcome = .ok (.request task))
      (step : task.Step store entry task') :
    Step undefinedColor store object entry
      { object with
        past := object.past.set place { record with outcome := .ok (.request task') } } none
  | finish {call : Call} {outcome} {context}
      (busy : object.current = some ⟨call, .done (outcome, context)⟩) :
    Step undefinedColor store object none
      { object with
        context := context
        past := object.past ++ [⟨object.context, call, outcome⟩]
        current := none }
      ((created outcome).map (object.child call))

/-- The store after a put. -/
def putEntry (store : String → Option Bytes) : Option (String × Bytes) → String → Option Bytes
  | none => store
  | some (key, value) => Function.update store key (some value)

/-- One step of one object of one process. -/
inductive System.Step (undefinedColor : Int32) (system : System) : System → Prop where
  | step {process place : Nat} {object object' : Object} {entry child}
      (chosen : (system.processes process)[place]? = some object)
      (step : object.Step undefinedColor system.store entry object' child) :
    Step undefinedColor system {
      store := putEntry system.store entry
      puts := system.puts ++ entry.toList
      processes := Function.update system.processes process
        ((system.processes process).set place object' ++ child.toList) }

/-- Every process of `size` has its root context. -/
def System.start (size : Nat) : System where
  store := fun _ => none
  puts := []
  processes process :=
    match makeKeyValueContext process size with
    | .ok context => [⟨[], context, [], none⟩]
    | .error _ => []

/-- The systems that `size` processes reach. -/
inductive System.Reachable (undefinedColor : Int32) (size : Nat) : System → Prop where
  | start : Reachable undefinedColor size (System.start size)
  | step {system system' : System} (reachable : Reachable undefinedColor size system)
      (step : system.Step undefinedColor system') : Reachable undefinedColor size system'

/-- What an object is to do next. -/
inductive Move where
  | call (call : Call)
  | act
  | task (place : Nat)
  | finish
  deriving DecidableEq

/-- One step of an object, if it can take it. -/
def Object.move (undefinedColor : Int32) (store : String → Option Bytes) (object : Object) :
    Move → Option (Option (String × Bytes) × Object × Option Object)
  | .call call =>
    match object.current with
    | none =>
      some (none, { object with current := some ⟨call, call.run undefinedColor object.context⟩ }, none)
    | some _ => none
  | .act => do
    let running ← object.current
    let (entry, action) ← running.action.advance store
    some (entry, { object with current := some { running with action := action } }, none)
  | .task place => do
    let record ← object.past[place]?
    match record.outcome with
    | .ok (.request task) =>
      let (entry, task') ← task.advance store
      some (entry, { object with
        past := object.past.set place { record with outcome := .ok (.request task') } }, none)
    | _ => none
  | .finish =>
    match object.current with
    | some ⟨call, .done (outcome, context)⟩ =>
      some (none, { object with
        context := context
        past := object.past ++ [⟨object.context, call, outcome⟩]
        current := none }, (created outcome).map (object.child call))
    | _ => none

/-- One step of one object of one process, if it can take it. -/
def System.move (undefinedColor : Int32) (system : System) (process place : Nat) (move : Move) :
    Option System := do
  let object ← (system.processes process)[place]?
  let (entry, object', child) ← object.move undefinedColor system.store move
  some {
    store := putEntry system.store entry
    puts := system.puts ++ entry.toList
    processes := Function.update system.processes process
      ((system.processes process).set place object' ++ child.toList) }

/-- A run under a schedule, each entry a process, one of its objects and a move. -/
def System.run (undefinedColor : Int32) (schedule : List (Nat × Nat × Move)) (system : System) :
    Option System :=
  schedule.foldlM (fun system turn => system.move undefinedColor turn.1 turn.2.1 turn.2.2) system

theorem Object.step_of_move {undefinedColor : Int32} {store : String → Option Bytes}
    {object object' : Object} {move : Move} {entry child}
    (taken : object.move undefinedColor store move = some (entry, object', child)) :
    object.Step undefinedColor store entry object' child := by
  cases move with
  | call call =>
    cases idle : object.current with
    | none =>
      simp only [Object.move, idle, Option.some.injEq, Prod.mk.injEq] at taken
      obtain ⟨rfl, rfl, rfl⟩ := taken
      exact .call call idle
    | some running => simp [Object.move, idle] at taken
  | act =>
    obtain ⟨running, busy, step⟩ := Option.bind_eq_some_iff.mp taken
    obtain ⟨⟨entry', action⟩, advanced, equal⟩ := Option.bind_eq_some_iff.mp step
    cases equal
    exact .act busy (Action.step_of_advance advanced)
  | task place =>
    obtain ⟨record, posted, step⟩ := Option.bind_eq_some_iff.mp taken
    split at step
    · rename_i task request
      obtain ⟨⟨entry', task'⟩, advanced, equal⟩ := Option.bind_eq_some_iff.mp step
      cases equal
      exact .task posted request (Action.step_of_advance advanced)
    · cases step
  | finish =>
    simp only [Object.move] at taken
    split at taken
    · rename_i call outcome context busy
      cases taken
      exact .finish busy
    · cases taken

section

variable {undefinedColor : Int32} {size : Nat} {system : System}
  (reachable : System.Reachable undefinedColor size system)
include reachable

/-- A computed run is a run. -/
theorem System.reachable_of_run {schedule : List (Nat × Nat × Move)} {system' : System}
    (ran : system.run undefinedColor schedule = some system') :
    System.Reachable undefinedColor size system' := by
  induction schedule generalizing system with
  | nil =>
    cases ran
    exact reachable
  | cons turn schedule ih =>
    obtain ⟨next, moved, rest⟩ := Option.bind_eq_some_iff.mp ran
    obtain ⟨object, chosen, step⟩ := Option.bind_eq_some_iff.mp moved
    obtain ⟨⟨entry, object', child⟩, taken, equal⟩ := Option.bind_eq_some_iff.mp step
    cases equal
    exact ih (.step reachable (.step chosen (Object.step_of_move taken))) rest

/-- Only processes of the group have objects. -/
theorem System.Reachable.process_lt {process : Nat} (outside : size ≤ process) :
    system.processes process = [] := by
  induction reachable with
  | start =>
    have refused : ¬(0 < size ∧ process < size) := by omega
    simp [System.start, makeKeyValueContext, refused]
  | @step system system' reachable taken ih =>
    obtain @⟨process', place, object, object', entry, child, chosen, step⟩ := taken
    have other : process ≠ process' := by
      rintro rfl
      simp [ih] at chosen
    simpa only [Function.update_of_ne other] using ih

end

namespace System

/-- An object of a process. -/
def Has (system : System) (process : Nat) (object : Object) : Prop :=
  object ∈ system.processes process

/-- If two objects belong to one context, one has called its collectives as the other has, as far
as both got. -/
def Agree (object object' : Object) : Prop :=
  object.lineage = object'.lineage →
    object.collectives.map Call.collective <+: object'.collectives.map Call.collective ∨
      object'.collectives.map Call.collective <+: object.collectives.map Call.collective

instance (object object' : Object) : Decidable (Agree object object') :=
  inferInstanceAs (Decidable (_ → _ ∨ _))

/-- Every context's members call its collectives in the same order. -/
def SameOrder (system : System) : Prop :=
  ∀ process process' object object', system.Has process object → system.Has process' object' →
    Agree object object'

/-- The object of the member with this rank in the same context. -/
def Peer (system : System) (object : Object) (rank : Int) (peer : Object) : Prop :=
  0 ≤ rank ∧ (∃ process, object.context.members[rank.toNat]? = some process ∧
    system.Has process peer) ∧ peer.lineage = object.lineage

/-- Every returned receive found the message with its number, which it copied into its buffer or
refused for its size. -/
def ReceivesMatch (system : System) : Prop :=
  ∀ process object, system.Has process object → ∀ source tag (n : Nat) (record : Record) size result,
    (object.receives source tag)[n]? = some record →
    record.call.receives source tag = some size → record.received = some result →
      ∃ sender message, system.Peer object source sender ∧
        (sender.sends object.context.rank tag)[n]? = some message ∧ result = copy message size

/-- A snoop reports the size of the message of the receive that comes next. -/
def SnoopsMatch (system : System) : Prop :=
  ∀ process object, system.Has process object → ∀ before (record : Record) after source tag size,
    object.past = before ++ record :: after → record.call = .snoopIncomingMsgSize source tag →
    record.outcome = .ok (.size size) →
      ∃ sender message, system.Peer object source sender ∧
        (sender.sends object.context.rank tag)[(receivesIn source tag before).length]? =
          some message ∧ size = message.length

/-- An `all_gather` returns the members' bytes of the same call in rank order. -/
def GathersMatch (system : System) : Prop :=
  ∀ process object, system.Has process object → ∀ (n : Nat) (record : Record) buffer recvSize gathered,
    object.returned[n]? = some record → record.call = .allGather buffer recvSize →
    record.outcome = .ok (.bytes gathered) →
      ∃ parts : List Bytes, gathered = parts.flatten ∧
        parts.length = object.context.members.length ∧
        ∀ (rank : Nat) part, parts[rank]? = some part → ∃ peer recvSize, system.Peer object rank peer ∧
          peer.collectives[n]? = some (.allGather part recvSize)

/-- A `barrier` returns after every member made the same call. -/
def BarriersMatch (system : System) : Prop :=
  ∀ process object, system.Has process object → ∀ (n : Nat) (record : Record),
    object.returned[n]? = some record → record.call = .barrier → record.outcome = .ok .nothing →
      ∀ rank < object.context.members.length, ∃ peer, system.Peer object rank peer ∧
        peer.collectives[n]? = some .barrier

/-- A `broadcast` returns the root's bytes of the same call. -/
def BroadcastsMatch (system : System) : Prop :=
  ∀ process object, system.Has process object → ∀ (n : Nat) (record : Record) buffer root bytes,
    object.returned[n]? = some record → record.call = .broadcast buffer root →
    record.outcome = .ok (.bytes bytes) →
      ∃ peer, system.Peer object root peer ∧ peer.collectives[n]? = some (.broadcast bytes root)

/-- Objects belong to one context exactly when their keys have one prefix; then they have the
same members, and no process has two. -/
def ContextsMatch (system : System) : Prop :=
  (∀ process, ((system.processes process).map Object.lineage).Nodup) ∧
    ∀ process process' object object', system.Has process object → system.Has process' object' →
      (object.lineage = object'.lineage ↔
        object.context.keyPrefix = object'.context.keyPrefix) ∧
      (object.lineage = object'.lineage → object.context.members = object'.context.members)

end System

end Libtt.KeyValue

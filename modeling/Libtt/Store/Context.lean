import Mathlib.Data.List.Sort
import Libtt.Foundation.ByteStream
import Libtt.Foundation.Interaction
import Libtt.Store.Keys

/-!
# Host coordination contexts

`key_value_context.cc` coordinates processes through a key-value store. A context is an object of
one process: its members, the process's rank among them, a key prefix and a counter for every
channel. An operation reads and advances the counters of its context, which no other process
sees, and puts and gets entries of the store. An exception leaves the counters as advanced. The
`std::size_t` counters are natural numbers here: no run makes 2^64 calls.
-/
namespace Libtt.KeyValue

open Libtt.Foundation

/-- The bytes of a buffer or a value. -/
abbrev Bytes := List UInt8

/-- `KeyValueContext`. The constructor's check is the last field. -/
structure KeyValueContext where
  members : List Nat
  globalRank : Nat
  rank : Nat
  keyPrefix : String
  /-- `sequences_`, zero where the map has no entry. -/
  sequences : String → Nat
  ranked : members[rank]? = some globalRank

/-- `MakeContext`. -/
def makeContext (members : List Nat) (globalRank : Nat) (keyPrefix : String) :
    Except String KeyValueContext :=
  if member : globalRank ∈ members then
    .ok {
      members, globalRank, keyPrefix
      rank := members.idxOf globalRank
      sequences := fun _ => 0
      ranked := by rw [List.getElem?_idxOf member] }
  else .error "Process is not a member of this context"

/-- `MakeKeyValueContext`, for a store that has both callbacks. -/
def makeKeyValueContext (rank size : Nat) : Except String KeyValueContext :=
  if 0 < size ∧ rank < size then makeContext (List.range size) rank "libtt/control"
  else .error "Invalid distributed process configuration"

/-- `sequences_[channel]++`. -/
def KeyValueContext.bump (context : KeyValueContext) (channel : String) : KeyValueContext :=
  { context with
    sequences := Function.update context.sequences channel (context.sequences channel + 1) }

/-- A member function: what it does with the store and the counters, until it returns or
throws. -/
def Operation (α : Type) : Type :=
  KeyValueContext → Action String Bytes (Except String α × KeyValueContext)

namespace Operation

variable {α β : Type}

instance : Monad Operation where
  pure result := fun context => .done (.ok result, context)
  bind first rest := fun context => (first context).bind fun
    | (.ok result, context) => rest result context
    | (.error what, context) => .done (.error what, context)

/-- The object itself. -/
def this : Operation KeyValueContext := fun context => .done (.ok context, context)

/-- A step that may throw. -/
def ofExcept (outcome : Except String α) : Operation α := fun context => .done (outcome, context)

/-- `Check`. -/
def check (condition : Prop) [Decidable condition] (message : String) : Operation Unit :=
  ofExcept (if condition then .ok () else .error message)

/-- `store_.put`. -/
def put (key : String) (value : Bytes) : Operation Unit :=
  fun context => .put key value (.done (.ok (), context))

/-- `store_.get`. -/
def get (key : String) : Operation Bytes :=
  fun context => .get key fun value => .done (.ok value, context)

@[simp] theorem bind_apply (first : Operation α) (rest : α → Operation β)
    (context : KeyValueContext) : (first >>= rest) context = (first context).bind fun
      | (.ok result, context) => rest result context
      | (.error what, context) => .done (.error what, context) := rfl

@[simp] theorem pure_apply (result : α) (context : KeyValueContext) :
    (pure result : Operation α) context = .done (.ok result, context) := rfl

@[simp] theorem this_apply (context : KeyValueContext) :
    this context = .done (.ok context, context) := rfl

@[simp] theorem ofExcept_apply (outcome : Except String α) (context : KeyValueContext) :
    ofExcept outcome context = .done (outcome, context) := rfl

@[simp] theorem check_apply (condition : Prop) [Decidable condition] (message : String)
    (context : KeyValueContext) : check condition message context =
      .done (if condition then .ok () else .error message, context) := rfl

@[simp] theorem put_apply (key : String) (value : Bytes) (context : KeyValueContext) :
    put key value context = .put key value (.done (.ok (), context)) := rfl

@[simp] theorem get_apply (key : String) (context : KeyValueContext) :
    get key context = .get key fun value => .done (.ok value, context) := rfl

end Operation

open Operation

/-- `Copy` into a buffer of `size` bytes: the bytes the buffer holds afterwards. -/
def copy (value : Bytes) (size : Nat) : Except String Bytes :=
  if value.length = size then .ok value else .error "Coordination message size mismatch"

/-- The condition of `ValidateRank`. -/
def KeyValueContext.IsRank (context : KeyValueContext) (rank : Int) : Prop :=
  0 ≤ rank ∧ rank < context.members.length

instance (context : KeyValueContext) (rank : Int) : Decidable (context.IsRank rank) :=
  inferInstanceAs (Decidable (_ ∧ _))

/-- `ValidateRank`. -/
def validateRank (rank : Int) : Operation Unit := do
  check ((← this).IsRank rank) "Coordination rank out of range"

/-- The number a counter has, advancing it unless it is only looked at. -/
def number (channel : String) (advance : Bool) : Operation Nat := fun context =>
  .done (.ok (context.sequences channel), if advance then context.bump channel else context)

/-- `Next`. -/
def next (channel : String) : Operation String := do
  let sequence ← number channel true
  return (← this).keyPrefix ++ "/" ++ channel ++ "/" ++ toString sequence

/-- `MessageKey`. -/
def messageKey (source destination tag : Int) (sending advance : Bool) : Operation String := do
  validateRank source
  validateRank destination
  let channel := "message/" ++ toString source ++ "/" ++ toString destination ++ "/" ++ toString tag
  let sequence ← number ((if sending then "send/" else "recv/") ++ channel) advance
  return (← this).keyPrefix ++ "/" ++ channel ++ "/" ++ toString sequence

def send (buffer : Bytes) (destination tag : Int) : Operation Unit := do
  let key ← messageKey (← this).rank destination tag true true
  put key buffer

def ssend (buffer : Bytes) (destination tag : Int) : Operation Unit := do
  let key ← messageKey (← this).rank destination tag true true
  put key buffer
  let _ ← get (key ++ "/ack")

/-- The value of an acknowledgement, `"1"`. -/
def ackBytes : Bytes := [49]

/-- The bytes `recv` fills a buffer of `size` bytes with. -/
def recv (size : Nat) (source tag : Int) : Operation Bytes := do
  let key ← messageKey source (← this).rank tag false true
  let buffer ← ofExcept (copy (← get key) size)
  put (key ++ "/ack") ackBytes
  return buffer

/-- The task of an `irecv`. -/
def receiveTask (key : String) (size : Nat) : Action String Bytes (Except String Bytes) :=
  .get key fun value =>
    match copy value size with
    | .ok buffer => .put (key ++ "/ack") ackBytes (.done (.ok buffer))
    | .error what => .done (.error what)

/-- `irecv` takes its key and starts a task. -/
def irecv (size : Nat) (source tag : Int) :
    Operation (Action String Bytes (Except String Bytes)) := do
  check (size ≤ 2 ^ 31 - 1) "Coordination message too large"
  let key ← messageKey source (← this).rank tag false true
  return receiveTask key size

def snoopIncomingMsgSize (source tag : Int) : Operation Nat := do
  let key ← messageKey source (← this).rank tag false false
  return (← get key).length

/-- One round of the loop of `all_gather`. -/
def gatherPart (key : String) (size : Nat) (recv : Bytes) (i : Nat) : Operation Bytes := do
  let part ← ofExcept (copy (← get (key ++ toString i)) size)
  return recv ++ part

/-- `all_gather` into a buffer of `recvSize` bytes. -/
def allGather (send : Bytes) (recvSize : Nat) : Operation Bytes := do
  let members := (← this).members
  check (recvSize = send.length * members.length) "Invalid all_gather receive buffer size"
  if members.length = 1 then ofExcept (copy send recvSize)
  else
    let key := (← next "collective") ++ "/all_gather/"
    put (key ++ toString (← this).rank) send
    (List.range members.length).foldlM (gatherPart key send.length) []

def barrier : Operation Unit := do
  let _ ← allGather [1] (← this).members.length

/-- The bytes of the buffer after `broadcast`. -/
def broadcast (buffer : Bytes) (root : Int) : Operation Bytes := do
  validateRank root
  if (← this).members.length = 1 then return buffer
  let key := (← next "collective") ++ "/broadcast/" ++ toString root
  if ((← this).rank : Int) = root then
    put key buffer
    return buffer
  else ofExcept (copy (← get key) buffer.length)

/-- `members_[rank]`. -/
def KeyValueContext.member (context : KeyValueContext) (rank : Int) : Nat :=
  context.members[rank.toNat]!

/-- The loop of `create_sub_context`: the members and the channel of the group. -/
def addRank (group : List Nat × String) (rank : Int) : Operation (List Nat × String) := do
  validateRank rank
  let member := (← this).member rank
  check (member ∉ group.1) "Duplicate rank in subgroup"
  return (group.1 ++ [member], group.2 ++ "/" ++ toString rank)

/-- `create_sub_context`; none is the null pointer. -/
def createSubContext (ranks : List Int) : Operation (Option KeyValueContext) := do
  let (members, group) ← ranks.foldlM addRank ([], "group")
  if (← this).globalRank ∈ members then
    return some (← ofExcept (makeContext members (← this).globalRank (← next group)))
  else return none

def duplicate : Operation (Option KeyValueContext) := do
  let context ← this
  return some (← ofExcept (makeContext context.members context.globalRank (← next "duplicate")))

/-- The bytes of one `int`. -/
def intBytes (value : Int32) : Bytes := littleEndianBytes 4 value.toUInt32.toNat

/-- One `int` from its bytes. -/
def intOf (bytes : Bytes) : Int32 := (UInt32.ofNat (littleEndian bytes)).toInt32

/-- The bytes of `std::array<int, 2>`. -/
def pairBytes (color key : Int32) : Bytes := intBytes color ++ intBytes key

/-- `values[i]` of gathered arrays. -/
def pairAt (values : Bytes) (i : Nat) : Int32 × Int32 :=
  (intOf ((values.drop (8 * i)).take 4), intOf ((values.drop (8 * i + 4)).take 4))

/-- The ranks of one color, stably sorted by key. -/
def splitRanks (values : Bytes) (size : Nat) (color : Int32) : List Int :=
  (((List.range size).filter fun i => (pairAt values i).1 = color).insertionSort
    fun a b => (pairAt values a).2 ≤ (pairAt values b).2).map Int.ofNat

/-- `split`. The color of a process that joins no context is defined outside this repository. -/
def split (undefinedColor color key : Int32) : Operation (Option KeyValueContext) := do
  let size := (← this).members.length
  let values ← allGather (pairBytes color key) (8 * size)
  if color = undefinedColor then return none
  createSubContext (splitRanks values size color)

/-- The position of a process among the members, or -1. -/
def KeyValueContext.position (target : KeyValueContext) (process : Nat) : Int :=
  if process ∈ target.members then target.members.idxOf process else -1

/-- One round of the loop of `translate_ranks_to_other_ctx`. -/
def translateRank (target : KeyValueContext) (translated : List Int) (rank : Int) :
    Operation (List Int) := do
  validateRank rank
  return translated ++ [target.position ((← this).member rank)]

/-- `translate_ranks_to_other_ctx` into a span of `size` ranks. The other context is none if it is
null or of another class. -/
def translateRanksToOtherCtx (ranks : List Int) (other : Option KeyValueContext) (size : Nat) :
    Operation (List Int) := do
  match other with
  | some target =>
    check (ranks.length = size) "Invalid context rank translation"
    ranks.foldlM (translateRank target) []
  | none => ofExcept (.error "Invalid context rank translation")

/-- A call of a member function with its arguments; a receive buffer is its size. -/
inductive Call where
  | send (buffer : Bytes) (destination tag : Int)
  | ssend (buffer : Bytes) (destination tag : Int)
  | recv (size : Nat) (source tag : Int)
  | irecv (size : Nat) (source tag : Int)
  | snoopIncomingMsgSize (source tag : Int)
  | allGather (buffer : Bytes) (recvSize : Nat)
  | barrier
  | broadcast (buffer : Bytes) (root : Int)
  | createSubContext (ranks : List Int)
  | duplicate
  | split (color key : Int32)
  deriving DecidableEq

/-- What a call returns or leaves in its buffer. -/
inductive Result where
  | nothing
  | bytes (buffer : Bytes)
  | request (task : Action String Bytes (Except String Bytes))
  | size (bytes : Nat)
  | context (created : Option KeyValueContext)

/-- The member function of a call. -/
def Call.run (undefinedColor : Int32) : Call → Operation Result
  | .send buffer destination tag => do
    KeyValue.send buffer destination tag
    return .nothing
  | .ssend buffer destination tag => do
    KeyValue.ssend buffer destination tag
    return .nothing
  | .recv size source tag => return .bytes (← KeyValue.recv size source tag)
  | .irecv size source tag => return .request (← KeyValue.irecv size source tag)
  | .snoopIncomingMsgSize source tag => return .size (← KeyValue.snoopIncomingMsgSize source tag)
  | .allGather buffer recvSize => return .bytes (← KeyValue.allGather buffer recvSize)
  | .barrier => do
    KeyValue.barrier
    return .nothing
  | .broadcast buffer root => return .bytes (← KeyValue.broadcast buffer root)
  | .createSubContext ranks => return .context (← KeyValue.createSubContext ranks)
  | .duplicate => return .context (← KeyValue.duplicate)
  | .split color key => return .context (← KeyValue.split undefinedColor color key)

end Libtt.KeyValue

import Libtt.Store.Tcp
import Libtt.Foundation.SharedStore

/-!
# Programs over the TCP key-value store

Every participant runs a program that puts and gets one entry after another, each over a connection
of its own, which a thread of the server serves. What the connections carry arrives in pieces of any
sizes, in any order among the connections. A client that throws takes no more steps, while the
server may still receive its request. A connection may be lost at any time, by a failure or by a
close that is not directly behind the length header of a string; then nothing more arrives.
-/
namespace Libtt.TcpKeyValueStore

open Libtt.Foundation
open Arrival (delivered)

/-- A string of a 64-bit machine. -/
abbrev Text := { bytes : Bytes // bytes.length < 2 ^ 64 }

/-- What a participant still has to do. -/
abbrev Program (α : Type) := Action Text Text α

/-- The operation byte of a get, `'G'`. -/
def getByte : UInt8 := 71

/-- The reply byte of a get that timed out, `'T'`. -/
def timeoutByte : UInt8 := 84

/-- What the client writes for a request. -/
def Request.bytes : Request → Bytes
  | .put key value => putByte :: (stringBytes key ++ stringBytes value)
  | .get key => getByte :: stringBytes key

/-- What the server writes once it has applied a request; none while a get waits. -/
def Request.answer (values : Values) : Request → Option Bytes
  | .put _ _ => some [okByte]
  | .get key => (values key).map getReply

/-- The exchange of one request. -/
inductive Exchange where
  /-- The thread of the server has received these pieces of the request. -/
  | request (arrived : List Arrival)
  /-- The server has this answer to write, of which these pieces have arrived. -/
  | answer (bytes : Bytes) (arrived : List Arrival)

variable {Participant α : Type} [DecidableEq Participant] {limit : Nat}

/-- The request that a program makes next. -/
def nextRequest : Program α → Option Request
  | .done _ => none
  | .put key value _ => some (.put key.1 value.1)
  | .get key _ => some (.get key.1)

/-- `Client::Put` and `Client::Get` behind their requests: how a program goes on after an answer,
where they do not throw. -/
def continued (limit : Nat) (arrived : List Arrival) :
    Program α → Option (Program α)
  | .done _ => none
  | .put _ _ next => (expect okByte arrived).toOption.map fun _ => next
  | .get _ next => (clientGet limit arrived).toOption.bind fun value =>
      if fits : value.length < 2 ^ 64 then some (next ⟨value, fits⟩) else none

/-- The server's map, and of each participant what it still has to do and the exchange it is in. -/
structure TcpSystem (Participant α : Type) where
  values : Values
  program : Participant → Program α
  exchange : Participant → Option Exchange

namespace TcpSystem

/-- The system with another exchange. -/
def exchanging (system : TcpSystem Participant α) (who : Participant) (exchange : Option Exchange) :
    TcpSystem Participant α :=
  { system with exchange := Function.update system.exchange who exchange }

/-- One step of a client (`Client::Put`, `Client::Get`), of its thread of the server
(`Server::Serve`) or of the network. -/
inductive Step (limit : Nat) (system : TcpSystem Participant α) :
    TcpSystem Participant α → Prop where
  | connect {who request} (idle : system.exchange who = none)
      (makes : nextRequest (system.program who) = some request) :
    Step limit system (system.exchanging who (some (.request [])))
  | receive {who request arrived} (piece : Arrival)
      (waits : system.exchange who = some (.request arrived))
      (makes : nextRequest (system.program who) = some request)
      (sent : delivered (arrived ++ [piece]) <+: request.bytes) :
    Step limit system (system.exchanging who (some (.request (arrived ++ [piece]))))
  | serve {who request arrived answer rest}
      (waits : system.exchange who = some (.request arrived))
      (received : completeRequest limit (delivered arrived) = some (request, rest))
      (answers : request.answer system.values = some answer) :
    Step limit system
      { system.exchanging who (some (.answer answer [])) with
        values := request.apply system.values }
  | timeOut {who arrived key rest}
      (waits : system.exchange who = some (.request arrived))
      (received : completeRequest limit (delivered arrived) = some (.get key, rest))
      (absent : system.values key = none) :
    Step limit system (system.exchanging who (some (.answer [timeoutByte] [])))
  | answer {who bytes arrived} (piece : Arrival)
      (waits : system.exchange who = some (.answer bytes arrived))
      (sent : delivered (arrived ++ [piece]) <+: bytes) :
    Step limit system (system.exchanging who (some (.answer bytes (arrived ++ [piece]))))
  | finish {who bytes arrived next}
      (waits : system.exchange who = some (.answer bytes arrived))
      (whole : delivered arrived = bytes)
      (continues : continued limit arrived (system.program who) = some next) :
    Step limit system
      { system.exchanging who none with program := Function.update system.program who next }

/-- An empty map, and programs that have not begun. -/
def start (program : Participant → Program α) : TcpSystem Participant α :=
  ⟨fun _ => none, program, fun _ => none⟩

/-- What some programs reach in any order of steps. -/
def Reachable (limit : Nat) (program : Participant → Program α)
    (system : TcpSystem Participant α) : Prop :=
  Relation.ReflTransGen (Step limit) (start program) system

end TcpSystem

/-! ## Requests and answers -/

/-- A complete string at the front of a part of an encoded one and more is that string. -/
theorem completeString_part {value tail cut got rest : Bytes} (fits : value.length < 2 ^ 64)
    (part : cut <+: stringBytes value ++ tail)
    (complete : completeString limit cut = some (got, rest)) : got = value ∧ rest <+: tail := by
  obtain ⟨more, whole⟩ := part
  simp only [completeString] at complete
  split at complete
  · rename_i enough
    obtain ⟨rfl, rfl⟩ := Prod.mk.inj (Option.some.inj complete)
    have head : cut.take 8 = header value := by
      have taken := congrArg (List.take 8) whole
      rwa [List.take_append_of_le_length enough.1, stringBytes, List.append_assoc,
        List.take_left' (length_header value)] at taken
    have body : cut.drop 8 ++ more = value ++ tail := by
      have dropped := congrArg (List.drop 8) whole
      rwa [List.drop_append_of_le_length enough.1, stringBytes, List.append_assoc,
        List.drop_left' (length_header value)] at dropped
    rw [head, littleEndian_header fits] at enough ⊢
    have length : value.length ≤ (cut.drop 8).length := by
      rw [List.length_drop]
      omega
    constructor
    · have taken := congrArg (List.take value.length) body
      rwa [List.take_append_of_le_length length, List.take_left] at taken
    · have dropped := congrArg (List.drop value.length) body
      rw [List.drop_append_of_le_length length, List.drop_left] at dropped
      exact ⟨more, dropped⟩
  · contradiction

/-- A complete request at the front of a part of a program's request is that request. -/
theorem completeRequest_part {action : Program α} {request got : Request} {cut rest : Bytes}
    (makes : nextRequest action = some request) (part : cut <+: request.bytes)
    (complete : completeRequest limit cut = some (got, rest)) : got = request := by
  cases cut with
  | nil => cases complete
  | cons op cut =>
    rw [completeRequest] at complete
    split at complete
    · contradiction
    rename_i key afterKey isKey
    cases action with
    | done result => cases makes
    | put ownKey ownValue next =>
      cases makes
      obtain ⟨rfl, strings⟩ := List.cons_prefix_cons.mp part
      obtain ⟨rfl, last⟩ := completeString_part ownKey.2 strings isKey
      rw [if_pos rfl] at complete
      split at complete
      · contradiction
      rename_i value afterValue isValue
      rw [← List.append_nil (stringBytes _)] at last
      obtain ⟨rfl, -⟩ := completeString_part ownValue.2 last isValue
      exact (Prod.mk.inj (Option.some.inj complete)).1.symm
    | get ownKey next =>
      cases makes
      obtain ⟨rfl, string⟩ := List.cons_prefix_cons.mp part
      rw [← List.append_nil (stringBytes _)] at string
      obtain ⟨rfl, -⟩ := completeString_part ownKey.2 string isKey
      rw [if_neg (by decide)] at complete
      exact (Prod.mk.inj (Option.some.inj complete)).1.symm

/-- What a client gets out of a whole answer is the value it carries. -/
theorem clientGet_whole {value : Text} {arrived : List Arrival} {got : Bytes}
    (whole : delivered arrived = getReply value.1)
    (isGot : clientGet limit arrived = .ok got) : got = value.1 := by
  have isPrefix : delivered arrived <+: getReply value.1 := by rw [whole]
  have cut := clientGet_cut limit value.2 isPrefix
  split at cut
  · rename_i alone
    have lengths := congrArg List.length (whole.symm.trans alone.2.1)
    simp only [getReply, stringBytes, List.length_cons, List.length_append, length_header]
      at lengths
    omega
  · exact cut got isGot

/-- The client throws at another reply byte. -/
theorem expect_timeout {arrived : List Arrival}
    (whole : delivered arrived = [timeoutByte]) :
    expect okByte arrived = .error "failed or timed out" := by
  obtain ⟨rest, isRead, -⟩ := read_complete [] 1 arrived (by simp [whole])
  rw [whole] at isRead
  simp only [expect, isRead]
  rfl

/-- An exchange of an idle participant can run to its end, whatever the others are in. -/
theorem TcpSystem.completes (system : TcpSystem Participant α) (who : Participant)
    (request : Request) {next : Program α} (reply : Bytes) (idle : system.exchange who = none)
    (makes : nextRequest (system.program who) = some request)
    (parses : completeRequest limit request.bytes = some (request, []))
    (answers : request.answer system.values = some (okByte :: reply))
    (continues : continued limit [.bytes okByte reply] (system.program who) = some next) :
    Relation.ReflTransGen (Step limit) system ⟨request.apply system.values,
      Function.update system.program who next, system.exchange⟩ := by
  obtain ⟨op, rest, isBytes⟩ : ∃ op rest, request.bytes = op :: rest := by
    cases request <;> exact ⟨_, _, rfl⟩
  have sent : delivered ([] ++ [.bytes op rest]) = request.bytes := by simp [delivered, isBytes]
  have connected : Step limit system (system.exchanging who (some (.request []))) :=
    .connect idle makes
  have run := ((((Relation.ReflTransGen.single connected).tail
    (Step.receive (.bytes op rest) (Function.update_self ..) makes (by rw [sent]))).tail
    (Step.serve (Function.update_self ..) (by rw [sent]; exact parses) answers)).tail
    (Step.answer (.bytes okByte reply) (Function.update_self ..) (by simp [delivered]))).tail
    (Step.finish (Function.update_self ..) (by simp [delivered]) continues)
  simpa only [exchanging, Function.update_idem, ← idle, Function.update_eq_self] using run

/-! ## The TCP store is a shared store -/

/-- What a program of the shared store has to do while the same program over its connections has to
do `action`: the shared store takes its step when the server applies the request. -/
def Stands (action : Program α) : Option Exchange → Program α → Prop
  | none, shared => shared = action
  | some (.request arrived), shared => shared = action ∧
      ∃ request, nextRequest action = some request ∧ delivered arrived <+: request.bytes
  | some (.answer bytes _), shared => bytes = [timeoutByte] ∧ shared = action ∨
      match action with
      | .done _ => False
      | .put _ _ next => bytes = [okByte] ∧ shared = next
      | .get _ next => ∃ value : Text, bytes = getReply value.1 ∧ shared = next value

/-- The system stands where the shared store does. -/
structure Implements (system : TcpSystem Participant α)
    (shared : SharedStore Participant Text Text α) : Prop where
  entries : ∀ key : Text, system.values key.1 = (shared.store key).map Subtype.val
  stands : ∀ who, Stands (system.program who) (system.exchange who) (shared.program who)

/-- A program goes on as the shared store has it. -/
theorem Stands.finish {action shared next : Program α} {bytes : Bytes}
    {arrived : List Arrival} (stands : Stands action (some (.answer bytes arrived)) shared)
    (whole : delivered arrived = bytes)
    (continues : continued limit arrived action = some next) : shared = next := by
  rcases stands with ⟨rfl, -⟩ | stands
  · have throws := expect_timeout whole
    cases action <;> simp [continued, clientGet, throws, Except.toOption] at continues
  · cases action with
    | done result => cases continues
    | put key value rest =>
      obtain ⟨_, -, rfl⟩ := Option.map_eq_some_iff.mp continues
      exact stands.2
    | get key rest =>
      obtain ⟨value, rfl, rfl⟩ := stands
      rw [continued] at continues
      cases isGot : clientGet limit arrived with
      | error what =>
        rw [isGot] at continues
        cases continues
      | ok got =>
        obtain rfl := clientGet_whole whole isGot
        rw [isGot] at continues
        simp only [Except.toOption, Option.bind_some, value.2, dif_pos, Option.some.injEq]
          at continues
        exact continues

namespace Implements

variable {system : TcpSystem Participant α} {shared : SharedStore Participant Text Text α}
  {who : Participant} {exchange : Option Exchange}

omit [DecidableEq Participant] in
theorem standing (implements : Implements system shared) (waits : system.exchange who = exchange) :
    Stands (system.program who) exchange (shared.program who) :=
  waits ▸ implements.stands who

/-- One participant stands elsewhere, in the shared store too. -/
theorem moved (implements : Implements system shared) (who : Participant)
    {action next : Program α} (stands : Stands action exchange next)
    (other : Participant) :
    Stands (Function.update system.program who action other)
      (Function.update system.exchange who exchange other)
      (Function.update shared.program who next other) := by
  by_cases same : other = who
  · subst same
    simpa using stands
  · simpa [Function.update_of_ne same] using implements.stands other

/-- An exchange goes on that the shared store does not see. -/
theorem exchanging (implements : Implements system shared)
    (stands : Stands (system.program who) exchange (shared.program who)) :
    Implements (system.exchanging who exchange) shared := by
  refine ⟨implements.entries, fun other => ?_⟩
  have moved := implements.moved who stands other
  rwa [Function.update_eq_self, Function.update_eq_self] at moved

/-- The server applies the request of a participant, and the shared store takes its step. -/
theorem serve (implements : Implements system shared) {request : Request} {answer : Bytes}
    (makes : nextRequest (system.program who) = some request)
    (same : shared.program who = system.program who)
    (answers : request.answer system.values = some answer) :
    ∃ next, shared.Step next ∧ Implements
      { system.exchanging who (some (.answer answer [])) with
        values := request.apply system.values } next := by
  have moved {next : Program α}
      (stands : Stands (system.program who) (some (.answer answer [])) next)
      (other : Participant) :=
    implements.moved who stands other
  simp only [Function.update_eq_self] at moved
  cases program : system.program who with
  | done result =>
    rw [program] at makes
    cases makes
  | put key value next =>
    rw [program] at makes same moved
    cases makes
    cases answers
    have taken : (shared.program who).Step shared.store (some (key, value)) next := by
      rw [same]
      exact .put
    refine ⟨_, .step who taken, fun other => ?_, moved (.inr ⟨rfl, rfl⟩)⟩
    by_cases equal : other = key
    · subst equal
      simp [SharedStore.putEntry, Request.apply]
    · have different : other.1 ≠ key.1 := fun equal' => equal (Subtype.ext equal')
      simpa [SharedStore.putEntry, Request.apply, Function.update_of_ne, equal, different]
        using implements.entries other
  | get key next =>
    rw [program] at makes same moved
    cases makes
    obtain ⟨found, present, rfl⟩ := Option.map_eq_some_iff.mp answers
    rw [implements.entries key] at present
    obtain ⟨value, stored, rfl⟩ := Option.map_eq_some_iff.mp present
    have taken : (shared.program who).Step shared.store none (next value) := by
      rw [same]
      exact .get stored
    exact ⟨_, .step who taken, implements.entries, moved (.inr ⟨value, rfl, rfl⟩)⟩

/-- Every step of the system is one of the shared store, or none. -/
theorem step (implements : Implements system shared) {next : TcpSystem Participant α}
    (step : system.Step limit next) :
    ∃ shared', Relation.ReflTransGen SharedStore.Step shared shared' ∧
      Implements next shared' := by
  cases step with
  | connect idle makes =>
    have stands := implements.standing idle
    exact ⟨shared, .refl, implements.exchanging ⟨stands, _, makes, List.nil_prefix⟩⟩
  | receive piece waits makes sent =>
    exact ⟨shared, .refl, implements.exchanging ⟨(implements.standing waits).1, _, makes, sent⟩⟩
  | serve waits received answers =>
    obtain ⟨same, request, makes, part⟩ := implements.standing waits
    obtain rfl := completeRequest_part makes part received
    obtain ⟨shared', taken, implements⟩ := implements.serve makes same answers
    exact ⟨shared', .single taken, implements⟩
  | timeOut waits =>
    exact ⟨shared, .refl, implements.exchanging (.inl ⟨rfl, (implements.standing waits).1⟩)⟩
  | answer piece waits =>
    have stands := implements.standing waits
    exact ⟨shared, .refl, implements.exchanging stands⟩
  | @finish who _ _ next waits whole continues =>
    have stands : Stands next none (shared.program who) :=
      (implements.standing waits).finish whole continues
    refine ⟨shared, .refl, implements.entries, fun other => ?_⟩
    have moved := implements.moved who stands other
    rwa [Function.update_eq_self] at moved

end Implements

/-- Over connections whose pieces, losses and timeouts come in any order, the programs do what they
do on a shared store: the server's map is a store that they reach there, and a program that has
ended over its connections has ended there, with the same result. -/
theorem tcp_store_refines_shared_store (program : Participant → Program α) (limit : Nat)
    (system : TcpSystem Participant α) (reached : TcpSystem.Reachable limit program system) :
    ∃ shared, SharedStore.Reachable program shared ∧
      (∀ key : Text, system.values key.1 = (shared.store key).map Subtype.val) ∧
      ∀ who result, system.program who = .done result → shared.program who = .done result := by
  obtain ⟨shared, isReached, implements⟩ :
      ∃ shared, SharedStore.Reachable program shared ∧ Implements system shared := by
    induction reached with
    | refl => exact ⟨.start program, .refl, fun _ => rfl, fun _ => rfl⟩
    | tail _ step ih =>
      obtain ⟨shared, isReached, implements⟩ := ih
      obtain ⟨shared', taken, implements⟩ := implements.step step
      exact ⟨shared', isReached.trans taken, implements⟩
  refine ⟨shared, isReached, implements.entries, fun who result ended => ?_⟩
  have stands := implements.stands who
  rw [ended] at stands
  revert stands
  rcases system.exchange who with _ | _ | _
  · exact id
  · exact And.left
  · rintro (⟨-, same⟩ | never)
    · exact same
    · exact never.elim

/-- The theorem at a put that ends. -/
theorem tcp_store_refines_shared_store_put :
    ∃ (key value : Text) (shared : SharedStore Unit Text Text Unit),
      SharedStore.Reachable (fun _ => .put key value (.done ())) shared ∧
        shared.store key = some value ∧ shared.program () = .done () := by
  let key : Text := ⟨[107], by decide⟩
  let value : Text := ⟨[1], by decide⟩
  obtain ⟨shared, reached, entries, ended⟩ :=
    tcp_store_refines_shared_store (fun _ => .put key value (.done ())) 100 _
      (TcpSystem.completes _ () (.put key.1 value.1) [] rfl rfl (by decide) rfl rfl)
  refine ⟨key, value, shared, reached, ?_, ended () () rfl⟩
  have stored : (some value).map Subtype.val = (shared.store key).map Subtype.val := entries key
  exact (Option.map_injective Subtype.val_injective stored).symm

/-- From any state, a participant between two operations can finish the next one, whatever the
others are doing: a put always, and a get once its key is there. -/
theorem tcp_operations_can_end (limit : Nat) (system : TcpSystem Participant α) (who : Participant)
    (idle : system.exchange who = none) (key value : Text) (keySmall : key.1.length ≤ limit)
    (valueSmall : value.1.length ≤ limit) :
    (∀ next, system.program who = .put key value next →
      Relation.ReflTransGen (TcpSystem.Step limit) system
        ⟨Function.update system.values key.1 (some value.1),
          Function.update system.program who next, system.exchange⟩) ∧
    ∀ next, system.program who = .get key next → system.values key.1 = some value.1 →
      Relation.ReflTransGen (TcpSystem.Step limit) system
        ⟨system.values, Function.update system.program who (next value), system.exchange⟩ := by
  have keyParses := completeString_stringBytes keySmall key.2
  have valueParses := completeString_stringBytes valueSmall value.2 []
  rw [List.append_nil] at valueParses
  constructor
  · intro next isPut
    refine system.completes who (.put key.1 value.1) [] idle (by rw [isPut]; rfl) ?_ rfl
      (by rw [isPut]; rfl)
    simp [Request.bytes, completeRequest, keyParses, valueParses]
  · intro next isGet present
    refine system.completes who (.get key.1) (stringBytes value.1) idle (by rw [isGet]; rfl) ?_
      (by simp [Request.answer, present, getReply]) ?_
    · have keyAlone := keyParses []
      rw [List.append_nil] at keyAlone
      simp [Request.bytes, completeRequest, keyAlone, getByte, putByte]
    · have whole : delivered [.bytes okByte (stringBytes value.1)] = getReply value.1 := by
        simp [delivered, getReply]
      have reply := expect_cut (by rw [whole])
      rw [whole, if_neg (by simp [getReply])] at reply
      obtain ⟨rest, accepted, bytes, -⟩ := reply
      rw [(List.cons.inj bytes).2] at valueParses
      obtain ⟨after, isRead, -⟩ := readString_complete limit rest valueParses
      have got : clientGet limit [.bytes okByte (stringBytes value.1)] = .ok value.1 := by
        simp only [clientGet, accepted, isRead]
      rw [isGet, continued, got]
      exact dif_pos value.2

/-- The theorem at a get of a key that was put. -/
theorem tcp_operations_can_end_get :
    ∃ (key value : Text) (system : TcpSystem Unit Text), system.program () = .get key .done ∧
      ∃ after, Relation.ReflTransGen (TcpSystem.Step 100) system after ∧
        after.program () = .done value := by
  let key : Text := ⟨[107], by decide⟩
  let value : Text := ⟨[1], by decide⟩
  let system : TcpSystem Unit Text :=
    ⟨fun _ => some value.1, fun _ => .get key .done, fun _ => none⟩
  exact ⟨key, value, system, rfl, _, (tcp_operations_can_end 100 system () rfl key value (by decide)
    (by decide)).2 .done rfl rfl, rfl⟩

end Libtt.TcpKeyValueStore

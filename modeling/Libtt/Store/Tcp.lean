import Libtt.Foundation.ByteStream

/-!
# The TCP key-value store

`tcp_key_value_store.cc` frames requests over a connection that delivers bytes in pieces and may
close anywhere. A read that meets the close before its first byte returns false; later, it
throws. The server thread of a connection is a loop over requests that ends with the first
exception. Strings longer than `limit` cannot be allocated, and `replies` says which replies the
server manages to send; a failing send throws as well.
-/

namespace Libtt.TcpKeyValueStore

open Libtt.Foundation

variable {value : Bytes} {input afterOp afterKey : List Arrival} {limit number : Nat}
  {replies : Nat → Bool}

/-- A `std::string` of the store. -/
abbrev Bytes := List UInt8

/-- `values_`. -/
abbrev Values := Bytes → Option Bytes

/-- `Connection::Read` with `left` bytes still to come after `done`: the bytes, or none when the
peer closed before the first. Each `recv` takes what its piece has of the bytes wanted, so a
piece that has them all ends the loop. -/
def read (done : Bytes) (left : Nat) : List Arrival → Except String (Option Bytes × List Arrival)
  | [] =>
    if left = 0 then .ok (some done, [])
    else if done = [] then .ok (none, [])
    else .error "Key-value store connection closed"
  | .interrupted :: rest =>
    if left = 0 then .ok (some done, .interrupted :: rest) else read done left rest
  | .failed :: rest =>
    if left = 0 then .ok (some done, .failed :: rest) else .error "Key-value store read failed"
  | .bytes head tail :: rest =>
    if left ≤ tail.length then
      .ok (some (done ++ (head :: tail).take left), Arrival.keep ((head :: tail).drop left) rest)
    else read (done ++ head :: tail) (left - (tail.length + 1)) rest

/-- `Connection::ReadString`. The second read fills a string of zero bytes, and whether it got
any is not looked at. -/
def readString (limit : Nat) (input : List Arrival) : Except String (Bytes × List Arrival) :=
  match read [] 8 input with
  | .error what => .error what
  | .ok (none, _) => .error "Key-value store connection closed"
  | .ok (some header, rest) =>
    if littleEndian header ≤ limit then
      match read [] (littleEndian header) rest with
      | .error what => .error what
      | .ok (none, rest) => .ok (List.replicate (littleEndian header) 0, rest)
      | .ok (some value, rest) => .ok (value, rest)
    else .error "basic_string"

/-- The length header of a string, its size as 64 bits. -/
def header (value : Bytes) : Bytes := littleEndianBytes 8 value.length

/-- What `Connection::WriteString` sends. -/
def stringBytes (value : Bytes) : Bytes := header value ++ value

@[simp] theorem length_header (value : Bytes) : (header value).length = 8 :=
  length_littleEndianBytes 8 value.length

/-- A header holds the size of every string that a machine can address. -/
theorem littleEndian_header (fits : value.length < 2 ^ 64) :
    littleEndian (header value) = value.length :=
  littleEndian_bytes 8 value.length (Nat.lt_of_lt_of_eq fits (by decide))

/-- The operation byte of a put, `'P'`. -/
def putByte : UInt8 := 80

/-- The reply byte of a request that succeeded, `'K'`. -/
def okByte : UInt8 := 75

/-- Reading leaves no more than there was, and less once a byte was read. -/
theorem weight_read {done : Bytes} {left : Nat} {rest : List Arrival} {result : Option Bytes}
    (isRead : read done left input = .ok (result, rest)) :
    Arrival.weight rest ≤ Arrival.weight input ∧
      (result.isSome → 0 < left → Arrival.weight rest < Arrival.weight input) := by
  induction input generalizing done left with
  | nil =>
    rw [read] at isRead
    split at isRead
    · obtain ⟨rfl, rfl⟩ := Prod.mk.inj (Except.ok.inj isRead)
      exact ⟨Nat.le_refl _, fun _ _ => by omega⟩
    · split at isRead
      · obtain ⟨rfl, rfl⟩ := Prod.mk.inj (Except.ok.inj isRead)
        exact ⟨Nat.le_refl _, fun some => by simp at some⟩
      · contradiction
  | cons arrival later ih =>
    by_cases finished : left = 0
    · have same : rest = arrival :: later := by
        cases arrival <;> simp [read, finished, Arrival.keep] at isRead <;> exact isRead.2.symm
      exact ⟨Nat.le_of_eq (by rw [same]), fun _ _ => by omega⟩
    cases arrival with
    | interrupted =>
      have inner := ih (by simpa [read, finished] using isRead)
      simp only [Arrival.weight]
      exact ⟨by omega, fun _ _ => by omega⟩
    | failed => simp [read, finished] at isRead
    | bytes head tail =>
      rw [read] at isRead
      split at isRead
      · obtain ⟨rfl, rfl⟩ := Prod.mk.inj (Except.ok.inj isRead)
        have kept := Arrival.weight_keep_le ((head :: tail).drop left) later
        simp only [Arrival.weight, List.length_drop, List.length_cons] at kept ⊢
        exact ⟨by omega, fun _ _ => by omega⟩
      · have inner := ih isRead
        simp only [Arrival.weight]
        exact ⟨by omega, fun _ _ => by omega⟩

/-- Reading a string leaves no more than there was. -/
theorem weight_readString {rest : List Arrival}
    (isRead : readString limit input = .ok (value, rest)) :
    Arrival.weight rest ≤ Arrival.weight input := by
  unfold readString at isRead
  split at isRead
  · contradiction
  · contradiction
  rename_i header afterHeader isHeader
  have first := (weight_read isHeader).1
  split at isRead
  · split at isRead
    · contradiction
    all_goals
      rename_i isBody
      have second := (weight_read isBody).1
      obtain ⟨-, rfl⟩ := Prod.mk.inj (Except.ok.inj isRead)
      omega
  · contradiction

/-- `Server::Serve` from request `number` of a connection: the map it leaves. Every request but
a put only waits and replies. -/
def serve (limit : Nat) (replies : Nat → Bool) (number : Nat) (input : List Arrival)
    (values : Values) : Values :=
  match _op : read [] 1 input with
  | .error _ => values
  | .ok (none, _) => values
  | .ok (some op, afterOp) =>
    match _key : readString limit afterOp with
    | .error _ => values
    | .ok (key, afterKey) =>
      if op = [putByte] then
        match _value : readString limit afterKey with
        | .error _ => values
        | .ok (value, afterValue) =>
          let values := Function.update values key (some value)
          if replies number then serve limit replies (number + 1) afterValue values else values
      else if replies number then serve limit replies (number + 1) afterKey values
      else values
termination_by Arrival.weight input
decreasing_by
  · have operation := (weight_read _op).2 rfl (by decide)
    have key := weight_readString _key
    have value := weight_readString _value
    omega
  · have operation := (weight_read _op).2 rfl (by decide)
    have key := weight_readString _key
    omega

/-- A read that has all its bytes to come returns them and leaves the others. -/
theorem read_complete (done : Bytes) (left : Nat) (input : List Arrival)
    (enough : left ≤ (Arrival.delivered input).length) :
    ∃ rest, read done left input = .ok (some (done ++ (Arrival.delivered input).take left), rest) ∧
      Arrival.delivered rest = (Arrival.delivered input).drop left ∧
      Arrival.closes rest = Arrival.closes input := by
  induction input generalizing done left with
  | nil =>
    have none : left = 0 := by simpa [Arrival.delivered] using enough
    exact ⟨[], by simp [read, none], by simp [Arrival.delivered], rfl⟩
  | cons arrival rest ih =>
    by_cases finished : left = 0
    · refine ⟨arrival :: rest, ?_, by simp [finished], rfl⟩
      cases arrival <;> simp [read, finished, Arrival.keep]
    cases arrival with
    | interrupted =>
      obtain ⟨after, isRead, same, closes⟩ := ih done left enough
      exact ⟨after, by simpa [read, finished, Arrival.delivered] using isRead, same, closes⟩
    | failed => simp [Arrival.delivered, finished] at enough
    | bytes head tail =>
      by_cases within : left ≤ tail.length
      · refine ⟨Arrival.keep ((head :: tail).drop left) rest, ?_, ?_, ?_⟩
        · rw [read, if_pos within, Arrival.delivered,
            List.take_append_of_le_length (by simp only [List.length_cons]; omega)]
        · rw [Arrival.delivered_keep, Arrival.delivered,
            List.drop_append_of_le_length (by simp only [List.length_cons]; omega)]
        · simp [Arrival.closes]
      · simp only [Arrival.delivered, List.length_append, List.length_cons] at enough
        obtain ⟨after, isRead, same, closes⟩ :=
          ih (done ++ head :: tail) (left - (tail.length + 1)) (by omega)
        have whole : (head :: tail).length ≤ left := by simp only [List.length_cons]; omega
        refine ⟨after, ?_, ?_, by simpa [Arrival.closes] using closes⟩
        · rw [read, if_neg within, isRead, Arrival.delivered, List.take_append,
            List.take_of_length_le whole]
          simp
        · rw [same, Arrival.delivered, List.drop_append, List.drop_of_length_le whole]
          simp

/-- A read that runs out of bytes throws, unless the peer closed before its first one. -/
theorem read_incomplete (done : Bytes) (left : Nat) (input : List Arrival)
    (short : (Arrival.delivered input).length < left) :
    if Arrival.closes input ∧ done = [] ∧ Arrival.delivered input = [] then
      ∃ rest, read done left input = .ok (none, rest) ∧ Arrival.delivered rest = [] ∧
        Arrival.closes rest
    else ∃ what, read done left input = .error what := by
  induction input generalizing done left with
  | nil =>
    have some : left ≠ 0 := by omega
    by_cases first : done = []
    · simp [read, some, first, Arrival.closes, Arrival.delivered]
    · simp [read, some, first]
  | cons arrival rest ih =>
    have some : left ≠ 0 := by omega
    cases arrival with
    | interrupted => simpa [read, some, Arrival.closes, Arrival.delivered] using ih done left short
    | failed => simp [read, some, Arrival.closes]
    | bytes head tail =>
      simp only [Arrival.delivered, List.length_append, List.length_cons] at short
      have later := ih (done ++ head :: tail) (left - (tail.length + 1)) (by omega)
      rw [if_neg (by simp)] at later
      rw [if_neg (by simp [Arrival.delivered]), read, if_neg (by omega)]
      exact later

/-- A length header and as many bytes as it says. -/
def completeString (limit : Nat) (bytes : Bytes) : Option (Bytes × Bytes) :=
  let size := littleEndian (bytes.take 8)
  if 8 ≤ bytes.length ∧ size ≤ limit ∧ 8 + size ≤ bytes.length then
    some ((bytes.drop 8).take size, (bytes.drop 8).drop size)
  else none

/-- A length header that announces bytes, with none of them. -/
def headerAlone (limit : Nat) (bytes : Bytes) : Option Nat :=
  if bytes.length = 8 ∧ littleEndian bytes ≤ limit ∧ 0 < littleEndian bytes then
    some (littleEndian bytes)
  else none

/-- A string that arrived completely is returned. -/
theorem readString_complete (limit : Nat) (input : List Arrival) {left : Bytes}
    (complete : completeString limit (Arrival.delivered input) = some (value, left)) :
    ∃ rest, readString limit input = .ok (value, rest) ∧ Arrival.delivered rest = left ∧
      Arrival.closes rest = Arrival.closes input := by
  simp only [completeString] at complete
  split at complete
  · rename_i whole
    obtain ⟨enough, small, body⟩ := whole
    obtain ⟨rfl, rfl⟩ := Prod.mk.inj (Option.some.inj complete)
    obtain ⟨afterHeader, isHeader, same, closes⟩ := read_complete [] 8 input enough
    obtain ⟨rest, isBody, sameBody, closesBody⟩ := read_complete []
      (littleEndian ((Arrival.delivered input).take 8)) afterHeader
      (by rw [same, List.length_drop]; omega)
    refine ⟨rest, ?_, by rw [sameBody, same], by rw [closesBody, closes]⟩
    simp only [readString, isHeader, List.nil_append, small, if_true, isBody, same]
  · contradiction

/-- A string that did not is refused, but for a header alone before a close: that is returned as
so many zero bytes. -/
theorem readString_incomplete (limit : Nat) (input : List Arrival)
    (incomplete : completeString limit (Arrival.delivered input) = none) :
    match headerAlone limit (Arrival.delivered input), Arrival.closes input with
    | some size, true => ∃ rest, readString limit input = .ok (List.replicate size 0, rest) ∧
        Arrival.delivered rest = [] ∧ Arrival.closes rest
    | _, _ => ∃ what, readString limit input = .error what := by
  simp only [completeString] at incomplete
  split at incomplete
  · contradiction
  by_cases enough : 8 ≤ (Arrival.delivered input).length
  · obtain ⟨afterHeader, isHeader, same, closes⟩ := read_complete [] 8 input enough
    rw [List.nil_append] at isHeader
    by_cases small : littleEndian ((Arrival.delivered input).take 8) ≤ limit
    · have short : (Arrival.delivered afterHeader).length <
          littleEndian ((Arrival.delivered input).take 8) := by
        rw [same, List.length_drop]
        omega
      have body := read_incomplete [] _ afterHeader short
      by_cases ended : Arrival.closes input ∧ (Arrival.delivered input).length = 8
      · obtain ⟨closed, eight⟩ := ended
        have all : (Arrival.delivered input).take 8 = Arrival.delivered input :=
          List.take_of_length_le (by omega)
        have nothing : Arrival.delivered afterHeader = [] := by
          rw [same, List.drop_of_length_le (by omega)]
        rw [if_pos ⟨by rw [closes]; exact closed, rfl, nothing⟩] at body
        obtain ⟨rest, isBody, empty, closesRest⟩ := body
        rw [all] at small short isHeader isBody
        have alone : headerAlone limit (Arrival.delivered input) =
            some (littleEndian (Arrival.delivered input)) :=
          if_pos ⟨eight, small, by omega⟩
        rw [alone, closed]
        refine ⟨rest, ?_, empty, closesRest⟩
        simp only [readString, isHeader, small, if_true, isBody]
      · have refused : ¬(Arrival.closes afterHeader = true ∧ ([] : Bytes) = [] ∧
            Arrival.delivered afterHeader = []) := by
          rintro ⟨closed, -, nothing⟩
          refine ended ⟨by rw [← closes]; exact closed, ?_⟩
          have := congrArg List.length (same.symm.trans nothing)
          simp only [List.length_drop, List.length_nil] at this
          omega
        rw [if_neg refused] at body
        obtain ⟨what, isBody⟩ := body
        have error : readString limit input = .error what := by
          simp only [readString, isHeader, small, if_true, isBody]
        split
        · rename_i isAlone closed
          refine absurd ⟨closed, ?_⟩ ended
          unfold headerAlone at isAlone
          split at isAlone
          · rename_i parts
            exact parts.1
          · contradiction
        · exact ⟨what, error⟩
    · have error : readString limit input = .error "basic_string" := by
        simp only [readString, isHeader, small, if_false]
      split
      · rename_i isAlone _
        unfold headerAlone at isAlone
        split at isAlone
        · rename_i parts
          rw [List.take_of_length_le (by omega)] at small
          exact absurd parts.2.1 small
        · contradiction
      · exact ⟨_, error⟩
  · have header := read_incomplete [] 8 input (by omega)
    have error : ∃ what, readString limit input = .error what := by
      split at header
      · obtain ⟨rest, isHeader, -⟩ := header
        exact ⟨"Key-value store connection closed", by simp only [readString, isHeader]⟩
      · obtain ⟨what, isHeader⟩ := header
        exact ⟨what, by simp only [readString, isHeader]⟩
    split
    · rename_i isAlone _
      unfold headerAlone at isAlone
      split at isAlone
      · rename_i parts
        exact absurd (by omega) enough
      · contradiction
    · exact error

/-- A request as the server understands it: every operation byte but `'P'` waits for a key. -/
inductive Request
  | put (key value : Bytes)
  | get (key : Bytes)
  deriving DecidableEq, Repr

/-- What a request does to the map. -/
def Request.apply (values : Values) : Request → Values
  | .put key value => Function.update values key (some value)
  | .get _ => values

/-- The request at the front of a byte list, once all its parts are there. -/
def completeRequest (limit : Nat) : Bytes → Option (Request × Bytes)
  | [] => none
  | op :: rest =>
    match completeString limit rest with
    | none => none
    | some (key, rest) =>
      if op = putByte then
        match completeString limit rest with
        | none => none
        | some (value, rest) => some (.put key value, rest)
      else some (.get key, rest)

/-- A complete string leaves fewer bytes than there were. -/
theorem length_completeString {bytes rest : Bytes}
    (complete : completeString limit bytes = some (value, rest)) : rest.length < bytes.length := by
  simp only [completeString] at complete
  split at complete
  · rename_i whole
    obtain ⟨rfl, rfl⟩ := Prod.mk.inj (Option.some.inj complete)
    simp only [List.length_drop]
    omega
  · contradiction

/-- The requests of a connection, as complete messages of its bytes. -/
def requests (limit : Nat) : PrefixParser Request where
  parse := completeRequest limit
  shrinks := by
    intro bytes request rest complete
    cases bytes with
    | nil => simp [completeRequest] at complete
    | cons op tail =>
      rw [completeRequest] at complete
      split at complete
      · contradiction
      · rename_i isKey
        have key := length_completeString isKey
        split at complete
        · split at complete
          · contradiction
          · rename_i isValue
            have value := length_completeString isValue
            obtain ⟨-, rfl⟩ := Prod.mk.inj (Option.some.inj complete)
            simp only [List.length_cons]
            omega
        · obtain ⟨-, rfl⟩ := Prod.mk.inj (Option.some.inj complete)
          simp only [List.length_cons]
          omega

/-- The put whose bytes end exactly behind the length header of a non-empty value: its key and
that length. -/
def putWithoutValue (limit : Nat) : Bytes → Option (Bytes × Nat)
  | [] => none
  | op :: rest =>
    match completeString limit rest with
    | none => none
    | some (key, rest) =>
      if op = putByte then (headerAlone limit rest).map fun size => (key, size) else none

/-- What a connection's bytes ask for: its complete requests, up to the first whose reply could
not be sent. -/
def received (limit : Nat) (replies : Nat → Bool) (number : Nat) (input : List Arrival) :
    List Request × Option Bytes :=
  (requests limit).messages replies number (Arrival.delivered input)

/-- The put the server makes up when the peer closes behind the header of its value. -/
def madeUp (limit : Nat) (replies : Nat → Bool) (number : Nat) (input : List Arrival) :
    Option (Bytes × Nat) :=
  match (received limit replies number input).2 with
  | none => none
  | some rest => if Arrival.closes input then putWithoutValue limit rest else none

/-- The map after a made-up put. -/
def afterMadeUp (values : Values) : Option (Bytes × Nat) → Values
  | none => values
  | some (key, size) => Function.update values key (some (List.replicate size 0))

/-- The loop ends where the operation byte cannot be read. -/
theorem serve_ended (ended : ∀ op rest, read [] 1 input ≠ .ok (some op, rest)) (values : Values) :
    serve limit replies number input values = values := by
  rw [serve]
  split
  · rfl
  · rfl
  · rename_i op rest isOp
    exact absurd isOp (ended op rest)

/-- The loop ends where the key cannot be read. -/
theorem serve_no_key {op : Bytes} {what : String} (isOp : read [] 1 input = .ok (some op, afterOp))
    (refused : readString limit afterOp = .error what) (values : Values) :
    serve limit replies number input values = values := by
  rw [serve]
  split <;> simp_all
  split <;> simp_all

/-- A request other than a put leaves the map alone. -/
theorem serve_get {op key : Bytes} (isOp : read [] 1 input = .ok (some op, afterOp))
    (other : op ≠ [putByte]) (isKey : readString limit afterOp = .ok (key, afterKey))
    (values : Values) :
    serve limit replies number input values =
      if replies number then serve limit replies (number + 1) afterKey values else values := by
  rw [serve]
  split <;> simp_all
  split <;> simp_all

section

variable {key : Bytes} (isOp : read [] 1 input = .ok (some [putByte], afterOp))
  (isKey : readString limit afterOp = .ok (key, afterKey))
include isOp isKey

/-- A put whose value cannot be read stores nothing. -/
theorem serve_no_value {what : String} (refused : readString limit afterKey = .error what)
    (values : Values) :
    serve limit replies number input values = values := by
  rw [serve]
  split <;> simp_all
  split <;> simp_all
  split <;> simp_all

/-- A put stores what was read as its value. -/
theorem serve_put {afterValue : List Arrival}
    (isValue : readString limit afterKey = .ok (value, afterValue)) (values : Values) :
    serve limit replies number input values =
      if replies number then
        serve limit replies (number + 1) afterValue (Function.update values key (some value))
      else Function.update values key (some value) := by
  rw [serve]
  split <;> simp_all
  split <;> simp_all
  split <;> simp_all

end

/-- Once nothing is left to read, the server goes away. -/
theorem serve_nothing (nothing : Arrival.delivered input = []) (values : Values) :
    serve limit replies number input values = values := by
  have ended := read_incomplete [] 1 input (by simp [nothing])
  apply serve_ended
  intro op rest isOp
  split at ended
  · obtain ⟨rest, isNone, -⟩ := ended
    simp [isNone] at isOp
  · obtain ⟨what, isError⟩ := ended
    simp [isError] at isOp

/-- The map the received requests and the made-up put leave, from request `number` on. -/
def asReceived (limit : Nat) (replies : Nat → Bool) (number : Nat) (input : List Arrival)
    (values : Values) : Values :=
  afterMadeUp ((received limit replies number input).1.foldl Request.apply values)
    (madeUp limit replies number input)

/-- Without a complete request at the front, only a made-up put can change the map. -/
theorem asReceived_incomplete (incomplete : completeRequest limit (Arrival.delivered input) = none)
    (replies : Nat → Bool) (number : Nat) (values : Values) :
    asReceived limit replies number input values =
      afterMadeUp values (if Arrival.closes input then
        putWithoutValue limit (Arrival.delivered input) else none) := by
  have stopped : received limit replies number input = ([], some (Arrival.delivered input)) :=
    (requests limit).messages_none incomplete
  simp [asReceived, madeUp, stopped]

/-- A complete request is applied, and those after it if its reply is sent. -/
theorem asReceived_complete {limit : Nat} {input : List Arrival} (request : Request)
    (after : List Arrival)
    (complete : completeRequest limit (Arrival.delivered input) =
      some (request, Arrival.delivered after))
    (closes : Arrival.closes after = Arrival.closes input) (replies : Nat → Bool) (number : Nat)
    (values : Values) :
    asReceived limit replies number input values =
      if replies number then
        asReceived limit replies (number + 1) after (request.apply values)
      else request.apply values := by
  have step : received limit replies number input = _ := (requests limit).messages_some complete
  rw [asReceived, madeUp, step, ← closes]
  split <;> rfl

/-- The server applies the requests it received completely, and then the made-up put if there
is one. -/
theorem serve_eq (limit : Nat) (replies : Nat → Bool) (number : Nat) (input : List Arrival)
    (values : Values) :
    serve limit replies number input values = asReceived limit replies number input values := by
  induction counted : (Arrival.delivered input).length using Nat.strongRecOn
    generalizing number input values with
  | ind total ih =>
    cases bytes : Arrival.delivered input with
    | nil =>
      rw [serve_nothing bytes, asReceived_incomplete (by rw [bytes]; rfl), bytes]
      simp [putWithoutValue, afterMadeUp]
    | cons op rest =>
      obtain ⟨afterOp, isOp, sameOp, closesOp⟩ := read_complete [] 1 input (by simp [bytes])
      rw [bytes] at isOp sameOp
      simp only [List.take_succ_cons, List.take_zero, List.nil_append, List.drop_succ_cons,
        List.drop_zero] at isOp sameOp
      cases isKey : completeString limit rest with
      | none =>
        -- Nothing is stored: a made-up key is followed by nothing to store under it.
        rw [asReceived_incomplete (by simp [bytes, completeRequest, isKey]), bytes]
        simp only [putWithoutValue, isKey, ite_self, afterMadeUp]
        have key := readString_incomplete limit afterOp (by rw [sameOp]; exact isKey)
        split at key
        · obtain ⟨afterKey, readKey, nothing, -⟩ := key
          by_cases isPut : op = putByte
          · have value := readString_incomplete limit afterKey (by simp [nothing, completeString])
            rw [nothing] at value
            obtain ⟨what, refused⟩ := value
            exact serve_no_value (by rw [isOp, isPut]) readKey refused values
          · rw [serve_get isOp (by simpa using isPut) readKey, serve_nothing nothing, ite_self]
        · obtain ⟨what, refused⟩ := key
          exact serve_no_key isOp refused values
      | some found =>
        obtain ⟨key, afterKeyBytes⟩ := found
        obtain ⟨afterKey, readKey, sameKey, closesKey⟩ :=
          readString_complete limit afterOp (by rw [sameOp]; exact isKey)
        have shorter := length_completeString isKey
        have here : (Arrival.delivered input).length = rest.length + 1 := by rw [bytes]; rfl
        by_cases isPut : op = putByte
        · subst isPut
          cases isValue : completeString limit afterKeyBytes with
          | none =>
            rw [asReceived_incomplete (by simp [bytes, completeRequest, isKey, isValue]), bytes]
            simp only [putWithoutValue, isKey, if_true]
            have value := readString_incomplete limit afterKey (by rw [sameKey]; exact isValue)
            rw [sameKey, closesKey, closesOp] at value
            cases closed : Arrival.closes input with
            | false =>
              obtain ⟨what, refused⟩ : ∃ what, readString limit afterKey = .error what := by
                rw [closed] at value
                split at value <;> first | contradiction | exact value
              rw [serve_no_value isOp readKey refused]
              rfl
            | true =>
              rw [closed] at value
              cases alone : headerAlone limit afterKeyBytes with
              | none =>
                obtain ⟨what, refused⟩ : ∃ what, readString limit afterKey = .error what := by
                  simpa only [alone] using value
                rw [serve_no_value isOp readKey refused]
                rfl
              | some size =>
                obtain ⟨afterValue, readValue, nothing, -⟩ :
                    ∃ rest, readString limit afterKey = .ok (List.replicate size 0, rest) ∧
                      Arrival.delivered rest = [] ∧ Arrival.closes rest := by
                  simpa only [alone] using value
                rw [serve_put isOp readKey readValue, serve_nothing nothing, ite_self]
                rfl
          | some found =>
            obtain ⟨value, afterValueBytes⟩ := found
            obtain ⟨afterValue, readValue, sameValue, closesValue⟩ :=
              readString_complete limit afterKey (by rw [sameKey]; exact isValue)
            have shorterValue := length_completeString isValue
            have less : (Arrival.delivered afterValue).length < total := by rw [sameValue]; omega
            rw [serve_put isOp readKey readValue,
              asReceived_complete (.put key value) afterValue
                (by simp [bytes, completeRequest, isKey, isValue, sameValue])
                (by rw [closesValue, closesKey, closesOp]),
              ih _ less (number + 1) afterValue _ rfl]
            rfl
        · have less : (Arrival.delivered afterKey).length < total := by rw [sameKey]; omega
          rw [serve_get isOp (by simpa using isPut) readKey,
            asReceived_complete (.get key) afterKey
              (by simp [bytes, completeRequest, isKey, isPut, sameKey])
              (by rw [closesKey, closesOp]), ih _ less (number + 1) afterKey _ rfl]
          rfl

/-- The server's answer to a get of a key whose value is there. -/
def getReply (value : Bytes) : Bytes := okByte :: stringBytes value

/-- `Client::Expect`: the connection behind the reply byte. -/
def expect (expected : UInt8) (input : List Arrival) : Except String (List Arrival) :=
  match read [] 1 input with
  | .error what => .error what
  | .ok (none, _) => .error "failed or timed out"
  | .ok (some reply, rest) =>
    if reply = [expected] then .ok rest else .error "failed or timed out"

/-- `Client::Get` behind its request: what it returns for the server's answer. -/
def clientGet (limit : Nat) (input : List Arrival) : Except String Bytes :=
  match expect okByte input with
  | .error what => .error what
  | .ok rest =>
    match readString limit rest with
    | .error what => .error what
    | .ok (value, _) => .ok value

/-- Encoded strings are complete, whatever follows. -/
theorem completeString_stringBytes (small : value.length ≤ limit) (fits : value.length < 2 ^ 64)
    (rest : Bytes) :
    completeString limit (stringBytes value ++ rest) = some (value, rest) := by
  have taken : (stringBytes value ++ rest).take 8 = header value := by
    rw [stringBytes, List.append_assoc, List.take_left' (length_header value)]
  have dropped : (stringBytes value ++ rest).drop 8 = value ++ rest := by
    rw [stringBytes, List.append_assoc, List.drop_left' (length_header value)]
  have length : (stringBytes value ++ rest).length = 8 + value.length + rest.length := by
    simp only [stringBytes, List.length_append, length_header]
  simp only [completeString]
  rw [taken, dropped, littleEndian_header fits, if_pos ⟨by omega, small, by omega⟩, List.take_left, List.drop_left]

section

variable {cut : Bytes} (fits : value.length < 2 ^ 64) (isPrefix : cut <+: stringBytes value)
include fits isPrefix

/-- Bytes cut off before the end of a string are no complete string. -/
theorem completeString_cut (shorter : cut ≠ stringBytes value) :
    completeString limit cut = none := by
  have less : cut.length < 8 + value.length := by
    have length : (stringBytes value).length = 8 + value.length := by simp [stringBytes]
    rcases Nat.lt_or_ge cut.length (8 + value.length) with less | whole
    · exact less
    · exact absurd (isPrefix.eq_of_length (by have := isPrefix.length_le; omega)) shorter
  refine if_neg ?_
  rintro ⟨eight, -, body⟩
  have taken : cut.take 8 = header value := by
    rw [List.prefix_iff_eq_take.mp isPrefix, List.take_take, Nat.min_eq_left eight, stringBytes,
      List.take_left' (length_header value)]
  rw [taken, littleEndian_header fits] at body
  omega

/-- Among the cuts of a string, only the bare header of a non-empty one is a header alone. -/
theorem headerAlone_cut (size : Nat) :
    headerAlone limit cut = some size ↔
      cut = header value ∧ size = value.length ∧ value.length ≤ limit ∧ 0 < value.length := by
  constructor
  · intro alone
    unfold headerAlone at alone
    split at alone
    · rename_i parts
      obtain ⟨eight, small, positive⟩ := parts
      have bytes : cut = header value := by
        rw [List.prefix_iff_eq_take.mp isPrefix, eight, stringBytes,
          List.take_left' (length_header value)]
      rw [bytes, littleEndian_header fits] at alone small positive
      exact ⟨bytes, (Option.some.inj alone).symm, small, positive⟩
    · contradiction
  · rintro ⟨rfl, rfl, small, positive⟩
    rw [headerAlone, littleEndian_header fits, if_pos ⟨length_header value, small, positive⟩]

end

/-- The reply byte is taken off, or the client throws. -/
theorem expect_cut (isPrefix : Arrival.delivered input <+: getReply value) :
    if Arrival.delivered input = [] then ∃ what, expect okByte input = .error what
    else ∃ rest, expect okByte input = .ok rest ∧
      Arrival.delivered input = okByte :: Arrival.delivered rest ∧
      Arrival.closes rest = Arrival.closes input := by
  cases bytes : Arrival.delivered input with
  | nil =>
    have ended := read_incomplete [] 1 input (by simp [bytes])
    split at ended
    · obtain ⟨rest, isNone, -⟩ := ended
      exact ⟨"failed or timed out", by simp only [expect, isNone]⟩
    · obtain ⟨what, isError⟩ := ended
      exact ⟨what, by simp only [expect, isError]⟩
  | cons op later =>
    obtain ⟨rest, isOp, same, closes⟩ := read_complete [] 1 input (by simp [bytes])
    rw [bytes] at isPrefix isOp same
    obtain ⟨rfl, -⟩ := List.cons_prefix_cons.mp isPrefix
    simp only [List.take_succ_cons, List.take_zero, List.nil_append, List.drop_succ_cons,
      List.drop_zero] at isOp same
    exact ⟨rest, by simp [expect, isOp], by rw [same], closes⟩

/-- `Client::Get` on any part of the reply returns the stored value or throws, unless the part is
the reply byte and a header before a close. -/
theorem clientGet_cut (limit : Nat) (fits : value.length < 2 ^ 64)
    (isPrefix : Arrival.delivered input <+: getReply value) :
    if Arrival.closes input ∧ Arrival.delivered input = okByte :: header value ∧
        0 < value.length ∧ value.length ≤ limit then
      clientGet limit input = .ok (List.replicate value.length 0)
    else ∀ got, clientGet limit input = .ok got → got = value := by
  have reply := expect_cut isPrefix
  by_cases nothing : Arrival.delivered input = []
  · rw [if_pos nothing] at reply
    rw [if_neg (by simp [nothing])]
    obtain ⟨what, refused⟩ := reply
    intro got isGot
    simp [clientGet, refused] at isGot
  · rw [if_neg nothing] at reply
    obtain ⟨rest, accepted, bytes, closes⟩ := reply
    have isPrefixRest : Arrival.delivered rest <+: stringBytes value := by
      rw [bytes] at isPrefix
      exact (List.cons_prefix_cons.mp isPrefix).2
    have step : clientGet limit input =
        match readString limit rest with
        | .error what => .error what
        | .ok (value, _) => .ok value := by
      simp only [clientGet, accepted]
    rw [step, ← closes, bytes]
    cases complete : completeString limit (Arrival.delivered rest) with
    | some found =>
      obtain ⟨got, left⟩ := found
      have all : Arrival.delivered rest = stringBytes value :=
        by_contra fun shorter => by
          rw [completeString_cut fits isPrefixRest shorter] at complete
          contradiction
      obtain ⟨after, isRead, -, -⟩ := readString_complete limit rest complete
      have whole : value.length ≤ limit → got = value := by
        intro small
        have expected := completeString_stringBytes small fits []
        rw [List.append_nil, ← all, complete] at expected
        exact (Prod.mk.inj (Option.some.inj expected)).1
      rw [isRead]
      split
      · rename_i alone
        have lengths := congrArg List.length (all.symm.trans (List.cons.inj alone.2.1).2)
        simp only [stringBytes, List.length_append, length_header] at lengths
        omega
      · intro other isOther
        have small : value.length ≤ limit := by
          simp only [completeString] at complete
          split at complete
          · rename_i parts
            rw [all, stringBytes, List.take_left' (length_header value), littleEndian_header fits] at parts
            exact parts.2.1
          · contradiction
        rw [← Except.ok.inj isOther, whole small]
    | none =>
      have cut := readString_incomplete limit rest complete
      split
      · rename_i alone
        rw [(headerAlone_cut fits isPrefixRest value.length).mpr
          ⟨(List.cons.inj alone.2.1).2, rfl, alone.2.2.2, alone.2.2.1⟩, alone.1] at cut
        obtain ⟨after, isRead, -⟩ := cut
        rw [isRead]
      · rename_i other
        intro got isGot
        split at cut
        · rename_i size isAlone closed
          obtain ⟨bare, rfl, small, positive⟩ :=
            (headerAlone_cut fits isPrefixRest size).mp isAlone
          exact absurd ⟨closed, by rw [bare], positive, small⟩ other
        · obtain ⟨what, refused⟩ := cut
          rw [refused] at isGot
          contradiction

/-- The server's map is that of the completely received puts, unless the peer closed behind the
length header of a non-empty value: then so many zero bytes are stored. Likewise the client
returns the stored value or throws, unless the server closes behind that header. -/
theorem interrupted_request_iff (limit : Nat) (replies : Nat → Bool) (input : List Arrival)
    (values : Values) (value : Bytes) (fits : value.length < 2 ^ 64) (reply : List Arrival)
    (isPrefix : Arrival.delivered reply <+: getReply value) :
    (serve limit replies 0 input values =
        (received limit replies 0 input).1.foldl Request.apply values ↔
      ∀ key size, madeUp limit replies 0 input = some (key, size) →
        (received limit replies 0 input).1.foldl Request.apply values key =
          some (List.replicate size 0)) ∧
    ((∀ got, clientGet limit reply = .ok got → got = value) ↔
      ¬(Arrival.closes reply ∧
        Arrival.delivered reply = okByte :: header value ∧
        value.length ≤ limit ∧ value ≠ List.replicate value.length 0)) := by
  constructor
  · rw [serve_eq, asReceived]
    cases madeUp limit replies 0 input with
    | none => simp [afterMadeUp]
    | some put =>
      obtain ⟨key, size⟩ := put
      rw [afterMadeUp, Function.update_eq_self_iff]
      constructor
      · rintro stored _ _ ⟨⟩
        exact stored.symm
      · exact fun stored => (stored key size rfl).symm
  · have cut := clientGet_cut limit fits isPrefix
    split at cut
    · rename_i alone
      rw [cut]
      constructor
      · rintro same ⟨-, -, -, other⟩
        exact other (same _ rfl).symm
      · intro zeros got isGot
        rw [← Except.ok.inj isGot]
        by_contra other
        exact zeros ⟨alone.1, alone.2.1, alone.2.2.2, Ne.symm other⟩
    · rename_i other
      refine ⟨?_, fun _ => cut⟩
      rintro - ⟨closes, bytes, small, nonzero⟩
      refine other ⟨closes, bytes, ?_, small⟩
      rcases Nat.eq_zero_or_pos value.length with empty | positive
      · rw [List.eq_nil_of_length_eq_zero empty] at nonzero
        exact absurd rfl nonzero
      · exact positive

/-- The theorem at a put cut off inside its value and a reply cut off inside its header. -/
theorem interrupted_request_iff_cut :
    (serve 100 (fun _ => true) 0 [.bytes putByte (stringBytes [107] ++ header [1, 2] ++ [1])]
        (fun _ => none) = fun _ => none) ∧
      ∀ got, clientGet 100 [.bytes okByte [2, 0, 0]] = .ok got → got = [1, 2] := by
  obtain ⟨server, client⟩ := interrupted_request_iff 100 (fun _ => true)
    [.bytes putByte (stringBytes [107] ++ header [1, 2] ++ [1])] (fun _ => none) [1, 2]
    (by decide) [.bytes okByte [2, 0, 0]] (by decide)
  have stopped : received 100 (fun _ => true) 0
      [.bytes putByte (stringBytes [107] ++ header [1, 2] ++ [1])] = ([], some _) :=
    (requests 100).messages_none (by decide)
  refine ⟨?_, client.mpr (by decide)⟩
  rw [stopped] at server
  refine server.mpr fun key size made => ?_
  rw [madeUp, stopped] at made
  exact (Option.some_ne_none _ (made.symm.trans (by decide))).elim

/-- A put whose connection closes behind the header of its two-byte value stores two zero
bytes. -/
theorem serve_closed_behind_header :
    serve 100 (fun _ => true) 0 [.bytes putByte (stringBytes [107] ++ header [1, 2])]
        (fun _ => none) ≠
      (received 100 (fun _ => true) 0
        [.bytes putByte (stringBytes [107] ++ header [1, 2])]).1.foldl Request.apply
        (fun _ => none) := by
  have stopped : received 100 (fun _ => true) 0
      [.bytes putByte (stringBytes [107] ++ header [1, 2])] = ([], some _) :=
    (requests 100).messages_none (by decide)
  intro same
  have stored := congrFun (same.symm.trans (serve_eq 100 (fun _ => true) 0 _ _)) [107]
  rw [asReceived, madeUp, stopped] at stored
  exact absurd stored (by decide)

end Libtt.TcpKeyValueStore

import Mathlib.Data.Nat.Digits.Defs
import Mathlib.Data.List.Infix

/-!
# Bytes that arrive in pieces

A reader of a byte stream receives it in pieces of any sizes, and the stream may end anywhere.
Parsers of the delivered bytes consume a prefix; a parser that always consumes something can be
repeated until a message is incomplete.
-/

namespace Libtt.Foundation

/-- One result of waiting for input; the end of a list of them is the peer's close. -/
inductive Arrival
  /-- At least one byte. -/
  | bytes (head : UInt8) (tail : List UInt8)
  /-- Nothing yet; the wait is repeated. -/
  | interrupted
  /-- The connection is broken. -/
  | failed
  deriving DecidableEq, Repr

namespace Arrival

/-- Put back what a read left of a piece. -/
def keep : List UInt8 → List Arrival → List Arrival
  | [], rest => rest
  | head :: tail, rest => .bytes head tail :: rest

/-- All bytes that arrive before a failure. -/
def delivered : List Arrival → List UInt8
  | [] => []
  | .bytes head tail :: rest => head :: tail ++ delivered rest
  | .interrupted :: rest => delivered rest
  | .failed :: _ => []

/-- Whether the stream ends with the peer's close rather than a failure. -/
def closes : List Arrival → Bool
  | [] => true
  | .bytes _ _ :: rest => closes rest
  | .interrupted :: rest => closes rest
  | .failed :: _ => false

/-- Bytes and pieces still to come, bounding every loop over them. -/
def weight : List Arrival → Nat
  | [] => 0
  | .bytes _ tail :: rest => tail.length + 2 + weight rest
  | .interrupted :: rest => 1 + weight rest
  | .failed :: rest => 1 + weight rest

@[simp] theorem delivered_keep (left : List UInt8) (rest : List Arrival) :
    delivered (keep left rest) = left ++ delivered rest := by
  cases left <;> simp [keep, delivered]

@[simp] theorem closes_keep (left : List UInt8) (rest : List Arrival) :
    closes (keep left rest) = closes rest := by
  cases left <;> simp [keep, closes]

/-- Putting bytes back weighs at most one more than they do. -/
theorem weight_keep_le (left : List UInt8) (rest : List Arrival) :
    weight (keep left rest) ≤ left.length + 1 + weight rest := by
  cases left with
  | nil => simp [keep]
  | cons head tail => simp [keep, weight]

end Arrival

/-- The value of little-endian bytes. -/
def littleEndian (bytes : List UInt8) : Nat := Nat.ofDigits 256 (bytes.map UInt8.toNat)

/-- The `width` little-endian bytes of a number. -/
def littleEndianBytes : Nat → Nat → List UInt8
  | 0, _ => []
  | width + 1, value => UInt8.ofNat value :: littleEndianBytes width (value / 256)

@[simp] theorem length_littleEndianBytes (width value : Nat) :
    (littleEndianBytes width value).length = width := by
  induction width generalizing value with
  | zero => rfl
  | succ width ih => simp [littleEndianBytes, ih]

/-- A number that fits the width is read back. -/
theorem littleEndian_bytes (width value : Nat) (fits : value < 256 ^ width) :
    littleEndian (littleEndianBytes width value) = value := by
  induction width generalizing value with
  | zero =>
    have : value = 0 := by simpa using fits
    simp [littleEndianBytes, littleEndian, this]
  | succ width ih =>
    have high : value / 256 < 256 ^ width :=
      Nat.div_lt_of_lt_mul (by rwa [Nat.pow_succ, Nat.mul_comm] at fits)
    have tail := ih _ high
    rw [littleEndian] at tail
    rw [littleEndianBytes, littleEndian, List.map_cons, Nat.ofDigits_cons, tail,
      UInt8.toNat_ofNat']
    exact Nat.mod_add_div value 256

/-- A parser of one message at the front of a byte list, which consumes some of it. -/
structure PrefixParser (α : Type) where
  /-- The message and the bytes after it; none while the message is incomplete. -/
  parse : List UInt8 → Option (α × List UInt8)
  /-- A message is not empty. -/
  shrinks : ∀ {bytes value rest}, parse bytes = some (value, rest) → rest.length < bytes.length

namespace PrefixParser

variable {α : Type} (parser : PrefixParser α)

/-- The messages at the front of a byte list, up to and including the first, counted from
`number`, after which `proceeds` is false. With them, the bytes after the last message when
parsing stopped for want of a complete one. -/
def messages (proceeds : Nat → Bool) (number : Nat) (bytes : List UInt8) :
    List α × Option (List UInt8) :=
  match _parsed : parser.parse bytes with
  | none => ([], some bytes)
  | some (value, rest) =>
    if proceeds number then
      let later := messages proceeds (number + 1) rest
      (value :: later.1, later.2)
    else ([value], none)
termination_by bytes.length
decreasing_by exact parser.shrinks _parsed

/-- Without a complete message nothing is parsed. -/
theorem messages_none {proceeds : Nat → Bool} {number : Nat} {bytes : List UInt8}
    (incomplete : parser.parse bytes = none) :
    parser.messages proceeds number bytes = ([], some bytes) := by
  rw [messages]
  split
  · rfl
  · rename_i found
    simp [incomplete] at found

/-- A complete message comes first. -/
theorem messages_some {proceeds : Nat → Bool} {number : Nat} {bytes rest : List UInt8} {value : α}
    (complete : parser.parse bytes = some (value, rest)) :
    parser.messages proceeds number bytes =
      if proceeds number then
        (value :: (parser.messages proceeds (number + 1) rest).1,
          (parser.messages proceeds (number + 1) rest).2)
      else ([value], none) := by
  rw [messages]
  split
  · rename_i found
    simp [complete] at found
  · rename_i found
    rw [complete, Option.some.injEq, Prod.mk.injEq] at found
    obtain ⟨rfl, rfl⟩ := found
    rfl

end PrefixParser

end Libtt.Foundation

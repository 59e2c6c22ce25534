import Mathlib.Logic.Function.Basic

/-!
# Ring buffers

A ring of entries between a producer and a consumer.
-/
namespace Libtt.Foundation

structure RingBuffer (α : Type) where
  size : Nat
  entry : Nat → α
  /-- How many entries were pushed and popped so far. -/
  received : Nat
  acked : Nat
  writePtr : Nat
  readPtr : Nat

namespace RingBuffer

variable {α : Type} (ring : RingBuffer α) {count : Nat}

/-- The entries that a producer may reserve. -/
def free : Nat := ring.size - (ring.received - ring.acked)

/-- The entries that a consumer may wait for. -/
def available : Nat := ring.received - ring.acked

def advance (pointer count : Nat) : Nat :=
  if pointer + count = ring.size then 0 else pointer + count

def pushBack (count : Nat) : RingBuffer α :=
  { ring with received := ring.received + count, writePtr := ring.advance ring.writePtr count }

def popFront (count : Nat) : RingBuffer α :=
  { ring with acked := ring.acked + count, readPtr := ring.advance ring.readPtr count }

/-- Write one of the entries that are reserved. -/
def write (i : Nat) (value : α) : RingBuffer α :=
  { ring with entry := Function.update ring.entry (ring.writePtr + i) value }

/-- Change one of the entries that were waited for. -/
def change (i : Nat) (value : α) : RingBuffer α :=
  { ring with entry := Function.update ring.entry (ring.readPtr + i) value }

/-- An empty ring. -/
def empty (size : Nat) (entry : Nat → α) : RingBuffer α := ⟨size, entry, 0, 0, 0, 0⟩

/-- No turn went past the end, or had more entries than the other side left. -/
structure WellFormed : Prop where
  writePtr_eq : ring.writePtr = ring.received % ring.size
  readPtr_eq : ring.readPtr = ring.acked % ring.size
  order : ring.acked ≤ ring.received
  fits : ring.received ≤ ring.acked + ring.size

theorem empty_wellFormed (size : Nat) (entry : Nat → α) : (empty size entry).WellFormed :=
  ⟨(Nat.zero_mod size).symm, (Nat.zero_mod size).symm, Nat.le_refl _, Nat.zero_le _⟩

theorem advance_eq {counter : Nat} (straight : counter % ring.size + count ≤ ring.size) :
    ring.advance (counter % ring.size) count = (counter + count) % ring.size := by
  have split := Nat.div_add_mod counter ring.size
  have whole : counter + count =
      counter % ring.size + count + ring.size * (counter / ring.size) := by omega
  rw [advance, whole, Nat.add_mul_mod_self_left]
  split
  · rename_i full
    rw [full, Nat.mod_self]
  · exact (Nat.mod_eq_of_lt (by omega)).symm

variable {ring}

theorem WellFormed.pushBack (valid : ring.WellFormed) (room : count ≤ ring.free)
    (straight : ring.writePtr + count ≤ ring.size) : (ring.pushBack count).WellFormed := by
  have bound := valid.fits
  have order := valid.order
  rw [valid.writePtr_eq] at straight
  refine ⟨?_, valid.readPtr_eq, Nat.le_add_right_of_le order, ?_⟩
  · show ring.advance ring.writePtr count = _
    rw [valid.writePtr_eq]
    exact ring.advance_eq straight
  · show ring.received + count ≤ ring.acked + ring.size
    unfold free at room
    omega

theorem WellFormed.popFront (valid : ring.WellFormed) (ready : count ≤ ring.available)
    (straight : ring.readPtr + count ≤ ring.size) : (ring.popFront count).WellFormed := by
  have bound := valid.fits
  have order := valid.order
  unfold available at ready
  rw [valid.readPtr_eq] at straight
  refine ⟨valid.writePtr_eq, ?_, ?_, ?_⟩
  · show ring.advance ring.readPtr count = _
    rw [valid.readPtr_eq]
    exact ring.advance_eq straight
  · show ring.acked + count ≤ ring.received
    omega
  · show ring.received ≤ ring.acked + count + ring.size
    omega

theorem WellFormed.write (valid : ring.WellFormed) (i : Nat) (value : α) :
    (ring.write i value).WellFormed :=
  ⟨valid.writePtr_eq, valid.readPtr_eq, valid.order, valid.fits⟩

theorem WellFormed.change (valid : ring.WellFormed) (i : Nat) (value : α) :
    (ring.change i value).WellFormed :=
  ⟨valid.writePtr_eq, valid.readPtr_eq, valid.order, valid.fits⟩

end RingBuffer

end Libtt.Foundation

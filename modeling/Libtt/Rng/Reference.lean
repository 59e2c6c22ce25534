import Mathlib.Tactic.Ring

/-!
# Counter-based generators

Threefry-2x32 with 20 rounds and Philox-4x32 with 10 rounds, as the loops of their definitions.
-/

namespace Libtt.Rng

/-- A 32-bit word. -/
abbrev Word := BitVec 32

/-- `rotate_left`. -/
def rotateLeft (x : Word) (r : Nat) : Word := x <<< r ||| x >>> (32 - r)

/-- The rotations of the even and of the odd groups of four rounds. -/
def rotations (group : Nat) : List Nat :=
  if group % 2 = 0 then [13, 15, 26, 6] else [17, 29, 16, 24]

/-- The Threefry key schedule. -/
def keyWord (k0 k1 : Word) (index : Nat) : Word :=
  match index % 3 with
  | 0 => k0
  | 1 => k1
  | _ => k0 ^^^ k1 ^^^ 0x1BD11BDA#32

/-- One Threefry round. -/
def threefryRound (x : Word × Word) (r : Nat) : Word × Word :=
  (x.1 + x.2, rotateLeft x.2 r ^^^ (x.1 + x.2))

/-- Both words of Threefry-2x32 with 20 rounds of counter `(c0, c1)` under key `(k0, k1)`. -/
def threefry (k0 k1 c0 c1 : Word) : Word × Word :=
  (List.range 5).foldl
    (fun x i =>
      let x := (rotations i).foldl threefryRound x
      (x.1 + keyWord k0 k1 (i + 1), x.2 + (keyWord k0 k1 (i + 2) + BitVec.ofNat 32 i + 1)))
    (c0 + keyWord k0 k1 0, c1 + keyWord k0 k1 1)

/-- The four counter words of Philox. -/
structure Counter where
  c0 : Word
  c1 : Word
  c2 : Word
  c3 : Word
  deriving DecidableEq, Repr

/-- The high word of a product. -/
def mulHigh (x y : Word) : Word := BitVec.ofNat 32 (x.toNat * y.toNat / 2 ^ 32)

/-- One Philox round. -/
def philoxRound (k0 k1 : Word) (c : Counter) : Counter where
  c0 := mulHigh 0xCD9E8D57#32 c.c2 ^^^ c.c1 ^^^ k0
  c1 := 0xCD9E8D57#32 * c.c2
  c2 := mulHigh 0xD2511F53#32 c.c0 ^^^ c.c3 ^^^ k1
  c3 := 0xD2511F53#32 * c.c0

/-- One round of `philox`, which advances the key before every round but the first. -/
def philoxStep (x : (Word × Word) × Counter) (round : Nat) : (Word × Word) × Counter :=
  let key := if 0 < round then (x.1.1 + 0x9E3779B9#32, x.1.2 + 0xBB67AE85#32) else x.1
  (key, philoxRound key.1 key.2 x.2)

/-- The first word of Philox-4x32 with 10 rounds of counter `c` under key `(k0, k1)`. -/
def philox (k0 k1 : Word) (c : Counter) : Word :=
  ((List.range 10).foldl philoxStep ((k0, k1), c)).2.c0

/-- `RngAlgorithm`. -/
inductive RngAlgorithm
  | Threefry
  | Philox
  deriving DecidableEq, Repr

/-- The state of the generator: two pairs of low and high words. -/
structure State where
  w0 : Word
  w1 : Word
  h0 : Word
  h1 : Word
  deriving DecidableEq, Repr

/-- The word drawn for the element with a row-major index. -/
def drawn (algorithm : RngAlgorithm) (state : State) (index : Nat) : Word :=
  match algorithm with
  | .Threefry =>
    let key := threefry state.w0 state.h0 state.h1 0x1BD11BDA#32
    (threefry key.1 key.2 (BitVec.ofNat 32 index) state.w1).1
  | .Philox => philox state.w0 state.h0 ⟨BitVec.ofNat 32 index, state.w1, 0, state.h1⟩

/-- The state after a draw: its second 64-bit element plus one. -/
def State.next (state : State) : State :=
  let second : BitVec 64 := (state.h1 ++ state.w1) + 1#64
  ⟨state.w0, second.setWidth 32, state.h0, (second >>> 32).setWidth 32⟩

example : (threefry 0 0 0 0).1 = 0x6B200159#32 ∧ philox 0 0 ⟨0, 0, 0, 0⟩ = 0x6627E8D5#32 := by
  decide

end Libtt.Rng

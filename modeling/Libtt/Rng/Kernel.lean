import Libtt.Rng.Reference

/-!
# The rng_bits kernels

The compute kernel fills one tile after another in the vector unit's DST registers; the mover
writes the packed tiles to their pages and, on the first core, the new state. Vector loads and
stores go by the layout that `lane_offsets` documents, and `SFPMUL24` returns the halves of the
product of the low 23 bits.
-/

namespace Libtt.Rng

/-- A place in DST: a tile, one of its faces, and a row and a column of the face. -/
structure Position where
  tile : Nat
  face : Fin 4
  row : Fin 16
  column : Fin 16
  deriving DecidableEq, Repr

/-- The DST registers. -/
abbrev Dst := Position → Word

/-- The 32 lanes of a vector. -/
abbrev Lanes := Fin 32 → Word

/-- The element lane `lane` has in vector `d` of a face. -/
def positionOf (tile : Nat) (face : Fin 4) (d : Fin 8) (lane : Fin 32) : Position :=
  ⟨tile, face, ⟨4 * (d / 2) + lane / 8, by omega⟩, ⟨2 * (lane % 8) + d % 2, by omega⟩⟩

/-- The vector of a face an element belongs to. -/
def Position.vector (p : Position) : Fin 4 × Fin 8 :=
  (p.face, ⟨2 * (p.row / 4) + p.column % 2, by omega⟩)

/-- The lane of its vector an element is in. -/
def Position.lane (p : Position) : Fin 32 := ⟨8 * (p.row % 4) + p.column / 2, by omega⟩

/-- Load a vector. -/
def load (dst : Dst) (tile : Nat) (vector : Fin 4 × Fin 8) : Lanes :=
  fun lane => dst (positionOf tile vector.1 vector.2 lane)

/-- Store a vector. -/
def store (dst : Dst) (tile : Nat) (vector : Fin 4 × Fin 8) (lanes : Lanes) : Dst :=
  fun p => if p.tile = tile ∧ p.vector = vector then lanes p.lane else dst p

/-- The vectors of a tile, in the order of the loops over faces and `d`. -/
def vectors : List (Fin 4 × Fin 8) :=
  (List.finRange 4).flatMap fun face => (List.finRange 8).map fun d => (face, d)

/-- `SFPMUL24`, the low half. -/
def fractionalMul (x y : Word) : Word :=
  BitVec.ofNat 32 (x.toNat % 2 ^ 23 * (y.toNat % 2 ^ 23) % 2 ^ 23)

/-- `SFPMUL24`, the high half. -/
def fractionalMulHigh (x y : Word) : Word :=
  BitVec.ofNat 32 (x.toNat % 2 ^ 23 * (y.toNat % 2 ^ 23) / 2 ^ 23)

/-- `lane_offsets`. The tile-id register holds twice the lane. -/
def laneOffsets (W : Word) : Lanes := fun lane =>
  let tileId := BitVec.ofNat 32 (2 * lane)
  let offset := tileId &&& 14#32
  let row := tileId >>> 4
  let offset := if row &&& 1#32 ≠ 0 then offset + W else offset
  if row &&& 2#32 ≠ 0 then offset + W <<< 1 else offset

/-- `vector_index`. -/
def vectorIndex (faceIndex W : Word) (d : Fin 8) : Word :=
  faceIndex + BitVec.ofNat 32 (4 * (d / 2)) * W + BitVec.ofNat 32 (d % 2)

/-- The index of the first element of a face. -/
def faceIndex (base W : Word) (face : Fin 4) : Word :=
  base + BitVec.ofNat 32 (16 * (face / 2)) * W + BitVec.ofNat 32 (16 * (face % 2))

/-- `threefry_rounds`. -/
def threefryRounds (r0 r1 r2 r3 : Nat) (x : Word × Word) : Word × Word :=
  let x0 := x.1 + x.2
  let x1 := rotateLeft x.2 r0 ^^^ x0
  let x0 := x0 + x1
  let x1 := rotateLeft x1 r1 ^^^ x0
  let x0 := x0 + x1
  let x1 := rotateLeft x1 r2 ^^^ x0
  let x0 := x0 + x1
  (x0, rotateLeft x1 r3 ^^^ x0)

/-- `threefry` of the kernel, whose words include the first key addition. -/
def threefryKeyed (x : Word × Word) (ks0 ks1 ks2 : Word) : Word × Word :=
  let x := threefryRounds 13 15 26 6 x
  let x := threefryRounds 17 29 16 24 (x.1 + ks1, x.2 + (ks2 + 1))
  let x := threefryRounds 13 15 26 6 (x.1 + ks2, x.2 + (ks0 + 2))
  let x := threefryRounds 17 29 16 24 (x.1 + ks0, x.2 + (ks1 + 3))
  let x := threefryRounds 13 15 26 6 (x.1 + ks1, x.2 + (ks2 + 4))
  (x.1 + ks2, x.2 + (ks0 + 5))

/-- Whether the first row of a vector is a row of the tensor. -/
def rowValid (vector : Fin 4 × Fin 8) (rowsValid : Nat) : Bool :=
  decide (16 * (vector.1.val / 2) + 4 * (vector.2.val / 2) < rowsValid)

/-- `threefry_tile`. -/
def threefryTile (tile : Nat) (base W : Word) (rowsValid : Nat) (ks0 ks1 ks2 w1 : Word)
    (dst : Dst) : Dst :=
  vectors.foldl
    (fun dst vector =>
      if rowValid vector rowsValid then
        store dst tile vector fun lane =>
          (threefryKeyed
            (laneOffsets W lane + (vectorIndex (faceIndex base W vector.1) W vector.2 + ks0), w1 + ks1)
            ks0 ks1 ks2).1
      else dst)
    dst

/-- `index_tile`. -/
def indexTile (tile : Nat) (base W : Word) (dst : Dst) : Dst :=
  vectors.foldl
    (fun dst vector =>
      store dst tile vector fun lane =>
        laneOffsets W lane + vectorIndex (faceIndex base W vector.1) W vector.2)
    dst

/-- `mulhilo`. -/
def mulhilo (multiplier x : Word) : Word × Word :=
  let y := multiplier
  let xh := x >>> 23
  let yh := multiplier >>> 23
  let middle := fractionalMulHigh x y
  let middle := middle + fractionalMul xh y
  let middle := middle + fractionalMul x yh
  let hi := fractionalMul xh yh
  let hi := hi + fractionalMulHigh xh y
  let hi := hi + fractionalMulHigh x yh
  ((hi <<< 14) + (middle >>> 9), fractionalMul x y + middle <<< 23)

/-- One vector of `philox_half_round`. -/
def philoxHalfVector (multiplier : Word) (lastRound : Bool) (word other : Nat) (key : Word)
    (vector : Fin 4 × Fin 8) (dst : Dst) : Dst :=
  let hilo : Fin 32 → Word × Word := fun lane => mulhilo multiplier (load dst word vector lane)
  let dst := if lastRound then dst else store dst word vector fun lane => (hilo lane).2
  store dst other vector fun lane => (hilo lane).1 ^^^ load dst other vector lane ^^^ key

/-- `philox_half_round`. -/
def philoxHalfRound (multiplier : Word) (lastRound : Bool) (word other : Nat) (key : Word)
    (rowsValid : Nat) (dst : Dst) : Dst :=
  vectors.foldl
    (fun dst vector =>
      if rowValid vector rowsValid then
        philoxHalfVector multiplier lastRound word other key vector dst
      else dst)
    dst

/-- `fill_tile_int`. -/
def fillTile (tile : Nat) (value : Word) (dst : Dst) : Dst :=
  fun p => if p.tile = tile then value else dst p

/-- The registers of the Philox loop: the tiles of the four counter words, the key and DST. -/
structure PhiloxLoop where
  x : Nat × Nat × Nat × Nat
  k0 : Word
  k1 : Word
  dst : Dst

/-- One of the nine full Philox rounds. -/
def PhiloxLoop.round (rowsValid : Nat) (loop : PhiloxLoop) : PhiloxLoop :=
  let (x0, x1, x2, x3) := loop.x
  let dst := philoxHalfRound 0xD2511F53#32 false x0 x3 loop.k1 rowsValid loop.dst
  let dst := philoxHalfRound 0xCD9E8D57#32 false x2 x1 loop.k0 rowsValid dst
  ⟨(x1, x2, x3, x0), loop.k0 + 0x9E3779B9#32, loop.k1 + 0xBB67AE85#32, dst⟩

/-- The runtime arguments all cores share. -/
structure CommonArgs where
  W : Nat
  H : Nat
  Wt : Nat
  Ht : Nat
  deriving DecidableEq, Repr

/-- One tile of the compute kernel: what `pack_tile` packs, from the words of the state page and
whatever DST held. -/
def computeTile (algorithm : RngAlgorithm) (args : CommonArgs) (words : Nat → Word) (tile : Nat)
    (dst : Dst) : Fin 4 → Fin 16 → Fin 16 → Word :=
  let w0 := words 0
  let w1 := words 16
  let keyHigh := words 1
  let counterHigh := words 17
  let tc := tile % args.Wt
  let tr := tile / args.Wt % args.Ht
  let b := tile / (args.Wt * args.Ht % 2 ^ 32)
  let W := BitVec.ofNat 32 args.W
  let base := (BitVec.ofNat 32 b * BitVec.ofNat 32 args.H + BitVec.ofNat 32 tr * 32) * W +
    BitVec.ofNat 32 tc * 32
  let rowsValid := if args.H - tr * 32 < 32 then args.H - tr * 32 else 32
  match algorithm with
  | .Threefry =>
    let ks := threefryKeyed (counterHigh + w0, 0x1BD11BDA#32 + keyHigh) w0 keyHigh
      (w0 ^^^ keyHigh ^^^ 0x1BD11BDA#32)
    let dst := threefryTile 0 base W rowsValid ks.1 ks.2 (ks.1 ^^^ ks.2 ^^^ 0x1BD11BDA#32) w1 dst
    fun face row column => dst ⟨0, face, row, column⟩
  | .Philox =>
    let dst := indexTile 0 base W dst
    let dst := fillTile 3 counterHigh (fillTile 2 0 (fillTile 1 w1 dst))
    let loop := (List.range 9).foldl (fun loop _ => loop.round rowsValid)
      (⟨(0, 1, 2, 3), w0, keyHigh, dst⟩ : PhiloxLoop)
    let (_, x1, x2, _) := loop.x
    let dst := philoxHalfRound 0xCD9E8D57#32 true x2 x1 loop.k0 rowsValid loop.dst
    fun face row column => dst ⟨x1, face, row, column⟩

/-- The batches, rows and columns of a shape; a vector is one row. -/
def dimensions (shape : List Nat) : Nat × Nat × Nat :=
  match shape.reverse with
  | [] => (1, 1, 1)
  | [W] => (1, 1, W)
  | W :: H :: batch => (batch.prod, H, W)

/-- The arguments `create_program_artifacts` gives all cores. -/
def commonArgs (shape : List Nat) : CommonArgs :=
  let (_, H, W) := dimensions shape
  ⟨W, H, (W + 31) / 32, (H + 31) / 32⟩

/-- The tiles of the padded tensor. -/
def numTiles (shape : List Nat) : Nat :=
  (dimensions shape).1 * (commonArgs shape).Ht * (commonArgs shape).Wt

/-- `top_half_tile`: rows in the top halves of their tiles are written as half tiles. -/
def topHalfTile (shape : List Nat) : Bool :=
  let (_, H, W) := dimensions shape
  decide (H ≤ 16 ∧ 32768 ≤ W)

/-- The words of an output buffer entry. -/
def entryWords (shape : List Nat) : Nat := if topHalfTile shape then 512 else 1024

/-- The word at an offset of a packed tile, whose faces follow each other. -/
def packTile (tile : Fin 4 → Fin 16 → Fin 16 → Word) (offset : Nat) : Word :=
  tile ⟨offset / 256 % 4, Nat.mod_lt _ (by decide)⟩ ⟨offset / 16 % 16, Nat.mod_lt _ (by decide)⟩
    ⟨offset % 16, Nat.mod_lt _ (by decide)⟩

/-- The arguments of one core. -/
structure CoreArgs where
  firstTile : Nat
  tiles : Nat
  writeState : Bool
  deriving DecidableEq, Repr

/-- The arguments of the cores that take the next tiles in turn, from core `core` on. -/
def coreArgs (core first : Nat) : List Nat → List CoreArgs
  | [] => []
  | count :: counts =>
    ⟨first, count, core == 0⟩ :: coreArgs (core + 1) ((first + count) % 2 ^ 32) counts

/-- The mover's handling of the state page: what the compute kernel sees, and the page written to
the new state, if this core writes it. -/
def moverState (writeState : Bool) (page : Nat → Word) : (Nat → Word) × Option (Nat → Word) :=
  if writeState then
    let w1 := page 16
    let high := page 17
    let words := Function.update (Function.update page 16 (w1 + 1)) 17
      (high + if w1 = 0xFFFFFFFF#32 then 1 else 0)
    (Function.update (Function.update words 16 w1) 17 high, some words)
  else (page, none)

/-- The pages of the bits one core writes, with the entries written to them. `stale` is what DST
holds when a tile is begun. -/
def coreWrites (algorithm : RngAlgorithm) (shape : List Nat) (state : Nat → Word)
    (stale : Nat → Dst) (core : CoreArgs) : List (Nat × (Nat → Word)) :=
  let words := (moverState core.writeState state).1
  (List.range core.tiles).map fun k =>
    let tile := (core.firstTile + k) % 2 ^ 32
    (tile, packTile (computeTile algorithm (commonArgs shape) words tile (stale tile)))

/-- A tensor in memory: the words of its pages. -/
abbrev Pages := Nat × Nat → Word

/-- Write an entry to the front of a page. -/
def writePage (size : Nat) (write : Nat × (Nat → Word)) (pages : Pages) : Pages :=
  fun place => if place.1 = write.1 ∧ place.2 < size then write.2 place.2 else pages place

/-- The element of a tiled tensor with a row-major index. -/
def elementAt (shape : List Nat) (pages : Pages) (index : Nat) : Word :=
  let (_, H, W) := dimensions shape
  let c := index % W
  let r := index / W % H
  let b := index / (W * H)
  let args := commonArgs shape
  pages ((b * args.Ht + r / 32) * args.Wt + c / 32,
    256 * (2 * (r % 32 / 16) + c % 32 / 16) + 16 * (r % 16) + c % 16)

/-- The state in a page: two rows of low and high words. -/
def stateOf (page : Nat → Word) : State := ⟨page 0, page 16, page 1, page 17⟩

end Libtt.Rng

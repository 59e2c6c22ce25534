import Libtt.AllReduce.Handshake
import Libtt.Foundation.Copies
import Libtt.Foundation.Loop
import Mathlib.Algebra.BigOperators.Group.List.Lemmas
import Mathlib.Data.List.GetD
import Mathlib.Data.Nat.Prime.Basic

/-!
# Direct all-reduce: the scratch

`direct_all_reduce_scratch_config` splits the width of a tensor of one row of tiles over worker
cores; each of them holds every rank's copy of its slice in L1.
-/
namespace Libtt.AllReduce

open Libtt.Foundation

def tileHeight : Nat := 32
def tileWidth : Nat := 32
def faceHeight : Nat := 16
def faceWidth : Nat := 16
def tileHw : Nat := tileHeight * tileWidth

/-- A `uint32_t`. -/
def word (number : Nat) : Nat := number % 2 ^ 32

inductive Arch where
  | wormhole | blackhole
  deriving DecidableEq

inductive DataType where
  | bfloat16 | float32 | other
  deriving DecidableEq

inductive Layout where
  | rowMajor | tile
  deriving DecidableEq

/-- `shape[-i]`. -/
def fromBack (shape : List Nat) (i : Nat) : Nat := shape.getD (shape.length - i) 1

/-- What the direct exchange reads of a tensor. In tiles, the last two dimensions are padded to
whole tiles. -/
structure InputTensor where
  arch : Arch
  dtype : DataType
  layout : Layout
  /-- Its memory config is `DRAM_MEMORY_CONFIG`. -/
  dramMemoryConfig : Bool
  logicalShape : List Nat
  paddedShape : List Nat
  tilePadded : layout = .tile → 2 ≤ paddedShape.length →
    tileHeight ∣ fromBack paddedShape 2 ∧ tileWidth ∣ fromBack paddedShape 1 ∧
      fromBack logicalShape 2 ≤ fromBack paddedShape 2

namespace InputTensor

/-- The number of logical rows. -/
def rows (input : InputTensor) : Nat := fromBack input.logicalShape 2

/-- The width in tiles. -/
def Wt (input : InputTensor) : Nat := fromBack input.paddedShape 1 / tileWidth

def elementSize (input : InputTensor) : Nat :=
  match input.dtype with
  | .bfloat16 => 2
  | _ => 4

end InputTensor

/-- `tt::round_up`. -/
def roundUp (number multiple : Nat) : Nat := (number + multiple - 1) / multiple * multiple

/-- The bytes sent for a tile: the logical rows of its two upper faces, each at the alignment of the
DRAM. Whole tiles are sent when the rows do not fit in these faces. -/
def directAllReducePackedTileBytes (dramAlignment logicalRows elementSize : Nat) : Option Nat :=
  if faceHeight < logicalRows then none
  else some (2 * roundUp (logicalRows * faceWidth * elementSize) dramAlignment)

/-- A width-sharded config in L1: the cores in row-major order, and the shape of each core's
shard. -/
structure ScratchConfig where
  cores : List (Nat × Nat)
  shardShape : Nat × Nat
  deriving DecidableEq

/-- `num_cores_to_corerangeset`, row-wise. -/
def numCoresToCorerangeset (count : Nat) (grid : Nat × Nat) : List (Nat × Nat) :=
  (List.range count).map fun i => (i % grid.1, i / grid.1)

def maxWorkers : Nat := 32
def maxScratchBytesPerCore : Nat := 512 * 1024

def shardWidth (ringSize Wt workers : Nat) : Nat := word (ringSize * (Wt / workers) * tileWidth)

/-- The width divides evenly, and the slices of all ranks are found to fit. -/
def slicesFit (ringSize Wt elementSize workers : Nat) : Bool :=
  Wt % workers == 0 &&
    word (shardWidth ringSize Wt workers * tileHeight * elementSize) ≤ maxScratchBytesPerCore

/-- The most workers up to the target whose slices fit, or else the fewest above it. -/
def chooseWorkers (fits : Nat → Bool) (targetWorkers mostWorkers : Nat) : Nat :=
  (List.range mostWorkers).foldl (fun workers i =>
    if fits (i + 1) && (workers == 0 || i + 1 ≤ targetWorkers) then i + 1 else workers) 0

/-- `direct_all_reduce_scratch_config`. -/
def directAllReduceScratchConfig (dramAlignment : Nat) (grid : Nat × Nat) (input : InputTensor)
    (ringSize : Nat) : Option ScratchConfig :=
  if input.arch ≠ .blackhole ∨ ringSize < 2 ∨ ringSize % 2 ≠ 0 ∨ input.dtype ≠ .bfloat16 ∨
      input.layout ≠ .tile ∨ input.dramMemoryConfig = false ∨ input.paddedShape.length < 2 ∨
      input.paddedShape.prod ≠ word (tileHeight * fromBack input.paddedShape 1) then
    none
  else
    let tileBytes := tileHeight * tileWidth * input.elementSize
    let payloadBytes :=
      (directAllReducePackedTileBytes dramAlignment input.rows input.elementSize).getD tileBytes
    let targetWorkers := word (word (input.Wt * payloadBytes) + tileBytes - 1) / tileBytes
    let mostWorkers := min maxWorkers (min input.Wt (word (grid.1 * grid.2)))
    let workers :=
      chooseWorkers (slicesFit ringSize input.Wt input.elementSize) targetWorkers mostWorkers
    if workers = 0 then none
    else
      some ⟨numCoresToCorerangeset workers grid, tileHeight, shardWidth ringSize input.Wt workers⟩

/-- The pages of a rank's slice on each core: the factory divides the width of the shards by the
number of ranks. -/
def ScratchConfig.shardNumPages (config : ScratchConfig) (ringSize : Nat) : Nat :=
  word (config.shardShape.1 * (config.shardShape.2 / ringSize)) / tileHw

/-- The first output page of each core. -/
def outputStarts (numPages : Nat) : Nat → List (Nat × Nat) → List ((Nat × Nat) × Nat)
  | _, [] => []
  | start, core :: cores => (core, start) :: outputStarts numPages (start + numPages) cores

theorem chooseWorkers_spec (fits : Nat → Bool) (targetWorkers mostWorkers : Nat) :
    chooseWorkers fits targetWorkers mostWorkers = 0 ∨
      chooseWorkers fits targetWorkers mostWorkers ≤ mostWorkers ∧
        fits (chooseWorkers fits targetWorkers mostWorkers) = true := by
  apply foldl_range_induct
    (fun turns workers => workers = 0 ∨ workers ≤ turns ∧ fits workers = true)
  · exact .inl rfl
  · intro i less workers earlier
    split
    case isTrue taken =>
      rw [Bool.and_eq_true] at taken
      exact .inr ⟨le_refl _, taken.1⟩
    case isFalse =>
      exact earlier.imp_right fun fitting => ⟨Nat.le_succ_of_le fitting.1, fitting.2⟩

theorem roundUp_spec (number : Nat) {multiple : Nat} (positive : 0 < multiple) :
    multiple ∣ roundUp number multiple ∧ number ≤ roundUp number multiple ∧
      roundUp number multiple < number + multiple := by
  have split := Nat.div_add_mod (number + multiple - 1) multiple
  have rest := Nat.mod_lt (number + multiple - 1) positive
  rw [Nat.mul_comm] at split
  unfold roundUp
  refine ⟨Nat.dvd_mul_left _ _, ?_, ?_⟩
  · omega
  · omega

/-- Rounding up stays below any multiple. -/
theorem roundUp_le {number multiple bound : Nat} (positive : 0 < multiple) (le : number ≤ bound)
    (divides : multiple ∣ bound) : roundUp number multiple ≤ bound := by
  have spec := roundUp_spec number positive
  exact Nat.le_of_lt_add_of_dvd (by omega) spec.1 divides

/-- The rows of a face take at least their bytes, no more than the face, and whole elements. -/
theorem packedTileBytes_spec {dramAlignment rows packed : Nat} (alignment : dramAlignment ∣ 512)
    (isPacked : directAllReducePackedTileBytes dramAlignment rows 2 = some packed) :
    rows ≤ 16 ∧ ∃ half, packed = 2 * (2 * half) ∧ rows * 32 ≤ 2 * half ∧ 2 * half ≤ 512 := by
  have positive : 0 < dramAlignment := Nat.pos_of_dvd_of_pos alignment (by decide)
  unfold directAllReducePackedTileBytes faceHeight faceWidth at isPacked
  rw [Option.ite_none_left_eq_some, Option.some.injEq] at isPacked
  obtain ⟨few, rfl⟩ := isPacked
  have few : rows ≤ 16 := Nat.le_of_not_lt few
  have bytes : rows * 16 * 2 = rows * 32 := by omega
  rw [bytes]
  have spec := roundUp_spec (rows * 32) positive
  have small : roundUp (rows * 32) dramAlignment ≤ 512 :=
    roundUp_le positive (by omega) alignment
  have even : 2 ∣ roundUp (rows * 32) dramAlignment := by
    obtain ⟨exponent, -, rfl⟩ := (Nat.dvd_prime_pow Nat.prime_two (m := 9)).mp alignment
    cases exponent with
    | zero => exact ⟨rows * 16, by unfold roundUp; omega⟩
    | succ exponent => exact (Dvd.intro_left _ (Nat.pow_succ ..).symm).trans spec.1
  obtain ⟨half, isHalf⟩ := even
  rw [isHalf] at spec small ⊢
  exact ⟨few, half, rfl, spec.2.1, small⟩

/-- What a config says that the exchange relies on. -/
structure Accepted (input : InputTensor) (grid : Nat × Nat) (ringSize : Nat)
    (config : ScratchConfig) (workers : Nat) : Prop where
  even : ringSize % 2 = 0
  several : 2 ≤ ringSize
  bfloat16 : input.dtype = .bfloat16
  rows : input.rows ≤ tileHeight
  width : input.Wt < 2 ^ 22
  workers_pos : 0 < workers
  onGrid : workers ≤ grid.1 * grid.2
  divides : workers ∣ input.Wt
  someWidth : 0 < input.Wt
  fits : word (shardWidth ringSize input.Wt workers * tileHeight * 2) ≤ maxScratchBytesPerCore
  isConfig : config =
    ⟨numCoresToCorerangeset workers grid, tileHeight, shardWidth ringSize input.Wt workers⟩

/-- The volume is the width times the rows of all leading dimensions. -/
theorem volume_split {shape : List Nat} (rank : 2 ≤ shape.length) :
    ∃ leading, shape.prod = leading * fromBack shape 1 ∧ fromBack shape 2 ∣ leading := by
  cases shape using List.reverseRecOn with
  | nil => exact absurd rank (by decide)
  | append_singleton leading last =>
    rw [List.length_append, List.length_singleton] at rank
    have inside : leading.length - 1 < leading.length := by omega
    have position : leading.length + 1 - 2 = leading.length - 1 := by omega
    refine ⟨leading.prod, ?_, ?_⟩
    · simp [fromBack]
    · rw [fromBack, List.length_append, List.length_singleton, position,
        List.getD_append _ _ _ _ inside, List.getD_eq_getElem _ _ inside]
      exact List.dvd_prod (List.getElem_mem inside)

/-- A tensor in tiles whose volume is found to be one row of tiles is one. -/
theorem one_tile_row {shape : List Nat} (rank : 2 ≤ shape.length)
    (tiled : tileHeight ∣ fromBack shape 2) (some : 0 < shape.prod)
    (volume : shape.prod = word (tileHeight * fromBack shape 1)) :
    fromBack shape 2 = tileHeight ∧ tileHeight * fromBack shape 1 < 2 ^ 32 := by
  obtain ⟨leading, split, divides⟩ := volume_split rank
  rw [split] at some volume
  have someLeading : 0 < leading := Nat.pos_of_mul_pos_right some
  have someWidth : 0 < fromBack shape 1 := Nat.pos_of_mul_pos_left some
  have many : tileHeight ≤ leading := Nat.le_of_dvd someLeading (tiled.trans divides)
  have larger : tileHeight * fromBack shape 1 ≤ leading * fromBack shape 1 :=
    Nat.mul_le_mul_right _ many
  have small : tileHeight * fromBack shape 1 < 2 ^ 32 := by
    calc
      tileHeight * fromBack shape 1 ≤ leading * fromBack shape 1 := larger
      _ = word (tileHeight * fromBack shape 1) := volume
      _ < 2 ^ 32 := Nat.mod_lt _ (by decide)
  rw [word, Nat.mod_eq_of_lt small] at volume
  have isOne : leading = tileHeight := Nat.eq_of_mul_eq_mul_right someWidth volume
  rw [isOne] at divides
  exact ⟨Nat.dvd_antisymm divides tiled, small⟩

theorem scratchConfig_accepted {dramAlignment : Nat} {grid : Nat × Nat} {input : InputTensor}
    {ringSize : Nat} {config : ScratchConfig} (nonEmpty : 0 < input.paddedShape.prod)
    (isSome : directAllReduceScratchConfig dramAlignment grid input ringSize = some config) :
    ∃ workers, Accepted input grid ringSize config workers := by
  unfold directAllReduceScratchConfig at isSome
  rw [Option.ite_none_left_eq_some] at isSome
  obtain ⟨accepted, isSome⟩ := isSome
  simp only [not_or, not_lt, Decidable.not_not, Bool.not_eq_false] at accepted
  obtain ⟨-, several, even, bfloat16, tiled, -, rank, volume⟩ := accepted
  have size : input.elementSize = 2 := by rw [InputTensor.elementSize, bfloat16]
  rw [size, Option.ite_none_left_eq_some, Option.some.injEq] at isSome
  obtain ⟨someWorkers, rfl⟩ := isSome
  have chosen := (chooseWorkers_spec _ _ _).resolve_left someWorkers
  rw [slicesFit, Bool.and_eq_true, beq_iff_eq, decide_eq_true_eq] at chosen
  obtain ⟨most, divides, fits⟩ := chosen
  obtain ⟨tileRows, -, rows⟩ := input.tilePadded tiled rank
  obtain ⟨oneRow, narrow⟩ := one_tile_row rank tileRows nonEmpty volume
  have onGrid : word (grid.1 * grid.2) ≤ grid.1 * grid.2 := Nat.mod_le _ _
  refine ⟨_, even, several, bfloat16, rows.trans_eq oneRow, ?_, by omega, by omega,
    Nat.dvd_of_mod_eq_zero divides, by omega, fits, rfl⟩
  unfold InputTensor.Wt tileWidth
  unfold tileHeight at narrow
  omega

theorem shardNumPages_eq {cores : List (Nat × Nat)} {width ringSize : Nat}
    (small : width / ringSize < 2 ^ 27) :
    ScratchConfig.shardNumPages ⟨cores, tileHeight, width⟩ ringSize =
      width / ringSize / tileWidth := by
  change word (tileHeight * (width / ringSize)) / tileHw = _
  unfold word tileHw tileHeight tileWidth
  omega

/-- The slices are those of the width exactly if the width of a shard is within 32 bits. -/
theorem Accepted.partition_iff {input : InputTensor} {grid : Nat × Nat} {ringSize workers : Nat}
    {config : ScratchConfig} (accepted : Accepted input grid ringSize config workers) :
    workers * config.shardNumPages ringSize = input.Wt ↔
      ringSize * (input.Wt / workers) * tileWidth < 2 ^ 32 := by
  have positive := accepted.workers_pos
  have several := accepted.several
  have width := accepted.width
  obtain ⟨slice, split⟩ := accepted.divides
  have isSlice : input.Wt / workers = slice := by
    rw [split, Nat.mul_div_cancel_left _ positive]
  have narrow : slice ≤ input.Wt := by
    rw [split]
    exact Nat.le_mul_of_pos_left _ positive
  have someRanks : 0 < ringSize := by omega
  -- Wrapped or not, a slice is no wider than it should be.
  have narrower : shardWidth ringSize input.Wt workers / ringSize ≤ slice * tileWidth := by
    rw [shardWidth, isSlice]
    apply Nat.div_le_of_le_mul
    rw [← Nat.mul_assoc]
    exact Nat.mod_le _ _
  have small : shardWidth ringSize input.Wt workers / ringSize < 2 ^ 27 := by
    unfold tileWidth at narrower
    omega
  rw [accepted.isConfig, shardNumPages_eq small, isSlice]
  nth_rewrite 2 [split]
  rw [Nat.mul_right_inj positive.ne', shardWidth, isSlice, word]
  by_cases fits : ringSize * slice * tileWidth < 2 ^ 32
  · rw [Nat.mod_eq_of_lt fits, Nat.mul_assoc, Nat.mul_div_cancel_left _ someRanks]
    rw [Nat.mul_assoc] at fits
    exact iff_of_true (Nat.mul_div_cancel _ (by decide)) fits
  · have less : ringSize * slice * tileWidth % 2 ^ 32 < ringSize * (slice * tileWidth) := by
      rw [← Nat.mul_assoc]
      exact (Nat.mod_lt _ (by decide)).trans_le (Nat.le_of_not_lt fits)
    have strictly := Nat.div_lt_of_lt_mul less
    exact iff_of_false (Nat.div_lt_of_lt_mul (by rwa [Nat.mul_comm tileWidth])).ne fits

end Libtt.AllReduce

/-! ## Direct all-reduce: the exchange -/
namespace Libtt.AllReduce

open Libtt.Foundation

/-- The bytes of a page, which is a tile. -/
def tileBytes : Nat := tileHeight * tileWidth * 2

/-- A byte: of an input page of a rank, of what the reader of a link of a rank passes to its writer,
of the scratch of a core, of its sums, and of an output page. -/
inductive Cell where
  | input (rank page offset : Nat)
  | staged (rank link offset : Nat)
  | scratch (core : Nat × Nat) (offset : Nat)
  | reduced (core : Nat × Nat) (offset : Nat)
  | output (page offset : Nat)
  deriving DecidableEq

/-- The pages of the links, one range after the other. -/
structure LinkSplit where
  numLinks : Nat
  start : Nat → Nat
  start_zero : start 0 = 0
  monotone : Monotone start

def LinkSplit.total (links : LinkSplit) (link : Nat) : Nat :=
  links.start (link + 1) - links.start link

/-- The program that the factory creates on every chip. -/
structure Program where
  ringSize : Nat
  cores : List (Nat × Nat)
  /-- `output_tensor_shard_num_pages`. -/
  numPages : Nat
  /-- `PACKED_TILE_BYTES`, if it is defined. -/
  packedTileBytes : Option Nat
  packetSizeInPages : Nat
  maxDstTiles : Nat
  links : LinkSplit
  cores_nodup : cores.Nodup
  numPages_pos : 0 < numPages
  packetSize_pos : 0 < packetSizeInPages
  maxDst_pos : 0 < maxDstTiles
  covers : links.start links.numLinks = cores.length * numPages
  packed_faces : ∀ packed ∈ packedTileBytes, ∃ half, packed = 2 * (2 * half) ∧ 0 < half ∧
    2 * half ≤ tileBytes / 4

namespace Program

/-- `payload_bytes_per_tile`. -/
def payloadBytesPerTile (program : Program) : Nat := program.packedTileBytes.getD tileBytes

/-- `packed_face_bytes`, and the offset of the second face in a page. -/
def packedFaceBytes (packed : Nat) : Nat := packed / 2
def tileFaceBytes : Nat := tileBytes / 4

/-- `PACKED_PAGES`, or all pages of a slot. -/
def reduceTiles (program : Program) : Nat :=
  match program.packedTileBytes with
  | some packed => (program.numPages * packed + tileBytes - 1) / tileBytes
  | none => program.numPages

/-- The same program without packing. -/
def wholeTiles (program : Program) : Program :=
  { program with packedTileBytes := none, packed_faces := nofun }

theorem payload_pos (program : Program) : 0 < program.payloadBytesPerTile := by
  unfold payloadBytesPerTile
  cases isPacked : program.packedTileBytes with
  | none => exact show 0 < tileBytes by decide
  | some packed =>
    obtain ⟨half, rfl, some, -⟩ := program.packed_faces packed isPacked
    rw [Option.getD_some]
    omega

theorem payload_le (program : Program) : program.payloadBytesPerTile ≤ tileBytes := by
  unfold payloadBytesPerTile
  cases isPacked : program.packedTileBytes with
  | none => exact le_refl _
  | some packed =>
    obtain ⟨half, rfl, -, small⟩ := program.packed_faces packed isPacked
    rw [Option.getD_some]
    omega

/-- `dram_reader`: of each tile the first rows of its two upper faces, packed back to back, or the
whole tile. -/
def dramReader (program : Program) (rank link : Nat) : List (Copy Cell) :=
  let start := program.links.start link
  (List.range (program.links.total link)).flatMap fun t =>
    match program.packedTileBytes with
    | some packed =>
      transfer (packedFaceBytes packed)
          (fun i => .staged rank link (2 * t * packedFaceBytes packed + i))
          (fun i => .input rank (start + t) i) ++
        transfer (packedFaceBytes packed)
          (fun i => .staged rank link ((2 * t + 1) * packedFaceBytes packed + i))
          (fun i => .input rank (start + t) (tileFaceBytes + i))
    | none =>
      -- In chunks, each behind the one before it.
      transfer tileBytes (fun i => .staged rank link (t * tileBytes + i))
        (fun i => .input rank (start + t) i)

/-- The arguments of a link's `worker_writer`: it starts inside the slice of a core. -/
def writerArgs (program : Program) (link : Nat) : WriterArgs where
  numTilesToRead := program.links.total link
  numTilesPerCore := program.numPages
  firstCoreTileStartOffset := program.links.start link % program.numPages
  packetSizeInPages := program.packetSizeInPages
  tensor0PageSize := tileBytes
  payloadBytesPerTile := program.payloadBytesPerTile
  startsInside := Nat.mod_lt _ program.numPages_pos
  packetHoldsTile := Nat.div_pos
    (program.payload_le.trans (Nat.le_mul_of_pos_left _ program.packetSize_pos)) program.payload_pos

/-- The start of a rank's slot in the scratch, `writer_chip_offset` on that rank. -/
def slotStart (program : Program) (rank : Nat) : Nat := rank * program.numPages * tileBytes

def core (program : Program) (index : Nat) : Nat × Nat := program.cores.getD index (0, 0)

/-- The packets of `worker_writer`, from the circular buffer to the slot of its chip. -/
def workerWriter (program : Program) (rank link : Nat) : List (Copy Cell) :=
  (program.writerArgs link).packets.flatMap fun packet =>
    transfer (packet.tiles * program.payloadBytesPerTile)
      (fun i => .scratch
        (program.core (program.links.start link / program.numPages + packet.coreId))
        (program.slotStart rank + packet.shardTileId * program.payloadBytesPerTile + i))
      (fun i => .staged rank link (packet.tilesRead * program.payloadBytesPerTile + i))

/-- `dram_writer` of a core: its sums back to the start of the two upper faces of its tiles, or
whole tiles. -/
def dramWriter (program : Program) (core : Nat × Nat) (start : Nat) : List (Copy Cell) :=
  (List.range program.numPages).flatMap fun t =>
    match program.packedTileBytes with
    | some packed =>
      transfer (packedFaceBytes packed) (fun i => .output (start + t) i)
          (fun i => .reduced core (2 * t * packedFaceBytes packed + i)) ++
        transfer (packedFaceBytes packed) (fun i => .output (start + t) (tileFaceBytes + i))
          (fun i => .reduced core ((2 * t + 1) * packedFaceBytes packed + i))
    | none =>
      transfer tileBytes (fun i => .output (start + t) i)
        (fun i => .reduced core (t * tileBytes + i))

/-- What all readers of all chips read, and what all their writers send to one chip. -/
def onLinks (program : Program) (kernel : Nat → Nat → List (Copy Cell)) : List (Copy Cell) :=
  (List.range program.ringSize).flatMap fun rank =>
    (List.range program.links.numLinks).flatMap fun link => kernel rank link

def reads (program : Program) : List (Copy Cell) := program.onLinks program.dramReader

def sends (program : Program) : List (Copy Cell) := program.onLinks program.workerWriter

def writes (program : Program) : List (Copy Cell) :=
  (outputStarts program.numPages 0 program.cores).flatMap fun core =>
    program.dramWriter core.1 core.2

end Program

/-- How the elements of a pair of slots are added to what is in DST, and what is packed of it. -/
structure Addition (Byte Dst : Type) where
  zero : Dst
  addPair : Dst → Byte × Byte → Byte × Byte → Dst
  pack : Dst → Byte × Byte

section

variable {Byte Dst : Type}

/-- The element at an address. -/
def element (bytes : Nat → Byte) (address : Nat) : Byte × Byte :=
  (bytes address, bytes (address + 1))

/-- The fold over the ranks: `block += 2` up to `num_blocks`. -/
def Addition.sum (addition : Addition Byte Dst) (numBlocks : Nat) (elements : Nat → Byte × Byte) :
    Byte × Byte :=
  addition.pack <| (List.range ((numBlocks + 1) / 2)).foldl
    (fun dst pair => addition.addPair dst (elements (2 * pair)) (elements (2 * pair + 1)))
    addition.zero

/-- `pack_tile`: the elements of a tile become a page. -/
def packTile (out : Nat → Byte) (page : Nat) (tile : Nat → Byte × Byte) (address : Nat) : Byte :=
  if address / tileBytes = page then
    let packed := tile (address % tileBytes / 2)
    if address % 2 = 0 then packed.1 else packed.2
  else out address

/-- The pages of a turn of `reduction`, of which DST holds so many. -/
def reductionTurn (addition : Addition Byte Dst) (program : Program) (in0 : Nat → Byte)
    (state : (Nat → Byte) × Nat) : (Nat → Byte) × Nat :=
  let numTilesToPack := min program.maxDstTiles (program.reduceTiles - state.2)
  ((List.range numTilesToPack).foldl (fun out i =>
      packTile out (state.2 + i) fun e => addition.sum program.ringSize fun block =>
        element in0 ((block * program.numPages + (state.2 + i)) * tileBytes + 2 * e))
      state.1,
    state.2 + numTilesToPack)

/-- `reduction` on a core, from its scratch. -/
def reduction (addition : Addition Byte Dst) (program : Program) (in0 out : Nat → Byte) :
    Nat → Byte :=
  let numPackIters := (program.reduceTiles + program.maxDstTiles - 1) / program.maxDstTiles
  ((List.range numPackIters).foldl (fun state _ => reductionTurn addition program in0 state)
    (out, 0)).1

/-- The reductions of all cores of the chip. -/
def reduceAll (addition : Addition Byte Dst) (program : Program) (memory : Cell → Byte) :
    Cell → Byte
  | .reduced core offset =>
    if core ∈ program.cores then
      reduction addition program (fun address => memory (.scratch core address))
        (fun address => memory (.reduced core address)) offset
    else memory (.reduced core offset)
  | cell => memory cell

/-- A run of the exchange: the copies of each of its phases complete in any order. -/
def Program.Runs (addition : Addition Byte Dst) (program : Program) (before after : Cell → Byte) :
    Prop :=
  ∃ staged arrived, Completes program.reads before staged ∧ Completes program.sends staged arrived ∧
    Completes program.writes (reduceAll addition program arrived) after

end

end Libtt.AllReduce

import Libtt.AllReduce.ExchangeCorrect

/-!
# Direct all-reduce: every config

What a scratch config promises: the scratch can be allocated, the slices partition the width, and
the exchange adds up every logical row.
-/
namespace Libtt.AllReduce

open Libtt.Foundation

/-- The place of an element in the page of its tile: the faces are one behind the other. -/
def elementOffset (row column : Nat) : Nat :=
  ((row / faceHeight * 2 + column / faceWidth) * (faceHeight * faceWidth) +
    (row % faceHeight * faceWidth + column % faceWidth)) * 2

/-- What is sent of the tiles has the first rows. -/
def Program.Carries (program : Program) (rows : Nat) : Prop :=
  rows ≤ tileHeight ∧ ∀ packed ∈ program.packedTileBytes,
    rows ≤ faceHeight ∧ rows * faceWidth * 2 ≤ Program.packedFaceBytes packed

namespace Program

variable {program : Program}

/-- The bytes of an element of these rows are next to each other in what is sent. -/
theorem Carries.element {rows row column : Nat} (carries : program.Carries rows)
    (isRow : row < rows) (isColumn : column < tileWidth) :
    ∃ byte, 2 ∣ byte ∧ byte + 1 < program.payloadBytesPerTile ∧
      program.pageOffset byte = elementOffset row column ∧
      program.pageOffset (byte + 1) = elementOffset row column + 1 := by
  obtain ⟨fewRows, packedRows⟩ := carries
  have rowLess : row < tileHeight := isRow.trans_le fewRows
  unfold payloadBytesPerTile pageOffset elementOffset
  cases isPacked : program.packedTileBytes with
  | none =>
    refine ⟨_, Nat.dvd_mul_left 2 _, ?_, rfl, rfl⟩
    unfold tileHeight at rowLess
    unfold tileWidth at isColumn
    rw [Option.getD_none]
    unfold tileBytes faceHeight faceWidth tileHeight tileWidth
    omega
  | some packed =>
    obtain ⟨upper, fits⟩ := packedRows packed isPacked
    obtain ⟨half, rfl, some, -⟩ := program.packed_faces packed isPacked
    have isHalf : packedFaceBytes (2 * (2 * half)) = 2 * half :=
      Nat.mul_div_cancel_left _ (by decide)
    simp only [isHalf, Option.getD_some]
    unfold faceHeight at upper
    unfold faceWidth at fits
    unfold tileWidth at isColumn
    -- The place in the face, which is the same in the packed face.
    have inFace : (row * 16 + column % 16) * 2 + 1 < 2 * half := by omega
    have positive : 0 < 2 * half := by omega
    have isFace : column / 16 < 2 := by omega
    have start : (row * 16 + column % 16) * 2 < 2 * half := Nat.lt_of_succ_lt inFace
    refine ⟨2 * half * (column / 16) + (row * 16 + column % 16) * 2,
      ⟨half * (column / 16) + (row * 16 + column % 16), by ring⟩, ?_, ?_, ?_⟩
    · have faces : 2 * half * (column / 16) ≤ 2 * half * 1 :=
        Nat.mul_le_mul_left _ (Nat.le_of_lt_succ isFace)
      omega
    · rw [Nat.mul_add_div positive, Nat.mul_add_mod, Nat.div_eq_of_lt start,
        Nat.mod_eq_of_lt start]
      unfold tileFaceBytes tileBytes tileHeight tileWidth faceHeight faceWidth
      omega
    · rw [Nat.add_assoc, Nat.mul_add_div positive, Nat.mul_add_mod, Nat.div_eq_of_lt inFace,
        Nat.mod_eq_of_lt inFace]
      unfold tileFaceBytes tileBytes tileHeight tileWidth faceHeight faceWidth
      omega

variable {Byte Dst : Type} {addition : Addition Byte Dst} {before after : Cell → Byte}

/-- The element of a tile of an input, and of the output. -/
def inputElement (memory : Cell → Byte) (rank page row column : Nat) : Byte × Byte :=
  AllReduce.element (fun offset => memory (.input rank page offset)) (elementOffset row column)

def outputElement (memory : Cell → Byte) (page row column : Nat) : Byte × Byte :=
  AllReduce.element (fun offset => memory (.output page offset)) (elementOffset row column)

/-- Every element of the rows that are sent is the fold of what the ranks have there. -/
theorem Runs.outputElement_eq (runs : program.Runs addition before after)
    (even : program.ringSize % 2 = 0) {rows : Nat} (carries : program.Carries rows)
    {page row column : Nat} (isPage : page < program.cores.length * program.numPages)
    (isRow : row < rows) (isColumn : column < tileWidth) :
    outputElement after page row column =
      addition.sum program.ringSize fun rank => inputElement before rank page row column := by
  obtain ⟨byte, isElement, inside, first, second⟩ := carries.element isRow isColumn
  have isCore : page / program.numPages < program.cores.length :=
    Nat.div_lt_of_lt_mul (by rwa [Nat.mul_comm])
  have isTile : page % program.numPages < program.numPages := Nat.mod_lt _ program.numPages_pos
  have sums := runs.sums even isCore isTile isElement inside
  rw [Nat.div_add_mod', first, second] at sums
  exact sums

/-- The copies of every phase can complete. -/
theorem exists_runs (addition : Addition Byte Dst) (program : Program) (before : Cell → Byte) :
    ∃ after, program.Runs addition before after :=
  ⟨_, _, _, .inOrder _ _, .inOrder _ _, .inOrder _ _⟩

end Program

/-- The bytes of a shard, which every core needs free in its L1 for `create_device_tensor`. -/
def ScratchConfig.shardBytes (config : ScratchConfig) : Nat :=
  config.shardShape.1 * config.shardShape.2 * 2

/-- The program that the factory creates for a config. -/
structure Program.IsFor (program : Program) (dramAlignment : Nat) (input : InputTensor)
    (ringSize : Nat) (config : ScratchConfig) : Prop where
  sameRing : program.ringSize = ringSize
  sameCores : program.cores = config.cores
  samePages : program.numPages = config.shardNumPages ringSize
  samePacking : program.packedTileBytes =
    directAllReducePackedTileBytes dramAlignment input.rows input.elementSize

structure Reduces (l1Bytes dramAlignment : Nat) (input : InputTensor) (ringSize : Nat)
    (config : ScratchConfig) : Prop where
  allocated : config.shardBytes ≤ l1Bytes
  /-- Every page of the width is in the slice of one core, and no slice goes beyond it. -/
  partition : (∀ page < input.Wt,
      ∃! share, share ∈ outputStarts (config.shardNumPages ringSize) 0 config.cores ∧
        share.2 ≤ page ∧ page < share.2 + config.shardNumPages ringSize) ∧
    ∀ share ∈ outputStarts (config.shardNumPages ringSize) 0 config.cores,
      share.2 + config.shardNumPages ringSize ≤ input.Wt
  /-- There is a program for every split of the pages over links, and every size of packets and
  of DST. -/
  created (links : LinkSplit) (packetSizeInPages maxDstTiles : Nat)
    (covers : links.start links.numLinks = input.Wt) (packetSize : 0 < packetSizeInPages)
    (maxDst : 0 < maxDstTiles) : ∃ program : Program,
      program.IsFor dramAlignment input ringSize config ∧ program.links = links ∧
        program.packetSizeInPages = packetSizeInPages ∧ program.maxDstTiles = maxDstTiles
  /-- No payload leaves the slot of its rank, and no more pages of it are reduced. -/
  inSlot (program : Program) (isFor : program.IsFor dramAlignment input ringSize config) :
    program.reduceTiles ≤ program.numPages ∧
    ∀ rank link, link < program.links.numLinks → ∀ copy ∈ program.workerWriter rank link,
      ∃ core ∈ program.cores, ∃ offset, copy.target = .scratch core offset ∧
        program.slotStart rank ≤ offset ∧ offset < program.slotStart (rank + 1)
  /-- Every run gives every logical element the fold over the ranks, which is what the exchange of
  whole tiles gives it. -/
  sums (program : Program) (isFor : program.IsFor dramAlignment input ringSize config)
    {Byte Dst : Type} (addition : Addition Byte Dst) (before : Cell → Byte) :
    (∃ after, program.Runs addition before after) ∧
    ∀ after, program.Runs addition before after →
      ∀ whole, program.wholeTiles.Runs addition before whole →
        ∀ page < input.Wt, ∀ row < input.rows, ∀ column < tileWidth,
          Program.outputElement after page row column =
              addition.sum ringSize (fun rank =>
                Program.inputElement before rank page row column) ∧
            Program.outputElement after page row column =
              Program.outputElement whole page row column

theorem numCoresToCorerangeset_nodup (count : Nat) (grid : Nat × Nat) :
    (numCoresToCorerangeset count grid).Nodup := by
  refine List.Nodup.map_on (fun first _ second _ same => ?_) List.nodup_range
  obtain ⟨columns, rows⟩ := Prod.mk.inj same
  rw [← Nat.div_add_mod first grid.1, ← Nat.div_add_mod second grid.1, columns, rows]

theorem numCoresToCorerangeset_length (count : Nat) (grid : Nat × Nat) :
    (numCoresToCorerangeset count grid).length = count := by
  rw [numCoresToCorerangeset, List.length_map, List.length_range]

variable {input : InputTensor} {grid : Nat × Nat} {ringSize : Nat} {config : ScratchConfig}
  {workers dramAlignment : Nat}

namespace Accepted

section

variable (accepted : Accepted input grid ringSize config workers)
include accepted

theorem cores_length :
    config.cores.length = workers := by
  rw [accepted.isConfig]
  exact numCoresToCorerangeset_length workers grid

theorem cores_nodup :
    config.cores.Nodup := by
  rw [accepted.isConfig]
  exact numCoresToCorerangeset_nodup workers grid

theorem elementSize_eq :
    input.elementSize = 2 := by
  rw [InputTensor.elementSize, accepted.bfloat16]

/-- The slices partition the width exactly if they are as many pages. -/
theorem slices_iff :
    ((∀ page < input.Wt,
      ∃! share, share ∈ outputStarts (config.shardNumPages ringSize) 0 config.cores ∧
        share.2 ≤ page ∧ page < share.2 + config.shardNumPages ringSize) ∧
    ∀ share ∈ outputStarts (config.shardNumPages ringSize) 0 config.cores,
      share.2 + config.shardNumPages ringSize ≤ input.Wt) ↔
      workers * config.shardNumPages ringSize = input.Wt := by
  simp only [mem_outputStarts, accepted.cores_length, Nat.zero_add]
  generalize config.shardNumPages ringSize = numPages
  constructor
  · rintro ⟨covered, within⟩
    have positive := accepted.workers_pos
    have last := within _ ⟨workers - 1, by omega, rfl⟩
    have total : (workers - 1) * numPages + numPages = workers * numPages := by
      rw [← Nat.succ_mul, Nat.succ_eq_add_one, Nat.sub_add_cancel positive]
    rw [total] at last
    apply Nat.le_antisymm last
    by_contra less
    obtain ⟨-, ⟨⟨index, isCore, rfl⟩, -, before⟩, -⟩ := covered _ (Nat.lt_of_not_le less)
    rw [← Nat.succ_mul] at before
    exact absurd before (Nat.not_lt.mpr (Nat.mul_le_mul_right _ isCore))
  · intro total
    rw [← total]
    constructor
    · intro page isPage
      have positive : 0 < numPages := Nat.pos_of_mul_pos_left (Nat.zero_lt_of_lt isPage)
      refine ⟨(config.cores.getD (page / numPages) (0, 0), page / numPages * numPages),
        ⟨⟨page / numPages, Nat.div_lt_of_lt_mul (by rwa [Nat.mul_comm]), rfl⟩,
          Nat.div_mul_le_self _ _, Nat.lt_div_mul_add positive⟩, ?_⟩
      rintro _ ⟨⟨index, -, rfl⟩, after, before⟩
      have isIndex : index = page / numPages := by
        symm
        apply Nat.div_eq_of_lt_le after
        rw [Nat.succ_mul]
        exact before
      rw [isIndex]
    · rintro _ ⟨index, isCore, rfl⟩
      rw [← Nat.succ_mul]
      exact Nat.mul_le_mul_right _ isCore

/-- Slices within 32 bits are found to fit only if they do. -/
theorem shardBytes_le (small : ringSize * (input.Wt / workers) * tileBytes < 2 ^ 32) :
    config.shardBytes ≤ maxScratchBytesPerCore := by
  have fits := accepted.fits
  have isWidth : shardWidth ringSize input.Wt workers =
      ringSize * (input.Wt / workers) * tileWidth := by
    apply Nat.mod_eq_of_lt
    unfold tileBytes tileHeight tileWidth at small
    unfold tileWidth
    omega
  rw [isWidth] at fits
  rw [accepted.isConfig]
  change tileHeight * shardWidth ringSize input.Wt workers * 2 ≤ _
  rw [isWidth]
  unfold word tileHeight tileWidth at fits
  unfold tileBytes tileHeight tileWidth at small
  unfold tileHeight tileWidth
  omega

/-- Of the rows that are packed, a face has at least one element, and at most all of its rows. -/
theorem packed_faces (alignment : dramAlignment ∣ 512) (someRows : 1 ≤ input.rows) :
    ∀ packed ∈ directAllReducePackedTileBytes dramAlignment input.rows input.elementSize,
      ∃ half, packed = 2 * (2 * half) ∧ 0 < half ∧ 2 * half ≤ tileBytes / 4 := by
  intro packed isPacked
  rw [accepted.elementSize_eq] at isPacked
  obtain ⟨-, half, rfl, rows, small⟩ := packedTileBytes_spec alignment isPacked
  exact ⟨half, rfl, by omega, small⟩

theorem carries (alignment : dramAlignment ∣ 512) {program : Program}
    (isFor : program.IsFor dramAlignment input ringSize config) :
    program.Carries input.rows := by
  refine ⟨accepted.rows, fun packed isPacked => ?_⟩
  rw [isFor.samePacking, accepted.elementSize_eq] at isPacked
  obtain ⟨few, half, rfl, rows, -⟩ := packedTileBytes_spec alignment isPacked
  refine ⟨few, ?_⟩
  unfold faceWidth Program.packedFaceBytes
  omega

end

end Accepted

namespace Program

theorem reduceTiles_le (program : Program) : program.reduceTiles ≤ program.numPages := by
  unfold reduceTiles
  cases isPacked : program.packedTileBytes with
  | none => exact le_refl _
  | some packed =>
    obtain ⟨half, rfl, -, small⟩ := program.packed_faces packed isPacked
    have le : program.numPages * (2 * (2 * half)) ≤ program.numPages * tileBytes :=
      Nat.mul_le_mul_left _ (by omega)
    change (program.numPages * (2 * (2 * half)) + tileBytes - 1) / tileBytes ≤ program.numPages
    unfold tileBytes tileHeight tileWidth at le ⊢
    omega

theorem workerWriter_inSlot (program : Program) {rank link : Nat}
    (isLink : link < program.links.numLinks) {copy : Copy Cell}
    (member : copy ∈ program.workerWriter rank link) :
    ∃ core ∈ program.cores, ∃ offset, copy.target = .scratch core offset ∧
      program.slotStart rank ≤ offset ∧ offset < program.slotStart (rank + 1) := by
  obtain ⟨t, isTile, byte, inside, rfl⟩ := mem_workerWriter.mp member
  have isCore : (program.links.start link + t) / program.numPages < program.cores.length :=
    Nat.div_lt_of_lt_mul (by
      rw [Nat.mul_comm]
      exact program.page_lt isLink isTile)
  have next : program.slotStart (rank + 1) =
      program.slotStart rank + program.numPages * tileBytes := by
    unfold slotStart
    ring
  refine ⟨_, ?_, _, rfl, Nat.le_add_right _ _, ?_⟩
  · unfold core
    rw [List.getD_eq_getElem _ _ isCore]
    exact List.getElem_mem isCore
  · rw [next]
    apply Nat.add_lt_add_left
    exact program.inSlot_lt (Nat.mod_lt _ program.numPages_pos) inside

end Program

/-- A row of a width in whole tiles, as decoding has it. -/
def decodeRow (tiles : Nat) : InputTensor where
  arch := .blackhole
  dtype := .bfloat16
  layout := .tile
  dramMemoryConfig := true
  logicalShape := [1, tiles * 32]
  paddedShape := [32, tiles * 32]
  tilePadded _ _ := ⟨Nat.dvd_refl 32, Nat.dvd_mul_left 32 tiles, show 1 ≤ 32 by decide⟩

end Libtt.AllReduce

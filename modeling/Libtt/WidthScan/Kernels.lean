import Libtt.Foundation.Updates
import Mathlib.Algebra.BigOperators.Intervals
import Mathlib.Data.BitVec

/-!
# Cumulative sums along the width of tiles

A cumulative sum of 32-bit integers along the last dimension scans each row of tiles in chunks
(`accumulation_common.cpp` and the width kernels). A first pass scans every chunk from zero and
writes its totals, a second one adds the totals of the earlier chunks of the row. On each core a
reader, a compute and a writer kernel pass tiles through queues; here each is a function on what
the queues hold, which fails where it would wait for a tile that never comes.
-/
namespace Libtt.WidthScan

variable {column tile : Nat} {chunks : List Nat} {before : Memory}

/-- The sides of a tile. -/
def tileSide : Nat := 32

/-- A tile of 32-bit integers, by row and column. -/
abbrev Tile := Nat → Nat → BitVec 32

/-- The pages of a tensor. -/
abbrev Memory := Nat → Tile

def ceilDiv (count size : Nat) : Nat := (count + size - 1) / size

/-- `width_scan_chunk_tiles`. -/
def widthScanChunkTiles (rows rowTiles cores : Nat) (exact : Bool) : Nat :=
  let chunksPerRow := ceilDiv cores rows
  let tiles := max (ceilDiv rowTiles chunksPerRow) 16
  if exact then tiles else min tiles 128

/-- The arguments that all kernels of a program have in common. -/
structure Plan where
  rowTiles : Nat
  chunksPerRow : Nat
  chunkTiles : Nat

namespace Plan

variable (plan : Plan)

/-- `chunk_first_tile`. -/
def chunkFirstTile (chunk : Nat) : Nat :=
  (chunk / plan.chunksPerRow) * plan.rowTiles + (chunk % plan.chunksPerRow) * plan.chunkTiles

/-- `chunk_length`. -/
def chunkLength (chunk : Nat) : Nat :=
  let rest := plan.rowTiles - (chunk % plan.chunksPerRow) * plan.chunkTiles
  if rest < plan.chunkTiles then rest else plan.chunkTiles

/-- The tiles of some chunks in the order in which the kernels visit them, each as its chunk and
its place in it. -/
def tiles (chunks : List Nat) : List (Nat × Nat) :=
  chunks.flatMap fun chunk => (List.range (plan.chunkLength chunk)).map fun j => (chunk, j)

/-- The page of a tile of a chunk. -/
def page (tile : Nat × Nat) : Nat := plan.chunkFirstTile tile.1 + tile.2

end Plan

/-- A transpose, on its way into Dest or in it. -/
def transpose (tile : Tile) : Tile := fun row column => tile column row

/-- The column totals carried in SFPU registers. -/
abbrev Totals := Nat → BitVec 32

/-- The column totals after some rows of a tile. -/
def addRows (totals : Totals) (tile : Tile) : Nat → Totals
  | 0 => totals
  | row + 1 => fun column => addRows totals tile row column + tile row column

/-- `cumsum_tile`, which adds each row of the tile to the carried totals, reset when first. -/
def cumsumTile (first : Bool) (carried : Totals) (tile : Tile) : Tile × Totals :=
  let start := if first then fun _ => 0 else carried
  (fun row column => addRows start tile (row + 1) column, addRows start tile tileSide)

/-- `add_dest_tiles`. -/
def addDestTiles (a b : Tile) : Tile := fun row column => a row column + b row column

/-- Pop a tile of a queue for each page and write it there. -/
def writePages : List Nat → List Tile → Option (List (Nat × Tile))
  | [], _ => some []
  | page :: pages, tile :: queue => (writePages pages queue).map ((page, tile) :: ·)
  | _ :: _, [] => none

variable (plan : Plan)

/-- The reader of the scan. -/
def readTiles (input : Memory) (chunks : List Nat) : List Tile :=
  (plan.tiles chunks).map fun tile => input (plan.page tile)

/-- The loop of `accumulation_width_compute` over the tiles of a chunk, of which `length` are
left. -/
def scanTiles : Nat → Bool → Totals → List Tile → Option (List Tile × Totals × List Tile)
  | 0, _, carried, queue => some ([], carried, queue)
  | _ + 1, _, _, [] => none
  | length + 1, first, carried, tile :: queue =>
    let (scanned, carried) := cumsumTile first carried (transpose tile)
    (scanTiles length false carried queue).map fun (outputs, carried, queue) =>
      (transpose scanned :: outputs, carried, queue)

/-- The totals of a chunk, read out by scanning a tile of zeros. -/
def readTotals (carried : Totals) : Tile × Totals :=
  let (scanned, carried) := cumsumTile false carried fun _ _ => 0
  (transpose scanned, carried)

/-- `accumulation_width_compute`: what it packs, and the totals where it writes them. -/
def scanChunks (writeTotals : Bool) :
    List Nat → Totals → List Tile → Option (List Tile × List Tile)
  | [], _, _ => some ([], [])
  | chunk :: chunks, carried, queue => do
    let (outputs, carried, queue) ← scanTiles (plan.chunkLength chunk) true carried queue
    let (totals, carried) := if writeTotals then
      let (totals, carried) := readTotals carried
      ([totals], carried)
      else ([], carried)
    let (moreOutputs, moreTotals) ← scanChunks writeTotals chunks carried queue
    return (outputs ++ moreOutputs, totals ++ moreTotals)

/-- What the scan on one core writes to the output and to the totals. The registers hold anything
before it. -/
def scanCore (writeTotals : Bool) (input : Memory) (registers : Totals) (chunks : List Nat) :
    Option (List (Nat × Tile) × List (Nat × Tile)) := do
  let (outputs, totals) ← scanChunks plan writeTotals chunks registers
    (readTiles plan input chunks)
  let outputs ← writePages ((plan.tiles chunks).map plan.page) outputs
  let totals ← writePages (if writeTotals then chunks else []) totals
  return (outputs, totals)

/-- The totals that the reader of the second pass reads. -/
def readBefore (totals : Memory) (chunks : List Nat) : List Tile :=
  chunks.flatMap fun chunk =>
    (List.range' (chunk - chunk % plan.chunksPerRow) (chunk % plan.chunksPerRow)).map totals

/-- The totals that are left to add to an offset. -/
def addTotals : Nat → Tile → List Tile → Option (Tile × List Tile)
  | 0, offset, queue => some (offset, queue)
  | _ + 1, _, [] => none
  | count + 1, offset, totals :: queue => addTotals count (addDestTiles offset totals) queue

/-- The offset of a chunk with so many before it in its row. -/
def readOffset : Nat → List Tile → Option (Option Tile × List Tile)
  | 0, queue => some (none, queue)
  | _ + 1, [] => none
  | before + 1, totals :: queue =>
    (addTotals before totals queue).map fun (offset, queue) => (some offset, queue)

/-- What the second pass does to each tile of a chunk. -/
def addOffset : Option Tile → Tile → Tile
  | some offset, tile => addDestTiles tile offset
  | none, tile => tile

/-- What `accumulation_offsets_compute` does to each tile it is given. -/
def offsetChunks : List Nat → List Tile → Option (List (Tile → Tile))
  | [], _ => some []
  | chunk :: chunks, queue => do
    let (offset, queue) ← readOffset (chunk % plan.chunksPerRow) queue
    let changes ← offsetChunks chunks queue
    return List.replicate (plan.chunkLength chunk) (addOffset offset) ++ changes

/-- The changes one core makes in the second pass. Its reader and its writer visit the same pages,
each of which is read before it is written. -/
def offsetCore (totals : Memory) (chunks : List Nat) : Option (List (Nat × (Tile → Tile))) := do
  let changes ← offsetChunks plan chunks (readBefore plan totals chunks)
  return ((plan.tiles chunks).map plan.page).zip changes

/-- The run arguments of the cores, the start and the number of their chunks, where the work split
gives the cores so many chunks. -/
def runArgs : Nat → List Nat → List (Nat × Nat)
  | _, [] => []
  | start, count :: counts => (start, count) :: runArgs (start + count) counts

/-- The chunks of a core. -/
def coreChunks (args : Nat × Nat) : List Nat := List.range' args.1 args.2

/-- Run arguments that partition the chunks over the cores. -/
def Partition (cores : List (Nat × Nat)) (chunks : Nat) : Prop :=
  (cores.map coreChunks).flatten.Perm (List.range chunks)

/-- Change a page. -/
def changePage (change : Nat × (Tile → Tile)) (memory : Memory) : Memory :=
  Function.update memory change.1 (change.2 (memory change.1))

/-- Write a page. -/
def writePage (write : Nat × Tile) : Nat × (Tile → Tile) := (write.1, fun _ => write.2)

/-- A memory after changes that the cores make in some order. -/
def Changes (changes : List (Nat × (Tile → Tile))) (before after : Memory) : Prop :=
  ∃ order : List (Nat × (Tile → Tile)), order.Perm changes ∧
    after = order.foldl (fun memory change => changePage change memory) before

/-- What all cores write in the first pass, from some core on. -/
def scanCores (writeTotals : Bool) (input : Memory) (registers : Nat → Totals) :
    Nat → List (List Nat) → Option (List (Nat × Tile) × List (Nat × Tile))
  | _, [] => some ([], [])
  | core, chunks :: cores => do
    let (outputs, totals) ← scanCore plan writeTotals input (registers core) chunks
    let (moreOutputs, moreTotals) ← scanCores writeTotals input registers (core + 1) cores
    return (outputs ++ moreOutputs, totals ++ moreTotals)

/-- What all cores change in the second pass. -/
def offsetCores (totals : Memory) : List (List Nat) → Option (List (Nat × (Tile → Tile)))
  | [] => some []
  | chunks :: cores => do
    let changes ← offsetCore plan totals chunks
    let more ← offsetCores totals cores
    return changes ++ more

/-- How the two passes of a scan are placed: the run arguments of the cores in each pass, and what
the registers of the first pass hold. -/
structure Placement where
  scan : List (Nat × Nat)
  offsets : List (Nat × Nat)
  registers : Nat → Totals

/-- The plan of `accumulation_invoke` for integers. Rows of one chunk are not chunked. -/
def widthPlan (rows rowTiles cores : Nat) : Plan :=
  let tiles := widthScanChunkTiles rows rowTiles cores true
  let chunks := ceilDiv rowTiles tiles
  if chunks > 1 then ⟨rowTiles, chunks, tiles⟩ else ⟨rowTiles, ceilDiv rowTiles rowTiles, rowTiles⟩

/-- `accumulation_invoke` for a scan of integers: the tensors before and after, where one chunk a
row needs no second pass. The totals are a new tensor with anything in it. -/
def Accumulates (plan : Plan) (placement : Placement) (input output result : Memory) : Prop :=
  if plan.chunksPerRow > 1 then
    ∃ outputs totals changes fresh totalsTensor scanned,
      scanCores plan true input placement.registers 0 (placement.scan.map coreChunks) =
        some (outputs, totals) ∧
      Changes (outputs.map writePage) output scanned ∧
      Changes (totals.map writePage) fresh totalsTensor ∧
      offsetCores plan totalsTensor (placement.offsets.map coreChunks) = some changes ∧
      Changes changes scanned result
  else
    ∃ outputs totals,
      scanCores plan false input placement.registers 0 (placement.scan.map coreChunks) =
        some (outputs, totals) ∧
      Changes (outputs.map writePage) output result

end Libtt.WidthScan

/-! ## The width scan is the prefix sum -/
namespace Libtt.WidthScan

open Libtt.Foundation

/-- The sum of the first elements of a row of tiles. -/
def rowSum (tiles : Nat → Tile) (row count : Nat) : BitVec 32 :=
  ∑ k ∈ Finset.range count, tiles (k / tileSide) row (k % tileSide)

theorem rowSum_add (tiles : Nat → Tile) (row start count : Nat) :
    rowSum tiles row (tileSide * start + count) =
      rowSum tiles row (tileSide * start) + rowSum (fun j => tiles (start + j)) row count := by
  unfold rowSum
  rw [Finset.sum_range_add]
  congr 1
  apply Finset.sum_congr rfl
  intro k _
  have positive : 0 < tileSide := by decide
  rw [Nat.mul_add_div positive, Nat.mul_add_mod]

/-- The sum of the first elements of a row of one tile. -/
theorem rowSum_tile (tiles : Nat → Tile) (row : Nat) {count : Nat} (within : count ≤ tileSide) :
    rowSum tiles row count = ∑ k ∈ Finset.range count, tiles 0 row k := by
  apply Finset.sum_congr rfl
  intro k member
  have below : k < tileSide := Nat.lt_of_lt_of_le (Finset.mem_range.mp member) within
  rw [Nat.div_eq_of_lt below, Nat.mod_eq_of_lt below]

theorem addRows_eq (totals : Totals) (tile : Tile) (rows column : Nat) :
    addRows totals tile rows column = totals column + ∑ k ∈ Finset.range rows, tile k column := by
  induction rows with
  | zero => exact (add_zero _).symm
  | succ rows ih =>
    rw [addRows]
    beta_reduce
    rw [ih, Finset.sum_range_succ, add_assoc]

/-- The totals carried after some tiles of a chunk. -/
def carriedAfter (tiles : Nat → Tile) (count : Nat) : Totals := fun row =>
  rowSum tiles row (tileSide * count)

/-- A tile of a chunk as it is packed. -/
def scannedTile (tiles : Nat → Tile) (j : Nat) : Tile := fun row column =>
  addRows (carriedAfter tiles j) (transpose (tiles j)) (column + 1) row

/-- An element of a scanned tile is the sum of its row up to it. -/
theorem scannedTile_eq (tiles : Nat → Tile) (j row : Nat) (within : column < tileSide) :
    scannedTile tiles j row column = rowSum tiles row (tileSide * j + (column + 1)) := by
  rw [scannedTile, addRows_eq, rowSum_add, rowSum_tile _ row within]
  rfl

theorem carriedAfter_succ (tiles : Nat → Tile) (j : Nat) :
    addRows (carriedAfter tiles j) (transpose (tiles j)) tileSide = carriedAfter tiles (j + 1) := by
  funext row
  rw [addRows_eq, carriedAfter, carriedAfter, Nat.mul_succ, rowSum_add,
    rowSum_tile _ row (Nat.le_refl _)]
  rfl

theorem carriedAfter_zero (tiles : Nat → Tile) : carriedAfter tiles 0 = fun _ => 0 := rfl

/-- The tiles of a chunk after the first continue with what was carried. -/
theorem scanTiles_continue (tiles : Nat → Tile) (j length : Nat) (rest : List Tile) :
    scanTiles length false (carriedAfter tiles j) ((List.range' j length).map tiles ++ rest) =
      some ((List.range' j length).map (scannedTile tiles), carriedAfter tiles (j + length), rest)
    := by
  induction length generalizing j with
  | zero => rfl
  | succ length ih =>
    rw [List.range'_succ, List.map_cons, List.cons_append, scanTiles]
    simp only [cumsumTile, Bool.false_eq_true, if_false, carriedAfter_succ, ih, Option.map_some]
    rw [List.map_cons, Nat.add_right_comm, Nat.add_assoc]
    rfl

/-- A chunk is scanned from zero, whatever the registers held. -/
theorem scanTiles_chunk (tiles : Nat → Tile) {length : Nat} (positive : 0 < length)
    (registers : Totals) (rest : List Tile) :
    scanTiles length true registers ((List.range length).map tiles ++ rest) =
      some ((List.range length).map (scannedTile tiles), carriedAfter tiles length, rest) := by
  obtain ⟨length, rfl⟩ := Nat.exists_eq_add_one_of_ne_zero (Nat.ne_of_gt positive)
  rw [List.range_eq_range', List.range'_succ, List.map_cons, List.cons_append, scanTiles]
  simp only [cumsumTile, if_true, ← carriedAfter_zero tiles, carriedAfter_succ]
  rw [Nat.zero_add, scanTiles_continue tiles 1 length rest, Nat.add_comm 1 length]
  rfl

theorem readTotals_eq (carried : Totals) : readTotals carried = (fun row _ => carried row, carried)
    := by
  have zeros (rows : Nat) : addRows carried (fun _ _ => 0) rows = carried := by
    funext column
    rw [addRows_eq, Finset.sum_const_zero, add_zero]
  simp only [readTotals, cumsumTile, Bool.false_eq_true, if_false, zeros]
  rfl

section
variable (plan : Plan)

/-- The tiles of a chunk in a tensor. -/
def chunkTiles (memory : Memory) (chunk : Nat) : Nat → Tile := fun j => memory (plan.page (chunk, j))

/-- The totals of a chunk. -/
def chunkTotals (memory : Memory) (chunk : Nat) : Tile := fun row _ =>
  carriedAfter (chunkTiles plan memory chunk) (plan.chunkLength chunk) row

theorem tiles_cons (chunk : Nat) (chunks : List Nat) : plan.tiles (chunk :: chunks) =
    (List.range (plan.chunkLength chunk)).map (fun j => (chunk, j)) ++ plan.tiles chunks :=
  List.flatMap_cons

/-- The compute kernel scans each chunk. -/
theorem scanChunks_eq (writeTotals : Bool) (input : Memory)
    (positive : ∀ chunk ∈ chunks, 0 < plan.chunkLength chunk) (registers : Totals) :
    scanChunks plan writeTotals chunks registers (readTiles plan input chunks) =
      some ((plan.tiles chunks).map fun tile => scannedTile (chunkTiles plan input tile.1) tile.2,
        if writeTotals then chunks.map (chunkTotals plan input) else []) := by
  induction chunks generalizing registers with
  | nil => cases writeTotals <;> rfl
  | cons chunk chunks ih =>
    have rest := fun other member => positive other (List.mem_cons_of_mem _ member)
    have queue : readTiles plan input (chunk :: chunks) =
        (List.range (plan.chunkLength chunk)).map (chunkTiles plan input chunk) ++
          readTiles plan input chunks := by
      rw [readTiles, tiles_cons, List.map_append, List.map_map]
      rfl
    rw [scanChunks, queue, scanTiles_chunk _ (positive chunk List.mem_cons_self)]
    simp only [Option.bind_eq_bind, Option.bind_some, Option.pure_def, tiles_cons, List.map_append,
      List.map_map]
    cases writeTotals with
    | false => simp only [Bool.false_eq_true, if_false, ih rest, Option.bind_some]; rfl
    | true => simp only [if_true, readTotals_eq, ih rest, Option.bind_some]; rfl

/-- A queue with a tile for each page is written. -/
theorem writePages_map {ι : Type} (items : List ι) (page : ι → Nat) (tile : ι → Tile) :
    writePages (items.map page) (items.map tile) =
      some (items.map fun item => (page item, tile item)) := by
  induction items with
  | nil => rfl
  | cons item items ih =>
    rw [List.map_cons, List.map_cons, writePages, ih]
    rfl

variable {plan} in
theorem mem_tiles {tile : Nat × Nat} :
    tile ∈ plan.tiles chunks ↔ tile.1 ∈ chunks ∧ tile.2 < plan.chunkLength tile.1 := by
  obtain ⟨chunk, j⟩ := tile
  simp [Plan.tiles, and_comm]

variable {plan} in
theorem nodup_tiles (distinct : chunks.Nodup) : (plan.tiles chunks).Nodup := by
  apply List.nodup_flatMap.mpr
  refine ⟨fun chunk _ => List.nodup_range.map (Prod.mk_right_injective chunk), ?_⟩
  refine List.Pairwise.imp ?_ distinct
  intro first second other tile member member'
  obtain ⟨_, -, rfl⟩ := List.mem_map.mp member
  obtain ⟨_, -, same⟩ := List.mem_map.mp member'
  exact other (congrArg Prod.fst same).symm

/-- What a core writes in the first pass. -/
theorem scanCore_eq (writeTotals : Bool) (input : Memory) (registers : Totals)
    (positive : ∀ chunk ∈ chunks, 0 < plan.chunkLength chunk) :
    scanCore plan writeTotals input registers chunks =
      some ((plan.tiles chunks).map fun tile =>
          (plan.page tile, scannedTile (chunkTiles plan input tile.1) tile.2),
        if writeTotals then chunks.map fun chunk => (chunk, chunkTotals plan input chunk) else [])
    := by
  have totals := writePages_map chunks id (chunkTotals plan input)
  rw [List.map_id] at totals
  rw [scanCore, scanChunks_eq plan writeTotals input positive registers]
  simp only [Option.bind_eq_bind, Option.bind_some, writePages_map]
  cases writeTotals with
  | false => rfl
  | true => simp only [if_true, totals]; rfl

theorem tiles_append (first second : List Nat) :
    plan.tiles (first ++ second) = plan.tiles first ++ plan.tiles second := List.flatMap_append ..

/-- What all cores write in the first pass. -/
theorem scanCores_eq (writeTotals : Bool) (input : Memory) (registers : Nat → Totals)
    {cores : List (List Nat)} (positive : ∀ chunk ∈ cores.flatten, 0 < plan.chunkLength chunk)
    (core : Nat) : scanCores plan writeTotals input registers core cores =
      some ((plan.tiles cores.flatten).map fun tile =>
          (plan.page tile, scannedTile (chunkTiles plan input tile.1) tile.2),
        if writeTotals then
          cores.flatten.map fun chunk => (chunk, chunkTotals plan input chunk)
        else []) := by
  induction cores generalizing core with
  | nil => cases writeTotals <;> rfl
  | cons chunks cores ih =>
    have first := fun chunk member => positive chunk (List.mem_append_left _ member)
    have rest := fun chunk member => positive chunk (List.mem_append_right _ member)
    rw [scanCores, scanCore_eq plan writeTotals input (registers core) first, ih rest]
    simp only [Option.bind_eq_bind, Option.bind_some, Option.pure_def, List.flatten_cons,
      tiles_append, List.map_append]
    cases writeTotals <;> rfl

end

theorem flatten_runArgs (start : Nat) (counts : List Nat) :
    ((runArgs start counts).map coreChunks).flatten = List.range' start counts.sum := by
  induction counts generalizing start with
  | nil => rfl
  | cons count counts ih =>
    rw [runArgs, List.map_cons, List.flatten_cons, ih, List.sum_cons, coreChunks,
      List.range'_append_1]

/-- The work split partitions the chunks. -/
theorem runArgs_partition (counts : List Nat) : Partition (runArgs 0 counts) counts.sum := by
  rw [Partition, flatten_runArgs, ← List.range_eq_range']

/-- The sum of some tiles, element by element. -/
theorem foldl_addDestTiles (offset : Tile) (tiles : List Tile) (row column : Nat) :
    tiles.foldl addDestTiles offset row column =
      offset row column + (tiles.map fun tile => tile row column).sum := by
  induction tiles generalizing offset with
  | nil => exact (add_zero _).symm
  | cons tile tiles ih =>
    rw [List.foldl_cons, ih, List.map_cons, List.sum_cons, ← add_assoc]
    rfl

theorem addTotals_eq (offset : Tile) (tiles rest : List Tile) :
    addTotals tiles.length offset (tiles ++ rest) = some (tiles.foldl addDestTiles offset, rest) := by
  induction tiles generalizing offset with
  | nil => rfl
  | cons tile tiles ih =>
    rw [List.length_cons, List.cons_append, addTotals, ih, List.foldl_cons]

/-- What a chunk's tiles are changed by. -/
def addSum (tiles : List Tile) (tile : Tile) : Tile := fun row column =>
  tile row column + (tiles.map fun tile => tile row column).sum

/-- The offset of a chunk is the sum of the totals before it. -/
theorem readOffset_eq (tiles rest : List Tile) :
    ∃ offset, readOffset tiles.length (tiles ++ rest) = some (offset, rest) ∧
      addOffset offset = addSum tiles := by
  cases tiles with
  | nil =>
    refine ⟨none, rfl, ?_⟩
    funext tile row column
    exact (add_zero _).symm
  | cons first tiles =>
    refine ⟨some (tiles.foldl addDestTiles first), ?_, ?_⟩
    · rw [List.length_cons, List.cons_append, readOffset, addTotals_eq]
      rfl
    · funext tile row column
      simp only [addOffset, addDestTiles, addSum, foldl_addDestTiles, List.map_cons, List.sum_cons]

section
variable (plan : Plan)

/-- The totals of the chunks before one in its row. -/
def totalsBefore (totals : Memory) (chunk : Nat) : List Tile :=
  (List.range' (chunk - chunk % plan.chunksPerRow) (chunk % plan.chunksPerRow)).map totals

/-- The compute kernel of the second pass changes each tile by the totals before its chunk. -/
theorem offsetChunks_eq (totals : Memory) (chunks : List Nat) :
    offsetChunks plan chunks (readBefore plan totals chunks) =
      some ((plan.tiles chunks).map fun tile => addSum (totalsBefore plan totals tile.1)) := by
  induction chunks with
  | nil => rfl
  | cons chunk chunks ih =>
    have queue : readBefore plan totals (chunk :: chunks) =
        totalsBefore plan totals chunk ++ readBefore plan totals chunks := List.flatMap_cons
    have count : (totalsBefore plan totals chunk).length = chunk % plan.chunksPerRow := by
      rw [totalsBefore, List.length_map, List.length_range']
    obtain ⟨offset, isOffset, change⟩ :=
      readOffset_eq (totalsBefore plan totals chunk) (readBefore plan totals chunks)
    rw [count] at isOffset
    rw [offsetChunks, queue, isOffset]
    simp only [Option.bind_eq_bind, Option.bind_some, ih, Option.pure_def, tiles_cons,
      List.map_append, List.map_map, change]
    have same : List.replicate (plan.chunkLength chunk) (addSum (totalsBefore plan totals chunk)) =
        (List.range (plan.chunkLength chunk)).map fun _ =>
          addSum (totalsBefore plan totals chunk) := by
      rw [List.map_const', List.length_range]
    rw [same]
    rfl

theorem offsetCore_eq (totals : Memory) (chunks : List Nat) :
    offsetCore plan totals chunks = some ((plan.tiles chunks).map fun tile =>
      (plan.page tile, addSum (totalsBefore plan totals tile.1))) := by
  rw [offsetCore, offsetChunks_eq]
  simp only [Option.bind_eq_bind, Option.bind_some, Option.pure_def, List.zip_map']

/-- What all cores change in the second pass. -/
theorem offsetCores_eq (totals : Memory) (cores : List (List Nat)) :
    offsetCores plan totals cores = some ((plan.tiles cores.flatten).map fun tile =>
      (plan.page tile, addSum (totalsBefore plan totals tile.1))) := by
  induction cores with
  | nil => rfl
  | cons chunks cores ih =>
    rw [offsetCores, offsetCore_eq, ih, List.flatten_cons, tiles_append, List.map_append]
    rfl

end

/-- Changes of different pages do not see each other. -/
theorem changePage_independent : Independent (fun page : Nat => page)
    (fun change : Nat × (Tile → Tile) => change.1) changePage where
  frame change memory page other := Function.update_of_ne other ..
  reads change memory other same page own := by
    subst own
    rw [changePage, changePage, Function.update_self, Function.update_self, same _ rfl]

/-- A page that was changed once, in whatever order. -/
theorem Changes.at {changes : List (Nat × (Tile → Tile))} {after : Memory}
    (made : Changes changes before after) (distinct : (changes.map Prod.fst).Nodup)
    {change : Nat × (Tile → Tile)} (member : change ∈ changes) :
    after change.1 = change.2 (before change.1) := by
  obtain ⟨order, perm, rfl⟩ := made
  have distinct' : (order.map Prod.fst).Nodup := (perm.map Prod.fst).nodup_iff.mpr distinct
  rw [changePage_independent.foldl_at distinct' before (perm.mem_iff.mpr member) rfl, changePage,
    Function.update_self]

/-- Changes can be made. -/
theorem Changes.exists (changes : List (Nat × (Tile → Tile))) (before : Memory) :
    ∃ after, Changes changes before after := ⟨_, changes, .refl _, rfl⟩

/-- The place of a chunk in its row, and the row. -/
theorem Plan.mod_div_chunk (plan : Plan) (row : Nat) {place : Nat}
    (within : place < plan.chunksPerRow) :
    (row * plan.chunksPerRow + place) % plan.chunksPerRow = place ∧
      (row * plan.chunksPerRow + place) / plan.chunksPerRow = row := by
  rw [Nat.mul_comm row, Nat.mul_add_mod, Nat.mod_eq_of_lt within,
    Nat.mul_add_div (Nat.zero_lt_of_lt within), Nat.div_eq_of_lt within, Nat.add_zero]
  exact ⟨rfl, rfl⟩

/-- Chunks of a size that cover the rows. -/
structure Plan.Covers (plan : Plan) : Prop where
  row : 0 < plan.rowTiles
  chunk : 0 < plan.chunkTiles
  chunks : plan.chunksPerRow = ceilDiv plan.rowTiles plan.chunkTiles

namespace Plan.Covers

variable {plan : Plan} (covers : plan.Covers)
include covers

/-- Every chunk of a row starts in the row. -/
theorem starts {place : Nat} (within : place < plan.chunksPerRow) :
    place * plan.chunkTiles < plan.rowTiles := by
  rw [covers.chunks, ceilDiv] at within
  have bound := (Nat.le_div_iff_mul_le covers.chunk).mp (Nat.succ_le_of_lt within)
  rw [Nat.succ_mul] at bound
  have chunk := covers.chunk
  omega

theorem chunksPerRow_pos : 0 < plan.chunksPerRow := by
  rw [covers.chunks, ceilDiv]
  have row := covers.row
  have chunk := covers.chunk
  exact Nat.div_pos (by omega) chunk

/-- A tile of a row is in some chunk of the row. -/
theorem place_lt (within : tile < plan.rowTiles) :
    tile / plan.chunkTiles < plan.chunksPerRow := by
  rw [covers.chunks, ceilDiv]
  apply (Nat.div_lt_iff_lt_mul covers.chunk).mpr
  have bound := Nat.lt_div_mul_add covers.chunk (a := plan.rowTiles + plan.chunkTiles - 1)
  omega

theorem chunkLength_pos (chunk : Nat) : 0 < plan.chunkLength chunk := by
  have start := covers.starts (Nat.mod_lt chunk covers.chunksPerRow_pos)
  have size := covers.chunk
  unfold chunkLength
  simp only
  split <;> omega

/-- A chunk with another behind it in its row has full length. -/
theorem chunkLength_full {chunk : Nat}
    (next : chunk % plan.chunksPerRow + 1 < plan.chunksPerRow) :
    plan.chunkLength chunk = plan.chunkTiles := by
  have start := covers.starts next
  rw [Nat.succ_mul] at start
  unfold chunkLength
  simp only
  split <;> omega

omit covers in
/-- A place in a chunk is a place in its row. -/
theorem chunkLength_le {chunk j : Nat} (within : j < plan.chunkLength chunk) :
    j < plan.chunkTiles ∧ chunk % plan.chunksPerRow * plan.chunkTiles + j < plan.rowTiles := by
  unfold chunkLength at within
  simp only at within
  split at within <;> omega

/-- The row and the place in it of a page of a chunk. -/
theorem page_div_mod {tile : Nat × Nat} (within : tile.2 < plan.chunkLength tile.1) :
    plan.page tile / plan.rowTiles = tile.1 / plan.chunksPerRow ∧
      plan.page tile % plan.rowTiles = tile.1 % plan.chunksPerRow * plan.chunkTiles + tile.2 := by
  have inRow := (chunkLength_le within).2
  have split : plan.page tile = plan.rowTiles * (tile.1 / plan.chunksPerRow) +
      (tile.1 % plan.chunksPerRow * plan.chunkTiles + tile.2) := by
    rw [page, chunkFirstTile, Nat.mul_comm plan.rowTiles, Nat.add_assoc]
  rw [split, Nat.mul_add_div covers.row, Nat.mul_add_mod, Nat.div_eq_of_lt inRow,
    Nat.mod_eq_of_lt inRow]
  exact ⟨Nat.add_zero _, rfl⟩

/-- Different tiles of chunks are different pages. -/
theorem page_inj {first second : Nat × Nat} (within : first.2 < plan.chunkLength first.1)
    (within' : second.2 < plan.chunkLength second.1) (same : plan.page first = plan.page second) :
    first = second := by
  obtain ⟨row, place⟩ := covers.page_div_mod within
  obtain ⟨row', place'⟩ := covers.page_div_mod within'
  have below := (chunkLength_le within).1
  have below' := (chunkLength_le within').1
  rw [same] at row place
  have places := place.symm.trans place'
  rw [Nat.mul_comm, Nat.mul_comm (second.1 % _)] at places
  have quotient := congrArg (· / plan.chunkTiles) places
  have remainder := congrArg (· % plan.chunkTiles) places
  simp only [Nat.mul_add_div covers.chunk, Nat.mul_add_mod, Nat.div_eq_of_lt below,
    Nat.div_eq_of_lt below', Nat.mod_eq_of_lt below, Nat.mod_eq_of_lt below', Nat.add_zero]
    at quotient remainder
  have chunk : first.1 = second.1 := by
    rw [← Nat.div_add_mod first.1 plan.chunksPerRow, ← Nat.div_add_mod second.1 plan.chunksPerRow,
      ← row, ← row', quotient]
  exact Prod.ext chunk remainder

/-- The chunk of a tile of a row, and its place in it. -/
theorem page_of_tile (row : Nat) (within : tile < plan.rowTiles) :
    let chunk := row * plan.chunksPerRow + tile / plan.chunkTiles
    chunk % plan.chunksPerRow = tile / plan.chunkTiles ∧
      chunk / plan.chunksPerRow = row ∧
      tile % plan.chunkTiles < plan.chunkLength chunk ∧
      plan.page (chunk, tile % plan.chunkTiles) = row * plan.rowTiles + tile := by
  intro chunk
  have place := covers.place_lt within
  have isPlace : chunk % plan.chunksPerRow = tile / plan.chunkTiles :=
    (plan.mod_div_chunk row place).1
  have isRow : chunk / plan.chunksPerRow = row := (plan.mod_div_chunk row place).2
  have parts := Nat.div_add_mod' tile plan.chunkTiles
  have below := Nat.mod_lt tile covers.chunk
  refine ⟨isPlace, isRow, ?_, ?_⟩
  · unfold chunkLength
    simp only [isPlace]
    split <;> omega
  · rw [page, chunkFirstTile]
    simp only [isPlace, isRow]
    omega

/-- The tiles of different chunks are different pages. -/
theorem nodup_pages {chunks : List Nat} (distinct : chunks.Nodup) :
    ((plan.tiles chunks).map plan.page).Nodup := by
  apply List.Nodup.map_on
  · intro first member second member' same
    exact covers.page_inj (mem_tiles.mp member).2 (mem_tiles.mp member').2 same
  · exact nodup_tiles distinct

end Plan.Covers

/-- The tiles of a row of tiles. -/
def rowOf (rowTiles : Nat) (memory : Memory) (row : Nat) : Nat → Tile := fun tile =>
  memory (row * rowTiles + tile)

theorem widthPlan_rowTiles (rows rowTiles cores : Nat) :
    (widthPlan rows rowTiles cores).rowTiles = rowTiles := by
  unfold widthPlan
  simp only
  split <;> rfl

theorem widthScanChunkTiles_pos (rows rowTiles cores : Nat) :
    0 < widthScanChunkTiles rows rowTiles cores true := by
  unfold widthScanChunkTiles
  simp only [if_true]
  omega

theorem widthPlan_covers (rows cores : Nat) {rowTiles : Nat} (positive : 0 < rowTiles) :
    (widthPlan rows rowTiles cores).Covers := by
  unfold widthPlan
  simp only
  split
  · exact ⟨positive, widthScanChunkTiles_pos rows rowTiles cores, rfl⟩
  · exact ⟨positive, positive, rfl⟩

section
variable (plan : Plan)

/-- The tiles of a chunk are a part of its row. -/
theorem chunkTiles_eq (memory : Memory) (chunk : Nat) :
    chunkTiles plan memory chunk = fun j =>
      rowOf plan.rowTiles memory (chunk / plan.chunksPerRow)
        (chunk % plan.chunksPerRow * plan.chunkTiles + j) := by
  funext j
  rw [chunkTiles, rowOf, Plan.page, Plan.chunkFirstTile, Nat.add_assoc]

/-- The totals of the first chunks of a row add up to the sum of its elements in them. -/
theorem sum_chunkTotals (covers : plan.Covers) (memory : Memory) (row : Nat) {places : Nat}
    (within : places < plan.chunksPerRow) (i column : Nat) :
    (((List.range' (row * plan.chunksPerRow) places).map (chunkTotals plan memory)).map
      fun tile => tile i column).sum =
      rowSum (rowOf plan.rowTiles memory row) i (tileSide * (places * plan.chunkTiles)) := by
  induction places with
  | zero =>
    rw [Nat.zero_mul, Nat.mul_zero]
    rfl
  | succ places ih =>
    have before : places < plan.chunksPerRow := Nat.lt_of_succ_lt within
    obtain ⟨place, inRow⟩ := plan.mod_div_chunk row before
    have full : plan.chunkLength (row * plan.chunksPerRow + places) = plan.chunkTiles := by
      apply covers.chunkLength_full
      rw [place]
      exact within
    rw [List.range'_1_concat, List.map_append, List.map_append, List.sum_append, ih before,
      Nat.succ_mul, Nat.mul_add, rowSum_add]
    simp only [List.map_cons, List.map_nil, List.sum_cons, List.sum_nil, add_zero, chunkTotals,
      carriedAfter, full, chunkTiles_eq, place, inRow]

/-- What the first pass leaves in a page. -/
theorem scanned_at (covers : plan.Covers) {input before after : Memory} {chunks : List Nat}
    (distinct : chunks.Nodup)
    (made : Changes (((plan.tiles chunks).map fun tile =>
      (plan.page tile, scannedTile (chunkTiles plan input tile.1) tile.2)).map writePage) before after)
    {tile : Nat × Nat} (member : tile ∈ plan.tiles chunks) :
    after (plan.page tile) = scannedTile (chunkTiles plan input tile.1) tile.2 := by
  rw [List.map_map] at made
  refine made.at ?_ (List.mem_map.mpr ⟨tile, member, rfl⟩)
  rw [List.map_map]
  exact covers.nodup_pages distinct

/-- The totals that the first pass leaves. -/
theorem totals_at {input fresh totals : Memory} {chunks : List Nat} (distinct : chunks.Nodup)
    (made : Changes ((chunks.map fun chunk => (chunk, chunkTotals plan input chunk)).map writePage)
      fresh totals) {chunk : Nat} (member : chunk ∈ chunks) :
    totals chunk = chunkTotals plan input chunk := by
  rw [List.map_map] at made
  refine made.at ?_ (List.mem_map.mpr ⟨chunk, member, rfl⟩)
  rw [List.map_map]
  exact (List.map_id chunks).symm ▸ distinct

/-- What the second pass leaves in a page. -/
theorem raised_at (covers : plan.Covers) {totals before after : Memory} {chunks : List Nat}
    (distinct : chunks.Nodup)
    (made : Changes ((plan.tiles chunks).map fun tile =>
      (plan.page tile, addSum (totalsBefore plan totals tile.1))) before after)
    {tile : Nat × Nat} (member : tile ∈ plan.tiles chunks) :
    after (plan.page tile) = addSum (totalsBefore plan totals tile.1) (before (plan.page tile)) := by
  refine made.at ?_ (List.mem_map.mpr ⟨tile, member, rfl⟩)
  rw [List.map_map]
  exact covers.nodup_pages distinct

/-- An element of a scanned chunk, raised by the totals before the chunk. -/
theorem raised_eq (covers : plan.Covers) (input : Memory) (row i : Nat)
    (within : tile < plan.rowTiles) (inTile : column < tileSide) :
    let place := tile / plan.chunkTiles
    let chunk := row * plan.chunksPerRow + place
    scannedTile (chunkTiles plan input chunk) (tile % plan.chunkTiles) i column +
      (((List.range' (row * plan.chunksPerRow) place).map (chunkTotals plan input)).map
        fun totals => totals i column).sum =
      rowSum (rowOf plan.rowTiles input row) i (tileSide * tile + (column + 1)) := by
  intro place chunk
  have inRow := covers.place_lt within
  have parts : tile = place * plan.chunkTiles + tile % plan.chunkTiles :=
    (Nat.div_add_mod' tile plan.chunkTiles).symm
  obtain ⟨isPlace, isRow⟩ := plan.mod_div_chunk row inRow
  rw [sum_chunkTotals plan covers input row inRow, scannedTile_eq _ _ _ inTile, add_comm,
    chunkTiles_eq, isPlace, isRow, ← rowSum_add, ← Nat.add_assoc, ← Nat.mul_add, ← parts]

/-- A chunk that a page belongs to. -/
def Plan.Holds (chunk page : Nat) : Prop :=
  plan.chunkFirstTile chunk ≤ page ∧ page < plan.chunkFirstTile chunk + plan.chunkLength chunk

/-- A tile of a row is in one chunk of its row, and in no other. -/
theorem holds_unique (covers : plan.Covers) (row : Nat) (within : tile < plan.rowTiles) :
    plan.Holds (row * plan.chunksPerRow + tile / plan.chunkTiles) (row * plan.rowTiles + tile) ∧
      ∀ other, plan.Holds other (row * plan.rowTiles + tile) →
        other = row * plan.chunksPerRow + tile / plan.chunkTiles := by
  obtain ⟨-, -, inChunk, isPage⟩ := covers.page_of_tile row within
  constructor
  · rw [← isPage]
    exact ⟨Nat.le_add_right .., Nat.add_lt_add_left inChunk _⟩
  · rintro other ⟨low, high⟩
    have same : plan.page (other, row * plan.rowTiles + tile - plan.chunkFirstTile other) =
        plan.page (row * plan.chunksPerRow + tile / plan.chunkTiles, tile % plan.chunkTiles) :=
      (Nat.add_sub_of_le low).trans isPage.symm
    exact congrArg Prod.fst (covers.page_inj (Nat.sub_lt_left_of_lt_add low high) inChunk same)

/-- The chunk of a tile is one of the chunks of the tensor. -/
theorem chunk_lt (covers : plan.Covers) {rows row : Nat} (below : row < rows)
    (within : tile < plan.rowTiles) :
    row * plan.chunksPerRow + tile / plan.chunkTiles < rows * plan.chunksPerRow :=
  calc row * plan.chunksPerRow + tile / plan.chunkTiles
      < row * plan.chunksPerRow + plan.chunksPerRow :=
        Nat.add_lt_add_left (covers.place_lt within) _
    _ = (row + 1) * plan.chunksPerRow := (Nat.succ_mul ..).symm
    _ ≤ rows * plan.chunksPerRow := Nat.mul_le_mul_right _ below

/-- A scan can run. -/
theorem Accumulates.exists (covers : plan.Covers) (placement : Placement)
    (input output : Memory) : ∃ result, Accumulates plan placement input output result := by
  have positive := fun cores : List (List Nat) => fun chunk (_ : chunk ∈ cores.flatten) =>
    covers.chunkLength_pos chunk
  unfold Accumulates
  split
  · obtain ⟨scanned, scans⟩ := Changes.exists _ output
    obtain ⟨totals, writes⟩ := Changes.exists _ fun _ _ _ => 0
    obtain ⟨result, raises⟩ := Changes.exists _ scanned
    exact ⟨result, _, _, _, _, totals, scanned,
      scanCores_eq plan true input placement.registers (positive _) 0, scans, writes,
      offsetCores_eq plan totals _, raises⟩
  · obtain ⟨result, scans⟩ := Changes.exists _ output
    exact ⟨result, _, _, scanCores_eq plan false input placement.registers (positive _) 0, scans⟩

/-- What a scan leaves in a page. -/
theorem Accumulates.at (covers : plan.Covers) {placement : Placement} {rows : Nat}
    (scan : Partition placement.scan (rows * plan.chunksPerRow))
    (offsets : Partition placement.offsets (rows * plan.chunksPerRow))
    {input output result : Memory} (made : Accumulates plan placement input output result)
    {row : Nat} (below : row < rows) (within : tile < plan.rowTiles) (i : Nat)
    (inTile : column < tileSide) :
    result (row * plan.rowTiles + tile) i column =
      rowSum (rowOf plan.rowTiles input row) i (tileSide * tile + (column + 1)) := by
  have inRow := covers.place_lt within
  have chunk := chunk_lt plan covers below within
  obtain ⟨isPlace, -, inChunk, isPage⟩ := covers.page_of_tile row within
  have start : row * plan.chunksPerRow + tile / plan.chunkTiles - tile / plan.chunkTiles =
      row * plan.chunksPerRow := Nat.add_sub_cancel ..
  have scanning := scan.nodup_iff.mpr List.nodup_range
  have raising := offsets.nodup_iff.mpr List.nodup_range
  have positive := fun chunk (_ : chunk ∈ (placement.scan.map coreChunks).flatten) =>
    covers.chunkLength_pos chunk
  have scanTile :
      (row * plan.chunksPerRow + tile / plan.chunkTiles, tile % plan.chunkTiles) ∈
        plan.tiles (placement.scan.map coreChunks).flatten :=
    mem_tiles.mpr ⟨scan.mem_iff.mpr (List.mem_range.mpr chunk), inChunk⟩
  have raiseTile :
      (row * plan.chunksPerRow + tile / plan.chunkTiles, tile % plan.chunkTiles) ∈
        plan.tiles (placement.offsets.map coreChunks).flatten :=
    mem_tiles.mpr ⟨offsets.mem_iff.mpr (List.mem_range.mpr chunk), inChunk⟩
  unfold Accumulates at made
  split at made
  case isTrue =>
    obtain ⟨outputs, totals, changes, fresh, totalsTensor, scanned, first, scans, writes, second,
      raises⟩ := made
    rw [scanCores_eq plan true input placement.registers positive] at first
    cases first
    rw [offsetCores_eq] at second
    cases second
    have before : totalsBefore plan totalsTensor (row * plan.chunksPerRow + tile / plan.chunkTiles) =
        (List.range' (row * plan.chunksPerRow) (tile / plan.chunkTiles)).map
          (chunkTotals plan input) := by
      rw [totalsBefore, isPlace, start]
      apply List.map_congr_left
      intro earlier member
      have earlierBelow : earlier < rows * plan.chunksPerRow :=
        ((List.mem_range'_1.mp member).2).trans chunk
      exact totals_at plan scanning writes (scan.mem_iff.mpr (List.mem_range.mpr earlierBelow))
    rw [← isPage, raised_at plan covers raising raises raiseTile,
      scanned_at plan covers scanning scans scanTile, addSum, before]
    exact raised_eq plan covers input row i within inTile
  case isFalse single =>
    obtain ⟨outputs, totals, first, scans⟩ := made
    rw [scanCores_eq plan false input placement.registers positive] at first
    cases first
    have firstPlace : tile / plan.chunkTiles = 0 := by omega
    have raised := raised_eq plan covers input row i within inTile
    rw [← isPage, scanned_at plan covers scanning scans scanTile, ← raised]
    simp only [firstPlace, List.range'_zero, List.map_nil, List.sum_nil, add_zero]

end

/-- The width scan of 32-bit integers: its chunks partition the rows, it runs, and it leaves the
prefix sums of the rows, however the chunks of each pass are split over the cores. -/
theorem width_scan_prefix (rows cores : Nat) {rowTiles : Nat} (positive : 0 < rowTiles)
    (placement : Placement)
    (scan : Partition placement.scan (rows * (widthPlan rows rowTiles cores).chunksPerRow))
    (offsets : Partition placement.offsets (rows * (widthPlan rows rowTiles cores).chunksPerRow))
    (input output : Memory) :
    let plan := widthPlan rows rowTiles cores
    (∀ chunk < rows * plan.chunksPerRow, 0 < plan.chunkLength chunk) ∧
    (∀ row < rows, ∀ tile < rowTiles,
      ∃ chunk < rows * plan.chunksPerRow, chunk / plan.chunksPerRow = row ∧
        plan.Holds chunk (row * rowTiles + tile) ∧
        ∀ other, plan.Holds other (row * rowTiles + tile) → other = chunk) ∧
    (∃ result, Accumulates plan placement input output result) ∧
    ∀ result, Accumulates plan placement input output result →
      ∀ row < rows, ∀ tile < rowTiles, ∀ i, ∀ column < tileSide,
        result (row * rowTiles + tile) i column =
          rowSum (rowOf rowTiles input row) i (tileSide * tile + (column + 1)) := by
  intro plan
  have covers : plan.Covers := widthPlan_covers rows cores positive
  have isWidth : rowTiles = plan.rowTiles := (widthPlan_rowTiles rows rowTiles cores).symm
  rw [isWidth]
  refine ⟨fun chunk _ => covers.chunkLength_pos chunk, ?_,
    Accumulates.exists plan covers placement input output, ?_⟩
  · intro row below tile within
    obtain ⟨held, unique⟩ := holds_unique plan covers row within
    exact ⟨_, chunk_lt plan covers below within,
      (plan.mod_div_chunk row (covers.place_lt within)).2, held, unique⟩
  · intro result made row below tile within i column inTile
    exact Accumulates.at plan covers scan offsets made below within i inTile

/-- Two rows of forty tiles of ones in four chunks, of which the second crosses the rows. -/
theorem width_scan_prefix_ones :
    ∃ result, Accumulates (widthPlan 2 40 4) ⟨runArgs 0 [1, 2, 1], runArgs 0 [2, 2], fun _ _ => 7⟩
      (fun _ _ _ => 1) (fun _ _ _ => 0) result ∧ result 79 5 31 = 1280 := by
  obtain ⟨-, -, ⟨result, made⟩, sums⟩ := width_scan_prefix 2 4 (by decide : 0 < 40)
    ⟨runArgs 0 [1, 2, 1], runArgs 0 [2, 2], fun _ _ => 7⟩ (runArgs_partition [1, 2, 1])
    (runArgs_partition [2, 2]) (fun _ _ _ => 1) fun _ _ _ => 0
  refine ⟨result, made, ?_⟩
  have last := sums result made 1 (by decide) 39 (by decide) 5 31 (by decide)
  simp only [rowSum, rowOf, Finset.sum_const, Finset.card_range] at last
  exact last

end Libtt.WidthScan

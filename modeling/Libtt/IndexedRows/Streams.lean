import Libtt.Foundation.Loop
import Libtt.IndexedRows.Rows
import Libtt.IndexedRows.Scatter

/-!
# Streams of indices and columns

`geometry` sizes the entries into which the indexed-rows kernels stream index positions
(`stream_index`), the source of a column scatter (`stream_chunk`) and the column windows of a
gather, which `realign` moves within their entry. Numbers are of 32 bits.
-/
namespace Libtt.IndexedRows

open Libtt.Foundation

/-- A `uint32_t`. -/
def word (number : Nat) : Nat := number % 2 ^ 32

/-- What `geometry` reads of the parameters and the tensors. -/
structure StreamParams extends Rows where
  elemBytes : Nat
  /-- Elements of a page. -/
  R : Nat
  /-- Pages of a row. -/
  S : Nat
  /-- Index positions of a batch. -/
  M : Nat

namespace StreamParams

variable (wrap : Nat → Nat) (params : StreamParams)

def K : Nat := params.sizes.length

/-- `indexed_rows_window`. -/
def indexedRowsWindow : Nat :=
  params.rowWindows.foldl (fun window size => wrap (window * size)) 1

/-- `IndexedRowsTable::column_window`. -/
def tableColumnWindow : Nat := if params.column then params.windows.getLastD 0 else 0

def pageBytes : Nat := wrap (params.R * params.elemBytes)

def chunkBytes : Nat := min (params.pageBytes wrap) maxChunk

def columnEntry : Nat :=
  if params.column then wrap (wrap (params.tableColumnWindow * params.elemBytes) + entryAlign) else 0

/-- `align_entry`. -/
def alignEntry (bytes : Nat) : Nat := wrap (wrap (bytes + entryAlign - 1) / entryAlign * entryAlign)

def indexBytes : Nat := wrap (params.K * 4)

def sourcePerPosition : Nat :=
  if params.column then
    wrap (wrap (params.indexedRowsWindow wrap * params.tableColumnWindow) * params.elemBytes)
  else 0

def indexBatch : Nat :=
  let batch := max 1 (16 * 1024 / params.indexBytes wrap)
  let batch := if 0 < params.sourcePerPosition wrap then
      max 1 (min (64 * 1024 / params.sourcePerPosition wrap) batch)
    else batch
  min batch (max params.M 1)

/-- The sizes that `geometry` gives the kernels. -/
structure Geometry where
  entryBytes : Nat
  indexBatch : Nat
  indexStrideBytes : Nat
  indexEntryBytes : Nat
  sourceEntryBytes : Nat

/-- `geometry`, its results wrapped as said. -/
def geometry : Geometry where
  entryBytes := alignEntry wrap (max (params.chunkBytes wrap) (params.columnEntry wrap))
  indexBatch := params.indexBatch wrap
  indexStrideBytes := alignEntry wrap (wrap (params.indexBatch wrap * 4 + entryAlign))
  indexEntryBytes :=
    wrap (params.K * alignEntry wrap (wrap (params.indexBatch wrap * 4 + entryAlign)))
  sourceEntryBytes := alignEntry wrap
    (wrap (max (wrap (params.indexBatch wrap * params.sourcePerPosition wrap)) 1 + entryAlign))

/-- Without bounds on numbers, the sizes are below 2³¹. -/
structure Small : Prop where
  page : params.pageBytes id < 2 ^ 31
  index : params.indexBytes id < 2 ^ 31
  source : params.sourcePerPosition id < 2 ^ 31
  entry : (params.geometry id).entryBytes < 2 ^ 31
  indexEntry : (params.geometry id).indexEntryBytes < 2 ^ 31
  sourceEntry : (params.geometry id).sourceEntryBytes < 2 ^ 31

end StreamParams

/-- `kGranule`. -/
def granule : Nat := 64

/-- A NoC transfer between an address in L1 and an offset of a page in DRAM. -/
structure Transfer where
  address : Nat
  dramOffset : Nat
  bytes : Nat

namespace Transfer

/-- The transfer stays inside an entry. -/
def Inside (transfer : Transfer) (entry entryBytes : Nat) : Prop :=
  entry ≤ transfer.address ∧ transfer.address + transfer.bytes ≤ entry + entryBytes

/-- The L1 address shares the DRAM offset within a granule. -/
def Aligned (transfer : Transfer) : Prop :=
  transfer.address % granule = transfer.dramOffset % granule

def Apart (first second : Transfer) : Prop :=
  first.address + first.bytes ≤ second.address ∨ second.address + second.bytes ≤ first.address

end Transfer

/-- `stream_index`: one read for each component. -/
def streamIndex (K strideBytes writePtr m0 n : Nat) : List Transfer :=
  let base := writePtr + word (m0 * 4) % granule
  (List.range K).map fun k => ⟨base + word (k * strideBytes), word (m0 * 4), word (n * 4)⟩

/-- The address from which position `i` of a streamed chunk has its component `k`, of a word. -/
def positionAddress (strideBytes writePtr m0 i k : Nat) : Nat :=
  writePtr + word (m0 * 4) % granule + 4 * (i + k * (strideBytes / 4))

/-- `stream_chunk`. -/
def streamChunk (writePtr offset bytes : Nat) : Transfer :=
  ⟨writePtr + offset % granule, offset, bytes⟩

/-- One byte of a move within an entry. -/
def moveByte {α : Type} (base source target : Nat) (memory : Nat → α) (i : Nat) : Nat → α :=
  Function.update memory (base + (target + i)) (memory (base + (source + i)))

/-- `realign`. -/
def realign {α : Type} (memory : Nat → α) (base source target bytes : Nat) : Nat → α :=
  if source = target then memory
  else if target < source then (List.range bytes).foldl (moveByte base source target) memory
  else (List.range bytes).reverse.foldl (moveByte base source target) memory

namespace StreamParams

variable (params : StreamParams)

/-- `column_bytes` of the kernels. -/
def columnBytes : Nat := word (params.tableColumnWindow * params.elemBytes)

/-- `source_bytes` of the scatter's writer. -/
def sourceBytes : Nat :=
  if params.column then word (params.indexedRowsWindow word * params.columnBytes) else 0

/-- The source of positions `[m0, m0 + n)` in the scatter's writer. -/
def streamSource (writePtr m0 n : Nat) : Transfer :=
  streamChunk writePtr (word (m0 * params.sourceBytes)) (word (n * params.sourceBytes))

/-- What a gather does with a column window in its entry. -/
structure ColumnTransfer where
  /-- `from` -/
  source : Nat
  /-- `to` -/
  target : Nat
  /-- The reader's read; without one it writes zeros at `to`. -/
  read : Option Transfer
  /-- The writer's write. -/
  write : Transfer

/-- The column branches of both kernels for window `t` of an item; `column` is the position's last
coordinate, and `zeros` says that the window is filled. -/
def columnTransfer (writePtr item t column : Nat) (zeros : Bool) : ColumnTransfer :=
  let offset := word (column * params.elemBytes)
  let outputOffset :=
    word (word (word (item % params.M * params.indexedRowsWindow word) + t) * params.columnBytes)
  { source := if zeros then outputOffset % granule else offset % granule
    target := outputOffset % granule
    read := if zeros then none else some ⟨writePtr + offset % granule, offset, params.columnBytes⟩
    write := ⟨writePtr + outputOffset % 64, outputOffset, params.columnBytes⟩ }

/-- `transfers_per_item`. -/
def transfersPerItem : Nat :=
  if params.column then params.indexedRowsWindow word
  else word (params.indexedRowsWindow word * params.S *
    ((params.pageBytes word + params.chunkBytes word - 1) / params.chunkBytes word))

/-- The variables of the reader's loop, and the chunk in L1: its positions `[m, m + n)`. -/
structure ReaderState where
  loadedEnd : Nat
  chunkBegin : Nat
  codedItem : Option Nat
  m : Nat
  n : Nat

/-- The reader decodes the item of a transfer, and loads the chunk that starts there if needed. -/
def readerStep (endItem transfer : Nat) (state : ReaderState) : ReaderState :=
  let item := transfer / params.transfersPerItem
  if some item = state.codedItem then state
  else if state.loadedEnd ≤ item then
    let m := item % params.M
    let n := endItem - item
    let n := if (params.geometry word).indexBatch < n then (params.geometry word).indexBatch else n
    let n := if params.M - m < n then params.M - m else n
    ⟨item + n, item, some item, m, n⟩
  else { state with codedItem := some item }

/-- The reader before transfer `q` of its range. -/
def readerRun (firstTransfer numTransfers q : Nat) : ReaderState :=
  let firstItem := firstTransfer / params.transfersPerItem
  let endItem := if numTransfers = 0 then firstItem
    else (firstTransfer + numTransfers - 1) / params.transfersPerItem + 1
  (List.range q).foldl (fun state q => params.readerStep endItem (firstTransfer + q) state)
    ⟨firstItem, firstItem, none, 0, 0⟩

end StreamParams

end Libtt.IndexedRows

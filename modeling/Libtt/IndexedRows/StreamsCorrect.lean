import Libtt.IndexedRows.Streams

/-!
# Streams stay inside their entries

Every entry has a granule of room beyond its data, so that the data can start anywhere in a granule.
-/
namespace Libtt.IndexedRows

open Libtt.Foundation

theorem word_eq {number : Nat} (small : number < 2 ^ 32) : word number = number :=
  Nat.mod_eq_of_lt small

namespace StreamParams

variable {params : StreamParams}

theorem le_alignEntry (bytes : Nat) : bytes ≤ alignEntry id bytes := by
  simp only [alignEntry, entryAlign, id]
  omega

theorem granule_dvd_alignEntry (bytes : Nat) : granule ∣ alignEntry id bytes :=
  Nat.dvd_mul_left _ _

theorem alignEntry_word {bytes : Nat} (small : alignEntry id bytes < 2 ^ 31) :
    alignEntry word (word bytes) = alignEntry id bytes := by
  have less := le_alignEntry bytes
  rw [word_eq (by omega)]
  simp only [alignEntry, entryAlign, id] at small ⊢
  rw [word_eq (by omega : bytes + 64 - 1 < 2 ^ 32), word_eq (by omega)]

theorem word_mul (first second : Nat) : word (word first * second) = word (first * second) :=
  Nat.mod_mul_mod ..

theorem indexedRowsWindow_word :
    params.indexedRowsWindow word = word (params.indexedRowsWindow id) := by
  have run (windows : List Nat) (window : Nat) :
      windows.foldl (fun window size => word (window * size)) (word window) =
        word (windows.foldl (fun window size => id (window * size)) window) := by
    induction windows generalizing window with
    | nil => rfl
    | cons size windows ih => rw [List.foldl_cons, word_mul, ih, List.foldl_cons, id]
  exact run params.rowWindows 1

theorem sourcePerPosition_word (small : params.Small) :
    params.sourcePerPosition word = params.sourcePerPosition id := by
  have fits := small.source
  rw [sourcePerPosition, sourcePerPosition] at *
  split
  · rename_i isColumn
    rw [if_pos isColumn] at fits
    rw [word_mul, indexedRowsWindow_word, Nat.mul_assoc, word_mul, ← Nat.mul_assoc]
    exact word_eq (by simp only [id] at fits ⊢; omega)
  · rfl

theorem indexBatch_le : params.indexBatch id ≤ 16 * 1024 := by
  have few : max 1 (16 * 1024 / params.indexBytes id) ≤ 16 * 1024 :=
    max_le (by decide) (Nat.div_le_self _ _)
  simp only [indexBatch]
  split
  · exact (min_le_left _ _).trans (max_le (by decide) ((min_le_right _ _).trans few))
  · exact (min_le_left _ _).trans few

theorem indexBatch_pos : 0 < params.indexBatch id := by
  simp only [indexBatch]
  split <;> omega

/-- Small sizes are computed as without bounds. -/
theorem geometry_word (small : params.Small) : params.geometry word = params.geometry id := by
  have page : params.pageBytes word = params.pageBytes id :=
    word_eq (small.page.trans (by decide))
  have index : params.indexBytes word = params.indexBytes id :=
    word_eq (small.index.trans (by decide))
  have source := sourcePerPosition_word small
  have batch : params.indexBatch word = params.indexBatch id := by
    rw [indexBatch, indexBatch, index, source]
  have chunk : params.chunkBytes word = params.chunkBytes id := by rw [chunkBytes, page, chunkBytes]
  have few : params.indexBatch id ≤ 16 * 1024 := indexBatch_le
  have stride : alignEntry word (word (params.indexBatch id * 4 + entryAlign)) =
      alignEntry id (params.indexBatch id * 4 + entryAlign) := by
    apply alignEntry_word
    simp only [alignEntry, entryAlign, id]
    omega
  have fits := small.entry
  have column : params.columnEntry word = params.columnEntry id := by
    have below := (le_max_right _ _).trans (le_alignEntry _) |>.trans_lt fits
    rw [columnEntry] at below ⊢
    split
    · rename_i isColumn
      rw [if_pos isColumn] at below
      simp only [entryAlign, id] at below
      rw [word_eq (by omega : _ * params.elemBytes < 2 ^ 32), word_eq (by rw [entryAlign]; omega),
        columnEntry, if_pos isColumn]
      rfl
    · rw [columnEntry, if_neg ‹_›]
  have entry : alignEntry word (max (params.chunkBytes id) (params.columnEntry id)) =
      alignEntry id (max (params.chunkBytes id) (params.columnEntry id)) := by
    have below := (le_alignEntry _).trans_lt fits
    have same := alignEntry_word fits
    rwa [word_eq (by omega)] at same
  have stream : alignEntry word (word (max (word (params.indexBatch id * params.sourcePerPosition id))
      1 + entryAlign)) = alignEntry id
        (max (params.indexBatch id * params.sourcePerPosition id) 1 + entryAlign) := by
    have below := (le_alignEntry _).trans_lt small.sourceEntry
    simp only [entryAlign, id] at below
    rw [word_eq (by omega : params.indexBatch id * _ < 2 ^ 32)]
    exact alignEntry_word small.sourceEntry
  have indexEntry := small.indexEntry
  simp only [geometry, id] at indexEntry ⊢
  rw [batch, source, chunk, column, entry, stride, stream, word_eq (by omega)]

/-- Each component has the positions of a chunk and a granule. -/
theorem index_fits : (params.geometry id).indexBatch * 4 + granule ≤
    (params.geometry id).indexStrideBytes :=
  le_alignEntry _

theorem source_fits : (params.geometry id).indexBatch * params.sourcePerPosition id + granule ≤
    (params.geometry id).sourceEntryBytes :=
  (Nat.add_le_add_right (le_max_left _ 1) granule).trans (le_alignEntry _)

theorem column_fits (isColumn : params.column = true) :
    params.tableColumnWindow * params.elemBytes + granule ≤ (params.geometry id).entryBytes := by
  have column : params.columnEntry id = params.tableColumnWindow * params.elemBytes + granule :=
    if_pos isColumn
  rw [← column]
  exact (le_max_right _ _).trans (le_alignEntry _)

theorem columnBytes_eq (small : params.Small) (isColumn : params.column = true) :
    params.columnBytes = params.tableColumnWindow * params.elemBytes := by
  have fits := (column_fits isColumn).trans_lt small.entry
  exact word_eq (by omega)

theorem sourceBytes_eq (small : params.Small) (isColumn : params.column = true) :
    params.sourceBytes = params.sourcePerPosition id := by
  have fits := small.source
  rw [sourcePerPosition, if_pos isColumn] at fits ⊢
  rw [sourceBytes, if_pos isColumn, indexedRowsWindow_word, word_mul,
    columnBytes_eq small isColumn, ← Nat.mul_assoc]
  exact word_eq (by simp only [id] at fits ⊢; omega)

/-- What is wanted of the reads of an index chunk into an entry. -/
structure IndexStreamed (params : StreamParams) (writePtr m0 n : Nat) : Prop where
  apart : (streamIndex params.K (params.geometry word).indexStrideBytes writePtr m0 n).Pairwise
    Transfer.Apart
  inside : ∀ read ∈ streamIndex params.K (params.geometry word).indexStrideBytes writePtr m0 n,
    read.Inside writePtr (params.geometry word).indexEntryBytes
  aligned : granule ∣ writePtr →
    ∀ read ∈ streamIndex params.K (params.geometry word).indexStrideBytes writePtr m0 n,
      read.Aligned
  /-- A position's components are read where they were streamed to. -/
  positions : ∀ i < n, ∀ k < params.K, ∃ read,
    (streamIndex params.K (params.geometry word).indexStrideBytes writePtr m0 n)[k]? = some read ∧
      positionAddress (params.geometry word).indexStrideBytes writePtr m0 i k =
        read.address + 4 * i ∧ 4 * i + 4 ≤ read.bytes

theorem index_streamed (small : params.Small) {writePtr m0 n : Nat}
    (few : n ≤ (params.geometry word).indexBatch) : IndexStreamed params writePtr m0 n := by
  have same := geometry_word small
  have fits : (params.geometry id).indexBatch * 4 + granule ≤
    (params.geometry id).indexStrideBytes := index_fits
  have granules : granule ∣ (params.geometry id).indexStrideBytes := granule_dvd_alignEntry _
  have entry := small.indexEntry
  have batch : params.indexBatch id ≤ 16 * 1024 := indexBatch_le
  have start := Nat.mod_lt (word (m0 * 4)) (by decide : 0 < granule)
  rw [same] at few
  have count : n ≤ 16 * 1024 := few.trans batch
  have bytes : word (n * 4) = n * 4 := word_eq (by omega)
  have room (k : Nat) (isComponent : k < params.K) :
      word (k * (params.geometry id).indexStrideBytes) = k * (params.geometry id).indexStrideBytes ∧
      k * (params.geometry id).indexStrideBytes + (params.geometry id).indexStrideBytes ≤
        (params.geometry id).indexEntryBytes := by
    have next : (k + 1) * (params.geometry id).indexStrideBytes ≤
        (params.geometry id).indexEntryBytes := Nat.mul_le_mul_right _ isComponent
    rw [Nat.add_mul, Nat.one_mul] at next
    exact ⟨word_eq (by omega), next⟩
  constructor <;> rw [same]
  · rw [streamIndex, List.pairwise_map]
    refine List.pairwise_lt_range.imp_of_mem fun {k other} isComponent isOther less => .inl ?_
    rw [List.mem_range] at isComponent isOther
    have next : (k + 1) * (params.geometry id).indexStrideBytes ≤
      other * (params.geometry id).indexStrideBytes := Nat.mul_le_mul_right _ less
    rw [Nat.add_mul, Nat.one_mul] at next
    simp only [(room k isComponent).1, (room other isOther).1, bytes]
    omega
  · intro read member
    obtain ⟨k, isComponent, rfl⟩ := List.mem_map.mp member
    have roomy := room k (List.mem_range.mp isComponent)
    constructor
    · dsimp only
      omega
    · simp only [roomy.1, bytes]
      omega
  · intro isAligned read member
    obtain ⟨k, isComponent, rfl⟩ := List.mem_map.mp member
    have roomy := room k (List.mem_range.mp isComponent)
    have stride : granule ∣ k * (params.geometry id).indexStrideBytes := granules.mul_left k
    simp only [Transfer.Aligned, roomy.1]
    rw [granule] at *
    omega
  · intro i isPosition k isComponent
    have roomy := room k isComponent
    obtain ⟨words, isWords⟩ := granules
    refine ⟨_, by rw [streamIndex, List.getElem?_map, List.getElem?_range isComponent]; rfl, ?_, ?_⟩
    · have divided : (params.geometry id).indexStrideBytes / 4 * 4 =
          (params.geometry id).indexStrideBytes := by
        rw [isWords, granule]
        omega
      have scaled : 4 * (k * ((params.geometry id).indexStrideBytes / 4)) =
          k * (params.geometry id).indexStrideBytes := by
        rw [Nat.mul_left_comm, Nat.mul_comm 4, divided]
      rw [positionAddress, Nat.mul_add, scaled]
      dsimp only
      omega
    · simp only [bytes]
      omega

theorem source_streamed (small : params.Small) (isColumn : params.column = true)
    {writePtr m0 n : Nat} (few : n ≤ (params.geometry word).indexBatch) :
    (params.streamSource writePtr m0 n).Inside writePtr (params.geometry word).sourceEntryBytes ∧
      (granule ∣ writePtr → (params.streamSource writePtr m0 n).Aligned) := by
  rw [geometry_word small] at *
  have fits : (params.geometry id).indexBatch * params.sourcePerPosition id + granule ≤
    (params.geometry id).sourceEntryBytes := source_fits
  have entry := small.sourceEntry
  have bytes : n * params.sourcePerPosition id ≤
    (params.geometry id).indexBatch * params.sourcePerPosition id := Nat.mul_le_mul_right _ few
  have start := Nat.mod_lt (word (m0 * params.sourceBytes)) (by decide : 0 < granule)
  rw [streamSource, streamChunk]
  refine ⟨⟨Nat.le_add_right _ _, ?_⟩, fun isAligned => ?_⟩
  · dsimp only
    rw [sourceBytes_eq small isColumn, word_eq (by omega : n * _ < 2 ^ 32)] at *
    omega
  · rw [Transfer.Aligned, granule] at *
    dsimp only
    omega

end StreamParams

/-- A window of bytes has moved, and no other byte has changed. -/
def Moved {α : Type} (before after : Nat → α) (base source target bytes : Nat) : Prop :=
  (∀ i < bytes, after (base + (target + i)) = before (base + (source + i))) ∧
    ∀ address, (∀ i < bytes, address ≠ base + (target + i)) → after address = before address

/-- Upwards, the bytes that are still to be read lie above those written. -/
theorem moved_up {α : Type} (memory : Nat → α) {base source target : Nat} (down : target < source)
    (bytes : Nat) : Moved memory ((List.range bytes).foldl (moveByte base source target) memory)
      base source target bytes := by
  induction bytes with
  | zero => exact ⟨nofun, fun _ _ => rfl⟩
  | succ bytes ih =>
    rw [List.range_succ, List.foldl_append, List.foldl_cons, List.foldl_nil, moveByte]
    constructor
    · intro i less
      by_cases last : i = bytes
      · rw [last, Function.update_self]
        exact ih.2 _ fun j _ => by omega
      · rw [Function.update_of_ne (by omega)]
        exact ih.1 i (by omega)
    · intro address other
      rw [Function.update_of_ne (other bytes (Nat.lt_succ_self bytes))]
      exact ih.2 address fun i less => other i (by omega)

/-- Downwards, they lie below. -/
theorem moved_down {α : Type} (memory : Nat → α) {base source target : Nat} (up : source < target)
    (bytes : Nat) :
    Moved memory ((List.range bytes).reverse.foldl (moveByte base source target) memory)
      base source target bytes := by
  induction bytes generalizing memory with
  | zero => exact ⟨nofun, fun _ _ => rfl⟩
  | succ bytes ih =>
    rw [List.range_succ, List.reverse_append, List.reverse_singleton, List.singleton_append,
      List.foldl_cons]
    have rest := ih (moveByte base source target memory bytes)
    constructor
    · intro i less
      by_cases last : i = bytes
      · rw [last, rest.2 _ fun j _ => by omega, moveByte, Function.update_self]
      · rw [rest.1 i (by omega), moveByte, Function.update_of_ne (by omega)]
    · intro address other
      rw [rest.2 address fun i less => other i (by omega), moveByte,
        Function.update_of_ne (other bytes (Nat.lt_succ_self bytes))]

theorem realign_moved {α : Type} (memory : Nat → α) (base source target bytes : Nat) :
    Moved memory (realign memory base source target bytes) base source target bytes := by
  rw [realign]
  split
  · rename_i same
    exact ⟨fun i _ => by rw [same], fun _ _ => rfl⟩
  · split
    · exact moved_up memory ‹_› bytes
    · exact moved_down memory (by omega) bytes

namespace StreamParams

variable {params : StreamParams}

/-- Entry `i` of the rows. -/
def rowsEntry (params : StreamParams) (writePtr i : Nat) : Nat :=
  writePtr + i * (params.geometry word).entryBytes

/-- What is wanted of a column window that goes through an entry of the rows. -/
structure ColumnMoved (params : StreamParams) (writePtr i : Nat) (moves : ColumnTransfer) :
    Prop where
  read : ∀ read ∈ moves.read,
    read.Inside (params.rowsEntry writePtr i) (params.geometry word).entryBytes ∧
      read.address = params.rowsEntry writePtr i + moves.source ∧
      read.bytes = params.columnBytes ∧ (granule ∣ writePtr → read.Aligned)
  write : moves.write.Inside (params.rowsEntry writePtr i) (params.geometry word).entryBytes ∧
    moves.write.address = params.rowsEntry writePtr i + moves.target ∧
    moves.write.bytes = params.columnBytes ∧ (granule ∣ writePtr → moves.write.Aligned)
  filled : moves.read = none → moves.source = moves.target
  moved : ∀ {α : Type} (memory : Nat → α), Moved memory
    (realign memory (params.rowsEntry writePtr i) moves.source moves.target params.columnBytes)
    (params.rowsEntry writePtr i) moves.source moves.target params.columnBytes

theorem column_moved (small : params.Small) (isColumn : params.column = true)
    (writePtr i item t column : Nat) (zeros : Bool) : ColumnMoved params writePtr i
      (params.columnTransfer (params.rowsEntry writePtr i) item t column zeros) := by
  have fits := column_fits isColumn
  have entries : granule ∣ (params.geometry word).entryBytes := by
    rw [geometry_word small]
    exact granule_dvd_alignEntry _
  rw [← columnBytes_eq small isColumn, ← geometry_word small] at fits
  have inside (offset : Nat) :
      (⟨params.rowsEntry writePtr i + offset % granule, offset, params.columnBytes⟩ :
          Transfer).Inside (params.rowsEntry writePtr i) (params.geometry word).entryBytes ∧
        (granule ∣ writePtr → (⟨params.rowsEntry writePtr i + offset % granule, offset,
          params.columnBytes⟩ : Transfer).Aligned) := by
    have start := Nat.mod_lt offset (by decide : 0 < granule)
    refine ⟨⟨Nat.le_add_right _ _, ?_⟩, fun isAligned => ?_⟩
    · dsimp only
      omega
    · have entry := isAligned.add (entries.mul_left i)
      rw [← rowsEntry] at entry
      rw [Transfer.Aligned, granule] at *
      dsimp only
      omega
  constructor
  · intro read isRead
    cases zeros
    · obtain rfl := Option.some_inj.mp isRead
      exact ⟨(inside _).1, rfl, rfl, (inside _).2⟩
    · contradiction
  · exact ⟨(inside _).1, rfl, rfl, (inside _).2⟩
  · intro isFilled
    cases zeros
    · contradiction
    · rfl
  · exact fun memory => realign_moved memory _ _ _ _

/-- After a transfer its item is decoded, from a chunk that has its position. -/
structure Decoded (params : StreamParams) (transfer : Nat) (state : ReaderState) : Prop where
  coded : state.codedItem = some (transfer / params.transfersPerItem)
  begun : state.chunkBegin ≤ transfer / params.transfersPerItem
  loaded : transfer / params.transfersPerItem < state.loadedEnd
  chunk : state.loadedEnd = state.chunkBegin + state.n
  start : state.m = state.chunkBegin % params.M
  few : state.n ≤ (params.geometry word).indexBatch
  inBatch : state.m + state.n ≤ params.M

theorem Decoded.load {endItem transfer : Nat} {state : ReaderState} (small : params.Small)
    (some' : 0 < params.M) (more : transfer / params.transfersPerItem < endItem)
    (other : state.codedItem ≠ some (transfer / params.transfersPerItem))
    (notLoaded : state.loadedEnd ≤ transfer / params.transfersPerItem) :
    Decoded params transfer (params.readerStep endItem transfer state) := by
  have batch : 0 < (params.geometry word).indexBatch := by
    rw [geometry_word small]
    exact indexBatch_pos
  have position := Nat.mod_lt (transfer / params.transfersPerItem) some'
  rw [readerStep, if_neg (Ne.symm other), if_pos notLoaded]
  constructor <;> dsimp only
  all_goals (repeat' split) <;> omega

theorem Decoded.step {endItem transfer next : Nat} {state : ReaderState} (small : params.Small)
    (some' : 0 < params.M) (more : next / params.transfersPerItem < endItem)
    (later : transfer ≤ next) (decoded : Decoded params transfer state) :
    Decoded params next (params.readerStep endItem next state) := by
  have later' := Nat.div_le_div_right (c := params.transfersPerItem) later
  by_cases same : some (next / params.transfersPerItem) = state.codedItem
  · have sameItem := Option.some_inj.mp (same.trans decoded.coded)
    rw [readerStep, if_pos same]
    exact ⟨same.symm, sameItem ▸ decoded.begun, sameItem ▸ decoded.loaded, decoded.chunk,
      decoded.start, decoded.few, decoded.inBatch⟩
  · by_cases load : state.loadedEnd ≤ next / params.transfersPerItem
    · exact Decoded.load small some' more (Ne.symm same) load
    · rw [readerStep, if_neg same, if_neg load]
      exact ⟨rfl, decoded.begun.trans later', Nat.lt_of_not_le load, decoded.chunk, decoded.start,
        decoded.few, decoded.inBatch⟩

/-- Every transfer of a range is decoded from a chunk that has its position. -/
theorem Decoded.run (small : params.Small) {firstTransfer numTransfers : Nat}
    (some' : 0 < params.M) (q : Nat) (more : q < numTransfers) :
    Decoded params (firstTransfer + q) (params.readerRun firstTransfer numTransfers (q + 1)) := by
  have inRange (q : Nat) (more : q < numTransfers) : (firstTransfer + q) / params.transfersPerItem <
      if numTransfers = 0 then firstTransfer / params.transfersPerItem
      else (firstTransfer + numTransfers - 1) / params.transfersPerItem + 1 := by
    rw [if_neg (by omega)]
    exact Nat.lt_succ_of_le (Nat.div_le_div_right (by omega))
  induction q with
  | zero =>
    have start : (⟨firstTransfer / params.transfersPerItem, firstTransfer / params.transfersPerItem,
        none, 0, 0⟩ : ReaderState).loadedEnd ≤ (firstTransfer + 0) / params.transfersPerItem := le_rfl
    exact Decoded.load small some' (inRange 0 more) (Option.some_ne_none _).symm start
  | succ q ih =>
    rw [readerRun, List.range_succ, List.foldl_append, List.foldl_cons, List.foldl_nil]
    exact Decoded.step small some' (inRange (q + 1) more) (by omega) (ih (by omega))

/-- Streamed data stay inside their entries and at the places in a granule that DRAM has them. The
work that is split over the cores has a transfer only where there are positions. -/
theorem streams_stay_inside (small : params.Small) :
    (∀ writePtr m0 n, n ≤ (params.geometry word).indexBatch → IndexStreamed params writePtr m0 n) ∧
    (params.column = true → ∀ writePtr m0 n, n ≤ (params.geometry word).indexBatch →
      (params.streamSource writePtr m0 n).Inside writePtr (params.geometry word).sourceEntryBytes ∧
        (granule ∣ writePtr → (params.streamSource writePtr m0 n).Aligned)) ∧
    (params.column = true → ∀ writePtr i item t column zeros, ColumnMoved params writePtr i
      (params.columnTransfer (params.rowsEntry writePtr i) item t column zeros)) ∧
    ∀ B firstTransfer numTransfers q,
      firstTransfer + numTransfers ≤ B * params.M * params.transfersPerItem → q < numTransfers →
      Decoded params (firstTransfer + q) (params.readerRun firstTransfer numTransfers (q + 1)) := by
  refine ⟨fun _ _ _ few => index_streamed small few, fun isColumn _ _ _ few =>
    source_streamed small isColumn few, fun isColumn => column_moved small isColumn, ?_⟩
  intro B firstTransfer numTransfers q inWork more
  refine Decoded.run small (Nat.pos_of_ne_zero fun none' => ?_) q more
  rw [none', Nat.mul_zero, Nat.zero_mul] at inWork
  omega

/-- Rows of 50 floats of which a position takes 10, from two rows. -/
def columnRows : StreamParams := ⟨⟨[8, 50], [2, 10], true⟩, 4, 50, 1, 300⟩

theorem streams_stay_inside_columnRows : IndexStreamed columnRows 1024 256 44 :=
  (streams_stay_inside ⟨by decide, by decide, by decide, by decide, by decide, by decide⟩).1
    1024 256 44 (by decide)

end StreamParams

end Libtt.IndexedRows

import Libtt.Foundation.Fairness
import Libtt.Foundation.RingBuffer

/-!
# The kernels of a scatter and the ring between them

On each core a reader streams the table's pages in chunks into a ring (`rows_scatter_reader.cpp`)
and a writer takes them in batches, updates them in place and writes them out
(`rows_scatter_writer.cpp`). The sizes come from `geometry` and `RowsScatterProgramFactory`. Sizes
and counts are natural numbers: those of a table in memory are far from wrapping.
-/
namespace Libtt.IndexedRows

open Libtt.Foundation

/-- `kEntryAlign`. -/
def entryAlign : Nat := 64

/-- `align_entry`. -/
def alignEntry (bytes : Nat) : Nat := (bytes + entryAlign - 1) / entryAlign * entryAlign

/-- `kMaxChunk`. -/
def maxChunk : Nat := 64 * 1024

/-- What `geometry` reads of a table and its parameters for the sizes of a chunk. An empty page, by
whose size the source would divide, has no chunks here. -/
structure Table where
  /-- Elements of a page. -/
  R : Nat
  elemBytes : Nat
  column : Bool
  columnWindow : Nat

namespace Table

variable (table : Table)

def pageBytes : Nat := table.R * table.elemBytes

def chunkBytes : Nat := min table.pageBytes maxChunk

def columnEntry : Nat :=
  if table.column then table.columnWindow * table.elemBytes + entryAlign else 0

def entryBytes : Nat := alignEntry (max table.chunkBytes table.columnEntry)

/-- The `group` of `geometry`. -/
def geometryGroup : Nat := max 1 (min (256 * 1024 / table.entryBytes) 16)

/-- `kBatchBudget`. -/
def batchBudget : Nat := 512 * 1024

/-- How many entries the budget has room for. -/
def budgetEntries : Nat := max 1 (batchBudget / table.entryBytes)

/-- The `group` of the scatter. -/
def group : Nat := min table.geometryGroup table.budgetEntries

/-- The entries of the ring, which are a batch. -/
def batch : Nat := table.budgetEntries - table.budgetEntries % table.group

/-- `C`: the chunks of a page. -/
def chunksPerPage : Nat := (table.pageBytes + table.chunkBytes - 1) / table.chunkBytes

end Table

/-- Bytes of a page. -/
structure Chunk where
  page : Nat
  offset : Nat
  bytes : Nat
  deriving DecidableEq

/-- The pages that a core owns. -/
structure Core extends Table where
  firstPage : Nat
  numPages : Nat

namespace Core

variable (core : Core)

/-- Chunks, in page order. -/
def total : Nat := core.numPages * core.chunksPerPage

/-- Chunk `q` of the core. -/
def chunk (q : Nat) : Chunk :=
  let offset := q % core.chunksPerPage * core.chunkBytes
  { page := core.firstPage + q / core.chunksPerPage
    offset := offset
    bytes := if core.pageBytes - offset < core.chunkBytes then core.pageBytes - offset
      else core.chunkBytes }

/-- The chunks of a turn of the reader. -/
def readerCount (q : Nat) : Nat :=
  if core.total - q < core.group then core.total - q else core.group

/-- The chunks of a turn of the writer. -/
def writerCount (q0 : Nat) : Nat :=
  if core.total - q0 < core.batch then core.total - q0 else core.batch

end Core

/-- The reader waits for entries, or has reads on their way into those that it reserved. -/
inductive ReaderPhase where
  | reserving
  | reading (pending : List Nat)
  deriving DecidableEq

inductive WriterPhase where
  | waiting
  | updating
  deriving DecidableEq

structure State (α : Type) where
  ring : RingBuffer α
  q : Nat
  reader : ReaderPhase
  q0 : Nat
  writer : WriterPhase
  output : Chunk → Option α

inductive Action (α : Type) where
  /-- `rows.reserve_back` returns, and the reads are issued. -/
  | reserve
  /-- A read lands in its entry. -/
  | land (i : Nat)
  /-- All reads have landed, and `rows.push_back` hands them over. -/
  | push
  /-- `rows.wait_front` returns. -/
  | wait
  /-- An update changes an entry of the batch. -/
  | update (i : Nat) (value : α)
  /-- The batch goes out, and `rows.pop_front` frees it. -/
  | pop

variable {α : Type} (core : Core) (table : Chunk → α)

def State.start (entry : Nat → α) : State α :=
  ⟨.empty core.batch entry, 0, .reserving, 0, .waiting, fun _ => none⟩

/-- The output after some entries of a batch were written to it. -/
def writeOut (state : State α) : Nat → Chunk → Option α
  | 0 => state.output
  | i + 1 => Function.update (writeOut state i) (core.chunk (state.q0 + i))
      (some (state.ring.entry (state.ring.readPtr + i)))

def step (state : State α) : Action α → Option (State α)
  | .reserve =>
    let count := core.readerCount state.q
    if state.reader = .reserving ∧ state.q < core.total ∧ count ≤ state.ring.free then
      some { state with reader := .reading (List.range count) }
    else none
  | .land i =>
    match state.reader with
    | .reserving => none
    | .reading pending =>
      if i ∈ pending then
        some { state with
          ring := state.ring.write i (table (core.chunk (state.q + i)))
          reader := .reading (pending.erase i) }
      else none
  | .push =>
    if state.reader = .reading [] then
      let count := core.readerCount state.q
      some { state with ring := state.ring.pushBack count, q := state.q + count, reader := .reserving }
    else none
  | .wait =>
    if state.writer = .waiting ∧ state.q0 < core.total ∧
        core.writerCount state.q0 ≤ state.ring.available then
      some { state with writer := .updating }
    else none
  | .update i value =>
    if state.writer = .updating ∧ i < core.writerCount state.q0 then
      some { state with ring := state.ring.change i value }
    else none
  | .pop =>
    if state.writer = .updating then
      let count := core.writerCount state.q0
      some { state with
        ring := state.ring.popFront count
        output := writeOut core state count
        q0 := state.q0 + core.batch
        writer := .waiting }
    else none

/-- Both kernels have returned. -/
def State.Finished (state : State α) : Prop :=
  state.reader = .reserving ∧ core.total ≤ state.q ∧
    state.writer = .waiting ∧ core.total ≤ state.q0

/-- Actions other than updates, of which a batch has as many as land in it. -/
def Action.Advances : Action α → Prop
  | .update _ _ => False
  | _ => True

end Libtt.IndexedRows

/-! ## The ring of a scatter never blocks and never misreads -/
namespace Libtt.IndexedRows

open Libtt.Foundation

namespace Table

variable (table : Table)

theorem group_pos : 0 < table.group := by
  unfold group geometryGroup budgetEntries
  omega

theorem group_dvd_batch : table.group ∣ table.batch := Nat.dvd_sub_mod _

theorem batch_pos : 0 < table.batch := by
  have most : table.group ≤ table.budgetEntries := Nat.min_le_right _ _
  have rest := Nat.mod_lt table.budgetEntries table.group_pos
  unfold batch
  omega

end Table

/-- A multiple below another is a whole step below it. -/
theorem add_le_of_dvd {size lower upper : Nat} (isLower : size ∣ lower) (isUpper : size ∣ upper)
    (less : lower < upper) : lower + size ≤ upper := by
  have step := Nat.le_of_dvd (Nat.sub_pos_of_lt less) (Nat.dvd_sub isUpper isLower)
  omega

variable {α : Type} {core : Core} {table : Chunk → α}

namespace Core

theorem readerCount_pos {q : Nat} (more : q < core.total) : 0 < core.readerCount q := by
  have group := core.group_pos
  unfold readerCount
  split <;> omega

theorem readerCount_le (q : Nat) : core.readerCount q ≤ core.group ∧
    core.readerCount q ≤ core.total - q := by
  unfold readerCount
  split <;> omega

theorem writerCount_le (q0 : Nat) : core.writerCount q0 ≤ core.batch ∧
    core.writerCount q0 ≤ core.total - q0 := by
  unfold writerCount
  split <;> omega

/-- A turn of the reader ends where the next one starts, or with the last chunk. -/
theorem next_turn {q : Nat} (turn : core.group ∣ q) (more : q < core.total) :
    q + core.readerCount q ≤ core.total ∧
      (q + core.readerCount q < core.total → core.group ∣ q + core.readerCount q) := by
  unfold readerCount
  split
  · exact ⟨by omega, fun less => absurd less (by omega)⟩
  · exact ⟨by omega, fun _ => Nat.dvd_add turn (Nat.dvd_refl _)⟩

/-- A turn of the reader does not cross the end of the ring. -/
theorem turn_straight {q : Nat} (turn : core.group ∣ q) :
    q % core.batch + core.readerCount q ≤ core.batch := by
  have within := Nat.mod_lt q core.batch_pos
  have aligned := (Nat.dvd_mod_iff core.group_dvd_batch).mpr turn
  have step := add_le_of_dvd aligned core.group_dvd_batch within
  exact (Nat.add_le_add_left (core.readerCount_le q).1 _).trans step

end Core

variable (core table)

/-- What holds between any two actions. -/
structure Valid (state : State α) : Prop where
  ring : state.ring.WellFormed
  size : state.ring.size = core.batch
  received : state.ring.received = state.q
  acked : state.ring.acked = min state.q0 core.total
  most : state.q ≤ core.total
  turn : state.q < core.total → core.group ∣ state.q
  batches : core.batch ∣ state.q0
  /-- Reads land in entries that are reserved. -/
  reading : ∀ pending, state.reader = .reading pending → state.q < core.total ∧
    core.readerCount state.q ≤ state.ring.free ∧
    ∀ i < core.readerCount state.q, i ∉ pending →
      state.ring.entry (state.ring.writePtr + i) = table (core.chunk (state.q + i))
  pending : ∀ pending, state.reader = .reading pending →
    ∀ i ∈ pending, i < core.readerCount state.q
  /-- The writer's batch is in the ring. -/
  updating : state.writer = .updating → state.q0 < core.total ∧
    core.writerCount state.q0 ≤ state.ring.available
  /-- What was handed over is the table's. -/
  filled : state.writer = .waiting → ∀ c, state.ring.acked ≤ c → c < state.q →
    state.ring.entry (c % core.batch) = table (core.chunk c)

variable {core table} {state next : State α}

namespace Valid

theorem start (entry : Nat → α) : Valid core table (State.start core entry) where
  ring := RingBuffer.empty_wellFormed _ _
  size := rfl
  received := rfl
  acked := (Nat.zero_min _).symm
  most := Nat.zero_le _
  turn _ := Nat.dvd_zero _
  batches := Nat.dvd_zero _
  reading _ reads := by cases reads
  pending _ reads := by cases reads
  updating updates := by cases updates
  filled _ _ _ less := absurd less (Nat.not_lt_zero _)

section

variable (valid : Valid core table state)
include valid

/-- While the writer has a batch, the ring is full or the reader has returned. -/
theorem not_reading (updates : state.writer = .updating) (pending : List Nat) :
    state.reader ≠ .reading pending := by
  intro reads
  obtain ⟨more, room, _⟩ := valid.reading pending reads
  obtain ⟨_, ready⟩ := valid.updating updates
  have some := core.readerCount_pos more
  have size := valid.size
  have received := valid.received
  have acked := valid.acked
  unfold RingBuffer.free at room
  unfold RingBuffer.available at ready
  unfold Core.writerCount at ready
  split at ready <;> omega

/-- An entry of the reader's turn, by its chunk. -/
theorem writePtr_add (turn : core.group ∣ state.q) {i : Nat} (less : i < core.readerCount state.q) :
    state.ring.writePtr + i = (state.q + i) % core.batch := by
  have straight := core.turn_straight turn
  have split := Nat.div_add_mod state.q core.batch
  have whole : state.q + i =
      state.q % core.batch + i + core.batch * (state.q / core.batch) := by omega
  rw [valid.ring.writePtr_eq, valid.received, valid.size, whole, Nat.add_mul_mod_self_left]
  exact (Nat.mod_eq_of_lt (by omega)).symm

/-- The writer's turns start at the front of the ring. -/
theorem readPtr_eq (more : state.q0 < core.total) :
    state.ring.readPtr = 0 := by
  rw [valid.ring.readPtr_eq, valid.acked, valid.size, Nat.min_eq_left more.le]
  exact Nat.mod_eq_zero_of_dvd valid.batches

/-- An entry is reserved or handed over, not both. -/
theorem writePtr_ne (more : state.q < core.total)
    (room : core.readerCount state.q ≤ state.ring.free) {i c : Nat}
    (less : i < core.readerCount state.q) (low : state.ring.acked ≤ c) (high : c < state.q) :
    c % core.batch ≠ state.ring.writePtr + i := by
  have size := valid.size
  have received := valid.received
  rw [valid.writePtr_add (valid.turn more) less]
  intro same
  unfold RingBuffer.free at room
  have apart := Nat.le_of_dvd (by omega : 0 < state.q + i - c)
    (Nat.dvd_of_mod_eq_zero (Nat.sub_mod_eq_zero_of_mod_eq same.symm))
  omega

theorem reserve (taken : step core table state .reserve = some next) : Valid core table next := by
  simp only [step, Option.ite_none_right_eq_some, Option.some.injEq] at taken
  obtain ⟨⟨_, more, room⟩, rfl⟩ := taken
  refine { valid with reading := fun pending reads => ?_, pending := fun pending reads => ?_ }
  · cases reads
    exact ⟨more, room, fun i less absent => absurd (List.mem_range.mpr less) absent⟩
  · cases reads
    exact fun i member => List.mem_range.mp member

theorem land {i : Nat} (taken : step core table state (.land i) = some next) :
    Valid core table next := by
  cases phase : state.reader with
  | reserving => simp [step, phase] at taken
  | reading pending =>
    simp only [step, phase, Option.ite_none_right_eq_some, Option.some.injEq] at taken
    obtain ⟨member, rfl⟩ := taken
    obtain ⟨more, room, landed⟩ := valid.reading pending phase
    have less := valid.pending pending phase i member
    refine { valid with
      ring := valid.ring.write _ _, reading := fun _ reads => ?_, pending := fun _ reads => ?_,
      filled := fun waits c low high => ?_ }
    · cases reads
      refine ⟨more, room, fun j isLess absent => ?_⟩
      show Function.update state.ring.entry _ _ (state.ring.writePtr + j) = _
      by_cases same : j = i
      · rw [same, Function.update_self]
      · rw [Function.update_of_ne (by omega)]
        exact landed j isLess fun left => absent ((List.mem_erase_of_ne same).mpr left)
    · cases reads
      exact fun j left => valid.pending pending phase j (List.mem_of_mem_erase left)
    · show Function.update state.ring.entry _ _ (c % core.batch) = _
      rw [Function.update_of_ne (valid.writePtr_ne more room less low high)]
      exact valid.filled waits c low high

theorem push (taken : step core table state .push = some next) : Valid core table next := by
  simp only [step, Option.ite_none_right_eq_some, Option.some.injEq] at taken
  obtain ⟨phase, rfl⟩ := taken
  obtain ⟨more, room, landed⟩ := valid.reading [] phase
  have turn := valid.turn more
  have ends := core.next_turn turn more
  have straight : state.ring.writePtr + core.readerCount state.q ≤ state.ring.size := by
    rw [valid.ring.writePtr_eq, valid.received, valid.size]
    exact core.turn_straight turn
  refine { valid with
    ring := valid.ring.pushBack room straight, received := congrArg (· + _) valid.received,
    most := ends.1, turn := ends.2, reading := fun _ reads => (nomatch reads),
    pending := fun _ reads => (nomatch reads), updating := fun updates => ?_,
    filled := fun waits c low high => ?_ }
  · exact absurd phase (valid.not_reading updates [])
  · by_cases old : c < state.q
    · exact valid.filled waits c low old
    · obtain ⟨i, rfl⟩ := Nat.exists_eq_add_of_le (Nat.not_lt.mp old)
      have less : i < core.readerCount state.q := Nat.lt_of_add_lt_add_left high
      rw [← valid.writePtr_add turn less]
      exact landed i less (List.not_mem_nil)

theorem wait (taken : step core table state .wait = some next) : Valid core table next := by
  simp only [step, Option.ite_none_right_eq_some, Option.some.injEq] at taken
  obtain ⟨⟨_, more, ready⟩, rfl⟩ := taken
  exact { valid with updating := fun _ => ⟨more, ready⟩, filled := fun waits => nomatch waits }

theorem update {i : Nat} {value : α} (taken : step core table state (.update i value) = some next) :
    Valid core table next := by
  simp only [step, Option.ite_none_right_eq_some, Option.some.injEq] at taken
  obtain ⟨⟨updates, _⟩, rfl⟩ := taken
  refine { valid with
    ring := valid.ring.change _ _, reading := fun pending reads => ?_,
    filled := fun waits => ?_ }
  · exact absurd reads (valid.not_reading updates pending)
  · exact absurd (updates.symm.trans waits) (by decide)

theorem pop (taken : step core table state .pop = some next) : Valid core table next := by
  simp only [step, Option.ite_none_right_eq_some, Option.some.injEq] at taken
  obtain ⟨updates, rfl⟩ := taken
  obtain ⟨more, ready⟩ := valid.updating updates
  have acked := valid.acked
  have fits := valid.ring.fits
  have count : core.writerCount state.q0 = min core.batch (core.total - state.q0) := by
    unfold Core.writerCount
    split <;> omega
  have straight : state.ring.readPtr + core.writerCount state.q0 ≤ state.ring.size := by
    rw [valid.readPtr_eq more, valid.size]
    omega
  have ends : state.ring.acked + core.writerCount state.q0 =
      min (state.q0 + core.batch) core.total := by omega
  refine { valid with
    ring := valid.ring.popFront ready straight, acked := ends,
    batches := Nat.dvd_add valid.batches (Nat.dvd_refl _),
    reading := fun pending reads => absurd reads (valid.not_reading updates pending),
    updating := fun updates => (nomatch updates), filled := fun _ c low high => ?_ }
  have size := valid.size
  have received := valid.received
  have most := valid.most
  change state.ring.acked + core.writerCount state.q0 ≤ c at low
  change c < state.q at high
  omega

end

theorem keeps : Keeps (step core table) (Valid core table) := by
  intro state action next valid taken
  cases action with
  | reserve => exact valid.reserve taken
  | land i => exact valid.land taken
  | push => exact valid.push taken
  | wait => exact valid.wait taken
  | update i value => exact valid.update taken
  | pop => exact valid.pop taken

/-- Where a turn of the reader does not fit, the ring holds the writer's batch. -/
theorem batch_of_full (valid : Valid core table state) (more : state.q < core.total)
    (full : state.ring.free < core.readerCount state.q) :
    core.writerCount state.q0 ≤ state.ring.available := by
  have size := valid.size
  have received := valid.received
  have acked := valid.acked
  have count := core.readerCount_le state.q
  have batch := core.writerCount_le state.q0
  have turn := valid.turn more
  have batchTurn := Nat.dvd_trans core.group_dvd_batch valid.batches
  have isFree : state.ring.free = core.batch - (state.q - state.q0) := by
    unfold RingBuffer.free
    omega
  have whole : core.group ∣ state.ring.free :=
    isFree ▸ Nat.dvd_sub core.group_dvd_batch (Nat.dvd_sub turn batchTurn)
  have none : state.ring.free = 0 := by
    by_contra some
    have step := Nat.le_of_dvd (Nat.pos_of_ne_zero some) whole
    omega
  unfold RingBuffer.available
  omega

theorem progress (valid : Valid core table state) (unfinished : ¬state.Finished core) :
    ∃ action : Action α, action.Advances ∧ Enabled (step core table) state action := by
  cases reads : state.reader with
  | reading pending =>
    cases pending with
    | nil => exact ⟨.push, trivial, by simp [Enabled, step, reads]⟩
    | cons i pending => exact ⟨.land i, trivial, by simp [Enabled, step, reads]⟩
  | reserving =>
    cases writes : state.writer with
    | updating => exact ⟨.pop, trivial, by simp [Enabled, step, writes]⟩
    | waiting =>
      have received := valid.received
      have acked := valid.acked
      have order := valid.ring.order
      by_cases room : state.q < core.total ∧ core.readerCount state.q ≤ state.ring.free
      · exact ⟨.reserve, trivial, by simp [Enabled, step, reads, room]⟩
      · have left : state.q0 < core.total := by
          by_contra done
          exact unfinished ⟨reads, by omega, writes, by omega⟩
        have ready : core.writerCount state.q0 ≤ state.ring.available := by
          by_cases more : state.q < core.total
          · exact valid.batch_of_full more (by omega)
          · have batch := core.writerCount_le state.q0
            unfold RingBuffer.available
            omega
        exact ⟨.wait, trivial, by simp [Enabled, step, writes, left, ready]⟩

/-- When the writer takes a batch, its entries are the chunks of its turn. -/
theorem batch_chunks (valid : Valid core table state)
    (taken : step core table state .wait = some next) {i : Nat}
    (less : i < core.writerCount next.q0) :
    next.ring.entry (next.ring.readPtr + i) = table (core.chunk (next.q0 + i)) := by
  simp only [step, Option.ite_none_right_eq_some, Option.some.injEq] at taken
  obtain ⟨⟨waits, more, ready⟩, rfl⟩ := taken
  have acked := valid.acked
  have received := valid.received
  have count := core.writerCount_le state.q0
  have place : (state.q0 + i) % core.batch = i := by
    obtain ⟨turns, isTurns⟩ := valid.batches
    rw [isTurns, Nat.mul_add_mod, Nat.mod_eq_of_lt (less.trans_le count.1)]
  unfold RingBuffer.available at ready
  have filled := valid.filled waits (state.q0 + i) (by omega) (by
    change i < core.writerCount state.q0 at less
    omega)
  rw [place] at filled
  rw [valid.readPtr_eq more, Nat.zero_add]
  exact filled

end Valid

/-- The ring between the kernels of a scatter, in every state that they can reach. Until both have
handled all chunks one of them can go on; no turn is longer than the ring or crosses its end; and
the entries of a batch that the writer takes are the chunks of its turn. -/
theorem scatter_ring (core : Core) (table : Chunk → α) (entry : Nat → α) {state : State α}
    (reached : Reaches (step core table) (State.start core entry) state) :
    (¬state.Finished core →
      ∃ action : Action α, action.Advances ∧ Enabled (step core table) state action) ∧
    (state.Finished core → state.q = core.total ∧ state.ring.acked = core.total) ∧
    (state.reader = .reserving → state.q < core.total →
      core.readerCount state.q ≤ state.ring.size ∧
      state.ring.writePtr + core.readerCount state.q ≤ state.ring.size) ∧
    (state.writer = .waiting → state.q0 < core.total →
      core.writerCount state.q0 ≤ state.ring.size ∧
      state.ring.readPtr + core.writerCount state.q0 ≤ state.ring.size) ∧
    ∀ next, step core table state .wait = some next → ∀ i < core.writerCount next.q0,
      next.ring.entry (next.ring.readPtr + i) = table (core.chunk (next.q0 + i)) := by
  have valid := reached.holds Valid.keeps (Valid.start entry)
  refine ⟨valid.progress, fun finished => ?_, fun _ more => ?_, fun _ more => ?_,
    fun next taken i less => valid.batch_chunks taken less⟩
  · have acked := valid.acked
    exact ⟨le_antisymm valid.most finished.2.1, by rw [acked, Nat.min_eq_right finished.2.2.2]⟩
  · have straight := core.turn_straight (valid.turn more)
    rw [valid.ring.writePtr_eq, valid.received, valid.size]
    omega
  · have count := core.writerCount_le state.q0
    rw [valid.readPtr_eq more, valid.size]
    omega

/-- A core with two pages, which are read in the other order. -/
def twoPages : Core := ⟨⟨16, 4, false, 0⟩, 3, 2⟩

theorem scatter_ring_two : ∃ state : State Nat,
    Reaches (step twoPages Chunk.page) (State.start twoPages fun _ => 0) state ∧ state.q = 2 ∧
      ∀ next, step twoPages Chunk.page state .wait = some next →
        1 < twoPages.writerCount next.q0 →
          next.ring.entry (next.ring.readPtr + 1) = (twoPages.chunk (next.q0 + 1)).page := by
  have reached : Reaches (step twoPages Chunk.page) (State.start twoPages fun _ => 0) _ :=
    (((Reaches.here.step .reserve rfl).step (.land 1) rfl).step (.land 0) rfl).step .push rfl
  exact ⟨_, reached, rfl, fun next taken less =>
    (scatter_ring twoPages Chunk.page _ reached).2.2.2.2 next taken 1 less⟩

end Libtt.IndexedRows

import Libtt.Foundation.Updates
import Libtt.MatmulFp32.FinishCorrect
import Libtt.MatmulFp32.Kernels

/-!
# The FP32 product is the sum over `k`

The queues hold the rows of A and the columns of B in the order in which the compute kernel takes
them, so that each output tile is the sum over all tiles of its row and column.
-/
namespace Libtt.MatmulFp32

open Libtt.Sfpu Libtt.Foundation

variable {tile j k i m n batch : Nat}

/-- What the device library documents of these calls. -/
structure Calls.Documented (calls : Calls) : Prop where
  copied : ∀ page index unit, ∀ row < 32, ∀ col < 32,
    (calls.copyTile page index unit).dst.tile index row col = page row col
  copyOthers : ∀ page index unit, ChangesOnly [index] unit.dst (calls.copyTile page index unit).dst
  transposed : ∀ index unit, ∀ row < 32, ∀ col < 32,
    (calls.transposeDest index unit).dst.tile index row col = unit.dst.tile index col row
  transposeOthers : ∀ index unit,
    ChangesOnly [index] unit.dst (calls.transposeDest index unit).dst
  packed : ∀ unit index, ∀ row < 32, ∀ col < 32,
    calls.packTile unit index row col = unit.dst.tile index row col
  padded : ∀ count page, ∀ row < 32, ∀ col < 32,
    calls.padLastKtile count page row col = if col < count then page row col else 0
  paddedTransposed : ∀ count page, ∀ row < 32, ∀ col < 32,
    calls.padLastTransposedKtile count page row col = if row < count then page row col else 0

variable {calls : Calls} (mad : Word → Word → Word → Word) (plan : Plan)

/-- Runs that cover the tiles of a core from some tile on, each within one output row. -/
structure Covers (nt stop tile : Nat) (runs : List (Nat × Nat)) : Prop where
  tiles : runs.flatMap (fun run => List.range' run.1 run.2) = List.range' tile (stop - tile)
  rows : ∀ run ∈ runs, run.1 % nt + run.2 ≤ nt

theorem runCols_spec {stop nt runWidth : Nat} (less : tile < stop) (columns : 0 < nt)
    (width : 0 < runWidth) :
    0 < matmulFp32RunCols tile stop nt runWidth ∧
      matmulFp32RunCols tile stop nt runWidth ≤ stop - tile ∧
      tile % nt + matmulFp32RunCols tile stop nt runWidth ≤ nt := by
  have inside := Nat.mod_lt tile columns
  unfold matmulFp32RunCols
  dsimp only
  split <;> split <;> omega

/-- The loop over the runs ends within as many turns as there are tiles. -/
theorem runs_spec {stop : Nat} (width : 0 < plan.runWidth) :
    ∀ turns tile, stop - tile ≤ turns → (tile < stop → 0 < plan.nt) →
      ∃ runs, plan.runs stop turns tile = some runs ∧ Covers plan.nt stop tile runs := by
  intro turns
  induction turns with
  | zero =>
    intro tile few _
    have done : ¬tile < stop := by omega
    refine ⟨[], by rw [Plan.runs, if_neg done], ?_, fun run none => absurd none List.not_mem_nil⟩
    rw [show stop - tile = 0 by omega]
    rfl
  | succ turns ih =>
    intro tile few columns
    rw [Plan.runs]
    by_cases less : tile < stop
    · have cols := runCols_spec less (columns less) width
      obtain ⟨runs, ran, covers⟩ :=
        ih (tile + matmulFp32RunCols tile stop plan.nt plan.runWidth) (by omega)
          fun _ => columns less
      refine ⟨(tile, matmulFp32RunCols tile stop plan.nt plan.runWidth) :: runs, ?_, ?_, ?_⟩
      · rw [if_pos less]
        exact congrArg (Option.map _) ran
      · rw [List.flatMap_cons, covers.tiles, List.range'_append_1]
        congr 1
        omega
      · intro run member
        rcases List.mem_cons.mp member with rfl | later
        · exact cols.2.2
        · exact covers.rows run later
    · refine ⟨[], by rw [if_neg less], ?_, fun run none => absurd none List.not_mem_nil⟩
      rw [show stop - tile = 0 by omega]
      rfl

/-- The tiles of a run are in one output row. -/
theorem run_row {nt cols : Nat} (rows : tile % nt + cols ≤ nt) (less : j < cols) :
    (tile + j) / nt = tile / nt ∧ (tile + j) % nt = tile % nt + j := by
  have positive : 0 < nt := by omega
  have inside : tile % nt + j < nt := by omega
  have whole : tile + j = nt * (tile / nt) + (tile % nt + j) := by
    have split := Nat.div_add_mod tile nt
    omega
  constructor
  · rw [whole, Nat.mul_add_div positive, Nat.div_eq_of_lt inside, Nat.add_zero]
  · rw [whole, Nat.mul_add_mod, Nat.mod_eq_of_lt inside]

theorem batch_eq (tile : Nat) : plan.batch tile = tile / plan.nt / plan.mt := by
  rw [Plan.batch, Nat.mul_comm, Nat.div_div_eq_div_mul]

theorem aRow_eq (tile : Nat) :
    plan.aRow tile = (tile / plan.nt / plan.mt * plan.mt + tile / plan.nt % plan.mt) * plan.kt := by
  rw [Plan.aRow, batch_eq, Nat.mul_comm plan.mt plan.nt, Nat.mod_mul_right_div_self]

/-- The row of A of a run is that of each of its tiles. -/
theorem readA_run (a : Memory) {cols : Nat} (rows : tile % plan.nt + cols ≤ plan.nt)
    (less : j < cols) (k : Nat) : readA calls plan a tile k = readA calls plan a (tile + j) k := by
  have row := (run_row rows less).1
  simp only [readA, aRow_eq, row]

/-- The columns of B of a run are those of its tiles. -/
theorem readB_run (b : Memory) {cols : Nat} (rows : tile % plan.nt + cols ≤ plan.nt)
    (less : j < cols) (k : Nat) :
    readB calls plan b tile j k = readB calls plan b (tile + j) 0 k := by
  have row := run_row rows less
  have base : plan.bBase tile + k * plan.nt + j = plan.bBase (tile + j) + k * plan.nt + 0 := by
    simp only [Plan.bBase, batch_eq, row.1, row.2]
    omega
  simp only [readB, base]

/-- The tiles of a row of A or of a column of B side by side. -/
def wideA (row : Nat → Tile) (i k : Nat) : Word := row (k / 32) i (k % 32)

def wideB (column : Nat → Tile) (k j : Nat) : Word := column (k / 32) (k % 32) j

/-- The sum over one more tile of `k`. -/
theorem summed_tile (row column : Nat → Tile) (count i j : Nat) :
    summed mad (wideA row) (wideB column) (32 * (count + 1)) (fun _ _ => 0) i j =
      summed mad (row count) (column count) 32
        (summed mad (wideA row) (wideB column) (32 * count) fun _ _ => 0) i j := by
  rw [summed, summed, summed, Nat.mul_succ, List.range_add, List.foldl_append, List.foldl_map]
  apply List.foldl_ext
  intro sum k member
  have below := List.mem_range.mp member
  have positive : 0 < 32 := by decide
  rw [wideA, wideB, Nat.mul_add_div positive, Nat.div_eq_of_lt below, Nat.mul_add_mod,
    Nat.mod_eq_of_lt below, Nat.add_zero]

/-- The output tile for a row of A and a column of B. -/
def outputTile (row column : Nat → Tile) : Tile :=
  summed mad (wideA row) (wideB column) (32 * plan.kt) fun _ _ => 0

/-- A tile of the product as far as the tile goes. -/
def Agrees (tile other : Tile) : Prop := ∀ row < 32, ∀ col < 32, tile row col = other row col

/-- The accumulators before some tile of `k`. -/
def Accumulated (row column : Nat → Tile) (k : Nat) (unit : State) : Prop :=
  k ≠ 0 → Skewed unit.dst dstAcc
    (summed mad (wideA row) (wideB column) (32 * k) fun _ _ => 0)

section

variable {dst : Dst} {index : Nat} {matrix : Nat → Nat → Word} (skewed : Skewed dst index matrix)
include skewed

/-- Skewed matrices matter only as far as the tile goes. -/
theorem Skewed.congr {other : Nat → Nat → Word} (agrees : Agrees matrix other) :
    Skewed dst index other := by
  intro addr even inside i j
  rw [skewed addr even inside i j]
  exact agrees _ (groupPlace_lt i.isLt _) _ (groupPlace_lt (by omega) j)

theorem Skewed.changes {after : Dst} {tiles : List Nat} (changes : ChangesOnly tiles dst after)
    (outside : index ∉ tiles) :
    Skewed after index matrix := by
  intro addr even inside i j
  rw [changes addr even (inside ▸ outside)]
  exact skewed addr even inside i j

end

theorem summed_congr {a b a' b' start : Nat → Nat → Word} {count row col : Nat}
    (same : ∀ k < count, a row k = a' row k ∧ b k col = b' k col) :
    summed mad a b count start row col = summed mad a' b' count start row col := by
  apply List.foldl_ext
  intro sum k member
  have both := same k (List.mem_range.mp member)
  rw [both.1, both.2]

/-- The operands of a product once they are in Dst. -/
theorem operands_spec (documented : calls.Documented) (a b : Tile) (unit : State) :
    let after := calls.transposeDest dstA (calls.copyTile b dstB (calls.copyTile a dstA unit))
    ChangesOnly [dstA, dstB] unit.dst after.dst ∧
      Agrees (fun row k => after.dst.tile dstA k row) a ∧ Agrees (after.dst.tile dstB) b := by
  intro after
  have copyA := documented.copyOthers a dstA unit
  have copyB := documented.copyOthers b dstB (calls.copyTile a dstA unit)
  have turn := documented.transposeOthers dstA (calls.copyTile b dstB (calls.copyTile a dstA unit))
  refine ⟨fun addr even outside => ?_, fun row hrow k hk => ?_, fun k hk col hcol => ?_⟩
  · simp only [List.mem_cons, List.not_mem_nil, or_false, not_or] at outside
    rw [turn addr even (by simpa using outside.1), copyB addr even (by simpa using outside.2),
      copyA addr even (by simpa using outside.1)]
  · show (calls.transposeDest _ _).dst.tile dstA k row = _
    rw [documented.transposed _ _ k hk row hrow, copyB.tile hrow hk (by decide),
      documented.copied a dstA unit row hrow k hk]
  · show (calls.transposeDest _ _).dst.tile dstB k col = _
    rw [turn.tile hk hcol (by decide), documented.copied b dstB _ k hk col hcol]

/-- One tile of `k` is added to the accumulators. -/
theorem multiplyTiles_spec (documented : calls.Documented) {row column : Nat → Tile} {unit : State}
    (so : Accumulated mad row column k unit) {in0 in1 : List Tile}
    (a : in0[if plan.aResident then k else 0]? = some (row k)) :
    ∃ after, multiplyTiles calls mad plan k ⟨unit, in0, column k :: in1⟩ =
        some ⟨after, if plan.aResident then in0 else in0.tail, in1⟩ ∧
      Accumulated mad row column (k + 1) after := by
  have operands := operands_spec documented (row k) (column k) unit
  set middle := calls.transposeDest dstA (calls.copyTile (column k) dstB
    (calls.copyTile (row k) dstA unit))
  let start := summed mad (wideA row) (wideB column) (32 * k) fun _ _ => 0
  have holds : if (decide (k ≠ 0)) = true then Skewed middle.dst dstAcc start
      else start = fun _ _ => 0 := by
    by_cases first : k = 0
    · rw [if_neg (by simp [first])]
      simp only [start, first]
      rfl
    · rw [if_pos (by simp [first])]
      exact (so first).changes operands.1 (by decide)
  have done := calculateMatmulFp32_spec mad (by decide : dstA ≠ dstAcc) (by decide : dstB ≠ dstAcc)
    holds
  refine ⟨_, ?_, fun _ => done.skewed.congr fun i hi j hj => ?_⟩
  · rw [multiplyTiles, a]
    rfl
  · rw [summed_tile]
    exact summed_congr mad fun k hk => ⟨operands.2.1 i hi k hk, operands.2.2 k hk j hj⟩

/-- All tiles of `k` from some one on. -/
theorem multiplyAll_spec (documented : calls.Documented) (row column : Nat → Tile)
    (laterA laterB : List Tile) :
    ∀ left k unit, k + left = plan.kt → Accumulated mad row column k unit →
      ∃ after, multiplyAll calls mad plan left k
          ⟨unit, (if plan.aResident then (List.range plan.kt).map row
            else (List.range' k left).map row) ++ laterA,
            (List.range' k left).map column ++ laterB⟩ =
          some ⟨after, (if plan.aResident then (List.range plan.kt).map row else []) ++ laterA,
            laterB⟩ ∧
        Accumulated mad row column plan.kt after := by
  intro left
  induction left with
  | zero =>
    intro k unit whole so
    obtain rfl : k = plan.kt := whole
    exact ⟨unit, rfl, so⟩
  | succ left ih =>
    intro k unit whole so
    rw [List.range'_succ, List.map_cons, List.map_cons, List.cons_append]
    have front : ((if plan.aResident then (List.range plan.kt).map row
        else row k :: (List.range' (k + 1) left).map row) ++ laterA)[
          if plan.aResident then k else 0]? = some (row k) := by
      cases plan.aResident with
      | true =>
        have below : k < plan.kt := by omega
        simp [List.getElem?_append, below]
      | false => rfl
    obtain ⟨middle, ran, more⟩ := multiplyTiles_spec mad plan documented so front
    obtain ⟨after, rest, done⟩ := ih (k + 1) middle (by omega) more
    refine ⟨after, ?_, done⟩
    rw [multiplyAll, ran]
    refine Eq.trans ?_ rest
    cases plan.aResident <;> rfl

/-- The row of A of a run, as its reader pushes it for so many output tiles. -/
def pushedA (row : Nat → Tile) (left : Nat) : List Tile :=
  if plan.aResident then (List.range plan.kt).map row
  else (List.range left).flatMap fun _ => (List.range plan.kt).map row

/-- The row is there once for all output tiles, or in front of the rows for the later ones. -/
theorem pushedA_succ (row : Nat → Tile) (left : Nat) (laterA : List Tile) :
    pushedA plan row (left + 1) ++ laterA =
      (if plan.aResident then (List.range plan.kt).map row
        else (List.range' 0 plan.kt).map row) ++
        (if plan.aResident then laterA else pushedA plan row left ++ laterA) := by
  unfold pushedA
  cases plan.aResident with
  | true => rfl
  | false =>
    rw [List.range_succ_eq_map, List.flatMap_cons, List.flatMap_map, ← List.range_eq_range']
    exact List.append_assoc _ _ _

theorem pushedA_rest (row : Nat → Tile) (left : Nat) (laterA : List Tile) :
    (if plan.aResident then (List.range plan.kt).map row else []) ++
        (if plan.aResident then laterA else pushedA plan row left ++ laterA) =
      pushedA plan row left ++ laterA := by
  unfold pushedA
  cases plan.aResident <;> rfl

/-- The output tiles of a run from some column on. -/
theorem computeRun_spec (documented : calls.Documented) (positive : 0 < plan.kt)
    (row : Nat → Tile) (column : Nat → Nat → Tile) (laterA laterB : List Tile) :
    ∀ left j unit, ∃ tiles after,
      computeRun calls mad plan left ⟨unit, pushedA plan row left ++ laterA,
          ((List.range' j left).flatMap fun j => (List.range plan.kt).map (column j)) ++ laterB⟩ =
        some (tiles, ⟨after, pushedA plan row 0 ++ laterA, laterB⟩) ∧
      List.Forall₂ (fun j tile => Agrees tile (outputTile mad plan row (column j)))
        (List.range' j left) tiles := by
  intro left
  induction left with
  | zero => exact fun j unit => ⟨[], unit, rfl, .nil⟩
  | succ left ih =>
    intro j unit
    rw [List.range'_succ, List.flatMap_cons, List.append_assoc, pushedA_succ,
      List.range_eq_range']
    obtain ⟨summedUnit, ran, so⟩ := multiplyAll_spec mad plan documented row (column j)
      (if plan.aResident then laterA else pushedA plan row left ++ laterA)
      (((List.range' (j + 1) left).flatMap fun j => (List.range plan.kt).map (column j)) ++ laterB)
      plan.kt 0 (calls.tileRegsAcquire unit) (Nat.zero_add _) fun nonzero => absurd rfl nonzero
    obtain ⟨tiles, after, rest, agree⟩ := ih (j + 1) (matmulFp32Finish dstAcc dstA dstB summedUnit)
    rw [pushedA_rest] at ran
    rw [List.range_eq_range'] at ran rest
    have first : Agrees (calls.packTile (matmulFp32Finish dstAcc dstA dstB summedUnit) dstA)
        (outputTile mad plan row (column j)) := by
      intro i hi col hcol
      rw [documented.packed _ _ i hi col hcol]
      exact matmulFp32Finish_spec (by decide) (by decide) (by decide) (so positive.ne') hi hcol
    refine ⟨_, after, ?_, .cons first agree⟩
    show (multiplyAll calls mad plan plan.kt 0 _).bind _ = _
    rw [ran]
    show (computeRun calls mad plan left _).bind _ = _
    rw [rest]
    rfl

/-- The output tile of a page, as far as its core reads it. -/
def pageTile (calls : Calls) (a b : Memory) (page : Nat) : Tile :=
  outputTile mad plan (readA calls plan a page) (readB calls plan b page 0)

/-- The tiles of a run are those of its pages. -/
theorem run_pages (a b : Memory) {run : Nat × Nat} (row : run.1 % plan.nt + run.2 ≤ plan.nt)
    {tiles : List Tile}
    (agree : List.Forall₂ (fun j tile => Agrees tile
      (outputTile mad plan (readA calls plan a run.1) (readB calls plan b run.1 j)))
      (List.range' 0 run.2) tiles) :
    List.Forall₂ (fun page tile => Agrees tile (pageTile mad plan calls a b page))
      (List.range' run.1 run.2) tiles := by
  rw [List.range'_eq_map_range, List.forall₂_map_left_iff, List.range_eq_range']
  have inside : ∀ j ∈ List.range' 0 run.2, j < run.2 := by
    intro j member
    have := List.mem_range'_1.mp member
    omega
  refine ((List.forall₂_and_left _ _).mpr ⟨inside, agree⟩).imp fun j tile both => ?_
  have sameA : readA calls plan a (run.1 + j) = readA calls plan a run.1 := by
    funext k
    exact (readA_run plan a row both.1 k).symm
  have sameB : readB calls plan b (run.1 + j) 0 = readB calls plan b run.1 j := by
    funext k
    exact (readB_run plan b row both.1 k).symm
  show Agrees tile (outputTile mad plan _ _)
  rw [sameA, sameB]
  exact both.2

/-- The output tiles of all runs of a core. -/
theorem computeRuns_spec (documented : calls.Documented) (positive : 0 < plan.kt) (a b : Memory) :
    ∀ runs unit, (∀ run ∈ runs, run.1 % plan.nt + run.2 ≤ plan.nt) →
      ∃ tiles, computeRuns calls mad plan runs ⟨unit, runs.flatMap (readRunA calls plan a),
          runs.flatMap (readRunB calls plan b)⟩ = some tiles ∧
        List.Forall₂ (fun page tile => Agrees tile (pageTile mad plan calls a b page))
          (runs.flatMap fun run => List.range' run.1 run.2) tiles := by
  intro runs
  induction runs with
  | nil => exact fun unit _ => ⟨[], rfl, .nil⟩
  | cons run runs ih =>
    intro unit rows
    have row := rows run List.mem_cons_self
    obtain ⟨tiles, middle, ran, agree⟩ := computeRun_spec mad plan documented positive
      (readA calls plan a run.1) (readB calls plan b run.1) (runs.flatMap (readRunA calls plan a))
      (runs.flatMap (readRunB calls plan b)) run.2 0 unit
    obtain ⟨more, rest, agrees⟩ := ih middle fun later member =>
      rows later (List.mem_cons_of_mem run member)
    refine ⟨tiles ++ more, ?_, ?_⟩
    · have whole : ¬(plan.aResident ∧ (pushedA plan (readA calls plan a run.1) run.2 ++
          runs.flatMap (readRunA calls plan a)).length < plan.kt) := by
        rintro ⟨resident, short⟩
        simp [pushedA, resident] at short
      have left : (if plan.aResident then (pushedA plan (readA calls plan a run.1) 0 ++
          runs.flatMap (readRunA calls plan a)).drop plan.kt
          else pushedA plan (readA calls plan a run.1) 0 ++ runs.flatMap (readRunA calls plan a)) =
          runs.flatMap (readRunA calls plan a) := by
        cases resident : plan.aResident with
        | true => simp [pushedA, resident]
        | false => simp [pushedA, resident]
      rw [← List.range_eq_range'] at ran
      refine (if_neg whole).trans ?_
      refine (congrArg (Option.bind · _) ran).trans ?_
      show (computeRuns calls mad plan runs ⟨middle, _, _⟩).bind _ = _
      rw [left, rest]
      rfl
    · rw [List.flatMap_cons]
      exact List.rel_append (run_pages mad plan a b row agree) agrees

/-- Writes of pages with the tiles that belong there. -/
structure Writes (calls : Calls) (a b : Memory) (pages : List Nat) (writes : List (Nat × Tile)) :
    Prop where
  pages : writes.map Prod.fst = pages
  tiles : ∀ write ∈ writes, Agrees write.2 (pageTile mad plan calls a b write.1)

theorem writeTiles_spec (a b : Memory) {pages : List Nat} {tiles : List Tile}
    (agree : List.Forall₂ (fun page tile => Agrees tile (pageTile mad plan calls a b page))
      pages tiles) :
    ∃ writes, writeTiles pages tiles = some writes ∧ Writes mad plan calls a b pages writes := by
  induction agree with
  | nil => exact ⟨[], rfl, rfl, fun write none => absurd none List.not_mem_nil⟩
  | @cons page tile pages tiles first _ ih =>
    obtain ⟨writes, ran, rest⟩ := ih
    refine ⟨(page, tile) :: writes, by rw [writeTiles, ran]; rfl, ?_, fun write member => ?_⟩
    · rw [List.map_cons, rest.pages]
    · rcases List.mem_cons.mp member with rfl | later
      · exact first
      · exact rest.tiles write later

section

variable (documented : calls.Documented) (positive : 0 < plan.kt) (width : 0 < plan.runWidth)
  (a b : Memory)
include documented positive width a b

theorem core_spec (unit : State) (args : Nat × Nat) (columns : 0 < args.2 → 0 < plan.nt) :
    ∃ writes, core calls mad plan a b unit args = some writes ∧
      Writes mad plan calls a b (coreTiles args) writes := by
  obtain ⟨runs, ran, covers⟩ := runs_spec plan width args.2 args.1 (by omega)
    (fun less => columns (by omega) : args.1 < args.1 + args.2 → 0 < plan.nt)
  obtain ⟨tiles, computed, agree⟩ :=
    computeRuns_spec mad plan documented positive a b runs unit covers.rows
  rw [covers.tiles, Nat.add_sub_cancel_left] at agree
  obtain ⟨writes, wrote, so⟩ := writeTiles_spec mad plan a b agree
  refine ⟨writes, ?_, so⟩
  rw [core, ran]
  show (computeRuns calls mad plan runs _).bind _ = _
  rw [computed]
  exact wrote

theorem cores_spec (units : Nat → State) (args : List (Nat × Nat))
    (columns : ∀ one ∈ args, 0 < one.2 → 0 < plan.nt) :
    ∀ index, ∃ writes, cores calls mad plan a b units index args = some writes ∧
      Writes mad plan calls a b (args.flatMap coreTiles) writes := by
  induction args with
  | nil => exact fun _ => ⟨[], rfl, rfl, fun write none => absurd none List.not_mem_nil⟩
  | cons one args ih =>
    intro index
    obtain ⟨writes, ran, so⟩ := core_spec mad plan documented positive width a b (units index) one
      (columns one List.mem_cons_self)
    obtain ⟨more, rest, others⟩ := ih (fun later member =>
      columns later (List.mem_cons_of_mem one member)) (index + 1)
    refine ⟨writes ++ more, ?_, ?_, fun write member => ?_⟩
    · rw [cores, ran]
      rw [rest]
      rfl
    · rw [List.map_append, so.pages, others.pages, List.flatMap_cons]
    · rcases List.mem_append.mp member with first | later
      · exact so.tiles write first
      · exact others.tiles write later

end

/-- Writes of different pages do not see each other. -/
theorem write_independent : Independent (id : Nat → Nat) (Prod.fst : Nat × Tile → Nat)
    fun write memory => Function.update memory write.1 write.2 where
  frame write memory page other := Function.update_of_ne other write.2 memory
  reads write memory other _ page own := by
    obtain rfl : page = write.1 := own
    rw [Function.update_self, Function.update_self]

/-- A page that is written once has what was written there. -/
theorem Written.at {writes : List (Nat × Tile)} {before after : Memory}
    (written : Written writes before after) (once : (writes.map Prod.fst).Nodup)
    {write : Nat × Tile} (member : write ∈ writes) : after write.1 = write.2 := by
  obtain ⟨order, same, rfl⟩ := written
  have distinct : (order.map Prod.fst).Nodup := (same.map Prod.fst).nodup_iff.mpr once
  rw [write_independent.foldl_at distinct before (same.mem_iff.mpr member) rfl]
  exact Function.update_self ..

/-- Dst with a tile written as a whole. -/
def placeTile (page : Tile) (index : Nat) (dst : Dst) : Dst := fun row column =>
  if row / 64 = index then
    page (16 * (row % 64 / 32) + row % 16) (16 * (row % 32 / 16) + column)
  else dst row column

/-- Calls that do what the device library documents of them and nothing else. -/
def plainCalls : Calls where
  tileRegsAcquire unit := unit
  copyTile page index unit := { unit with dst := placeTile page index unit.dst }
  transposeDest index unit :=
    { unit with dst := placeTile (fun row col => unit.dst.tile index col row) index unit.dst }
  packTile unit index := unit.dst.tile index
  padLastKtile count page row col := if col < count then page row col else 0
  padLastTransposedKtile count page row col := if row < count then page row col else 0

theorem placeTile_tile (page : Tile) (index : Nat) (dst : Dst) {row col : Nat} (hrow : row < 32)
    (hcol : col < 32) : (placeTile page index dst).tile index row col = page row col := by
  have inside : (64 * index + 16 * (2 * (row / 16) + col / 16) + row % 16) / 64 = index := by omega
  have rows : 16 * ((64 * index + 16 * (2 * (row / 16) + col / 16) + row % 16) % 64 / 32) +
      (64 * index + 16 * (2 * (row / 16) + col / 16) + row % 16) % 16 = row := by omega
  have columns : 16 * ((64 * index + 16 * (2 * (row / 16) + col / 16) + row % 16) % 32 / 16) +
      col % 16 = col := by omega
  rw [Dst.tile, placeTile, if_pos inside, rows]
  exact congrArg (page row) columns

theorem placeTile_others (page : Tile) (index : Nat) (dst : Dst) :
    ChangesOnly [index] dst (placeTile page index dst) := by
  intro addr even outside
  funext i j
  have other : (addr / 4 * 4 + i.val) / 64 ≠ index := by
    have := List.ne_of_not_mem_cons outside
    omega
  rw [Dst.load, placeTile, if_neg other]
  rfl

theorem plainCalls_documented : plainCalls.Documented where
  copied page index unit _ hrow _ hcol := placeTile_tile page index unit.dst hrow hcol
  copyOthers page index unit := placeTile_others page index unit.dst
  transposed index unit _ hrow _ hcol :=
    placeTile_tile (fun row col => unit.dst.tile index col row) index unit.dst hrow hcol
  transposeOthers index unit :=
    placeTile_others (fun row col => unit.dst.tile index col row) index unit.dst
  packed _ _ _ _ _ _ := rfl
  padded _ _ _ _ _ _ := rfl
  paddedTransposed _ _ _ _ _ _ := rfl

/-- The row and the column of a place in rows of some length. -/
theorem place_div_mod (row : Nat) {length column : Nat} (inside : column < length) :
    (row * length + column) / length = row ∧ (row * length + column) % length = column := by
  have positive : 0 < length := Nat.zero_lt_of_lt inside
  constructor
  · rw [Nat.mul_comm, Nat.mul_add_div positive, Nat.div_eq_of_lt inside, Nat.add_zero]
  · rw [Nat.mul_comm, Nat.mul_add_mod, Nat.mod_eq_of_lt inside]

/-- The page of an element of the product. -/
def page (m n batch i j : Nat) : Nat := (batch * tileCount m + i / 32) * tileCount n + j / 32

theorem tile_lt {size : Nat} (hi : i < 32 * tileCount size) : i / 32 < tileCount size :=
  Nat.div_lt_of_lt_mul hi

section

variable (bcastB aResident : Bool) (runWidth : Nat) (hi : i < 32 * tileCount m)
  (hj : j < 32 * tileCount n)
include bcastB aResident runWidth hi hj

theorem aRow_page :
    (matmulPlan m k n bcastB aResident runWidth).aRow (page m n batch i j) =
      (batch * tileCount m + i / 32) * tileCount k := by
  have column := place_div_mod (batch * tileCount m + i / 32) (tile_lt hj)
  have row := place_div_mod batch (tile_lt hi)
  rw [aRow_eq]
  show (page m n batch i j / tileCount n / tileCount m * tileCount m +
    page m n batch i j / tileCount n % tileCount m) * tileCount k = _
  rw [page, column.1, row.1, row.2]

theorem bBase_page :
    (matmulPlan m k n bcastB aResident runWidth).bBase (page m n batch i j) =
      (if bcastB then 0 else batch * tileCount k * tileCount n) + j / 32 := by
  have column := place_div_mod (batch * tileCount m + i / 32) (tile_lt hj)
  have row := place_div_mod batch (tile_lt hi)
  rw [Plan.bBase, batch_eq]
  show (if bcastB then 0 else page m n batch i j / tileCount n / tileCount m * tileCount k *
    tileCount n) + page m n batch i j % tileCount n = _
  rw [page, column.1, column.2, row.1]

end

/-- Which places of the last tile of `k` lie past the logical `k`. -/
theorem past_k {kk : Nat} (hk : kk < 32 * tileCount k) :
    if kk / 32 + 1 = tileCount k ∧ 0 < k % 32 then kk % 32 < k % 32 ↔ kk < k else kk < k := by
  unfold tileCount at *
  split <;> omega

/-- An element of A that the sum takes, zero past the logical `k`. -/
theorem readA_element (documented : calls.Documented) (a : Memory) (bcastB aResident : Bool)
    (runWidth : Nat) {kk : Nat} (hi : i < 32 * tileCount m) (hj : j < 32 * tileCount n)
    (hk : kk < 32 * tileCount k) :
    readA calls (matmulPlan m k n bcastB aResident runWidth) a (page m n batch i j) (kk / 32)
      (i % 32) (kk % 32) =
        if kk < k then element a (tileCount m) (tileCount k) batch i kk else 0 := by
  have past := past_k hk
  rw [readA, aRow_page bcastB aResident runWidth hi hj]
  show (if kk / 32 + 1 = tileCount k ∧ 0 < k % 32 then _ else _ : Tile) (i % 32) (kk % 32) = _
  by_cases last : kk / 32 + 1 = tileCount k ∧ 0 < k % 32
  · rw [if_pos last] at past ⊢
    show calls.padLastKtile (k % 32) _ (i % 32) (kk % 32) = _
    rw [documented.padded _ _ _ (Nat.mod_lt i (by decide)) _ (Nat.mod_lt kk (by decide))]
    simp only [past]
    rfl
  · rw [if_neg last] at past ⊢
    rw [if_pos past]
    rfl

/-- An element of B that the sum takes. -/
theorem readB_element (documented : calls.Documented) (b : Memory) (bcastB aResident : Bool)
    (runWidth : Nat) {kk : Nat} (hi : i < 32 * tileCount m) (hj : j < 32 * tileCount n)
    (hk : kk < 32 * tileCount k) :
    readB calls (matmulPlan m k n bcastB aResident runWidth) b (page m n batch i j) 0 (kk / 32)
      (kk % 32) (j % 32) = if kk < k then
        element b (tileCount k) (tileCount n) (if bcastB then 0 else batch) kk j else 0 := by
  have past := past_k hk
  have place : (if bcastB then 0 else batch * tileCount k * tileCount n) + j / 32 +
      kk / 32 * tileCount n + 0 =
      ((if bcastB then 0 else batch) * tileCount k + kk / 32) * tileCount n + j / 32 := by
    cases bcastB with
    | true => simp; omega
    | false =>
      simp only [Bool.false_eq_true, if_false, Nat.add_mul]
      omega
  rw [readB, bBase_page bcastB aResident runWidth hi hj]
  show (if kk / 32 + 1 = tileCount k ∧ 0 < k % 32 then _ else _ : Tile) (kk % 32) (j % 32) = _
  by_cases last : kk / 32 + 1 = tileCount k ∧ 0 < k % 32
  · rw [if_pos last] at past ⊢
    show calls.padLastTransposedKtile (k % 32) _ (kk % 32) (j % 32) = _
    rw [documented.paddedTransposed _ _ _ (Nat.mod_lt kk (by decide)) _ (Nat.mod_lt j (by decide))]
    simp only [past]
    show (if kk < k then b (_ + kk / 32 * tileCount n + 0) _ _ else 0) = _
    rw [place]
    rfl
  · rw [if_neg last] at past ⊢
    rw [if_pos past]
    show b (_ + kk / 32 * tileCount n + 0) _ _ = _
    rw [place]
    rfl

/-- The sum that an element of the product is, over all columns of A and rows of B, with zero for
both factors past the logical `k`. -/
def productElement (m k n : Nat) (bcastB : Bool) (a b : Memory) (batch i j : Nat) : Word :=
  (List.range (32 * tileCount k)).foldl (fun sum kk =>
    mad (if kk < k then element a (tileCount m) (tileCount k) batch i kk else 0)
      (if kk < k then element b (tileCount k) (tileCount n) (if bcastB then 0 else batch) kk j
        else 0) sum) 0

theorem pageTile_element (documented : calls.Documented) (a b : Memory) (bcastB aResident : Bool)
    (runWidth : Nat) (hi : i < 32 * tileCount m) (hj : j < 32 * tileCount n) :
    pageTile (fun vb va sum => mad va vb sum) (matmulPlan m k n bcastB aResident runWidth) calls a b
      (page m n batch i j) (i % 32) (j % 32) = productElement mad m k n bcastB a b batch i j := by
  apply List.foldl_ext
  intro sum kk member
  have hk := List.mem_range.mp member
  rw [wideA, wideB, readA_element documented a bcastB aResident runWidth hi hj hk,
    readB_element documented b bcastB aResident runWidth hi hj hk]

theorem page_lt {batches : Nat} (hb : batch < batches) (hi : i < 32 * tileCount m)
    (hj : j < 32 * tileCount n) :
    page m n batch i j < batches * tileCount m * tileCount n := by
  have row : batch * tileCount m + i / 32 < batches * tileCount m := by
    calc
      batch * tileCount m + i / 32 < batch * tileCount m + tileCount m :=
        Nat.add_lt_add_left (tile_lt hi) _
      _ = (batch + 1) * tileCount m := (Nat.succ_mul batch _).symm
      _ ≤ batches * tileCount m := Nat.mul_le_mul_right _ hb
  calc
    page m n batch i j < (batch * tileCount m + i / 32) * tileCount n + tileCount n :=
      Nat.add_lt_add_left (tile_lt hj) _
    _ = (batch * tileCount m + i / 32 + 1) * tileCount n := (Nat.succ_mul _ _).symm
    _ ≤ batches * tileCount m * tileCount n := Nat.mul_le_mul_right _ row

theorem size_le (size : Nat) : size ≤ 32 * tileCount size := by
  unfold tileCount
  omega

/-- The FP32 product of tensors with any batch, on any cores, whether the rows of A are resident or
streamed: every output tile is written once, and each element of the output is the sum over `k` in
its order. The vector unit multiplies the element of B by that of A. -/
theorem matmul_fp32_sums (documented : calls.Documented) {batches m k n : Nat} (positive : 0 < k)
    (bcastB aResident : Bool) {runWidth : Nat} (width : 0 < runWidth) {args : List (Nat × Nat)}
    (partition : Partition args (batches * tileCount m * tileCount n)) (a b : Memory)
    (units : Nat → State) :
    ∃ writes, cores calls (fun vb va sum => mad va vb sum)
        (matmulPlan m k n bcastB aResident runWidth) a b units 0 args = some writes ∧
      (writes.map Prod.fst).Perm (List.range (batches * tileCount m * tileCount n)) ∧
      ∀ before after, Written writes before after → ∀ batch < batches, ∀ i < m, ∀ j < n,
        element after (tileCount m) (tileCount n) batch i j =
          productElement mad m k n bcastB a b batch i j := by
  have tiles : 0 < tileCount k := by
    unfold tileCount
    omega
  have columns : ∀ one ∈ args, 0 < one.2 → 0 < tileCount n := by
    intro one member some
    have first : one.1 ∈ args.flatMap coreTiles :=
      List.mem_flatMap.mpr ⟨one, member, List.mem_range'_1.mpr (by omega)⟩
    have less := List.mem_range.mp (partition.mem_iff.mp first)
    exact Nat.pos_of_mul_pos_left (Nat.zero_lt_of_lt less)
  obtain ⟨writes, ran, so⟩ := cores_spec (fun vb va sum => mad va vb sum)
    (matmulPlan m k n bcastB aResident runWidth) documented tiles width a b units args columns 0
  have pages : (writes.map Prod.fst).Perm (List.range (batches * tileCount m * tileCount n)) := by
    rw [so.pages]
    exact partition
  refine ⟨writes, ran, pages, ?_⟩
  intro before after written batch hb i hi j hj
  have hi := Nat.lt_of_lt_of_le hi (size_le m)
  have hj := Nat.lt_of_lt_of_le hj (size_le n)
  have once : (writes.map Prod.fst).Nodup := pages.nodup_iff.mpr List.nodup_range
  have there := pages.mem_iff.mpr (List.mem_range.mpr (page_lt hb hi hj))
  obtain ⟨write, member, isPage⟩ := List.mem_map.mp there
  show after (page m n batch i j) (i % 32) (j % 32) = _
  rw [← isPage, written.at once member,
    so.tiles write member _ (Nat.mod_lt i (by decide)) _ (Nat.mod_lt j (by decide)), isPage]
  exact pageTile_element mad documented a b bcastB aResident runWidth hi hj

/-- A tensor of small numbers. -/
def numbers : Memory := fun page row col => BitVec.ofNat 32 (page + row * col)

/-- Two batches of 33 by 50 and 50 by 65, on three cores of which one has no work. -/
theorem matmul_fp32_sums_unaligned :
    ∃ writes, cores plainCalls (fun vb va sum => va * vb + sum) (matmulPlan 33 50 65 true true 8)
        numbers numbers (fun _ => ⟨fun _ _ _ => 0, fun _ _ => 0, 0⟩) 0 [(0, 5), (5, 0), (5, 7)] =
          some writes ∧
      (writes.map Prod.fst).Perm (List.range (2 * tileCount 33 * tileCount 65)) ∧
      ∀ before after, Written writes before after → ∀ batch < 2, ∀ i < 33, ∀ j < 65,
        element after (tileCount 33) (tileCount 65) batch i j =
          productElement (fun va vb sum => va * vb + sum) 33 50 65 true numbers numbers batch i j :=
  have positive : 0 < 50 := by decide
  have width : 0 < 8 := by decide
  have partition : Partition [(0, 5), (5, 0), (5, 7)] (2 * tileCount 33 * tileCount 65) := by
    unfold Partition
    decide
  matmul_fp32_sums (fun va vb sum => va * vb + sum) plainCalls_documented positive true true width
    partition numbers numbers _

end Libtt.MatmulFp32

import Libtt.Foundation.Loop
import Mathlib.Tactic.Ring

/-!
# The split of a 1D matmul

`get_mcast_1d_config` chooses how wide the blocks of K are and whether the output columns are
balanced; `create_program_mcast_in0_artifacts` gives every core its columns. Widths are in tiles.
Counts are natural numbers: those of a tensor in memory are far from wrapping.
-/
namespace Libtt.Matmul1D

open Libtt.Foundation

/-- What `get_mcast_1d_config` reads for the blocks of K and the balance. -/
structure Planner where
  M : Nat
  K : Nat
  N : Nat
  in0TileHeight : Nat
  in0TileWidth : Nat
  in1TileWidth : Nat
  /-- Bytes of a tile of the weights. -/
  in1TileSize : Nat
  /-- Cores of the grid. -/
  numCores : Nat
  perCoreN : Nat
  allDramInterleaved : Bool
  hasUserShardSpec : Bool
  mcastIn0 : Bool
  outSharded : Bool
  fp32DestAccEn : Bool

namespace Planner

variable (planner : Planner)

def nTiles : Nat := planner.N / planner.in1TileWidth

def kTiles : Nat := planner.K / planner.in0TileWidth

def decodeMatmul : Bool :=
  planner.allDramInterleaved && !planner.hasUserShardSpec && planner.mcastIn0 &&
    !planner.outSharded && planner.M == planner.in0TileHeight

/-- The loop that halves the block until it divides K. -/
def halve (kTiles : Nat) : Nat → Nat → Option Nat :=
  loop (fun in0BlockW => some (kTiles % in0BlockW != 0)) (fun in0BlockW => some (in0BlockW / 2))

/-- The loop that doubles the block for the reads in flight. -/
def double (kTiles bytesPerKTile : Nat) : Nat → Nat → Option Nat :=
  loop (fun in0BlockW => some (decide (in0BlockW * bytesPerKTile < 512 * 1024) &&
    kTiles % (2 * in0BlockW) == 0)) (fun in0BlockW => some (in0BlockW * 2))

/-- A decode matmul that accumulates in FP32 has its block doubled. -/
def doubled (fuel in0BlockW : Nat) : Option Nat :=
  if planner.decodeMatmul && planner.fp32DestAccEn then
    let bytesPerKTile := (planner.nTiles + planner.perCoreN - 1) / planner.perCoreN *
      planner.perCoreN * planner.in1TileSize
    double planner.kTiles bytesPerKTile fuel in0BlockW
  else some in0BlockW

/-- The width of the blocks of K, with fuel for the two loops. What
`get_multi_dim_per_core_factor` makes of it by the memory of a core is given. -/
def in0BlockW (multiDimPerCoreFactor : Nat → Bool → Nat) (fuel : Nat) : Option Nat := do
  let in0BlockW ← halve planner.kTiles fuel (if planner.decodeMatmul then 8 else 2)
  let in0BlockW ← planner.doubled fuel in0BlockW
  some (multiDimPerCoreFactor in0BlockW planner.decodeMatmul)

end Planner

/-- What `create_program_mcast_in0_artifacts` reads for the columns of its cores. -/
structure Program where
  M : Nat
  N : Nat
  perCoreM : Nat
  perCoreN : Nat
  outBlockW : Nat
  outSubblockW : Nat
  outSubblockH : Nat
  /-- `out_num_blocks_x`, of a core's whole columns. -/
  outNumBlocksX : Nat
  /-- Cores of the grid. -/
  availableCores : Nat
  outputSingleTileSize : Nat
  in1TensorStrideW : Nat
  balancePerCoreN : Bool
  in0IsSharded : Bool
  in1IsSharded : Bool
  outputIsSharded : Bool
  usePrefetcherPipes : Bool

/-- The runtime arguments of a core that are about its columns. -/
structure CoreArgs where
  in1TensorStartTileId : Nat
  outTensorStartTileId : Nat
  /-- Of the bias. -/
  in3TensorStartTileId : Nat
  lastBlockW : Nat
  outNumNonzeroSubblocksW : Nat
  outLastNumNonzeroSubblocksW : Nat
  outLastSubblockW : Nat
  paddedSubblockTilesAddrSkip : Nat
  paddedBlockTilesWSkip : Nat
  /-- Only of an output that is not sharded. -/
  lastNumBlocksWDim : Option Nat
  deriving DecidableEq

namespace Program

variable (program : Program)

def numBlocksY : Nat := (program.M - 1) / program.perCoreM + 1

def numWideCores : Nat :=
  if program.balancePerCoreN then program.N - program.availableCores else 0

/-- The checks of a balanced split. -/
def checks : Bool :=
  !program.balancePerCoreN ||
    program.perCoreN == 2 &&
    decide (program.availableCores < program.N) && decide (program.N < 2 * program.availableCores) &&
    (!program.in0IsSharded && !program.in1IsSharded && !program.outputIsSharded) &&
    !program.usePrefetcherPipes

def numBlocksX : Nat :=
  if program.balancePerCoreN then program.availableCores
  else (program.N - 1) / program.perCoreN + 1

def numCoresWithWork : Nat := program.numBlocksY * program.numBlocksX

section Core

variable (i : Nat)

def outputIdxX : Nat := i % program.numBlocksX

def outputIdxY : Nat := i / program.numBlocksX

def balancedNarrowCore : Bool := program.balancePerCoreN && decide (program.numWideCores ≤ i)

def corePerCoreN : Nat :=
  if program.balancePerCoreN then
    if program.balancedNarrowCore i then program.perCoreN - 1 else program.perCoreN
  else min program.perCoreN (program.N - program.outputIdxX i * program.perCoreN)

def coreNStart : Nat :=
  if program.balancePerCoreN then i + min i program.numWideCores
  else program.outputIdxX i * program.perCoreN

def partialOutputBlock : Bool :=
  if program.balancePerCoreN then program.balancedNarrowCore i
  else program.outputIdxX i == program.numBlocksX - 1

/-- The arguments of core `i`. -/
def coreArgs : CoreArgs :=
  let corePerCoreN := program.corePerCoreN i
  let coreNStart := program.coreNStart i
  let partialOutputBlock := program.partialOutputBlock i
  let coreLastOutBlockW :=
    if corePerCoreN % program.outBlockW = 0 then program.outBlockW
    else corePerCoreN % program.outBlockW
  let coreLastOutNumBlocksW := (corePerCoreN - 1) / program.outBlockW + 1
  let coreLastBlockNumNonzeroSubblocksW := (coreLastOutBlockW - 1) / program.outSubblockW + 1
  let coreLastSubblockW :=
    if coreLastOutBlockW % program.outSubblockW = 0 then program.outSubblockW
    else coreLastOutBlockW % program.outSubblockW
  let corePaddedSubblockTilesAddrSkip :=
    program.outputSingleTileSize * (program.outSubblockW - coreLastSubblockW)
  let corePaddedBlockTilesWSkip := program.outSubblockW * program.outSubblockH *
    (program.outBlockW / program.outSubblockW - coreLastBlockNumNonzeroSubblocksW)
  { in1TensorStartTileId := coreNStart * program.in1TensorStrideW
    outTensorStartTileId := coreNStart + program.outputIdxY i * program.perCoreM * program.N
    in3TensorStartTileId := coreNStart
    lastBlockW := if partialOutputBlock then coreLastOutBlockW else program.outBlockW
    outNumNonzeroSubblocksW := program.outBlockW / program.outSubblockW
    outLastNumNonzeroSubblocksW :=
      if partialOutputBlock then coreLastBlockNumNonzeroSubblocksW
      else program.outBlockW / program.outSubblockW
    outLastSubblockW := if partialOutputBlock then coreLastSubblockW else program.outSubblockW
    paddedSubblockTilesAddrSkip :=
      if partialOutputBlock then corePaddedSubblockTilesAddrSkip else 0
    paddedBlockTilesWSkip := if partialOutputBlock then corePaddedBlockTilesWSkip else 0
    lastNumBlocksWDim :=
      if !program.outputIsSharded then
        some (if partialOutputBlock then coreLastOutNumBlocksW else program.outNumBlocksX)
      else none }

end Core

end Program

end Libtt.Matmul1D

/-! ## The cores of a 1D matmul share its columns -/
namespace Libtt.Matmul1D

open Libtt.Foundation

namespace Program

/-- A program whose configuration fits together. That whole blocks make up a core's columns is what
the configuration is checked for before it gets here. -/
structure Valid (program : Program) : Prop where
  columns : 0 < program.N
  perCore : 0 < program.perCoreN
  subblocks : program.outSubblockW ∣ program.outBlockW
  blocks : program.outNumBlocksX * program.outBlockW = program.perCoreN
  checks : program.checks = true
  /-- A balanced split has one block of rows. -/
  oneRow : program.balancePerCoreN = true → program.numBlocksY = 1

/-- The arguments are about so many columns from a start. -/
structure Describes (program : Program) (args : CoreArgs) (row start width : Nat) : Prop where
  input : args.in1TensorStartTileId = start * program.in1TensorStrideW
  output : args.outTensorStartTileId = start + row * program.perCoreM * program.N
  bias : args.in3TensorStartTileId = start
  counted : program.outputIsSharded = false → ∃ blocks, args.lastNumBlocksWDim = some blocks
  blocks : ∀ blocks ∈ args.lastNumBlocksWDim,
    0 < blocks ∧ (blocks - 1) * program.outBlockW + args.lastBlockW = width
  whole : args.outNumNonzeroSubblocksW * program.outSubblockW = program.outBlockW
  last : 0 < args.outLastNumNonzeroSubblocksW ∧ 0 < args.outLastSubblockW ∧
    args.outLastSubblockW ≤ program.outSubblockW ∧
    (args.outLastNumNonzeroSubblocksW - 1) * program.outSubblockW + args.outLastSubblockW =
      args.lastBlockW
  padding : ∃ columns subblocks,
    args.paddedSubblockTilesAddrSkip = program.outputSingleTileSize * columns ∧
    args.paddedBlockTilesWSkip = program.outSubblockW * program.outSubblockH * subblocks ∧
    args.lastBlockW + columns + program.outSubblockW * subblocks = program.outBlockW

end Program

/-- The last of some pieces, which has what the others leave. -/
def lastPiece (total piece : Nat) : Nat := if total % piece = 0 then piece else total % piece

theorem lastPiece_eq {total piece : Nat} (some : 0 < total) (positive : 0 < piece) :
    0 < lastPiece total piece ∧ lastPiece total piece ≤ piece ∧
      (total - 1) / piece * piece + lastPiece total piece = total := by
  have whole := Nat.div_add_mod' total piece
  have less := Nat.mod_lt total positive
  unfold lastPiece
  split
  · rename_i exactly
    refine ⟨positive, Nat.le_refl _, ?_⟩
    have quotient : (total - 1) / piece = total / piece - 1 := by
      obtain ⟨count, isCount⟩ : ∃ count, total = (count + 1) * piece :=
        ⟨total / piece - 1, by
          have many : 0 < total / piece := Nat.div_pos (Nat.le_of_dvd some
            (Nat.dvd_of_mod_eq_zero exactly)) positive
          rw [Nat.sub_add_cancel many]
          omega⟩
      rw [isCount, Nat.mul_div_cancel _ positive, Nat.add_sub_cancel]
      exact Nat.div_eq_of_lt_le (by rw [Nat.succ_mul]; omega) (by rw [Nat.succ_mul]; omega)
    rw [quotient, Nat.sub_mul, Nat.one_mul]
    have least : piece ≤ total / piece * piece := by
      have fits := Nat.le_of_dvd some (Nat.dvd_of_mod_eq_zero exactly)
      omega
    omega
  · rename_i inexact
    refine ⟨Nat.pos_of_ne_zero inexact, less.le, ?_⟩
    have quotient : (total - 1) / piece = total / piece :=
      Nat.div_eq_of_lt_le (by omega) (by rw [Nat.succ_mul]; omega)
    rw [quotient]
    exact whole

/-- Pieces fit where they make up less. -/
theorem pieces_le {total piece whole : Nat} (positive : 0 < piece) (some : 0 < whole)
    (divides : piece ∣ whole) (most : total ≤ whole) : (total - 1) / piece + 1 ≤ whole / piece := by
  obtain ⟨count, rfl⟩ := divides
  rw [Nat.mul_div_cancel_left _ positive]
  exact (Nat.div_lt_iff_lt_mul positive).mpr (by rw [Nat.mul_comm]; omega)

namespace Program

variable {program : Program} (valid : program.Valid)
include valid

theorem outBlockW_pos : 0 < program.outBlockW :=
  Nat.pos_of_mul_pos_left (valid.blocks ▸ valid.perCore)

theorem outSubblockW_pos : 0 < program.outSubblockW :=
  Nat.pos_of_dvd_of_pos valid.subblocks (outBlockW_pos valid)

/-- What the checks of a balanced split say. -/
theorem balanced (balance : program.balancePerCoreN = true) : program.perCoreN = 2 ∧
    program.availableCores < program.N ∧ program.N < 2 * program.availableCores ∧
    program.numBlocksX = program.availableCores ∧
    program.numWideCores = program.N - program.availableCores := by
  have checks := valid.checks
  simp only [balance, Program.checks, Bool.not_true, Bool.false_or, Bool.and_eq_true,
    beq_iff_eq, decide_eq_true_eq] at checks
  obtain ⟨⟨⟨⟨two, more⟩, less⟩, -⟩, -⟩ := checks
  exact ⟨two, more, less, by simp [numBlocksX, balance], by simp [numWideCores, balance]⟩

theorem numBlocksX_pos : 0 < program.numBlocksX := by
  by_cases balance : program.balancePerCoreN = true
  · obtain ⟨-, more, less, isCores, -⟩ := balanced valid balance
    omega
  · rw [numBlocksX, if_neg balance]
    exact Nat.succ_pos _

/-- The columns of a core in a balanced split. -/
theorem columns_balanced (balance : program.balancePerCoreN = true) {i : Nat}
    (working : i < program.numCoresWithWork) :
    i < program.availableCores ∧ program.outputIdxY i = 0 ∧
      program.coreNStart i = i + min i (program.N - program.availableCores) ∧
      program.corePerCoreN i = (if program.N - program.availableCores ≤ i then 1 else 2) ∧
      (program.partialOutputBlock i = true ↔ program.N - program.availableCores ≤ i) := by
  obtain ⟨two, -, -, isCores, isWide⟩ := balanced valid balance
  have less : i < program.availableCores := by
    rwa [numCoresWithWork, valid.oneRow balance, Nat.one_mul, isCores] at working
  refine ⟨less, ?_, ?_, ?_, ?_⟩
  · rw [outputIdxY, isCores, Nat.div_eq_of_lt less]
  · rw [coreNStart, if_pos balance, isWide]
  · simp only [corePerCoreN, balancedNarrowCore, balance, isWide, two, if_true, Bool.true_and,
      decide_eq_true_eq]
  · simp only [partialOutputBlock, balancedNarrowCore, balance, isWide, if_true, Bool.true_and,
      decide_eq_true_eq]

/-- The columns of a core in an ordinary split. -/
theorem columns_ordinary (balance : program.balancePerCoreN ≠ true) (i : Nat) :
    ∃ x, program.outputIdxX i = x ∧ x * program.perCoreN < program.N ∧
      program.coreNStart i = x * program.perCoreN ∧
      program.corePerCoreN i = min program.perCoreN (program.N - x * program.perCoreN) ∧
      (program.partialOutputBlock i = false → (x + 1) * program.perCoreN < program.N) := by
  have isX : program.numBlocksX = (program.N - 1) / program.perCoreN + 1 := if_neg balance
  have columns := valid.columns
  have within {x : Nat} (most : x ≤ (program.N - 1) / program.perCoreN) :
      x * program.perCoreN < program.N := by
    have fits := (Nat.le_div_iff_mul_le valid.perCore).mp most
    omega
  have less : program.outputIdxX i < program.numBlocksX := Nat.mod_lt _ (numBlocksX_pos valid)
  refine ⟨program.outputIdxX i, rfl, within (by omega), if_neg balance, if_neg balance,
    fun whole => within ?_⟩
  rw [partialOutputBlock, if_neg balance, beq_eq_false_iff_ne] at whole
  omega

/-- A core has columns, all of them in the output, and as many as it can have where they are
whole. -/
theorem columns_of_core {i : Nat} (working : i < program.numCoresWithWork) :
    0 < program.corePerCoreN i ∧ program.corePerCoreN i ≤ program.perCoreN ∧
      program.coreNStart i + program.corePerCoreN i ≤ program.N ∧
      (program.partialOutputBlock i = false → program.corePerCoreN i = program.perCoreN) := by
  by_cases balance : program.balancePerCoreN = true
  · obtain ⟨two, more, less, -, -⟩ := balanced valid balance
    obtain ⟨inGrid, -, isStart, isWidth, isPartial⟩ := columns_balanced valid balance working
    rw [isStart, isWidth, two, ← Bool.not_eq_true, isPartial]
    split <;> omega
  · obtain ⟨x, -, within, isStart, isWidth, whole⟩ := columns_ordinary valid balance i
    have positive := valid.perCore
    refine ⟨by omega, by omega, by omega, fun isWhole => ?_⟩
    have next := whole isWhole
    rw [Nat.succ_mul] at next
    omega

/-- Every column of a block row has one core. -/
theorem existsUnique_core {row column : Nat} (inRows : row < program.numBlocksY)
    (inColumns : column < program.N) :
    ∃! i, i < program.numCoresWithWork ∧ program.outputIdxY i = row ∧
      program.coreNStart i ≤ column ∧
      column < program.coreNStart i + program.corePerCoreN i := by
  by_cases balance : program.balancePerCoreN = true
  · obtain ⟨-, more, less, isCores, -⟩ := balanced valid balance
    have isRow : row = 0 := by
      have one := valid.oneRow balance
      omega
    -- the wide cores come first
    obtain ⟨wide, isWide⟩ : ∃ wide, program.N - program.availableCores = wide := ⟨_, rfl⟩
    have working {i : Nat} : i < program.numCoresWithWork ↔ i < program.availableCores := by
      rw [numCoresWithWork, valid.oneRow balance, Nat.one_mul, isCores]
    refine ⟨if column < 2 * wide then column / 2 else column - wide, ?_, ?_⟩
    · have inGrid : (if column < 2 * wide then column / 2 else column - wide) <
          program.availableCores := by split <;> omega
      obtain ⟨-, isY, isStart, isWidth, -⟩ :=
        columns_balanced valid balance (working.mpr inGrid)
      refine ⟨working.mpr inGrid, isY.trans isRow.symm, ?_⟩
      rw [isStart, isWidth, isWide]
      by_cases inWide : column < 2 * wide
      · rw [if_pos inWide, if_neg (by omega)]
        omega
      · rw [if_neg inWide, if_pos (by omega)]
        omega
    · rintro i ⟨isWorking, -, least, most⟩
      obtain ⟨-, -, isStart, isWidth, -⟩ := columns_balanced valid balance isWorking
      rw [isStart, isWidth, isWide] at most
      split at most <;> split <;> omega
  · have isX : program.numBlocksX = (program.N - 1) / program.perCoreN + 1 := if_neg balance
    have positive := valid.perCore
    have quotient : column / program.perCoreN < program.numBlocksX := by
      rw [isX, Nat.lt_succ_iff]
      exact Nat.div_le_div_right (by omega)
    have isIdxX : program.outputIdxX (row * program.numBlocksX + column / program.perCoreN) =
        column / program.perCoreN := by
      rw [outputIdxX, Nat.mul_comm, Nat.mul_add_mod, Nat.mod_eq_of_lt quotient]
    have isIdxY : program.outputIdxY (row * program.numBlocksX + column / program.perCoreN) =
        row := by
      rw [outputIdxY, Nat.mul_comm, Nat.mul_add_div (numBlocksX_pos valid),
        Nat.div_eq_of_lt quotient, Nat.add_zero]
    have whole := Nat.div_add_mod' column program.perCoreN
    have rest := Nat.mod_lt column positive
    refine ⟨row * program.numBlocksX + column / program.perCoreN, ⟨?_, isIdxY, ?_⟩, ?_⟩
    · have next : (row + 1) * program.numBlocksX ≤ program.numBlocksY * program.numBlocksX :=
        Nat.mul_le_mul_right _ inRows
      rw [Nat.succ_mul] at next
      rw [numCoresWithWork]
      omega
    · obtain ⟨x, isX, -, isStart, isWidth, -⟩ := columns_ordinary valid balance
        (row * program.numBlocksX + column / program.perCoreN)
      rw [isStart, isWidth, ← isX, isIdxX]
      omega
    · rintro i ⟨-, isRow, least, most⟩
      obtain ⟨x, isX, -, isStart, isWidth, -⟩ := columns_ordinary valid balance i
      rw [isStart] at least
      have same : column / program.perCoreN = x :=
        Nat.div_eq_of_lt_le least (by rw [Nat.succ_mul]; omega)
      rw [same, ← isX, ← isRow, outputIdxX, outputIdxY, Nat.div_add_mod']

/-- The arguments of a core are about its columns. -/
theorem coreArgs_describes {i : Nat} (working : i < program.numCoresWithWork) :
    program.Describes (program.coreArgs i) (program.outputIdxY i) (program.coreNStart i)
      (program.corePerCoreN i) := by
  obtain ⟨some, most, -, isWhole⟩ := columns_of_core valid working
  have blockPositive := outBlockW_pos valid
  have subblockPositive := outSubblockW_pos valid
  have whole : program.outBlockW / program.outSubblockW * program.outSubblockW =
      program.outBlockW := Nat.div_mul_cancel valid.subblocks
  have counted : program.outputIsSharded = false →
      ∃ blocks, (program.coreArgs i).lastNumBlocksWDim = Option.some blocks := by
    intro unsharded
    simp [coreArgs, unsharded]
  cases isPartial : program.partialOutputBlock i
  case true =>
    obtain ⟨lastPositive, lastMost, lastBlocks⟩ := lastPiece_eq some blockPositive
    obtain ⟨pieceSome, pieceMost, pieces⟩ := lastPiece_eq lastPositive subblockPositive
    have fewer := pieces_le subblockPositive blockPositive valid.subblocks lastMost
    have isLastBlockW : (program.coreArgs i).lastBlockW =
        lastPiece (program.corePerCoreN i) program.outBlockW := by
      simp only [coreArgs, isPartial, if_true]
      rfl
    have isNonzero : (program.coreArgs i).outLastNumNonzeroSubblocksW =
        (lastPiece (program.corePerCoreN i) program.outBlockW - 1) / program.outSubblockW + 1 := by
      simp only [coreArgs, isPartial, if_true]
      rfl
    have isSubblock : (program.coreArgs i).outLastSubblockW =
        lastPiece (lastPiece (program.corePerCoreN i) program.outBlockW) program.outSubblockW := by
      simp only [coreArgs, isPartial, if_true]
      rfl
    refine ⟨rfl, rfl, rfl, counted, fun blocks isBlocks => ?_, whole, ?_,
      program.outSubblockW - (program.coreArgs i).outLastSubblockW,
      program.outBlockW / program.outSubblockW - (program.coreArgs i).outLastNumNonzeroSubblocksW,
      ?_, ?_, ?_⟩
    · have isCount : blocks = (program.corePerCoreN i - 1) / program.outBlockW + 1 := by
        simp only [coreArgs, isPartial, if_true, Option.mem_def] at isBlocks
        split at isBlocks
        · exact (Option.some.inj isBlocks).symm
        · contradiction
      rw [isCount, isLastBlockW, Nat.add_sub_cancel]
      exact ⟨Nat.succ_pos _, lastBlocks⟩
    · rw [isNonzero, isSubblock, isLastBlockW, Nat.add_sub_cancel]
      exact ⟨Nat.succ_pos _, pieceSome, pieceMost, pieces⟩
    · simp only [coreArgs, isPartial, if_true]
    · simp only [coreArgs, isPartial, if_true]
    · rw [isLastBlockW, isSubblock, isNonzero]
      obtain ⟨after, isAfter⟩ := Nat.exists_eq_add_of_le fewer
      rw [isAfter, Nat.add_sub_cancel_left]
      rw [isAfter, Nat.add_mul, Nat.succ_mul] at whole
      rw [Nat.mul_comm program.outSubblockW after]
      omega
  case false =>
    have blockCount : 0 < program.outBlockW / program.outSubblockW :=
      Nat.div_pos (Nat.le_of_dvd blockPositive valid.subblocks) subblockPositive
    have isLastBlockW : (program.coreArgs i).lastBlockW = program.outBlockW := by
      simp only [coreArgs, isPartial, Bool.false_eq_true, if_false]
    have isNonzero : (program.coreArgs i).outLastNumNonzeroSubblocksW =
        program.outBlockW / program.outSubblockW := by
      simp only [coreArgs, isPartial, Bool.false_eq_true, if_false]
    have isSubblock : (program.coreArgs i).outLastSubblockW = program.outSubblockW := by
      simp only [coreArgs, isPartial, Bool.false_eq_true, if_false]
    refine ⟨rfl, rfl, rfl, counted, fun blocks isBlocks => ?_, whole, ?_, 0, 0, ?_, ?_, ?_⟩
    · have isCount : blocks = program.outNumBlocksX := by
        simp only [coreArgs, isPartial, Bool.false_eq_true, if_false, Option.mem_def] at isBlocks
        split at isBlocks
        · exact (Option.some.inj isBlocks).symm
        · contradiction
      have perCore := valid.perCore
      rw [← valid.blocks] at perCore
      have positive := Nat.pos_of_mul_pos_right perCore
      rw [isCount, isLastBlockW, isWhole isPartial, ← valid.blocks]
      refine ⟨positive, ?_⟩
      rw [← Nat.succ_mul, Nat.succ_eq_add_one, Nat.sub_add_cancel positive]
    · rw [isNonzero, isSubblock, isLastBlockW]
      refine ⟨blockCount, subblockPositive, Nat.le_refl _, ?_⟩
      rw [← Nat.succ_mul, Nat.succ_eq_add_one, Nat.sub_add_cancel blockCount, whole]
    · simp only [coreArgs, isPartial, Bool.false_eq_true, if_false, Nat.mul_zero]
    · simp only [coreArgs, isPartial, Bool.false_eq_true, if_false, Nat.mul_zero]
    · rw [isLastBlockW, Nat.mul_zero, Nat.add_zero]

end Program

namespace Planner

/-- The block halves until it divides K. -/
theorem halve_divides {kTiles fuel start last : Nat} (run : halve kTiles fuel start = some last) :
    last ∣ kTiles := by
  obtain ⟨-, -, ends, -⟩ := loop_eq_some run
  rw [Option.some.injEq, bne_eq_false_iff_eq] at ends
  exact Nat.dvd_of_mod_eq_zero ends

/-- Doubling keeps that the block divides K. -/
theorem double_divides {kTiles bytes fuel start last : Nat} (divides : start ∣ kTiles)
    (run : double kTiles bytes fuel start = some last) : last ∣ kTiles := by
  induction fuel generalizing start with
  | zero => simp [double, loop] at run
  | succ fuel ih =>
    rw [double, loop] at run
    split at run
    · contradiction
    · exact Option.some.inj run ▸ divides
    · rename_i more
      rw [Option.some.injEq, Bool.and_eq_true, beq_iff_eq] at more
      exact ih (Nat.mul_comm start 2 ▸ Nat.dvd_of_mod_eq_zero more.2) run

/-- A power of two halves to what divides, at the latest to one. -/
theorem halve_ends (kTiles : Nat) {exponent fuel : Nat} (enough : exponent < fuel) :
    ∃ last, halve kTiles fuel (2 ^ exponent) = some last ∧ 0 < last := by
  induction exponent generalizing fuel with
  | zero =>
    obtain ⟨fuel, rfl⟩ := Nat.exists_eq_succ_of_ne_zero (Nat.ne_of_gt enough)
    exact ⟨1, by simp [halve, loop, Nat.mod_one], Nat.one_pos⟩
  | succ exponent ih =>
    obtain ⟨fuel, rfl⟩ := Nat.exists_eq_succ_of_ne_zero (Nat.ne_of_gt (Nat.zero_lt_of_lt enough))
    by_cases divides : kTiles % 2 ^ (exponent + 1) = 0
    · exact ⟨2 ^ (exponent + 1), by simp [halve, loop, divides], Nat.two_pow_pos _⟩
    · obtain ⟨last, run, positive⟩ := ih (Nat.lt_of_succ_lt_succ enough)
      refine ⟨last, ?_, positive⟩
      have isHalf : 2 ^ (exponent + 1) / 2 = 2 ^ exponent := by
        rw [Nat.pow_succ, Nat.mul_div_cancel _ (by decide)]
      rw [halve, loop]
      simp only [bne_iff_ne.mpr divides, Option.bind_some, isHalf]
      exact run

/-- The block cannot double past K. -/
theorem double_ends {kTiles : Nat} (bytes : Nat) {start fuel : Nat} (positive : 0 < start)
    (least : start ≤ kTiles) (enough : kTiles < start + fuel) :
    ∃ last, double kTiles bytes fuel start = some last := by
  induction fuel generalizing start with
  | zero => omega
  | succ fuel ih =>
    by_cases more : start * bytes < 512 * 1024 ∧ kTiles % (2 * start) = 0
    · have fits := Nat.le_of_dvd (by omega) (Nat.dvd_of_mod_eq_zero more.2)
      obtain ⟨last, run⟩ := @ih (start * 2) (by omega) (by omega) (by omega)
      refine ⟨last, ?_⟩
      rw [double, loop]
      simp only [more, decide_true, beq_self_eq_true, Bool.and_self, Option.bind_some]
      exact run
    · refine ⟨start, ?_⟩
      have test : (decide (start * bytes < 512 * 1024) && kTiles % (2 * start) == 0) = false := by
        rw [Bool.eq_false_iff, ne_eq, Bool.and_eq_true, decide_eq_true_iff, beq_iff_eq]
        exact more
      rw [double, loop, test]

variable {planner : Planner} {multiDimPerCoreFactor : Nat → Bool → Nat}

/-- What a core's memory leaves of a block that divides K divides K. -/
theorem in0BlockW_divides (divides : ∀ in0BlockW adjust,
      multiDimPerCoreFactor in0BlockW adjust ∣ in0BlockW) {fuel chosen : Nat}
    (run : planner.in0BlockW multiDimPerCoreFactor fuel = some chosen) :
    chosen ∣ planner.kTiles := by
  simp only [in0BlockW, Option.bind_eq_bind, Option.bind_eq_some_iff] at run
  obtain ⟨halved, isHalved, last, isLast, isChosen⟩ := run
  have halvedDivides := halve_divides isHalved
  have lastDivides : last ∣ planner.kTiles := by
    rw [doubled] at isLast
    split at isLast
    · exact double_divides halvedDivides isLast
    · exact Option.some.inj isLast ▸ halvedDivides
  exact Option.some.inj isChosen ▸ (divides _ _).trans lastDivides

theorem in0BlockW_ends (some : 0 < planner.kTiles) {fuel : Nat}
    (enough : planner.kTiles + 3 < fuel) :
    ∃ chosen, planner.in0BlockW multiDimPerCoreFactor fuel = Option.some chosen := by
  obtain ⟨halved, isHalved, positive⟩ : ∃ halved, halve planner.kTiles fuel
      (if planner.decodeMatmul then 8 else 2) = Option.some halved ∧ 0 < halved := by
    split
    · exact halve_ends planner.kTiles (show 3 < fuel by omega)
    · exact halve_ends planner.kTiles (show 1 < fuel by omega)
  have least := Nat.le_of_dvd some (halve_divides isHalved)
  obtain ⟨last, isLast⟩ : ∃ last, planner.doubled fuel halved = Option.some last := by
    rw [doubled]
    split
    · exact double_ends _ positive least (by omega)
    · exact ⟨halved, rfl⟩
  refine ⟨multiDimPerCoreFactor last planner.decodeMatmul, ?_⟩
  rw [in0BlockW, isHalved, Option.bind_eq_bind, Option.bind_some, isLast]
  rfl

end Planner

/-- The cores of a 1D matmul share its output columns, each with the arguments that are about its
own, and the blocks of K divide K. -/
theorem matmul_1d_split (program : Program) (valid : program.Valid) (planner : Planner)
    (multiDimPerCoreFactor : Nat → Bool → Nat)
    (divides : ∀ in0BlockW adjust, multiDimPerCoreFactor in0BlockW adjust ∣ in0BlockW) :
    (∀ i < program.numCoresWithWork, 0 < program.corePerCoreN i ∧
      program.coreNStart i + program.corePerCoreN i ≤ program.N ∧
      program.Describes (program.coreArgs i) (program.outputIdxY i) (program.coreNStart i)
        (program.corePerCoreN i)) ∧
    (∀ row < program.numBlocksY, ∀ column < program.N,
      ∃! i, i < program.numCoresWithWork ∧ program.outputIdxY i = row ∧
        program.coreNStart i ≤ column ∧
        column < program.coreNStart i + program.corePerCoreN i) ∧
    (∀ fuel chosen, planner.in0BlockW multiDimPerCoreFactor fuel = some chosen →
      chosen ∣ planner.kTiles) ∧
    (0 < planner.kTiles → ∀ fuel, planner.kTiles + 3 < fuel →
      ∃ chosen, planner.in0BlockW multiDimPerCoreFactor fuel = some chosen) := by
  refine ⟨fun i working => ?_, fun row inRows column inColumns => ?_, fun fuel chosen run => ?_,
    fun some fuel enough => ?_⟩
  · obtain ⟨positive, -, within, -⟩ := Program.columns_of_core valid working
    exact ⟨positive, within, Program.coreArgs_describes valid working⟩
  · exact Program.existsUnique_core valid inRows inColumns
  · exact Planner.in0BlockW_divides divides run
  · exact Planner.in0BlockW_ends some enough

/-- Five columns on three cores: two wide ones and a narrow one, which leaves half a block. -/
def fiveColumns : Program where
  M := 1
  N := 5
  perCoreM := 1
  perCoreN := 2
  outBlockW := 2
  outSubblockW := 2
  outSubblockH := 1
  outNumBlocksX := 1
  availableCores := 3
  outputSingleTileSize := 2048
  in1TensorStrideW := 1
  balancePerCoreN := true
  in0IsSharded := false
  in1IsSharded := false
  outputIsSharded := false
  usePrefetcherPipes := false

def sixTiles : Planner where
  M := 32
  K := 192
  N := 160
  in0TileHeight := 32
  in0TileWidth := 32
  in1TileWidth := 32
  in1TileSize := 2048
  numCores := 3
  perCoreN := 2
  allDramInterleaved := true
  hasUserShardSpec := false
  mcastIn0 := true
  outSharded := false
  fp32DestAccEn := true

theorem matmul_1d_split_fiveColumns : fiveColumns.Valid ∧
    (∀ (in0BlockW : Nat) (_ : Bool), in0BlockW ∣ in0BlockW) ∧
    (∀ row < fiveColumns.numBlocksY, ∀ column < 5,
      ∃! i, i < fiveColumns.numCoresWithWork ∧ fiveColumns.outputIdxY i = row ∧
        fiveColumns.coreNStart i ≤ column ∧
        column < fiveColumns.coreNStart i + fiveColumns.corePerCoreN i) ∧
    sixTiles.kTiles = 6 ∧ ∃ chosen, sixTiles.in0BlockW (fun w _ => w) 10 = some chosen ∧
      chosen ∣ 6 := by
  have valid : fiveColumns.Valid := ⟨by decide, by decide, by decide, by decide, by decide,
    fun _ => by decide⟩
  have divides (in0BlockW : Nat) (_ : Bool) : in0BlockW ∣ in0BlockW := Nat.dvd_refl _
  obtain ⟨-, columns, chosenDivides, chosenEnds⟩ :=
    matmul_1d_split fiveColumns valid sixTiles (fun w _ => w) divides
  obtain ⟨chosen, run⟩ := chosenEnds (by decide) 10 (by decide)
  exact ⟨valid, divides, columns, rfl, chosen, run, chosenDivides 10 chosen run⟩

end Libtt.Matmul1D

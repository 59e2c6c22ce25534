import Libtt.MatmulFp32.Vector

/-!
# The kernels of the FP32 product

A core computes a contiguous range of output tiles, in runs of tiles that share their row of A.
Its reader, compute and writer kernels pass tiles through queues; each is a function on what the
queues hold, which fails where it would wait for a tile that never comes.
-/
namespace Libtt.MatmulFp32

open Libtt.Sfpu

/-- A tile, by row and column. -/
abbrev Tile := Nat → Nat → Word

/-- The pages of a tensor. -/
abbrev Memory := Nat → Tile

/-- What the kernels call of the device library. -/
structure Calls where
  tileRegsAcquire : State → State
  copyTile : Tile → Nat → State → State
  transposeDest : Nat → State → State
  packTile : State → Nat → Tile
  padLastKtile : Nat → Tile → Tile
  padLastTransposedKtile : Nat → Tile → Tile

/-- The arguments that all kernels of a program have in common. -/
structure Plan where
  mt : Nat
  kt : Nat
  nt : Nat
  bcastB : Bool
  runWidth : Nat
  aResident : Bool
  lastKtileK : Nat

/-- `matmul_fp32_run_cols`. -/
def matmulFp32RunCols (tile stop nt runWidth : Nat) : Nat :=
  let cols := nt - tile % nt
  let cols := if cols < runWidth then cols else runWidth
  if cols < stop - tile then cols else stop - tile

variable (calls : Calls) (mad : Word → Word → Word → Word) (plan : Plan)

namespace Plan

/-- The runs of a core from some tile on, each as its first tile and its columns, where the loop
ends within so many turns. -/
def runs (stop : Nat) : Nat → Nat → Option (List (Nat × Nat))
  | 0, tile => if tile < stop then none else some []
  | turns + 1, tile =>
    if tile < stop then
      let cols := matmulFp32RunCols tile stop plan.nt plan.runWidth
      (runs stop turns (tile + cols)).map ((tile, cols) :: ·)
    else some []

def batch (tile : Nat) : Nat := tile / (plan.mt * plan.nt)

def aRow (tile : Nat) : Nat :=
  (plan.batch tile * plan.mt + tile % (plan.mt * plan.nt) / plan.nt) * plan.kt

def bBase (tile : Nat) : Nat :=
  (if plan.bcastB then 0 else plan.batch tile * plan.kt * plan.nt) + tile % plan.nt

end Plan

/-- A tile of the row of A of a run. -/
def readA (a : Memory) (tile k : Nat) : Tile :=
  let page := a (plan.aRow tile + k)
  if k + 1 = plan.kt ∧ 0 < plan.lastKtileK then calls.padLastKtile plan.lastKtileK page else page

/-- A tile of a column of B of a run. -/
def readB (b : Memory) (tile j k : Nat) : Tile :=
  let page := b (plan.bBase tile + k * plan.nt + j)
  if k + 1 = plan.kt ∧ 0 < plan.lastKtileK then
    calls.padLastTransposedKtile plan.lastKtileK page
  else page

/-- What the reader pushes of A for a run, the row once or again for each output tile. -/
def readRunA (a : Memory) (run : Nat × Nat) : List Tile :=
  let row := (List.range plan.kt).map (readA calls plan a run.1)
  if plan.aResident then row else (List.range run.2).flatMap fun _ => row

/-- What the reader pushes of B for a run. -/
def readRunB (b : Memory) (run : Nat × Nat) : List Tile :=
  (List.range run.2).flatMap fun j => (List.range plan.kt).map (readB calls plan b run.1 j)

def dstAcc : Nat := 0

def dstA : Nat := 1

def dstB : Nat := 2

/-- What a kernel leaves behind: the vector unit and the queues of A and B. -/
structure Work where
  unit : State
  in0 : List Tile
  in1 : List Tile

/-- One `k` of an output tile. -/
def multiplyTiles (k : Nat) (work : Work) : Option Work := do
  let a ← work.in0[if plan.aResident then k else 0]?
  let b ← work.in1.head?
  let unit := calls.copyTile a dstA work.unit
  let unit := calls.copyTile b dstB unit
  let unit := calls.transposeDest dstA unit
  let unit := calculateMatmulFp32 mad (k ≠ 0) dstA dstB dstAcc unit
  return ⟨unit, if plan.aResident then work.in0 else work.in0.tail, work.in1.tail⟩

/-- The loop over `k` of an output tile, of which so many turns are left. -/
def multiplyAll : Nat → Nat → Work → Option Work
  | 0, _, work => some work
  | left + 1, k, work => do multiplyAll left (k + 1) (← multiplyTiles calls mad plan k work)

/-- The output tiles of a run, of which so many are left. -/
def computeRun : Nat → Work → Option (List Tile × Work)
  | 0, work => some ([], work)
  | left + 1, work => do
    let work := { work with unit := calls.tileRegsAcquire work.unit }
    let work ← multiplyAll calls mad plan plan.kt 0 work
    let unit := matmulFp32Finish dstAcc dstA dstB work.unit
    let (tiles, work) ← computeRun left { work with unit }
    return (calls.packTile unit dstA :: tiles, work)

/-- The output tiles of all runs. -/
def computeRuns : List (Nat × Nat) → Work → Option (List Tile)
  | [], _ => some []
  | run :: runs, work =>
    if plan.aResident ∧ work.in0.length < plan.kt then none else do
      let (tiles, work) ← computeRun calls mad plan run.2 work
      let in0 := if plan.aResident then work.in0.drop plan.kt else work.in0
      return tiles ++ (← computeRuns runs { work with in0 })

/-- The writer, which pops a tile for each page. -/
def writeTiles : List Nat → List Tile → Option (List (Nat × Tile))
  | [], _ => some []
  | page :: pages, tile :: queue => (writeTiles pages queue).map ((page, tile) :: ·)
  | _ :: _, [] => none

/-- The output tiles of a core, given its `first_tile` and `num_tiles`. -/
def coreTiles (args : Nat × Nat) : List Nat := List.range' args.1 args.2

/-- What a core writes. -/
def core (a b : Memory) (unit : State) (args : Nat × Nat) : Option (List (Nat × Tile)) := do
  let runs ← plan.runs (args.1 + args.2) args.2 args.1
  let tiles ← computeRuns calls mad plan runs
    ⟨unit, runs.flatMap (readRunA calls plan a), runs.flatMap (readRunB calls plan b)⟩
  writeTiles (coreTiles args) tiles

/-- What all cores write, from some core on. -/
def cores (a b : Memory) (units : Nat → State) :
    Nat → List (Nat × Nat) → Option (List (Nat × Tile))
  | _, [] => some []
  | index, args :: rest => do
    let writes ← core calls mad plan a b (units index) args
    return writes ++ (← cores a b units (index + 1) rest)

/-- Run arguments that give each output tile to one core. -/
def Partition (args : List (Nat × Nat)) (tiles : Nat) : Prop :=
  (args.flatMap coreTiles).Perm (List.range tiles)

/-- A memory after writes that the cores make in some order. -/
def Written (writes : List (Nat × Tile)) (before after : Memory) : Prop :=
  ∃ order : List (Nat × Tile), order.Perm writes ∧
    after = order.foldl (fun memory write => Function.update memory write.1 write.2) before

/-- Tiles along a dimension. -/
def tileCount (size : Nat) : Nat := (size + 31) / 32

/-- The arguments of a product of matrices of `m` by `k` and `k` by `n` elements. -/
def matmulPlan (m k n : Nat) (bcastB aResident : Bool) (runWidth : Nat) : Plan :=
  ⟨tileCount m, tileCount k, tileCount n, bcastB, runWidth, aResident, k % 32⟩

/-- An element of a matrix of a tensor with so many rows and columns of tiles. -/
def element (memory : Memory) (rows columns batch i j : Nat) : Word :=
  memory ((batch * rows + i / 32) * columns + j / 32) (i % 32) (j % 32)

end Libtt.MatmulFp32

import Libtt.Foundation.Copies
import Mathlib.Data.Nat.Bitwise

/-!
# Tiled reshapes by windows

`reshape_tiled_windows.patch`: the host plans which segments of input pages make up the output pages
of each core, and packs the plan into the arguments of a kernel that reads a window for each segment,
copies the segments into the pages and writes the windows that they touch.
-/
namespace Libtt.TiledReshape

open Libtt.Foundation

/-- What fits a `uint32_t`. -/
def word (number : Nat) : Nat := number % 2 ^ 32

/-- `SegmentMapData`: elements of an output page that come from an input page. -/
structure Segment where
  inputPageIndex : Nat
  inputPageOffset : Nat
  outputPageOffset : Nat
  numElements : Nat
  deriving DecidableEq, Repr

def kMaxPagesPerCore : Nat := 8

def kMaxSegmentsPerCore : Nat := 128

/-- The tensors and how the output pages are split over cores. -/
structure Reshape (Core : Type) where
  tileBytes : Nat
  elementSize : Nat
  alignment : Nat
  numInputPages : Nat
  allCores : List Core
  coreGroup1 : Core → Bool
  coreGroup2 : Core → Bool
  numTilesPerCoreGroup1 : Nat
  numTilesPerCoreGroup2 : Nat
  reshapeMapOutputPage : Nat → List Segment

structure CorePlan (Core : Type) where
  core : Core
  startPage : Nat
  numPages : Nat
  segments : List Nat
  bitmaps : List Nat

/-- What a core runs the kernel on. -/
structure KernelRunArgs (Core : Type) where
  core : Core
  startOutputPage : Nat
  numPages : Nat
  numSegments : Nat
  varargs : List Nat

structure ProgramArtifacts (Core : Type) where
  scratchpadSize : Nat
  tileSizeBytes : Nat
  alignment : Nat
  maxSegments : Nat
  numRuntimeVarargs : Nat
  kernelRunArgs : List (KernelRunArgs Core)

/-- `std::vector::resize` with zeros. -/
def resize (values : List Nat) (size : Nat) : List Nat :=
  values.take size ++ List.replicate (size - values.length) 0

def windowsPerPage (tileBytes alignment : Nat) : Nat := tileBytes / alignment

def bitmapWords (tileBytes alignment : Nat) : Nat := (windowsPerPage tileBytes alignment + 31) / 32

namespace Reshape

variable {Core : Type} (reshape : Reshape Core)

def maxPages : Nat := max reshape.numTilesPerCoreGroup1 reshape.numTilesPerCoreGroup2

/-- The byte of the input page that the segment starts at. -/
def inBegin (segment : Segment) : Nat := word (segment.inputPageOffset * reshape.elementSize)

def outBegin (segment : Segment) : Nat := word (segment.outputPageOffset * reshape.elementSize)

def size (segment : Segment) : Nat := word (segment.numElements * reshape.elementSize)

/-- The window of the segment: its input page and the window in the page. -/
def windowWord (segment : Segment) : Nat :=
  word (word (segment.inputPageIndex * windowsPerPage reshape.tileBytes reshape.alignment) +
    reshape.inBegin segment / reshape.alignment)

/-- The offset in the window, the offset in the core's output pages and the size. -/
def packedWord (j : Nat) (segment : Segment) : Nat :=
  reshape.inBegin segment % reshape.alignment |||
    word (word (word (j * reshape.tileBytes) + reshape.outBegin segment) <<< 6) |||
    word (reshape.size segment <<< 22)

/-- Marks a window of output page j. -/
def touch (j : Nat) (bitmaps : List Nat) (w : Nat) : List Nat :=
  bitmaps.modify (j * bitmapWords reshape.tileBytes reshape.alignment + w / 32)
    (· ||| word (1 <<< (w % 32)))

/-- The windows that a segment touches. -/
def touchedWindows (segment : Segment) : List Nat :=
  let first := reshape.outBegin segment / reshape.alignment
  let last := (reshape.outBegin segment + reshape.size segment - 1) / reshape.alignment
  List.range' first (last + 1 - first)

def planSegment (j : Nat) (plan : CorePlan Core) (segment : Segment) : Option (CorePlan Core) :=
  if segment.numElements = 0 then some plan
  else if word (reshape.inBegin segment % reshape.alignment + reshape.size segment) >
      reshape.alignment then none
  else some { plan with
    segments := plan.segments ++ [reshape.windowWord segment, reshape.packedWord j segment]
    bitmaps := (reshape.touchedWindows segment).foldl (reshape.touch j) plan.bitmaps }

def planPage (startPage : Nat) (plan : CorePlan Core) (j : Nat) : Option (CorePlan Core) :=
  (reshape.reshapeMapOutputPage (startPage + j)).foldlM (reshape.planSegment j) plan

/-- The plan of a core, if its segments are not too many. -/
def planCore (core : Core) (page numPages : Nat) : Option (CorePlan Core) := do
  let plan ← (List.range numPages).foldlM (reshape.planPage page) {
    core
    startPage := page
    numPages
    segments := []
    bitmaps := List.replicate (numPages * bitmapWords reshape.tileBytes reshape.alignment) 0 }
  if plan.segments.length / 2 > kMaxSegmentsPerCore then none else some plan

/-- How many output pages a core has. -/
def numPages (core : Core) : Nat :=
  if reshape.coreGroup1 core then reshape.numTilesPerCoreGroup1
  else if reshape.coreGroup2 core then reshape.numTilesPerCoreGroup2
  else 0

/-- The plans of the cores that have output pages, one after the other. -/
def planCores : List Core → Nat → Option (List (CorePlan Core))
  | [], _ => some []
  | core :: cores, page =>
    if reshape.numPages core = 0 then planCores cores page
    else do
      let plan ← reshape.planCore core page (reshape.numPages core)
      let plans ← planCores cores (page + reshape.numPages core)
      some (plan :: plans)

def runArgs (maxSegments numVarargs : Nat) (plan : CorePlan Core) : KernelRunArgs Core where
  core := plan.core
  startOutputPage := plan.startPage
  numPages := plan.numPages
  numSegments := plan.segments.length / 2
  varargs := resize (resize plan.segments (2 * maxSegments) ++ plan.bitmaps) numVarargs

/-- `create_windowed_program_artifacts`. -/
def createWindowedProgramArtifacts : Option (ProgramArtifacts Core) :=
  let windowsPerPage := windowsPerPage reshape.tileBytes reshape.alignment
  if reshape.maxPages > kMaxPagesPerCore ∨ reshape.alignment > 64 ∨
      reshape.tileBytes % reshape.alignment ≠ 0 ∨
      reshape.numInputPages * windowsPerPage % 2 ^ 64 > 2 ^ 32 - 1 then none
  else do
    let plans ← reshape.planCores reshape.allCores 0
    let maxSegments := plans.foldl (fun most plan => max most (plan.segments.length / 2)) 0
    if maxSegments = 0 then none
    else
      let numVarargs := 2 * maxSegments +
        reshape.maxPages * bitmapWords reshape.tileBytes reshape.alignment
      some {
        scratchpadSize := reshape.alignment + maxSegments * reshape.alignment +
          reshape.maxPages * reshape.tileBytes
        tileSizeBytes := reshape.tileBytes
        alignment := reshape.alignment
        maxSegments
        numRuntimeVarargs := numVarargs
        kernelRunArgs := plans.map (runArgs maxSegments numVarargs) }

end Reshape

/-- A byte of an input page, of the core's memory or of an output page. -/
inductive Address where
  | input (page offset : Nat)
  | l1 (address : Nat)
  | output (page offset : Nat)
  deriving DecidableEq, Repr

/-- `round_up`. -/
def roundUp (number multiple : Nat) : Nat := (number + multiple - 1) / multiple * multiple

/-- The kernel on a core: its arguments, and where its scratchpad is. -/
structure Kernel where
  startOutputPage : Nat
  numPages : Nat
  numSegments : Nat
  varargs : List Nat
  tileSizeBytes : Nat
  alignment : Nat
  maxSegments : Nat
  staging : Nat

def ProgramArtifacts.kernel {Core : Type} (artifacts : ProgramArtifacts Core)
    (args : KernelRunArgs Core) (staging : Nat) : Kernel where
  startOutputPage := args.startOutputPage
  numPages := args.numPages
  numSegments := args.numSegments
  varargs := args.varargs
  tileSizeBytes := artifacts.tileSizeBytes
  alignment := artifacts.alignment
  maxSegments := artifacts.maxSegments
  staging

namespace Kernel

variable (kernel : Kernel)

def getVararg (index : Nat) : Nat := kernel.varargs.getD index 0

/-- `Windows_Per_Page`. -/
def pageWindows : Nat := windowsPerPage kernel.tileSizeBytes kernel.alignment

def windowsBase : Nat := roundUp kernel.staging kernel.alignment

def pagesBase : Nat := kernel.windowsBase + kernel.maxSegments * kernel.alignment

/-- The read of the window of segment s. -/
def read (s : Nat) : List (Copy Address) :=
  let window := kernel.getVararg (2 * s)
  transfer kernel.alignment
    (fun i => .l1 (kernel.windowsBase + s * kernel.alignment + i))
    (fun i => .input (window / kernel.pageWindows)
      (window % kernel.pageWindows * kernel.alignment + i))

/-- `tt_memmove` of segment s. -/
def move (s : Nat) : List (Copy Address) :=
  let packed := kernel.getVararg (2 * s + 1)
  transfer (packed >>> 22)
    (fun i => .l1 (kernel.pagesBase + (packed >>> 6 &&& 0xFFFF) + i))
    (fun i => .l1 (kernel.windowsBase + s * kernel.alignment + (packed &&& 0x3F) + i))

/-- Whether window w of output page j is touched. -/
def touched (j w : Nat) : Bool :=
  let bitmap := 2 * kernel.maxSegments + j * bitmapWords kernel.tileSizeBytes kernel.alignment
  kernel.getVararg (bitmap + w / 32) >>> (w % 32) &&& 1 ≠ 0

end Kernel

/-- The first window from `end` on that is not touched. -/
def runEnd (touched : Nat → Bool) (windows : Nat) : (fuel : Nat) → (stop : Nat) → Nat
  | 0, stop => stop
  | fuel + 1, stop =>
    if stop < windows && touched stop then runEnd touched windows fuel (stop + 1) else stop

/-- The runs of touched windows, from a window on; each step passes at least one window. -/
def runs (touched : Nat → Bool) (windows : Nat) : (fuel : Nat) → (w : Nat) → List (Nat × Nat)
  | 0, _ => []
  | fuel + 1, w =>
    if w < windows then
      if !touched w then runs touched windows fuel (w + 1)
      else
        let stop := runEnd touched windows windows (w + 1)
        (w, stop) :: runs touched windows fuel stop
    else []

namespace Kernel

variable (kernel : Kernel)

/-- The write of a run of windows of output page j. -/
def write (j : Nat) (run : Nat × Nat) : List (Copy Address) :=
  let start := run.1 * kernel.alignment
  transfer ((run.2 - run.1) * kernel.alignment)
    (fun i => .output (kernel.startOutputPage + j) (start + i))
    (fun i => .l1 (kernel.pagesBase + j * kernel.tileSizeBytes + start + i))

def reads : List (Copy Address) := (List.range kernel.numSegments).flatMap kernel.read

def moves : List (Copy Address) := (List.range kernel.numSegments).flatMap kernel.move

def writes : List (Copy Address) :=
  (List.range kernel.numPages).flatMap fun j =>
    (runs (kernel.touched j) kernel.pageWindows kernel.pageWindows 0).flatMap (kernel.write j)

/-- `kernel_main`: each step behind one barrier. -/
def Main {Byte : Type} (before after : Address → Byte) : Prop :=
  ∃ windows pages, Completes kernel.reads before windows ∧ Completes kernel.moves windows pages ∧
    Completes kernel.writes pages after

end Kernel

end Libtt.TiledReshape

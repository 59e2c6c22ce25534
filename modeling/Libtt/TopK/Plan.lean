import Mathlib.Algebra.Order.Floor.Div
import Mathlib.Tactic.Ring

/-!
# The plan of a top-k selection

`topk_select_plan` splits the cores among the tile rows, column segments and row groups of an input,
`create_descriptor` sizes the buffers of a core by the plan, and the kernel scans the rows and tiles
that its segment and group give it. Numbers of 32 bits are natural numbers, wrapped where they can
go past those bits.
-/
namespace Libtt.TopK

def maxK : Nat := 64
def minSegmentTiles : Nat := 1
def maxInputBytes : Nat := 128 * 1024
def maxCandidateBytes : Nat := 64 * 1024
def faceRowReadBytes : Nat := 64
def candidateBytes : Nat := 8

/-- `list_stride`: an even number of candidates. -/
def listStride (k : Nat) : Nat := (k + 1) / 2 * 2

/-- A division, which has no result by zero. -/
def div (a b : Nat) : Option Nat := if b = 0 then none else some (a / b)

/-- `div_up`. -/
def divUp (a b : Nat) : Option Nat := div ((a + b - 1) % 2 ^ 32) b

/-- `TopKSelectPlan`. -/
structure TopKSelectPlan where
  tileRows : Nat
  Ht : Nat
  height : Nat
  width : Nat
  Wt : Nat
  segments : Nat
  segmentTiles : Nat
  rowGroups : Nat
  rowsPerCore : Nat
  k : Nat
  deriving DecidableEq, Repr

namespace TopKSelectPlan

variable (plan : TopKSelectPlan)

def coresPerTileRow : Nat := plan.segments * plan.rowGroups

def cores : Nat := plan.tileRows * plan.coresPerTileRow

/-- The most logical rows in a tile row. -/
def rows : Nat := if plan.Ht = 1 then plan.height else 32

end TopKSelectPlan

/-- What a plan has to go by. -/
structure Dimensions where
  tileRows : Nat
  Ht : Nat
  height : Nat
  width : Nat
  Wt : Nat
  cores : Nat

namespace Dimensions

variable (of : Dimensions)

def rows : Nat := if of.Ht = 1 then of.height else 32

/-- The shapes and `k` that have no plan, whatever the bytes. -/
def isRefused (k : Nat) : Bool :=
  k < 1 || maxK < k || of.width < k || of.tileRows = 0 || of.cores < of.tileRows ||
    of.Wt < 32 && (2 < of.tileRows || 32 < k)

/-- The `segments` that the cores, columns and candidates of a row allow. -/
def mostSegments (k perTileRow : Nat) : Option Nat := do
  let byRows ← div perTileRow of.rows
  let byTiles ← divUp of.Wt minSegmentTiles
  let byCandidates ← div maxCandidateBytes (listStride k * candidateBytes)
  some (max 1 (min (min byRows byTiles) byCandidates))

/-- `topk_select_plan` from the dimensions on. It also has no plan where the source divides by
zero. -/
def plan (k : Nat) : Option TopKSelectPlan :=
  if of.isRefused k then none
  else do
    let perTileRow ← div of.cores of.tileRows
    let mostSegments ← of.mostSegments k perTileRow
    let segmentTiles ← divUp of.Wt mostSegments
    let segments ← divUp of.Wt segmentTiles
    let perSegment ← div perTileRow segments
    let rowGroups := min of.rows perSegment
    let rowsPerCore ← divUp of.rows rowGroups
    guard (rowsPerCore * segmentTiles * 2 * faceRowReadBytes % 2 ^ 32 ≤ maxInputBytes)
    some
      { tileRows := of.tileRows, Ht := of.Ht, height := of.height, width := of.width, Wt := of.Wt
        segments, segmentTiles, rowGroups, rowsPerCore, k }

end Dimensions

/-- What `topk_select_plan` is given, but for `k`. -/
structure Call where
  logical : List UInt32
  padded : List UInt32
  /-- Cores of the grid. -/
  numCores : UInt32
  customIndices : Bool
  preallocatedOutputs : Bool
  outputIsSharded : Bool
  onDevice : Bool
  tileLayout : Bool
  defaultTile : Bool
  inputIsSharded : Bool
  /-- FP32 or BF16. -/
  floatType : Bool

namespace Call

variable (call : Call)

/-- The calls that the selection does not take, whatever their shape. -/
def isExcluded : Bool :=
  call.customIndices || call.preallocatedOutputs || call.outputIsSharded || !call.onDevice ||
    !call.tileLayout || !call.defaultTile || call.inputIsSharded || !call.floatType

/-- `height`, `width`, `Ht`, `Wt`, `tile_rows` and `cores` for 4-D shapes. -/
def dimensions : Option Dimensions :=
  match call.logical, call.padded with
  | [batch, channels, height, width], [_, _, paddedHeight, paddedWidth] =>
    let Ht := paddedHeight.toNat / 32
    some
      { tileRows := batch.toNat * channels.toNat * Ht % 2 ^ 32, Ht, height := height.toNat
        width := width.toNat, Wt := paddedWidth.toNat / 32, cores := call.numCores.toNat }
  | _, _ => none

/-- `topk_select_plan`. -/
def topkSelectPlan (k : Nat) : Option TopKSelectPlan :=
  if call.isExcluded then none else call.dimensions.bind fun of => of.plan k

end Call

namespace TopKSelectPlan

variable (plan : TopKSelectPlan)

/-- What `add_buffer` makes of a size. -/
def bufferBytes (bytes : Nat) : Nat := (bytes + 64 - 1) / 64 * 64

def inputBufferBytes : Nat :=
  bufferBytes (plan.rowsPerCore * plan.segmentTiles * 2 * faceRowReadBytes % 2 ^ 32)

def candidateBufferBytes : Nat :=
  bufferBytes (if 1 < plan.segments then
    plan.rowsPerCore * plan.segments * listStride plan.k * candidateBytes % 2 ^ 32 else 64)

def group (worker : Nat) : Nat := worker % plan.rowGroups

def segment (worker : Nat) : Nat := worker / plan.rowGroups

/-- The first row of a tile row in its slab. -/
def rowBase (tileRow : Nat) : Nat := tileRow % plan.Ht * 32

/-- The `rows` of the kernel. -/
def kernelRows (tileRow : Nat) : Nat :=
  if plan.rowBase tileRow + 32 ≤ plan.height then 32
  else (plan.height + 2 ^ 32 - plan.rowBase tileRow) % 2 ^ 32

def firstTile (segment : Nat) : Nat := segment * plan.segmentTiles

/-- The `tiles` of the kernel. -/
def tiles (segment : Nat) : Nat :=
  if plan.firstTile segment + plan.segmentTiles ≤ plan.Wt then plan.segmentTiles
  else plan.Wt - plan.firstTile segment

/-- The logical rows of a tile row. -/
def logicalRows (tileRow : Nat) : Nat := min 32 (plan.height - plan.rowBase tileRow)

/-- The row loops of a group's core come to a row: `group`, `group + row_groups`, and so on. -/
def TakesRow (tileRow group row : Nat) : Prop :=
  (∃ turn, row = group + turn * plan.rowGroups) ∧ row < plan.kernelRows tileRow

/-- The tile loops of a segment's core come to a tile column. -/
def TakesTile (segment tile : Nat) : Prop :=
  ∃ t < plan.tiles segment, tile = plan.firstTile segment + t

def Scans (tileRow worker row tile : Nat) : Prop :=
  plan.TakesRow tileRow (plan.group worker) row ∧ plan.TakesTile (plan.segment worker) tile

end TopKSelectPlan

end Libtt.TopK

/-! ## Every top-k selection plan is valid -/
namespace Libtt.TopK

theorem div_eq_some {a b result : Nat} : div a b = some result ↔ 0 < b ∧ result = a / b := by
  unfold div
  split
  · simp_all
  · rw [Option.some.injEq, eq_comm]
    constructor
    · exact fun same => ⟨by omega, same⟩
    · exact fun both => both.2

theorem divUp_eq_some {a b result : Nat} :
    divUp a b = some result ↔ 0 < b ∧ result = (a + b - 1) % 2 ^ 32 / b := div_eq_some

/-- Where the sum fits, `div_up` is the rounded-up quotient. -/
theorem divUp_eq_ceilDiv {a b : Nat} (fits : a + b ≤ 2 ^ 32) (_ : 0 < b) :
    (a + b - 1) % 2 ^ 32 / b = a ⌈/⌉ b := by
  rw [Nat.ceilDiv_eq_add_pred_div, Nat.mod_eq_of_lt (by omega)]

theorem ceilDiv_pos {total piece : Nat} (positive : 0 < piece) (some : 0 < total) :
    0 < total ⌈/⌉ piece := Nat.div_pos (by omega) positive

/-- The last of the pieces has something. -/
theorem before_last_lt {total piece : Nat} (positive : 0 < piece) (some : 0 < total) :
    (total ⌈/⌉ piece - 1) * piece < total := by
  have whole := Nat.div_mul_le_self (total + piece - 1) piece
  rw [Nat.ceilDiv_eq_add_pred_div, Nat.sub_mul, Nat.one_mul]
  omega

/-- Pieces that come from a number of parts are no more than it. -/
theorem ceilDiv_ceilDiv_le {total parts : Nat} (positive : 0 < parts) (some : 0 < total) :
    total ⌈/⌉ (total ⌈/⌉ parts) ≤ parts :=
  (ceilDiv_le_iff_le_mul (ceilDiv_pos positive some)).mpr
    (Nat.mul_comm _ _ ▸ (ceilDiv_le_iff_le_mul positive).mp (Nat.le_refl _))

/-- More parts have smaller pieces. -/
theorem ceilDiv_anti {total fewer more : Nat} (positive : 0 < fewer) (most : fewer ≤ more) :
    total ⌈/⌉ more ≤ total ⌈/⌉ fewer :=
  (ceilDiv_le_iff_le_mul (positive.trans_le most)).mpr
    (((ceilDiv_le_iff_le_mul positive).mp (Nat.le_refl _)).trans (Nat.mul_le_mul_right _ most))

theorem ceilDiv_le_self (total : Nat) {parts : Nat} (positive : 0 < parts) :
    total ⌈/⌉ parts ≤ total :=
  (ceilDiv_le_iff_le_mul positive).mpr (Nat.le_mul_of_pos_left _ positive)

namespace Dimensions

variable (of : Dimensions)

def perTileRow : Nat := of.cores / of.tileRows

/-- How many segments the cores and the columns leave. -/
def room : Nat := min (of.perTileRow / of.rows) of.Wt

/-- How many segments a row may have. -/
def quota (k : Nat) : Nat :=
  max 1 (min of.room (maxCandidateBytes / (listStride k * candidateBytes)))

/-- The plan that the dimensions have for `k`. -/
structure Plans (k : Nat) (plan : TopKSelectPlan) : Prop where
  taken : of.isRefused k = false
  someRow : 0 < of.rows
  someTile : 0 < of.Wt
  someGroup : 0 < plan.rowGroups
  tiles : plan.segmentTiles = of.Wt ⌈/⌉ of.quota k
  segments : plan.segments = of.Wt ⌈/⌉ plan.segmentTiles
  groups : plan.rowGroups = min of.rows (of.perTileRow / plan.segments)
  perCore : plan.rowsPerCore = (of.rows + plan.rowGroups - 1) % 2 ^ 32 / plan.rowGroups
  input : plan.rowsPerCore * plan.segmentTiles * 2 * faceRowReadBytes % 2 ^ 32 ≤ maxInputBytes
  fromCall : plan.tileRows = of.tileRows ∧ plan.Ht = of.Ht ∧ plan.height = of.height ∧
    plan.width = of.width ∧ plan.Wt = of.Wt ∧ plan.k = k

variable {of} {k : Nat} {plan : TopKSelectPlan}

theorem isRefused_eq_false : of.isRefused k = false ↔ (0 < k ∧ k ≤ maxK ∧ k ≤ of.width) ∧
    (0 < of.tileRows ∧ of.tileRows ≤ of.cores) ∧ (of.Wt < 32 → of.tileRows ≤ 2 ∧ k ≤ 32) := by
  simp only [isRefused, Bool.or_eq_false_iff, decide_eq_false_iff_not, Bool.and_eq_false_imp,
    decide_eq_true_eq]
  omega

theorem quota_pos : 0 < of.quota k := Nat.le_max_left 1 _

theorem quota_le (some : 0 < of.Wt) : of.quota k ≤ of.Wt := by
  unfold quota room
  omega

theorem mostSegments_eq_some (bounded : of.Wt < 2 ^ 27) {most : Nat} :
    of.mostSegments k of.perTileRow = some most ↔
      0 < of.rows ∧ 0 < listStride k ∧ most = of.quota k := by
  simp only [mostSegments, Option.bind_eq_bind, Option.bind_eq_some_iff, div_eq_some,
    divUp_eq_some, minSegmentTiles, Nat.add_sub_cancel, Nat.div_one, Nat.zero_lt_one, true_and,
    exists_eq_left, and_assoc, exists_and_left, Option.some.injEq, candidateBytes]
  rw [Nat.mod_eq_of_lt (by omega)]
  constructor
  · rintro ⟨someRow, someList, rfl⟩
    exact ⟨someRow, by omega, rfl⟩
  · rintro ⟨someRow, someList, rfl⟩
    exact ⟨someRow, by omega, rfl⟩

theorem listStride_pos (positive : 0 < k) : 0 < listStride k := by
  unfold listStride
  omega

/-- The divisions of columns do not wrap. -/
theorem columns_ceilDiv (bounded : of.Wt < 2 ^ 27) (someTile : 0 < of.Wt) {parts : Nat}
    (most : parts ≤ of.Wt) (positive : 0 < parts) :
    (of.Wt + parts - 1) % 2 ^ 32 / parts = of.Wt ⌈/⌉ parts :=
  divUp_eq_ceilDiv (by omega) positive

/-- Segments of some tiles are of some columns. -/
theorem Wt_pos {parts : Nat} (some : 0 < (of.Wt + parts - 1) % 2 ^ 32 / parts) : 0 < of.Wt := by
  by_contra none
  have parted : 0 < parts := Nat.pos_of_ne_zero fun zero => by simp [zero] at some
  rw [Nat.div_eq_of_lt (by omega)] at some
  exact Nat.lt_irrefl _ some

theorem plan_eq_some (bounded : of.Wt < 2 ^ 27) : of.plan k = some plan ↔ of.Plans k plan := by
  unfold Dimensions.plan
  constructor
  · intro isPlan
    split at isPlan
    · cases isPlan
    · rename_i taken
      simp only [Option.bind_eq_bind, Option.bind_eq_some_iff, div_eq_some, divUp_eq_some,
        Option.some.injEq] at isPlan
      obtain ⟨perTileRow, ⟨-, rfl⟩, most, isMost, segmentTiles, ⟨-, tiles⟩, segments,
        ⟨someTile, isSegments⟩, perSegment, ⟨someSegment, groups⟩, rowsPerCore,
        ⟨someGroup, perCore⟩, _, input, rfl⟩ := isPlan
      obtain ⟨someRow, -, rfl⟩ := (mostSegments_eq_some bounded).mp isMost
      have someColumn : 0 < of.Wt := Wt_pos (tiles ▸ someTile)
      rw [columns_ceilDiv bounded someColumn (quota_le someColumn) quota_pos] at tiles
      rw [columns_ceilDiv bounded someColumn (tiles ▸ ceilDiv_le_self _ quota_pos) someTile]
        at isSegments
      exact
        { taken := Bool.eq_false_iff.mpr taken, someRow, someTile := someColumn, someGroup, tiles
          segments := isSegments, groups := congrArg (min of.rows) groups, perCore
          input := (Option.guard_eq_some' ()).mp input
          fromCall := ⟨rfl, rfl, rfl, rfl, rfl, rfl⟩ }
  · intro plans
    obtain ⟨small, fits, -⟩ := isRefused_eq_false.mp plans.taken
    have someTiles : 0 < plan.segmentTiles := plans.tiles ▸ ceilDiv_pos quota_pos plans.someTile
    have someSegment : 0 < plan.segments := plans.segments ▸ ceilDiv_pos someTiles plans.someTile
    rw [if_neg (Bool.eq_false_iff.mp plans.taken)]
    simp only [Option.bind_eq_bind, Option.bind_eq_some_iff, div_eq_some, divUp_eq_some,
      Option.some.injEq]
    refine ⟨_, ⟨fits.1, rfl⟩, _, (mostSegments_eq_some bounded).mpr
        ⟨plans.someRow, listStride_pos small.1, rfl⟩, plan.segmentTiles, ⟨quota_pos, ?_⟩,
      plan.segments, ⟨someTiles, ?_⟩, _, ⟨someSegment, rfl⟩, plan.rowsPerCore, ⟨?_, ?_⟩, (),
      (Option.guard_eq_some' ()).mpr plans.input, ?_⟩
    · rw [columns_ceilDiv bounded plans.someTile (quota_le plans.someTile) quota_pos]
      exact plans.tiles
    · rw [columns_ceilDiv bounded plans.someTile
        (plans.tiles ▸ ceilDiv_le_self _ quota_pos) someTiles]
      exact plans.segments
    · exact plans.groups ▸ plans.someGroup
    · exact plans.groups ▸ plans.perCore
    · obtain ⟨h1, h2, h3, h4, h5, h6⟩ := plans.fromCall
      have groups := plans.groups
      cases plan
      simp_all [perTileRow]

theorem Plans.segmentTiles_pos (plans : of.Plans k plan) : 0 < plan.segmentTiles :=
  plans.tiles ▸ ceilDiv_pos quota_pos plans.someTile

theorem Plans.segments_pos (plans : of.Plans k plan) : 0 < plan.segments :=
  plans.segments ▸ ceilDiv_pos plans.segmentTiles_pos plans.someTile

theorem Plans.segments_le (plans : of.Plans k plan) : plan.segments ≤ of.quota k := by
  rw [plans.segments, plans.tiles]
  exact ceilDiv_ceilDiv_le quota_pos plans.someTile

/-- Where every row may have several cores, a core has one row. -/
theorem single {segments rowGroups rowsPerCore : Nat} (bounded : of.cores < 2 ^ 32)
    (someRow : 0 < of.rows) (someSegment : 0 < segments)
    (several : 2 ≤ of.perTileRow / of.rows) (most : segments ≤ of.perTileRow / of.rows)
    (groups : rowGroups = min of.rows (of.perTileRow / segments))
    (perCore : rowsPerCore = (of.rows + rowGroups - 1) % 2 ^ 32 / rowGroups) :
    rowGroups = of.rows ∧ rowsPerCore = 1 := by
  have fit : segments * of.rows ≤ of.perTileRow := (Nat.le_div_iff_mul_le someRow).mp most
  have twice : 2 * of.rows ≤ of.perTileRow := (Nat.le_div_iff_mul_le someRow).mp several
  have fewer : of.perTileRow ≤ of.cores := Nat.div_le_self _ _
  have every : rowGroups = of.rows := by
    rw [groups]
    exact Nat.min_eq_left ((Nat.le_div_iff_mul_le someSegment).mpr (Nat.mul_comm _ _ ▸ fit))
  refine ⟨every, ?_⟩
  rw [perCore, every, Nat.mod_eq_of_lt (by omega)]
  exact Nat.div_eq_of_lt_le (by omega) (by omega)

/-- Several segments leave a core one row, and their candidates fit. -/
theorem Plans.several (plans : of.Plans k plan) (bounded : of.cores < 2 ^ 32)
    (several : 1 < plan.segments) :
    plan.rowsPerCore = 1 ∧ plan.segments * (listStride k * candidateBytes) ≤ maxCandidateBytes := by
  have most := plans.segments_le
  have within : plan.segments ≤ of.room ∧
      plan.segments ≤ maxCandidateBytes / (listStride k * candidateBytes) := by
    unfold quota at most
    omega
  have byRows : plan.segments ≤ of.perTileRow / of.rows :=
    within.1.trans (Nat.min_le_left _ _)
  have positive := listStride_pos (isRefused_eq_false.mp plans.taken).1.1
  refine ⟨(single bounded plans.someRow plans.segments_pos (by omega) byRows plans.groups
    plans.perCore).2, ?_⟩
  exact (Nat.le_div_iff_mul_le (Nat.mul_pos positive (by decide))).mp within.2

/-- The quota of a smaller `k` is the same unless the candidates bound it. -/
theorem quota_smaller {smaller : Nat} (some : 0 < smaller) (le : smaller ≤ k) (most : k ≤ maxK) :
    of.quota smaller = of.quota k ∨
      128 ≤ of.quota k ∧ of.quota k ≤ of.quota smaller ∧ of.quota smaller ≤ of.room := by
  have few : listStride k ≤ 64 := by
    unfold listStride maxK at *
    omega
  have fewer : listStride smaller ≤ listStride k := by
    unfold listStride
    omega
  have positive := listStride_pos some
  have grown : maxCandidateBytes / (listStride k * candidateBytes) ≤
      maxCandidateBytes / (listStride smaller * candidateBytes) :=
    Nat.div_le_div_left (Nat.mul_le_mul_right _ fewer) (Nat.mul_pos positive (by decide))
  have many : 128 ≤ maxCandidateBytes / (listStride k * candidateBytes) := by
    rw [Nat.le_div_iff_mul_le (Nat.mul_pos (positive.trans_le fewer) (by decide))]
    unfold candidateBytes maxCandidateBytes
    omega
  unfold quota
  omega

/-- A plan for some `k` leaves one for every smaller one. -/
theorem Plans.smaller (bounded : of.cores < 2 ^ 32) (narrow : of.Wt < 2 ^ 27)
    (plans : of.Plans k plan) {smaller : Nat} (some : 0 < smaller) (le : smaller ≤ k) :
    ∃ other, of.Plans smaller other := by
  obtain ⟨small, fits, taken⟩ := isRefused_eq_false.mp plans.taken
  have alsoTaken : of.isRefused smaller = false :=
    isRefused_eq_false.mpr ⟨by omega, fits, fun few => by have := taken few; omega⟩
  rcases quota_smaller some le small.2.1 with same | ⟨many, grown, within⟩
  · exact ⟨{ plan with k := smaller },
      { taken := alsoTaken, someRow := plans.someRow, someTile := plans.someTile
        someGroup := plans.someGroup, tiles := same ▸ plans.tiles, segments := plans.segments
        groups := plans.groups, perCore := plans.perCore, input := plans.input
        fromCall := by
          obtain ⟨h1, h2, h3, h4, h5, -⟩ := plans.fromCall
          exact ⟨h1, h2, h3, h4, h5, rfl⟩ }⟩
  · have byRows : of.quota smaller ≤ of.perTileRow / of.rows := within.trans (Nat.min_le_left _ _)
    have several : 2 ≤ of.perTileRow / of.rows := by omega
    have someTiles : 0 < of.Wt ⌈/⌉ of.quota smaller := ceilDiv_pos quota_pos plans.someTile
    have someSegment := ceilDiv_pos someTiles plans.someTile
    have most : of.Wt ⌈/⌉ (of.Wt ⌈/⌉ of.quota smaller) ≤ of.quota smaller :=
      ceilDiv_ceilDiv_le quota_pos plans.someTile
    obtain ⟨-, one⟩ := single bounded plans.someRow plans.segments_pos several
      (plans.segments_le.trans (grown.trans byRows)) plans.groups plans.perCore
    obtain ⟨every, alsoOne⟩ := single bounded plans.someRow someSegment several
      (most.trans byRows) rfl rfl
    have narrower : of.Wt ⌈/⌉ of.quota smaller ≤ plan.segmentTiles :=
      plans.tiles ▸ ceilDiv_anti quota_pos grown
    have short : plan.segmentTiles ≤ 2 ^ 20 := by
      rw [plans.tiles, ceilDiv_le_iff_le_mul quota_pos]
      exact narrow.le.trans (Nat.mul_le_mul_right (2 ^ 20) many)
    have input := plans.input
    rw [one] at input
    exact ⟨
      { tileRows := of.tileRows, Ht := of.Ht, height := of.height, width := of.width, Wt := of.Wt
        segments := of.Wt ⌈/⌉ (of.Wt ⌈/⌉ of.quota smaller)
        segmentTiles := of.Wt ⌈/⌉ of.quota smaller, rowGroups := of.rows, rowsPerCore := 1
        k := smaller },
      { taken := alsoTaken, someRow := plans.someRow, someTile := plans.someTile
        someGroup := plans.someRow, tiles := rfl, segments := rfl, groups := every.symm
        perCore := (every ▸ alsoOne).symm
        input := by
          unfold faceRowReadBytes maxInputBytes at *
          dsimp only
          omega
        fromCall := ⟨rfl, rfl, rfl, rfl, rfl, rfl⟩ }⟩

/-- The cores of a plan are there. -/
theorem Plans.cores_le (plans : of.Plans k plan) : plan.cores ≤ of.cores := by
  have perTileRow : plan.coresPerTileRow ≤ of.perTileRow := by
    have fewer : plan.rowGroups ≤ of.perTileRow / plan.segments :=
      plans.groups ▸ Nat.min_le_right _ _
    rw [TopKSelectPlan.coresPerTileRow, Nat.mul_comm]
    exact (Nat.le_div_iff_mul_le plans.segments_pos).mp fewer
  calc plan.cores = of.tileRows * plan.coresPerTileRow := by
        rw [TopKSelectPlan.cores, plans.fromCall.1]
    _ ≤ of.tileRows * of.perTileRow := Nat.mul_le_mul_left _ perTileRow
    _ ≤ of.cores := Nat.mul_div_le _ _

end Dimensions

namespace TopKSelectPlan

variable {plan : TopKSelectPlan}

/-- The rows of a group are those that leave its remainder. -/
theorem takesRow_iff {tileRow group row : Nat} (isGroup : group < plan.rowGroups)
    (logical : row < plan.logicalRows tileRow) :
    plan.TakesRow tileRow group row ↔ group = row % plan.rowGroups := by
  have rows : plan.kernelRows tileRow = plan.logicalRows tileRow := by
    unfold kernelRows logicalRows at *
    split <;> omega
  rw [TakesRow, rows]
  constructor
  · rintro ⟨⟨turn, rfl⟩, -⟩
    rw [Nat.add_mul_mod_self_right, Nat.mod_eq_of_lt isGroup]
  · rintro rfl
    exact ⟨⟨row / plan.rowGroups, (Nat.mod_add_div' row plan.rowGroups).symm⟩, logical⟩

/-- The groups that have a row of a tile row are as many as its rows. -/
theorem group_nonempty {tileRow group : Nat} (isGroup : group < plan.rowGroups) :
    (∃ row < plan.logicalRows tileRow, plan.TakesRow tileRow group row) ↔
      group < plan.logicalRows tileRow := by
  constructor
  · rintro ⟨row, logical, takes⟩
    rw [takesRow_iff isGroup logical] at takes
    exact takes ▸ (Nat.mod_le _ _).trans_lt logical
  · intro logical
    exact ⟨group, logical, (takesRow_iff isGroup logical).mpr (Nat.mod_eq_of_lt isGroup).symm⟩

/-- The tiles of a segment are those with its quotient. -/
theorem takesTile_iff {segment tile : Nat} (some : 0 < plan.segmentTiles) (column : tile < plan.Wt) :
    plan.TakesTile segment tile ↔ segment = tile / plan.segmentTiles := by
  have within := Nat.div_add_mod' tile plan.segmentTiles
  have less := Nat.mod_lt tile some
  unfold TakesTile tiles firstTile
  constructor
  · rintro ⟨t, short, rfl⟩
    refine (Nat.div_eq_of_lt_le (by omega) ?_).symm
    rw [Nat.succ_mul]
    split at short <;> omega
  · rintro rfl
    exact ⟨tile % plan.segmentTiles, by split <;> omega, within.symm⟩

/-- A worker of a group and a segment. -/
theorem worker_iff {worker group segment : Nat} (isGroup : group < plan.rowGroups) :
    plan.group worker = group ∧ plan.segment worker = segment ↔
      worker = segment * plan.rowGroups + group := by
  have within := Nat.div_add_mod' worker plan.rowGroups
  unfold TopKSelectPlan.group TopKSelectPlan.segment
  constructor
  · rintro ⟨rfl, rfl⟩
    exact within.symm
  · rintro rfl
    rw [Nat.mul_add_mod_self_right, Nat.mod_eq_of_lt isGroup, Nat.add_comm,
      Nat.add_mul_div_right _ _ (by omega), Nat.div_eq_of_lt isGroup, Nat.zero_add]
    exact ⟨rfl, rfl⟩

end TopKSelectPlan

namespace Dimensions

variable {of : Dimensions} {k : Nat} {plan : TopKSelectPlan}

/-- One worker scans a row and a tile column. -/
theorem Plans.scans_unique (plans : of.Plans k plan)
    {tileRow row tile : Nat} (logical : row < plan.logicalRows tileRow) (column : tile < plan.Wt) :
    ∃! worker, worker < plan.coresPerTileRow ∧ plan.Scans tileRow worker row tile := by
  have isGroup := Nat.mod_lt row plans.someGroup
  have isSegment : tile / plan.segmentTiles < plan.segments := by
    rw [Nat.div_lt_iff_lt_mul plans.segmentTiles_pos]
    refine column.trans_le ?_
    rw [plans.fromCall.2.2.2.2.1, plans.segments, Nat.mul_comm]
    exact (ceilDiv_le_iff_le_mul plans.segmentTiles_pos).mp (Nat.le_refl _)
  have scans (worker : Nat) : plan.Scans tileRow worker row tile ↔
      worker = tile / plan.segmentTiles * plan.rowGroups + row % plan.rowGroups := by
    have ofGroup : plan.group worker < plan.rowGroups := Nat.mod_lt worker plans.someGroup
    rw [TopKSelectPlan.Scans, TopKSelectPlan.takesTile_iff plans.segmentTiles_pos column,
      TopKSelectPlan.takesRow_iff ofGroup logical,
      TopKSelectPlan.worker_iff isGroup]
  refine ⟨_, ⟨?_, (scans _).mpr rfl⟩, fun worker both => (scans worker).mp both.2⟩
  calc tile / plan.segmentTiles * plan.rowGroups + row % plan.rowGroups
      < (tile / plan.segmentTiles + 1) * plan.rowGroups := by rw [Nat.succ_mul]; omega
    _ ≤ plan.coresPerTileRow := Nat.mul_le_mul_right _ isSegment

/-- Every segment has a tile. -/
theorem Plans.segment_nonempty (plans : of.Plans k plan) {segment : Nat}
    (isSegment : segment < plan.segments) : ∃ tile < plan.Wt, plan.TakesTile segment tile := by
  have before : plan.firstTile segment < plan.Wt := by
    have last := before_last_lt plans.segmentTiles_pos plans.someTile
    rw [← plans.segments, ← plans.fromCall.2.2.2.2.1] at last
    exact (Nat.mul_le_mul_right _ (by omega)).trans_lt last
  have some := plans.segmentTiles_pos
  refine ⟨plan.firstTile segment, before, 0, ?_, rfl⟩
  unfold TopKSelectPlan.tiles
  split <;> omega

/-- The buffers keep to their bytes. -/
theorem Plans.buffers (plans : of.Plans k plan) (bounded : of.cores < 2 ^ 32) :
    plan.inputBufferBytes ≤ maxInputBytes ∧ plan.candidateBufferBytes ≤ maxCandidateBytes := by
  have input := plans.input
  unfold TopKSelectPlan.inputBufferBytes TopKSelectPlan.candidateBufferBytes
    TopKSelectPlan.bufferBytes
  refine ⟨by unfold maxInputBytes at *; omega, ?_⟩
  split
  · rename_i several
    obtain ⟨one, fits⟩ := plans.several bounded several
    rw [one, Nat.one_mul, plans.fromCall.2.2.2.2.2, Nat.mul_assoc]
    unfold maxCandidateBytes at *
    omega
  · decide

end Dimensions

/-- What a plan should be, apart from the groups of a short tile row. -/
structure TopKSelectPlan.Valid (plan : TopKSelectPlan) (call : Call) : Prop where
  cores : plan.cores ≤ call.numCores.toNat
  scans {tileRow row tile : Nat} : row < plan.logicalRows tileRow → tile < plan.Wt →
    ∃! worker, worker < plan.coresPerTileRow ∧ plan.Scans tileRow worker row tile
  segments : ∀ segment < plan.segments, ∃ tile < plan.Wt, plan.TakesTile segment tile
  fewGroups : plan.rowGroups ≤ plan.rows
  groups (tileRow : Nat) : ∀ group < plan.rowGroups,
    (∃ row < plan.logicalRows tileRow, plan.TakesRow tileRow group row) ↔
      group < plan.logicalRows tileRow
  input : plan.inputBufferBytes ≤ maxInputBytes
  candidates : plan.candidateBufferBytes ≤ maxCandidateBytes

namespace Call

variable {call : Call} {k : Nat} {plan : TopKSelectPlan}

theorem dimensions_spec {of : Dimensions} (isOf : call.dimensions = some of) :
    of.Wt < 2 ^ 27 ∧ of.cores = call.numCores.toNat := by
  unfold dimensions at isOf
  split at isOf
  · rename_i paddedWidth _ _
    obtain rfl := Option.some.inj isOf
    exact ⟨Nat.div_lt_of_lt_mul paddedWidth.toNat_lt, rfl⟩
  · cases isOf

theorem topkSelectPlan_eq_some : call.topkSelectPlan k = some plan ↔
    call.isExcluded = false ∧ ∃ of, call.dimensions = some of ∧ of.Plans k plan := by
  unfold topkSelectPlan
  split
  · simp_all
  · rename_i taken
    rw [Option.bind_eq_some_iff]
    constructor
    · rintro ⟨of, isOf, isPlan⟩
      exact ⟨Bool.eq_false_iff.mpr taken, of, isOf,
        (Dimensions.plan_eq_some (dimensions_spec isOf).1).mp isPlan⟩
    · rintro ⟨-, of, isOf, plans⟩
      exact ⟨of, isOf, (Dimensions.plan_eq_some (dimensions_spec isOf).1).mpr plans⟩

/-- Every plan is valid, and a call that has one has one for every smaller `k`. -/
theorem topk_select_plan_valid (planned : call.topkSelectPlan k = some plan) :
    plan.Valid call ∧ ∀ smaller, 0 < smaller → smaller ≤ k →
      (call.topkSelectPlan smaller).isSome := by
  obtain ⟨taken, of, isOf, plans⟩ := topkSelectPlan_eq_some.mp planned
  obtain ⟨narrow, cores⟩ := dimensions_spec isOf
  have bounded : of.cores < 2 ^ 32 := cores ▸ call.numCores.toNat_lt
  obtain ⟨input, candidates⟩ := plans.buffers bounded
  constructor
  · exact
      { cores := cores ▸ plans.cores_le
        scans := plans.scans_unique
        segments := fun _ => plans.segment_nonempty
        fewGroups := by
          rw [plans.groups, TopKSelectPlan.rows, plans.fromCall.2.1, plans.fromCall.2.2.1]
          exact Nat.min_le_left _ _
        groups := fun _ _ => TopKSelectPlan.group_nonempty
        input, candidates }
  · intro smaller some le
    obtain ⟨other, alsoPlans⟩ := plans.smaller bounded narrow some le
    exact Option.isSome_iff_exists.mpr
      ⟨other, topkSelectPlan_eq_some.mpr ⟨taken, of, isOf, alsoPlans⟩⟩

/-- A decode step's logits on all the cores of a grid of 64. -/
def decodeStep : Call where
  logical := [1, 1, 1, 4096]
  padded := [1, 1, 32, 4096]
  numCores := 64
  customIndices := false
  preallocatedOutputs := false
  outputIsSharded := false
  onDevice := true
  tileLayout := true
  defaultTile := true
  inputIsSharded := false
  floatType := true

def decodePlan : TopKSelectPlan where
  tileRows := 1
  Ht := 1
  height := 1
  width := 4096
  Wt := 128
  segments := 64
  segmentTiles := 2
  rowGroups := 1
  rowsPerCore := 1
  k := 10

theorem topk_select_plan_decode :
    decodeStep.topkSelectPlan 10 = some decodePlan ∧ decodePlan.Valid decodeStep ∧
      (decodeStep.topkSelectPlan 3).isSome := by
  have planned : decodeStep.topkSelectPlan 10 = some decodePlan := by decide
  exact ⟨planned, (topk_select_plan_valid planned).1,
    (topk_select_plan_valid planned).2 3 (by decide) (by decide)⟩

/-- A slab of two tile rows, the second of one row. -/
def shortTileRow : Call :=
  { decodeStep with logical := [1, 1, 33, 32], padded := [1, 1, 64, 32] }

/-- Groups of a tile row without rows for them. -/
theorem topk_select_plan_empty_group :
    ¬ ∀ (call : Call) (k : Nat) (plan : TopKSelectPlan), call.topkSelectPlan k = some plan →
      ∀ tileRow < plan.tileRows, ∀ group < plan.rowGroups,
        ∃ row < plan.logicalRows tileRow, plan.TakesRow tileRow group row := by
  intro every
  have planned : shortTileRow.topkSelectPlan 1 = some
      { tileRows := 2, Ht := 2, height := 33, width := 32, Wt := 1, segments := 1
        segmentTiles := 1, rowGroups := 32, rowsPerCore := 1, k := 1 } := by decide
  have nonempty := every _ _ _ planned 1 (by decide) 1 (by decide)
  rw [TopKSelectPlan.group_nonempty (by decide)] at nonempty
  exact absurd nonempty (by decide)

end Call

end Libtt.TopK

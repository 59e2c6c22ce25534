import Mathlib.Algebra.Order.BigOperators.Group.List
import Mathlib.Tactic.Ring
import Libtt.MatmulDecode.Plan

/-!
# What the byte count covers

The byte count has one tile for the output of a core, of the output's type or, where K is split, of
its FP32 partial sum.
-/
namespace Libtt.MatmulDecode

variable {sizes : TileSizes} {device : Device} {a b : Tensor} {bias : Option Tensor}
  {attributes : MatmulParams} {config : Config} {outputScales : Bool}

/-- What the check of a config has found. -/
structure Accepted (device : Device) (a b : Tensor) (bias : Option Tensor)
    (attributes : MatmulParams) (config : Config) : Prop where
  gridX : 0 < config.gridX ∧ config.gridX ≤ device.gridX
  gridY : 0 < config.gridY ∧ config.gridY ≤ device.gridY
  notTransposed : attributes.transposeA = false
  kSplits : 0 < config.kSplits ∧ config.kSplits ∣ paddedColumns a false / 32
  in0BlockW : 0 < config.in0BlockW ∧
    config.in0BlockW ∣ paddedColumns a false / 32 / config.kSplits
  gridRows : 1 < config.kSplits →
    (paddedColumns b attributes.transposeB / 32 + config.gridX - 1) / config.gridX *
      config.kSplits ≤ config.gridY
  splitOptions : 1 < config.kSplits → config.fuseSwiglu = false ∧ bias = none

theorem accepted_of_unsupportedReason
    (none : unsupportedReason device a b bias attributes config sizes = some none) :
    Accepted device a b bias attributes config := by
  have passed : ∀ check ∈ checks device a b bias attributes config, check.1 = false := by
    unfold unsupportedReason at none
    split at none
    · cases none
    · rename_i notFound
      intro check member
      exact Bool.eq_false_iff.mpr (List.find?_eq_none.mp notFound check member)
  simp only [checks, List.append_eq, List.forall_mem_append, List.forall_mem_cons,
    decide_eq_false_iff_not] at passed
  obtain ⟨⟨grid, -, options, -, -, -, -, -, -, -, kSplits, in0BlockW, gridRows, splitOptions, -⟩, -⟩ :=
    passed
  have notTransposed : attributes.transposeA = false :=
    Bool.eq_false_iff.mpr fun transposed => options (.inl transposed)
  rw [notTransposed] at kSplits in0BlockW
  rw [not_or, not_not] at kSplits in0BlockW
  constructor
  · omega
  · omega
  · exact notTransposed
  · exact ⟨Nat.pos_of_ne_zero kSplits.1, Nat.dvd_of_mod_eq_zero kSplits.2⟩
  · exact ⟨Nat.pos_of_ne_zero in0BlockW.1, Nat.dvd_of_mod_eq_zero in0BlockW.2⟩
  · intro split
    exact Nat.le_of_not_lt fun more => gridRows ⟨split, more⟩
  · intro split
    constructor
    · exact Bool.eq_false_iff.mpr fun fused => splitOptions ⟨split, .inl fused⟩
    · exact Option.not_isSome_iff_eq_none.mp fun some => splitOptions ⟨split, .inr some⟩

theorem div_eq_some {x y quotient : Nat} (divided : div x y = some quotient) :
    0 < y ∧ quotient = x / y := by
  unfold div at divided
  split at divided
  · cases divided
  · exact ⟨by omega, (Option.some.inj divided).symm⟩

/-- A split has one core for each output tile. -/
theorem planDecode_split {aPadded bPadded : List Nat} {transposeB : Bool} {plan : DecodePlan}
    (planned : planDecode aPadded bPadded transposeB config outputScales = some plan) :
    plan.kSplits = config.kSplits ∧ plan.Kt = fromBack aPadded 1 / 32 / config.kSplits ∧
      plan.halves = (if config.fuseSwiglu then 2 else 1) ∧
      1 ≤ plan.halves * plan.countOf 0 ∧ (1 < config.kSplits → plan.countOf 0 = 1) := by
  simp only [planDecode, divUp, Option.bind_eq_bind, Option.bind_eq_some_iff, Option.some.injEq]
    at planned
  obtain ⟨Kt, isKt, maxPerCore, isMax, passes, -, rowsPerShare, -, group, -, rfl⟩ := planned
  have cores := (div_eq_some isMax).1
  refine ⟨rfl, (div_eq_some isKt).2, rfl, ?_, fun split => ?_⟩
  · apply Nat.mul_pos
    · show 0 < if config.fuseSwiglu then 2 else 1
      cases config.fuseSwiglu <;> decide
    · apply Nat.add_pos_left
      apply Nat.div_pos _ cores
      split
      · exact le_rfl
      · exact min_le_left _ _
  · rw [if_pos split] at cores
    simp only [DecodePlan.countOf, if_pos split]
    rw [Nat.div_self cores, Nat.mod_self, if_neg (Nat.lt_irrefl 0)]

theorem pageSize_le (documented : sizes.Documented) (height : Nat) (dtype : DataType) :
    pageSize sizes height dtype ≤ sizes.tileSize dtype := by
  unfold pageSize
  split
  · exact documented.fewerRows height dtype
  · exact le_rfl

theorem pageSize_raw (documented : sizes.Documented) (height : Nat) :
    pageSize sizes height .uint16 = pageSize sizes height .bfloat16 := by
  rw [pageSize, pageSize, documented.raw, documented.rawRows]

theorem pageSize_outputFormat (documented : sizes.Documented) (height : Nat)
    (outputDtype : DataType) :
    pageSize sizes height (outputFormat outputDtype config outputScales) =
      pageSize sizes height outputDtype := by
  unfold outputFormat
  dsimp only
  split
  · rename_i raw
    simp only [Bool.and_eq_true, decide_eq_true_eq] at raw
    rw [raw.1.2]
    exact pageSize_raw documented height
  · rfl

/-- Where no buffer wraps, their bytes are added. -/
theorem allocatedBytes_eq {cbs : List CircularBuffer}
    (fits : ∀ cb ∈ cbs, cb.tiles * cb.pageSize < 2 ^ 32) :
    allocatedBytes cbs = (cbs.map fun cb => cb.tiles * cb.pageSize).sum := by
  rw [allocatedBytes]
  congr 1
  apply List.map_congr_left
  intro cb member
  exact Nat.mod_eq_of_lt (fits cb member)

/-- The bytes of buffers before they are wrapped. -/
def bytesOf (cbs : List CircularBuffer) : Nat := (cbs.map fun cb => cb.tiles * cb.pageSize).sum

theorem le_bytesOf {cbs : List CircularBuffer} {cb : CircularBuffer} (member : cb ∈ cbs) :
    cb.tiles * cb.pageSize ≤ bytesOf cbs :=
  List.le_sum_of_mem (List.mem_map_of_mem member)

variable {outputDtype : DataType} {colScale : List Nat} {transposeB : Bool} {plan : DecodePlan}
  {cbs : List CircularBuffer}

theorem biasBuffers_bytes : bytesOf (biasBuffers sizes bias plan) =
    bias.elim 0 fun bias => plan.countOf 0 * sizes.tileSize bias.dtype := by
  cases bias <;> rfl

variable (sizes colScale) in
/-- A scale that is one tile has no more of them than the count. -/
theorem scaleBuffers_bytes (outputScales : Bool) (tiles : 1 ≤ plan.halves * plan.countOf 0) :
    bytesOf (scaleBuffers sizes colScale outputScales plan) ≤
      if outputScales then (1 + plan.halves * plan.countOf 0) * sizes.tileSize .float32 else 0 := by
  unfold scaleBuffers
  cases outputScales with
  | false => exact le_rfl
  | true =>
    have fewer : (if colScale.prod = 1 then 1 else plan.halves * plan.countOf 0) ≤
        plan.halves * plan.countOf 0 := by
      split
      · exact tiles
      · exact le_rfl
    have bytes := Nat.mul_le_mul_right (sizes.tileSize .float32) fewer
    simp only [if_true, bytesOf, List.map_cons, List.map_nil, List.sum_cons, List.sum_nil,
      Nat.add_mul, Nat.one_mul]
    omega

variable (sizes) in
theorem splitBuffers_bytes (split : 1 < plan.kSplits) : bytesOf (splitBuffers sizes plan) =
    sizes.tileSize .float32 + (plan.kSplits - 1) * sizes.tileSize .float32 := by
  rw [splitBuffers, if_pos split]
  simp [bytesOf]

/-- The rows of an output tile. -/
def outTileH (sizes : TileSizes) (a : Tensor) (bias : Option Tensor) (config : Config) : Nat :=
  if config.kSplits = 1 then rowsTileH sizes a bias config else 32

theorem circularBuffers_bytes (documented : sizes.Documented)
    (planned : planDecode a.paddedShape b.paddedShape transposeB config outputScales = some plan)
    (added : circularBuffers sizes a b bias colScale transposeB outputDtype config outputScales =
      some cbs) :
    bytesOf cbs = plan.Kt * pageSize sizes (rowsTileH sizes a bias config) a.dtype +
        2 * (in1Buffers * (config.in0BlockW * plan.halves * plan.group) * sizes.tileSize b.dtype) +
        plan.countOf 0 * pageSize sizes (outTileH sizes a bias config) outputDtype +
        bytesOf (biasBuffers sizes bias plan) +
        bytesOf (scaleBuffers sizes colScale outputScales plan) +
        bytesOf (splitBuffers sizes plan) := by
  rw [circularBuffers, planned, Option.map_some, Option.some.injEq] at added
  rw [← added]
  simp only [bytesOf, List.map_append, List.sum_append, List.map_cons, List.map_nil, List.sum_cons,
    List.sum_nil, pageSize_outputFormat documented, outTileH]
  omega

/-- Without a split no byte is missing. -/
theorem bytes_le_of_whole (documented : sizes.Documented) (whole : config.kSplits = 1)
    (planned : planDecode a.paddedShape b.paddedShape transposeB config outputScales = some plan)
    (added : circularBuffers sizes a b bias colScale transposeB outputDtype config outputScales =
      some cbs) :
    bytesOf cbs ≤ exactCbBytes sizes a b bias outputDtype config outputScales plan := by
  obtain ⟨isSplits, -, -, tiles, -⟩ := planDecode_split planned
  have one : plan.kSplits = 1 := isSplits.trans whole
  have unsplit : bytesOf (splitBuffers sizes plan) = 0 := by
    rw [splitBuffers, if_neg (by omega)]
    rfl
  have activation := Nat.mul_le_mul_left plan.Kt
    (pageSize_le documented (rowsTileH sizes a bias config) a.dtype)
  have output := Nat.mul_le_mul_left (plan.countOf 0)
    (pageSize_le documented (outTileH sizes a bias config) outputDtype)
  have scales := scaleBuffers_bytes sizes colScale outputScales tiles
  have weights : 2 * in1Buffers * (config.in0BlockW * plan.halves * plan.group) *
      sizes.tileSize b.dtype =
        2 * (in1Buffers * (config.in0BlockW * plan.halves * plan.group) * sizes.tileSize b.dtype) := by
    ring
  rw [circularBuffers_bytes documented planned added, unsplit, biasBuffers_bytes]
  unfold exactCbBytes
  dsimp only
  rw [weights, one, if_neg (Nat.lt_irrefl 1), Nat.sub_self, Nat.zero_mul]
  omega

/-- A split has an output tile of the output's type that is not counted. -/
theorem bytes_add_of_split (documented : sizes.Documented) (split : 1 < config.kSplits)
    (unfused : config.fuseSwiglu = false) (unbiased : bias = none)
    (planned : planDecode a.paddedShape b.paddedShape transposeB config outputScales = some plan)
    (added : circularBuffers sizes a b bias colScale transposeB outputDtype config outputScales =
      some cbs) :
    bytesOf cbs + plan.Kt * sizes.tileSize a.dtype =
      exactCbBytes sizes a b bias outputDtype config outputScales plan +
        plan.Kt * pageSize sizes (rowsTileH sizes a bias config) a.dtype +
        sizes.tileSize outputDtype := by
  obtain ⟨isSplits, -, isHalves, tiles, isOne⟩ := planDecode_split planned
  rw [unfused, if_neg (by decide)] at isHalves
  have one := isOne split
  have isSplit : 1 < plan.kSplits := isSplits.symm ▸ split
  have scales : bytesOf (scaleBuffers sizes colScale outputScales plan) =
      if outputScales then (1 + plan.halves * plan.countOf 0) * sizes.tileSize .float32 else 0 := by
    rw [scaleBuffers, isHalves, one]
    cases outputScales with
    | false => rfl
    | true =>
      simp only [if_true, ite_self, bytesOf, List.map_cons, List.map_nil, List.sum_cons,
        List.sum_nil]
      ring
  have weights : 2 * in1Buffers * (config.in0BlockW * plan.halves * plan.group) *
      sizes.tileSize b.dtype =
        2 * (in1Buffers * (config.in0BlockW * plan.halves * plan.group) * sizes.tileSize b.dtype) := by
    ring
  have whole : pageSize sizes (outTileH sizes a bias config) outputDtype =
      sizes.tileSize outputDtype := by
    rw [outTileH, if_neg (by omega)]
    rfl
  rw [circularBuffers_bytes documented planned added, splitBuffers_bytes sizes isSplit, scales, whole,
    unbiased, biasBuffers_bytes]
  unfold exactCbBytes
  dsimp only
  rw [weights, if_pos isSplit, one, Nat.one_mul, Nat.one_mul]
  omega

section

variable (documented : sizes.Documented)
  (planned : planDecode a.paddedShape b.paddedShape transposeB config outputScales = some plan)
  (accepted : Accepted device a b bias attributes config)
  (added : circularBuffers sizes a b bias colScale transposeB outputDtype config outputScales = some cbs)
  (fits : exactCbBytes sizes a b bias outputDtype config outputScales plan < 2 ^ 32)
include documented planned accepted added fits

/-- Each buffer is counted, or no larger than a tile that is. -/
theorem buffers_fit :
    ∀ cb ∈ cbs, cb.tiles * cb.pageSize < 2 ^ 32 := by
  intro cb member
  by_cases whole : config.kSplits = 1
  · exact (le_bytesOf member).trans_lt
      ((bytes_le_of_whole documented whole planned added).trans_lt fits)
  have split : 1 < config.kSplits := by
    have positive := accepted.kSplits.1
    omega
  obtain ⟨-, rfl⟩ := accepted.splitOptions split
  obtain ⟨isSplits, -, isHalves, tiles, isOne⟩ := planDecode_split planned
  have isSplit : 1 < plan.kSplits := isSplits.symm ▸ split
  have activation := Nat.mul_le_mul_left plan.Kt
    (pageSize_le documented (rowsTileH sizes a none config) a.dtype)
  have output := (pageSize_le documented (outTileH sizes a none config) outputDtype).trans
    (documented.widest outputDtype)
  have scales := scaleBuffers_bytes sizes colScale outputScales tiles
  rw [isOne split] at scales
  have partials := splitBuffers_bytes sizes isSplit
  unfold exactCbBytes at fits
  dsimp only at fits
  rw [isOne split, if_pos isSplit, Nat.one_mul, Nat.mul_assoc 2 in1Buffers] at fits
  rw [circularBuffers, planned, Option.map_some, Option.some.injEq] at added
  rw [← added] at member
  simp only [biasBuffers, List.append_nil, List.mem_append, List.mem_cons, List.not_mem_nil,
    or_false] at member
  have weights : in1Buffers * (config.in0BlockW * plan.halves * plan.group) * sizes.tileSize b.dtype
      ≤ 2 * (in1Buffers * (config.in0BlockW * plan.halves * plan.group)) *
        sizes.tileSize b.dtype := by
    rw [Nat.mul_assoc 2]
    exact Nat.le_mul_of_pos_left _ (by decide)
  rcases member with ((rfl | rfl | rfl | rfl) | isScale) | isPartial
  · dsimp only
    omega
  · dsimp only
    omega
  · dsimp only
    omega
  · dsimp only
    rw [pageSize_outputFormat documented, isOne split, Nat.one_mul]
    rw [outTileH] at output
    omega
  · have least := le_bytesOf isScale
    omega
  · have least := le_bytesOf isPartial
    omega

/-- The byte count covers what a core is given exactly where K is not split, or the smaller tiles of
its activation save an output tile. -/
theorem allocatedBytes_le_iff :
    allocatedBytes cbs ≤ exactCbBytes sizes a b bias outputDtype config outputScales plan % 2 ^ 32 ↔
      config.kSplits = 1 ∨
        plan.Kt * pageSize sizes (rowsTileH sizes a bias config) a.dtype +
          sizes.tileSize outputDtype ≤ plan.Kt * sizes.tileSize a.dtype := by
  have isSum : allocatedBytes cbs = bytesOf cbs :=
    allocatedBytes_eq (buffers_fit documented planned accepted added fits)
  rw [Nat.mod_eq_of_lt fits, isSum]
  by_cases whole : config.kSplits = 1
  · exact ⟨fun _ => .inl whole, fun _ => bytes_le_of_whole documented whole planned added⟩
  · have split : 1 < config.kSplits := by
      have positive := accepted.kSplits.1
      omega
    obtain ⟨unfused, unbiased⟩ := accepted.splitOptions split
    have total := bytes_add_of_split documented split unfused unbiased planned added
    constructor
    · intro covered
      right
      omega
    · rintro (one | saved)
      · exact absurd one whole
      · omega

end

end Libtt.MatmulDecode

import Mathlib.Tactic.Ring

/-!
# The program of a decode matmul

`plan_decode` splits the output tiles over the cores, `create_descriptor` adds the circular buffers
of every core, and `matmul_decode_cb_bytes` says beforehand how many bytes they take. Byte counts
are wrapped to 32 bits; counts of tiles are far from that.
-/
namespace Libtt.MatmulDecode

inductive DataType where
  | bfloat16
  | float32
  | bfloat8b
  | bfloat4b
  | fp8E4m3
  | fp8E5m2
  | uint16
  | uint32
  | int32
  deriving DecidableEq

inductive Layout where
  | rowMajor
  | tile
  deriving DecidableEq

/-- What the planner and the program read of a tensor. -/
structure Tensor where
  dtype : DataType
  layout : Layout
  /-- `is_dram_interleaved` of its memory config. -/
  dramInterleaved : Bool
  /-- The height and width of its tiles. -/
  tile : Nat × Nat
  logicalShape : List Nat
  paddedShape : List Nat

/-- `shape[-i]`. -/
def fromBack (shape : List Nat) (i : Nat) : Nat := shape.getD (shape.length - i) 1

/-- The number of columns of `get_matmul_tensor_padded_shape`. -/
def paddedColumns (tensor : Tensor) (transpose : Bool) : Nat :=
  fromBack tensor.paddedShape (if transpose then 2 else 1)

/-- Sizes of tiles in bytes, by the type of their elements: of whole ones, and of those with fewer
rows. -/
structure TileSizes where
  tileSize : DataType → Nat
  getTileSize : Nat → DataType → Nat
  elementSize : DataType → Nat

/-- What the program relies on. -/
structure TileSizes.Documented (sizes : TileSizes) : Prop where
  fewerRows (height : Nat) (dtype : DataType) : sizes.getTileSize height dtype ≤ sizes.tileSize dtype
  widest (dtype : DataType) : sizes.tileSize dtype ≤ sizes.tileSize .float32
  raw : sizes.tileSize .uint16 = sizes.tileSize .bfloat16
  rawRows (height : Nat) : sizes.getTileSize height .uint16 = sizes.getTileSize height .bfloat16

/-- `MatmulDecodeProgramConfig`. -/
structure Config where
  gridX : Nat
  gridY : Nat
  in0BlockW : Nat
  fuseSwiglu : Bool
  exactSwiglu : Bool := false
  kSplits : Nat := 1

/-- `MatmulParams`, where an option that the decode program does not support is whether it is set. -/
structure MatmulParams where
  transposeA : Bool := false
  transposeB : Bool := false
  untilizeOut : Bool := false
  userFusedActivation : Bool := false
  globalCb : Bool := false
  prefetcherPipes : Bool := false
  in0ColumnOffset : Bool := false
  subDeviceId : Bool := false
  userCoreCoord : Bool := false
  outputTile : Option (Nat × Nat) := none
  outputDtype : Option DataType := none
  outputDramInterleaved : Bool := true
  outputScales : Bool := false

/-- A division, which has no result by zero. -/
def div (a b : Nat) : Option Nat := if b = 0 then none else some (a / b)

/-- `tt::div_up`. -/
def divUp (a b : Nat) : Option Nat := div (a + b - 1) b

structure DecodePlan where
  Kt : Nat
  KtTotal : Nat
  kSplits : Nat
  rowsPerShare : Nat
  halves : Nat
  outNt : Nat
  numCores : Nat
  group : Nat
  in0McastW : Nat
  baseCount : Nat
  extra : Nat
  nStep : Nat

def DecodePlan.countOf (plan : DecodePlan) (core : Nat) : Nat :=
  plan.baseCount + if core < plan.extra then 1 else 0

/-- `plan_decode`, which has no result where the source divides by zero. -/
def planDecode (aPaddedShape bPaddedShape : List Nat) (transposeB : Bool) (config : Config)
    (outputScales : Bool) : Option DecodePlan := do
  let KtTotal := fromBack aPaddedShape 1 / 32
  let kSplits := config.kSplits
  let Kt ← div KtTotal kSplits
  let halves := if config.fuseSwiglu then 2 else 1
  let outNt := fromBack bPaddedShape (if transposeB then 2 else 1) / 32 / halves
  let numWorkerCores := config.gridX * config.gridY
  let maxGroup := (if outputScales then 7 else 8) / halves
  let numCores := if 1 < kSplits then outNt else min outNt numWorkerCores
  let maxPerCore ← divUp outNt numCores
  let passes ← divUp maxPerCore maxGroup
  let rowsPerShare ← divUp numCores config.gridX
  let group ← divUp maxPerCore passes
  some
    { Kt, KtTotal, kSplits, rowsPerShare, halves, outNt, numCores, group
      -- the loop that halves eight until it divides `Kt`
      in0McastW := ([8, 4, 2].find? fun width => Kt % width == 0).getD 1
      baseCount := outNt / numCores
      extra := outNt % numCores
      nStep := if config.exactSwiglu then numCores else 1 }

def in1Buffers : Nat := 2

/-- The sum of `matmul_decode_cb_bytes`, as it is without wrapping. -/
def exactCbBytes (sizes : TileSizes) (a b : Tensor) (bias : Option Tensor) (outputDtype : DataType)
    (config : Config) (outputScales : Bool) (plan : DecodePlan) : Nat :=
  let weightBlockTiles := config.in0BlockW * plan.halves * plan.group
  let outTileBytes := if 1 < plan.kSplits then sizes.tileSize .float32 else sizes.tileSize outputDtype
  plan.Kt * sizes.tileSize a.dtype +
    2 * in1Buffers * weightBlockTiles * sizes.tileSize b.dtype +
    plan.countOf 0 * outTileBytes +
    (plan.kSplits - 1) * sizes.tileSize .float32 +
    (bias.elim 0 fun bias => plan.countOf 0 * sizes.tileSize bias.dtype) +
    if outputScales then (1 + plan.halves * plan.countOf 0) * sizes.tileSize .float32 else 0

/-- `matmul_decode_cb_bytes`. -/
def matmulDecodeCbBytes (sizes : TileSizes) (a b : Tensor) (bias : Option Tensor)
    (transposeB : Bool) (outputDtype : DataType) (config : Config) (outputScales : Bool) :
    Option Nat :=
  (planDecode a.paddedShape b.paddedShape transposeB config outputScales).map fun plan =>
    exactCbBytes sizes a b bias outputDtype config outputScales plan % 2 ^ 32

/-- A circular buffer of every core of the program. -/
structure CircularBuffer where
  index : Nat
  tiles : Nat
  pageSize : Nat

def CircularBuffer.totalSize (cb : CircularBuffer) : Nat := cb.tiles * cb.pageSize % 2 ^ 32

/-- `rows_tile_h`: the rows of the tiles that an activation travels in. -/
def rowsTileH (sizes : TileSizes) (a : Tensor) (bias : Option Tensor) (config : Config) : Nat :=
  let aRows := a.logicalShape.prod / fromBack a.logicalShape 1
  if (!config.fuseSwiglu || config.exactSwiglu) && bias.isNone then
    ([2, 4, 8, 16].find? fun h => aRows ≤ h && 64 ≤ h * 16 * sizes.elementSize a.dtype).getD 32
  else 32

/-- `page_size` of `add_cb`, for a tile of some rows. -/
def pageSize (sizes : TileSizes) (height : Nat) (dtype : DataType) : Nat :=
  if height < 32 then sizes.getTileSize height dtype else sizes.tileSize dtype

/-- The buffers of one kind of input of `create_descriptor`: the bias, the scales and the partial
sums of a split. -/
def biasBuffers (sizes : TileSizes) (bias : Option Tensor) (plan : DecodePlan) :
    List CircularBuffer :=
  match bias with
  | some bias => [⟨3, plan.countOf 0, sizes.tileSize bias.dtype⟩]
  | none => []

def scaleBuffers (sizes : TileSizes) (colScale : List Nat) (outputScales : Bool)
    (plan : DecodePlan) : List CircularBuffer :=
  let colScalar := colScale.prod = 1
  if outputScales then
    [⟨6, 1, sizes.tileSize .float32⟩,
      ⟨7, if colScalar then 1 else plan.halves * plan.countOf 0, sizes.tileSize .float32⟩]
  else []

def splitBuffers (sizes : TileSizes) (plan : DecodePlan) : List CircularBuffer :=
  if 1 < plan.kSplits then
    [⟨5, 1, sizes.tileSize .float32⟩, ⟨4, plan.kSplits - 1, sizes.tileSize .float32⟩]
  else []

/-- The format of the output's buffer. -/
def outputFormat (outputDtype : DataType) (config : Config) (outputScales : Bool) : DataType :=
  let rawBf16Output := outputScales && outputDtype = .bfloat16 && !config.fuseSwiglu
  if rawBf16Output then .uint16 else outputDtype

/-- The circular buffers that `create_descriptor` adds, all of them to all cores. `colScale` is the
logical shape of the column scales. -/
def circularBuffers (sizes : TileSizes) (a b : Tensor) (bias : Option Tensor) (colScale : List Nat)
    (transposeB : Bool) (outputDtype : DataType) (config : Config) (outputScales : Bool) :
    Option (List CircularBuffer) :=
  (planDecode a.paddedShape b.paddedShape transposeB config outputScales).map fun plan =>
    let rowsTileH := rowsTileH sizes a bias config
    let outTileH := if config.kSplits = 1 then rowsTileH else 32
    let in1BlockNumTiles := config.in0BlockW * plan.halves * plan.group
    [⟨0, plan.Kt, pageSize sizes rowsTileH a.dtype⟩,
      ⟨1, in1Buffers * in1BlockNumTiles, sizes.tileSize b.dtype⟩,
      ⟨2, in1Buffers * in1BlockNumTiles, sizes.tileSize b.dtype⟩,
      ⟨16, plan.countOf 0,
        pageSize sizes outTileH (outputFormat outputDtype config outputScales)⟩] ++
      biasBuffers sizes bias plan ++ scaleBuffers sizes colScale outputScales plan ++
      splitBuffers sizes plan

/-- The bytes of the circular buffers of a core. -/
def allocatedBytes (cbs : List CircularBuffer) : Nat := (cbs.map CircularBuffer.totalSize).sum

end Libtt.MatmulDecode

/-! ## Which decode matmuls are planned -/
namespace Libtt.MatmulDecode

/-- What there is against a decode program, with the numbers of its message. -/
inductive Unsupported where
  | grid (x y deviceX deviceY : Nat)
  | tileShape
  | options
  | subDevice
  | inputA (dtype : DataType) (layout : Layout)
  | notOneTileRow (paddedShape : List Nat)
  | raggedK (logicalK : Nat)
  | inputB (layout : Layout)
  | notOneMatrix (paddedShape : List Nat)
  | raggedKOfB (logicalK : Nat)
  | kSplits (Kt kSplits : Nat)
  | blockW (share in0BlockW : Nat)
  | gridRows (outNt kSplits rows available : Nat)
  | splitOptions
  | output (dtype : DataType)
  | raggedSwiglu (logicalN : Nat)
  | swigluBias
  | bias (dtype : DataType) (layout : Layout)
  | tooManyBytes (bytes available : Nat)
  deriving DecidableEq

/-- The device that a matmul runs on. -/
structure Device where
  gridX : Nat
  gridY : Nat
  /-- `get_max_l1_space`. -/
  maxL1Space : Nat
  dramBanks : Nat

variable (device : Device) (a b : Tensor) (bias : Option Tensor) (attributes : MatmulParams)
  (config : Config)

/-- The checks before that of the bytes, in order, each with what is said where it fails. The later
ones only matter where the earlier ones do not fail, so that none divides by zero. -/
def checks : List (Bool × Unsupported) :=
  let K := paddedColumns a attributes.transposeA
  let N := paddedColumns b attributes.transposeB
  let Kt := K / 32
  let rowsPerShare := (N / 32 + config.gridX - 1) / config.gridX
  let outputDtype := attributes.outputDtype.getD a.dtype
  let bLogicalK := fromBack b.logicalShape (if attributes.transposeB then 1 else 2)
  let bLogicalN := fromBack b.logicalShape (if attributes.transposeB then 2 else 1)
  let biasChecks : List (Bool × Unsupported) :=
    match bias with
    | some bias =>
      [((bias.dtype ≠ .bfloat16 ∧ bias.dtype ≠ .float32) ∨ bias.layout ≠ .tile ∨
        !bias.dramInterleaved, .bias bias.dtype bias.layout)]
    | none => []
  List.append
  [(config.gridX = 0 ∨ config.gridY = 0 ∨ device.gridX < config.gridX ∨ device.gridY < config.gridY,
      .grid config.gridX config.gridY device.gridX device.gridY),
    (a.tile ≠ (32, 32) ∨ b.tile ≠ (32, 32) ∨ attributes.outputTile.getD (32, 32) ≠ (32, 32),
      .tileShape),
    (attributes.transposeA ∨ attributes.untilizeOut ∨ attributes.userFusedActivation ∨
      attributes.globalCb ∨ attributes.prefetcherPipes ∨ attributes.in0ColumnOffset, .options),
    (attributes.subDeviceId, .subDevice),
    ((a.dtype ≠ .bfloat16 ∧ a.dtype ≠ .fp8E4m3 ∧ a.dtype ≠ .fp8E5m2) ∨ a.layout ≠ .tile ∨
      !a.dramInterleaved, .inputA a.dtype a.layout),
    (a.paddedShape.prod ≠ 32 * K, .notOneTileRow a.paddedShape),
    (fromBack a.logicalShape 1 % 32 ≠ 0, .raggedK (fromBack a.logicalShape 1)),
    (b.layout ≠ .tile ∨ !b.dramInterleaved, .inputB b.layout),
    (b.paddedShape.prod ≠ K * N, .notOneMatrix b.paddedShape),
    (bLogicalK % 32 ≠ 0, .raggedKOfB bLogicalK),
    (config.kSplits = 0 ∨ Kt % config.kSplits ≠ 0, .kSplits Kt config.kSplits),
    (config.in0BlockW = 0 ∨ Kt / config.kSplits % config.in0BlockW ≠ 0,
      .blockW (Kt / config.kSplits) config.in0BlockW),
    (1 < config.kSplits ∧ config.gridY < rowsPerShare * config.kSplits,
      .gridRows (N / 32) config.kSplits (rowsPerShare * config.kSplits) config.gridY),
    (1 < config.kSplits ∧ (config.fuseSwiglu ∨ bias.isSome), .splitOptions),
    ((outputDtype ≠ .bfloat16 ∧ outputDtype ≠ .float32) ∨ !attributes.outputDramInterleaved,
      .output outputDtype),
    (config.fuseSwiglu ∧ bLogicalN % 64 ≠ 0, .raggedSwiglu bLogicalN),
    (config.fuseSwiglu ∧ bias.isSome, .swigluBias)] biasChecks

/-- `matmul_decode_unsupported_reason`, which has no result where the byte count divides by zero. -/
def unsupportedReason (sizes : TileSizes) : Option (Option Unsupported) :=
  match (checks device a b bias attributes config).find? (·.1) with
  | some (_, reason) => some (some reason)
  | none =>
    (matmulDecodeCbBytes sizes a b bias attributes.transposeB (attributes.outputDtype.getD a.dtype)
      config attributes.outputScales).map fun bytes =>
        if device.maxL1Space < bytes then some (.tooManyBytes bytes device.maxL1Space) else none

/-- `create_matmul_decode_program_config`. -/
def createMatmulDecodeProgramConfig (fuseSwiglu : Bool) : Config :=
  let Kt := paddedColumns a false / a.tile.2
  { gridX := device.gridX, gridY := device.gridY, in0BlockW := if Kt % 2 = 0 then 2 else 1
    fuseSwiglu }

/-- The loop over the widths of a weight block: the last one that fits stays. -/
def fittingBlockW (Kt group in0BlockW : Nat) : Nat :=
  (List.range' 1 Kt).foldl (fun in0BlockW w =>
    if Kt % w = 0 ∧ w * group ≤ 16 ∧ (group * Kt < 16 ∨ 4 ≤ Kt / w) then w else in0BlockW) in0BlockW

/-- The config of `get_program_config` for the decode program without a split; none where the source
divides by zero. -/
def proposeDecode : Option Config := do
  let config := createMatmulDecodeProgramConfig device a false
  let outNt := paddedColumns b attributes.transposeB / 32
  let workerCores := device.gridX * device.gridY
  let Kt := paddedColumns a false / 32
  let perCore ← divUp outNt (max 1 (min outNt workerCores))
  let passes ← divUp perCore 8
  let group ← divUp perCore passes
  let in0BlockW := fittingBlockW Kt group config.in0BlockW
  let banks := device.dramBanks
  let in0BlockW :=
    if attributes.transposeB ∧ in0BlockW < banks ∧ Kt % banks = 0 then banks else in0BlockW
  some { config with in0BlockW }

/-- A loop that counts down to a divisor, from `start`. -/
def countDown (number : Nat) : Nat → Nat
  | 0 => 0
  | start + 1 => if number % (start + 1) = 0 then start + 1 else countDown number start

/-- `create_matmul_decode_split_k_program_config`; none where the source divides by zero. -/
def createMatmulDecodeSplitKProgramConfig : Option (Option Config) := do
  let minShareTiles := 4
  let maxSplits := 5
  let Kt := paddedColumns a false / 32
  let outNt := paddedColumns b attributes.transposeB / 32
  if outNt = 0 ∨ Kt < 2 * minShareTiles then some none
  else
    let rowsPerShare ← divUp outNt device.gridX
    let rows ← div device.gridY rowsPerShare
    let kSplits := countDown Kt (min (min rows (Kt / minShareTiles)) maxSplits)
    if kSplits < 2 then some none
    else
      let share := Kt / kSplits
      let in0BlockW := countDown share (if share < 64 then share else 16)
      some (some
        { gridX := device.gridX, gridY := device.gridY, in0BlockW, fuseSwiglu := false, kSplits })

/-- A BF16 output, or float8 activations. -/
def bf16Output : Bool :=
  attributes.outputDtype.getD a.dtype = .bfloat16 ∨ a.dtype = .fp8E4m3 ∨ a.dtype = .fp8E5m2

/-- The decode program has enough output tiles, and there is nothing against it. -/
def takesDecode (sizes : TileSizes) (decodeConfig : Config) : Option Bool :=
  let outNt := paddedColumns b attributes.transposeB / 32
  let workerCores := device.gridX * device.gridY
  if workerCores ≤ if bf16Output a attributes then 2 * outNt else outNt then
    (unsupportedReason device a b bias attributes decodeConfig sizes).map Option.isNone
  else some false

/-- The split that there is nothing against. -/
def takenSplit (sizes : TileSizes) : Option (Option Config) :=
  (createMatmulDecodeSplitKProgramConfig device a b attributes).bind fun splitConfig =>
    match splitConfig with
    | none => some none
    | some splitConfig =>
      (unsupportedReason device a b bias attributes splitConfig sizes).map fun reason =>
        if reason.isNone then some splitConfig else none

/-- The decode config that `get_program_config` returns where the caller gives none, if any; none
where the source divides by zero. -/
def getProgramConfig (sizes : TileSizes) : Option (Option Config) :=
  if attributes.userCoreCoord then some none
  else (proposeDecode device a b attributes).bind fun decodeConfig =>
    (takesDecode device a b bias attributes sizes decodeConfig).bind fun taken =>
      if taken then some (some decodeConfig)
      else if bf16Output a attributes then takenSplit device a b bias attributes sizes
      else some none

/-- What the check tests of a config for a weight, with none of its divisions by zero. -/
structure Suitable (Kt outNt : Nat) : Prop where
  gridX : 0 < config.gridX ∧ config.gridX ≤ device.gridX
  gridY : 0 < config.gridY ∧ config.gridY ≤ device.gridY
  kSplits : 0 < config.kSplits ∧ config.kSplits ∣ Kt
  in0BlockW : 0 < config.in0BlockW ∧ config.in0BlockW ∣ Kt / config.kSplits
  gridRows : 1 < config.kSplits →
    (outNt + config.gridX - 1) / config.gridX * config.kSplits ≤ config.gridY

end Libtt.MatmulDecode

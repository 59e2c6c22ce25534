import Libtt.MatmulDecode.BytesCorrect

/-!
# What the planner proposes

The configs divide K and fit the grid; a division by zero is left only where a weight has less than
a tile's width of columns.
-/
namespace Libtt.MatmulDecode

variable {sizes : TileSizes} {device : Device} {a b : Tensor} {bias : Option Tensor}
  {attributes : MatmulParams} {config : Config} {outputScales : Bool}

theorem countDown_spec (number : Nat) {start : Nat} (positive : 0 < start) :
    0 < countDown number start ∧ countDown number start ∣ number ∧
      countDown number start ≤ start := by
  induction start with
  | zero => cases positive
  | succ start ih =>
    rw [countDown]
    split
    · rename_i divides
      exact ⟨Nat.succ_pos _, Nat.dvd_of_mod_eq_zero divides, le_rfl⟩
    · rename_i noDivisor
      have more : 0 < start := by
        rcases Nat.eq_zero_or_pos start with rfl | more
        · exact absurd (Nat.mod_one number) noDivisor
        · exact more
      obtain ⟨least, divides, most⟩ := ih more
      exact ⟨least, divides, most.trans (Nat.le_succ _)⟩

theorem fittingBlockW_spec (group : Nat) {Kt start : Nat} (positive : 0 < start)
    (divides : start ∣ Kt) :
    0 < fittingBlockW Kt group start ∧ fittingBlockW Kt group start ∣ Kt := by
  have loop (widths : List Nat) (start : Nat) (some : 0 < start ∧ start ∣ Kt)
      (all : ∀ w ∈ widths, 0 < w) :
      0 < widths.foldl (fun in0BlockW w => if Kt % w = 0 ∧ w * group ≤ 16 ∧
          (group * Kt < 16 ∨ 4 ≤ Kt / w) then w else in0BlockW) start ∧
        widths.foldl (fun in0BlockW w => if Kt % w = 0 ∧ w * group ≤ 16 ∧
          (group * Kt < 16 ∨ 4 ≤ Kt / w) then w else in0BlockW) start ∣ Kt := by
    induction widths generalizing start with
    | nil => exact some
    | cons w widths ih =>
      apply ih
      · dsimp only
        split
        · rename_i fits
          exact ⟨all w (by simp), Nat.dvd_of_mod_eq_zero fits.1⟩
        · exact some
      · intro other member
        exact all other (by simp [member])
  apply loop
  · exact ⟨positive, divides⟩
  · intro w member
    exact (List.mem_range'_1.mp member).1

theorem divUp_pos {x y : Nat} (some : 0 < x) (positive : 0 < y) :
    ∃ quotient, divUp x y = .some quotient ∧ 0 < quotient := by
  refine ⟨(x + y - 1) / y, ?_, ?_⟩
  · exact if_neg positive.ne'
  · apply Nat.div_pos _ positive
    omega

/-- A config without SwiGLU is planned for a weight that has columns. -/
theorem planDecode_isSome {aPadded bPadded : List Nat} {transposeB : Bool}
    (unfused : config.fuseSwiglu = false) (splits : 0 < config.kSplits)
    (gridX : 0 < config.gridX) (gridY : 0 < config.gridY)
    (columns : 0 < fromBack bPadded (if transposeB then 2 else 1) / 32) :
    (planDecode aPadded bPadded transposeB config outputScales).isSome = true := by
  have whole : div (fromBack aPadded 1 / 32) config.kSplits =
      some (fromBack aPadded 1 / 32 / config.kSplits) := if_neg splits.ne'
  have cores : 0 < if 1 < config.kSplits then fromBack bPadded (if transposeB then 2 else 1) / 32 / 1
      else min (fromBack bPadded (if transposeB then 2 else 1) / 32 / 1)
        (config.gridX * config.gridY) := by
    rw [Nat.div_one]
    split
    · exact columns
    · exact lt_min columns (Nat.mul_pos gridX gridY)
  have groups : 0 < (if outputScales then 7 else 8) / 1 := by
    cases outputScales <;> decide
  have tiles : 0 < fromBack bPadded (if transposeB then 2 else 1) / 32 / 1 := by
    rwa [Nat.div_one]
  obtain ⟨maxPerCore, isMax, someTiles⟩ := divUp_pos tiles cores
  obtain ⟨passes, isPasses, somePasses⟩ := divUp_pos someTiles groups
  obtain ⟨rowsPerShare, isRows, -⟩ := divUp_pos cores gridX
  obtain ⟨group, isGroup, -⟩ := divUp_pos someTiles somePasses
  simp only [planDecode, unfused, Bool.false_eq_true, if_false, whole, isMax, isPasses, isRows,
    isGroup, Option.bind_eq_bind, Option.bind_some, Option.isSome_some]

variable (device a bias sizes) in
theorem unsupportedReason_isSome (unfused : config.fuseSwiglu = false)
    (splits : 0 < config.kSplits) (gridX : 0 < config.gridX) (gridY : 0 < config.gridY)
    (columns : 0 < paddedColumns b attributes.transposeB / 32) :
    ∃ reason, unsupportedReason device a b bias attributes config sizes = some reason := by
  unfold unsupportedReason
  split
  · exact ⟨_, rfl⟩
  · have planned : (planDecode a.paddedShape b.paddedShape attributes.transposeB config
        attributes.outputScales).isSome = true :=
      planDecode_isSome unfused splits gridX gridY columns
    obtain ⟨plan, isPlan⟩ := Option.isSome_iff_exists.mp planned
    rw [matmulDecodeCbBytes, isPlan]
    exact ⟨_, rfl⟩

theorem Accepted.suitable (accepted : Accepted device a b bias attributes config) :
    Suitable device config (paddedColumns a false / 32)
      (paddedColumns b attributes.transposeB / 32) :=
  ⟨accepted.gridX, accepted.gridY, accepted.kSplits, accepted.in0BlockW, accepted.gridRows⟩

variable (device a b attributes) in
/-- Only a weight without a whole tile of columns is divided by zero for. -/
theorem proposeDecode_spec : (proposeDecode device a b attributes = none ∧
      paddedColumns b attributes.transposeB / 32 = 0) ∨
    0 < paddedColumns b attributes.transposeB / 32 ∧ ∃ group config,
      proposeDecode device a b attributes = some config ∧ config.gridX = device.gridX ∧
        config.gridY = device.gridY ∧ config.fuseSwiglu = false ∧ config.kSplits = 1 ∧
        config.in0BlockW =
          (let in0BlockW := fittingBlockW (paddedColumns a false / 32) group
            (createMatmulDecodeProgramConfig device a false).in0BlockW
          if attributes.transposeB ∧ in0BlockW < device.dramBanks ∧
            paddedColumns a false / 32 % device.dramBanks = 0 then device.dramBanks
          else in0BlockW) := by
  have cores : 0 < max 1 (min (paddedColumns b attributes.transposeB / 32)
      (device.gridX * device.gridY)) := lt_max_of_lt_left Nat.one_pos
  rcases Nat.eq_zero_or_pos (paddedColumns b attributes.transposeB / 32) with empty | columns
  · left
    refine ⟨?_, empty⟩
    have perCore : divUp 0 (max 1 (min 0 (device.gridX * device.gridY))) = some 0 := by
      rw [Nat.zero_min]
      rfl
    simp only [proposeDecode, empty, perCore, Option.bind_eq_bind, Option.bind_some]
    rfl
  · right
    obtain ⟨perCore, isPerCore, some⟩ := divUp_pos columns cores
    obtain ⟨passes, isPasses, somePasses⟩ := divUp_pos some (by decide : 0 < 8)
    obtain ⟨group, isGroup, -⟩ := divUp_pos some somePasses
    refine ⟨columns, group, ?_⟩
    simp only [proposeDecode, isPerCore, isPasses, isGroup, Option.bind_eq_bind, Option.bind_some]
    exact ⟨_, rfl, rfl, rfl, rfl, rfl, rfl⟩

theorem proposeDecode_suitable (gridX : 0 < device.gridX) (gridY : 0 < device.gridY)
    (wholeTile : a.tile = (32, 32)) (proposed : proposeDecode device a b attributes = some config) :
    Suitable device config (paddedColumns a false / 32)
      (paddedColumns b attributes.transposeB / 32) := by
  rcases proposeDecode_spec device a b attributes with
    ⟨none, -⟩ | ⟨-, group, config', isConfig, isX, isY, -, isSplits, isBlockW⟩
  · rw [none] at proposed
    cases proposed
  obtain rfl := Option.some.inj (isConfig.symm.trans proposed)
  have start : 0 < (createMatmulDecodeProgramConfig device a false).in0BlockW ∧
      (createMatmulDecodeProgramConfig device a false).in0BlockW ∣ paddedColumns a false / 32 := by
    rw [createMatmulDecodeProgramConfig, wholeTile]
    dsimp only
    split
    · rename_i even
      exact ⟨by decide, Nat.dvd_of_mod_eq_zero even⟩
    · exact ⟨by decide, one_dvd _⟩
  obtain ⟨positive, divides⟩ := fittingBlockW_spec group start.1 start.2
  have blockW : 0 < config'.in0BlockW ∧ config'.in0BlockW ∣ paddedColumns a false / 32 := by
    rw [isBlockW]
    dsimp only
    split
    · rename_i banks
      exact ⟨positive.trans banks.2.1, Nat.dvd_of_mod_eq_zero banks.2.2⟩
    · exact ⟨positive, divides⟩
  constructor
  · rw [isX]
    exact ⟨gridX, le_rfl⟩
  · rw [isY]
    exact ⟨gridY, le_rfl⟩
  · exact isSplits ▸ ⟨Nat.one_pos, one_dvd _⟩
  · rw [isSplits, Nat.div_one]
    exact blockW
  · intro split
    omega

variable (a b attributes) in
/-- The split never divides by zero, and its shares fit the grid. -/
theorem splitK_spec (gridX : 0 < device.gridX) (gridY : 0 < device.gridY) :
    createMatmulDecodeSplitKProgramConfig device a b attributes = some none ∨
    ∃ config, createMatmulDecodeSplitKProgramConfig device a b attributes = some (some config) ∧
      config.fuseSwiglu = false ∧ Suitable device config (paddedColumns a false / 32)
        (paddedColumns b attributes.transposeB / 32) := by
  by_cases few : paddedColumns b attributes.transposeB / 32 = 0 ∨ paddedColumns a false / 32 < 2 * 4
  · left
    simp only [createMatmulDecodeSplitKProgramConfig, if_pos few]
  rw [not_or, not_lt] at few
  obtain ⟨rowsPerShare, isRows, some⟩ := divUp_pos (Nat.pos_of_ne_zero few.1) gridX
  have isQuotient := (div_eq_some isRows).2
  have isShares : div device.gridY rowsPerShare = .some (device.gridY / rowsPerShare) :=
    if_neg some.ne'
  by_cases whole : countDown (paddedColumns a false / 32)
      (min (min (device.gridY / rowsPerShare) (paddedColumns a false / 32 / 4)) 5) < 2
  · left
    simp only [createMatmulDecodeSplitKProgramConfig, if_neg (not_or.mpr ⟨few.1, not_lt.mpr few.2⟩),
      isRows, isShares, Option.bind_eq_bind, Option.bind_some, if_pos whole]
  right
  refine ⟨{ gridX := device.gridX, gridY := device.gridY, fuseSwiglu := false
            in0BlockW := ?width, kSplits := ?splits }, ?_, rfl, ?_⟩
  rotate_left 2
  · simp only [createMatmulDecodeSplitKProgramConfig,
      if_neg (not_or.mpr ⟨few.1, not_lt.mpr few.2⟩), isRows, isShares, Option.bind_eq_bind,
      Option.bind_some, if_neg whole]
    rfl
  · have start : 0 < min (min (device.gridY / rowsPerShare) (paddedColumns a false / 32 / 4)) 5 := by
      rcases Nat.eq_zero_or_pos
        (min (min (device.gridY / rowsPerShare) (paddedColumns a false / 32 / 4)) 5) with zero | more
      · rw [zero] at whole
        exact absurd Nat.two_pos whole
      · exact more
    obtain ⟨positive, divides, most⟩ := countDown_spec (paddedColumns a false / 32) start
    generalize countDown (paddedColumns a false / 32)
      (min (min (device.gridY / rowsPerShare) (paddedColumns a false / 32 / 4)) 5) = kSplits at *
    have share : 0 < paddedColumns a false / 32 / kSplits :=
      Nat.div_pos (Nat.le_of_dvd (by omega) divides) positive
    have width : 0 < if paddedColumns a false / 32 / kSplits < 64 then
        paddedColumns a false / 32 / kSplits else 16 := by
      split
      · exact share
      · decide
    obtain ⟨blockPositive, blockDivides, -⟩ :=
      countDown_spec (paddedColumns a false / 32 / kSplits) width
    constructor
    · exact ⟨gridX, le_rfl⟩
    · exact ⟨gridY, le_rfl⟩
    · exact ⟨positive, divides⟩
    · exact ⟨blockPositive, blockDivides⟩
    · intro _
      rw [← isQuotient]
      calc rowsPerShare * kSplits ≤ rowsPerShare * (device.gridY / rowsPerShare) :=
            Nat.mul_le_mul_left _ (most.trans ((min_le_left _ _).trans (min_le_left _ _)))
        _ ≤ device.gridY := Nat.mul_div_le _ _

theorem getProgramConfig_suitable
    (returned : getProgramConfig device a b bias attributes sizes = some (some config)) :
    Suitable device config (paddedColumns a false / 32)
      (paddedColumns b attributes.transposeB / 32) := by
  have accepted {other : Config} {reason : Option Unsupported}
      (known : unsupportedReason device a b bias attributes other sizes = some reason)
      (nothing : reason.isNone = true) : Suitable device other (paddedColumns a false / 32)
        (paddedColumns b attributes.transposeB / 32) := by
    rw [Option.isNone_iff_eq_none.mp nothing] at known
    exact (accepted_of_unsupportedReason known).suitable
  unfold getProgramConfig at returned
  split at returned
  · cases returned
  simp only [Option.bind_eq_some_iff] at returned
  obtain ⟨decodeConfig, -, taken, isTaken, rest⟩ := returned
  split at rest
  · rename_i isDecode
    rw [isDecode, takesDecode] at isTaken
    generalize (if bf16Output a attributes then _ else _ : Nat) = tiles at isTaken
    split at isTaken
    · obtain ⟨reason, known, nothing⟩ := Option.map_eq_some_iff.mp isTaken
      rw [← Option.some.inj (Option.some.inj rest)]
      exact accepted known nothing
    · cases isTaken
  · split at rest
    · obtain ⟨splitConfig, -, chosen⟩ := Option.bind_eq_some_iff.mp rest
      cases splitConfig with
      | none => cases chosen
      | some splitConfig =>
        obtain ⟨reason, known, isConfig⟩ := Option.map_eq_some_iff.mp chosen
        split at isConfig
        · rename_i nothing
          rw [← Option.some.inj isConfig]
          exact accepted known nothing
        · cases isConfig
    · cases rest

variable (a bias sizes) in
theorem takenSplit_isSome (gridX : 0 < device.gridX) (gridY : 0 < device.gridY)
    (columns : 0 < paddedColumns b attributes.transposeB / 32) :
    ∃ taken, takenSplit device a b bias attributes sizes = some taken := by
  rcases splitK_spec a b attributes gridX gridY with
    none | ⟨split, isSplit, unfused, suitable⟩
  · rw [takenSplit, none]
    exact ⟨_, rfl⟩
  · obtain ⟨reason, isReason⟩ := unsupportedReason_isSome sizes device a bias unfused
      suitable.kSplits.1 suitable.gridX.1 suitable.gridY.1 columns
    rw [takenSplit, isSplit, Option.bind_some]
    simp only [isReason, Option.map_some]
    exact ⟨_, rfl⟩

theorem getProgramConfig_none_iff (gridX : 0 < device.gridX) (gridY : 0 < device.gridY)
    (free : attributes.userCoreCoord = false) :
    getProgramConfig device a b bias attributes sizes = none ↔
      paddedColumns b attributes.transposeB / 32 = 0 := by
  rcases proposeDecode_spec device a b attributes with
    ⟨isNone, empty⟩ | ⟨columns, group, config, isConfig, isX, isY, unfused, isSplits, -⟩
  · refine ⟨fun _ => empty, fun _ => ?_⟩
    simp only [getProgramConfig, free, Bool.false_eq_true, if_false, isNone, Option.bind_none]
  · refine ⟨fun returned => ?_, fun empty => by omega⟩
    obtain ⟨reason, isReason⟩ := unsupportedReason_isSome sizes device a bias unfused
      (isSplits ▸ Nat.one_pos) (isX ▸ gridX) (isY ▸ gridY) columns
    have isTaken : ∃ taken,
        takesDecode device a b bias attributes sizes config = some taken := by
      simp only [takesDecode, isReason, Option.map_some]
      generalize (if bf16Output a attributes then _ else _ : Nat) = tiles
      split
      · exact ⟨_, rfl⟩
      · exact ⟨_, rfl⟩
    obtain ⟨taken, isTaken⟩ := isTaken
    obtain ⟨split, isSplit⟩ := takenSplit_isSome sizes a bias gridX gridY columns
    simp only [getProgramConfig, free, Bool.false_eq_true, if_false, isConfig, isTaken, isSplit,
      Option.bind_some] at returned
    split at returned
    · cases returned
    · split at returned
      · cases returned
      · cases returned

/-- The byte count covers the circular buffers of a config that there is nothing against, exactly
where K is not split or the smaller tiles of the activation save an output tile; the configs that
are proposed suit the weight, and there is one to try exactly where the weight has a whole tile of
columns. -/
theorem decode_l1_check (documented : sizes.Documented) :
    (∀ (device : Device) (a b : Tensor) (bias : Option Tensor) (attributes : MatmulParams)
        (config : Config) (colScale : List Nat) (plan : DecodePlan) (cbs : List CircularBuffer)
        (bytes : Nat),
      unsupportedReason device a b bias attributes config sizes = some none →
      planDecode a.paddedShape b.paddedShape attributes.transposeB config attributes.outputScales =
        some plan →
      circularBuffers sizes a b bias colScale attributes.transposeB
        (attributes.outputDtype.getD a.dtype) config attributes.outputScales = some cbs →
      matmulDecodeCbBytes sizes a b bias attributes.transposeB
        (attributes.outputDtype.getD a.dtype) config attributes.outputScales = some bytes →
      exactCbBytes sizes a b bias (attributes.outputDtype.getD a.dtype) config
        attributes.outputScales plan < 2 ^ 32 →
      (allocatedBytes cbs ≤ bytes ↔ config.kSplits = 1 ∨
        paddedColumns a false / 32 / config.kSplits *
            pageSize sizes (rowsTileH sizes a bias config) a.dtype +
          sizes.tileSize (attributes.outputDtype.getD a.dtype) ≤
        paddedColumns a false / 32 / config.kSplits * sizes.tileSize a.dtype)) ∧
    ∀ (device : Device) (a b : Tensor) (bias : Option Tensor) (attributes : MatmulParams),
      0 < device.gridX → 0 < device.gridY →
      (attributes.userCoreCoord = false →
        (getProgramConfig device a b bias attributes sizes ≠ none ↔
          0 < paddedColumns b attributes.transposeB / 32)) ∧
      createMatmulDecodeSplitKProgramConfig device a b attributes ≠ none ∧
      ∀ config, getProgramConfig device a b bias attributes sizes = some (some config) ∨
          createMatmulDecodeSplitKProgramConfig device a b attributes = some (some config) ∨
          (a.tile = (32, 32) ∧ proposeDecode device a b attributes = some config) →
        Suitable device config (paddedColumns a false / 32)
          (paddedColumns b attributes.transposeB / 32) := by
  constructor
  · intro device a b bias attributes config colScale plan cbs bytes nothing planned added counted fits
    rw [matmulDecodeCbBytes, planned, Option.map_some, Option.some.injEq] at counted
    have isKt := (planDecode_split planned).2.1
    rw [← counted]
    have covered := allocatedBytes_le_iff documented planned
      (accepted_of_unsupportedReason nothing) added fits
    rw [isKt] at covered
    exact covered
  · intro device a b bias attributes gridX gridY
    have splits := splitK_spec a b attributes gridX gridY
    refine ⟨fun free => ?_, ?_, ?_⟩
    · rw [Ne, getProgramConfig_none_iff gridX gridY free]
      exact Nat.pos_iff_ne_zero.symm
    · rcases splits with none | ⟨config, isConfig, -⟩
      · rw [none]
        exact Option.some_ne_none _
      · rw [isConfig]
        exact Option.some_ne_none _
    · rintro config (returned | split | ⟨wholeTile, proposed⟩)
      · exact getProgramConfig_suitable returned
      · rcases splits with none | ⟨other, isConfig, -, suitable⟩
        · rw [none] at split
          cases split
        · rw [← Option.some.inj (Option.some.inj (isConfig.symm.trans split))]
          exact suitable
      · exact proposeDecode_suitable gridX gridY wholeTile proposed

/-- Tiles of two bytes an element, or four. -/
def plainTiles : TileSizes where
  tileSize dtype := if dtype = .float32 then 4096 else 2048
  getTileSize height dtype := min height 32 * if dtype = .float32 then 128 else 64
  elementSize dtype := if dtype = .float32 then 4 else 2

theorem plainTiles_documented : plainTiles.Documented where
  fewerRows height dtype := by
    simp only [plainTiles]
    split <;> omega
  widest dtype := by
    simp only [plainTiles]
    split <;> simp
  raw := rfl
  rawRows _ := rfl

def bf16Matrix (rows columns : Nat) : Tensor :=
  { dtype := .bfloat16, layout := .tile, dramInterleaved := true, tile := (32, 32)
    logicalShape := [rows, columns]
    paddedShape := [(rows + 31) / 32 * 32, (columns + 31) / 32 * 32] }

/-- A device with what the byte count says, and no more. -/
def smallDevice : Device := ⟨8, 8, 49152, 8⟩

def halfSplit : Config := { gridX := 8, gridY := 8, in0BlockW := 4, fuseSwiglu := false, kSplits := 2 }

/-- A split that is proposed and accepted, whose buffers do not fit; and a weight of sixteen columns
in tiles as wide, which is divided by zero for. -/
theorem split_overflows :
    createMatmulDecodeSplitKProgramConfig smallDevice (bf16Matrix 32 256) (bf16Matrix 256 64) {} =
        some (some halfSplit) ∧
      unsupportedReason smallDevice (bf16Matrix 32 256) (bf16Matrix 256 64) none {} halfSplit
        plainTiles = some none ∧
      matmulDecodeCbBytes plainTiles (bf16Matrix 32 256) (bf16Matrix 256 64) none false .bfloat16
        halfSplit false = some 49152 ∧
      (circularBuffers plainTiles (bf16Matrix 32 256) (bf16Matrix 256 64) none [] false .bfloat16
        halfSplit false).map allocatedBytes = some 51200 ∧
      getProgramConfig smallDevice (bf16Matrix 32 256)
        { bf16Matrix 256 16 with tile := (32, 16), paddedShape := [256, 16] } none {} plainTiles =
          none := by
  refine ⟨rfl, by decide, by decide, by decide, by decide⟩

theorem decode_l1_check_row : ∃ cbs, circularBuffers plainTiles (bf16Matrix 1 256)
    (bf16Matrix 256 64) none [] false .bfloat16 halfSplit false = some cbs ∧
      allocatedBytes cbs ≤ 49152 := by
  refine ⟨_, rfl, ?_⟩
  apply ((decode_l1_check plainTiles_documented).1 smallDevice (bf16Matrix 1 256)
    (bf16Matrix 256 64) none {} halfSplit [] _ _ 49152 (by decide) rfl rfl (by decide)
    (by decide)).mpr
  right
  decide

end Libtt.MatmulDecode

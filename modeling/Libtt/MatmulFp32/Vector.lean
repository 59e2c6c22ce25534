import Libtt.Foundation.Loop
import Libtt.Sfpu.Unit
import Mathlib.Tactic.IntervalCases

/-!
# FP32 products of tiles on the vector unit

The functions of `ckernel_sfpu_matmul_fp32.h`. Products are formed from a broadcast row of B and a
column of A that is rotated within its groups of lanes, and are summed in a tile of accumulators
in that skewed order, which the last function puts back in the natural one.
-/
namespace Libtt.MatmulFp32

open Libtt.Sfpu

variable (mad : Word → Word → Word → Word)
variable {addr register subRow dstAcc : Nat}

/-- `MATMUL_FP32_TILE_ROWS`. -/
def tileRows : Nat := 64

/-- `_matmul_fp32_slot_`. -/
def slot (row col : Nat) : Nat :=
  16 * (2 * (row >>> 4) + (col >>> 4)) + (row &&& 12) + ((col &&& 1) <<< 1)

/-- `_matmul_fp32_group_col_`. -/
def groupCol (g : Nat) : Nat := 16 * (g >>> 1) + (g &&& 1)

/-- `_matmul_fp32_acc_`. -/
def accAddr (g s : Nat) : Nat := 2 * (8 * g + s)

/-- The `group` constants of `_matmul_fp32_k_`. -/
def group (g : Nat) : Nat := [0, 2, 16, 18].getD g 0

/-- Row `k` of B for a column group, broadcast into the register of the group. -/
def broadcastRow (b row subRow : Nat) (unit : State) (g : Nat) : State :=
  let unit := unit.sfpload 0 (b + row + group g)
  let unit := if subRow ≠ 0 then unit.sfptransp.sfpmov subRow 0 else unit
  unit.sfpconfig (11 + g)

/-- The recorded instructions of a rotation. -/
def rotation (acc : Nat) (unit : State) : State :=
  let unit := unit.sfploadmacro mad 0 0 (acc + accAddr 0 0)
  let unit := unit.sfploadmacro mad 1 0 (acc + accAddr 1 0)
  let unit := unit.sfploadmacro mad 2 0 (acc + accAddr 2 0)
  let unit := unit.sfploadmacro mad 3 2 (acc + accAddr 3 0)
  unit.sfpshft2Ror1 4 4

/-- Column `k` of A in all lanes of LREG4. -/
def loadColumn (transposed row subRow : Nat) (unit : State) : State :=
  let unit := unit.sfpload 0 (transposed + row + group 0)
  let unit := unit.sfpload 1 (transposed + row + group 1)
  let unit := unit.sfpload 2 (transposed + row + group 2)
  let unit := unit.sfpload 3 (transposed + row + group 3)
  unit.sfptransp.sfpmov subRow 4

/-- `_matmul_fp32_k_`. -/
def matmulFp32K (transposed b acc : Nat) (unit : State) (k : Nat) : State :=
  let subRow := k &&& 3
  let row := 32 * (k >>> 4) + (k &&& 12)
  let unit := unit.clearDstRegAddr
  let unit := (List.range 4).foldl (broadcastRow b row subRow) unit
  let unit := loadColumn transposed row subRow unit
  (List.range 8).foldl (fun unit _ => rotation mad acc unit) unit

/-- `_calculate_matmul_fp32_`. -/
def calculateMatmulFp32 (accumulate : Bool) (dstAt dstB dstAcc : Nat) (unit : State) : State :=
  let transposed := dstAt * tileRows
  let b := dstB * tileRows
  let acc := dstAcc * tileRows
  let unit := unit.clearDstRegAddr
  let unit := if accumulate then unit else
    (List.range 32).foldl (fun unit n => unit.sfpstore 0 (acc + 2 * n)) (unit.sfpmov lconst0 0)
  let unit := (List.range 32).foldl (matmulFp32K mad transposed b acc) unit
  let unit := unit.clearDstRegAddr
  (unit.sfploadiFloatb 0 0xbf80#16).sfpconfig 11

/-- `_matmul_fp32_lane_column_mask_`. -/
def laneColumnMask (column : Nat) (unit : State) : State :=
  let unit := unit.sfpiadd (0 - BitVec.ofNat 12 (2 * column)) ltileid 0
  let unit := unit.sfpshft 28 0 false
  let unit := unit.sfpshft (0 - 28) 0 false
  let unit := unit.sfpiadd 0xfff 0 0
  unit.sfpshft (0 - 31) 0 true

/-- The lane masks in the scratch tile. -/
def storeMasks (scratch : Nat) (unit : State) : State :=
  let unit := (List.range 8).foldl
    (fun unit column => (laneColumnMask column unit).sfpstore 0 (scratch + 2 * column)) unit
  let unit := unit.sfpiadd (0 - 32) ltileid 0
  let unit := unit.sfpshft (0 - 31) 0 true
  let unit := unit.sfpnot 0 0
  unit.sfpstore 0 (scratch + 16)

/-- `gather` of `_matmul_fp32_finish_` for one rotation. -/
def gatherStep (acc scratch g t target : Nat) (unit : State) (s : Nat) : State :=
  let unit := unit.sfpload 2 (acc + accAddr g s)
  let unit := unit.sfpload 3 (scratch + 2 * ((s + t) &&& 7))
  (unit.sfpand 3 2).sfpor 2 target

/-- `gather` of `_matmul_fp32_finish_`. -/
def gather (acc scratch g t target : Nat) (unit : State) : State :=
  (List.range 8).foldl (gatherStep acc scratch g t target) (unit.sfpmov lconst0 target)

/-- The two transposes of `_matmul_fp32_finish_`. -/
def transposeTwice (unit : State) : State :=
  let unit := (unit.sfpmov 0 2).sfpmov 1 3
  let unit := unit.sfptransp
  let unit := (unit.sfpmov 2 4).sfpmov 3 5
  let unit := (unit.sfpmov 2 6).sfpmov 3 7
  let unit := (unit.sfpmov 0 2).sfpmov 1 3
  unit.sfptransp

/-- The merge of sub-rows of `_matmul_fp32_finish_`, under a mask in LREG2. -/
def mergeSubRows (unit : State) : State :=
  let unit := ((unit.sfpxor 0 1).sfpand 2 1).sfpxor 1 0
  ((unit.sfpxor 4 5).sfpand 2 5).sfpxor 5 4

/-- The body of the loops of `_matmul_fp32_finish_`, which stores eight rows of a column group. -/
def finishRows (acc out scratch g : Nat) (unit : State) (v : Nat) : State :=
  let unit := gather acc scratch g (2 * v) 0 unit
  let unit := gather acc scratch g (2 * v + 1) 1 unit
  let unit := transposeTwice unit
  let unit := mergeSubRows (unit.sfpload 2 (scratch + 16))
  let unit := unit.sfpstore 0 (out + slot (4 * v) (groupCol g))
  unit.sfpstore 4 (out + slot (16 + 4 * v) (groupCol g))

/-- `_matmul_fp32_finish_`. -/
def matmulFp32Finish (dstAcc dstOut dstScratch : Nat) (unit : State) : State :=
  let acc := dstAcc * tileRows
  let out := dstOut * tileRows
  let scratch := dstScratch * tileRows
  let unit := storeMasks scratch unit.clearDstRegAddr
  let unit := (List.range 4).foldl
    (fun unit g => (List.range 4).foldl (finishRows acc out scratch g) unit) unit
  unit.clearDstRegAddr

end Libtt.MatmulFp32

/-! ## What the vector unit sums -/
namespace Libtt.MatmulFp32

open Libtt.Sfpu Libtt.Foundation

/-- Tile row or column of a place in the column groups. -/
def groupPlace (g j : Nat) : Nat := 16 * (g / 2) + 2 * j + g % 2

theorem group_eq : ∀ g < 4, group g = 16 * (g / 2) + 2 * (g % 2) := by decide

theorem subRow_eq : ∀ k < 32, k &&& 3 = k % 4 := by decide

theorem row_eq : ∀ k < 32, 32 * (k >>> 4) + (k &&& 12) = 32 * (k / 16) + k % 16 / 4 * 4 := by
  decide

theorem upperSlot_eq : ∀ v < 4, ∀ g < 4,
    slot (4 * v) (groupCol g) = 16 * (g / 2) + 4 * v + 2 * (g % 2) := by decide

theorem lowerSlot_eq : ∀ v < 4, ∀ g < 4,
    slot (16 + 4 * v) (groupCol g) = 32 + 16 * (g / 2) + 4 * v + 2 * (g % 2) := by decide

/-- A tile row of a column group, in the slot that holds it. -/
theorem load_row (dst : Dst) (index : Nat) (k : Nat) {g : Nat} (hg : g < 4) (j : Fin 8) :
    dst.load (index * 64 + (32 * (k / 16) + k % 16 / 4 * 4) + group g) ⟨k % 4, by omega⟩ j =
      dst.tile index k (groupPlace g j) := by
  have rows : (index * 64 + (32 * (k / 16) + k % 16 / 4 * 4) + (16 * (g / 2) + 2 * (g % 2))) /
      4 * 4 + k % 4 =
      64 * index + 16 * (2 * (k / 16) + (16 * (g / 2) + 2 * j.val + g % 2) / 16) + k % 16 := by
    omega
  have columns : 2 * j.val +
      (index * 64 + (32 * (k / 16) + k % 16 / 4 * 4) + (16 * (g / 2) + 2 * (g % 2))) / 2 % 2 =
      (16 * (g / 2) + 2 * j.val + g % 2) % 16 := by omega
  simp only [Dst.load, Dst.tile, group_eq g hg, groupPlace, rows, columns]

/-- Dst after changes in some tiles only. -/
def ChangesOnly (tiles : List Nat) (dst after : Dst) : Prop :=
  ∀ addr, addr % 2 = 0 → addr / 64 ∉ tiles → after.load addr = dst.load addr

namespace ChangesOnly

variable {tiles : List Nat} {dst middle after : Dst}

theorem refl (tiles : List Nat) (dst : Dst) : ChangesOnly tiles dst dst := fun _ _ _ => rfl

theorem trans (first : ChangesOnly tiles dst middle) (second : ChangesOnly tiles middle after) :
    ChangesOnly tiles dst after := fun addr even outside =>
  (second addr even outside).trans (first addr even outside)

theorem store (dst : Dst) (lanes : Lanes) (even : addr % 2 = 0) (inside : addr / 64 ∈ tiles) :
    ChangesOnly tiles dst (dst.store addr lanes) := by
  intro other otherEven outside
  rw [dst.load_store lanes even otherEven, if_neg]
  rintro rfl
  exact outside inside

/-- The other tiles as a whole. -/
theorem tile (changes : ChangesOnly tiles dst after) {index row column : Nat} (hrow : row < 32)
    (hcolumn : column < 32) (outside : index ∉ tiles) :
    after.tile index row column = dst.tile index row column := by
  rw [Dst.tile_eq_load, Dst.tile_eq_load, changes _ (by omega)]
  rwa [show (64 * index + (16 * (2 * (row / 16) + column / 16) + row % 16 / 4 * 4 +
    column % 2 * 2)) / 64 = index by omega]

end ChangesOnly

/-- Sub-row 0 of a transposed register below LREG4. -/
theorem sfptransp_first (unit : State) (low : register < 4) :
    unit.sfptransp.lreg register 0 = unit.lreg 0 ⟨register, low⟩ := by
  have base : register / 4 * 4 = 0 := by omega
  have below : register < 8 := by omega
  have index : (⟨register % 4, by omega⟩ : Fin 4) = ⟨register, low⟩ :=
    Fin.ext (Nat.mod_eq_of_lt low)
  simp only [State.sfptransp, below, if_true, base, index, Fin.val_zero, Nat.add_zero]

theorem sfptransp_high (unit : State) (high : 8 ≤ register) :
    unit.sfptransp.lreg register = unit.lreg register :=
  if_neg (Nat.not_lt.mpr high)

/-- Broadcasting a row changes no register from LREG8 on but that of its column group. -/
theorem broadcastRow_lreg (b row subRow : Nat) (unit : State) (g : Nat) (high : 8 ≤ register)
    (other : register ≠ 11 + g) :
    (broadcastRow b row subRow unit g).lreg register = unit.lreg register := by
  have low : register ≠ 0 := by omega
  by_cases first : subRow = 0
  · simp only [broadcastRow, first, State.sfpload, State.sfpconfig, State.set_lreg, other, low,
      ne_eq, not_true_eq_false, if_false]
  · simp only [broadcastRow, first, State.sfpload, State.sfpconfig, State.sfpmov, State.set_lreg,
      other, low, sfptransp_high _ high, ne_eq, not_false_eq_true, if_true, if_false]

/-- The register of a column group gets a row of the loaded slot. -/
theorem broadcastRow_own (b row : Nat) (low : subRow < 4) (unit : State) (g : Nat) (i : Fin 4) :
    (broadcastRow b row subRow unit g).lreg (11 + g) i =
      unit.dst.load (b + row + group g + unit.counter) ⟨subRow, low⟩ := by
  by_cases first : subRow = 0
  · subst first
    simp [broadcastRow, State.sfpload, State.sfpconfig, State.set_lreg, State.read_eq]
  · have zero : subRow ≠ 9 := by omega
    have id : subRow ≠ 15 := by omega
    simp [broadcastRow, first, State.sfpload, State.sfpconfig, State.sfpmov, State.set_lreg,
      State.read_eq, zero, id, sfptransp_first _ low]

@[simp] theorem broadcastRow_dst (b row subRow : Nat) (unit : State) (g : Nat) :
    (broadcastRow b row subRow unit g).dst = unit.dst := by
  simp only [broadcastRow]
  split <;> rfl

@[simp] theorem broadcastRow_counter (b row subRow : Nat) (unit : State) (g : Nat) :
    (broadcastRow b row subRow unit g).counter = unit.counter := by
  simp only [broadcastRow]
  split <;> rfl

/-- The unit while rows of B are broadcast, from some unit before. -/
structure Broadcasting (b row : Nat) (subRow : Fin 4) (before : State) (count : Nat)
    (unit : State) : Prop where
  dst : unit.dst = before.dst
  counter : unit.counter = before.counter
  rows : ∀ g < count, ∀ i, unit.lreg (11 + g) i =
    before.dst.load (b + row + group g + before.counter) subRow

/-- The registers of all column groups. -/
theorem broadcastRows_spec (b row : Nat) (low : subRow < 4) (unit : State) :
    Broadcasting b row ⟨subRow, low⟩ unit 4
      ((List.range 4).foldl (broadcastRow b row subRow) unit) := by
  apply foldl_range_induct (Broadcasting b row ⟨subRow, low⟩ unit)
  · exact ⟨rfl, rfl, fun g none => absurd none (Nat.not_lt_zero g)⟩
  · intro count less after so
    refine ⟨by simp [so.dst], by simp [so.counter], fun g below i => ?_⟩
    by_cases own : g = count
    · rw [own, broadcastRow_own b row low after count i, so.dst, so.counter]
    · rw [broadcastRow_lreg b row subRow after count (by omega) (by omega)]
      exact so.rows g (by omega) i

/-- LREG4 gets the sub-row of each of four slots, and the registers from LREG8 on stay. -/
theorem loadColumn_spec (transposed row : Nat) (low : subRow < 4) (unit : State) :
    let after := loadColumn transposed row subRow unit
    after.dst = unit.dst ∧ after.counter = unit.counter ∧
      (∀ register, 8 ≤ register → after.lreg register = unit.lreg register) ∧
      ∀ h (hh : h < 4), after.lreg 4 ⟨h, hh⟩ =
        unit.dst.load (transposed + row + group h + unit.counter) ⟨subRow, low⟩ := by
  refine ⟨rfl, rfl, fun register high => ?_, fun h hh => ?_⟩
  · have other : ∀ target < 8, register ≠ target := by omega
    simp [loadColumn, State.sfpmov, State.sfpload, State.set_lreg, sfptransp_high _ high, other]
  · have zero : subRow ≠ 9 := by omega
    have id : subRow ≠ 15 := by omega
    have below : subRow < 8 := by omega
    have base : subRow / 4 * 4 = 0 := by omega
    have index : (⟨subRow % 4, by omega⟩ : Fin 4) = ⟨subRow, low⟩ :=
      Fin.ext (Nat.mod_eq_of_lt low)
    have three : ((3 : Fin 4) : Nat) = 3 := rfl
    interval_cases h <;>
      simp [loadColumn, State.sfpmov, State.sfpload, State.set_lreg, State.sfptransp,
        State.read_eq, three, zero, id, low, below, base, index]

variable (mad : Word → Word → Word → Word)

/-- What a load macro adds up. -/
def macroSum (unit : State) (g : Nat) (lanes : Lanes) : Lanes := fun i j =>
  mad (unit.lreg (11 + g) i j) (unit.lreg 4 i j) (lanes i j)

theorem sfploadmacro_load (unit : State) {g step other : Nat} (hg : g < 4)
    (even : (addr + unit.counter) % 2 = 0) (otherEven : other % 2 = 0) :
    (unit.sfploadmacro mad g step addr).dst.load other =
      if other = addr + unit.counter then macroSum mad unit g (unit.dst.load other)
      else unit.dst.load other := by
  have zero : 11 + g ≠ 9 := by omega
  have id : 11 + g ≠ 15 := by omega
  have four : (4 : Nat) ≠ 9 ∧ (4 : Nat) ≠ 15 := by decide
  rw [State.sfploadmacro, Dst.load_store _ _ even otherEven]
  by_cases own : other = addr + unit.counter
  · rw [if_pos own, if_pos own, own, unit.read_eq zero id, unit.read_eq four.1 four.2]
    rfl
  · rw [if_neg own, if_neg own]

theorem sfploadmacro_lreg (unit : State) {g step : Nat} (high : 4 ≤ register) (hg : g < 4) :
    (unit.sfploadmacro mad g step addr).lreg register = unit.lreg register := by
  have other : register ≠ g := by omega
  simp [State.sfploadmacro, State.set_lreg, other]

@[simp] theorem sfploadmacro_counter (unit : State) (g step addr : Nat) :
    (unit.sfploadmacro mad g step addr).counter = unit.counter + step := rfl

theorem macroSum_sfploadmacro (unit : State) {g other step : Nat} (hg : g < 4) (lanes : Lanes) :
    macroSum mad (unit.sfploadmacro mad g step addr) other lanes =
      macroSum mad unit other lanes := by
  funext i j
  simp only [macroSum, sfploadmacro_lreg mad unit (by omega : 4 ≤ 11 + other) hg,
    sfploadmacro_lreg mad unit (by omega : 4 ≤ 4) hg]

/-- One rotation: an accumulator of each column group. -/
theorem rotation_load (index : Nat) (unit : State) {s other : Nat} (hs : s < 8)
    (counter : unit.counter = 2 * s) (even : other % 2 = 0) :
    (rotation mad (index * 64) unit).dst.load other =
      if other / 64 = index ∧ other % 16 / 2 = s then
        macroSum mad unit (other % 64 / 16) (unit.dst.load other)
      else unit.dst.load other := by
  simp (disch := first | omega | (simp [accAddr]; omega)) only [rotation, State.sfpshft2Ror1,
    State.set_dst, sfploadmacro_load, sfploadmacro_counter, counter, accAddr,
    macroSum_sfploadmacro]
  by_cases own : other / 64 = index ∧ other % 16 / 2 = s
  · rw [if_pos own]
    have place : other = index * 64 + 16 * (other % 64 / 16) + 2 * s := by omega
    have below : other % 64 / 16 < 4 := by omega
    generalize other % 64 / 16 = g at place below
    interval_cases g <;> simp (disch := omega) only [if_pos, if_neg]
  · rw [if_neg own]
    rw [if_neg (by omega), if_neg (by omega), if_neg (by omega), if_neg (by omega)]

/-- The lane that a rotation right by `s` moves to lane `j`. -/
def rotated (j : Fin 8) (s : Nat) : Fin 8 := ⟨(j + 7 * s) % 8, by omega⟩

theorem rotated_zero (j : Fin 8) : rotated j 0 = j :=
  Fin.ext (Nat.mod_eq_of_lt j.isLt)

theorem rotated_succ (j : Fin 8) (s : Nat) :
    rotated (rotated j 1) s = rotated j (s + 1) := by
  apply Fin.ext
  show ((j.val + 7) % 8 + 7 * s) % 8 = (j.val + 7 * (s + 1)) % 8
  omega

@[simp] theorem rotation_counter (acc : Nat) (unit : State) :
    (rotation mad acc unit).counter = unit.counter + 2 := rfl

/-- The register of A turns on. -/
theorem rotation_column (acc : Nat) (unit : State) (i : Fin 4) (j : Fin 8) :
    (rotation mad acc unit).lreg 4 i j = unit.lreg 4 i (rotated j 1) := by
  simp [rotation, State.sfpshft2Ror1, State.set_lreg, State.read_eq, sfploadmacro_lreg, rotated]

theorem rotation_rows (acc : Nat) (unit : State) (high : 8 ≤ register) :
    (rotation mad acc unit).lreg register = unit.lreg register := by
  have four : register ≠ 4 := by omega
  have above : 4 ≤ register := by omega
  simp [rotation, State.sfpshft2Ror1, State.set_lreg, four, sfploadmacro_lreg, above]

/-- The multiply-adds of the rotations on one accumulator. -/
def rotatedSum (unit : State) (addr : Nat) : Lanes := fun i j =>
  mad (unit.lreg (11 + addr % 64 / 16) i j) (unit.lreg 4 i (rotated j (addr % 16 / 2)))
    (unit.dst.load addr i j)

/-- The unit while it rotates, from some unit before. -/
structure Rotating (index : Nat) (before : State) (s : Nat) (unit : State) : Prop where
  counter : unit.counter = 2 * s
  column : ∀ i j, unit.lreg 4 i j = before.lreg 4 i (rotated j s)
  rows : ∀ g < 4, unit.lreg (11 + g) = before.lreg (11 + g)
  sums : ∀ addr, addr % 2 = 0 → unit.dst.load addr =
    if addr / 64 = index ∧ addr % 16 / 2 < s then rotatedSum mad before addr
    else before.dst.load addr

/-- All accumulators get one multiply-add. -/
theorem rotations_spec (index : Nat) (unit : State) (start : unit.counter = 0) :
    Rotating mad index unit 8
      ((List.range 8).foldl (fun unit _ => rotation mad (index * 64) unit) unit) := by
  apply foldl_range_induct (Rotating mad index unit)
  · refine ⟨start, fun i j => by rw [rotated_zero], fun _ _ => rfl, fun addr _ => ?_⟩
    rw [if_neg (by omega)]
  · intro s less middle so
    refine ⟨?_, fun i j => ?_, fun g below => ?_, fun addr even => ?_⟩
    · rw [rotation_counter, so.counter, Nat.mul_succ]
    · rw [rotation_column, so.column, rotated_succ]
    · rw [rotation_rows mad _ _ (by omega), so.rows g below]
    · rw [rotation_load mad index middle less so.counter even, so.sums addr even]
      by_cases own : addr / 64 = index ∧ addr % 16 / 2 = s
      · rw [if_pos own, if_neg (by omega), if_pos (by omega)]
        funext i j
        rw [macroSum, rotatedSum, so.column, so.rows _ (by omega), own.2]
      · rw [if_neg own]
        by_cases before : addr / 64 = index ∧ addr % 16 / 2 < s
        · rw [if_pos before, if_pos (by omega)]
        · rw [if_neg before, if_neg (by omega)]

theorem groupPlace_lt {g : Nat} (hg : g < 4) (j : Fin 8) : groupPlace g j < 32 := by
  unfold groupPlace
  omega

/-- The product of one `k` in an accumulator. -/
def product (dst : Dst) (dstAt dstB k addr : Nat) : Lanes := fun i j =>
  mad (dst.tile dstB k (groupPlace (addr % 64 / 16) j))
    (dst.tile dstAt k (groupPlace i (rotated j (addr % 16 / 2)))) (dst.load addr i j)

theorem matmulFp32K_load (dstAt dstB dstAcc : Nat) (unit : State) {k : Nat} (hk : k < 32)
    (even : addr % 2 = 0) :
    (matmulFp32K mad (dstAt * 64) (dstB * 64) (dstAcc * 64) unit k).dst.load addr =
      if addr / 64 = dstAcc then product mad unit.dst dstAt dstB k addr
      else unit.dst.load addr := by
  have low : k % 4 < 4 := Nat.mod_lt k (by decide)
  rw [matmulFp32K, subRow_eq k hk, row_eq k hk]
  set row := 32 * (k / 16) + k % 16 / 4 * 4
  have rows := broadcastRows_spec (dstB * 64) row low unit.clearDstRegAddr
  set broadcast := (List.range 4).foldl (broadcastRow (dstB * 64) row (k % 4)) unit.clearDstRegAddr
  have loaded := loadColumn_spec (dstAt * 64) row low broadcast
  set operands := loadColumn (dstAt * 64) row (k % 4) broadcast
  have start : broadcast.counter = 0 := rows.counter
  have rotating := rotations_spec mad dstAcc operands (loaded.2.1.trans start)
  have dst : operands.dst = unit.dst := loaded.1.trans rows.dst
  rw [rotating.sums addr even]
  by_cases own : addr / 64 = dstAcc
  · rw [if_pos (by omega), if_pos own]
    funext i j
    have b : operands.lreg (11 + addr % 64 / 16) i j =
        unit.dst.tile dstB k (groupPlace (addr % 64 / 16) j) := by
      rw [loaded.2.2.1 _ (by omega), rows.rows _ (by omega)]
      exact load_row unit.dst dstB k (by omega) j
    have a : ∀ lane : Fin 8, operands.lreg 4 i lane =
        unit.dst.tile dstAt k (groupPlace i lane) := by
      intro lane
      rw [loaded.2.2.2 i.val i.isLt, rows.dst, start]
      exact load_row unit.dst dstAt k i.isLt lane
    rw [rotatedSum, product, b, a, dst]
  · rw [if_neg (fun both => own both.1), if_neg own, dst]

/-- A matrix in an accumulator tile, in the order of the rotations. -/
def Skewed (dst : Dst) (index : Nat) (matrix : Nat → Nat → Word) : Prop :=
  ∀ addr, addr % 2 = 0 → addr / 64 = index → ∀ i j, dst.load addr i j =
    matrix (groupPlace i (rotated j (addr % 16 / 2))) (groupPlace (addr % 64 / 16) j)

/-- The multiply-adds of the first `count` columns of A and rows of B. -/
def summed (a b : Nat → Nat → Word) (count : Nat) (start : Nat → Nat → Word) (row col : Nat) :
    Word :=
  (List.range count).foldl (fun sum k => mad (b k col) (a row k) sum) (start row col)

theorem summed_succ (a b start : Nat → Nat → Word) (count row col : Nat) :
    summed mad a b (count + 1) start row col =
      mad (b count col) (a row count) (summed mad a b count start row col) := by
  rw [summed, List.range_succ, List.foldl_append]
  rfl

/-- The accumulators after some `k`, and the tiles besides. -/
structure Summing (dstAt dstB dstAcc : Nat) (start : Nat → Nat → Word) (before : Dst)
    (count : Nat) (unit : State) : Prop where
  skewed : Skewed unit.dst dstAcc
    (summed mad (fun row k => before.tile dstAt k row) (before.tile dstB) count start)
  changes : ChangesOnly [dstAcc] before unit.dst

theorem matmulFp32K_spec {dstAt dstB : Nat} (apartA : dstAt ≠ dstAcc) (apartB : dstB ≠ dstAcc)
    {start : Nat → Nat → Word} {before : Dst} {k : Nat} (hk : k < 32) {unit : State}
    (so : Summing mad dstAt dstB dstAcc start before k unit) :
    Summing mad dstAt dstB dstAcc start before (k + 1)
      (matmulFp32K mad (dstAt * 64) (dstB * 64) (dstAcc * 64) unit k) := by
  constructor
  · intro addr even own i j
    rw [matmulFp32K_load mad dstAt dstB dstAcc unit hk even, if_pos own, summed_succ, product,
      so.skewed addr even own i j,
      so.changes.tile hk (groupPlace_lt (by omega) j) (by simpa using apartB),
      so.changes.tile hk (groupPlace_lt i.isLt _) (by simpa using apartA)]
  · intro addr even outside
    rw [matmulFp32K_load mad dstAt dstB dstAcc unit hk even, if_neg (by simpa using outside)]
    exact so.changes addr even outside

/-- The unit while it clears the accumulators. -/
structure Clearing (dstAcc : Nat) (before : Dst) (count : Nat) (unit : State) : Prop where
  zero : unit.lreg 0 = fun _ _ => 0
  counter : unit.counter = 0
  cleared : ∀ n < count, unit.dst.load (dstAcc * 64 + 2 * n) = fun _ _ => 0
  changes : ChangesOnly [dstAcc] before unit.dst

theorem clear_spec (dstAcc : Nat) (unit : State) (start : unit.counter = 0) :
    Clearing dstAcc unit.dst 32 ((List.range 32).foldl
      (fun unit n => unit.sfpstore 0 (dstAcc * 64 + 2 * n)) (unit.sfpmov lconst0 0)) := by
  apply foldl_range_induct (Clearing dstAcc unit.dst)
  · exact ⟨by simp [State.sfpmov, State.set_lreg], start,
      fun n none => absurd none (Nat.not_lt_zero n), ChangesOnly.refl _ _⟩
  · intro count less middle so
    have even : (dstAcc * 64 + 2 * count + middle.counter) % 2 = 0 := by
      rw [so.counter]
      omega
    have inside : (dstAcc * 64 + 2 * count + middle.counter) / 64 ∈ [dstAcc] := by
      rw [so.counter, List.mem_singleton]
      omega
    refine ⟨so.zero, so.counter, fun n below => ?_, so.changes.trans (.store _ _ even inside)⟩
    rw [State.sfpstore, Dst.load_store _ _ even (by omega), so.counter,
      middle.read_eq (by decide) (by decide)]
    by_cases own : n = count
    · rw [if_pos (by rw [own]; rfl), so.zero]
    · rw [if_neg (by omega), so.cleared n (by omega)]

/-- The accumulators before the first `k`. -/
theorem summing_start (dstAt dstB : Nat) {accumulate : Bool} {unit : State}
    {start : Nat → Nat → Word}
    (holds : if accumulate then Skewed unit.dst dstAcc start else start = fun _ _ => 0) :
    Summing mad dstAt dstB dstAcc start unit.dst 0 (if accumulate then unit.clearDstRegAddr else
      (List.range 32).foldl (fun unit n => unit.sfpstore 0 (dstAcc * 64 + 2 * n))
        (unit.clearDstRegAddr.sfpmov lconst0 0)) := by
  cases accumulate with
  | true => exact ⟨holds, ChangesOnly.refl _ _⟩
  | false =>
    have so := clear_spec dstAcc unit.clearDstRegAddr rfl
    refine ⟨fun addr even own i j => ?_, so.changes⟩
    have place : addr = dstAcc * 64 + 2 * (addr % 64 / 2) := by omega
    have cleared := so.cleared (addr % 64 / 2) (by omega)
    rw [← place] at cleared
    rw [show start = fun _ _ => 0 from holds]
    exact congrFun (congrFun cleared i) j

/-- The product of two tiles on top of what the accumulators hold. -/
theorem calculateMatmulFp32_spec {accumulate : Bool} {dstAt dstB : Nat} (apartA : dstAt ≠ dstAcc)
    (apartB : dstB ≠ dstAcc) {unit : State} {start : Nat → Nat → Word}
    (holds : if accumulate then Skewed unit.dst dstAcc start else start = fun _ _ => 0) :
    Summing mad dstAt dstB dstAcc start unit.dst 32
      (calculateMatmulFp32 mad accumulate dstAt dstB dstAcc unit) := by
  have done := foldl_range_induct (Summing mad dstAt dstB dstAcc start unit.dst) 32
    (summing_start mad dstAt dstB holds)
    fun k hk middle so => matmulFp32K_spec mad apartA apartB hk so
  exact ⟨done.skewed, done.changes⟩

end Libtt.MatmulFp32

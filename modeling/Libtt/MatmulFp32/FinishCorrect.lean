import Libtt.MatmulFp32.Vector

/-!
# The natural order

The lanes of an output row are gathered from the accumulators of all rotations under masks.
-/
namespace Libtt.MatmulFp32

open Libtt.Sfpu Libtt.Foundation

variable {matrix : Nat → Nat → Word} {dstAcc dstScratch g v dstOut : Nat} {unit : State}

/-- All ones or zero. -/
def maskWord (set : Bool) : Word := if set then BitVec.allOnes 32 else 0

theorem and_maskWord (x : Word) (set : Bool) : x &&& maskWord set = if set then x else 0 := by
  cases set with
  | true => exact BitVec.and_allOnes
  | false => exact BitVec.and_zero

theorem laneColumnMask_word : ∀ column < 8, ∀ (i : Fin 4) (j : Fin 8),
    (((((BitVec.ofNat 32 (2 * (8 * i.val + j.val)) +
      (0 - BitVec.ofNat 12 (2 * column)).signExtend 32) <<< 28) >>> 28) +
      (0xfff#12).signExtend 32).sshiftRight 31) = maskWord (j.val = column) := by
  decide +kernel

theorem subRowMask_word : ∀ (i : Fin 4) (j : Fin 8),
    ~~~((BitVec.ofNat 32 (2 * (8 * i.val + j.val)) + (0 - 32#12).signExtend 32).sshiftRight 31) =
      maskWord (2 ≤ i.val) := by
  decide +kernel

theorem laneColumnMask_lreg {column : Nat} (hc : column < 8) (unit : State) :
    (laneColumnMask column unit).lreg 0 = fun _ j => maskWord (j.val = column) := by
  funext i j
  rw [← laneColumnMask_word column hc i j]
  rfl

@[simp] theorem laneColumnMask_dst (column : Nat) (unit : State) :
    (laneColumnMask column unit).dst = unit.dst := rfl

@[simp] theorem laneColumnMask_counter (column : Nat) (unit : State) :
    (laneColumnMask column unit).counter = unit.counter := rfl

/-- The masks of the first columns in the scratch tile. -/
structure Masking (dstScratch : Nat) (before : Dst) (count : Nat) (unit : State) : Prop where
  counter : unit.counter = 0
  columns : ∀ column < count, unit.dst.load (dstScratch * 64 + 2 * column) =
    fun _ j => maskWord (j.val = column)
  changes : ChangesOnly [dstScratch] before unit.dst

theorem masking_columns (dstScratch : Nat) (unit : State) (start : unit.counter = 0) :
    Masking dstScratch unit.dst 8 ((List.range 8).foldl (fun unit column =>
      (laneColumnMask column unit).sfpstore 0 (dstScratch * 64 + 2 * column)) unit) := by
  apply foldl_range_induct (Masking dstScratch unit.dst)
  · exact ⟨start, fun column none => absurd none (Nat.not_lt_zero column), ChangesOnly.refl _ _⟩
  · intro count less middle so
    have even : (dstScratch * 64 + 2 * count + middle.counter) % 2 = 0 := by
      rw [so.counter]
      omega
    have inside : (dstScratch * 64 + 2 * count + middle.counter) / 64 ∈ [dstScratch] := by
      rw [so.counter, List.mem_singleton]
      omega
    refine ⟨so.counter, fun column below => ?_, so.changes.trans (.store _ _ even inside)⟩
    rw [State.sfpstore, State.read_eq _ (by decide) (by decide), laneColumnMask_lreg less,
      laneColumnMask_dst, laneColumnMask_counter, Dst.load_store _ _ even (by omega), so.counter]
    by_cases own : column = count
    · rw [if_pos (by rw [own]; rfl), own]
    · rw [if_neg (by omega), so.columns column (by omega)]

/-- The masks that the last function works with. -/
structure Masks (dstScratch : Nat) (dst : Dst) : Prop where
  columns : ∀ column < 8, dst.load (dstScratch * 64 + 2 * column) =
    fun _ j => maskWord (j.val = column)
  subRows : dst.load (dstScratch * 64 + 16) = fun i _ => maskWord (2 ≤ i.val)

/-- The mask of the last two sub-rows. -/
def subRowMask (unit : State) : State :=
  ((unit.sfpiadd (0 - 32) ltileid 0).sfpshft (0 - 31) 0 true).sfpnot 0 0

theorem subRowMask_lreg (unit : State) :
    (subRowMask unit).lreg 0 = fun i _ => maskWord (2 ≤ i.val) := by
  funext i j
  rw [← subRowMask_word i j]
  rfl

@[simp] theorem subRowMask_dst (unit : State) : (subRowMask unit).dst = unit.dst := rfl

@[simp] theorem subRowMask_counter (unit : State) :
    (subRowMask unit).counter = unit.counter := rfl

theorem storeMasks_spec (dstScratch : Nat) (unit : State) (start : unit.counter = 0) :
    Masks dstScratch (storeMasks (dstScratch * 64) unit).dst ∧
      (storeMasks (dstScratch * 64) unit).counter = 0 ∧
      ChangesOnly [dstScratch] unit.dst (storeMasks (dstScratch * 64) unit).dst := by
  have so := masking_columns dstScratch unit start
  have last : storeMasks (dstScratch * 64) unit = (subRowMask ((List.range 8).foldl
    (fun unit column => (laneColumnMask column unit).sfpstore 0 (dstScratch * 64 + 2 * column))
      unit)).sfpstore 0 (dstScratch * 64 + 16) := rfl
  rw [last]
  generalize (List.range 8).foldl (fun unit column =>
    (laneColumnMask column unit).sfpstore 0 (dstScratch * 64 + 2 * column)) unit = middle at so
  have even : (dstScratch * 64 + 16) % 2 = 0 := by omega
  have inside : (dstScratch * 64 + 16) / 64 ∈ [dstScratch] := by
    rw [List.mem_singleton]
    omega
  rw [State.sfpstore, State.read_eq _ (by decide) (by decide), subRowMask_lreg, subRowMask_dst,
    subRowMask_counter, so.counter]
  have stored := ChangesOnly.store middle.dst (fun i _ => maskWord (2 ≤ i.val)) even inside
  refine ⟨⟨fun column below => ?_, ?_⟩, rfl, so.changes.trans stored⟩
  · rw [Dst.load_store _ _ even (by omega), if_neg (by omega), so.columns column below]
  · rw [Dst.load_store _ _ even even, if_pos rfl]

theorem rotated_back (j : Fin 8) {t : Nat} (ht : t < 8) : (rotated j (rotated j t)).val = t := by
  show (j.val + 7 * ((j.val + 7 * t) % 8)) % 8 = t
  omega

theorem mask_column : ∀ s < 8, ∀ t < 8, (s + t) &&& 7 = (s + t) % 8 := by decide

/-- The unit while it gathers an output row of a column group in a register. -/
structure Gathering (matrix : Nat → Nat → Word) (g t target : Nat) (before : State) (count : Nat)
    (unit : State) : Prop where
  dst : unit.dst = before.dst
  counter : unit.counter = 0
  gathered : ∀ i j, unit.lreg target i j =
    if (rotated j t).val < count then matrix (groupPlace i t) (groupPlace g j) else 0
  others : ∀ register, register ≠ 2 → register ≠ 3 → register ≠ target →
    unit.lreg register = before.lreg register

theorem gather_spec (skewed : Skewed unit.dst dstAcc matrix) (masks : Masks dstScratch unit.dst)
    (start : unit.counter = 0) {t target : Nat} (hg : g < 4) (ht : t < 8) (low : target < 2) :
    Gathering matrix g t target unit 8
      (gather (dstAcc * 64) (dstScratch * 64) g t target unit) := by
  have two : target ≠ 2 := by omega
  have three : target ≠ 3 := by omega
  apply foldl_range_induct (Gathering matrix g t target unit)
  · refine ⟨rfl, start, fun i j => ?_, fun register _ _ other => ?_⟩
    · simp [State.sfpmov, State.set_lreg]
    · simp [State.sfpmov, State.set_lreg, other]
  · intro s less middle so
    have even : (dstAcc * 64 + accAddr g s) % 2 = 0 := by
      unfold accAddr
      omega
    have inside : (dstAcc * 64 + accAddr g s) / 64 = dstAcc := by
      unfold accAddr
      omega
    have slot : (dstAcc * 64 + accAddr g s) % 64 / 16 = g ∧
        (dstAcc * 64 + accAddr g s) % 16 / 2 = s := by
      unfold accAddr
      omega
    refine ⟨so.dst, so.counter, fun i j => ?_, fun register hr2 hr3 other => ?_⟩
    · have acc := skewed _ even inside i j
      rw [slot.1, slot.2] at acc
      have mask := congrFun (congrFun (masks.columns ((s + t) % 8) (by omega)) i) j
      have step : (gatherStep (dstAcc * 64) (dstScratch * 64) g t target middle s).lreg target i j =
          middle.lreg target i j ||| (unit.dst.load (dstAcc * 64 + accAddr g s) i j &&&
            unit.dst.load (dstScratch * 64 + 2 * ((s + t) % 8)) i j) := by
        have nine : target ≠ 9 := by omega
        have fifteen : target ≠ 15 := by omega
        simp [gatherStep, State.sfpor, State.sfpand, State.sfpload, State.set_lreg, State.read_eq,
          so.dst, so.counter, two, three, nine, fifteen, mask_column s less t ht]
      rw [step, so.gathered, acc, mask]
      by_cases own : j.val = (s + t) % 8
      · have back : (rotated j t).val = s := by
          show (j.val + 7 * t) % 8 = s
          omega
        have lane : (rotated j s).val = t := back ▸ rotated_back j ht
        rw [if_neg (by omega), if_pos (by omega), lane, and_maskWord,
          if_pos (decide_eq_true own)]
        exact BitVec.zero_or
      · have other : (rotated j t).val ≠ s := by
          show (j.val + 7 * t) % 8 ≠ s
          omega
        have upTo : (rotated j t).val < s + 1 ↔ (rotated j t).val < s := by omega
        simp [and_maskWord, own, upTo]
    · rw [← so.others register hr2 hr3 other]
      simp [gatherStep, State.sfpor, State.sfpand, State.sfpload, State.set_lreg, hr2, hr3, other]

theorem transposeTwice_first (unit : State) (i : Fin 4) :
    (transposeTwice unit).lreg 0 i = unit.lreg 0 ⟨i % 2, by omega⟩ := by
  match i with
  | 0 | 1 | 2 | 3 => rfl

theorem transposeTwice_second (unit : State) (i : Fin 4) :
    (transposeTwice unit).lreg 1 i = unit.lreg 1 ⟨i % 2, by omega⟩ := by
  match i with
  | 0 | 1 | 2 | 3 => rfl

theorem transposeTwice_third (unit : State) (i : Fin 4) :
    (transposeTwice unit).lreg 4 i = unit.lreg 0 ⟨2 + i % 2, by omega⟩ := by
  match i with
  | 0 | 1 | 2 | 3 => rfl

theorem transposeTwice_fourth (unit : State) (i : Fin 4) :
    (transposeTwice unit).lreg 5 i = unit.lreg 1 ⟨2 + i % 2, by omega⟩ := by
  match i with
  | 0 | 1 | 2 | 3 => rfl

@[simp] theorem transposeTwice_dst (unit : State) : (transposeTwice unit).dst = unit.dst := rfl

@[simp] theorem transposeTwice_counter (unit : State) :
    (transposeTwice unit).counter = unit.counter := rfl

/-- A word merged under a mask. -/
theorem xor_mask (x y : Word) (set : Bool) :
    x ^^^ ((y ^^^ x) &&& maskWord set) = if set then y else x := by
  rw [and_maskWord]
  cases set with
  | true =>
    show x ^^^ (y ^^^ x) = y
    rw [BitVec.xor_comm y x, ← BitVec.xor_assoc, BitVec.xor_self, BitVec.zero_xor]
  | false => exact BitVec.xor_zero

theorem mergeSubRows_upper (unit : State)
    (mask : unit.lreg 2 = fun i _ => maskWord (2 ≤ i.val)) (i : Fin 4) (j : Fin 8) :
    (mergeSubRows unit).lreg 0 i j = if 2 ≤ i.val then unit.lreg 1 i j else unit.lreg 0 i j := by
  simp [mergeSubRows, State.sfpxor, State.sfpand, State.set_lreg, State.read_eq, mask, xor_mask]

theorem mergeSubRows_lower (unit : State)
    (mask : unit.lreg 2 = fun i _ => maskWord (2 ≤ i.val)) (i : Fin 4) (j : Fin 8) :
    (mergeSubRows unit).lreg 4 i j = if 2 ≤ i.val then unit.lreg 5 i j else unit.lreg 4 i j := by
  simp [mergeSubRows, State.sfpxor, State.sfpand, State.set_lreg, State.read_eq, mask, xor_mask]

@[simp] theorem mergeSubRows_dst (unit : State) : (mergeSubRows unit).dst = unit.dst := rfl

@[simp] theorem mergeSubRows_counter (unit : State) :
    (mergeSubRows unit).counter = unit.counter := rfl

/-- The slot at an offset of a tile, as a matrix has it. -/
def naturalSlot (matrix : Nat → Nat → Word) (offset : Nat) : Lanes := fun i j =>
  matrix (16 * (offset / 32) + offset % 16 / 4 * 4 + i)
    (16 * (offset / 16 % 2) + 2 * j + offset / 2 % 2)

/-- A unit with the two gathers of eight rows of a column group. -/
structure Gathered (matrix : Nat → Nat → Word) (g v : Nat) (unit : State) : Prop where
  counter : unit.counter = 0
  even : ∀ i j, unit.lreg 0 i j = matrix (groupPlace i (2 * v)) (groupPlace g j)
  odd : ∀ i j, unit.lreg 1 i j = matrix (groupPlace i (2 * v + 1)) (groupPlace g j)

/-- Both gathers of eight rows of a column group. -/
def gatherBoth (acc scratch g v : Nat) (unit : State) : State :=
  gather acc scratch g (2 * v + 1) 1 (gather acc scratch g (2 * v) 0 unit)

theorem gatherBoth_spec (skewed : Skewed unit.dst dstAcc matrix) (masks : Masks dstScratch unit.dst)
    (start : unit.counter = 0) (hg : g < 4) (hv : v < 4) :
    (gatherBoth (dstAcc * 64) (dstScratch * 64) g v unit).dst = unit.dst ∧
      Gathered matrix g v (gatherBoth (dstAcc * 64) (dstScratch * 64) g v unit) := by
  have first : Gathering matrix g (2 * v) 0 unit 8
      (gather (dstAcc * 64) (dstScratch * 64) g (2 * v) 0 unit) :=
    gather_spec skewed masks start hg (by omega) (by decide)
  have second := gather_spec (first.dst ▸ skewed) (first.dst ▸ masks) first.counter hg
    (by omega : 2 * v + 1 < 8) (by decide : 1 < 2)
  refine ⟨second.dst.trans first.dst, second.counter, fun i j => ?_, fun i j => ?_⟩
  · rw [gatherBoth, second.others 0 (by decide) (by decide) (by decide), first.gathered,
      if_pos (rotated j (2 * v)).isLt]
  · rw [gatherBoth, second.gathered, if_pos (rotated j (2 * v + 1)).isLt]

/-- The offsets of the slots of a column group that hold rows `4 v` and `16 + 4 v` on. -/
def upperSlot (g v : Nat) : Nat := 16 * (g / 2) + 4 * v + 2 * (g % 2)

/-- The registers that are stored, from the two gathers. -/
def merged (scratch : Nat) (unit : State) : State :=
  mergeSubRows ((transposeTwice unit).sfpload 2 (scratch + 16))

theorem merged_mask (masks : Masks dstScratch unit.dst) (start : unit.counter = 0) :
    ((transposeTwice unit).sfpload 2 (dstScratch * 64 + 16)).lreg 2 =
      fun i _ => maskWord (2 ≤ i.val) := by
  rw [State.sfpload, State.set_lreg, if_pos rfl, transposeTwice_dst, transposeTwice_counter, start]
  exact masks.subRows

theorem sfpload_other (unit : State) {register target addr : Nat} (other : register ≠ target) :
    (unit.sfpload target addr).lreg register = unit.lreg register := by
  rw [State.sfpload, State.set_lreg, if_neg other]

section

variable (masks : Masks dstScratch unit.dst) (gathered : Gathered matrix g v unit) (hg : g < 4)
  (hv : v < 4)
include masks gathered hg hv

theorem merged_upper :
    (merged (dstScratch * 64) unit).lreg 0 = naturalSlot matrix (upperSlot g v) := by
  funext i j
  rw [merged, mergeSubRows_upper _ (merged_mask masks gathered.counter), sfpload_other _ (by decide),
    sfpload_other _ (by decide), transposeTwice_first, transposeTwice_second, gathered.even,
    gathered.odd]
  have col : 16 * (upperSlot g v / 16 % 2) + 2 * j.val + upperSlot g v / 2 % 2 =
      groupPlace g j := by
    unfold upperSlot groupPlace
    omega
  rw [naturalSlot, col]
  split
  all_goals
    congr 1
    show 16 * (i.val % 2 / 2) + 2 * _ + i.val % 2 % 2 = _
    unfold upperSlot
    omega

theorem merged_lower :
    (merged (dstScratch * 64) unit).lreg 4 = naturalSlot matrix (32 + upperSlot g v) := by
  funext i j
  rw [merged, mergeSubRows_lower _ (merged_mask masks gathered.counter), sfpload_other _ (by decide),
    sfpload_other _ (by decide), transposeTwice_third, transposeTwice_fourth, gathered.even,
    gathered.odd]
  have col : 16 * ((32 + upperSlot g v) / 16 % 2) + 2 * j.val + (32 + upperSlot g v) / 2 % 2 =
      groupPlace g j := by
    unfold upperSlot groupPlace
    omega
  rw [naturalSlot, col]
  split
  all_goals
    congr 1
    show 16 * ((2 + i.val % 2) / 2) + 2 * _ + (2 + i.val % 2) % 2 = _
    unfold upperSlot
    omega

end

@[simp] theorem merged_dst (scratch : Nat) (unit : State) :
    (merged scratch unit).dst = unit.dst := by
  rw [merged, mergeSubRows_dst, State.sfpload, State.set_dst, transposeTwice_dst]

@[simp] theorem merged_counter (scratch : Nat) (unit : State) :
    (merged scratch unit).counter = unit.counter := by
  rw [merged, mergeSubRows_counter, State.sfpload, State.set_counter, transposeTwice_counter]

theorem finishRows_eq (acc out scratch g : Nat) (unit : State) (v : Nat) :
    finishRows acc out scratch g unit v = ((merged scratch
      (gatherBoth acc scratch g v unit)).sfpstore 0 (out + slot (4 * v) (groupCol g))).sfpstore 4
        (out + slot (16 + 4 * v) (groupCol g)) := by
  rw [finishRows, gatherBoth, merged]

section

variable (skewed : Skewed unit.dst dstAcc matrix) (masks : Masks dstScratch unit.dst)
  (start : unit.counter = 0)
include skewed masks start

theorem finishRows_counter (out : Nat) (hg : g < 4) (hv : v < 4) :
    (finishRows (dstAcc * 64) out (dstScratch * 64) g unit v).counter = 0 := by
  rw [finishRows_eq, State.sfpstore_counter, State.sfpstore_counter, merged_counter]
  exact (gatherBoth_spec skewed masks start hg hv).2.counter

/-- Two slots of the output tile get their natural words, and nothing else changes. -/
theorem finishRows_load {addr : Nat} (hg : g < 4) (hv : v < 4) (even : addr % 2 = 0) :
    (finishRows (dstAcc * 64) (dstOut * 64) (dstScratch * 64) g unit v).dst.load addr =
      if addr / 64 = dstOut ∧ addr % 32 = upperSlot g v then naturalSlot matrix (addr % 64)
      else unit.dst.load addr := by
  have so := gatherBoth_spec skewed masks start hg hv
  rw [finishRows_eq]
  generalize gatherBoth (dstAcc * 64) (dstScratch * 64) g v unit = gathered at so
  have masked : Masks dstScratch gathered.dst := by
    rw [so.1]
    exact masks
  have upper := merged_upper masked so.2 hg hv
  have lower := merged_lower masked so.2 hg hv
  have dst : (merged (dstScratch * 64) gathered).dst = unit.dst := (merged_dst _ _).trans so.1
  have counter : (merged (dstScratch * 64) gathered).counter = 0 :=
    (merged_counter _ _).trans so.2.counter
  have upperAddr : dstOut * 64 + slot (4 * v) (groupCol g) = dstOut * 64 + upperSlot g v := by
    rw [upperSlot_eq v hv g hg, upperSlot]
  have lowerAddr : dstOut * 64 + slot (16 + 4 * v) (groupCol g) =
      dstOut * 64 + (32 + upperSlot g v) := by
    rw [lowerSlot_eq v hv g hg, upperSlot]
    omega
  rw [upperAddr, lowerAddr, State.sfpstore, State.sfpstore,
    State.read_eq _ (by decide) (by decide), State.read_eq _ (by decide) (by decide)]
  have small : upperSlot g v < 32 ∧ upperSlot g v % 2 = 0 := by
    unfold upperSlot
    omega
  rw [counter, upper, lower, dst, Dst.load_store _ _ (by omega) even,
    Dst.load_store _ _ (by omega) even]
  by_cases isLower : addr = dstOut * 64 + (32 + upperSlot g v) + 0
  · rw [if_pos isLower, if_pos (by omega), show addr % 64 = 32 + upperSlot g v by omega]
  · rw [if_neg isLower]
    by_cases isUpper : addr = dstOut * 64 + upperSlot g v + 0
    · rw [if_pos isUpper, if_pos (by omega), show addr % 64 = upperSlot g v by omega]
    · rw [if_neg isUpper, if_neg (by omega)]

end

/-- The unit while it finishes: the slots of the first column groups and of the first rows of the
next one are in their natural order. -/
structure Finishing (matrix : Nat → Nat → Word) (dstAcc dstOut dstScratch : Nat) (before : Dst)
    (groups rows : Nat) (unit : State) : Prop where
  skewed : Skewed unit.dst dstAcc matrix
  masks : Masks dstScratch unit.dst
  counter : unit.counter = 0
  natural : ∀ addr, addr % 2 = 0 → addr / 64 = dstOut → ∀ g < 4, ∀ v < 4,
    addr % 32 = upperSlot g v → g < groups ∨ g = groups ∧ v < rows →
      unit.dst.load addr = naturalSlot matrix (addr % 64)
  changes : ChangesOnly [dstOut, dstScratch] before unit.dst

theorem finishRows_spec (apartAcc : dstOut ≠ dstAcc) (apartScratch : dstOut ≠ dstScratch)
    {before : Dst} (hg : g < 4) (hv : v < 4)
    (so : Finishing matrix dstAcc dstOut dstScratch before g v unit) :
    Finishing matrix dstAcc dstOut dstScratch before g (v + 1)
      (finishRows (dstAcc * 64) (dstOut * 64) (dstScratch * 64) g unit v) := by
  have load : ∀ addr, addr % 2 = 0 →
      (finishRows (dstAcc * 64) (dstOut * 64) (dstScratch * 64) g unit v).dst.load addr = _ :=
    fun _ even => finishRows_load so.skewed so.masks so.counter hg hv even
  have scratch : ∀ addr, addr % 2 = 0 → addr / 64 = dstScratch →
      (finishRows (dstAcc * 64) (dstOut * 64) (dstScratch * 64) g unit v).dst.load addr =
        unit.dst.load addr := by
    intro addr even inside
    rw [load addr even, if_neg]
    exact fun both => apartScratch (both.1.symm.trans inside)
  constructor
  · intro addr even inside
    rw [load addr even, if_neg fun both => apartAcc (both.1.symm.trans inside)]
    exact so.skewed addr even inside
  · constructor
    · intro column below
      rw [scratch _ (by omega) (by omega), so.masks.columns column below]
    · rw [scratch _ (by omega) (by omega), so.masks.subRows]
  · exact finishRows_counter so.skewed so.masks so.counter _ hg hv
  · intro addr even inside otherG hg' otherV hv' place earlier
    rw [load addr even]
    by_cases now : addr / 64 = dstOut ∧ addr % 32 = upperSlot g v
    · rw [if_pos now]
    · rw [if_neg now]
      apply so.natural addr even inside otherG hg' otherV hv' place
      by_contra late
      have same : otherG = g ∧ otherV = v := by omega
      rw [same.1, same.2] at place
      exact now ⟨inside, place⟩
  · intro addr even outside
    rw [load addr even, if_neg]
    · exact so.changes addr even outside
    · rintro ⟨inside, _⟩
      exact outside (by simp [inside])

/-- Every slot of a tile belongs to a row of some column group. -/
theorem upperSlot_exists (addr : Nat) (even : addr % 2 = 0) :
    ∃ g < 4, ∃ v < 4, addr % 32 = upperSlot g v := by
  refine ⟨2 * (addr / 16 % 2) + addr / 2 % 2, by omega, addr / 4 % 4, by omega, ?_⟩
  unfold upperSlot
  omega

/-- The output tile has the matrix in its natural order. -/
theorem matmulFp32Finish_spec (apartAcc : dstOut ≠ dstAcc) (apartScratch : dstOut ≠ dstScratch)
    (apartMasks : dstScratch ≠ dstAcc) (skewed : Skewed unit.dst dstAcc matrix) {row col : Nat}
    (hrow : row < 32) (hcol : col < 32) :
    (matmulFp32Finish dstAcc dstOut dstScratch unit).dst.tile dstOut row col = matrix row col := by
  have masked := storeMasks_spec dstScratch unit.clearDstRegAddr rfl
  have changes : ChangesOnly [dstOut, dstScratch] unit.dst
      (storeMasks (dstScratch * 64) unit.clearDstRegAddr).dst := fun addr even outside =>
    masked.2.2 addr even fun inside => outside (List.mem_cons_of_mem dstOut inside)
  have start : Finishing matrix dstAcc dstOut dstScratch unit.dst 0 0
      (storeMasks (dstScratch * 64) unit.clearDstRegAddr) := by
    refine ⟨fun addr even inside => ?_, masked.1, masked.2.1, by omega, changes⟩
    rw [masked.2.2 addr even (by simpa [inside] using apartMasks.symm)]
    exact skewed addr even inside
  have done : Finishing matrix dstAcc dstOut dstScratch unit.dst 4 0
      ((List.range 4).foldl (fun unit g => (List.range 4).foldl
        (finishRows (dstAcc * 64) (dstOut * 64) (dstScratch * 64) g) unit)
        (storeMasks (dstScratch * 64) unit.clearDstRegAddr)) := by
    apply foldl_range_induct
      (fun g unit' => Finishing matrix dstAcc dstOut dstScratch unit.dst g 0 unit') 4 start
    intro g hg middle so
    have rows := foldl_range_induct (Finishing matrix dstAcc dstOut dstScratch unit.dst g) 4 so
      fun v hv middle so => finishRows_spec apartAcc apartScratch hg hv so
    refine ⟨rows.skewed, rows.masks, rows.counter, ?_, rows.changes⟩
    intro addr even inside other hother v hv place earlier
    exact rows.natural addr even inside other hother v hv place (by omega)
  rw [matmulFp32Finish, tileRows, State.clearDstRegAddr, Dst.tile_eq_load]
  have even : (64 * dstOut + (16 * (2 * (row / 16) + col / 16) + row % 16 / 4 * 4 +
      col % 2 * 2)) % 2 = 0 := by omega
  have inside : (64 * dstOut + (16 * (2 * (row / 16) + col / 16) + row % 16 / 4 * 4 +
      col % 2 * 2)) / 64 = dstOut := by omega
  obtain ⟨g, hg, v, hv, place⟩ := upperSlot_exists _ even
  rw [done.natural _ even inside g hg v hv place (Or.inl hg), naturalSlot]
  congr 1
  · show 16 * (_ / 32) + _ % 16 / 4 * 4 + row % 4 = row
    omega
  · show 16 * (_ / 16 % 2) + 2 * (col % 16 / 2) + _ / 2 % 2 = col
    omega

end Libtt.MatmulFp32

import Libtt.Foundation.Loop
import Mathlib.Data.Finset.Fold
import Mathlib.Tactic.Ring

/-!
# Wide row reductions on idle cores

`parallel_wide_reductions.patch`: a row reduction whose tile rows leave cores idle views the width as
chunks, reduces each chunk's width, and combines the chunks as a height. The tensors are tiled and of
rank 4; what the device operations leave in the padding is open, save where it says otherwise.
-/
namespace Libtt.Reductions

open Libtt.Foundation

variable {α : Type}

def minWidthTilesPerRow : Nat := 128

/-- `get_width_chunks`. -/
def getWidthChunks (tileRows widthTiles cores : Nat) : Nat :=
  if tileRows = 0 ∨ widthTiles / tileRows < minWidthTilesPerRow then 1
  else
    ((List.range (cores / tileRows - 1)).foldl (fun (best : Nat × Nat) i =>
      let chunks := i + 2
      if widthTiles % chunks ≠ 0 then best
      else
        let cost := widthTiles / chunks + chunks
        if cost < best.2 then (chunks, cost) else best) (1, widthTiles)).1

theorem getWidthChunks_spec (tileRows widthTiles cores : Nat) :
    getWidthChunks tileRows widthTiles cores = 1 ∨
      2 ≤ getWidthChunks tileRows widthTiles cores ∧
        getWidthChunks tileRows widthTiles cores ∣ widthTiles ∧
        getWidthChunks tileRows widthTiles cores * tileRows ≤ cores := by
  rw [getWidthChunks]
  split
  · exact .inl rfl
  · refine foldl_range_induct (fun _ (best : Nat × Nat) => best.1 = 1 ∨
      2 ≤ best.1 ∧ best.1 ∣ widthTiles ∧ best.1 * tileRows ≤ cores) _ (.inl rfl) ?_
    intro i less best found
    dsimp only
    split
    · exact found
    · rename_i divides
      split
      · have fits : (i + 2) * tileRows ≤ cores / tileRows * tileRows :=
          Nat.mul_le_mul_right _ (by omega)
        exact .inr ⟨by omega, Nat.dvd_of_mod_eq_zero (not_not.mp divides),
          fits.trans (Nat.div_mul_le_self _ _)⟩
      · exact found

/-- A tile has rows and columns. -/
structure Tile where
  height : Nat
  width : Nat
  height_pos : 0 < height
  width_pos : 0 < width

structure Shape where
  d0 : Nat
  d1 : Nat
  d2 : Nat
  d3 : Nat

/-- A tiled tensor: its tiles in row-major order of the padded shape. -/
structure TileTensor (α : Type) where
  logical : Shape
  padded : Shape
  tiles : Nat → Nat → Nat → α

def roundUp (number multiple : Nat) : Nat := (number + multiple - 1) / multiple * multiple

variable (tile : Tile)

namespace TileTensor

/-- The tile that has an element of the padded shape. -/
def tileOf (tensor : TileTensor α) (i0 i1 i2 i3 : Nat) : Nat :=
  ((i0 * tensor.padded.d1 + i1) * (tensor.padded.d2 / tile.height) + i2 / tile.height) *
    (tensor.padded.d3 / tile.width) + i3 / tile.width

def at' (tensor : TileTensor α) (i0 i1 i2 i3 : Nat) : α :=
  tensor.tiles (tensor.tileOf tile i0 i1 i2 i3) (i2 % tile.height) (i3 % tile.width)

/-- `view`: the same tiles under other shapes. -/
def view (tensor : TileTensor α) (logical padded : Shape) : TileTensor α :=
  { tensor with logical, padded }

def tileRows (tensor : TileTensor α) : Nat :=
  tensor.padded.d0 * tensor.padded.d1 * (tensor.padded.d2 / tile.height)

/-- The input as chunks of its width. -/
def split (tensor : TileTensor α) (chunks : Nat) : TileTensor α :=
  tensor.view
    ⟨tensor.tileRows tile, chunks, min tensor.logical.d2 tile.height, tensor.logical.d3 / chunks⟩
    ⟨tensor.tileRows tile, chunks, tile.height, tensor.logical.d3 / chunks⟩

/-- The inputs that are split: of whole tiles in width, and padded to whole tiles in height. -/
structure Wide (tensor : TileTensor α) : Prop where
  padded0 : tensor.padded.d0 = tensor.logical.d0
  padded1 : tensor.padded.d1 = tensor.logical.d1
  padded2 : tensor.padded.d2 = roundUp tensor.logical.d2 tile.height
  padded3 : tensor.padded.d3 = tensor.logical.d3
  width : tile.width ∣ tensor.logical.d3

end TileTensor

variable (combine : α → α → α) [Std.Commutative combine] [Std.Associative combine] (padValue : α)

/-- The combination of some elements, in any order. -/
def combination (count : Nat) (element : Nat → α) : α :=
  (Finset.range count).fold combine padValue element

/-- The W kernel combines the elements of each row into its first column. -/
structure ReducesWidth (input output : TileTensor α) : Prop where
  logical : output.logical = { input.logical with d3 := 1 }
  padded : output.padded = { input.padded with d3 := tile.width }
  element : ∀ i0 < input.logical.d0, ∀ i1 < input.logical.d1, ∀ i2 < input.logical.d2,
    output.at' tile i0 i1 i2 0 =
      combination combine padValue input.logical.d3 (input.at' tile i0 i1 i2)

/-- The H kernel combines the elements of each column, its padding included, into its first row. -/
structure ReducesHeight (input output : TileTensor α) : Prop where
  logical : output.logical = { input.logical with d2 := 1 }
  padded : output.padded = { input.padded with d2 := tile.height }
  element : ∀ i0 < input.logical.d0, ∀ i1 < input.logical.d1, ∀ i3 < input.logical.d3,
    output.at' tile i0 i1 0 i3 =
      combination combine padValue input.padded.d2 fun i2 => input.at' tile i0 i1 i2 i3

/-- `transpose` of dimensions 1 and 2, whose padding in height has the pad value. -/
structure Transposes (input output : TileTensor α) : Prop where
  logical : output.logical =
    ⟨input.logical.d0, input.logical.d2, input.logical.d1, input.logical.d3⟩
  padded : output.padded = ⟨input.logical.d0, input.logical.d2,
    roundUp input.logical.d1 tile.height, roundUp input.logical.d3 tile.width⟩
  element : ∀ i0 < input.logical.d0, ∀ i1 < input.logical.d1, ∀ i2 < input.logical.d2,
    ∀ i3 < input.logical.d3, output.at' tile i0 i2 i1 i3 = input.at' tile i0 i1 i2 i3
  padding : ∀ i0 < input.logical.d0, ∀ i2 < input.logical.d2, ∀ i3 < input.logical.d3,
    ∀ i1, input.logical.d1 ≤ i1 → i1 < roundUp input.logical.d1 tile.height →
      output.at' tile i0 i2 i1 i3 = padValue

/-- The chunked path of `reduce`. -/
inductive ReducesChunks (input : TileTensor α) (chunks : Nat) : TileTensor α → Prop
  | intro {partials heights reduced result : TileTensor α}
    (width : ReducesWidth tile combine padValue (input.split tile chunks) partials)
    (transposed : Transposes tile padValue partials heights)
    (height : ReducesHeight tile combine padValue heights reduced)
    (back : Transposes tile padValue reduced result) :
    ReducesChunks input chunks (result.view { input.logical with d3 := 1 }
      { input.padded with d3 := tile.width })

variable {tile combine padValue}

namespace TileTensor

variable {input : TileTensor α} {chunks : Nat}

/-- The tile row of an element. -/
def rowOf (tile : Tile) (input : TileTensor α) (i0 i1 i2 : Nat) : Nat :=
  (i0 * input.padded.d1 + i1) * (input.padded.d2 / tile.height) + i2 / tile.height

/-- A chunk's elements are in the tiles that the input has them in. -/
theorem split_at (wide : input.Wide tile) (divides : chunks ∣ input.logical.d3 / tile.width)
    (some' : 0 < chunks) (i0 i1 i2 chunk w : Nat) :
    (input.split tile chunks).tileOf tile (input.rowOf tile i0 i1 i2) chunk (i2 % tile.height) w =
        input.tileOf tile i0 i1 i2 (chunk * (input.logical.d3 / chunks) + w) ∧
      (input.split tile chunks).at' tile (input.rowOf tile i0 i1 i2) chunk (i2 % tile.height) w =
        input.at' tile i0 i1 i2 (chunk * (input.logical.d3 / chunks) + w) := by
  obtain ⟨per, isPer⟩ := divides
  have whole : input.logical.d3 = chunks * per * tile.width := by
    rw [← isPer, Nat.div_mul_cancel wide.width]
  have perChunk : input.logical.d3 / chunks = per * tile.width := by
    rw [whole, Nat.mul_assoc, Nat.mul_div_cancel_left _ some']
  have same : (input.split tile chunks).tileOf tile (input.rowOf tile i0 i1 i2) chunk
      (i2 % tile.height) w =
        input.tileOf tile i0 i1 i2 (chunk * (input.logical.d3 / chunks) + w) := by
    have row : i2 % tile.height / tile.height = 0 := Nat.div_eq_of_lt (Nat.mod_lt _ tile.height_pos)
    have column : (chunk * (per * tile.width) + w) / tile.width = chunk * per + w / tile.width := by
      rw [← Nat.mul_assoc, Nat.add_comm, Nat.add_mul_div_right _ _ tile.width_pos, Nat.add_comm]
    simp only [tileOf, split, view, rowOf, wide.padded3, perChunk, row, column,
      Nat.div_self tile.height_pos, Nat.mul_div_cancel _ tile.width_pos, isPer]
    ring
  refine ⟨same, ?_⟩
  rw [at', same, at', Nat.mod_mod, perChunk, ← Nat.mul_assoc, Nat.mul_add_mod_self_right]
  rfl

theorem rowOf_lt (wide : input.Wide tile) {i0 i1 i2 : Nat} (in0 : i0 < input.logical.d0)
    (in1 : i1 < input.logical.d1) (in2 : i2 < input.logical.d2) :
    input.rowOf tile i0 i1 i2 < input.tileRows tile := by
  rw [← wide.padded0] at in0
  rw [← wide.padded1] at in1
  have inTile : i2 / tile.height < input.padded.d2 / tile.height := by
    rw [wide.padded2, roundUp, Nat.mul_div_cancel _ tile.height_pos,
      Nat.div_lt_iff_lt_mul tile.height_pos]
    have rounded := Nat.div_add_mod (input.logical.d2 + tile.height - 1) tile.height
    have rest := Nat.mod_lt (input.logical.d2 + tile.height - 1) tile.height_pos
    rw [Nat.mul_comm] at rounded
    omega
  have row : i0 * input.padded.d1 + i1 + 1 ≤ input.padded.d0 * input.padded.d1 := by
    have next := Nat.mul_le_mul_right input.padded.d1 (Nat.succ_le_of_lt in0)
    rw [Nat.succ_mul] at next
    omega
  have next := Nat.mul_le_mul_right (input.padded.d2 / tile.height) row
  rw [Nat.succ_mul] at next
  rw [rowOf, tileRows]
  omega

/-- The last view has a row's result where the transpose left it. -/
theorem view_back (tensor : TileTensor α) (logical : Shape) {rows : Nat} (i0 i1 i2 : Nat)
    (padded : tensor.padded = ⟨rows, 1, tile.height, tile.width⟩) :
    (tensor.view logical { input.padded with d3 := tile.width }).at' tile i0 i1 i2 0 =
      tensor.at' tile (input.rowOf tile i0 i1 i2) 0 (i2 % tile.height) 0 := by
  have row : i2 % tile.height / tile.height = 0 := Nat.div_eq_of_lt (Nat.mod_lt _ tile.height_pos)
  simp only [at', tileOf, view, rowOf, padded, row, Nat.div_self tile.height_pos,
    Nat.div_self tile.width_pos, Nat.zero_div, Nat.mul_one, Nat.add_zero, Nat.mod_mod]

end TileTensor

section Combination

theorem combination_succ (count : Nat) (element : Nat → α) :
    combination combine padValue (count + 1) element =
      combine (element count) (combination combine padValue count element) := by
  rw [combination, Finset.range_add_one, Finset.fold_insert Finset.notMem_range_self]
  rfl

theorem combination_congr {count : Nat} {first second : Nat → α}
    (same : ∀ i < count, first i = second i) :
    combination combine padValue count first = combination combine padValue count second :=
  Finset.fold_congr fun i member => same i (Finset.mem_range.mp member)

variable (identity : ∀ value, combine value padValue = value)
include identity

theorem combination_add (count more : Nat) (element : Nat → α) :
    combination combine padValue (count + more) element =
      combine (combination combine padValue count element)
        (combination combine padValue more fun i => element (count + i)) := by
  induction more with
  | zero => exact (identity _).symm
  | succ more ih =>
    have comm : ∀ first second, combine first second = combine second first :=
      Std.Commutative.comm
    have assoc : ∀ first second third, combine (combine first second) third =
      combine first (combine second third) := Std.Associative.assoc
    rw [← Nat.add_assoc, combination_succ, ih, combination_succ, ← assoc, comm (element _), assoc]

/-- The chunks of some elements combine to the elements, each once. -/
theorem combination_chunks (chunks per : Nat) (element : Nat → α) :
    (combination combine padValue chunks fun chunk =>
      combination combine padValue per fun w => element (chunk * per + w)) =
      combination combine padValue (chunks * per) element := by
  induction chunks with
  | zero => rw [Nat.zero_mul]; rfl
  | succ chunks ih =>
    rw [combination_succ, ih, Nat.succ_mul, combination_add identity]
    exact Std.Commutative.comm _ _

/-- Pad values change nothing. -/
theorem combination_padded {count padded : Nat} (le : count ≤ padded) {element : Nat → α}
    (pads : ∀ i, count ≤ i → i < padded → element i = padValue) :
    combination combine padValue padded element = combination combine padValue count element := by
  induction padded, le using Nat.le_induction with
  | base => rfl
  | succ padded le ih =>
    rw [combination_succ, pads padded le (Nat.lt_succ_self padded),
      ih fun i above less => pads i above (Nat.lt_succ_of_lt less)]
    exact (Std.Commutative.comm _ _).trans (identity _)

end Combination

theorem le_roundUp (number : Nat) {multiple : Nat} (positive : 0 < multiple) :
    number ≤ roundUp number multiple := by
  have rounded := Nat.div_add_mod (number + multiple - 1) multiple
  have rest := Nat.mod_lt (number + multiple - 1) positive
  rw [Nat.mul_comm] at rounded
  rw [roundUp]
  omega

theorem roundUp_of_le {number multiple : Nat} (positive : 0 < number) (le : number ≤ multiple) :
    roundUp number multiple = multiple := by
  have once : (number + multiple - 1) / multiple = 1 :=
    Nat.div_eq_of_lt_le (by omega) (by omega)
  rw [roundUp, once, Nat.one_mul]

/-- A chunked reduction combines each logical row's own elements. -/
theorem ReducesChunks.element {input output : TileTensor α} {chunks : Nat}
    (identity : ∀ value, combine value padValue = value) (wide : input.Wide tile)
    (divides : chunks ∣ input.logical.d3 / tile.width) (several : 0 < chunks)
    (reduces : ReducesChunks tile combine padValue input chunks output) {i0 i1 i2 : Nat}
    (in0 : i0 < input.logical.d0) (in1 : i1 < input.logical.d1) (in2 : i2 < input.logical.d2) :
    output.at' tile i0 i1 i2 0 =
      combination combine padValue input.logical.d3 (input.at' tile i0 i1 i2) := by
  obtain ⟨width, transposed, height, back⟩ := reduces
  rename_i partials heights reduced result
  have rowLess := TileTensor.rowOf_lt wide in0 in1 in2
  have inTile := Nat.mod_lt i2 tile.height_pos
  -- The row is one of the rows that every tile row has.
  have inRows : i2 % tile.height < min input.logical.d2 tile.height :=
    lt_min ((Nat.mod_le _ _).trans_lt in2) inTile
  have ofPartials := width.logical
  have ofHeights := transposed.logical
  have ofReduced := height.logical
  have padded := back.padded
  rw [ofPartials] at ofHeights
  rw [ofHeights] at ofReduced
  rw [ofReduced] at padded
  simp only [TileTensor.split, TileTensor.view] at ofPartials ofHeights ofReduced padded
  rw [roundUp_of_le (by omega) (min_le_right _ _), roundUp_of_le Nat.one_pos tile.width_pos] at padded
  have heightRows : heights.padded.d2 = roundUp chunks tile.height := by
    rw [transposed.padded, ofPartials]
  have whole : chunks * (input.logical.d3 / chunks) = input.logical.d3 :=
    Nat.mul_div_cancel' (divides.trans (Nat.div_dvd_of_dvd wide.width))
  rw [TileTensor.view_back _ _ _ _ _ padded,
    back.element _ (by rwa [ofReduced]) _ (by rwa [ofReduced]) 0 (by rw [ofReduced]; exact Nat.one_pos)
      0 (by rw [ofReduced]; exact Nat.one_pos),
    height.element _ (by rwa [ofHeights]) _ (by rwa [ofHeights]) 0
      (by rw [ofHeights]; exact Nat.one_pos), heightRows,
    combination_padded identity (le_roundUp chunks tile.height_pos) fun chunk above less =>
      transposed.padding _ (by rwa [ofPartials]) _ (by rwa [ofPartials]) 0
        (by rw [ofPartials]; exact Nat.one_pos) chunk (by rwa [ofPartials]) (by rwa [ofPartials]),
    ← whole, ← combination_chunks identity]
  refine combination_congr fun chunk isChunk => ?_
  rw [transposed.element _ (by rwa [ofPartials]) chunk (by rwa [ofPartials]) _ (by rwa [ofPartials]) 0
    (by rw [ofPartials]; exact Nat.one_pos), width.element _ rowLess chunk isChunk _ inRows]
  exact combination_congr fun w _ => (TileTensor.split_at wide divides several i0 i1 i2 chunk w).2

/-- Splitting a wide reduction uses idle cores only, reads the same tiles, and combines the same
elements. -/
theorem wide_reduction (identity : ∀ value, combine value padValue = value)
    {input : TileTensor α} (wide : input.Wide tile) (cores : Nat) :
    let widthTiles := input.logical.d3 / tile.width
    let chunks := getWidthChunks (input.tileRows tile) widthTiles cores
    (chunks = 1 ∨ chunks ∣ widthTiles ∧ chunks * input.tileRows tile ≤ cores) ∧
      (∀ i0 i1 i2 chunk w, (input.split tile chunks).tileOf tile (input.rowOf tile i0 i1 i2) chunk
          (i2 % tile.height) w =
        input.tileOf tile i0 i1 i2 (chunk * (input.logical.d3 / chunks) + w)) ∧
      ∀ output, ReducesChunks tile combine padValue input chunks output →
        output.logical = { input.logical with d3 := 1 } ∧
        ∀ i0 < input.logical.d0, ∀ i1 < input.logical.d1, ∀ i2 < input.logical.d2,
          output.at' tile i0 i1 i2 0 =
            combination combine padValue input.logical.d3 (input.at' tile i0 i1 i2) := by
  intro widthTiles chunks
  have found := getWidthChunks_spec (input.tileRows tile) widthTiles cores
  have divides : chunks ∣ widthTiles := by
    rcases found with one | ⟨-, divides, -⟩
    · rw [show chunks = 1 from one]
      exact Nat.one_dvd _
    · exact divides
  have several : 0 < chunks := by
    rcases found with one | ⟨several, -⟩ <;> omega
  refine ⟨found.imp_right And.right, fun i0 i1 i2 chunk w =>
    (TileTensor.split_at wide divides several i0 i1 i2 chunk w).1, fun output reduces => ⟨?_, ?_⟩⟩
  · cases reduces
    rfl
  · exact fun i0 in0 i1 in1 i2 in2 => reduces.element identity wide divides several in0 in1 in2

def oneTile : Tile := ⟨1, 1, Nat.one_pos, Nat.one_pos⟩

def zeros (d0 d1 d2 d3 : Nat) : TileTensor Nat :=
  ⟨⟨d0, d1, d2, d3⟩, ⟨d0, d1, d2, d3⟩, fun _ _ _ => 0⟩

theorem combination_zeros (count : Nat) : combination max 0 count (fun _ => 0) = 0 := by
  induction count with
  | zero => rfl
  | succ count ih => rw [combination_succ, ih, max_self]

theorem zeros_reduced : ReducesChunks oneTile max 0 (zeros 1 1 1 256) 2 (zeros 1 1 1 1) := by
  have width : ReducesWidth oneTile max 0 ((zeros 1 1 1 256).split oneTile 2) (zeros 1 2 1 1) :=
    ⟨rfl, rfl, fun _ _ _ _ _ _ => (combination_zeros 128).symm⟩
  have transposed : Transposes oneTile 0 (zeros 1 2 1 1) (zeros 1 1 2 1) :=
    ⟨rfl, rfl, fun _ _ _ _ _ _ _ _ => rfl, fun _ _ _ _ _ _ _ _ _ => rfl⟩
  have height : ReducesHeight oneTile max 0 (zeros 1 1 2 1) (zeros 1 1 1 1) :=
    ⟨rfl, rfl, fun _ _ _ _ _ _ => (combination_zeros 2).symm⟩
  have back : Transposes oneTile 0 (zeros 1 1 1 1) (zeros 1 1 1 1) :=
    ⟨rfl, rfl, fun _ _ _ _ _ _ _ _ => rfl, fun _ _ _ _ _ _ _ _ _ => rfl⟩
  exact .intro width transposed height back

theorem wide_reduction_zeros : (zeros 1 1 1 1).at' oneTile 0 0 0 0 =
    combination max 0 256 ((zeros 1 1 1 256).at' oneTile 0 0 0) :=
  ((wide_reduction (fun value => Nat.max_zero value) ⟨rfl, rfl, rfl, rfl, one_dvd _⟩ 2).2.2 _
    zeros_reduced).2 0 Nat.one_pos 0 Nat.one_pos 0 Nat.one_pos

end Libtt.Reductions

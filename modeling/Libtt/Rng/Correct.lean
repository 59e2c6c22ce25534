import Libtt.Rng.Elements

/-!
# rng_bits draws the reference stream

Each page of the output is written once, by the core that has its tile, so neither the partition of
the tiles nor the order of the writes matters.
-/

namespace Libtt.Rng

open Libtt.Foundation

/-- The elements of a shape are those of its batches, rows and columns. -/
theorem prod_dimensions (shape : List Nat) :
    shape.prod = (dimensions shape).1 * (dimensions shape).2.1 * (dimensions shape).2.2 := by
  have reversed : shape.prod = shape.reverse.prod := (List.reverse_perm shape).prod_eq.symm
  rw [reversed, dimensions]
  cases shape.reverse with
  | nil => rfl
  | cons W rest =>
    cases rest with
    | nil => simp
    | cons H batch =>
      simp only [List.prod_cons]
      ring

/-- There are no more tiles than elements. -/
theorem numTiles_le (shape : List Nat) : numTiles shape ≤ shape.prod := by
  obtain ⟨B, H, W, dims⟩ : ∃ B H W, dimensions shape = (B, H, W) := ⟨_, _, _, rfl⟩
  rw [prod_dimensions]
  simp only [numTiles, commonArgs, dims]
  exact Nat.mul_le_mul (Nat.mul_le_mul_left _ (by omega)) (by omega)

/-- There is a tile if there is an element. -/
theorem numTiles_pos {shape : List Nat} (positive : 0 < shape.prod) : 0 < numTiles shape := by
  obtain ⟨B, H, W, dims⟩ : ∃ B H W, dimensions shape = (B, H, W) := ⟨_, _, _, rfl⟩
  rw [prod_dimensions] at positive
  simp only [dims] at positive
  have positiveW : 0 < W := Nat.pos_of_mul_pos_left positive
  have positiveBH : 0 < B * H := Nat.pos_of_mul_pos_right positive
  simp only [numTiles, commonArgs, dims]
  exact Nat.mul_pos (Nat.mul_pos (Nat.pos_of_mul_pos_right positiveBH)
    (by have := Nat.pos_of_mul_pos_left positiveBH; omega)) (by omega)

/-- The mover restores the state before the compute kernel sees it. -/
theorem moverState_words (writeState : Bool) (page : Nat → Word) :
    (moverState writeState page).1 = page := by
  cases writeState with
  | false => rfl
  | true =>
    funext offset
    simp only [moverState, if_true, Function.update_apply]
    split
    · rename_i isHigh
      rw [isHigh]
    · split
      · rename_i isLow
        rw [isLow]
      · rfl

/-- The pages all cores write are the tiles, once each. -/
theorem flatMap_coreWrites (algorithm : RngAlgorithm) (shape : List Nat) (state : Nat → Word)
    (stale : Nat → Dst) (core first : Nat) {counts : List Nat}
    (small : first + counts.sum < 2 ^ 32) :
    (coreArgs core first counts).flatMap (coreWrites algorithm shape state stale) =
      (List.range' first counts.sum).map fun tile =>
        (tile, packTile (computeTile algorithm (commonArgs shape) state tile (stale tile))) := by
  induction counts generalizing core first with
  | nil => rfl
  | cons count counts ih =>
    rw [List.sum_cons] at small
    rw [coreArgs, List.flatMap_cons, Nat.mod_eq_of_lt (show first + count < 2 ^ 32 by omega),
      ih (core + 1) (first + count) (by omega), List.sum_cons, ← List.range'_append_1,
      List.map_append]
    congr 1
    rw [coreWrites, moverState_words, List.range'_eq_map_range, List.map_map]
    refine List.map_congr_left fun k member => ?_
    have within : k < count := List.mem_range.mp member
    simp only [Function.comp_apply, Nat.mod_eq_of_lt (show first + k < 2 ^ 32 by omega)]

/-- Only the first core writes the new state. -/
theorem filterMap_state (state : Nat → Word) (core first : Nat) (counts : List Nat) :
    ((coreArgs core first counts).filterMap fun args => (moverState args.writeState state).2) =
      if core = 0 ∧ counts ≠ [] then (moverState true state).2.toList else [] := by
  induction counts generalizing core first with
  | nil => simp [coreArgs]
  | cons count counts ih =>
    rw [coreArgs, List.filterMap_cons, ih]
    by_cases isFirst : core = 0 <;> simp [isFirst, moverState]

/-- Division by a product of mixed radices. -/
theorem tile_coordinates {b tr tc Ht Wt : Nat} (row : tr < Ht) (column : tc < Wt) :
    ((b * Ht + tr) * Wt + tc) % Wt = tc ∧ ((b * Ht + tr) * Wt + tc) / Wt % Ht = tr ∧
      ((b * Ht + tr) * Wt + tc) / (Wt * Ht) = b := by
  have quotient : ((b * Ht + tr) * Wt + tc) / Wt = b * Ht + tr := by
    rw [Nat.add_comm, Nat.add_mul_div_right _ _ (by omega), Nat.div_eq_of_lt column, Nat.zero_add]
  refine ⟨?_, ?_, ?_⟩
  · rw [Nat.mul_add_mod_self_right, Nat.mod_eq_of_lt column]
  · rw [quotient, Nat.mul_add_mod_self_right, Nat.mod_eq_of_lt row]
  · rw [← Nat.div_div_eq_div_mul, quotient, Nat.add_comm, Nat.add_mul_div_right _ _ (by omega),
      Nat.div_eq_of_lt row, Nat.zero_add]

/-- Writes of entries to different pages. -/
theorem independent_writePage (size : Nat) :
    Independent (fun place : Nat × Nat => place.1) (fun write : Nat × (Nat → Word) => write.1)
      (writePage size) where
  frame write pages place other := if_neg fun same => other same.1
  reads write pages other same place own := by
    simp only [writePage]
    split
    · rfl
    · exact same place own

section

variable (algorithm : RngAlgorithm) (shape : List Nat) (state : Nat → Word) (stale : Nat → Dst)
  {counts : List Nat} (whole : counts.sum = numTiles shape) (small : shape.prod < 2 ^ 32)
  {writes : List (Nat × (Nat → Word))}
  (order : writes.Perm ((coreArgs 0 0 counts).flatMap (coreWrites algorithm shape state stale)))
  (before : Pages)
include whole small order

/-- After all cores, in any order, each page has the entry of its tile. -/
theorem page_written {tile offset : Nat} (isTile : tile < numTiles shape)
    (within : offset < entryWords shape) :
    writes.foldl (fun pages write => writePage (entryWords shape) write pages) before (tile, offset) =
      packTile (computeTile algorithm (commonArgs shape) state tile (stale tile)) offset := by
  have tiles := numTiles_le shape
  rw [flatMap_coreWrites algorithm shape state stale 0 0 (by omega), whole] at order
  have distinct : (writes.map fun write => write.1).Nodup := by
    refine (order.map _).nodup_iff.mpr ?_
    rw [List.map_map]
    exact (List.map_id (List.range' 0 (numTiles shape))).symm ▸ List.nodup_range'
  have member : (tile, packTile (computeTile algorithm (commonArgs shape) state tile
      (stale tile))) ∈ writes := by
    refine order.mem_iff.mpr (List.mem_map.mpr ⟨tile, ?_, rfl⟩)
    rw [List.mem_range'_1]
    omega
  rw [(independent_writePage _).foldl_at distinct before member rfl, writePage,
    if_pos ⟨rfl, within⟩]

/-- For every shape, state and partition, and in whatever order the cores write, each element of
the bits is the word the reference draws for its row-major index. -/
theorem bits_drawn {index : Nat} (isElement : index < shape.prod) :
    elementAt shape
        (writes.foldl (fun pages write => writePage (entryWords shape) write pages) before) index =
      drawn algorithm (stateOf state) index := by
  have tiles := numTiles_le shape
  rw [prod_dimensions] at isElement
  obtain ⟨B, H, W, dims⟩ : ∃ B H W, dimensions shape = (B, H, W) := ⟨_, _, _, rfl⟩
  rw [dims] at isElement
  have positiveW : 0 < W := Nat.pos_of_ne_zero fun zero => by simp [zero] at isElement
  have positiveH : 0 < H := Nat.pos_of_ne_zero fun zero => by simp [zero] at isElement
  -- The row-major coordinates of the element.
  have column : index % W < W := Nat.mod_lt _ positiveW
  have row : index / W % H < H := Nat.mod_lt _ positiveH
  have batch : index / (W * H) < B := by
    refine Nat.div_lt_of_lt_mul (Nat.lt_of_lt_of_eq isElement ?_)
    ring
  have rowMajor : (index / (W * H) * H + index / W % H) * W + index % W = index := by
    have first := Nat.div_add_mod index W
    have second := Nat.div_add_mod (index / W) H
    rw [← Nat.div_div_eq_div_mul, Nat.mul_comm (index / W / H), second, Nat.mul_comm, first]
  simp only [elementAt, dims]
  have args : commonArgs shape = ⟨W, H, (W + 31) / 32, (H + 31) / 32⟩ := by
    simp only [commonArgs, dims]
  generalize index / (W * H) = b at batch rowMajor ⊢
  generalize index / W % H = r at row rowMajor ⊢
  generalize index % W = c at column rowMajor ⊢
  have tileRow : r / 32 < (H + 31) / 32 := by omega
  have tileColumn : c / 32 < (W + 31) / 32 := by omega
  obtain ⟨tc, tr, tb⟩ := tile_coordinates (b := b) tileRow tileColumn
  have isTile : (b * ((H + 31) / 32) + r / 32) * ((W + 31) / 32) + c / 32 < numTiles shape := by
    simp only [numTiles, dims, args]
    calc
      _ < (b * ((H + 31) / 32) + r / 32) * ((W + 31) / 32) + (W + 31) / 32 := by omega
      _ = (b * ((H + 31) / 32) + r / 32 + 1) * ((W + 31) / 32) := by ring
      _ ≤ ((b + 1) * ((H + 31) / 32)) * ((W + 31) / 32) := by
        refine Nat.mul_le_mul_right _ ?_
        rw [Nat.add_mul, Nat.one_mul]
        omega
      _ ≤ _ := Nat.mul_le_mul_right _ (Nat.mul_le_mul_right _ batch)
  have within : 256 * (2 * (r % 32 / 16) + c % 32 / 16) + 16 * (r % 16) + c % 16 <
      entryWords shape := by
    simp only [entryWords, topHalfTile, dims]
    split
    · rename_i half
      have half := of_decide_eq_true half
      omega
    · omega
  have rows : (W + 31) / 32 * ((H + 31) / 32) % 2 ^ 32 = (W + 31) / 32 * ((H + 31) / 32) := by
    refine Nat.mod_eq_of_lt (Nat.lt_of_le_of_lt ?_ (Nat.lt_of_le_of_lt tiles small))
    simp only [numTiles, dims, args]
    calc
      _ = 1 * ((H + 31) / 32) * ((W + 31) / 32) := by ring
      _ ≤ _ := Nat.mul_le_mul_right _ (Nat.mul_le_mul_right _ (Nat.lt_of_le_of_lt (Nat.zero_le _) batch))
  -- The offset in the page is that of the row and the column in the tile.
  obtain ⟨offset, isOffset⟩ : ∃ offset, offset =
      256 * (2 * (r % 32 / 16) + c % 32 / 16) + 16 * (r % 16) + c % 16 := ⟨_, rfl⟩
  have rowInTile : r / 32 * 32 + (16 * (offset / 256 % 4 / 2) + offset / 16 % 16) = r := by omega
  have columnInTile : c / 32 * 32 + (16 * (offset / 256 % 4 % 2) + offset % 16) = c := by omega
  rw [args, page_written algorithm shape state stale whole small order before isTile within, packTile,
    ← isOffset, computeTile_eq _ _ _ _ _ _ _ _ ?_]
  · rw [args]
    rw [rows, tc, tr, tb, Nat.add_assoc, Nat.add_assoc, columnInTile, rowInTile, rowMajor]
  · rw [args]
    rw [tr, rowInTile]
    exact row

end

/-- The state after a draw, word by word: the low word carries into the high one. -/
theorem next_state (state : State) :
    state.next = ⟨state.w0, state.w1 + 1, state.h0,
      state.h1 + if state.w1 = 0xFFFFFFFF#32 then 1 else 0⟩ := by
  obtain ⟨w0, w1, h0, h1⟩ := state
  have whole : (h1 ++ w1 : BitVec 64).toNat = h1.toNat * 2 ^ 32 + w1.toNat := by
    rw [BitVec.toNat_append, ← Nat.shiftLeft_add_eq_or_of_lt w1.isLt, Nat.shiftLeft_eq]
  have low : ((h1 ++ w1 : BitVec 64) + 1#64).setWidth 32 = w1 + 1 := by
    refine BitVec.eq_of_toNat_eq ?_
    rw [BitVec.toNat_setWidth, BitVec.toNat_add, whole, BitVec.toNat_add]
    change (h1.toNat * 2 ^ 32 + w1.toNat + 1) % 2 ^ 64 % 2 ^ 32 = (w1.toNat + 1) % 2 ^ 32
    omega
  have high : (((h1 ++ w1 : BitVec 64) + 1#64) >>> 32).setWidth 32 =
      h1 + if w1 = 0xFFFFFFFF#32 then 1 else 0 := by
    refine BitVec.eq_of_toNat_eq ?_
    rw [BitVec.toNat_setWidth, BitVec.toNat_ushiftRight, BitVec.toNat_add, whole,
      Nat.shiftRight_eq_div_pow]
    change (h1.toNat * 2 ^ 32 + w1.toNat + 1) % 2 ^ 64 / 2 ^ 32 % 2 ^ 32 = _
    split
    · rename_i carries
      rw [carries, BitVec.toNat_add]
      change (h1.toNat * 2 ^ 32 + 4294967295 + 1) % 2 ^ 64 / 2 ^ 32 % 2 ^ 32 = (h1.toNat + 1) % 2 ^ 32
      omega
    · rename_i fits
      have below : w1.toNat ≠ 4294967295 := fun same => fits (BitVec.eq_of_toNat_eq same)
      change _ = (h1 + 0#32).toNat
      rw [BitVec.add_zero]
      omega
  simp only [State.next, low, high]

/-- What the cores write to the new state: one page, with the next state. -/
theorem state_advanced (shape : List Nat) (state : Nat → Word) {counts : List Nat}
    (whole : counts.sum = numTiles shape) (positive : 0 < shape.prod) :
    ∃ page, ((coreArgs 0 0 counts).filterMap fun args => (moverState args.writeState state).2) =
        [page] ∧ stateOf page = (stateOf state).next := by
  have some : counts ≠ [] := by
    rintro rfl
    have tile := numTiles_pos positive
    rw [← whole, List.sum_nil] at tile
    exact Nat.lt_irrefl 0 tile
  refine ⟨_, by rw [filterMap_state, if_pos ⟨rfl, some⟩]; rfl, ?_⟩
  rw [next_state]
  rfl

/-- `rng_bits`, for every shape, state and partition of the tiles over cores, and whatever order
they write in: the bits are the reference stream, and the new state is the next one. -/
theorem rng_bits_draws (algorithm : RngAlgorithm) (shape : List Nat) (positive : 0 < shape.prod)
    (small : shape.prod < 2 ^ 32) (state : Nat → Word) (stale : Nat → Dst) {counts : List Nat}
    (whole : counts.sum = numTiles shape) {writes : List (Nat × (Nat → Word))}
    (order : writes.Perm ((coreArgs 0 0 counts).flatMap (coreWrites algorithm shape state stale)))
    (before : Pages) :
    (∀ index < shape.prod,
      elementAt shape
          (writes.foldl (fun pages write => writePage (entryWords shape) write pages) before)
          index = drawn algorithm (stateOf state) index) ∧
      ∃ page, ((coreArgs 0 0 counts).filterMap fun args => (moverState args.writeState state).2) =
        [page] ∧ stateOf page = (stateOf state).next :=
  ⟨fun _ isElement => bits_drawn algorithm shape state stale whole small order before isElement,
    state_advanced shape state whole positive⟩

/-- The theorem at 33 words, on two cores that write in the other order. -/
theorem rng_bits_draws_vector :
    elementAt [33]
        (((coreArgs 0 0 [1, 1]).flatMap
          (coreWrites .Philox [33] (fun _ => 5) fun _ _ => 0)).reverse.foldl
            (fun pages write => writePage (entryWords [33]) write pages) fun _ => 0) 32 =
      drawn .Philox ⟨5, 5, 5, 5⟩ 32 :=
  (rng_bits_draws .Philox [33] (by decide) (by decide) (fun _ => 5) (fun _ _ => 0)
    (by decide : [1, 1].sum = numTiles [33]) (List.reverse_perm _) fun _ => 0).1 32 (by decide)

end Libtt.Rng

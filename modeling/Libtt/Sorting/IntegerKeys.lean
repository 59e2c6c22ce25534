import Libtt.Foundation.StableOrder
import Libtt.StableHlo.Permute

/-!
# Sorts of 32-bit integer keys

The device sorts floats. Integer keys are sorted by their low and then by their high 16 bits, in
rows with the sorted dimension last, and the other inputs are reordered by the indices of the sort.
Sizes and indices are numbers here.
-/
namespace Libtt.Sorting

open Libtt.Foundation Libtt.StableHlo

variable {F κ α : Type}

abbrev Word := BitVec 32

/-- The device's f32 values of integers, and the indices of its stable sorts of a row. -/
structure Device (F : Type) where
  typecast : Int → F
  sort : (isDescending : Bool) → List F → List Nat

/-- The order of a sort: ascending or descending. -/
def direction [LT κ] (isDescending : Bool) (first second : κ) : Prop :=
  if isDescending then second < first else first < second

instance [LT κ] [DecidableLT κ] (isDescending : Bool) :
    DecidableRel (direction isDescending : κ → κ → Prop) := fun first second =>
  inferInstanceAs (Decidable (if isDescending then second < first else first < second))

/-- Integers of up to 24 bits are exact in f32, and `ttir.sort` is stable. -/
structure Device.Exact [LinearOrder F] (device : Device F) : Prop where
  typecast (first second : Int) : first.natAbs ≤ 2 ^ 24 → second.natAbs ≤ 2 ^ 24 →
    (device.typecast first < device.typecast second ↔ first < second)
  sort [Inhabited F] (isDescending : Bool) (row : List F) :
    StableOrder (direction isDescending) (fun place => row.getD place default) row.length
      (device.sort isDescending row)

inductive SortType
  | valueOnly | valueIndex | keyValue
  deriving DecidableEq, Repr

/-- A further input: whether it is an integer of 16 bits or more, and its elements. -/
structure SortInput (α : Type) where
  isGathered : Bool
  operand : Tensor α

/-- A sort by 32-bit integers. -/
structure SortOp (α : Type) where
  keys : Tensor Word
  sortDim : Nat
  isUnsigned : Bool
  isDescending : Bool
  sortType : SortType
  /-- The inputs of a key-value sort. In a value-index sort the one other input is an iota. -/
  values : List (SortInput α)

structure SortResults (α : Type) where
  keys : Tensor Word
  indices : Option (Tensor Nat)
  values : List (Tensor α)

/-- `ttir.gather` along dimension 1. -/
def gather (input : Tensor α) (index : Tensor Nat) : Tensor α where
  shape := index.shape
  data place := input.data (place.set 1 (index.data place))

/-- The indices of `ttir.sort` along dimension 1. -/
def sortIndices (device : Device F) (isDescending : Bool) (input : Tensor F) : Tensor Nat where
  shape := input.shape
  data place := (device.sort isDescending
    (input.line 1 place (List.range (input.shape.getD 1 0)))).getD (place.getD 1 0) 0

/-- `ttir.arange` with a start of 0, along dimension 0. -/
def arange (shape : List Nat) (step : Nat) : Tensor Nat where
  shape := shape
  data place := place.getD 0 0 * step

/-- `ttir.embedding`: the rows of a table at some indices. -/
def embedding (index : Tensor Nat) (table : Tensor α) : Tensor α where
  shape := index.shape ++ [table.shape.getD 1 0]
  data place := table.data [index.data place.dropLast, place.getLastD 0]

/-- The indices that sort each row, and the sorted rows. -/
def sortInt32KeyRows (device : Device F) (isUnsigned isDescending : Bool) (rows : Tensor Word) :
    Tensor Word × Tensor Nat :=
  let read := fun word : Word => if isUnsigned then (word.toNat : Int) else word.toInt
  let low := rows.map fun word : Word => device.typecast (read (word &&& 0xFFFF#32))
  let high := rows.map fun word : Word =>
    device.typecast (read (if isUnsigned then word >>> 16 else word.sshiftRight 16))
  let lowOrder := sortIndices device isDescending low
  let highOrder := sortIndices device isDescending (gather high lowOrder)
  let indices := gather lowOrder highOrder
  (gather rows indices, indices)

namespace SortOp

variable (op : SortOp α)

def origShape : List Nat := op.keys.shape

def dSort : Nat := op.origShape.getD op.sortDim 0

/-- The elements by rows; there is no quotient by zero. -/
def prePost : Option Nat := if op.dSort = 0 then none else some (op.origShape.prod / op.dSort)

/-- All dimensions but the sorted one, which is last. -/
def perm : List Nat :=
  (List.range op.origShape.length).filter (fun d => d != op.sortDim) ++ [op.sortDim]

def permShape : List Nat := applyPermutation op.origShape op.perm

def toRows {β : Type} (prePost : Nat) (value : Tensor β) : Tensor β :=
  (value.permute op.perm).reshape [prePost, op.dSort]

def fromRows {β : Type} (value : Tensor β) : Tensor β :=
  (value.reshape op.permShape).permute (inversePermutation op.perm)

/-- A further input in the order of the keys. -/
def reordered (prePost : Nat) (indices2D : Tensor Nat) (value : SortInput α) : Tensor α :=
  let rows := op.toRows prePost value.operand
  let total := prePost * op.dSort
  op.fromRows (if value.isGathered then gather rows indices2D
    else
      let flatIndices := (arange [prePost, op.dSort] op.dSort).zipWith (· + ·) indices2D
      embedding flatIndices (rows.reshape [total, 1]))

def lower (device : Device F) : Option (SortResults α) :=
  op.prePost.map fun prePost =>
    let (keyRows, indices2D) :=
      sortInt32KeyRows device op.isUnsigned op.isDescending (op.toRows prePost op.keys)
    let sortedKeys := op.fromRows keyRows
    match op.sortType with
    | .valueOnly => ⟨sortedKeys, none, []⟩
    | .valueIndex => ⟨sortedKeys, some (op.fromRows indices2D), []⟩
    | .keyValue => ⟨sortedKeys, none, op.values.map (op.reordered prePost indices2D)⟩

end SortOp

end Libtt.Sorting

/-! ## Sorted halves are sorted keys -/
namespace Libtt.Sorting

open Libtt.Foundation Libtt.StableHlo

variable {F α β : Type}

/-- The number that a key stands for. -/
def keyValue (isUnsigned : Bool) (word : Word) : Int :=
  if isUnsigned then (word.toNat : Int) else word.toInt

def lowHalf (isUnsigned : Bool) (word : Word) : Int := keyValue isUnsigned (word &&& 0xFFFF#32)

def highHalf (isUnsigned : Bool) (word : Word) : Int :=
  keyValue isUnsigned (if isUnsigned then word >>> 16 else word.sshiftRight 16)

/-- The low half is unsigned. -/
theorem lowHalf_eq (isUnsigned : Bool) (word : Word) :
    lowHalf isUnsigned word = (word.toNat % 2 ^ 16 : Nat) := by
  have masked : (word &&& 0xFFFF#32).toNat = word.toNat % 2 ^ 16 := by
    rw [BitVec.toNat_and, show (0xFFFF#32).toNat = 2 ^ 16 - 1 from rfl,
      Nat.and_two_pow_sub_one_eq_mod]
  cases isUnsigned
  · rw [lowHalf, keyValue, if_neg (by decide), BitVec.toInt_eq_toNat_of_lt (by omega), masked]
  · rw [lowHalf, keyValue, if_pos rfl, masked]

/-- The halves make up the key: the high half carries the sign. -/
theorem keyValue_eq (isUnsigned : Bool) (word : Word) :
    keyValue isUnsigned word = highHalf isUnsigned word * 2 ^ 16 + lowHalf isUnsigned word := by
  rw [lowHalf_eq]
  cases isUnsigned
  · have shifted : (word.sshiftRight 16).toInt = word.toInt >>> (16 : Nat) :=
      BitVec.toInt_sshiftRight
    have whole := word.toInt_eq_toNat_cond
    simp only [keyValue, highHalf, Bool.false_eq_true, if_false]
    rw [shifted, Int.shiftRight_eq_div_pow]
    omega
  · have shifted : (word >>> 16).toNat = word.toNat / 2 ^ 16 := by
      rw [BitVec.toNat_ushiftRight, Nat.shiftRight_eq_div_pow]
    simp only [keyValue, highHalf, if_true]
    omega

/-- Both halves are exact in f32. -/
theorem halves_exact (isUnsigned : Bool) (word : Word) :
    (lowHalf isUnsigned word).natAbs ≤ 2 ^ 24 ∧ (highHalf isUnsigned word).natAbs ≤ 2 ^ 24 := by
  have whole := keyValue_eq isUnsigned word
  rw [lowHalf_eq] at whole ⊢
  have signed := word.toInt_eq_toNat_cond
  unfold keyValue at whole
  split at whole <;> omega

section Rows

variable [LinearOrder F] {device : Device F} (exact : device.Exact)
include exact

/-- The casts of exact integers are in the integers' order. -/
theorem direction_typecast {isDescending : Bool} {first second : Int}
    (isFirst : first.natAbs ≤ 2 ^ 24) (isSecond : second.natAbs ≤ 2 ^ 24) :
    direction isDescending (device.typecast first) (device.typecast second) ↔
      direction isDescending first second := by
  unfold direction
  split
  · exact exact.typecast second first isSecond isFirst
  · exact exact.typecast first second isFirst isSecond

theorem typecast_injective {first second : Int} (isFirst : first.natAbs ≤ 2 ^ 24)
    (isSecond : second.natAbs ≤ 2 ^ 24) (same : device.typecast first = device.typecast second) :
    first = second := by
  have forward := exact.typecast first second isFirst isSecond
  have backward := exact.typecast second first isSecond isFirst
  rw [same, lt_self_iff_false, false_iff] at forward backward
  omega

/-- The device's order of some floats is the stable one. -/
theorem sort_stable (isDescending : Bool) (value : Nat → F) (count : Nat) :
    StableOrder (direction isDescending) value count
      (device.sort isDescending ((List.range count).map value)) := by
  let _ : Inhabited F := ⟨value 0⟩
  have stable := exact.sort isDescending ((List.range count).map value)
  rw [List.length_map, List.length_range] at stable
  have element {place : Nat} (less : place < count) :
      ((List.range count).map value).getD place default = value place := by
    simp [less]
  apply stable.congr
  · intro first isFirst second isSecond ordered
    rwa [element isFirst, element isSecond] at ordered
  · intro first isFirst second isSecond same
    rwa [element isFirst, element isSecond] at same

/-- By the low halves, and then by the high halves, a row is in the stable order of its keys. -/
theorem halves_stable (isUnsigned isDescending : Bool) (key : Nat → Word) (count : Nat) :
    let lowOrder := device.sort isDescending ((List.range count).map fun place =>
      device.typecast (lowHalf isUnsigned (key place)))
    let highOrder := device.sort isDescending ((List.range count).map fun place =>
      device.typecast (highHalf isUnsigned (key (lowOrder.getD place 0))))
    StableOrder (direction isDescending) (fun place => keyValue isUnsigned (key place)) count
      (highOrder.map fun place => lowOrder.getD place 0) := by
  intro lowOrder highOrder
  have isLow := sort_stable exact isDescending
    (fun place => device.typecast (lowHalf isUnsigned (key place))) count
  have isHigh := sort_stable exact isDescending (fun place =>
    device.typecast (highHalf isUnsigned (key (lowOrder.getD place 0)))) count
  have low (place : Nat) := (halves_exact isUnsigned (key place)).1
  have high (place : Nat) := (halves_exact isUnsigned (key place)).2
  apply StableOrder.digits (fun place => device.typecast (lowHalf isUnsigned (key place)))
    (fun place => device.typecast (highHalf isUnsigned (key place))) isLow isHigh
  · intro first second ordered
    rw [direction_typecast exact (high first) (high second)] at ordered
    have firstLow := lowHalf_eq isUnsigned (key first)
    have secondLow := lowHalf_eq isUnsigned (key second)
    have firstKey := keyValue_eq isUnsigned (key first)
    have secondKey := keyValue_eq isUnsigned (key second)
    unfold direction at ordered ⊢
    split at ordered
    · rename_i descending
      rw [if_pos descending]
      omega
    · rename_i ascending
      rw [if_neg ascending]
      omega
  · intro first second sameHigh ordered
    rw [direction_typecast exact (low first) (low second)] at ordered
    have same := typecast_injective exact (high first) (high second) sameHigh
    rw [keyValue_eq, keyValue_eq isUnsigned (key second), same]
    unfold direction at ordered ⊢
    split at ordered
    · rename_i descending
      rw [if_pos descending]
      omega
    · rename_i ascending
      rw [if_neg ascending]
      omega
  · intro first second sameHigh sameLow
    rw [keyValue_eq, keyValue_eq isUnsigned (key second),
      typecast_injective exact (high first) (high second) sameHigh,
      typecast_injective exact (low first) (low second) sameLow]

/-- Each row is sorted by the indices. -/
theorem sortInt32KeyRows_row (isUnsigned isDescending : Bool) {rows : Tensor Word}
    {count height : Nat} (isShape : rows.shape = [height, count]) (row : Nat) :
    ∃ order : List Nat, StableOrder (direction isDescending)
        (fun place => keyValue isUnsigned (rows.data [row, place])) count order ∧
      ∀ place < count,
        (sortInt32KeyRows device isUnsigned isDescending rows).2.data [row, place] =
          order.getD place 0 ∧
        (sortInt32KeyRows device isUnsigned isDescending rows).1.data [row, place] =
          rows.data [row, order.getD place 0] := by
  have stable := halves_stable exact isUnsigned isDescending (fun place => rows.data [row, place])
    count
  set lowOrder := device.sort isDescending ((List.range count).map fun place =>
    device.typecast (lowHalf isUnsigned (rows.data [row, place])))
  set highOrder := device.sort isDescending ((List.range count).map fun place =>
    device.typecast (highHalf isUnsigned (rows.data [row, lowOrder.getD place 0])))
  have length : highOrder.length = count := by
    rw [← List.length_map fun place => lowOrder.getD place 0, stable.length]
  have whole : rows.shape.getD 1 0 = count := by
    rw [isShape]
    rfl
  have low (place : Nat) : (sortIndices device isDescending (rows.map fun word : Word =>
      device.typecast (lowHalf isUnsigned word))).data [row, place] = lowOrder.getD place 0 := by
    simp only [sortIndices, Tensor.map, whole]
    rfl
  have high (place : Nat) : (sortIndices device isDescending (gather (rows.map fun word : Word =>
      device.typecast (highHalf isUnsigned word)) (sortIndices device isDescending
        (rows.map fun word : Word => device.typecast (lowHalf isUnsigned word))))).data
          [row, place] = highOrder.getD place 0 := by
    have line : (gather (rows.map fun word : Word => device.typecast (highHalf isUnsigned word))
        (sortIndices device isDescending (rows.map fun word : Word =>
          device.typecast (lowHalf isUnsigned word)))).line 1 [row, place] (List.range count) =
        (List.range count).map fun place =>
          device.typecast (highHalf isUnsigned (rows.data [row, lowOrder.getD place 0])) := by
      apply List.map_congr_left
      intro other _
      exact congrArg (fun index => device.typecast (highHalf isUnsigned (rows.data [row, index])))
        (low other)
    change (device.sort isDescending (Tensor.line _ 1 [row, place]
      (List.range (rows.shape.getD 1 0)))).getD place 0 = _
    rw [whole, line]
  have indices (place : Nat) (less : place < count) :
      (sortInt32KeyRows device isUnsigned isDescending rows).2.data [row, place] =
        (highOrder.map fun place => lowOrder.getD place 0).getD place 0 := by
    rw [List.getD_eq_getElem _ _ (by rw [List.length_map, length]; exact less), List.getElem_map,
      ← List.getD_eq_getElem _ 0 (by rw [length]; exact less), ← high place]
    exact low _
  exact ⟨_, stable, fun place less => ⟨indices place less,
    congrArg (fun index => rows.data [row, index]) (indices place less)⟩⟩

end Rows

namespace SortOp

variable {op : SortOp α} {index : List Nat}

def otherDims (op : SortOp α) : List Nat :=
  (List.range op.origShape.length).filter fun d => d != op.sortDim

/-- The row that an index is in. -/
def row (op : SortOp α) (index : List Nat) : Nat :=
  position (applyPermutation op.origShape op.otherDims) (applyPermutation index op.otherDims)

/-- The number of rows. -/
def height (op : SortOp α) : Nat := (applyPermutation op.origShape op.otherDims).prod

/-- What a sort is checked for. -/
structure Valid (op : SortOp α) : Prop where
  sortDim : op.sortDim < op.origShape.length
  shapes : ∀ value ∈ op.values, value.operand.shape = op.origShape
  /-- Only a key-value sort has further inputs that are not an iota. -/
  values : op.sortType ≠ .keyValue → op.values = []

theorem mem_otherDims {d : Nat} : d ∈ op.otherDims ↔ d < op.origShape.length ∧ d ≠ op.sortDim := by
  simp [otherDims]

section Layout

variable (inside : op.sortDim < op.origShape.length)
include inside

theorem perm_perm : op.perm.Perm (List.range op.origShape.length) := by
  have once : op.perm.Nodup := by
    apply List.nodup_append.mpr
    refine ⟨List.nodup_range.filter _, List.nodup_singleton _, ?_⟩
    intro d other last isLast same
    rw [List.mem_singleton] at isLast
    exact (mem_otherDims.mp other).2 (same.trans isLast)
  apply (List.perm_ext_iff_of_nodup once List.nodup_range).mpr
  intro d
  simp only [perm, List.mem_append, List.mem_filter, List.mem_range, List.mem_singleton,
    bne_iff_ne]
  omega

omit inside in
theorem apply_perm (values : List Nat) : applyPermutation values op.perm =
    applyPermutation values op.otherDims ++ [values.getD op.sortDim 0] := List.map_append

theorem volume : op.height * op.dSort = op.origShape.prod := by
  have isPermutation := (perm_perm inside).length_eq
  rw [List.length_range] at isPermutation
  have whole : (applyPermutation op.origShape op.perm).prod = op.origShape.prod :=
    IsPermutation.prod_apply (by rw [IsPermutation, isPermutation]; exact perm_perm inside)
      isPermutation.symm
  rw [apply_perm, List.prod_append, List.prod_singleton] at whole
  exact whole

theorem prePost_eq (several : op.dSort ≠ 0) : op.prePost = some op.height := by
  rw [prePost, if_neg several, ← volume inside, Nat.mul_div_cancel _ (Nat.pos_of_ne_zero several)]

variable (isIndex : Within index op.origShape)
include isIndex

theorem within_row : Within [op.row index, index.getD op.sortDim 0] [op.height, op.dSort] := by
  apply List.Forall₂.cons
  · apply position_lt
    exact within_applyPermutation isIndex fun d member => (mem_otherDims.mp member).1
  · exact .cons ((within_iff_getD.mp isIndex).2 _ inside) .nil

omit inside in
/-- The number of an index, by its row. -/
theorem position_perm : position op.permShape (applyPermutation index op.perm) =
    op.row index * op.dSort + index.getD op.sortDim 0 := by
  have isOthers : Within (applyPermutation index op.otherDims)
      (applyPermutation op.origShape op.otherDims) :=
    within_applyPermutation isIndex fun d member => (mem_otherDims.mp member).1
  rw [permShape, apply_perm, apply_perm, position_append isOthers]
  simp [position, row, dSort]

/-- The rows have the elements of an input, along the sorted dimension. -/
theorem toRows_data {value : Tensor β} (isShape : value.shape = op.origShape) :
    (op.toRows op.height value).data [op.row index, index.getD op.sortDim 0] =
      value.data index := by
  have isPermutation := isPermutation_of_perm (perm_perm inside)
  have length : value.shape.length = op.perm.length := by rw [isShape, isPermutation.2]
  have origin := isPermutation.1.within (isPermutation.2.symm) isIndex
  have number : position [op.height, op.dSort] [op.row index, index.getD op.sortDim 0] =
      position op.permShape (applyPermutation index op.perm) := by
    rw [position_perm isIndex]
    simp [position]
  unfold toRows
  rw [Tensor.reshape_data_of_position (within_row inside isIndex) (by
    rw [Tensor.permute, isShape]
    exact origin) (by
      rw [Tensor.permute, isPermutation.1.prod_apply length, isShape, ← volume inside]
      simp) (by
        rw [Tensor.permute, isShape]
        exact number)]
  exact isPermutation.1.permute_data value (isIndex.length.trans isPermutation.2.symm)

/-- What is moved back has the element of the index's row. -/
theorem fromRows_data {value : Tensor β} {origin : List Nat} (isOrigin : Within origin value.shape)
    (prod : value.shape.prod = op.height * op.dSort)
    (same : position value.shape origin = op.row index * op.dSort + index.getD op.sortDim 0) :
    (op.fromRows value).data index = value.data origin := by
  have isPermutation := isPermutation_of_perm (perm_perm inside)
  have permuted : Within (applyPermutation index op.perm) op.permShape :=
    isPermutation.1.within isPermutation.2.symm isIndex
  rw [fromRows, isPermutation.1.permute_inverse_data]
  apply Tensor.reshape_data_of_position permuted isOrigin
  · rw [permShape, isPermutation.1.prod_apply isPermutation.2.symm, prod, volume inside]
  · rw [position_perm isIndex, same]

end Layout

theorem fromRows_shape (inside : op.sortDim < op.origShape.length) (value : Tensor β) :
    (op.fromRows value).shape = op.origShape := by
  have isPermutation := isPermutation_of_perm (perm_perm inside)
  exact isPermutation.1.apply_inverse isPermutation.2.symm

/-- Along the sorted dimension, indices are in one row. -/
theorem within_set (isIndex : Within index op.origShape) {coordinate : Nat}
    (less : coordinate < op.dSort) : Within (index.set op.sortDim coordinate) op.origShape := by
  rw [within_iff_getD, List.length_set]
  constructor
  · exact isIndex.length
  · intro d inside
    by_cases along : d = op.sortDim
    · subst along
      rw [getD_set (isIndex.length ▸ inside), if_pos rfl]
      exact less
    · have unchanged : (index.set op.sortDim coordinate).getD d 0 = index.getD d 0 := by
        rw [List.getD_eq_getElem?_getD, List.getElem?_set_ne (Ne.symm along),
          ← List.getD_eq_getElem?_getD]
      rw [unchanged]
      exact (within_iff_getD.mp isIndex).2 d inside

theorem row_set (index : List Nat) (coordinate : Nat) :
    op.row (index.set op.sortDim coordinate) = op.row index := by
  unfold row
  congr 1
  apply applyPermutation_congr
  intro d member
  rw [List.getD_eq_getElem?_getD, List.getElem?_set_ne (mem_otherDims.mp member).2.symm,
    ← List.getD_eq_getElem?_getD]

/-- The keys along the sorted dimension. -/
def lineKey (op : SortOp α) (index : List Nat) (place : Nat) : Int :=
  keyValue op.isUnsigned (op.keys.data (index.set op.sortDim place))

/-- What a stable sort returns: the inputs in the stable order of the keys, along the sorted
dimension. -/
structure Sorts (op : SortOp α) (results : SortResults α) : Prop where
  keysShape : results.keys.shape = op.origShape
  hasIndices : results.indices.isSome = (op.sortType == .valueIndex)
  indicesShape : ∀ indices ∈ results.indices, indices.shape = op.origShape
  valuesShape : ∀ value ∈ results.values, value.shape = op.origShape
  elements (index : List Nat) : Within index op.origShape →
    ∃ order : List Nat,
      StableOrder (direction op.isDescending) (op.lineKey index) op.dSort order ∧
      results.keys.data index =
        op.keys.data (index.set op.sortDim (order.getD (index.getD op.sortDim 0) 0)) ∧
      -- The iota has its own places in that order.
      (∀ indices ∈ results.indices,
        indices.data index = order.getD (index.getD op.sortDim 0) 0) ∧
      List.Forall₂ (fun value result => result.data index = value.operand.data
        (index.set op.sortDim (order.getD (index.getD op.sortDim 0) 0))) op.values results.values

section Elements

variable (inside : op.sortDim < op.origShape.length) (isIndex : Within index op.origShape)
include inside isIndex

/-- An element of a row, at a place of the index's line. -/
theorem toRows_line {value : Tensor β} (isShape : value.shape = op.origShape) {place : Nat}
    (less : place < op.dSort) : (op.toRows op.height value).data [op.row index, place] =
      value.data (index.set op.sortDim place) := by
  have element := toRows_data inside (within_set isIndex less) isShape
  rwa [row_set, getD_set (isIndex.length ▸ inside), if_pos rfl] at element

/-- Rows that are moved back. -/
theorem fromRows_rows {value : Tensor β} (isShape : value.shape = [op.height, op.dSort]) :
    (op.fromRows value).data index = value.data [op.row index, index.getD op.sortDim 0] := by
  apply fromRows_data inside isIndex
  · rw [isShape]
    exact within_row inside isIndex
  · rw [isShape]
    simp
  · rw [isShape]
    simp [position]

/-- A further input is in the order of the indices. -/
theorem reordered_data {indices2D : Tensor Nat}
    (isIndices : indices2D.shape = [op.height, op.dSort]) {value : SortInput α}
    (isShape : value.operand.shape = op.origShape) {place : Nat} (less : place < op.dSort)
    (isPlace : indices2D.data [op.row index, index.getD op.sortDim 0] = place) :
    (op.reordered op.height indices2D value).data index =
      value.operand.data (index.set op.sortDim place) := by
  have own := within_row inside isIndex
  have other : Within [op.row index, place] [op.height, op.dSort] := by
    cases own with
    | cons isRow _ => exact .cons isRow (.cons less .nil)
  rw [← toRows_line inside isIndex isShape less, ← isPlace]
  unfold reordered
  split
  · exact fromRows_rows inside isIndex isIndices
  · have flat : Within [op.row index * op.dSort + place, 0] [op.height * op.dSort, 1] := by
      have number := position_lt other
      simp only [position, List.prod_cons, List.prod_nil, Nat.mul_one, Nat.add_zero] at number
      exact .cons number (.cons Nat.one_pos .nil)
    have looked : (((op.toRows op.height value.operand).reshape
        [op.height * op.dSort, 1]).data [op.row index * op.dSort + place, 0]) =
          (op.toRows op.height value.operand).data [op.row index, place] := by
      apply Tensor.reshape_data_of_position flat other
      · simp [toRows]
      · simp [position, toRows]
    have origin : Within [op.row index, index.getD op.sortDim 0, 0] [op.height, op.dSort, 1] :=
      List.rel_append own (.cons Nat.one_pos .nil)
    rw [fromRows_data inside isIndex origin]
    · change ((op.toRows op.height value.operand).reshape [op.height * op.dSort, 1]).data
        [op.row index * op.dSort + indices2D.data [op.row index, index.getD op.sortDim 0], 0] = _
      rw [isPlace, looked]
    · simp [embedding, arange, Tensor.zipWith]
    · simp [embedding, arange, Tensor.zipWith, position]

end Elements

section Lowered

variable [LinearOrder F] {device : Device F} (exact : device.Exact) (valid : op.Valid)
include exact valid

/-- The lowering sorts if the sorted dimension has elements. -/
theorem lower_sorts (several : op.dSort ≠ 0) :
    ∃ results, op.lower device = some results ∧ op.Sorts results := by
  have inside := valid.sortDim
  set rows := op.toRows op.height op.keys with isRows
  set sorted := sortInt32KeyRows device op.isUnsigned op.isDescending rows with isSorted
  have isShape : sorted.2.shape = [op.height, op.dSort] := rfl
  have keysShape : sorted.1.shape = [op.height, op.dSort] := rfl
  have elements (index : List Nat) (isIndex : Within index op.origShape) :
      ∃ order : List Nat, StableOrder (direction op.isDescending) (op.lineKey index) op.dSort order ∧
        order.getD (index.getD op.sortDim 0) 0 < op.dSort ∧
        sorted.2.data [op.row index, index.getD op.sortDim 0] =
          order.getD (index.getD op.sortDim 0) 0 ∧
        sorted.1.data [op.row index, index.getD op.sortDim 0] =
          op.keys.data (index.set op.sortDim (order.getD (index.getD op.sortDim 0) 0)) := by
    obtain ⟨order, stable, indices⟩ := sortInt32KeyRows_row exact op.isUnsigned op.isDescending
      (show rows.shape = [op.height, op.dSort] from rfl) (op.row index)
    have below : index.getD op.sortDim 0 < op.dSort := (within_iff_getD.mp isIndex).2 _ inside
    have place := stable.getD_lt below
    have key {coordinate : Nat} (less : coordinate < op.dSort) :
        op.lineKey index coordinate =
          keyValue op.isUnsigned (rows.data [op.row index, coordinate]) := by
      rw [isRows, toRows_line inside isIndex rfl less]
      rfl
    refine ⟨order, ?_, place, (indices _ below).1, ?_⟩
    · apply stable.congr
      · intro first isFirst second isSecond ordered
        rwa [key isFirst, key isSecond]
      · intro first isFirst second isSecond same
        rwa [key isFirst, key isSecond]
    · rw [(indices _ below).2, isRows, toRows_line inside isIndex rfl place]
  have sorts (indices : Option (Tensor Nat))
      (hasIndices : indices.isSome = (op.sortType == .valueIndex))
      (isIndices : ∀ tensor ∈ indices, tensor = op.fromRows sorted.2) :
      op.Sorts ⟨op.fromRows sorted.1, indices, op.values.map (op.reordered op.height sorted.2)⟩ := by
    constructor
    · exact fromRows_shape inside _
    · exact hasIndices
    · intro tensor member
      rw [isIndices tensor member]
      exact fromRows_shape inside _
    · intro value member
      obtain ⟨input, _, rfl⟩ := List.mem_map.mp member
      exact fromRows_shape inside _
    · intro index isIndex
      obtain ⟨order, stable, place, isPlace, isKey⟩ := elements index isIndex
      refine ⟨order, stable, ?_, ?_, ?_⟩
      · rw [fromRows_rows inside isIndex keysShape, isKey]
      · intro tensor member
        rw [isIndices tensor member, fromRows_rows inside isIndex isShape, isPlace]
      · rw [List.forall₂_map_right_iff]
        apply List.forall₂_same.mpr
        intro value member
        exact reordered_data inside isIndex isShape (valid.shapes value member) place isPlace
  rw [lower, prePost_eq inside several]
  refine ⟨_, rfl, ?_⟩
  cases sortType : op.sortType with
  | valueOnly =>
    have none := sorts none (by rw [sortType]; rfl) (fun _ member => by cases member)
    rwa [valid.values (by rw [sortType]; decide)] at none
  | valueIndex =>
    have some := sorts (some (op.fromRows sorted.2)) (by rw [sortType]; rfl)
      (fun _ member => (Option.some.inj member).symm)
    rwa [valid.values (by rw [sortType]; decide)] at some
  | keyValue => exact sorts none (by rw [sortType]; rfl) (fun _ member => by cases member)

end Lowered

end SortOp

/-- A device whose floats are integers. -/
def integerDevice : Device Int where
  typecast := id
  sort isDescending row := (List.range row.length).insertionSort fun first second =>
    ¬direction isDescending (row.getD second 0) (row.getD first 0)

theorem integerDevice_exact : integerDevice.Exact where
  typecast _ _ _ _ := Iff.rfl
  sort isDescending row := by
    have total (first second : Int) : direction isDescending first second ∨ first = second ∨
        direction isDescending second first := by
      unfold direction
      split <;> omega
    have trans (first second third : Int) (less : direction isDescending first second)
        (alsoLess : direction isDescending second third) : direction isDescending first third := by
      unfold direction at less alsoLess ⊢
      split at less <;> simp_all <;> omega
    have stable := stableOrder_insertionSort total trans (fun place => row.getD place 0) row.length
    have element {place : Nat} (less : place < row.length) :
        row.getD place default = row.getD place 0 := by
      rw [List.getD_eq_getElem _ _ less, List.getD_eq_getElem _ _ less]
    apply stable.congr
    · intro first isFirst second isSecond ordered
      rwa [element isFirst, element isSecond]
    · intro first isFirst second isSecond same
      rwa [element isFirst, element isSecond]

/-- Rows of two keys and their places, in columns. -/
def columns (rows : Nat) : SortOp Nat where
  keys := ⟨[rows, 2], fun index => BitVec.ofInt 32 (3 - 65536 * (position [rows, 2] index : Int))⟩
  sortDim := 0
  isUnsigned := false
  isDescending := false
  sortType := .keyValue
  values := [⟨false, ⟨[rows, 2], position [rows, 2]⟩⟩]

theorem columns_valid (rows : Nat) : (columns rows).Valid := by
  constructor
  · simp [columns, SortOp.origShape]
  · simp [columns, SortOp.origShape]
  · simp [columns]

end Libtt.Sorting

import Libtt.StableHlo.DotGeneral

/-!
# Dots as multiplications

A dot of which one operand, V, has only batch and contracting dimensions is V broadcast over the
other operand A, multiplied and summed over the contraction.
-/
namespace Libtt.Dots

open Libtt.StableHlo

variable {α : Type} [NonUnitalNonAssocSemiring α]

inductive ElementType
  | f32 | f16 | otherFloat | other
  deriving DecidableEq, Repr

def ElementType.isFloat (type : ElementType) : Bool := type != .other

/-- What the conversion calls in its class and in `ttmlir::utils`. -/
structure Utilities where
  getResultDims : (batchDims contractDims : List Nat) → (rank : Nat) → List Nat
  computeProductOfDims : (shape dims : List Nat) → Nat
  generatePermutation : (input output : List Nat) → List Nat

/-- Its documented results: the dimensions that are left, and the place in the input of each element
of the output. -/
structure Utilities.Documented (utilities : Utilities) : Prop where
  getResultDims (batchDims contractDims : List Nat) (rank : Nat) :
    utilities.getResultDims batchDims contractDims rank = freeDims batchDims contractDims rank
  generatePermutation (input output : List Nat) : input.Nodup → output.Perm input →
    utilities.generatePermutation input output = output.map fun d => input.idxOf d

/-- A product of tensors of one rank, whose dimensions of one element are broadcast. -/
def broadcastMultiply (shape : List Nat) (lhs rhs : Tensor α) : Tensor α where
  shape := shape
  data index :=
    let broadcast := fun operand : Tensor α => operand.data
      (List.zipWith (fun size coordinate => if size = 1 then 0 else coordinate) operand.shape index)
    broadcast lhs * broadcast rhs

/-- A sum that does not keep the summed dimensions. -/
def sum (dims : List Nat) (operand : Tensor α) : Tensor α where
  shape := without dims 0 operand.shape
  data index := ((positions dims 0 operand.shape index).map operand.data).sum

/-- The operand A and the vector V with their dimensions. -/
structure Reduction (α : Type) where
  a : Tensor α
  v : Tensor α
  aBatchDims : List Nat
  vBatchDims : List Nat
  aContractDims : List Nat
  vContractDims : List Nat
  aFreeDims : List Nat

namespace Reduction

variable (reduction : Reduction α)

/-- V's dimension for one of A's, if that is not free. -/
def partner (d : Nat) : Option Nat :=
  if d ∈ reduction.aBatchDims then
    some (reduction.vBatchDims.getD (reduction.aBatchDims.idxOf d) 0)
  else if d ∈ reduction.aContractDims then
    some (reduction.vContractDims.getD (reduction.aContractDims.idxOf d) 0)
  else none

/-- V's dimensions in A's order. -/
def vPermutation : List Nat := (List.range reduction.a.shape.length).filterMap reduction.partner

/-- With a unit dimension at each of A's free dimensions. -/
def vShape : List Nat := (List.range reduction.a.shape.length).map fun d =>
  match reduction.partner d with
  | some dim => reduction.v.shape.getD dim 0
  | none => 1

def vector : Tensor α :=
  (if reduction.vPermutation = List.range reduction.v.shape.length then reduction.v
  else reduction.v.permute reduction.vPermutation).reshape reduction.vShape

def product : Tensor α :=
  broadcastMultiply reduction.a.shape (reduction.a.reshape reduction.a.shape) reduction.vector

/-- The dimensions that the sum keeps, in A's order. -/
def keptDims : List Nat :=
  (List.range reduction.a.shape.length).filter fun d => !reduction.aContractDims.contains d

def keptShape : List Nat := reduction.keptDims.map fun d => reduction.a.shape.getD d 0

def summed : Tensor α :=
  (sum reduction.aContractDims reduction.product).reshape reduction.keptShape

def result (utilities : Utilities) : Tensor α :=
  -- The dot's result is [batch dims in pairing order, free dims].
  let resultPermutation := utilities.generatePermutation reduction.keptDims
    (reduction.aBatchDims ++ reduction.aFreeDims)
  if resultPermutation = List.range resultPermutation.length then reduction.summed
  else reduction.summed.permute resultPermutation

/-- Where a matmul is preferred. -/
def declined (utilities : Utilities) (elementType : ElementType) : Bool :=
  let product := utilities.computeProductOfDims reduction.a.shape
  (elementType != .f32 && elementType != .f16 && product reduction.aBatchDims ≤ 1) ||
    32 < product reduction.aFreeDims || product reduction.aContractDims ≤ 1

end Reduction

/-- The result, or none when the dot is not reduced. -/
def strengthReduce (utilities : Utilities) (op : DotGeneralOp) (elementType : ElementType)
    (fp32Exact : Bool) (lhs rhs : Tensor α) : Option (Tensor α) :=
  if !elementType.isFloat || fp32Exact then none
  else
    let lhsFreeDims :=
      utilities.getResultDims op.batchDimsLhs op.contractDimsLhs lhs.shape.length
    let rhsFreeDims :=
      utilities.getResultDims op.batchDimsRhs op.contractDimsRhs rhs.shape.length
    let vIsLhs := lhsFreeDims.isEmpty
    if !vIsLhs && !rhsFreeDims.isEmpty then none
    else
      let reduction : Reduction α :=
        if vIsLhs then ⟨rhs, lhs, op.batchDimsRhs, op.batchDimsLhs, op.contractDimsRhs,
          op.contractDimsLhs, rhsFreeDims⟩
        else ⟨lhs, rhs, op.batchDimsLhs, op.batchDimsRhs, op.contractDimsLhs,
          op.contractDimsRhs, lhsFreeDims⟩
      if reduction.declined utilities elementType then none
      else some (reduction.result utilities)

end Libtt.Dots

/-! ## Multiplied and summed, a dot is a dot -/
namespace Libtt.Dots

open Libtt.StableHlo Libtt.StableHlo.Tensor

variable {α : Type}

namespace Reduction

variable {reduction : Reduction α}

/-- A's dimensions that are paired with the vector's. -/
def aPaired (reduction : Reduction α) : List Nat :=
  reduction.aBatchDims ++ reduction.aContractDims

/-- All of the vector's dimensions. -/
def vPaired (reduction : Reduction α) : List Nat :=
  reduction.vBatchDims ++ reduction.vContractDims

/-- All of A's dimensions. -/
def aDims (reduction : Reduction α) : List Nat := reduction.aPaired ++ reduction.aFreeDims

/-- The dimensions are listed once, and paired ones have the same size. -/
structure Valid (reduction : Reduction α) : Prop where
  a : reduction.aDims.Perm (List.range reduction.a.shape.length)
  v : reduction.vPaired.Perm (List.range reduction.v.shape.length)
  batch : applyPermutation reduction.a.shape reduction.aBatchDims =
    applyPermutation reduction.v.shape reduction.vBatchDims
  contract : applyPermutation reduction.a.shape reduction.aContractDims =
    applyPermutation reduction.v.shape reduction.vContractDims

/-- A's dimensions that are paired with one of the vector's, in A's order. -/
def pairedDims (reduction : Reduction α) : List Nat :=
  dimsWhere (fun d => reduction.aPaired.contains d) reduction.a.shape.length

section Paired

variable (valid : reduction.Valid)
include valid

theorem length_batchDims : reduction.aBatchDims.length = reduction.vBatchDims.length := by
  simpa using congrArg List.length valid.batch

theorem length_paired : reduction.aPaired.length = reduction.vPaired.length := by
  have contract := congrArg List.length valid.contract
  rw [length_applyPermutation, length_applyPermutation] at contract
  simp [aPaired, vPaired, length_batchDims valid, contract]

theorem nodup_aDims : reduction.aDims.Nodup := valid.a.nodup_iff.mpr List.nodup_range

theorem nodup_aPaired : reduction.aPaired.Nodup := (List.nodup_append.mp (nodup_aDims valid)).1

theorem aPaired_lt {d : Nat} (member : d ∈ reduction.aPaired) : d < reduction.a.shape.length :=
  List.mem_range.mp (valid.a.mem_iff.mp (List.mem_append_left _ member))

/-- The paired dimensions have the same sizes. -/
theorem paired_sizes : applyPermutation reduction.a.shape reduction.aPaired =
    applyPermutation reduction.v.shape reduction.vPaired := by
  rw [aPaired, vPaired, applyPermutation_append, applyPermutation_append, valid.batch,
    valid.contract]

/-- A paired dimension's partner is at its place. -/
theorem partner_eq (d : Nat) : reduction.partner d =
    if d ∈ reduction.aPaired then
      some (reduction.vPaired.getD (reduction.aPaired.idxOf d) 0) else none := by
  have lengths := length_batchDims valid
  unfold partner aPaired vPaired
  by_cases batch : d ∈ reduction.aBatchDims
  · rw [if_pos batch, if_pos (List.mem_append_left _ batch), List.idxOf_append_of_mem batch,
      List.getD_append _ _ _ _ (lengths ▸ List.idxOf_lt_length_of_mem batch)]
  · rw [if_neg batch, List.idxOf_append_of_notMem batch,
      List.getD_append_right _ _ _ _ (by omega), ← lengths, Nat.add_sub_cancel_left]
    simp [batch]

theorem vPermutation_eq : reduction.vPermutation = reduction.pairedDims.map fun d =>
    reduction.vPaired.getD (reduction.aPaired.idxOf d) 0 := by
  rw [vPermutation, pairedDims, dimsWhere, ← List.filterMap_eq_map, List.filterMap_filter]
  apply List.filterMap_congr
  intro d _
  rw [partner_eq valid]
  by_cases paired : d ∈ reduction.aPaired <;> simp [paired]

theorem pairedDims_perm : reduction.pairedDims.Perm reduction.aPaired := by
  apply (List.perm_ext_iff_of_nodup (nodup_dimsWhere ..) (nodup_aPaired valid)).mpr
  intro d
  rw [mem_dimsWhere, List.contains_iff_mem]
  exact ⟨fun inside => inside.2, fun member => ⟨aPaired_lt valid member, member⟩⟩

/-- The vector's dimensions are permuted. -/
theorem vPermutation_perm :
    reduction.vPermutation.Perm (List.range reduction.v.shape.length) := by
  have partners : reduction.aPaired.map (fun d =>
      reduction.vPaired.getD (reduction.aPaired.idxOf d) 0) = reduction.vPaired := by
    apply List.ext_getElem
    · rw [List.length_map, length_paired valid]
    · intro place isPlace _
      rw [List.length_map] at isPlace
      rw [List.getElem_map, (nodup_aPaired valid).idxOf_getElem _ isPlace,
        List.getD_eq_getElem _ _ (length_paired valid ▸ isPlace)]
  have moved := (pairedDims_perm valid).map fun d =>
    reduction.vPaired.getD (reduction.aPaired.idxOf d) 0
  rw [partners, ← vPermutation_eq valid] at moved
  exact moved.trans valid.v

/-- Where an index of the vector agrees with one of A at the paired dimensions. -/
theorem apply_vPermutation {index partner : List Nat}
    (same : applyPermutation partner reduction.vPaired = applyPermutation index reduction.aPaired) :
    applyPermutation partner reduction.vPermutation =
      applyPermutation index reduction.pairedDims := by
  rw [vPermutation_eq valid, applyPermutation, List.map_map]
  apply List.map_congr_left
  intro d member
  have paired : d ∈ reduction.aPaired := List.contains_iff_mem.mp (mem_dimsWhere.mp member).2
  have place := List.idxOf_lt_length_of_mem paired
  have element := congrArg (fun values : List Nat =>
    values.getD (reduction.aPaired.idxOf d) 0) same
  rw [getD_applyPermutation (length_paired valid ▸ place), getD_applyPermutation place] at element
  rwa [List.getD_eq_getElem reduction.aPaired _ place, List.getElem_idxOf] at element

theorem getD_vShape {d : Nat} (inside : d < reduction.a.shape.length) :
    reduction.vShape.getD d 0 =
      if d ∈ reduction.aPaired then reduction.a.shape.getD d 0 else 1 := by
  rw [vShape, List.getD_eq_getElem _ _ (by simpa using inside), List.getElem_map,
    List.getElem_range, partner_eq valid]
  by_cases paired : d ∈ reduction.aPaired
  · have place := List.idxOf_lt_length_of_mem paired
    have size := congrArg (fun values : List Nat =>
      values.getD (reduction.aPaired.idxOf d) 0) (paired_sizes valid)
    rw [getD_applyPermutation place, getD_applyPermutation (length_paired valid ▸ place),
      List.getD_eq_getElem reduction.aPaired _ place, List.getElem_idxOf] at size
    rw [if_pos paired, if_pos paired]
    exact size.symm
  · rw [if_neg paired, if_neg paired]

omit valid in
theorem length_vShape : reduction.vShape.length = reduction.a.shape.length := by
  simp [vShape]

/-- The vector in A's order, before its unit dimensions. -/
theorem vShape_paired : applyPermutation reduction.vShape reduction.pairedDims =
    applyPermutation reduction.v.shape reduction.vPermutation := by
  rw [apply_vPermutation valid (paired_sizes valid).symm]
  apply applyPermutation_congr
  intro d member
  have paired := mem_dimsWhere.mp member
  rw [getD_vShape valid paired.1, if_pos (List.contains_iff_mem.mp paired.2)]

/-- An index of A where the vector's unit dimensions are broadcast. -/
def vIndex (reduction : Reduction α) (index : List Nat) : List Nat :=
  List.zipWith (fun size coordinate => if size = 1 then 0 else coordinate) reduction.vShape index

/-- The index is within the vector's shape, with A's coordinates at the paired dimensions. -/
theorem vIndex_paired {index : List Nat} (inside : Within index reduction.a.shape) :
    Within (reduction.vIndex index) reduction.vShape ∧
      applyPermutation (reduction.vIndex index) reduction.pairedDims =
        applyPermutation index reduction.pairedDims := by
  have sameLength : index.length = reduction.vShape.length := by
    rw [length_vShape, inside.length]
  have element {d : Nat} (less : d < reduction.a.shape.length) :
      (reduction.vIndex index).getD d 0 =
        if reduction.vShape.getD d 0 = 1 then 0 else index.getD d 0 := by
    have first : d < reduction.vShape.length := length_vShape ▸ less
    have second : d < index.length := sameLength ▸ first
    simp [vIndex, List.getD_eq_getElem?_getD, first, second]
  have below := (within_iff_getD.mp inside).2
  constructor
  · rw [within_iff_getD]
    constructor
    · rw [vIndex, List.length_zipWith, sameLength, Nat.min_self]
    · intro d less
      rw [length_vShape] at less
      have size := getD_vShape valid less
      rw [element less, size]
      by_cases paired : d ∈ reduction.aPaired
      · rw [if_pos paired]
        split
        · omega
        · exact below d less
      · rw [if_neg paired, if_pos rfl]
        exact Nat.one_pos
  · -- A coordinate that is dropped was zero.
    apply applyPermutation_congr
    intro d member
    have paired := mem_dimsWhere.mp member
    have size := getD_vShape valid paired.1
    rw [if_pos (List.contains_iff_mem.mp paired.2)] at size
    rw [element paired.1, size]
    split
    · have less := below d paired.1
      omega
    · rfl

/-- At an index of A the vector has the element with the same paired coordinates. -/
theorem vector_data {index : List Nat} (inside : Within index reduction.a.shape) :
    reduction.vector.data (reduction.vIndex index) = reduction.v.data
      (placed reduction.vPaired (applyPermutation index reduction.aPaired)) := by
  have isPermutation := isPermutation_of_perm (vPermutation_perm valid)
  have permuted := isPermutation.1.permute_unless_range reduction.v isPermutation.2.symm
    reduction.v.shape.length
  have within := vIndex_paired valid inside
  have units : OthersUnit (fun d => reduction.aPaired.contains d) reduction.vShape := by
    intro d less other
    rw [length_vShape] at less
    rw [getD_vShape valid less, if_neg fun member => by simp [member] at other]
  have isPaired : dimsWhere (fun d => reduction.aPaired.contains d) reduction.vShape.length =
      reduction.pairedDims := by rw [length_vShape, pairedDims]
  have length : (applyPermutation index reduction.aPaired).length = reduction.v.shape.length := by
    rw [length_applyPermutation, length_paired valid, valid.v.length_eq, List.length_range]
  have same := apply_placed valid.v length
  have isPartner : (placed reduction.vPaired (applyPermutation index reduction.aPaired)).length =
      reduction.vPermutation.length := by
    rw [length_placed, isPermutation.2, valid.v.length_eq, List.length_range]
  rw [vector, reshape_units_data units (by rw [isPaired, vShape_paired valid, permuted.1]) within.1,
    isPaired, within.2, ← apply_vPermutation valid same]
  exact permuted.2 _ isPartner

/-- The dimensions of the result: those of the batch, in pairing order, and the free ones. -/
def resultDims (reduction : Reduction α) : List Nat :=
  reduction.aBatchDims ++ reduction.aFreeDims

theorem resultDims_perm : reduction.resultDims.Perm reduction.keptDims := by
  have once := nodup_aDims valid
  have parts := List.nodup_append.mp once
  have paired := List.nodup_append.mp parts.1
  have nodup : reduction.resultDims.Nodup := by
    apply List.nodup_append.mpr
    exact ⟨paired.1, parts.2.1, fun d batch other free =>
      parts.2.2 d (List.mem_append_left _ batch) other free⟩
  apply (List.perm_ext_iff_of_nodup nodup (List.nodup_range.filter _)).mpr
  intro d
  have all : d ∈ reduction.aDims ↔ d < reduction.a.shape.length := by
    rw [valid.a.mem_iff, List.mem_range]
  have free (member : d ∈ reduction.aFreeDims) (contract : d ∈ reduction.aContractDims) :
      False := parts.2.2 d (List.mem_append_right _ contract) d member rfl
  simp only [aDims, aPaired, List.mem_append] at all
  simp only [resultDims, List.mem_append, List.mem_filter, List.mem_range, ← all,
    Bool.not_eq_true', List.contains_eq_mem, decide_eq_false_iff_not]
  tauto

/-- Where the dimensions of the result are among those that are kept. -/
abbrev order (reduction : Reduction α) : List Nat :=
  reduction.resultDims.map fun d => reduction.keptDims.idxOf d

theorem apply_order (values : List Nat) :
    applyPermutation (applyPermutation values reduction.keptDims) reduction.order =
      applyPermutation values reduction.aBatchDims ++
        applyPermutation values reduction.aFreeDims := by
  rw [applyPermutation_idxOf fun _ => (resultDims_perm valid).mem_iff.mp, resultDims,
    applyPermutation_append]

/-- An index of A with some coordinates of the batch, the contraction and the free dimensions. -/
def aIndex (reduction : Reduction α) (batch contract free : List Nat) : List Nat :=
  placed reduction.aDims (batch ++ contract ++ free)

section Coordinates

variable {batch contract free : List Nat}
  (isBatch : Within batch (applyPermutation reduction.a.shape reduction.aBatchDims))
  (isContract : Within contract (applyPermutation reduction.a.shape reduction.aContractDims))
  (isFree : Within free (applyPermutation reduction.a.shape reduction.aFreeDims))
include isBatch isContract isFree

theorem within_aIndex : Within (reduction.aIndex batch contract free) reduction.a.shape := by
  apply within_placed valid.a
  rw [aDims, aPaired, applyPermutation_append, applyPermutation_append]
  exact List.rel_append (List.rel_append isBatch isContract) isFree

/-- The index has the coordinates. -/
theorem apply_aIndex :
    applyPermutation (reduction.aIndex batch contract free) reduction.aBatchDims = batch ∧
      applyPermutation (reduction.aIndex batch contract free) reduction.aContractDims = contract ∧
      applyPermutation (reduction.aIndex batch contract free) reduction.aFreeDims = free := by
  have lengths := isBatch.length
  have lengthsContract := isContract.length
  have lengthsFree := isFree.length
  have rank := valid.a.length_eq
  rw [aDims, aPaired, List.length_append, List.length_append, List.length_range] at rank
  have length : (batch ++ contract ++ free).length = reduction.a.shape.length := by
    simp [lengths, lengthsContract, lengthsFree, ← rank, Nat.add_assoc]
  have whole := apply_placed valid.a length
  rw [aDims, aPaired, applyPermutation_append, applyPermutation_append] at whole
  have parts := List.append_inj whole (by simp [lengths, lengthsContract])
  have paired := List.append_inj parts.1 (by simp [lengths])
  exact ⟨paired.1, paired.2, parts.2⟩

end Coordinates

section

variable {kept batch free : List Nat}
  (isKept : Within kept (applyPermutation reduction.a.shape reduction.keptDims))
  (isBatch : Within batch (applyPermutation reduction.a.shape reduction.aBatchDims))
  (isFree : Within free (applyPermutation reduction.a.shape reduction.aFreeDims))
  (isResult : applyPermutation kept reduction.order = batch ++ free)
include isKept isBatch isFree isResult

/-- The positions of the sum are the indices over the contracting dimensions. -/
theorem positions_perm :
    (positions reduction.aContractDims 0 reduction.a.shape kept).Perm
      ((indices (applyPermutation reduction.a.shape reduction.aContractDims)).map fun contract =>
        reduction.aIndex batch contract free) := by
  have perm := resultDims_perm valid
  have once : ((indices (applyPermutation reduction.a.shape reduction.aContractDims)).map
      fun contract => reduction.aIndex batch contract free).Nodup := by
    apply List.Nodup.map_on
    · intro first isFirst second isSecond same
      rw [← (apply_aIndex valid isBatch (mem_indices.mp isFirst) isFree).2.1, same,
        (apply_aIndex valid isBatch (mem_indices.mp isSecond) isFree).2.1]
    · exact nodup_indices _
  apply (List.perm_ext_iff_of_nodup (nodup_positions ..) once).mpr
  intro index
  have isWithout (values : List Nat) (length : values.length = reduction.a.shape.length) :
      without reduction.aContractDims 0 values = applyPermutation values reduction.keptDims := by
    rw [without_eq, length]
    rfl
  rw [mem_positions (by rwa [isWithout _ rfl]), List.mem_map]
  constructor
  · rintro ⟨inside, isIndex⟩
    rw [isWithout _ inside.length] at isIndex
    have coordinates := apply_order valid index
    rw [isIndex, isResult] at coordinates
    have parts := List.append_inj coordinates (by
      rw [isBatch.length, length_applyPermutation, length_applyPermutation])
    refine ⟨applyPermutation index reduction.aContractDims, mem_indices.mpr ?_, ?_⟩
    · apply within_applyPermutation inside
      intro d member
      exact aPaired_lt valid (List.mem_append_right _ member)
    · rw [aIndex, parts.1, parts.2, ← applyPermutation_append, ← applyPermutation_append]
      exact placed_apply (inside.length ▸ valid.a)
  · rintro ⟨contract, member, rfl⟩
    have isContract := mem_indices.mp member
    have inside := within_aIndex valid isBatch isContract isFree
    have parts := apply_aIndex valid isBatch isContract isFree
    refine ⟨inside, ?_⟩
    rw [isWithout _ inside.length]
    have isPermutation := isPermutation_idxOf perm (List.nodup_range.filter _)
    have lengths : reduction.keptDims.length = reduction.order.length := by
      rw [List.length_map, perm.length_eq]
    have keptLength := isKept.length.trans ((length_applyPermutation ..).trans lengths)
    have indexLength := (length_applyPermutation (reduction.aIndex batch contract free)
      reduction.keptDims).trans lengths
    rw [← isPermutation.apply_inverse keptLength, isResult,
      ← isPermutation.apply_inverse indexLength, apply_order valid, parts.1, parts.2.2]

variable [NonUnitalNonAssocSemiring α]

omit isKept isBatch isFree isResult in
theorem product_data {index : List Nat} (inside : Within index reduction.a.shape) :
    reduction.product.data index = reduction.a.data index * reduction.v.data
      (placed reduction.vPaired (applyPermutation index reduction.aPaired)) := by
  have whole : (List.zipWith (fun size coordinate => if size = 1 then 0 else coordinate)
      reduction.a.shape index) = index := by
    apply ext_getD 0 (by rw [List.length_zipWith, inside.length, Nat.min_self]) inside.length
    intro d less
    have below := (within_iff_getD.mp inside).2 d less
    have isIndex : d < index.length := inside.length ▸ less
    rw [List.getD_eq_getElem _ _ (by rw [List.length_zipWith]; omega), List.getElem_zipWith,
      ← List.getD_eq_getElem _ 0 less, ← List.getD_eq_getElem _ 0 isIndex]
    split <;> omega
  rw [← vector_data valid inside]
  change (reduction.a.reshape reduction.a.shape).data (List.zipWith _ reduction.a.shape index) * _ =
    _
  rw [whole, reshape_data inside rfl, ← data_eq reduction.a inside]
  rfl

/-- The elements of the sum. -/
theorem summed_data :
    reduction.summed.data kept =
      ((indices (applyPermutation reduction.a.shape reduction.aContractDims)).map fun contract =>
        reduction.a.data (reduction.aIndex batch contract free) *
          reduction.v.data (placed reduction.vPaired (batch ++ contract))).sum := by
  have isShape : (sum reduction.aContractDims reduction.product).shape = reduction.keptShape :=
    without_eq reduction.a.shape
  have inside : Within kept (sum reduction.aContractDims reduction.product).shape :=
    isShape ▸ isKept
  have unchanged : reduction.summed.data kept =
      (sum reduction.aContractDims reduction.product).data kept := by
    rw [summed, ← isShape, reshape_data inside rfl, ← data_eq _ inside]
  rw [unchanged]
  change ((positions reduction.aContractDims 0 reduction.a.shape kept).map _).sum = _
  rw [((positions_perm valid isKept isBatch isFree isResult).map _).sum_eq, List.map_map]
  apply congrArg List.sum
  apply List.map_congr_left
  intro contract member
  have isContract := mem_indices.mp member
  have parts := apply_aIndex valid isBatch isContract isFree
  rw [Function.comp_apply, product_data valid (within_aIndex valid isBatch isContract isFree),
    aPaired, applyPermutation_append, parts.1, parts.2.1]

end

variable [NonUnitalNonAssocSemiring α]

/-- The result has the batch dimensions in pairing order and the free ones. -/
theorem result_data {utilities : Utilities} (documented : utilities.Documented) :
    (reduction.result utilities).shape =
        applyPermutation reduction.a.shape reduction.aBatchDims ++
          applyPermutation reduction.a.shape reduction.aFreeDims ∧
      ∀ batch free : List Nat,
        Within batch (applyPermutation reduction.a.shape reduction.aBatchDims) →
        Within free (applyPermutation reduction.a.shape reduction.aFreeDims) →
          (reduction.result utilities).data (batch ++ free) =
            ((indices (applyPermutation reduction.a.shape reduction.aContractDims)).map
              fun contract => reduction.a.data (reduction.aIndex batch contract free) *
                reduction.v.data (placed reduction.vPaired (batch ++ contract))).sum := by
  have perm := resultDims_perm valid
  have once : reduction.keptDims.Nodup := List.nodup_range.filter _
  have isPermutation := isPermutation_idxOf perm once
  have lengths : reduction.summed.shape.length = reduction.order.length := by
    rw [List.length_map, perm.length_eq]
    exact List.length_map _
  have generated := documented.generatePermutation _ _ once perm
  have isResult : reduction.result utilities =
      if reduction.order = List.range reduction.order.length then reduction.summed
      else reduction.summed.permute reduction.order := by
    unfold result
    rw [show reduction.aBatchDims ++ reduction.aFreeDims = reduction.resultDims from rfl, generated]
  have permuted := isPermutation.permute_unless_range reduction.summed lengths
    reduction.order.length
  constructor
  · rw [isResult, permuted.1]
    exact apply_order valid reduction.a.shape
  · intro batch free isBatch isFree
    have inside : Within (batch ++ free) (reduction.summed.permute reduction.order).shape := by
      rw [show (reduction.summed.permute _).shape = _ from apply_order valid reduction.a.shape]
      exact List.rel_append isBatch isFree
    obtain ⟨kept, isKept, same⟩ := within_permute isPermutation lengths.symm inside
    rw [same, isResult, permuted.2 kept (isKept.length.trans lengths)]
    exact summed_data valid isKept isBatch isFree same.symm

end Paired

end Reduction

/-- What an operand of a dot is reduced with. -/
theorem strengthReduce_result [CommSemiring α] {utilities : Utilities} {op : DotGeneralOp}
    {elementType : ElementType} {fp32Exact : Bool} {lhs rhs result : Tensor α}
    (documented : utilities.Documented)
    (reduced : strengthReduce utilities op elementType fp32Exact lhs rhs = some result) :
    (op.freeDimsLhs lhs.shape.length = [] ∧ result =
        Reduction.result ⟨rhs, lhs, op.batchDimsRhs, op.batchDimsLhs, op.contractDimsRhs,
          op.contractDimsLhs, op.freeDimsRhs rhs.shape.length⟩ utilities) ∨
      (op.freeDimsRhs rhs.shape.length = [] ∧ result =
        Reduction.result ⟨lhs, rhs, op.batchDimsLhs, op.batchDimsRhs, op.contractDimsLhs,
          op.contractDimsRhs, op.freeDimsLhs lhs.shape.length⟩ utilities) := by
  unfold strengthReduce at reduced
  simp only [documented.getResultDims] at reduced
  unfold DotGeneralOp.freeDimsLhs DotGeneralOp.freeDimsRhs
  split at reduced
  · cases reduced
  · by_cases vIsLhs : freeDims op.batchDimsLhs op.contractDimsLhs lhs.shape.length = []
    · left
      rw [vIsLhs] at reduced
      simp only [List.isEmpty_nil, Bool.not_true, Bool.false_and, Bool.false_eq_true, if_true,
        if_false] at reduced
      split at reduced
      · cases reduced
      · exact ⟨vIsLhs, (Option.some.inj reduced).symm⟩
    · right
      have several : (freeDims op.batchDimsLhs op.contractDimsLhs lhs.shape.length).isEmpty =
          false := by simpa using vIsLhs
      rw [several] at reduced
      simp only [Bool.not_false, Bool.true_and, Bool.not_eq_true', Bool.false_eq_true,
        if_false] at reduced
      split at reduced
      · cases reduced
      · rename_i none
        split at reduced
        · cases reduced
        · exact ⟨by simpa using none, (Option.some.inj reduced).symm⟩

/-- A reduced dot has the dot's shape and elements. -/
theorem strength_reduction [CommSemiring α] (utilities : Utilities)
    (documented : utilities.Documented) (op : DotGeneralOp) (elementType : ElementType)
    (fp32Exact : Bool) (lhs rhs result : Tensor α) (valid : op.Valid lhs.shape rhs.shape)
    (reduced : strengthReduce utilities op elementType fp32Exact lhs rhs = some result) :
    result.Same (op.eval lhs rhs) := by
  have isLhs := valid.lhs
  have isRhs := valid.rhs
  rcases strengthReduce_result documented reduced with ⟨none, rfl⟩ | ⟨none, rfl⟩
  · rw [DotGeneralOp.dimsLhs, none, List.append_nil] at isLhs
    have isValid : Reduction.Valid ⟨rhs, lhs, op.batchDimsRhs, op.batchDimsLhs,
        op.contractDimsRhs, op.contractDimsLhs, op.freeDimsRhs rhs.shape.length⟩ :=
      ⟨isRhs, isLhs, valid.batch.symm, valid.contract.symm⟩
    have whole := Reduction.result_data isValid documented
    constructor
    · rw [whole.1, DotGeneralOp.eval, DotGeneralOp.resultShape, none, valid.batch]
      exact congrArg (· ++ _) (List.append_nil _).symm
    · intro index inside
      rw [whole.1] at inside
      obtain ⟨batch, free, rfl, isBatch, isFree⟩ := within_append.mp inside
      have length : batch.length = op.batchDimsLhs.length := by
        rw [isBatch.length, ← valid.batch, length_applyPermutation]
      have data : (op.eval lhs rhs).data (batch ++ [] ++ free) =
          op.contraction lhs rhs batch [] free :=
        op.eval_data lhs rhs length (congrArg List.length none).symm
      rw [List.append_nil] at data
      rw [whole.2 batch free isBatch isFree, data, DotGeneralOp.contraction, valid.contract]
      apply congrArg List.sum
      apply List.map_congr_left
      intro contract _
      rw [mul_comm, List.append_nil, DotGeneralOp.dimsLhs, none, List.append_nil]
      rfl
  · rw [DotGeneralOp.dimsRhs, none, List.append_nil] at isRhs
    have isValid : Reduction.Valid ⟨lhs, rhs, op.batchDimsLhs, op.batchDimsRhs,
        op.contractDimsLhs, op.contractDimsRhs, op.freeDimsLhs lhs.shape.length⟩ :=
      ⟨isLhs, isRhs, valid.batch, valid.contract⟩
    have whole := Reduction.result_data isValid documented
    constructor
    · rw [whole.1, DotGeneralOp.eval, DotGeneralOp.resultShape, none]
      exact (List.append_nil _).symm
    · intro index inside
      rw [whole.1] at inside
      obtain ⟨batch, free, rfl, isBatch, isFree⟩ := within_append.mp inside
      have length : batch.length = op.batchDimsLhs.length := by
        rw [isBatch.length, length_applyPermutation]
      have data : (op.eval lhs rhs).data (batch ++ free ++ []) =
          op.contraction lhs rhs batch free [] :=
        op.eval_data lhs rhs length (by rw [isFree.length, length_applyPermutation])
      rw [List.append_nil] at data
      rw [whole.2 batch free isBatch isFree, data, DotGeneralOp.contraction]
      apply congrArg List.sum
      apply List.map_congr_left
      intro contract _
      rw [List.append_nil, DotGeneralOp.dimsRhs, none, List.append_nil]
      rfl

/-- The helpers by their documentation. -/
def documentedUtilities : Utilities where
  getResultDims := freeDims
  computeProductOfDims shape dims := (applyPermutation shape dims).prod
  generatePermutation input output := output.map fun d => input.idxOf d

/-- Two vectors of three elements, times two matrices of four rows. -/
theorem strength_reduction_vectors :
    (Reduction.result ⟨⟨[2, 4, 3], position [2, 4, 3]⟩, ⟨[3, 2], position [3, 2]⟩, [0], [1], [2],
      [0], [1]⟩ documentedUtilities).Same
        (DotGeneralOp.eval ⟨[1], [0], [0], [2]⟩ ⟨[3, 2], position [3, 2]⟩
          ⟨[2, 4, 3], position [2, 4, 3]⟩) :=
  strength_reduction documentedUtilities ⟨fun _ _ _ => rfl, fun _ _ _ _ => rfl⟩
    ⟨[1], [0], [0], [2]⟩ .f32 false ⟨[3, 2], position [3, 2]⟩ ⟨[2, 4, 3], position [2, 4, 3]⟩ _
    ⟨by decide, by decide, by decide, by decide⟩ rfl

end Libtt.Dots

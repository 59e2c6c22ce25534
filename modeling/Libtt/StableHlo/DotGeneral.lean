import Libtt.StableHlo.Reduce

/-!
# Dot products

`dot_general` pairs batch and contracting dimensions of two tensors.
-/
namespace Libtt.StableHlo

variable {α : Type}

/-- The dimensions that are neither matched nor summed. -/
def freeDims (batchDims contractDims : List Nat) (rank : Nat) : List Nat :=
  dimsWhere (fun d => !batchDims.contains d && !contractDims.contains d) rank

/-- The index with some coordinates at listed dimensions. -/
def placed (dims coordinates : List Nat) : List Nat :=
  applyPermutation coordinates (inversePermutation dims)

/-- `stablehlo.dot_general`. -/
structure DotGeneralOp where
  batchDimsLhs : List Nat
  batchDimsRhs : List Nat
  contractDimsLhs : List Nat
  contractDimsRhs : List Nat
  deriving DecidableEq, Repr

namespace DotGeneralOp

variable (op : DotGeneralOp)

def freeDimsLhs (rank : Nat) : List Nat := freeDims op.batchDimsLhs op.contractDimsLhs rank

def freeDimsRhs (rank : Nat) : List Nat := freeDims op.batchDimsRhs op.contractDimsRhs rank

/-- The dimensions of an operand: those of the batch, the contracting ones and the free ones. -/
def dimsLhs (rank : Nat) : List Nat := op.batchDimsLhs ++ op.contractDimsLhs ++ op.freeDimsLhs rank

def dimsRhs (rank : Nat) : List Nat := op.batchDimsRhs ++ op.contractDimsRhs ++ op.freeDimsRhs rank

/-- The dimensions are listed once, and paired ones have the same size. -/
structure Valid (lhsShape rhsShape : List Nat) : Prop where
  lhs : (op.dimsLhs lhsShape.length).Perm (List.range lhsShape.length)
  rhs : (op.dimsRhs rhsShape.length).Perm (List.range rhsShape.length)
  batch : applyPermutation lhsShape op.batchDimsLhs = applyPermutation rhsShape op.batchDimsRhs
  contract : applyPermutation lhsShape op.contractDimsLhs =
    applyPermutation rhsShape op.contractDimsRhs

def resultShape (lhsShape rhsShape : List Nat) : List Nat :=
  applyPermutation lhsShape op.batchDimsLhs ++
    applyPermutation lhsShape (op.freeDimsLhs lhsShape.length) ++
      applyPermutation rhsShape (op.freeDimsRhs rhsShape.length)

/-- The sum of the products at coordinates of the batch and of the free dimensions. -/
def contraction [NonUnitalNonAssocSemiring α] (lhs rhs : Tensor α)
    (batch freeLhs freeRhs : List Nat) : α :=
  ((indices (applyPermutation lhs.shape op.contractDimsLhs)).map fun contract =>
    lhs.data (placed (op.dimsLhs lhs.shape.length) (batch ++ contract ++ freeLhs)) *
      rhs.data (placed (op.dimsRhs rhs.shape.length) (batch ++ contract ++ freeRhs))).sum

def eval [NonUnitalNonAssocSemiring α] (lhs rhs : Tensor α) : Tensor α where
  shape := op.resultShape lhs.shape rhs.shape
  data index :=
    let free := index.drop op.batchDimsLhs.length
    op.contraction lhs rhs (index.take op.batchDimsLhs.length)
      (free.take (op.freeDimsLhs lhs.shape.length).length)
      (free.drop (op.freeDimsLhs lhs.shape.length).length)

end DotGeneralOp

section Placed

variable {dims shape index : List Nat}

/-- The coordinates at the listed dimensions are those that were placed there. -/
theorem apply_placed {rank : Nat} (perm : dims.Perm (List.range rank)) {coordinates : List Nat}
    (length : coordinates.length = rank) :
    applyPermutation (placed dims coordinates) dims = coordinates := by
  have isPermutation := isPermutation_of_perm perm
  exact isPermutation.1.inverse_apply (length.trans isPermutation.2.symm)

theorem length_placed (dims coordinates : List Nat) :
    (placed dims coordinates).length = dims.length := by
  simp [placed]

/-- An index is given by its coordinates at the listed dimensions. -/
theorem placed_apply (perm : dims.Perm (List.range index.length)) :
    placed dims (applyPermutation index dims) = index := by
  have isPermutation := isPermutation_of_perm perm
  exact isPermutation.1.apply_inverse isPermutation.2.symm

/-- The placed coordinates are within a shape if they are within its sizes there. -/
theorem within_placed (perm : dims.Perm (List.range shape.length)) {coordinates : List Nat}
    (inside : Within coordinates (applyPermutation shape dims)) :
    Within (placed dims coordinates) shape := by
  have isPermutation := isPermutation_of_perm perm
  have placed := isPermutation.1.inverse.within (by simp) inside
  rwa [isPermutation.1.apply_inverse isPermutation.2.symm] at placed

theorem applyPermutation_append (values dims others : List Nat) :
    applyPermutation values (dims ++ others) =
      applyPermutation values dims ++ applyPermutation values others := List.map_append

end Placed

/-- The shape and the index of a result, by its parts. -/
theorem DotGeneralOp.eval_data [NonUnitalNonAssocSemiring α] (op : DotGeneralOp)
    (lhs rhs : Tensor α) {batch freeLhs freeRhs : List Nat}
    (isBatch : batch.length = op.batchDimsLhs.length)
    (isFree : freeLhs.length = (op.freeDimsLhs lhs.shape.length).length) :
    (op.eval lhs rhs).data (batch ++ freeLhs ++ freeRhs) =
      op.contraction lhs rhs batch freeLhs freeRhs := by
  simp only [eval, List.append_assoc, ← isBatch, ← isFree, List.take_left, List.drop_left]

end Libtt.StableHlo

import Libtt.StableHlo.Convolution

/-!
# Padding

`pad` leaves holes between the elements and puts edges around them, or takes elements off.
-/
namespace Libtt.StableHlo

variable {α : Type}

/-- `stablehlo.pad`. -/
def Tensor.pad (operand : Tensor α) (value : α) (low high : List Int) (interior : List Nat) :
    Tensor α where
  shape := (List.range operand.shape.length).map fun d =>
    (low.getD d 0 + dilatedSize (operand.shape.getD d 0) (interior.getD d 0 + 1) +
      high.getD d 0).toNat
  data index := (operand.at? fun d =>
    undilated (interior.getD d 0 + 1) ((index.getD d 0 : Int) - low.getD d 0)).getD value

@[simp] theorem undilated_one (place : Int) : undilated 1 place = place := by
  simp [undilated]

@[simp] theorem dilatedSize_one (size : Nat) : dilatedSize size 1 = size := by
  rw [dilatedSize]
  split <;> omega

/-- What a place of a dilated dimension stands for is an element only within the dimension. -/
theorem place_within {size dilation : Nat} (positive : 0 < dilation) {place : Int}
    (first : 0 ≤ undilated dilation place) (last : undilated dilation place < size) :
    0 ≤ place ∧ place < dilatedSize size dilation := by
  have atLeast : (1 : Int) ≤ dilation := by omega
  unfold undilated at first last
  split at first
  · rename_i isMultiple
    rw [if_pos isMultiple] at last
    have divided := Int.mul_ediv_add_emod place dilation
    rw [isMultiple, add_zero] at divided
    have notEmpty : size ≠ 0 := by omega
    rw [dilatedSize, if_neg notEmpty]
    constructor
    · rw [← divided]
      positivity
    · rw [← divided]
      have atMost : place / dilation ≤ ((size - 1 : Nat) : Int) := by omega
      have scaled := mul_le_mul_of_nonneg_left atMost (Int.natCast_nonneg dilation)
      push_cast
      rw [mul_comm ((size - 1 : Nat) : Int)]
      omega
  · omega

namespace Tensor

/-- No edges. -/
theorem getD_zeros (rank d : Nat) : (List.replicate rank (0 : Int)).getD d 0 = 0 := by
  by_cases less : d < rank <;> simp [less]

/-- The size of a dimension with holes. -/
theorem pad_size (operand : Tensor α) (value : α) (rank : Nat) (interior : List Nat) {d : Nat}
    (less : d < operand.shape.length) :
    (operand.pad value (List.replicate rank 0) (List.replicate rank 0) interior).shape.getD d 0 =
      dilatedSize (operand.shape.getD d 0) (interior.getD d 0 + 1) := by
  simp [pad, less]

/-- An operand with holes of a value reads like the operand, with the value elsewhere. -/
theorem at?_pad (operand : Tensor α) (value : α) (rank : Nat) (interior : List Nat)
    (position : Nat → Int) :
    ((operand.pad value (List.replicate rank 0) (List.replicate rank 0) interior).at?
        position).getD value =
      (operand.at? fun d => undilated (interior.getD d 0 + 1) (position d)).getD value := by
  have rankSame (low high : List Int) :
      (operand.pad value low high interior).shape.length = operand.shape.length := by
    simp [pad]
  by_cases inside : ∀ d < operand.shape.length, 0 ≤ position d ∧
      position d < dilatedSize (operand.shape.getD d 0) (interior.getD d 0 + 1)
  · rw [at?, rankSame, if_pos fun d less => by rw [pad_size _ _ _ _ less]; exact inside d less]
    rw [Option.getD_some, pad]
    dsimp only
    apply congrArg (Option.getD · value)
    apply at?_congr
    intro d less
    have coordinate : ((List.range operand.shape.length).map fun d => (position d).toNat).getD d 0 =
        (position d).toNat := by
      simp [less]
    rw [coordinate, getD_zeros, Int.toNat_of_nonneg (inside d less).1, Int.sub_zero]
  · have outside : ¬∀ d < operand.shape.length,
        0 ≤ undilated (interior.getD d 0 + 1) (position d) ∧
          undilated (interior.getD d 0 + 1) (position d) < operand.shape.getD d 0 := by
      intro within
      apply inside
      intro d less
      exact place_within (Nat.succ_pos _) (within d less).1 (within d less).2
    rw [at?, rankSame, if_neg, at?, if_neg outside]
    intro within
    apply inside
    intro d less
    have there := within d less
    rwa [pad_size _ _ _ _ less] at there

end Tensor

end Libtt.StableHlo

import Libtt.Convolutions.Padding
import Libtt.StableHlo.Reverse

/-!
# Transposed convolutions

A convolution with unit strides is a transposed convolution by its input dilation.
-/
namespace Libtt.Convolutions

open Libtt.StableHlo

variable {α : Type}

/-- `std::max(value, 0)`. -/
def clampedAtZero (value : Int32) : Int32 := if value < 0 then 0 else value

namespace Transposed

variable (op : ConvolutionOp) (rhs : Tensor α)

/-- What the kernel reaches beyond a padding of a spatial dimension. -/
def reflected (i : Nat) (padding : Int) : Int32 :=
  Int32.ofInt ((((op.window rhs i).size : Int) - 1) * (op.window rhs i).dilation - padding)

/-- Top, left, bottom and right. -/
def transposePadding : List Int32 :=
  [reflected op rhs 0 (op.window rhs 0).low, reflected op rhs 1 (op.window rhs 1).low,
    reflected op rhs 0 (op.window rhs 0).high, reflected op rhs 1 (op.window rhs 1).high]

/-- The padding of the result in front of a spatial dimension, and behind it. -/
def outputPadLow (i : Nat) : Int32 := clampedAtZero (-(transposePadding op rhs).getD i 0)

def outputPadHigh (i : Nat) : Int32 := clampedAtZero (-(transposePadding op rhs).getD (i + 2) 0)

/-- The padding of the transposed convolution: top, left, bottom and right. -/
def paddingAttr : List Int32 := (transposePadding op rhs).map clampedAtZero

/-- The size of a spatial dimension of the transposed convolution. -/
def convOutputSize (lhs rhs : Tensor α) (i : Nat) : Int :=
  op.windowCount lhs rhs i - (outputPadLow op rhs i + outputPadHigh op rhs i).toInt

/-- The size that `ConvTranspose2dOp::verify` expects of a spatial dimension; there is no output
padding. -/
def expectedSize (lhs rhs : Tensor α) (i : Nat) : Int32 :=
  Int32.ofInt ((((op.inputSizes lhs).getD (i + 2) 0 : Int) - 1) * op.lhsDilation.getD i 1 -
    ((paddingAttr op rhs).getD i 0).toInt - ((paddingAttr op rhs).getD (i + 2) 0).toInt +
    (op.window rhs i).dilation * (((op.window rhs i).size : Int) - 1) + 0 + 1)

/-- The sizes of the transposed convolution are sizes, and those that are expected. -/
def Verifies (lhs rhs : Tensor α) : Prop :=
  ∀ i < 2, 0 ≤ convOutputSize op lhs rhs i ∧ 0 ≤ (expectedSize op lhs rhs i).toInt ∧
    (expectedSize op lhs rhs i).toInt = convOutputSize op lhs rhs i

/-- `std::swap(padding[1], padding[2])`: TTNN has top, bottom, left and right. -/
def reorderedPadding (padding : List Int32) : List Int32 :=
  (padding.set 1 (padding.getD 2 0)).set 2 (padding.getD 1 0)

/-- `ttir.reverse` of the spatial dimensions of the kernel. -/
def reversedWeight : Tensor α :=
  op.dimensionNumbers.kernelSpatialDimensions.foldl Tensor.reverse rhs

variable [NonUnitalNonAssocSemiring α]

/-- `ttnn::conv_transpose2d` at a place of its result: the input's element at `x` and the weight's at
`k` add their product to the place `x * stride + k * dilation - padding`. -/
def convTranspose2d (padding : List Int32) (lhs weight : Tensor α) (batch feature : Nat)
    (place : Nat → Int) : α :=
  let low (i : Nat) : Int := (padding.getD (2 * i) 0).toInt
  let inputSizes := [(op.inputSizes lhs).getD 2 0, (op.inputSizes lhs).getD 3 0]
  ((op.offsets weight).map fun offset =>
    ((List.range (op.inputFeatures weight)).map fun channel =>
      ((indices inputSizes).map fun x =>
        if ∀ i < 2, (x.getD i 0 : Int) * op.lhsDilation.getD i 1 +
            offset.getD i 0 * (op.window weight i).dilation - low i = place i then
          op.inputAt lhs (op.sourceBatch lhs weight batch feature)
              (op.firstFeature weight feature + channel) (x.map Int.ofNat) *
            weight.data (placed op.dimensionNumbers.kernelDims (channel :: feature :: offset))
        else 0).sum).sum).sum

/-- The transposed convolution, and zeros around it. -/
def eval (lhs rhs : Tensor α) : Tensor α where
  shape := placed op.dimensionNumbers.outputDims (op.outputSizes lhs rhs)
  data index :=
    let coordinates := applyPermutation index op.dimensionNumbers.outputDims
    let spatial (i : Nat) : Int := (coordinates.drop 2).getD i 0
    let low (i : Nat) : Int := (outputPadLow op rhs i).toInt
    if ∀ i < 2, low i ≤ spatial i ∧ spatial i < low i + convOutputSize op lhs rhs i then
      convTranspose2d op (reorderedPadding (paddingAttr op rhs)) lhs (reversedWeight op rhs)
        (coordinates.getD 0 0) (coordinates.getD 1 0) fun i => spatial i - low i
    else 0

end Transposed

end Libtt.Convolutions

/-! ## Transposed convolutions scatter what convolutions gather -/
namespace Libtt.Convolutions.Transposed

open Libtt.StableHlo Libtt.StableHlo.Tensor

variable {α : Type} {op : ConvolutionOp} {lhs rhs : Tensor α}

/-- A convolution of planes that is taken as transposed. -/
structure Taken (op : ConvolutionOp) : Prop where
  rank : op.spatialRank = 2
  strides : ∀ i, op.windowStrides.getD i 1 = 1
  unreversed : ∀ i, op.windowReversal.getD i false = false

section Sizes

variable (op) (lhs rhs)

/-- How far the kernel reaches from its first element. -/
def reach (i : Nat) : Int := (((op.window rhs i).size : Int) - 1) * (op.window rhs i).dilation

/-- The reflected paddings in front and behind. -/
def before (i : Nat) : Int := reach op rhs i - (op.window rhs i).low

def behind (i : Nat) : Int := reach op rhs i - (op.window rhs i).high

/-- The size of the input. -/
def inputLength (i : Nat) : Nat := (op.inputSizes lhs).getD (i + 2) 0

/-- The size of all that the elements of the input are scattered to. -/
def scatteredSize (i : Nat) : Int :=
  ((inputLength op lhs i : Int) - 1) * op.lhsDilation.getD i 1 + reach op rhs i + 1

/-- The size that is left between the clamped paddings. -/
def innerSize (i : Nat) : Int :=
  scatteredSize op lhs rhs i - max (before op rhs i) 0 - max (behind op rhs i) 0

/-- The paddings and the sizes are integers of 32 bits. -/
def Fits : Prop := ∀ i < 2,
  -2 ^ 31 < before op rhs i ∧ before op rhs i < 2 ^ 31 ∧
    -2 ^ 31 < behind op rhs i ∧ behind op rhs i < 2 ^ 31 ∧
      max (-before op rhs i) 0 + max (-behind op rhs i) 0 < 2 ^ 31 ∧
        -2 ^ 31 ≤ innerSize op lhs rhs i ∧ innerSize op lhs rhs i < 2 ^ 31

/-- The clamped paddings take off no more than there is, and an empty input is not dilated. -/
def Covered : Prop := ∀ i < 2,
  (0 < inputLength op lhs i ∨ op.lhsDilation.getD i 1 = 1) ∧
    max (before op rhs i) 0 + max (behind op rhs i) 0 ≤ scatteredSize op lhs rhs i

instance : Decidable (Fits op lhs rhs) := inferInstanceAs (Decidable (∀ i < 2, _))

instance : Decidable (Covered op lhs rhs) := inferInstanceAs (Decidable (∀ i < 2, _))

end Sizes

theorem toInt_clampedAtZero (value : Int32) : (clampedAtZero value).toInt = max value.toInt 0 := by
  have isNegative : value < 0 ↔ value.toInt < 0 := Int32.lt_iff_toInt_lt
  unfold clampedAtZero
  split
  · rename_i negative
    have less := isNegative.mp negative
    exact (max_eq_right less.le).symm
  · rename_i negative
    have less := mt isNegative.mpr negative
    exact (max_eq_left (not_lt.mp less)).symm

theorem toInt_neg {value : Int32} (above : -2 ^ 31 < value.toInt) :
    (-value).toInt = -value.toInt := by
  have below := value.toInt_lt
  rw [Int32.toInt_neg]
  apply Int.bmod_eq_of_le <;> omega

section Fits

variable (fits : Fits op lhs rhs) {i : Nat} (less : i < 2)
include fits less

theorem transposePadding_front :
    ((transposePadding op rhs).getD i 0).toInt = before op rhs i := by
  obtain ⟨low, high, -⟩ := fits i less
  have isListed : (transposePadding op rhs).getD i 0 = Int32.ofInt (before op rhs i) := by
    match i with
    | 0 => rfl
    | 1 => rfl
  rw [isListed]
  apply Int32.toInt_ofInt_of_le <;> omega

theorem transposePadding_back :
    ((transposePadding op rhs).getD (i + 2) 0).toInt = behind op rhs i := by
  obtain ⟨-, -, low, high, -⟩ := fits i less
  have isListed : (transposePadding op rhs).getD (i + 2) 0 = Int32.ofInt (behind op rhs i) := by
    match i with
    | 0 => rfl
    | 1 => rfl
  rw [isListed]
  apply Int32.toInt_ofInt_of_le <;> omega

theorem toInt_outputPadLow : (outputPadLow op rhs i).toInt = max (-before op rhs i) 0 := by
  have front := transposePadding_front fits less
  have above := (fits i less).1
  rw [outputPadLow, toInt_clampedAtZero, toInt_neg (by rwa [front]), front]

theorem toInt_outputPadHigh : (outputPadHigh op rhs i).toInt = max (-behind op rhs i) 0 := by
  have back := transposePadding_back fits less
  have above := (fits i less).2.2.1
  rw [outputPadHigh, toInt_clampedAtZero, toInt_neg (by rwa [back]), back]

theorem paddingAttr_front :
    ((paddingAttr op rhs).getD i 0).toInt = max (before op rhs i) 0 := by
  have isListed : (paddingAttr op rhs).getD i 0 =
      clampedAtZero ((transposePadding op rhs).getD i 0) := by
    match i with
    | 0 => rfl
    | 1 => rfl
  rw [isListed, toInt_clampedAtZero, transposePadding_front fits less]

theorem paddingAttr_back :
    ((paddingAttr op rhs).getD (i + 2) 0).toInt = max (behind op rhs i) 0 := by
  have isListed : (paddingAttr op rhs).getD (i + 2) 0 =
      clampedAtZero ((transposePadding op rhs).getD (i + 2) 0) := by
    match i with
    | 0 => rfl
    | 1 => rfl
  rw [isListed, toInt_clampedAtZero, transposePadding_back fits less]

/-- TTNN has the paddings of a dimension side by side. -/
theorem reordered_front :
    ((reorderedPadding (paddingAttr op rhs)).getD (2 * i) 0).toInt = max (before op rhs i) 0 := by
  have sides (top left bottom right : Int32) :
      reorderedPadding [top, left, bottom, right] = [top, bottom, left, right] := rfl
  have isListed : (reorderedPadding (paddingAttr op rhs)).getD (2 * i) 0 =
      (paddingAttr op rhs).getD i 0 := by
    rw [paddingAttr, transposePadding, List.map_cons, List.map_cons, List.map_cons, List.map_cons,
      List.map_nil, sides]
    match i with
    | 0 => rw [Nat.mul_zero, List.getD_cons_zero, List.getD_cons_zero]
    | 1 => simp only [Nat.mul_one, List.getD_cons_succ, List.getD_cons_zero]
  rw [isListed, paddingAttr_front fits less]

theorem convOutputSize_eq : convOutputSize op lhs rhs i =
    op.windowCount lhs rhs i - (max (-before op rhs i) 0 + max (-behind op rhs i) 0) := by
  obtain ⟨-, -, -, -, sum, -⟩ := fits i less
  rw [convOutputSize, Int32.toInt_add, toInt_outputPadLow fits less, toInt_outputPadHigh fits less]
  apply congrArg
  apply Int.bmod_eq_of_le <;> omega

theorem expectedSize_eq : (expectedSize op lhs rhs i).toInt = innerSize op lhs rhs i := by
  obtain ⟨-, -, -, -, -, low, high⟩ := fits i less
  have isInner : (((op.inputSizes lhs).getD (i + 2) 0 : Int) - 1) * op.lhsDilation.getD i 1 -
      ((paddingAttr op rhs).getD i 0).toInt - ((paddingAttr op rhs).getD (i + 2) 0).toInt +
        (op.window rhs i).dilation * (((op.window rhs i).size : Int) - 1) + 0 + 1 =
      innerSize op lhs rhs i := by
    rw [paddingAttr_front fits less, paddingAttr_back fits less, innerSize, scatteredSize,
      inputLength, reach, mul_comm ((op.window rhs i).dilation : Int)]
    ring
  rw [expectedSize, isInner]
  apply Int32.toInt_ofInt_of_le <;> omega

end Fits

/-- How many windows a dimension has. -/
theorem windowCount_eq (taken : Taken op) (i : Nat) : (op.windowCount lhs rhs i : Int) =
    max (dilatedSize (inputLength op lhs i) (op.lhsDilation.getD i 1) + (op.window rhs i).low +
      (op.window rhs i).high - reach op rhs i) 0 := by
  have isStride : (op.window rhs i).stride = 1 := taken.strides i
  have isSpan : (op.window rhs i).span = reach op rhs i + 1 := rfl
  rw [ConvolutionOp.windowCount, Window.count, isStride, isSpan, Nat.cast_one, Int.ediv_one]
  split
  · rename_i short
    rw [max_eq_right (by rw [inputLength]; omega), Nat.cast_zero]
  · rename_i fits
    rw [max_eq_left (by rw [inputLength]; omega), inputLength]
    omega

/-- The size of a dilated input. -/
theorem dilatedSize_eq (size dilation : Nat) : (dilatedSize size dilation : Int) =
    if size = 0 then 0 else ((size : Int) - 1) * dilation + 1 := by
  rw [dilatedSize]
  split
  · rfl
  · have isPred : ((size - 1 : Nat) : Int) = (size : Int) - 1 := by omega
    rw [Nat.cast_add, Nat.cast_mul, isPred, Nat.cast_one]

theorem verifies_iff (taken : Taken op) (valid : op.Valid lhs rhs) (fits : Fits op lhs rhs) :
    Verifies op lhs rhs ↔ Covered op lhs rhs := by
  apply forall₂_congr
  intro i less
  have positive := valid.lhsDilations i (taken.rank.symm ▸ less)
  rw [convOutputSize_eq fits less, expectedSize_eq fits less, windowCount_eq taken, dilatedSize_eq,
    innerSize, scatteredSize]
  have front : (op.window rhs i).low = reach op rhs i - before op rhs i := by
    rw [before]
    omega
  have back : (op.window rhs i).high = reach op rhs i - behind op rhs i := by
    rw [behind]
    omega
  by_cases empty : inputLength op lhs i = 0
  · rw [if_pos empty, empty]
    omega
  · rw [if_neg empty]
    omega

theorem shape_reversed (op : ConvolutionOp) (rhs : Tensor α) :
    (reversedWeight op rhs).shape = rhs.shape := foldl_reverse_shape rhs _

theorem kernelSizes_reversed (op : ConvolutionOp) (rhs : Tensor α) :
    op.kernelSizes (reversedWeight op rhs) = op.kernelSizes rhs :=
  congrArg (applyPermutation · op.dimensionNumbers.kernelDims) (shape_reversed op rhs)

theorem window_reversed (op : ConvolutionOp) (rhs : Tensor α) (i : Nat) :
    op.window (reversedWeight op rhs) i = op.window rhs i := by
  rw [ConvolutionOp.window, kernelSizes_reversed]
  rfl

/-- The sizes of the window. -/
def windowSizes (op : ConvolutionOp) (rhs : Tensor α) : List Nat :=
  (List.range op.spatialRank).map fun i => (op.window rhs i).size

theorem getD_windowSizes (op : ConvolutionOp) (rhs : Tensor α) {i : Nat}
    (less : i < op.spatialRank) : (windowSizes op rhs).getD i 0 = (op.window rhs i).size := by
  simp [windowSizes, less]

theorem kernelSpatial_length (valid : op.Valid lhs rhs) :
    op.dimensionNumbers.kernelSpatialDimensions.length = op.spatialRank := by
  have input := valid.input.length_eq
  have kernel := valid.kernel.length_eq
  rw [valid.rank, ← input] at kernel
  exact Nat.add_right_cancel (show _ + 2 = _ + 2 from kernel)

/-- The reversed kernel has at a mirrored offset what the kernel has at the offset. -/
theorem reversedWeight_data (valid : op.Valid lhs rhs) (channel feature : Nat) {offset : List Nat}
    (inside : Within offset (windowSizes op rhs)) :
    (reversedWeight op rhs).data (placed op.dimensionNumbers.kernelDims
        (channel :: feature :: mirror (windowSizes op rhs) offset)) =
      rhs.data (placed op.dimensionNumbers.kernelDims (channel :: feature :: offset)) := by
  have rank := valid.kernel.length_eq
  rw [List.length_range] at rank
  have once := valid.kernel.nodup_iff.mpr List.nodup_range
  rw [ConvDimensionNumbers.kernelDims, List.nodup_cons, List.nodup_cons] at once
  have spatialInside : ∀ d ∈ op.dimensionNumbers.kernelSpatialDimensions, d < rhs.shape.length := by
    intro d member
    have listed : d ∈ op.dimensionNumbers.kernelDims :=
      List.mem_cons_of_mem _ (List.mem_cons_of_mem _ member)
    exact List.mem_range.mp (valid.kernel.mem_iff.mp listed)
  rw [reversedWeight, foldl_reverse_data once.2.2 spatialInside ((length_placed _ _).trans rank)]
  apply congrArg rhs.data
  apply ext_getD 0 (length_mirroredIn _ _ _) ((length_placed _ _).trans rank)
  intro d less
  rw [getD_mirroredIn less, getD_placed (rank ▸ less), getD_placed (rank ▸ less)]
  by_cases isSpatial : d ∈ op.dimensionNumbers.kernelSpatialDimensions
  · have below := List.idxOf_lt_length_of_mem isSpatial
    have notInput : op.dimensionNumbers.kernelInputFeatureDimension ≠ d := by
      rintro rfl
      exact once.1 (List.mem_cons_of_mem _ isSpatial)
    have notOutput : op.dimensionNumbers.kernelOutputFeatureDimension ≠ d := by
      rintro rfl
      exact once.2.1 isSpatial
    have place : op.dimensionNumbers.kernelDims.idxOf d =
        op.dimensionNumbers.kernelSpatialDimensions.idxOf d + 2 := by
      rw [ConvDimensionNumbers.kernelDims, List.idxOf_cons_ne _ notInput,
        List.idxOf_cons_ne _ notOutput]
    rw [kernelSpatial_length valid] at below
    have size : rhs.shape.getD d 0 =
        (windowSizes op rhs).getD (op.dimensionNumbers.kernelSpatialDimensions.idxOf d) 0 := by
      have isListed : op.dimensionNumbers.kernelDims.idxOf d <
          op.dimensionNumbers.kernelDims.length :=
        List.idxOf_lt_length_of_mem (List.mem_cons_of_mem _ (List.mem_cons_of_mem _ isSpatial))
      rw [getD_windowSizes op rhs below]
      show _ = (applyPermutation rhs.shape _).getD _ 0
      rw [← place, getD_applyPermutation isListed, List.getD_eq_getElem _ _ isListed,
        List.getElem_idxOf]
    have within := (within_iff_getD.mp inside).2 _ (by simpa [windowSizes] using below)
    rw [if_pos isSpatial, place, List.getD_cons_succ, List.getD_cons_succ, List.getD_cons_succ,
      List.getD_cons_succ, getD_mirror inside (by simpa [windowSizes] using below), size]
    omega
  · have listed : d ∈ op.dimensionNumbers.kernelDims :=
      valid.kernel.mem_iff.mpr (List.mem_range.mpr less)
    rw [if_neg isSpatial]
    rw [ConvDimensionNumbers.kernelDims] at listed ⊢
    by_cases isInput : op.dimensionNumbers.kernelInputFeatureDimension = d
    · rw [isInput, List.idxOf_cons_self]
      rfl
    · have isOutput : op.dimensionNumbers.kernelOutputFeatureDimension = d := by
        simpa [isSpatial, Ne.symm isInput, eq_comm] using listed
      rw [List.idxOf_cons_ne _ isInput, isOutput, List.idxOf_cons_self]
      rfl

section Scattered

variable [NonUnitalNonAssocSemiring α]

/-- There is no element of the input outside of it. -/
theorem inputAt_outside (valid : op.Valid lhs rhs) (batch feature : Nat) {places : List Int} {i : Nat}
    (less : i < op.spatialRank)
    (outside : ¬(0 ≤ places.getD i 0 ∧ places.getD i 0 < inputLength op lhs i)) :
    op.inputAt lhs batch feature places = 0 := by
  obtain ⟨isSpatial, isPlace, isDim⟩ := spatialDim_mem valid less
  have once := valid.input.nodup_iff.mpr List.nodup_range
  have listed : i + 2 < op.dimensionNumbers.inputDims.length := Nat.add_lt_add_right less 2
  have dim : op.dimensionNumbers.inputSpatialDimensions.getD i 0 =
      op.dimensionNumbers.inputDims[i + 2] := by
    rw [List.getD_eq_getElem _ _ less]
    rfl
  have place : op.dimensionNumbers.inputDims.idxOf
      (op.dimensionNumbers.inputSpatialDimensions.getD i 0) = i + 2 := by
    rw [dim, once.idxOf_getElem]
  have isNone : (lhs.at? fun d => ((batch : Int) :: (feature : Int) :: places).getD
      (op.dimensionNumbers.inputDims.idxOf d) 0) = none := by
    apply if_neg
    intro all
    have here := all _ isDim
    dsimp only at here
    rw [place, List.getD_cons_succ, List.getD_cons_succ, ← inputSize op lhs less] at here
    exact outside here
  rw [ConvolutionOp.inputAt, isNone]
  rfl

/-- A place of a dilated dimension is that of an element exactly if it is its multiple. -/
theorem eq_undilated_iff {dilation : Nat} (positive : 0 < dilation) {place : Int} (x : Nat) :
    (x : Int) * dilation = place ↔ undilated dilation place = x := by
  have isPositive : (0 : Int) < dilation := by omega
  unfold undilated
  constructor
  · rintro rfl
    rw [if_pos (Int.mul_emod_left _ _), Int.mul_ediv_cancel _ isPositive.ne']
  · intro isElement
    split at isElement
    · rename_i isMultiple
      rw [← isElement, Int.ediv_mul_cancel (Int.dvd_of_emod_eq_zero isMultiple)]
    · omega

/-- The elements that are scattered to a place are those that are read there. -/
theorem scattered_sum (taken : Taken op) (valid : op.Valid lhs rhs) (batch feature : Nat) (value : α)
    (place : Nat → Int) :
    ((indices [inputLength op lhs 0, inputLength op lhs 1]).map fun x =>
        if ∀ i < 2, (x.getD i 0 : Int) * op.lhsDilation.getD i 1 = place i then
          op.inputAt lhs batch feature (x.map Int.ofNat) * value
        else 0).sum =
      op.inputAt lhs batch feature ((List.range op.spatialRank).map fun d =>
        undilated (op.lhsDilation.getD d 1) (place d)) * value := by
  have positive {i : Nat} (less : i < 2) : 0 < op.lhsDilation.getD i 1 :=
    valid.lhsDilations i (taken.rank.symm ▸ less)
  let read (i : Nat) : Int := undilated (op.lhsDilation.getD i 1) (place i)
  have places : (List.range op.spatialRank).map read = [read 0, read 1] := by
    rw [taken.rank]
    rfl
  have reads (x : List Nat) : (∀ i < 2, (x.getD i 0 : Int) * op.lhsDilation.getD i 1 = place i) ↔
      ∀ i < 2, read i = x.getD i 0 :=
    forall₂_congr fun i less => eq_undilated_iff (positive less) _
  simp only [reads]
  rw [places]
  by_cases inside : ∀ i < 2, 0 ≤ read i ∧ read i < inputLength op lhs i
  · let x := [(read 0).toNat, (read 1).toNat]
    have first := inside 0 Nat.zero_lt_two
    have second := inside 1 Nat.one_lt_two
    have member : x ∈ indices [inputLength op lhs 0, inputLength op lhs 1] := by
      rw [mem_indices]
      apply List.Forall₂.cons
      · omega
      · exact .cons (by omega) .nil
    have here : ∀ i < 2, read i = x.getD i 0 := by
      intro i less
      match i with
      | 0 => exact (Int.toNat_of_nonneg first.1).symm
      | 1 => exact (Int.toNat_of_nonneg second.1).symm
    have isX : x.map Int.ofNat = [read 0, read 1] := by
      rw [here 0 Nat.zero_lt_two, here 1 Nat.one_lt_two]
      rfl
    rw [List.sum_map_eq_nsmul_single x, if_pos here, isX,
      @List.count_eq_one_of_mem _ instBEqOfDecidableEq _ _ _ (nodup_indices _) member, one_nsmul]
    intro other different isOther
    apply if_neg
    intro same
    apply different
    have length : other.length = 2 := (mem_indices.mp isOther).length
    apply ext_getD 0 length rfl
    intro d less
    exact Int.ofNat_inj.mp ((same d less).symm.trans (here d less))
  · have nothing : op.inputAt lhs batch feature [read 0, read 1] = 0 := by
      simp only [not_forall] at inside
      obtain ⟨i, less, outside⟩ := inside
      apply inputAt_outside valid batch feature (taken.rank.symm ▸ less)
      match i with
      | 0 => exact outside
      | 1 => exact outside
    rw [nothing, zero_mul]
    apply List.sum_eq_zero
    intro term isTerm
    obtain ⟨x, isX, rfl⟩ := List.mem_map.mp isTerm
    apply if_neg
    intro same
    apply inside
    have within := within_iff_getD.mp (mem_indices.mp isX)
    intro i less
    have below := within.2 i less
    rw [same i less]
    match i with
    | 0 => exact ⟨Int.natCast_nonneg _, Int.ofNat_lt.mpr below⟩
    | 1 => exact ⟨Int.natCast_nonneg _, Int.ofNat_lt.mpr below⟩

/-- A convolution scattered to a place is the one that is gathered there. -/
theorem convTranspose2d_eq (taken : Taken op) (valid : op.Valid lhs rhs) (fits : Fits op lhs rhs)
    (batch feature : Nat) (spatial : List Nat) :
    (convTranspose2d op (reorderedPadding (paddingAttr op rhs)) lhs (reversedWeight op rhs) batch
        feature fun i => spatial.getD i 0 - (outputPadLow op rhs i).toInt) =
      op.element lhs rhs batch feature spatial := by
  have offsets : op.offsets (reversedWeight op rhs) = indices (windowSizes op rhs) := by
    simp only [ConvolutionOp.offsets, window_reversed, windowSizes]
  have features : op.inputFeatures (reversedWeight op rhs) = op.inputFeatures rhs :=
    congrArg (List.getD · 0 0) (kernelSizes_reversed op rhs)
  have outputs : op.outputFeatures (reversedWeight op rhs) = op.outputFeatures rhs :=
    congrArg (List.getD · 1 0) (kernelSizes_reversed op rhs)
  simp only [convTranspose2d, offsets, features, outputs, window_reversed,
    ConvolutionOp.sourceBatch, ConvolutionOp.firstFeature]
  rw [← sum_mirror]
  apply congrArg List.sum
  apply List.map_congr_left
  intro offset isOffset
  have inside : Within offset (windowSizes op rhs) := mem_indices.mp isOffset
  apply congrArg List.sum
  apply List.map_congr_left
  intro channel _
  have kernel : op.kernelOffset rhs offset = offset := by
    have isLength : (op.kernelOffset rhs offset).length = op.spatialRank := by
      simp [ConvolutionOp.kernelOffset]
    have sameLength : offset.length = op.spatialRank := by
      simpa [windowSizes] using inside.length
    apply ext_getD 0 isLength sameLength
    intro d less
    have unreversed := taken.unreversed d
    rw [List.getD_eq_getElem?_getD] at unreversed
    simp [ConvolutionOp.kernelOffset, less, unreversed]
  -- Counted from the other end of the window, and with the paddings taken off, it is the same place.
  have places (x : List Nat) : (∀ i < 2,
      (x.getD i 0 : Int) * op.lhsDilation.getD i 1 +
          ((mirror (windowSizes op rhs) offset).getD i 0 : Int) * (op.window rhs i).dilation -
            ((reorderedPadding (paddingAttr op rhs)).getD (2 * i) 0).toInt =
        spatial.getD i 0 - (outputPadLow op rhs i).toInt) ↔
      ∀ i < 2, (x.getD i 0 : Int) * op.lhsDilation.getD i 1 = op.place rhs spatial offset i := by
    apply forall₂_congr
    intro i less
    have spatialDim : i < op.spatialRank := taken.rank.symm ▸ less
    have isWindow : i < (windowSizes op rhs).length := by simpa [windowSizes] using spatialDim
    have below := (within_iff_getD.mp inside).2 i isWindow
    have stride : (op.window rhs i).stride = 1 := taken.strides i
    have mirrored : ((mirror (windowSizes op rhs) offset).getD i 0 : Int) =
        (op.window rhs i).size - 1 - offset.getD i 0 := by
      rw [getD_mirror inside isWindow, getD_windowSizes op rhs spatialDim]
      rw [getD_windowSizes op rhs spatialDim] at below
      omega
    have turned : ((op.window rhs i).size - 1 - offset.getD i 0 : Int) * (op.window rhs i).dilation =
        reach op rhs i - offset.getD i 0 * (op.window rhs i).dilation := sub_mul _ _ _
    rw [mirrored, turned, reordered_front fits less, toInt_outputPadLow fits less,
      ConvolutionOp.place, Window.source, stride, before, Nat.cast_one, mul_one]
    omega
  simp only [places]
  rw [kernel, reversedWeight_data valid channel feature inside]
  exact scattered_sum taken valid _ _ _ _

/-- Around the transposed convolution, the windows are in the padding. -/
theorem element_outside (taken : Taken op) (valid : op.Valid lhs rhs) {i : Nat} (less : i < 2)
    (batch feature : Nat) {spatial : List Nat} (isSpatial : spatial.getD i 0 < op.windowCount lhs rhs i)
    (outside : ¬(max (-before op rhs i) 0 ≤ (spatial.getD i 0 : Int) ∧
      (spatial.getD i 0 : Int) < op.windowCount lhs rhs i - max (-behind op rhs i) 0)) :
    op.element lhs rhs batch feature spatial = 0 := by
  have spatialDim : i < op.spatialRank := taken.rank.symm ▸ less
  have stride : (op.window rhs i).stride = 1 := taken.strides i
  apply List.sum_eq_zero
  intro term isTerm
  obtain ⟨offset, isOffset, rfl⟩ := List.mem_map.mp isTerm
  have below : offset.getD i 0 < (op.window rhs i).size := by
    have within := within_iff_getD.mp (mem_indices.mp isOffset)
    have here := within.2 i (by simpa using spatialDim)
    simpa [spatialDim] using here
  have steps : (offset.getD i 0 : Int) * (op.window rhs i).dilation ≤ reach op rhs i := by
    apply Int.mul_le_mul_of_nonneg_right
    · omega
    · exact Int.natCast_nonneg _
  have positive : (0 : Int) ≤ offset.getD i 0 * (op.window rhs i).dilation := by positivity
  have count := @windowCount_eq _ op lhs rhs taken i
  apply List.sum_eq_zero
  intro product isProduct
  obtain ⟨channel, -, rfl⟩ := List.mem_map.mp isProduct
  rw [inputAt_outside valid _ _ spatialDim, zero_mul]
  rintro ⟨first, last⟩
  have isPlace := getD_placesAt op rhs spatial offset spatialDim
  rw [placesAt] at isPlace
  rw [isPlace] at first last
  have within := place_within (valid.lhsDilations i spatialDim) first last
  rw [ConvolutionOp.place, Window.source, stride, Nat.cast_one, mul_one] at within
  rw [before, behind] at outside
  omega

/-- The program is the convolution. -/
theorem eval_same (taken : Taken op) (valid : op.Valid lhs rhs) (fits : Fits op lhs rhs) :
    (eval op lhs rhs).Same (op.eval lhs rhs) := by
  constructor
  · rfl
  · intro index inside
    have spatial {i : Nat} (less : i < 2) :=
      spatial_lt valid inside (taken.rank.symm ▸ less : i < op.spatialRank)
    dsimp only [eval]
    split
    · exact convTranspose2d_eq taken valid fits _ _ _
    · rename_i outside
      simp only [not_forall] at outside
      obtain ⟨i, less, outside⟩ := outside
      apply Eq.symm
      apply element_outside taken valid less _ _ (spatial less)
      rw [convOutputSize_eq fits less, toInt_outputPadLow fits less] at outside
      omega

end Scattered

/-- The sizes are those that the verifier expects exactly where the clamped paddings take off no more
than there is; the program is the convolution then. -/
theorem transposed_convolution_iff [NonUnitalNonAssocSemiring α] (op : ConvolutionOp)
    (lhs rhs : Tensor α) (taken : Taken op) (valid : op.Valid lhs rhs) (fits : Fits op lhs rhs) :
    (Verifies op lhs rhs ↔ Covered op lhs rhs) ∧
      (Verifies op lhs rhs → (eval op lhs rhs).Same (op.eval lhs rhs)) := by
  constructor
  · exact verifies_iff taken valid fits
  · intro _
    exact eval_same taken valid fits

/-- A convolution of planes of one channel. -/
def planeConvolution (padding : List (Int × Int)) (lhsDilation : List Nat) : ConvolutionOp :=
  ⟨⟨0, 1, [2, 3], 0, 1, [2, 3], 0, 1, [2, 3]⟩, [1, 1], padding, lhsDilation, [1, 1],
    [false, false], 1, 1⟩

theorem planeConvolution_valid {padding : List (Int × Int)} {lhsDilation : List Nat}
    {height width kernelHeight kernelWidth : Nat} (plane kernel : List Nat → Int)
    (windows : 0 < kernelHeight ∧ 0 < kernelWidth)
    (dilations : ∀ i < 2, 0 < lhsDilation.getD i 1) :
    (planeConvolution padding lhsDilation).Valid (⟨[1, 1, height, width], plane⟩ : Tensor Int)
      ⟨[1, 1, kernelHeight, kernelWidth], kernel⟩ where
  input := List.Perm.refl [0, 1, 2, 3]
  kernel := List.Perm.refl [0, 1, 2, 3]
  output := List.Perm.refl [0, 1, 2, 3]
  rank := rfl
  windows i less := by
    match i with
    | 0 => exact windows.1
    | 1 => exact windows.2
  strides i less := by
    match i with
    | 0 => exact Nat.one_pos
    | 1 => exact Nat.one_pos
  lhsDilations i less := dilations i less
  rhsDilations i less := by
    match i with
    | 0 => exact Nat.one_pos
    | 1 => exact Nat.one_pos
  featureGroups := Nat.one_pos
  batchGroups := Nat.one_pos
  alone := .inl rfl
  batches := one_dvd _
  features := rfl
  featuresByGroup := one_dvd _
  featuresByBatch := one_dvd _

theorem planeConvolution_taken (padding : List (Int × Int)) (lhsDilation : List Nat) :
    Taken (planeConvolution padding lhsDilation) where
  rank := rfl
  strides i := by
    match i with
    | 0 => rfl
    | 1 => rfl
    | i + 2 => rfl
  unreversed i := by
    match i with
    | 0 => rfl
    | 1 => rfl
    | i + 2 => rfl

/-- A row of two, dilated by two and padded by a kernel of two and by more than that. -/
theorem transposed_convolution_row :
    let op := planeConvolution [(0, 0), (1, 3)] [1, 2]
    let lhs : Tensor Int := ⟨[1, 1, 1, 2], fun index => index.sum + 1⟩
    let rhs : Tensor Int := ⟨[1, 1, 1, 2], fun index => index.sum + 5⟩
    (op.eval lhs rhs).shape = [1, 1, 1, 6] ∧ Verifies op lhs rhs ∧
      (eval op lhs rhs).Same (op.eval lhs rhs) := by
  intro op lhs rhs
  have both := transposed_convolution_iff op lhs rhs (planeConvolution_taken _ _)
    (planeConvolution_valid _ _ ⟨Nat.one_pos, Nat.two_pos⟩ (by decide)) (by decide)
  have verifies := both.1.mpr (by decide)
  exact ⟨by decide, verifies, both.2 verifies⟩

/-- A pixel with ten zeros in front of which padding takes off five: the result has six rows, but the
transposed convolution would have four less than none. -/
theorem transposed_convolution_cropped :
    let op := planeConvolution [(10, -5), (0, 0)] [2, 1]
    let lhs : Tensor Int := ⟨[1, 1, 1, 1], fun _ => 1⟩
    let rhs : Tensor Int := ⟨[1, 1, 1, 1], fun _ => 1⟩
    op.Valid lhs rhs ∧ Taken op ∧ (op.eval lhs rhs).shape = [1, 1, 6, 1] ∧
      convOutputSize op lhs rhs 0 = -4 ∧ ¬Verifies op lhs rhs := by
  intro op lhs rhs
  have valid : op.Valid lhs rhs :=
    planeConvolution_valid _ _ ⟨Nat.one_pos, Nat.one_pos⟩ (by decide)
  have size : convOutputSize op lhs rhs 0 = -4 := by decide
  refine ⟨valid, planeConvolution_taken _ _, by decide, size, ?_⟩
  intro verifies
  have nonneg := (verifies 0 Nat.two_pos).1
  exact absurd nonneg (by decide)

end Libtt.Convolutions.Transposed

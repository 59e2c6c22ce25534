import Libtt.StableHlo.Pad

/-!
# Padding of windowed operations

Negative padding of a convolution crops its input. A dilated input becomes one with holes, where a
convolution also has strides and for every reduction over windows.
-/
namespace Libtt.Convolutions

open Libtt.StableHlo

variable {α : Type}

/-- A `ttir.slice_static` of the input, and the convolution of it. -/
structure CroppedConvolution where
  inputSliceBegins : List Int32
  inputSliceEnds : List Int32
  slicedShape : List Int
  convolution : ConvolutionOp

/-- How much padding takes off. -/
def cropOf (padding : Int) : Int32 := Int32.ofInt (max (-padding) 0)

/-- The padding of an input dimension, of which only the spatial ones have any. -/
def paddingOf (op : ConvolutionOp) (dim : Nat) : Int × Int :=
  let inputSpatialDims := op.dimensionNumbers.inputSpatialDimensions
  if inputSpatialDims.contains dim then op.padding.getD (inputSpatialDims.idxOf dim) (0, 0)
  else (0, 0)

/-- The dilation of an input dimension, of which only the spatial ones have any. -/
def lhsDilationOf (op : ConvolutionOp) (dim : Nat) : Nat :=
  let inputSpatialDims := op.dimensionNumbers.inputSpatialDimensions
  if inputSpatialDims.contains dim then op.lhsDilation.getD (inputSpatialDims.idxOf dim) 1 else 1

/-- What negative padding takes off the input, and the convolution with the rest of the padding. -/
def cropInput (op : ConvolutionOp) (inputShape : List Nat) : CroppedConvolution :=
  let clampedPadding := op.padding.map fun (low, high) => (max low 0, max high 0)
  let rank := inputShape.length
  let lowCrop (dim : Nat) : Int32 := cropOf (paddingOf op dim).1
  let highCrop (dim : Nat) : Int32 := cropOf (paddingOf op dim).2
  { inputSliceBegins := (List.range rank).map lowCrop
    inputSliceEnds := (List.range rank).map fun dim =>
      Int32.ofInt (inputShape.getD dim 0) - highCrop dim
    slicedShape := (List.range rank).map fun dim =>
      inputShape.getD dim 0 - (lowCrop dim + highCrop dim).toInt
    convolution := { op with padding := clampedPadding } }

/-- `ConvolutionOpNegativePadding`: the input is cropped by what the padding is below zero, unless it
is dilated. -/
def cropNegativePadding (op : ConvolutionOp) (inputShape : List Nat) :
    Option CroppedConvolution :=
  let hasNegativePadding := op.padding.any fun (low, high) => low < 0 || high < 0
  if !hasNegativePadding then none
  else if op.lhsDilation.any (· ≠ 1) then none
  else some (cropInput op inputShape)

namespace CroppedConvolution

variable (cropped : CroppedConvolution)

/-- The slice is one of the input: it begins and ends within it, and has the sizes in between. -/
def Valid (inputShape : List Nat) : Prop :=
  ∀ dim < inputShape.length,
    0 ≤ (cropped.inputSliceBegins.getD dim 0).toInt ∧
      (cropped.inputSliceBegins.getD dim 0).toInt ≤ (cropped.inputSliceEnds.getD dim 0).toInt ∧
      (cropped.inputSliceEnds.getD dim 0).toInt ≤ inputShape.getD dim 0 ∧
      cropped.slicedShape.getD dim 0 = (cropped.inputSliceEnds.getD dim 0).toInt -
        (cropped.inputSliceBegins.getD dim 0).toInt

instance (inputShape : List Nat) : Decidable (cropped.Valid inputShape) :=
  inferInstanceAs (Decidable (∀ _, _))

/-- The slice of the input. -/
def input (lhs : Tensor α) : Tensor α where
  shape := cropped.slicedShape.map Int.toNat
  data index := lhs.data (List.zipWith (fun coordinate (first : Int32) =>
    coordinate + first.toInt.toNat) index cropped.inputSliceBegins)

def eval [NonUnitalNonAssocSemiring α] (lhs rhs : Tensor α) : Tensor α :=
  cropped.convolution.eval (cropped.input lhs) rhs

end CroppedConvolution

/-- `ConvolutionInputDilationPattern`: zeros between the elements of the input. -/
def materializeInputDilation [Zero α] (isSupportedConv : Bool) (op : ConvolutionOp)
    (lhs : Tensor α) : Option (ConvolutionOp × Tensor α) :=
  if !isSupportedConv || op.spatialRank != 2 then none
  else
    let hasInputDilation := op.lhsDilation.any (1 < ·)
    let hasWindowStride := op.windowStrides.any (1 < ·)
    -- Without strides it is left to the transposed convolution.
    if !hasInputDilation || !hasWindowStride then none
    else if lhs.shape.prod = 0 then none
    else
      let rank := lhs.shape.length
      let interiorPadding := (List.range rank).map fun dim => lhsDilationOf op dim - 1
      let edgePadding := List.replicate rank (0 : Int)
      some ({ op with lhsDilation := [1, 1] }, lhs.pad 0 edgePadding edgePadding interiorPadding)

/-- `stablehlo.reduce_window` of several operands. -/
structure ReduceWindowsOp where
  windowDimensions : List Nat
  windowStrides : List Nat
  baseDilations : List Nat
  windowDilations : List Nat
  padding : List (Int × Int)
  deriving DecidableEq, Repr

namespace ReduceWindowsOp

variable (op : ReduceWindowsOp)

def window (dim : Nat) : Window where
  size := op.windowDimensions.getD dim 1
  stride := op.windowStrides.getD dim 1
  dilation := op.windowDilations.getD dim 1
  low := (op.padding.getD dim (0, 0)).1
  high := (op.padding.getD dim (0, 0)).2

/-- The shape of the results, for inputs of a shape. -/
def resultShape (inputShape : List Nat) : List Nat :=
  (List.range inputShape.length).map fun dim =>
    (op.window dim).count (dilatedSize (inputShape.getD dim 0) (op.baseDilations.getD dim 1))

/-- What the window of an index has of each input; its init value where there is no element. -/
def elements (inputs : List (Tensor α)) (initValues : List α) (index : List Nat) : List (List α) :=
  (indices op.windowDimensions).map fun offset =>
    List.zipWith (fun input init =>
      (input.at? fun dim => undilated (op.baseDilations.getD dim 1)
        ((op.window dim).source (index.getD dim 0) (offset.getD dim 0))).getD init)
      inputs initValues

/-- The results, together; `reduce` runs the body on the window of an index. -/
def eval (reduce : List Nat → List α → List (List α) → List α) (inputs : List (Tensor α))
    (initValues : List α) : Tensor (List α) where
  shape := op.resultShape ((inputs.map Tensor.shape).headD [])
  data index := reduce index initValues (op.elements inputs initValues index)

end ReduceWindowsOp

/-- The init values between the elements of the inputs, where there are base dilations. -/
def materializeBaseDilations (op : ReduceWindowsOp) (inputs : List (Tensor α))
    (initValues : List α) : Option (ReduceWindowsOp × List (Tensor α)) :=
  if op.baseDilations.all (· = 1) then none
  else
    let inputRank := ((inputs.map Tensor.shape).headD []).length
    let interior := op.baseDilations.map (· - 1)
    let zeroPadding := List.replicate inputRank (0 : Int)
    let paddedInputs := List.zipWith (fun input init => input.pad init zeroPadding zeroPadding interior)
      inputs initValues
    some ({ op with baseDilations := [] }, paddedInputs)

end Libtt.Convolutions

/-! ## Padding is moved to the operands -/
namespace Libtt.Convolutions

open Libtt.StableHlo Libtt.StableHlo.Tensor

variable {α : Type} {op : ConvolutionOp} {lhs rhs : Tensor α}

/-- Where an offset in the window of a spatial index is, in each spatial dimension of the input. -/
def placesAt (op : ConvolutionOp) (rhs : Tensor α) (spatial offset : List Nat) : List Int :=
  (List.range op.spatialRank).map fun d =>
    undilated (op.lhsDilation.getD d 1) (op.place rhs spatial offset d)

theorem getD_placesAt (op : ConvolutionOp) (rhs : Tensor α) (spatial offset : List Nat) {i : Nat}
    (less : i < op.spatialRank) : (placesAt op rhs spatial offset).getD i 0 =
      undilated (op.lhsDilation.getD i 1) (op.place rhs spatial offset i) := by
  simp [placesAt, less]

/-- The spatial coordinates of an index of the result are within the window counts. -/
theorem spatial_lt [NonUnitalNonAssocSemiring α] (valid : op.Valid lhs rhs) {index : List Nat}
    (inside : Within index (op.eval lhs rhs).shape) {i : Nat} (less : i < op.spatialRank) :
    ((applyPermutation index op.dimensionNumbers.outputDims).drop 2).getD i 0 <
      op.windowCount lhs rhs i := by
  have rank : op.spatialRank + 2 = lhs.shape.length := by
    have length := valid.input.length_eq
    rw [List.length_range] at length
    exact length
  have sizesLength : (op.outputSizes lhs rhs).length = lhs.shape.length := by
    rw [← rank, ConvolutionOp.outputSizes]
    simp
  have dims : ∀ d ∈ op.dimensionNumbers.outputDims, d < (op.eval lhs rhs).shape.length := by
    intro d member
    have outputRank := valid.output.length_eq
    have less := List.mem_range.mp (valid.output.mem_iff.mp member)
    rw [List.length_range] at outputRank
    rw [ConvolutionOp.eval, length_placed, outputRank]
    exact less
  have within := within_applyPermutation inside dims
  rw [ConvolutionOp.eval, apply_placed valid.output sizesLength] at within
  have below := (within_iff_getD.mp within).2 (i + 2) (by rw [sizesLength]; omega)
  have size : (op.outputSizes lhs rhs).getD (i + 2) 0 = op.windowCount lhs rhs i := by
    simp [ConvolutionOp.outputSizes, less]
  rw [size] at below
  rwa [List.getD_eq_getElem?_getD, List.getElem?_drop, Nat.add_comm 2,
    ← List.getD_eq_getElem?_getD]

/-- Convolutions that read the same in each window are the same. -/
theorem eval_same [NonUnitalNonAssocSemiring α] {padding : List (Int × Int)}
    {lhsDilation : List Nat} {input : Tensor α} (valid : op.Valid lhs rhs)
    (batch : op.batchSize input = op.batchSize lhs) :
    let other := { op with padding := padding, lhsDilation := lhsDilation }
    (∀ i < op.spatialRank, other.windowCount input rhs i = op.windowCount lhs rhs i) →
      (∀ batch feature spatial offset,
        (∀ i < op.spatialRank, spatial.getD i 0 < op.windowCount lhs rhs i) →
        (∀ i < op.spatialRank, offset.getD i 0 < (op.window rhs i).size) →
        other.inputAt input batch feature (placesAt other rhs spatial offset) =
          op.inputAt lhs batch feature (placesAt op rhs spatial offset)) →
      (other.eval input rhs).Same (op.eval lhs rhs) := by
  intro other counts reads
  have sizes : other.outputSizes input rhs = op.outputSizes lhs rhs := by
    rw [ConvolutionOp.outputSizes, ConvolutionOp.outputSizes]
    apply congrArg₂
    · exact congrArg (· / op.batchGroupCount) batch
    · apply congrArg (op.outputFeatures rhs :: ·)
      apply List.map_congr_left
      intro i member
      exact counts i (List.mem_range.mp member)
  have shape : (other.eval input rhs).shape = (op.eval lhs rhs).shape :=
    congrArg (placed op.dimensionNumbers.outputDims) sizes
  refine ⟨shape, ?_⟩
  intro index inside
  rw [shape] at inside
  have spatial : ∀ i < op.spatialRank, _ := fun i less => spatial_lt valid inside less
  have source (place feature : Nat) : other.sourceBatch input rhs place feature =
      op.sourceBatch lhs rhs place feature :=
    congrArg (fun size => feature / (op.outputFeatures rhs / op.batchGroupCount) *
      (size / op.batchGroupCount) + place) batch
  apply congrArg List.sum
  apply List.map_congr_left
  intro offset isOffset
  have member : offset ∈ op.offsets rhs := isOffset
  have within : ∀ i < op.spatialRank, offset.getD i 0 < (op.window rhs i).size := by
    intro i less
    have below := (within_iff_getD.mp (mem_indices.mp member)).2 i (by simpa using less)
    simpa [less] using below
  apply congrArg List.sum
  apply List.map_congr_left
  intro feature _
  apply congrArg₂
  · rw [source]
    exact reads _ _ _ offset spatial within
  · rfl

/-- What relates the places of a dimension that is spatial, and a coordinate with itself of one that
is not, relates the coordinates in the dimension. -/
theorem coordinates_related (valid : op.Valid lhs rhs) (related : Int → Int → Prop)
    (batch feature : Nat) {places others : List Int} {d : Nat} (less : d < lhs.shape.length)
    (apart : op.dimensionNumbers.inputSpatialDimensions.contains d = false →
      ∀ coordinate : Nat, related coordinate coordinate)
    (spatial : ∀ i < op.spatialRank, op.dimensionNumbers.inputSpatialDimensions.getD i 0 = d →
      related (places.getD i 0) (others.getD i 0)) :
    related (((batch : Int) :: (feature : Int) :: places).getD
        (op.dimensionNumbers.inputDims.idxOf d) 0)
      (((batch : Int) :: (feature : Int) :: others).getD
        (op.dimensionNumbers.inputDims.idxOf d) 0) := by
  have member : d ∈ op.dimensionNumbers.inputDims :=
    valid.input.mem_iff.mpr (List.mem_range.mpr less)
  have once := valid.input.nodup_iff.mpr List.nodup_range
  rw [ConvDimensionNumbers.inputDims, List.nodup_cons, List.nodup_cons] at once
  rw [ConvDimensionNumbers.inputDims] at member ⊢
  rw [List.idxOf_cons]
  by_cases isBatch : op.dimensionNumbers.inputBatchDimension = d
  · have notSpatial : op.dimensionNumbers.inputSpatialDimensions.contains d = false := by
      have notMember := fun within => once.1 (List.mem_cons_of_mem _ (isBatch ▸ within))
      simpa using notMember
    rw [beq_iff_eq.mpr isBatch]
    exact apart notSpatial batch
  · rw [beq_eq_false_iff_ne.mpr isBatch, cond_false, List.getD_cons_succ, List.getD_cons_succ,
      List.idxOf_cons]
    by_cases isFeature : op.dimensionNumbers.inputFeatureDimension = d
    · have notSpatial : op.dimensionNumbers.inputSpatialDimensions.contains d = false := by
        have notMember := fun within => once.2.1 (isFeature ▸ within)
        simpa using notMember
      rw [beq_iff_eq.mpr isFeature]
      exact apart notSpatial feature
    · have isSpatial : d ∈ op.dimensionNumbers.inputSpatialDimensions := by
        simpa [Ne.symm isBatch, Ne.symm isFeature] using member
      have below := List.idxOf_lt_length_of_mem isSpatial
      have there := spatial _ below (by rw [List.getD_eq_getElem _ _ below, List.getElem_idxOf])
      rw [beq_eq_false_iff_ne.mpr isFeature, cond_false, List.getD_cons_succ, List.getD_cons_succ]
      exact there

/-- A spatial dimension is a dimension of the input, the only one at its place. -/
theorem spatialDim_mem (valid : op.Valid lhs rhs) {i : Nat} (less : i < op.spatialRank) :
    let dim := op.dimensionNumbers.inputSpatialDimensions.getD i 0
    op.dimensionNumbers.inputSpatialDimensions.contains dim = true ∧
      op.dimensionNumbers.inputSpatialDimensions.idxOf dim = i ∧ dim < lhs.shape.length := by
  have once := valid.input.nodup_iff.mpr List.nodup_range
  rw [ConvDimensionNumbers.inputDims, List.nodup_cons, List.nodup_cons] at once
  have inside : i < op.dimensionNumbers.inputSpatialDimensions.length := less
  have member := List.getElem_mem inside
  rw [List.getD_eq_getElem _ _ inside]
  refine ⟨List.contains_iff_mem.mpr member, once.2.2.idxOf_getElem i inside, ?_⟩
  have listed : op.dimensionNumbers.inputSpatialDimensions[i] ∈ op.dimensionNumbers.inputDims :=
    List.mem_cons_of_mem _ (List.mem_cons_of_mem _ member)
  exact List.mem_range.mp (valid.input.mem_iff.mp listed)

theorem batchDim_mem (valid : op.Valid lhs rhs) :
    op.dimensionNumbers.inputSpatialDimensions.contains
        op.dimensionNumbers.inputBatchDimension = false ∧
      op.dimensionNumbers.inputBatchDimension < lhs.shape.length := by
  have once := valid.input.nodup_iff.mpr List.nodup_range
  rw [ConvDimensionNumbers.inputDims, List.nodup_cons] at once
  constructor
  · have notMember := fun within => once.1 (List.mem_cons_of_mem _ within)
    simpa using notMember
  · exact List.mem_range.mp (valid.input.mem_iff.mp List.mem_cons_self)

/-- The size of a spatial dimension of the input. -/
theorem inputSize (op : ConvolutionOp) (lhs : Tensor α) {i : Nat} (less : i < op.spatialRank) :
    (op.inputSizes lhs).getD (i + 2) 0 =
      lhs.shape.getD (op.dimensionNumbers.inputSpatialDimensions.getD i 0) 0 := by
  have below : i + 2 < op.dimensionNumbers.inputDims.length := Nat.add_lt_add_right less 2
  exact getD_applyPermutation below

section Dilated

theorem lhsDilationOf_pos (valid : op.Valid lhs rhs) (d : Nat) : 0 < lhsDilationOf op d := by
  unfold lhsDilationOf
  dsimp only
  split
  · rename_i isSpatial
    exact valid.lhsDilations _ (List.idxOf_lt_length_of_mem (List.contains_iff_mem.mp isSpatial))
  · exact Nat.one_pos

/-- The holes of each dimension. -/
theorem interior_eq (valid : op.Valid lhs rhs) {d : Nat} (less : d < lhs.shape.length) :
    ((List.range lhs.shape.length).map fun dim => lhsDilationOf op dim - 1).getD d 0 + 1 =
      lhsDilationOf op d := by
  have positive := lhsDilationOf_pos valid d
  simp only [List.getD_eq_getElem?_getD, List.getElem?_map, List.getElem?_range less,
    Option.map_some, Option.getD_some]
  omega

theorem lhsDilationOf_spatial (valid : op.Valid lhs rhs) {i : Nat} (less : i < op.spatialRank) :
    lhsDilationOf op (op.dimensionNumbers.inputSpatialDimensions.getD i 0) =
      op.lhsDilation.getD i 1 := by
  obtain ⟨isSpatial, isPlace, -⟩ := spatialDim_mem valid less
  rw [lhsDilationOf, if_pos isSpatial, isPlace]

/-- The convolution of an input with holes, where it is not dilated. -/
theorem dilated_same [NonUnitalNonAssocSemiring α] (valid : op.Valid lhs rhs)
    {ones : List Nat} (areOnes : ∀ i, ones.getD i 1 = 1) :
    let rank := lhs.shape.length
    let input := lhs.pad 0 (List.replicate rank 0) (List.replicate rank 0)
      ((List.range rank).map fun dim => lhsDilationOf op dim - 1)
    (ConvolutionOp.eval { op with lhsDilation := ones } input rhs).Same (op.eval lhs rhs) := by
  intro rank input
  have size {d : Nat} (less : d < lhs.shape.length) :
      input.shape.getD d 0 = dilatedSize (lhs.shape.getD d 0) (lhsDilationOf op d) := by
    rw [pad_size _ _ _ _ less, interior_eq valid less]
  apply eval_same valid
  · obtain ⟨notSpatial, less⟩ := batchDim_mem valid
    show input.shape.getD op.dimensionNumbers.inputBatchDimension 0 = lhs.shape.getD _ 0
    rw [size less, lhsDilationOf, notSpatial, if_neg Bool.false_ne_true, dilatedSize_one]
  · intro i less
    have inputSame := inputSize { op with lhsDilation := ones } input less
    have isDim := (spatialDim_mem valid less).2.2
    show (op.window rhs i).count (dilatedSize _ (ones.getD i 1)) = _
    rw [areOnes, dilatedSize_one, inputSame, size isDim, lhsDilationOf_spatial valid less,
      ConvolutionOp.windowCount, inputSize op lhs less]
  · intro batch feature spatial offset _ _
    refine (at?_pad lhs 0 rank _ _).trans ?_
    apply congrArg (Option.getD · 0)
    apply at?_congr
    intro d less
    rw [interior_eq valid less]
    apply coordinates_related valid (fun place other => undilated (lhsDilationOf op d) place = other)
      batch feature less
    · intro notSpatial coordinate
      rw [lhsDilationOf, notSpatial, if_neg Bool.false_ne_true, undilated_one]
    · intro i less isDim
      have placed := getD_placesAt { op with lhsDilation := ones } rhs spatial offset less
      rw [← isDim, lhsDilationOf_spatial valid less, placed, getD_placesAt op rhs spatial offset less,
        areOnes, undilated_one]
      rfl

theorem materializeInputDilation_same [NonUnitalNonAssocSemiring α] {isSupportedConv : Bool}
    (valid : op.Valid lhs rhs) {other : ConvolutionOp} {input : Tensor α}
    (accepted : materializeInputDilation isSupportedConv op lhs = some (other, input)) :
    (other.eval input rhs).Same (op.eval lhs rhs) := by
  unfold materializeInputDilation at accepted
  split at accepted
  · cases accepted
  · dsimp only at accepted
    split at accepted
    · cases accepted
    · split at accepted
      · cases accepted
      · obtain ⟨rfl, rfl⟩ := Prod.mk.inj (Option.some.inj accepted)
        apply dilated_same valid
        intro i
        match i with
        | 0 => rfl
        | 1 => rfl
        | i + 2 => rfl

end Dilated

/-- What negative padding takes off a dimension of the input, at both of its ends. -/
def crops (op : ConvolutionOp) (d : Nat) : Int × Int :=
  (max (-(paddingOf op d).1) 0, max (-(paddingOf op d).2) 0)

/-- The input has what is taken off it. -/
def CropsFit (op : ConvolutionOp) (shape : List Nat) : Prop :=
  ∀ d < shape.length, (crops op d).1 + (crops op d).2 ≤ shape.getD d 0

/-- The sizes and what is taken off are integers of 32 bits, as the slice has them. -/
def Fits32 (op : ConvolutionOp) (shape : List Nat) : Prop :=
  ∀ d < shape.length, shape.getD d 0 < 2 ^ 31 ∧ -2 ^ 31 < (paddingOf op d).1 ∧
    -2 ^ 31 < (paddingOf op d).2

instance (op : ConvolutionOp) (shape : List Nat) : Decidable (CropsFit op shape) :=
  inferInstanceAs (Decidable (∀ d < shape.length, _))

instance (op : ConvolutionOp) (shape : List Nat) : Decidable (Fits32 op shape) :=
  inferInstanceAs (Decidable (∀ d < shape.length, _))

theorem toInt_cropOf {padding : Int} (fits : -2 ^ 31 < padding) :
    (cropOf padding).toInt = max (-padding) 0 := by
  apply Int32.toInt_ofInt_of_le <;> omega

section Cropped

variable {shape : List Nat} (fits : Fits32 op shape)
include fits

section

variable {d : Nat} (less : d < shape.length)
include less

/-- The slice in numbers. -/
theorem begin_eq :
    ((cropInput op shape).inputSliceBegins.getD d 0).toInt = (crops op d).1 := by
  simp only [cropInput, List.getD_eq_getElem?_getD, List.getElem?_map, List.getElem?_range less,
    Option.map_some, Option.getD_some]
  exact toInt_cropOf (fits d less).2.1

theorem end_eq :
    ((cropInput op shape).inputSliceEnds.getD d 0).toInt = shape.getD d 0 - (crops op d).2 := by
  obtain ⟨small, -, high⟩ := fits d less
  have size : (Int32.ofInt (shape.getD d 0)).toInt = shape.getD d 0 := by
    apply Int32.toInt_ofInt_of_le <;> omega
  have listed : (cropInput op shape).inputSliceEnds.getD d 0 =
      Int32.ofInt (shape.getD d 0) - cropOf (paddingOf op d).2 := by
    simp [cropInput, less]
  rw [listed, Int32.toInt_sub, size, toInt_cropOf high]
  apply Int.bmod_eq_of_le <;> omega

theorem slicedShape_eq (fit : (crops op d).1 + (crops op d).2 ≤ shape.getD d 0) :
    (cropInput op shape).slicedShape.getD d 0 =
      shape.getD d 0 - ((crops op d).1 + (crops op d).2) := by
  obtain ⟨small, low, high⟩ := fits d less
  have listed : (cropInput op shape).slicedShape.getD d 0 = shape.getD d 0 -
      (cropOf (paddingOf op d).1 + cropOf (paddingOf op d).2).toInt := by
    simp [cropInput, less]
  have sum : (cropOf (paddingOf op d).1 + cropOf (paddingOf op d).2).toInt =
      (crops op d).1 + (crops op d).2 := by
    rw [Int32.toInt_add, toInt_cropOf low, toInt_cropOf high]
    rw [crops] at fit ⊢
    apply Int.bmod_eq_of_le <;> omega
  rw [listed, sum]

end

/-- The slice is one of the input only if the input has what is taken off. -/
theorem cropped_valid_iff : (cropInput op shape).Valid shape ↔ CropsFit op shape := by
  have nonneg (d : Nat) : 0 ≤ (crops op d).1 ∧ 0 ≤ (crops op d).2 :=
    ⟨le_max_right _ _, le_max_right _ _⟩
  constructor
  · intro valid d less
    have ordered := (valid d less).2.1
    rw [begin_eq fits less, end_eq fits less] at ordered
    omega
  · intro fit d less
    have both := nonneg d
    have here := fit d less
    rw [begin_eq fits less, end_eq fits less, slicedShape_eq fits less here]
    omega

end Cropped

theorem input_getD (cropped : CroppedConvolution) (lhs : Tensor α) (d : Nat) :
    (cropped.input lhs).shape.getD d 0 = (cropped.slicedShape.getD d 0).toNat := by
  simp only [CroppedConvolution.input, List.getD_eq_getElem?_getD, List.getElem?_map]
  cases cropped.slicedShape[d]? <;> rfl

/-- A slice reads at the coordinates that are left what the operand has at the coordinates before. -/
theorem at?_input {cropped : CroppedConvolution} {x y : Nat → Int}
    (rank : cropped.slicedShape.length = lhs.shape.length)
    (begins : cropped.inputSliceBegins.length = lhs.shape.length)
    (same : ∀ d < lhs.shape.length,
      (0 ≤ x d ∧ x d < (cropped.slicedShape.getD d 0).toNat ↔ 0 ≤ y d ∧ y d < lhs.shape.getD d 0) ∧
        (0 ≤ x d → (x d).toNat + (cropped.inputSliceBegins.getD d 0).toInt.toNat = (y d).toNat)) :
    (cropped.input lhs).at? x = lhs.at? y := by
  have rankToo : (cropped.input lhs).shape.length = lhs.shape.length := by
    rw [CroppedConvolution.input, List.length_map, rank]
  by_cases inside : ∀ d < lhs.shape.length, 0 ≤ y d ∧ y d < lhs.shape.getD d 0
  · have insideToo : ∀ d < (cropped.input lhs).shape.length,
        0 ≤ x d ∧ x d < (cropped.input lhs).shape.getD d 0 := by
      intro d less
      rw [rankToo] at less
      rw [input_getD]
      exact (same d less).1.mpr (inside d less)
    rw [at?, at?, if_pos inside, if_pos insideToo, rankToo]
    apply congrArg (fun index => some (lhs.data index))
    apply List.ext_getElem
    · simp [begins]
    · intro d less _
      have below : d < lhs.shape.length := by simpa [begins] using less
      have moved := (same d below).2 ((same d below).1.mpr (inside d below)).1
      rw [List.getD_eq_getElem _ _ (begins.symm ▸ below)] at moved
      simpa using moved
  · rw [at?, at?, if_neg inside, if_neg]
    intro insideToo
    apply inside
    intro d less
    have there := insideToo d (rankToo.symm ▸ less)
    rw [input_getD] at there
    exact (same d less).1.mp there

/-- The padding of a spatial dimension. -/
theorem paddingOf_spatial (valid : op.Valid lhs rhs) {i : Nat} (less : i < op.spatialRank) :
    paddingOf op (op.dimensionNumbers.inputSpatialDimensions.getD i 0) =
      op.padding.getD i (0, 0) := by
  obtain ⟨isSpatial, isPlace, -⟩ := spatialDim_mem valid less
  rw [paddingOf, if_pos isSpatial, isPlace]

theorem crops_apart {d : Nat}
    (notSpatial : op.dimensionNumbers.inputSpatialDimensions.contains d = false) :
    crops op d = (0, 0) := by
  rw [crops, paddingOf, notSpatial, if_neg Bool.false_ne_true]
  rfl

/-- The padding that is left. -/
theorem clamped_getD (padding : List (Int × Int)) (i : Nat) :
    (padding.map fun (low, high) => (max low 0, max high 0)).getD i (0, 0) =
      (max (padding.getD i (0, 0)).1 0, max (padding.getD i (0, 0)).2 0) := by
  rw [List.getD_eq_getElem?_getD, List.getD_eq_getElem?_getD, List.getElem?_map]
  cases padding[i]? <;> rfl

/-- A dimension has as many windows of what is left, with the padding that is left. -/
theorem count_clamped (window : Window) {size sliced : Nat} {low high : Int}
    (same : sliced + low + high = size + window.low + window.high) :
    Window.count { window with low := low, high := high } sliced = window.count size := by
  unfold Window.count
  rw [same]
  rfl

/-- Where a window reads, counted from what is left and from the whole dimension. -/
theorem place_cropped {x y place low high : Int} {size : Nat} (isX : x = place - max low 0)
    (isY : y = place - low) (nonneg : 0 ≤ place) (reach : place < size + low + high) :
    (0 ≤ x ∧ x < ((size - (max (-low) 0 + max (-high) 0) : Int)).toNat ↔ 0 ≤ y ∧ y < size) ∧
      (0 ≤ x → x.toNat + (max (-low) 0).toNat = y.toNat) := by
  omega

/-- As long as the input has what is taken off, cropping it takes off what no window reads. -/
theorem cropped_same [NonUnitalNonAssocSemiring α] (valid : op.Valid lhs rhs)
    (undilatedInput : ∀ i, op.lhsDilation.getD i 1 = 1) (fits : Fits32 op lhs.shape)
    (fit : CropsFit op lhs.shape) :
    ((cropInput op lhs.shape).eval lhs rhs).Same (op.eval lhs rhs) := by
  have size {d : Nat} (less : d < lhs.shape.length) :
      (((cropInput op lhs.shape).input lhs).shape.getD d 0 : Int) =
        lhs.shape.getD d 0 - ((crops op d).1 + (crops op d).2) := by
    have here := fit d less
    rw [input_getD, slicedShape_eq fits less here]
    omega
  apply eval_same valid
  · obtain ⟨notSpatial, less⟩ := batchDim_mem valid
    have whole := size less
    rw [crops_apart notSpatial, add_zero, sub_zero] at whole
    exact Int.ofNat_inj.mp whole
  · intro i less
    have isDim := (spatialDim_mem valid less).2.2
    have left := size isDim
    have inputSame := inputSize (cropInput op lhs.shape).convolution
      ((cropInput op lhs.shape).input lhs) less
    have clamped := clamped_getD op.padding i
    have isWindow : (cropInput op lhs.shape).convolution.window rhs i =
        { op.window rhs i with
          low := max (op.window rhs i).low 0
          high := max (op.window rhs i).high 0 } :=
      congrArg (fun padding : Int × Int =>
        { op.window rhs i with low := padding.1, high := padding.2 }) clamped
    show Window.count ((cropInput op lhs.shape).convolution.window rhs i) (dilatedSize
      (((cropInput op lhs.shape).convolution.inputSizes
        ((cropInput op lhs.shape).input lhs)).getD (i + 2) 0) (op.lhsDilation.getD i 1)) = _
    rw [isWindow, inputSame, undilatedInput, dilatedSize_one, ConvolutionOp.windowCount,
      inputSize op lhs less, undilatedInput, dilatedSize_one]
    apply count_clamped
    rw [crops, paddingOf_spatial valid less] at left
    simp only [ConvolutionOp.window] at left ⊢
    exact (congrArg (· + _ + _) left).trans (by omega)
  · intro batch feature spatial offset isSpatial isOffset
    apply congrArg (Option.getD · 0)
    apply at?_input
    · simp [cropInput]
    · simp [cropInput]
    · intro d less
      have here := fit d less
      rw [slicedShape_eq fits less here, begin_eq fits less]
      apply coordinates_related valid (fun x y =>
        (0 ≤ x ∧ x < (lhs.shape.getD d 0 - ((crops op d).1 + (crops op d).2)).toNat ↔
            0 ≤ y ∧ y < lhs.shape.getD d 0) ∧
          (0 ≤ x → x.toNat + (crops op d).1.toNat = y.toNat)) batch feature less
      · intro notSpatial coordinate
        rw [crops_apart notSpatial]
        omega
      · intro i isPlace isDim
        have reach := Window.reach_lt (valid.strides i isPlace) (isSpatial i isPlace)
          (isOffset i isPlace)
        have isX := getD_placesAt (cropInput op lhs.shape).convolution rhs spatial offset isPlace
        have isY := getD_placesAt op rhs spatial offset isPlace
        have clamped : ((cropInput op lhs.shape).convolution.window rhs i).low =
            max (op.window rhs i).low 0 := congrArg Prod.fst (clamped_getD op.padding i)
        rw [undilatedInput, dilatedSize_one, inputSize op lhs isPlace, isDim] at reach
        rw [show (cropInput op lhs.shape).convolution.lhsDilation = op.lhsDilation from rfl,
          undilatedInput, undilated_one, ConvolutionOp.place, Window.source, clamped] at isX
        rw [undilatedInput, undilated_one, ConvolutionOp.place, Window.source] at isY
        rw [crops, ← isDim, paddingOf_spatial valid isPlace, isDim]
        exact place_cropped isX isY (by positivity) reach

theorem undilated_of_accepted {shape : List Nat} {cropped : CroppedConvolution}
    (accepted : cropNegativePadding op shape = some cropped) :
    cropped = cropInput op shape ∧ ∀ i, op.lhsDilation.getD i 1 = 1 := by
  unfold cropNegativePadding at accepted
  dsimp only at accepted
  split at accepted
  · cases accepted
  · split at accepted
    · cases accepted
    · rename_i ones
      constructor
      · exact (Option.some.inj accepted).symm
      · intro i
        rw [List.getD_eq_getElem?_getD]
        cases isDilation : op.lhsDilation[i]? with
        | none => rfl
        | some dilation =>
          have member := List.mem_of_getElem? isDilation
          simp only [List.any_eq_true, not_exists, not_and, decide_eq_true_eq, not_not] at ones
          exact ones dilation member

section ReduceWindows

variable {window : ReduceWindowsOp} {inputs : List (Tensor α)} {initValues : List α}

section

variable (positive : ∀ d, 0 < window.baseDilations.getD d 1)
include positive

/-- Holes of a base dilation. -/
theorem holes_eq (d : Nat) :
    (window.baseDilations.map (· - 1)).getD d 0 + 1 = window.baseDilations.getD d 1 := by
  have here := positive d
  rw [List.getD_eq_getElem?_getD] at here
  rw [List.getD_eq_getElem?_getD, List.getD_eq_getElem?_getD, List.getElem?_map]
  cases isDilation : window.baseDilations[d]? with
  | none => rfl
  | some dilation =>
    rw [isDilation, Option.getD_some] at here
    exact Nat.sub_add_cancel here

theorem elements_padded (rank : Nat) (index : List Nat) :
    ReduceWindowsOp.elements { window with baseDilations := [] }
        (List.zipWith (fun input init => input.pad init (List.replicate rank 0)
          (List.replicate rank 0) (window.baseDilations.map (· - 1))) inputs initValues)
        initValues index = window.elements inputs initValues index := by
  apply List.map_congr_left
  intro offset _
  induction inputs generalizing initValues with
  | nil => rfl
  | cons input inputs ih =>
    cases initValues with
    | nil => rfl
    | cons init initValues =>
      apply congrArg₂ List.cons
      · let place (d : Nat) : Int := (window.window d).source (index.getD d 0) (offset.getD d 0)
        have read := at?_pad input init rank (window.baseDilations.map (· - 1)) place
        simp only [holes_eq positive] at read
        refine Eq.trans ?_ read
        apply congrArg (Option.getD · init)
        apply at?_congr
        intro d _
        exact undilated_one (place d)
      · exact ih

theorem materializeBaseDilations_same (paired : inputs.length = initValues.length)
    {other : ReduceWindowsOp} {padded : List (Tensor α)}
    (accepted : materializeBaseDilations window inputs initValues = some (other, padded))
    (reduce : List Nat → List α → List (List α) → List α) :
    (other.eval reduce padded initValues).Same (window.eval reduce inputs initValues) := by
  unfold materializeBaseDilations at accepted
  split at accepted
  · cases accepted
  · obtain ⟨rfl, rfl⟩ := Prod.mk.inj (Option.some.inj accepted)
    constructor
    · cases inputs with
      | nil => rfl
      | cons input inputs =>
        cases initValues with
        | nil => cases paired
        | cons init initValues =>
          have rank (value : α) (low high : List Int) (interior : List Nat) :
              (input.pad value low high interior).shape.length = input.shape.length := by
            simp [Tensor.pad]
          simp only [ReduceWindowsOp.eval, ReduceWindowsOp.resultShape, List.zipWith_cons_cons,
            List.map_cons, List.headD_cons, rank]
          apply List.map_congr_left
          intro d member
          rw [pad_size _ _ _ _ (List.mem_range.mp member), holes_eq positive]
          exact congrArg (window.window d).count (dilatedSize_one _)
    · intro index _
      exact congrArg (reduce index initValues) (elements_padded positive _ index)

end

end ReduceWindows

/-- A convolution of rows. -/
def rowConvolution (padding : Int × Int) : ConvolutionOp :=
  ⟨⟨0, 1, [2], 1, 0, [2], 0, 1, [2]⟩, [1], [padding], [1], [1], [false], 1, 1⟩

theorem rowConvolution_first {padding : Int × Int} {i : Nat}
    (less : i < (rowConvolution padding).spatialRank) : i = 0 := Nat.lt_one_iff.mp less

theorem rowConvolution_valid (padding : Int × Int) (size : Nat) (row kernel : List Nat → Int) :
    (rowConvolution padding).Valid (⟨[1, 1, size], row⟩ : Tensor Int) ⟨[1, 1, 1], kernel⟩ where
  input := List.Perm.refl [0, 1, 2]
  kernel := show [1, 0, 2].Perm [0, 1, 2] by decide
  output := List.Perm.refl [0, 1, 2]
  rank := rfl
  windows i less := by
    rw [rowConvolution_first less]
    exact Nat.one_pos
  strides i less := by
    rw [rowConvolution_first less]
    exact Nat.one_pos
  lhsDilations i less := by
    rw [rowConvolution_first less]
    exact Nat.one_pos
  rhsDilations i less := by
    rw [rowConvolution_first less]
    exact Nat.one_pos
  featureGroups := Nat.one_pos
  batchGroups := Nat.one_pos
  alone := .inl rfl
  batches := one_dvd _
  features := rfl
  featuresByGroup := one_dvd _
  featuresByBatch := one_dvd _

end Libtt.Convolutions

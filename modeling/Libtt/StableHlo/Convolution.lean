import Libtt.StableHlo.DotGeneral
import Libtt.StableHlo.Window

/-!
# Convolutions

A convolution adds up, for the window of each result, the products of the input's elements and the
kernel's.
-/
namespace Libtt.StableHlo

variable {α : Type}

/-- Which dimensions are the batch, the features and the spatial ones. -/
structure ConvDimensionNumbers where
  inputBatchDimension : Nat
  inputFeatureDimension : Nat
  inputSpatialDimensions : List Nat
  kernelInputFeatureDimension : Nat
  kernelOutputFeatureDimension : Nat
  kernelSpatialDimensions : List Nat
  outputBatchDimension : Nat
  outputFeatureDimension : Nat
  outputSpatialDimensions : List Nat
  deriving DecidableEq, Repr

namespace ConvDimensionNumbers

variable (numbers : ConvDimensionNumbers)

/-- Batch, features, and the spatial dimensions. -/
def inputDims : List Nat :=
  numbers.inputBatchDimension :: numbers.inputFeatureDimension :: numbers.inputSpatialDimensions

/-- Input features, output features, and the spatial dimensions. -/
def kernelDims : List Nat :=
  numbers.kernelInputFeatureDimension :: numbers.kernelOutputFeatureDimension ::
    numbers.kernelSpatialDimensions

/-- Batch, features, and the spatial dimensions. -/
def outputDims : List Nat :=
  numbers.outputBatchDimension :: numbers.outputFeatureDimension :: numbers.outputSpatialDimensions

end ConvDimensionNumbers

/-- `stablehlo.convolution`. -/
structure ConvolutionOp where
  dimensionNumbers : ConvDimensionNumbers
  windowStrides : List Nat
  padding : List (Int × Int)
  lhsDilation : List Nat
  rhsDilation : List Nat
  windowReversal : List Bool
  featureGroupCount : Nat
  batchGroupCount : Nat
  deriving DecidableEq, Repr

/-- The extent of a dimension with holes between its elements. -/
def dilatedSize (size dilation : Nat) : Nat := if size = 0 then 0 else (size - 1) * dilation + 1

/-- The element at a place of a dilated dimension, or -1 where there is none. -/
def undilated (dilation : Nat) (place : Int) : Int :=
  if place % dilation = 0 then place / dilation else -1

namespace ConvolutionOp

variable (op : ConvolutionOp)

def spatialRank : Nat := op.dimensionNumbers.inputSpatialDimensions.length

/-- The sizes of the batch, of the features and of the spatial dimensions. -/
def inputSizes (lhs : Tensor α) : List Nat :=
  applyPermutation lhs.shape op.dimensionNumbers.inputDims

/-- The sizes of the input features, of the output features and of the spatial dimensions. -/
def kernelSizes (rhs : Tensor α) : List Nat :=
  applyPermutation rhs.shape op.dimensionNumbers.kernelDims

def batchSize (lhs : Tensor α) : Nat := (op.inputSizes lhs).getD 0 0

def inputFeatures (rhs : Tensor α) : Nat := (op.kernelSizes rhs).getD 0 0

def outputFeatures (rhs : Tensor α) : Nat := (op.kernelSizes rhs).getD 1 0

/-- The window of a spatial dimension. -/
def window (rhs : Tensor α) (i : Nat) : Window where
  size := (op.kernelSizes rhs).getD (i + 2) 0
  stride := op.windowStrides.getD i 1
  dilation := op.rhsDilation.getD i 1
  low := (op.padding.getD i (0, 0)).1
  high := (op.padding.getD i (0, 0)).2

/-- How many windows a spatial dimension has. -/
def windowCount (lhs rhs : Tensor α) (i : Nat) : Nat :=
  (op.window rhs i).count (dilatedSize ((op.inputSizes lhs).getD (i + 2) 0)
    (op.lhsDilation.getD i 1))

/-- The sizes of the result's batch, of its features and of its spatial dimensions. -/
def outputSizes (lhs rhs : Tensor α) : List Nat :=
  op.batchSize lhs / op.batchGroupCount :: op.outputFeatures rhs ::
    (List.range op.spatialRank).map (op.windowCount lhs rhs)

/-- The input's batch for a batch of the result. -/
def sourceBatch (lhs rhs : Tensor α) (batch feature : Nat) : Nat :=
  feature / (op.outputFeatures rhs / op.batchGroupCount) *
    (op.batchSize lhs / op.batchGroupCount) + batch

/-- The first input feature for a feature of the result. -/
def firstFeature (rhs : Tensor α) (feature : Nat) : Nat :=
  feature / (op.outputFeatures rhs / op.featureGroupCount) * op.inputFeatures rhs

/-- The place of an offset in the window at a spatial index, in the dilated input. -/
def place (rhs : Tensor α) (spatial offset : List Nat) (i : Nat) : Int :=
  (op.window rhs i).source (spatial.getD i 0) (offset.getD i 0)

/-- An element of the padded input: nothing, between the elements and in the padding. -/
def inputAt [Zero α] (lhs : Tensor α) (batch feature : Nat) (places : List Int) : α :=
  (lhs.at? fun dim =>
    ((batch : Int) :: (feature : Int) :: places).getD
      (op.dimensionNumbers.inputDims.idxOf dim) 0).getD 0

/-- The kernel's coordinates for an offset in the window. -/
def kernelOffset (rhs : Tensor α) (offset : List Nat) : List Nat :=
  (List.range op.spatialRank).map fun i =>
    if op.windowReversal.getD i false then (op.window rhs i).size - 1 - offset.getD i 0
    else offset.getD i 0

/-- The offsets in a window. -/
def offsets (rhs : Tensor α) : List (List Nat) :=
  indices ((List.range op.spatialRank).map fun i => (op.window rhs i).size)

variable [NonUnitalNonAssocSemiring α]

/-- An element of the result. -/
def element (lhs rhs : Tensor α) (batch feature : Nat) (spatial : List Nat) : α :=
  ((op.offsets rhs).map fun offset =>
    ((List.range (op.inputFeatures rhs)).map fun i =>
      op.inputAt lhs (op.sourceBatch lhs rhs batch feature) (op.firstFeature rhs feature + i)
          ((List.range op.spatialRank).map fun d =>
            undilated (op.lhsDilation.getD d 1) (op.place rhs spatial offset d)) *
        rhs.data (placed op.dimensionNumbers.kernelDims
          (i :: feature :: op.kernelOffset rhs offset))).sum).sum

def eval (lhs rhs : Tensor α) : Tensor α where
  shape := placed op.dimensionNumbers.outputDims (op.outputSizes lhs rhs)
  data index :=
    let coordinates := applyPermutation index op.dimensionNumbers.outputDims
    op.element lhs rhs (coordinates.getD 0 0) (coordinates.getD 1 0) (coordinates.drop 2)

end ConvolutionOp

/-- What a convolution is checked for. -/
structure ConvolutionOp.Valid (op : ConvolutionOp) (lhs rhs : Tensor α) : Prop where
  input : op.dimensionNumbers.inputDims.Perm (List.range lhs.shape.length)
  kernel : op.dimensionNumbers.kernelDims.Perm (List.range rhs.shape.length)
  output : op.dimensionNumbers.outputDims.Perm (List.range lhs.shape.length)
  rank : rhs.shape.length = lhs.shape.length
  windows : ∀ i < op.spatialRank, 0 < (op.window rhs i).size
  strides : ∀ i < op.spatialRank, 0 < op.windowStrides.getD i 1
  lhsDilations : ∀ i < op.spatialRank, 0 < op.lhsDilation.getD i 1
  rhsDilations : ∀ i < op.spatialRank, 0 < op.rhsDilation.getD i 1
  featureGroups : 0 < op.featureGroupCount
  batchGroups : 0 < op.batchGroupCount
  alone : op.featureGroupCount = 1 ∨ op.batchGroupCount = 1
  batches : op.batchGroupCount ∣ op.batchSize lhs
  features : (op.inputSizes lhs).getD 1 0 = op.featureGroupCount * op.inputFeatures rhs
  featuresByGroup : op.featureGroupCount ∣ op.outputFeatures rhs
  featuresByBatch : op.batchGroupCount ∣ op.outputFeatures rhs

end Libtt.StableHlo

import Libtt.StableHlo.Convolution

/-!
# Convolutions without spatial dimensions

Such a convolution is a dot product of features. With groups it is one for each group, of operands
that are reshaped to have a dimension of groups.
-/
namespace Libtt.Convolutions

open Libtt.StableHlo

variable {α : Type} [NonUnitalNonAssocSemiring α]

/-- One dot product of the features. -/
def ungrouped (op : ConvolutionOp) (lhs rhs : Tensor α) : Tensor α :=
  DotGeneralOp.eval ⟨[], [], [1], [op.dimensionNumbers.kernelInputFeatureDimension]⟩ lhs rhs

/-- A dot product for each group. -/
def grouped (op : ConvolutionOp) (outputShape : List Nat) (groupCount : Nat)
    (lhs rhs : Tensor α) : Tensor α :=
  let rhs := if op.dimensionNumbers.kernelOutputFeatureDimension ≠ 0 then rhs.permute [1, 0] else rhs
  let batch := outputShape.getD 0 0
  let inputFeatures := rhs.shape.getD 1 0
  let outputFeaturesPerGroup := outputShape.getD 1 0 / groupCount
  let featureGrouped := decide (1 < op.featureGroupCount)
  let lhs := lhs.reshape [if featureGrouped then batch else groupCount,
    if featureGrouped then groupCount else batch, inputFeatures]
  let rhs := rhs.reshape [groupCount, outputFeaturesPerGroup, inputFeatures]
  let result := DotGeneralOp.eval ⟨[if featureGrouped then 1 else 0], [0], [2], [2]⟩ lhs rhs
  (result.permute [1, 0, 2]).reshape outputShape

/-- `Convolution0DToDotGeneralPattern`, in exact arithmetic. -/
def convolution0DToDotGeneral (isSupportedConv : Bool) (op : ConvolutionOp)
    (lhs rhs : Tensor α) : Option (Tensor α) :=
  let dims := op.dimensionNumbers
  if !isSupportedConv || op.spatialRank != 0 then none
  else if dims.inputBatchDimension ≠ 0 ∨ dims.inputFeatureDimension ≠ 1 ∨
      (op.batchGroupCount ≠ 1 ∧ op.featureGroupCount ≠ 1) then none
  else
    let resultShape := (op.eval lhs rhs).shape
    let outputShape := [resultShape.getD dims.outputBatchDimension 0,
      resultShape.getD dims.outputFeatureDimension 0]
    let groupCount := max op.batchGroupCount op.featureGroupCount
    let result := if groupCount = 1 then ungrouped op lhs rhs
      else grouped op outputShape groupCount lhs rhs
    some (if dims.outputBatchDimension ≠ 0 then result.permute [1, 0] else result)

end Libtt.Convolutions

/-! ## A convolution without spatial dimensions is a dot product -/
namespace Libtt.Convolutions

open Libtt.StableHlo Libtt.StableHlo.Tensor

variable {α : Type} {op : ConvolutionOp} {lhs rhs : Tensor α}

/-- Two dimensions are in their order or not. -/
theorem perm_pair {dims : List Nat} (perm : dims.Perm (List.range 2)) :
    dims = [0, 1] ∨ dims = [1, 0] := by
  have length : dims.length = 2 := perm.length_eq
  obtain ⟨first, second, rfl⟩ := List.length_eq_two.mp length
  have isFirst := List.mem_range.mp (perm.mem_iff.mp (show first ∈ [first, second] by simp))
  have isSecond := List.mem_range.mp (perm.mem_iff.mp (show second ∈ [first, second] by simp))
  have once := perm.nodup_iff.mpr List.nodup_range
  simp only [List.nodup_cons, List.mem_singleton] at once
  have cases : first = 0 ∧ second = 1 ∨ first = 1 ∧ second = 0 := by omega
  rcases cases with ⟨rfl, rfl⟩ | ⟨rfl, rfl⟩
  · left; rfl
  · right; rfl

theorem within_pair {index : List Nat} {rows cols : Nat} : Within index [rows, cols] ↔
    ∃ row col, index = [row, col] ∧ row < rows ∧ col < cols := by
  constructor
  · intro inside
    cases inside with
    | cons isRow rest =>
      cases rest with
      | cons isCol rest =>
        cases rest
        exact ⟨_, _, rfl, isRow, isCol⟩
  · rintro ⟨row, col, rfl, isRow, isCol⟩
    exact .cons isRow (.cons isCol .nil)

theorem within_triple {x y z a b c : Nat} (first : x < a) (second : y < b) (third : z < c) :
    Within [x, y, z] [a, b, c] := .cons first (.cons second (.cons third .nil))

/-- A convolution without spatial dimensions, whose input has the batch first. -/
structure Flat (op : ConvolutionOp) (lhs rhs : Tensor α) : Prop where
  valid : op.Valid lhs rhs
  spatial : op.dimensionNumbers.inputSpatialDimensions = []
  batch : op.dimensionNumbers.inputBatchDimension = 0
  feature : op.dimensionNumbers.inputFeatureDimension = 1

/-- The kernel with the output features first. -/
def kernelRows (op : ConvolutionOp) (rhs : Tensor α) : Tensor α :=
  if op.dimensionNumbers.kernelOutputFeatureDimension ≠ 0 then rhs.permute [1, 0] else rhs

/-- The input with a dimension of groups. -/
def groupedLhs (op : ConvolutionOp) (groups : Nat) (lhs rhs : Tensor α) : Tensor α :=
  lhs.reshape [if 1 < op.featureGroupCount then op.batchSize lhs / op.batchGroupCount else groups,
    if 1 < op.featureGroupCount then groups else op.batchSize lhs / op.batchGroupCount,
    op.inputFeatures rhs]

/-- The kernel with a dimension of groups. -/
def groupedRhs (op : ConvolutionOp) (groups : Nat) (rhs : Tensor α) : Tensor α :=
  (kernelRows op rhs).reshape [groups, op.outputFeatures rhs / groups, op.inputFeatures rhs]

namespace Flat

variable (flat : Flat op lhs rhs)
include flat

theorem inputDims : op.dimensionNumbers.inputDims = [0, 1] := by
  rw [ConvDimensionNumbers.inputDims, flat.spatial, flat.batch, flat.feature]

theorem rank : lhs.shape.length = 2 := by
  have length := flat.valid.input.length_eq
  rw [flat.inputDims, List.length_range] at length
  exact length.symm

theorem spatialRank : op.spatialRank = 0 := congrArg List.length flat.spatial

/-- The input's shape: its batch, and its features group by group. -/
theorem lhsShape :
    lhs.shape = [op.batchSize lhs, op.featureGroupCount * op.inputFeatures rhs] := by
  have features := flat.valid.features
  obtain ⟨batch, feature, isShape⟩ := List.length_eq_two.mp flat.rank
  rw [ConvolutionOp.inputSizes, flat.inputDims, isShape] at features
  rw [ConvolutionOp.batchSize, ConvolutionOp.inputSizes, flat.inputDims, ← features, isShape]
  rfl

theorem kernelDims : op.dimensionNumbers.kernelDims = [0, 1] ∨
    op.dimensionNumbers.kernelDims = [1, 0] := by
  have perm := flat.valid.kernel
  rw [flat.valid.rank, flat.rank] at perm
  exact perm_pair perm

theorem outputDims : op.dimensionNumbers.outputDims = [0, 1] ∨
    op.dimensionNumbers.outputDims = [1, 0] := by
  have perm := flat.valid.output
  rw [flat.rank] at perm
  exact perm_pair perm

theorem outputSizes : op.outputSizes lhs rhs =
    [op.batchSize lhs / op.batchGroupCount, op.outputFeatures rhs] := by
  rw [ConvolutionOp.outputSizes, flat.spatialRank]
  rfl

/-- The kernel with the output features first, as both paths read it. -/
theorem kernel_rows :
    (kernelRows op rhs).shape = [op.outputFeatures rhs, op.inputFeatures rhs] ∧
      ∀ feature i : Nat, (kernelRows op rhs).data [feature, i] =
        rhs.data (placed op.dimensionNumbers.kernelDims [i, feature]) := by
  unfold kernelRows
  obtain ⟨first, second, isShape⟩ := List.length_eq_two.mp (flat.valid.rank.trans flat.rank)
  unfold ConvolutionOp.outputFeatures ConvolutionOp.inputFeatures ConvolutionOp.kernelSizes
  rcases flat.kernelDims with dims | dims
  · have output : op.dimensionNumbers.kernelOutputFeatureDimension = 1 :=
      (List.cons.inj (List.cons.inj dims).2).1
    rw [output, if_pos (by decide), dims, Tensor.permute, isShape]
    exact ⟨rfl, fun _ _ => rfl⟩
  · have output : op.dimensionNumbers.kernelOutputFeatureDimension = 0 :=
      (List.cons.inj (List.cons.inj dims).2).1
    rw [output, if_neg (by decide), dims, isShape]
    exact ⟨rfl, fun _ _ => rfl⟩

/-- The input's batch and feature that go into an element of the result. -/
theorem source_lt {batch feature i : Nat} (isBatch : batch < op.batchSize lhs / op.batchGroupCount)
    (isFeature : feature < op.outputFeatures rhs) (isInput : i < op.inputFeatures rhs) :
    op.sourceBatch lhs rhs batch feature < op.batchSize lhs ∧
      op.firstFeature rhs feature + i < op.featureGroupCount * op.inputFeatures rhs := by
  have group {count : Nat} (divides : count ∣ op.outputFeatures rhs) :
      feature / (op.outputFeatures rhs / count) + 1 ≤ count := by
    apply Nat.div_lt_of_lt_mul
    rwa [Nat.div_mul_cancel divides]
  constructor
  · have isGroup := Nat.mul_le_mul_right (op.batchSize lhs / op.batchGroupCount)
      (group flat.valid.featuresByBatch)
    rw [Nat.mul_div_cancel' flat.valid.batches, Nat.add_one_mul] at isGroup
    unfold ConvolutionOp.sourceBatch
    omega
  · have isGroup := Nat.mul_le_mul_right (op.inputFeatures rhs)
      (group flat.valid.featuresByGroup)
    rw [Nat.add_one_mul] at isGroup
    unfold ConvolutionOp.firstFeature
    omega

end Flat

variable [NonUnitalNonAssocSemiring α]

/-- The dot product of the features that go into an element of the result. -/
def featureDot (op : ConvolutionOp) (lhs rhs : Tensor α) (batch feature : Nat) : α :=
  ((List.range (op.inputFeatures rhs)).map fun i =>
    lhs.data [op.sourceBatch lhs rhs batch feature, op.firstFeature rhs feature + i] *
      rhs.data (placed op.dimensionNumbers.kernelDims [i, feature])).sum

namespace Flat

variable (flat : Flat op lhs rhs) {batch feature : Nat}
  (isBatch : batch < op.batchSize lhs / op.batchGroupCount)
  (isFeature : feature < op.outputFeatures rhs)
include flat isBatch isFeature

/-- The convolution's element is the dot product. -/
theorem element_eq : op.element lhs rhs batch feature [] = featureDot op lhs rhs batch feature := by
  have noOffsets : op.offsets rhs = [[]] := by
    rw [ConvolutionOp.offsets, flat.spatialRank]
    rfl
  rw [ConvolutionOp.element, noOffsets, List.map_singleton, List.sum_singleton, featureDot]
  apply congrArg List.sum
  apply List.map_congr_left
  intro i member
  have bounds := flat.source_lt isBatch isFeature (List.mem_range.mp member)
  have found : op.inputAt lhs (op.sourceBatch lhs rhs batch feature)
      (op.firstFeature rhs feature + i) [] =
        lhs.data [op.sourceBatch lhs rhs batch feature, op.firstFeature rhs feature + i] := by
    rw [ConvolutionOp.inputAt, flat.inputDims, Tensor.at?, flat.lhsShape, if_pos]
    · rfl
    · intro dim less
      rcases dim with _ | _ | dim
      · exact ⟨Int.natCast_nonneg _, Int.ofNat_lt.mpr bounds.1⟩
      · exact ⟨Int.natCast_nonneg _, Int.ofNat_lt.mpr bounds.2⟩
      · simp at less
  rw [ConvolutionOp.kernelOffset, flat.spatialRank]
  exact congrArg (· * _) found

omit isBatch isFeature in
theorem ungrouped_shape (single : op.batchGroupCount = 1) : (ungrouped op lhs rhs).shape =
    [op.batchSize lhs / op.batchGroupCount, op.outputFeatures rhs] := by
  obtain ⟨first, second, isShape⟩ := List.length_eq_two.mp (flat.valid.rank.trans flat.rank)
  have isLhs := flat.lhsShape
  rw [single, Nat.div_one]
  rcases flat.kernelDims with dims | dims
  all_goals
    have input := (List.cons.inj dims).1
    simp only [ungrouped, DotGeneralOp.eval, DotGeneralOp.resultShape, input, isLhs, isShape,
      ConvolutionOp.outputFeatures, ConvolutionOp.kernelSizes, dims]
    rfl

omit isBatch in
theorem ungrouped_data (single : op.batchGroupCount = 1) (alone : op.featureGroupCount = 1) :
    (ungrouped op lhs rhs).data [batch, feature] = featureDot op lhs rhs batch feature := by
  obtain ⟨first, second, isShape⟩ := List.length_eq_two.mp (flat.valid.rank.trans flat.rank)
  have isLhs := flat.lhsShape
  have source : op.sourceBatch lhs rhs batch feature = batch := by
    rw [ConvolutionOp.sourceBatch, single, Nat.div_one, Nat.div_eq_of_lt isFeature, Nat.zero_mul,
      Nat.zero_add]
  have features : op.firstFeature rhs feature = 0 := by
    rw [ConvolutionOp.firstFeature, alone, Nat.div_one, Nat.div_eq_of_lt isFeature, Nat.zero_mul]
  have contracted : indices [op.featureGroupCount * op.inputFeatures rhs] =
      (List.range (op.inputFeatures rhs)).map fun i => [i] := by
    rw [alone, Nat.one_mul, indices, List.map_eq_flatMap]
    rfl
  rw [featureDot, source, features]
  rcases flat.kernelDims with dims | dims
  all_goals
    have input := (List.cons.inj dims).1
    have data : (ungrouped op lhs rhs).data ([] ++ [batch] ++ [feature]) =
        DotGeneralOp.contraction
          ⟨[], [], [1], [op.dimensionNumbers.kernelInputFeatureDimension]⟩ lhs rhs [] [batch]
          [feature] :=
      DotGeneralOp.eval_data _ lhs rhs rfl (by rw [flat.rank]; rfl)
    rw [List.nil_append, List.singleton_append] at data
    rw [data, DotGeneralOp.contraction, isLhs]
    change ((indices [op.featureGroupCount * op.inputFeatures rhs]).map _).sum = _
    rw [contracted, List.map_map, input, dims]
    apply congrArg List.sum
    apply List.map_congr_left
    intro i _
    simp only [Function.comp_apply, DotGeneralOp.dimsRhs, DotGeneralOp.freeDimsRhs, isShape,
      Nat.zero_add]
    rfl

omit [NonUnitalNonAssocSemiring α] in
/-- The input of the dot products, by groups. -/
theorem grouped_lhs {groups i : Nat}
    (isGroups : groups = max op.batchGroupCount op.featureGroupCount)
    (several : 1 < groups) (isInput : i < op.inputFeatures rhs) :
    (groupedLhs op groups lhs rhs).data
        (if 1 < op.featureGroupCount then [batch, feature / (op.outputFeatures rhs / groups), i]
        else [feature / (op.outputFeatures rhs / groups), batch, i]) =
      lhs.data [op.sourceBatch lhs rhs batch feature, op.firstFeature rhs feature + i] := by
  have bounds := flat.source_lt isBatch isFeature isInput
  have isOrigin : Within [op.sourceBatch lhs rhs batch feature, op.firstFeature rhs feature + i]
      lhs.shape := by
    rw [flat.lhsShape]
    exact within_pair.mpr ⟨_, _, rfl, bounds.1, bounds.2⟩
  have group {count : Nat} (divides : count ∣ op.outputFeatures rhs) :
      feature / (op.outputFeatures rhs / count) < count := by
    apply Nat.div_lt_of_lt_mul
    rwa [Nat.div_mul_cancel divides]
  unfold groupedLhs
  by_cases featureGrouped : 1 < op.featureGroupCount
  · have single : op.batchGroupCount = 1 := by
      rcases flat.valid.alone with one | one
      · omega
      · exact one
    have isMax : groups = op.featureGroupCount := by omega
    have source : op.sourceBatch lhs rhs batch feature = batch := by
      rw [ConvolutionOp.sourceBatch, single, Nat.div_one, Nat.div_eq_of_lt isFeature,
        Nat.zero_mul, Nat.zero_add]
    rw [if_pos featureGrouped, if_pos featureGrouped, if_pos featureGrouped, isMax]
    apply reshape_data_of_position
    · exact within_triple isBatch (group flat.valid.featuresByGroup) isInput
    · exact isOrigin
    · rw [flat.lhsShape]
      simp [single]
    · rw [flat.lhsShape, source]
      simp only [position, ConvolutionOp.firstFeature, List.prod_cons, List.prod_nil]
      ring
  · have alone : op.featureGroupCount = 1 := by
      have positive := flat.valid.featureGroups
      omega
    have isMax : groups = op.batchGroupCount := by omega
    have features : op.firstFeature rhs feature = 0 := by
      rw [ConvolutionOp.firstFeature, alone, Nat.div_one, Nat.div_eq_of_lt isFeature, Nat.zero_mul]
    rw [if_neg featureGrouped, if_neg featureGrouped, if_neg featureGrouped, isMax]
    apply reshape_data_of_position
    · exact within_triple (group flat.valid.featuresByBatch) isBatch isInput
    · exact isOrigin
    · rw [flat.lhsShape, alone]
      simp only [List.prod_cons, List.prod_nil, Nat.mul_one, Nat.one_mul, ← Nat.mul_assoc,
        Nat.mul_div_cancel' flat.valid.batches]
    · rw [flat.lhsShape, features, alone]
      simp only [position, ConvolutionOp.sourceBatch, List.prod_cons, List.prod_nil]
      ring

omit isBatch [NonUnitalNonAssocSemiring α] in
/-- The kernel of the dot products, by groups. -/
theorem grouped_rhs {groups i : Nat} (divides : groups ∣ op.outputFeatures rhs)
    (isInput : i < op.inputFeatures rhs) :
    (groupedRhs op groups rhs).data
        [feature / (op.outputFeatures rhs / groups), feature % (op.outputFeatures rhs / groups), i] =
      rhs.data (placed op.dimensionNumbers.kernelDims [i, feature]) := by
  have rows := flat.kernel_rows
  have whole : groups * (op.outputFeatures rhs / groups) = op.outputFeatures rhs :=
    Nat.mul_div_cancel' divides
  have positive : 0 < op.outputFeatures rhs / groups := by
    apply Nat.pos_of_ne_zero
    intro zero
    rw [zero] at whole
    omega
  rw [← rows.2]
  apply reshape_data_of_position
  · apply within_triple _ (Nat.mod_lt _ positive) isInput
    apply Nat.div_lt_of_lt_mul
    rwa [Nat.mul_comm, whole]
  · rw [rows.1]
    exact within_pair.mpr ⟨_, _, rfl, isFeature, isInput⟩
  · rw [rows.1]
    simp only [List.prod_cons, List.prod_nil, Nat.mul_one, ← Nat.mul_assoc, whole]
  · rw [rows.1]
    simp only [position, List.prod_cons, List.prod_nil, Nat.mul_one, Nat.add_zero, ← Nat.mul_assoc]
    rw [← Nat.add_assoc, ← Nat.add_mul, Nat.div_add_mod']

omit flat isBatch isFeature in
/-- The dot products of the groups. -/
theorem eval_groups {groups batches outputs inputs : Nat} {featureGrouped : Prop}
    [Decidable featureGrouped] (left right : Tensor α)
    (isLeft : left.shape = [if featureGrouped then batches else groups,
      if featureGrouped then groups else batches, inputs])
    (isRight : right.shape = [groups, outputs, inputs]) :
    (DotGeneralOp.eval ⟨[if featureGrouped then 1 else 0], [0], [2], [2]⟩ left right).shape =
        [groups, batches, outputs] ∧
      ∀ group batch output : Nat,
        (DotGeneralOp.eval ⟨[if featureGrouped then 1 else 0], [0], [2], [2]⟩ left right).data
            [group, batch, output] =
          ((List.range inputs).map fun i =>
            left.data (if featureGrouped then [batch, group, i] else [group, batch, i]) *
              right.data [group, output, i]).sum := by
  have contracted : indices [inputs] = (List.range inputs).map fun i => [i] := by
    rw [indices, List.map_eq_flatMap]
    rfl
  constructor
  · simp only [DotGeneralOp.eval, DotGeneralOp.resultShape, isLeft, isRight]
    split <;> rfl
  · intro group batch output
    have data : (DotGeneralOp.eval ⟨[if featureGrouped then 1 else 0], [0], [2], [2]⟩ left right).data
        ([group] ++ [batch] ++ [output]) =
          DotGeneralOp.contraction ⟨[if featureGrouped then 1 else 0], [0], [2], [2]⟩ left right
            [group] [batch] [output] :=
      DotGeneralOp.eval_data _ left right rfl (by
        rw [DotGeneralOp.freeDimsLhs, isLeft]
        split <;> rfl)
    rw [List.singleton_append, List.cons_append, List.singleton_append] at data
    rw [data, DotGeneralOp.contraction, isLeft]
    change ((indices [inputs]).map _).sum = _
    rw [contracted, List.map_map]
    apply congrArg List.sum
    apply List.map_congr_left
    intro i _
    simp only [Function.comp_apply, DotGeneralOp.dimsLhs, DotGeneralOp.dimsRhs,
      DotGeneralOp.freeDimsLhs, DotGeneralOp.freeDimsRhs, isRight]
    split <;> rfl

omit isBatch isFeature in
theorem grouped_eq (groups : Nat) : grouped op (op.outputSizes lhs rhs) groups lhs rhs =
    ((DotGeneralOp.eval ⟨[if 1 < op.featureGroupCount then 1 else 0], [0], [2], [2]⟩
      (groupedLhs op groups lhs rhs) (groupedRhs op groups rhs)).permute [1, 0, 2]).reshape
        (op.outputSizes lhs rhs) := by
  have inputs : (kernelRows op rhs).shape.getD 1 0 = op.inputFeatures rhs := by
    rw [flat.kernel_rows.1]
    rfl
  unfold groupedLhs groupedRhs
  rw [← inputs, flat.outputSizes]
  unfold grouped kernelRows
  simp only [List.getD_cons_zero, List.getD_cons_succ, decide_eq_true_eq]

theorem grouped_data (several : 1 < max op.batchGroupCount op.featureGroupCount) :
    (grouped op (op.outputSizes lhs rhs) (max op.batchGroupCount op.featureGroupCount) lhs
      rhs).data [batch, feature] = featureDot op lhs rhs batch feature := by
  set groups := max op.batchGroupCount op.featureGroupCount with isGroups
  have divides : groups ∣ op.outputFeatures rhs := by
    rcases Nat.le_total op.batchGroupCount op.featureGroupCount with order | order
    · rw [isGroups, Nat.max_eq_right order]
      exact flat.valid.featuresByGroup
    · rw [isGroups, Nat.max_eq_left order]
      exact flat.valid.featuresByBatch
  have whole : groups * (op.outputFeatures rhs / groups) = op.outputFeatures rhs :=
    Nat.mul_div_cancel' divides
  have positive : 0 < op.outputFeatures rhs / groups := by
    apply Nat.pos_of_ne_zero
    intro zero
    rw [zero] at whole
    omega
  have isGroup : feature / (op.outputFeatures rhs / groups) < groups := by
    apply Nat.div_lt_of_lt_mul
    rwa [Nat.mul_comm, whole]
  have isOutput := Nat.mod_lt feature positive
  have dots := eval_groups (groupedLhs op groups lhs rhs) (groupedRhs op groups rhs) rfl rfl
  rw [flat.grouped_eq, flat.outputSizes]
  set result := DotGeneralOp.eval ⟨[if 1 < op.featureGroupCount then 1 else 0], [0], [2], [2]⟩
    (groupedLhs op groups lhs rhs) (groupedRhs op groups rhs)
  have permuted : (result.permute [1, 0, 2]).shape =
      [op.batchSize lhs / op.batchGroupCount, groups, op.outputFeatures rhs / groups] := by
    rw [Tensor.permute, dots.1]
    rfl
  have reshaped : ((result.permute [1, 0, 2]).reshape
      [op.batchSize lhs / op.batchGroupCount, op.outputFeatures rhs]).data [batch, feature] =
        (result.permute [1, 0, 2]).data [batch, feature / (op.outputFeatures rhs / groups),
          feature % (op.outputFeatures rhs / groups)] := by
    apply reshape_data_of_position
    · exact within_pair.mpr ⟨_, _, rfl, isBatch, isFeature⟩
    · rw [permuted]
      exact within_triple isBatch isGroup isOutput
    · rw [permuted]
      simp only [List.prod_cons, List.prod_nil, Nat.mul_one, whole]
    · rw [permuted]
      simp only [position, List.prod_cons, List.prod_nil, Nat.mul_one, Nat.add_zero, whole]
      rw [Nat.div_add_mod']
  rw [reshaped]
  change result.data [feature / (op.outputFeatures rhs / groups), batch,
    feature % (op.outputFeatures rhs / groups)] = _
  rw [dots.2, featureDot]
  apply congrArg List.sum
  apply List.map_congr_left
  intro i member
  have isInput := List.mem_range.mp member
  have kernel := flat.grouped_rhs isFeature divides isInput
  rw [kernel, flat.grouped_lhs isBatch isFeature isGroups several isInput]

/-- The dot products, before the result's dimensions are in their order. -/
def dots (op : ConvolutionOp) (lhs rhs : Tensor α) : Tensor α :=
  if max op.batchGroupCount op.featureGroupCount = 1 then ungrouped op lhs rhs
  else grouped op (op.outputSizes lhs rhs) (max op.batchGroupCount op.featureGroupCount) lhs rhs

omit isBatch isFeature in
theorem dots_shape : (dots op lhs rhs).shape =
    [op.batchSize lhs / op.batchGroupCount, op.outputFeatures rhs] := by
  unfold dots
  split
  · rename_i single
    have positive := flat.valid.batchGroups
    exact flat.ungrouped_shape (by omega)
  · rw [flat.grouped_eq, reshape_shape, flat.outputSizes]

theorem dots_data :
    (dots op lhs rhs).data [batch, feature] = featureDot op lhs rhs batch feature := by
  have batches := flat.valid.batchGroups
  have features := flat.valid.featureGroups
  unfold dots
  split
  · exact flat.ungrouped_data isFeature (by omega) (by omega)
  · exact flat.grouped_data isBatch isFeature (by omega)

end Flat

/-- What the pattern returns. -/
theorem lowered_eq {isSupportedConv : Bool} {result : Tensor α} (valid : op.Valid lhs rhs)
    (lowered : convolution0DToDotGeneral isSupportedConv op lhs rhs = some result) :
    Flat op lhs rhs ∧ result = if op.dimensionNumbers.outputBatchDimension ≠ 0
      then (Flat.dots op lhs rhs).permute [1, 0] else Flat.dots op lhs rhs := by
  unfold convolution0DToDotGeneral at lowered
  split at lowered
  · cases lowered
  · rename_i supported
    dsimp only at lowered
    split at lowered
    · cases lowered
    · rename_i dims
      simp only [Bool.or_eq_true, Bool.not_eq_true', bne_iff_ne, not_or, not_not] at supported
      simp only [not_or, not_not] at dims
      have flat : Flat op lhs rhs :=
        ⟨valid, List.length_eq_zero_iff.mp supported.2, dims.1, dims.2.1⟩
      have sizes : [(op.eval lhs rhs).shape.getD op.dimensionNumbers.outputBatchDimension 0,
          (op.eval lhs rhs).shape.getD op.dimensionNumbers.outputFeatureDimension 0] =
            op.outputSizes lhs rhs := by
        have length : (op.outputSizes lhs rhs).length = lhs.shape.length := by
          rw [flat.outputSizes, flat.rank]
          rfl
        have whole := apply_placed valid.output length
        have spatial : op.dimensionNumbers.outputSpatialDimensions = [] := by
          have length := valid.output.length_eq
          rw [flat.rank, ConvDimensionNumbers.outputDims, List.length_range, List.length_cons,
            List.length_cons] at length
          exact List.length_eq_zero_iff.mp (by omega)
        conv_rhs => rw [← whole]
        rw [ConvolutionOp.eval, ConvDimensionNumbers.outputDims, spatial]
        rfl
      rw [sizes] at lowered
      exact ⟨flat, (Option.some.inj lowered).symm⟩

/-- A convolution without spatial dimensions that the pattern takes has for each element the dot
product of the features of its group. -/
theorem convolution_dot (isSupportedConv : Bool) (op : ConvolutionOp) (lhs rhs result : Tensor α)
    (valid : op.Valid lhs rhs)
    (lowered : convolution0DToDotGeneral isSupportedConv op lhs rhs = some result) :
    result.Same (op.eval lhs rhs) ∧
      ∀ batch < op.batchSize lhs / op.batchGroupCount, ∀ feature < op.outputFeatures rhs,
        result.data (placed op.dimensionNumbers.outputDims [batch, feature]) =
          featureDot op lhs rhs batch feature := by
  obtain ⟨flat, rfl⟩ := lowered_eq valid lowered
  have isShape : (if op.dimensionNumbers.outputBatchDimension ≠ 0
      then (Flat.dots op lhs rhs).permute [1, 0] else Flat.dots op lhs rhs).shape =
        placed op.dimensionNumbers.outputDims (op.outputSizes lhs rhs) := by
    rcases flat.outputDims with dims | dims
    · rw [(List.cons.inj dims).1, if_neg (by decide), dims, flat.dots_shape]
      rfl
    · rw [(List.cons.inj dims).1, if_pos (by decide), dims, Tensor.permute, flat.dots_shape]
      rfl
  have elements {batch feature : Nat} (isBatch : batch < op.batchSize lhs / op.batchGroupCount)
      (isFeature : feature < op.outputFeatures rhs) :
      (if op.dimensionNumbers.outputBatchDimension ≠ 0
        then (Flat.dots op lhs rhs).permute [1, 0] else Flat.dots op lhs rhs).data
          (placed op.dimensionNumbers.outputDims [batch, feature]) =
        featureDot op lhs rhs batch feature := by
    rw [← flat.dots_data isBatch isFeature]
    rcases flat.outputDims with dims | dims
    · rw [(List.cons.inj dims).1, if_neg (by decide), dims]
      rfl
    · rw [(List.cons.inj dims).1, if_pos (by decide), dims]
      rfl
  constructor
  · constructor
    · exact isShape
    · intro index inside
      rw [isShape] at inside
      have rank := flat.rank
      have isRank : index.length = 2 := by
        rw [inside.length, length_placed, valid.output.length_eq, List.length_range, rank]
      have output : op.dimensionNumbers.outputDims.Perm (List.range index.length) := by
        rw [isRank, ← rank]
        exact valid.output
      have coordinates : Within (applyPermutation index op.dimensionNumbers.outputDims)
          (applyPermutation (placed op.dimensionNumbers.outputDims (op.outputSizes lhs rhs))
            op.dimensionNumbers.outputDims) :=
        within_applyPermutation inside fun d member => by
          rw [length_placed, valid.output.length_eq, List.length_range]
          exact List.mem_range.mp (valid.output.mem_iff.mp member)
      rw [apply_placed valid.output (by rw [flat.outputSizes, rank]; rfl), flat.outputSizes]
        at coordinates
      obtain ⟨batch, feature, same, isBatch, isFeature⟩ := within_pair.mp coordinates
      have isIndex : index = placed op.dimensionNumbers.outputDims [batch, feature] := by
        rw [← same, placed_apply output]
      conv_lhs => rw [isIndex]
      rw [elements isBatch isFeature, ← flat.element_eq isBatch isFeature]
      simp only [ConvolutionOp.eval, same]
      rfl
  · exact fun batch isBatch feature isFeature => elements isBatch isFeature

/-- Two groups of two input features, the kernel with the input features first. -/
def twoGroups : ConvolutionOp where
  dimensionNumbers := ⟨0, 1, [], 0, 1, [], 1, 0, []⟩
  windowStrides := []
  padding := []
  lhsDilation := []
  rhsDilation := []
  windowReversal := []
  featureGroupCount := 2
  batchGroupCount := 1

/-- Three rows of four features, to six features. -/
theorem convolution_dot_twoGroups :
    (Tensor.permute (grouped twoGroups [3, 6] 2 ⟨[3, 4], position [3, 4]⟩
      ⟨[2, 6], position [2, 6]⟩) [1, 0]).Same
        (twoGroups.eval ⟨[3, 4], position [3, 4]⟩ ⟨[2, 6], position [2, 6]⟩) := by
  have valid : twoGroups.Valid (⟨[3, 4], position [3, 4]⟩ : Tensor Nat) ⟨[2, 6], position [2, 6]⟩ :=
    ⟨by decide, by decide, by decide, rfl, by decide, by decide, by decide, by decide, by decide,
      by decide, by decide, by decide, by decide, by decide, by decide⟩
  exact (convolution_dot true twoGroups _ _ _ valid rfl).1

end Libtt.Convolutions

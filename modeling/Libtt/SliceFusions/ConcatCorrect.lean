import Libtt.SliceFusions.Meaning

/-!
# A concatenation of adjacent slices

The loop over the concatenated slices keeps a slice that takes what they have taken so far.
-/
namespace Libtt.SliceFusions

open Libtt.StableHlo

variable {ε α : Type}

namespace Graph

variable {graph : Graph ε} {value : Nat}

/-- Some tensors one behind the other are what a slice of the source takes. -/
structure Covers (graph : Graph ε) (values : Nat → Tensor α) [Inhabited α] (dim : Nat)
    (accumulated : Accumulated) (element : ε) (shape : List Nat)
    (operands : List (Tensor α)) : Prop where
  element : (graph.type accumulated.source).element = element
  valid : VerifySlice (graph.type accumulated.source).shape accumulated.begins accumulated.ends
    (List.replicate shape.length 1) shape
  size : shape.getD dim 0 = (operands.map fun operand => operand.shape.getD dim 0).sum
  data {index : List Nat} : Within index shape → concatData dim operands index =
    (values accumulated.source).data (sliceIndex (graph.type accumulated.source).shape
      accumulated.begins (List.replicate shape.length 1) index)

theorem concatData_append [Inhabited α] {dim : Nat} (first : List (Tensor α)) (last : Tensor α)
    {index : List Nat} (inside : dim < index.length) :
    concatData dim (first ++ [last]) index =
      if index.getD dim 0 < (first.map fun operand => operand.shape.getD dim 0).sum then
        concatData dim first index
      else concatData dim [last] (index.set dim
        (index.getD dim 0 - (first.map fun operand => operand.shape.getD dim 0).sum)) := by
  induction first generalizing index with
  | nil => simp [concatData, inside]
  | cons operand first ih =>
    rw [List.cons_append, concatData, concatData, ih (by simpa using inside), List.map_cons,
      List.sum_cons, List.set_set, getD_set inside, if_pos rfl]
    split
    · rw [if_pos (by omega)]
    · split
      · rw [if_pos (by omega)]
      · rw [if_neg (by omega), Nat.sub_sub]

/-- One more slice that continues the accumulated ones. -/
theorem Covers.append [Inhabited α] {values : Nat → Tensor α} {dim : Nat} {element : ε}
    {accumulated : Accumulated} {shape next : List Nat} {operands : List (Tensor α)}
    {begins ends : List Int32}
    (covers : graph.Covers values dim accumulated element shape operands)
    (typed : graph.Typed values) (inside : dim < shape.length)
    (same : (List.range shape.length).all (continues dim accumulated begins ends) = true)
    (valid : VerifySlice (graph.type accumulated.source).shape begins ends
      (List.replicate shape.length 1) next) :
    graph.Covers values dim
      { accumulated with ends := accumulated.ends.set dim (ends.getD dim 0) } element
      (shape.set dim (shape.getD dim 0 + next.getD dim 0))
      (operands ++ [sliceStatic (values accumulated.source) begins
        (List.replicate shape.length 1) next]) := by
  obtain ⟨element, before, size, data⟩ := covers
  obtain ⟨beginsLength, endsLength, -, shapeLength, fits⟩ := before
  obtain ⟨nextBegins, nextEnds, -, nextLength, nextFits⟩ := valid
  have insideSource : dim < (graph.type accumulated.source).shape.length := shapeLength ▸ inside
  have meets : begins.getD dim 0 = accumulated.ends.getD dim 0 := by
    have along := List.all_eq_true.mp same dim (List.mem_range.mpr inside)
    simpa [continues] using along
  have alike (d : Nat) (less : d < shape.length) (other : d ≠ dim) :
      begins.getD d 0 = accumulated.begins.getD d 0 ∧
        ends.getD d 0 = accumulated.ends.getD d 0 := by
    have across := List.all_eq_true.mp same d (List.mem_range.mpr less)
    simpa [continues, other] using across
  have first := sliceFits_one.mp (getD_ones inside ▸ fits dim insideSource)
  have second := sliceFits_one.mp (getD_ones inside ▸ nextFits dim insideSource)
  rw [meets] at second
  refine ⟨element, ⟨beginsLength, by simpa using endsLength, by simpa using shapeLength,
    by simpa using shapeLength, fun d less => ?_⟩, ?_, fun {index} within => ?_⟩
  · rw [List.length_set, getD_ones (shapeLength ▸ less), getD_set (endsLength ▸ insideSource),
      getD_set inside]
    by_cases along : d = dim
    · subst along
      rw [if_pos rfl, if_pos rfl, sliceFits_one]
      dsimp only
      omega
    · rw [if_neg along, if_neg along]
      exact getD_ones (shapeLength ▸ less) ▸ fits d less
  · rw [getD_set inside, if_pos rfl, List.map_append, List.sum_append, ← size]
    simp [sliceStatic]
  · obtain ⟨indexLength, below⟩ := within_iff_getD.mp within
    rw [List.length_set] at indexLength below ⊢
    have insideIndex : dim < index.length := indexLength ▸ inside
    rw [concatData_append _ _ insideIndex, ← size]
    split
    · rename_i before
      refine data (within_iff_getD.mpr ⟨indexLength, fun d less => ?_⟩)
      by_cases along : d = dim
      · exact along ▸ before
      · have other := below d less
        rwa [getD_set inside, if_neg along] at other
    · rename_i behind
      have within := below dim inside
      rw [getD_set inside, if_pos rfl] at within
      rw [concatData, getD_set insideIndex, if_pos rfl, if_pos (by simp only [sliceStatic]; omega)]
      simp only [sliceStatic, typed accumulated.source]
      congr 1
      refine ext_getD 0 (length_sliceIndex ..) (length_sliceIndex ..) fun d less => ?_
      rw [getD_sliceIndex less, getD_sliceIndex less, getD_ones (shapeLength ▸ less),
        getD_set insideIndex, toInt_one]
      by_cases along : d = dim
      · subst along
        rw [if_pos rfl, meets]
        omega
      · rw [if_neg along, (alike d (shapeLength ▸ less) along).1]

/-- A value that a slice by ones defines. -/
theorem Defined.slice [Inhabited α] {conversions : Conversions ε α} {values : Nat → Tensor α}
    {source rank : Nat} {begins ends step : List Int32} {element : ε}
    (defined : graph.Defined conversions values value)
    (isSlice : graph.sliceOp value = some (source, begins, ends, step))
    (ones : step.all (· == 1) = true)
    (type : (graph.type value).shape.length = rank ∧ (graph.type value).element = element) :
    values value =
        sliceStatic (values source) begins (List.replicate rank 1) (graph.type value).shape ∧
      (graph.type source).element = element ∧
      VerifySlice (graph.type source).shape begins ends (List.replicate rank 1)
        (graph.type value).shape := by
  have isOp := sliceOp_eq_some.mp isSlice
  obtain ⟨sameElement, valid⟩ := graph.verified value _ isOp
  have isOnes : step = List.replicate rank 1 := by
    refine List.eq_replicate_iff.mpr ⟨?_, fun one member => ?_⟩
    · rw [valid.2.2.1, ← valid.2.2.2.1, type.1]
    · simpa using List.all_eq_true.mp ones one member
  exact ⟨isOnes ▸ defined.eq isOp, sameElement.trans type.2, isOnes ▸ valid⟩

/-- What the loop has accumulated covers the values it went over. -/
theorem accumulate_covers [Inhabited α] {conversions : Conversions ε α} {values : Nat → Tensor α}
    {element : ε} {rank dim : Nat} (typed : graph.Typed values) (inside : dim < rank)
    {inputs : List Nat} (defined : ∀ input ∈ inputs, graph.Defined conversions values input)
    (types : ∀ input ∈ inputs,
      (graph.type input).shape.length = rank ∧ (graph.type input).element = element)
    {accumulated result : Accumulated} {shape : List Nat} {operands : List (Tensor α)}
    (covers : graph.Covers values dim accumulated element shape operands)
    (length : shape.length = rank)
    (isResult : graph.accumulate rank dim inputs (some accumulated) = some (some result)) :
    ∃ shape', shape'.length = rank ∧
      (∀ d < rank, d ≠ dim → shape'.getD d 0 = shape.getD d 0) ∧
      graph.Covers values dim result element shape' (operands ++ inputs.map values) := by
  induction inputs generalizing accumulated shape operands with
  | nil =>
    obtain rfl := Option.some.inj (Option.some.inj isResult)
    exact ⟨shape, length, fun _ _ _ => rfl, by simpa using covers⟩
  | cons input inputs ih =>
    simp only [accumulate, Option.bind_eq_bind, Option.bind_eq_some_iff] at isResult
    obtain ⟨⟨source, begins, ends, step⟩, isSlice, _, ones, _, same, _, continued, isResult⟩ :=
      isResult
    obtain rfl := (Option.guard_eq_some' ()).mp same
    obtain ⟨isValue, -, valid⟩ := (defined input List.mem_cons_self).slice isSlice
      ((Option.guard_eq_some' ()).mp ones) (types input List.mem_cons_self)
    subst length
    have more := covers.append typed inside ((Option.guard_eq_some' ()).mp continued) valid
    rw [← isValue] at more
    obtain ⟨shape', length', others, whole⟩ := ih
      (fun other member => defined other (List.mem_cons_of_mem _ member))
      (fun other member => types other (List.mem_cons_of_mem _ member)) more
      (by rw [List.length_set]) isResult
    refine ⟨shape', length', fun d less other => ?_, by simpa using whole⟩
    rw [others d less other, getD_set inside, if_neg other]

/-- The slice that starts the accumulation. -/
theorem Covers.start [Inhabited α] {values : Nat → Tensor α} {source dim : Nat} {element : ε}
    {begins ends : List Int32} {shape : List Nat} (typed : graph.Typed values)
    (sameElement : (graph.type source).element = element) (inside : dim < shape.length)
    (valid : VerifySlice (graph.type source).shape begins ends (List.replicate shape.length 1)
      shape) :
    graph.Covers values dim { source, begins, ends } element shape
      [sliceStatic (values source) begins (List.replicate shape.length 1) shape] := by
  refine ⟨sameElement, valid, by simp [sliceStatic], fun {index} within => ?_⟩
  have below := (within_iff_getD.mp within).2 dim inside
  rw [concatData, if_pos (by exact below)]
  simp only [sliceStatic, typed source]

/-- The loop goes over slices only. -/
theorem accumulate_slices {rank : Nat} {dim : Int} {inputs : List Nat}
    {accumulated result : Option Accumulated}
    (isResult : graph.accumulate rank dim inputs accumulated = some result) :
    ∀ input ∈ inputs, ∃ slice, graph.sliceOp input = some slice := by
  induction inputs generalizing accumulated with
  | nil => exact fun _ member => nomatch member
  | cons input inputs ih =>
    simp only [accumulate, Option.bind_eq_bind, Option.bind_eq_some_iff] at isResult
    obtain ⟨slice, isSlice, _, -, isResult⟩ := isResult
    refine List.forall_mem_cons.mpr ⟨⟨slice, isSlice⟩, ?_⟩
    cases accumulated with
    | none => exact ih isResult
    | some accumulated =>
      simp only [Option.bind_eq_some_iff] at isResult
      obtain ⟨_, -, _, -, isResult⟩ := isResult
      exact ih isResult

/-- The whole loop covers the concatenation. -/
theorem concat_covers [Inhabited α] {conversions : Conversions ε α} {values : Nat → Tensor α}
    {inputs : List Nat} {opDim : Int32} {dim : Nat} {result : Accumulated}
    (isOp : graph.definingOp value = some (.concat inputs opDim))
    (isDim : concatDim (graph.type value).shape.length opDim = dim) (typed : graph.Typed values)
    (defined : ∀ input ∈ inputs, graph.Defined conversions values input)
    (isResult : graph.accumulate (graph.type value).shape.length dim inputs none =
      some (some result)) :
    graph.Covers values dim result (graph.type value).element (graph.type value).shape
      (inputs.map values) := by
  obtain ⟨elements, some, positive, inside, shapes, sum⟩ := graph.verified value _ isOp
  rw [isDim] at inside shapes sum
  rw [Int.toNat_natCast] at sum
  have less : dim < (graph.type value).shape.length := by exact_mod_cast inside
  have types (input : Nat) (member : input ∈ inputs) :
      (graph.type input).shape.length = (graph.type value).shape.length ∧
        (graph.type input).element = (graph.type value).element :=
    ⟨(shapes _ (List.mem_map_of_mem member)).1, elements input member⟩
  cases inputs with
  | nil => cases some
  | cons input inputs =>
    simp only [accumulate, Option.bind_eq_bind, Option.bind_eq_some_iff] at isResult
    obtain ⟨⟨source, begins, ends, step⟩, isSlice, _, ones, isResult⟩ := isResult
    have isType := types input List.mem_cons_self
    obtain ⟨isValue, isElement, valid⟩ := (defined input List.mem_cons_self).slice isSlice
      ((Option.guard_eq_some' ()).mp ones) isType
    rw [← isType.1] at valid isValue
    have start := Covers.start typed isElement (isType.1 ▸ less) valid
    rw [← isValue] at start
    obtain ⟨shape, length, others, whole⟩ := accumulate_covers typed less
      (fun other member => defined other (List.mem_cons_of_mem _ member))
      (fun other member => types other (List.mem_cons_of_mem _ member)) start isType.1 isResult
    have isShape : shape = (graph.type value).shape := by
      refine ext_getD 0 length rfl fun d below => ?_
      by_cases along : d = dim
      · rw [along, whole.size, sum]
        simp [Function.comp_def, typed _]
      · rw [others d below along]
        exact (shapes _ (List.mem_map_of_mem List.mem_cons_self)).2 d below
          (by exact_mod_cast along)
    exact isShape ▸ whole

/-- A concatenation of adjacent slices is one slice. -/
theorem concatOfAdjacentSlices_preserved {rewrite : Rewrite ε}
    (matched : graph.concatOfAdjacentSlices value = some rewrite) :
    graph.Preserved value rewrite := by
  unfold concatOfAdjacentSlices at matched
  split at matched
  · rename_i inputs opDim isOp
    obtain ⟨-, some, positive, -⟩ := graph.verified value _ isOp
    simp only [Option.bind_eq_bind, Option.bind_eq_some_iff] at matched
    obtain ⟨_, isAccumulated, result, rfl, matched⟩ := matched
    obtain rfl := Option.some.inj matched
    obtain ⟨dim, isDim⟩ := Int.eq_ofNat_of_zero_le positive
    rw [isDim] at isAccumulated
    refine ⟨?_, rfl, fun α _ conversions values typed defined =>
      ⟨(typed value).symm, fun index within => ?_⟩⟩
    · obtain ⟨conversions, values, typed, defined⟩ := exists_values graph
      have slices (input : Nat) (member : input ∈ inputs) :
          graph.Defined conversions values input := by
        obtain ⟨⟨source, begins, ends, step⟩, isSlice⟩ := accumulate_slices isAccumulated input member
        exact defined input _ (sliceOp_eq_some.mp isSlice) (List.cons_ne_nil _ _)
      have covers := concat_covers isOp isDim typed slices isAccumulated
      exact ⟨trivial, covers.element, covers.valid⟩
    · have covers := concat_covers isOp isDim typed
        (fun input member => defined input (List.mem_cons_of_mem _ member)) isAccumulated
      rw [(defined value List.mem_cons_self).eq isOp, Operation.eval, isDim, Int.toNat_natCast]
      refine Eq.trans ?_ (covers.data within).symm
      rw [Replacement.eval, sliceStatic, Replacement.eval, typed result.source]
  · cases matched

end Graph

end Libtt.SliceFusions

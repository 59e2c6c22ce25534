import Libtt.StableHlo.Coordinates
import Mathlib.Tactic.Linarith

/-!
# Fusions of slices

Three patterns of the TTIR fusing pass that leave one slice of what the matched operations cut. A
graph gives each value its type and the operation that defines it. Attributes of 32 bits stay so;
layouts are left out, since no pattern decides by them.
-/
namespace Libtt.SliceFusions

open Libtt.StableHlo

variable {ε α : Type}

/-- `RankedTensorType`. -/
structure TensorType (ε : Type) where
  shape : List Nat
  element : ε
  deriving DecidableEq

/-- The operations that the patterns look at, with values as inputs. -/
inductive Operation where
  | sliceStatic (input : Nat) (begins ends step : List Int32)
  | reshape (input : Nat)
  | typecast (input : Nat)
  | concat (inputs : List Nat) (dim : Int32)

def Operation.inputs : Operation → List Nat
  | .sliceStatic input _ _ _ => [input]
  | .reshape input => [input]
  | .typecast input => [input]
  | .concat inputs _ => inputs

/-- A bound of a slice. A negative one counts from the end. -/
def adjusted (size : Nat) (bound : Int32) : Int :=
  if bound.toInt < 0 then bound.toInt + size else bound.toInt

/-- How many coordinates a slice takes of a dimension. -/
def sliceSize (size : Nat) (start stop step : Int32) : Int :=
  -Int.fdiv (adjusted size start - adjusted size stop) step.toInt

/-- The slice of a dimension is a valid one. -/
def SliceFits (size : Nat) (start stop step : Int32) (result : Nat) : Prop :=
  0 ≤ adjusted size start ∧ adjusted size start < size ∧ 0 ≤ adjusted size stop ∧
    adjusted size stop ≤ size ∧ step.toInt ≠ 0 ∧
    (0 < step.toInt → adjusted size start ≤ adjusted size stop) ∧
    (step.toInt < 0 → adjusted size stop ≤ adjusted size start) ∧
    (result : Int) = sliceSize size start stop step

instance (size : Nat) (start stop step : Int32) (result : Nat) :
    Decidable (SliceFits size start stop step result) := inferInstanceAs (Decidable (_ ∧ _))

/-- The slice of a tensor is a valid one. -/
def VerifySlice (shape : List Nat) (begins ends step : List Int32) (result : List Nat) : Prop :=
  begins.length = shape.length ∧ ends.length = shape.length ∧ step.length = shape.length ∧
    result.length = shape.length ∧ ∀ d < shape.length,
      SliceFits (shape.getD d 0) (begins.getD d 0) (ends.getD d 0) (step.getD d 0) (result.getD d 0)

instance (shape : List Nat) (begins ends step : List Int32) (result : List Nat) :
    Decidable (VerifySlice shape begins ends step result) := inferInstanceAs (Decidable (_ ∧ _))

/-- Where an element of a slice comes from. -/
def sliceIndex (shape : List Nat) (begins step : List Int32) (index : List Nat) : List Nat :=
  (List.range shape.length).map fun d =>
    (adjusted (shape.getD d 0) (begins.getD d 0) + index.getD d 0 * (step.getD d 0).toInt).toNat

/-- An element of tensors one behind the other in a dimension. -/
def concatData [Inhabited α] (dim : Nat) : List (Tensor α) → List Nat → α
  | [], _ => default
  | operand :: operands, index =>
    if index.getD dim 0 < operand.shape.getD dim 0 then operand.data index
    else concatData dim operands (index.set dim (index.getD dim 0 - operand.shape.getD dim 0))

/-- A dimension, which may count from the end. -/
def concatDim (rank : Nat) (dim : Int32) : Int :=
  if dim.toInt < 0 then dim.toInt + rank else dim.toInt

/-- The concatenation is a valid one. -/
def VerifyConcat (shapes : List (List Nat)) (dim : Int) (result : List Nat) : Prop :=
  0 < shapes.length ∧ 0 ≤ dim ∧ dim < result.length ∧
    (∀ shape ∈ shapes, shape.length = result.length ∧
      ∀ d < result.length, (d : Int) ≠ dim → shape.getD d 0 = result.getD d 0) ∧
    result.getD dim.toNat 0 = (shapes.map fun shape => shape.getD dim.toNat 0).sum

instance (shapes : List (List Nat)) (dim : Int) (result : List Nat) :
    Decidable (VerifyConcat shapes dim result) := inferInstanceAs (Decidable (_ ∧ _))

/-- What a conversion between element types does to a value. -/
abbrev Conversions (ε α : Type) := ε → ε → α → α

/-- The operation is valid for the types of its inputs and its value. -/
def Operation.Verifies (type : Nat → TensorType ε) (value : Nat) : Operation → Prop
  | .sliceStatic input begins ends step => (type input).element = (type value).element ∧
      VerifySlice (type input).shape begins ends step (type value).shape
  | .reshape input => (type input).element = (type value).element ∧
      (type input).shape.prod = (type value).shape.prod
  | .typecast input => (type input).shape = (type value).shape
  | .concat inputs dim => (∀ input ∈ inputs, (type input).element = (type value).element) ∧
      VerifyConcat (inputs.map fun input => (type input).shape)
        (concatDim (type value).shape.length dim) (type value).shape

instance [DecidableEq ε] (type : Nat → TensorType ε) (value : Nat) (op : Operation) :
    Decidable (op.Verifies type value) :=
  match op with
  | .sliceStatic _ _ _ _ => inferInstanceAs (Decidable (_ ∧ _))
  | .reshape _ => inferInstanceAs (Decidable (_ ∧ _))
  | .typecast _ => inferInstanceAs (Decidable (_ = _))
  | .concat _ _ => inferInstanceAs (Decidable (_ ∧ _))

/-- A slice of a tensor. -/
def sliceStatic (operand : Tensor α) (begins step : List Int32) (shape : List Nat) :
    Tensor α where
  shape := shape
  data index := operand.data (sliceIndex operand.shape begins step index)

/-- The result of an operation on the values of its inputs. -/
def Operation.eval [Inhabited α] (type : Nat → TensorType ε) (conversions : Conversions ε α)
    (values : Nat → Tensor α) (value : Nat) : Operation → Tensor α
  | .sliceStatic input begins _ step =>
    SliceFusions.sliceStatic (values input) begins step (type value).shape
  | .reshape input => (values input).reshape (type value).shape
  | .typecast input => (values input).map (conversions (type input).element (type value).element)
  | .concat inputs dim =>
    { shape := (type value).shape
      data := concatData (concatDim (type value).shape.length dim).toNat (inputs.map values) }

/-- Values by their numbers, which follow the order of their operations. -/
structure Graph (ε : Type) where
  type : Nat → TensorType ε
  definingOp : Nat → Option Operation
  ordered : ∀ value op, definingOp value = some op → ∀ input ∈ op.inputs, input < value
  verified : ∀ value op, definingOp value = some op → op.Verifies type value

namespace Graph

variable (graph : Graph ε)

/-- Every value is of its type. -/
def Typed (values : Nat → Tensor α) : Prop :=
  ∀ value, (values value).shape = (graph.type value).shape

/-- A value is the result of the operation that defines it. -/
def Defined [Inhabited α] (conversions : Conversions ε α) (values : Nat → Tensor α)
    (value : Nat) : Prop :=
  ∃ op, graph.definingOp value = some op ∧
    values value = op.eval graph.type conversions values value

end Graph

/-- The operations that a pattern creates, over values of the graph. -/
inductive Replacement (ε : Type) where
  | existing (value : Nat)
  | sliceStatic (input : Replacement ε) (begins ends step : List Int32) (type : TensorType ε)
  | reshape (input : Replacement ε) (type : TensorType ε)
  | typecast (input : Replacement ε) (type : TensorType ε)

namespace Replacement

variable (graph : Graph ε)

def type : Replacement ε → TensorType ε
  | .existing value => graph.type value
  | .sliceStatic _ _ _ _ type => type
  | .reshape _ type => type
  | .typecast _ type => type

/-- The created operations are valid. -/
def Verifies : Replacement ε → Prop
  | .existing _ => True
  | .sliceStatic input begins ends step type => input.Verifies ∧
      (input.type graph).element = type.element ∧
        VerifySlice (input.type graph).shape begins ends step type.shape
  | .reshape input type => input.Verifies ∧ (input.type graph).element = type.element ∧
      (input.type graph).shape.prod = type.shape.prod
  | .typecast input type => input.Verifies ∧ (input.type graph).shape = type.shape

def eval (conversions : Conversions ε α) (values : Nat → Tensor α) : Replacement ε → Tensor α
  | .existing value => values value
  | .sliceStatic input begins _ step type =>
    SliceFusions.sliceStatic (input.eval conversions values) begins step type.shape
  | .reshape input type => (input.eval conversions values).reshape type.shape
  | .typecast input type =>
    (input.eval conversions values).map (conversions (input.type graph).element type.element)

end Replacement

/-- What a pattern makes of a value, and the values whose operations it matched. -/
structure Rewrite (ε : Type) where
  matched : List Nat
  replacement : Replacement ε

/-- The replacement is valid, of the same type, and equal for every input of what was matched. -/
def Graph.Preserved (graph : Graph ε) (value : Nat) (rewrite : Rewrite ε) : Prop :=
  rewrite.replacement.Verifies graph ∧ rewrite.replacement.type graph = graph.type value ∧
    ∀ (α : Type) [Inhabited α] (conversions : Conversions ε α) (values : Nat → Tensor α),
      graph.Typed values →
      (∀ matched ∈ rewrite.matched, graph.Defined conversions values matched) →
        (rewrite.replacement.eval graph conversions values).Same (values value)

namespace Graph

variable (graph : Graph ε)

/-- `getDefiningOp<SliceStaticOp>()`. -/
def sliceOp (value : Nat) : Option (Nat × List Int32 × List Int32 × List Int32) :=
  match graph.definingOp value with
  | some (.sliceStatic input begins ends step) => some (input, begins, ends, step)
  | _ => none

/-- `getDefiningOp<ReshapeOp>()`. -/
def reshapeOp (value : Nat) : Option Nat :=
  match graph.definingOp value with
  | some (.reshape input) => some input
  | _ => none

/-- `getDefiningOp<TypecastOp>()`. -/
def typecastOp (value : Nat) : Option Nat :=
  match graph.definingOp value with
  | some (.typecast input) => some input
  | _ => none

/-- `source`, `begins` and `ends`, once there is a source. -/
structure Accumulated where
  source : Nat
  begins : List Int32
  ends : List Int32

/-- The bounds of a slice continue the accumulated ones in a dimension. -/
def continues (dim : Int) (accumulated : Accumulated) (begins ends : List Int32) (d : Nat) : Bool :=
  if (d : Int) = dim then begins.getD d 0 == accumulated.ends.getD d 0
  else begins.getD d 0 == accumulated.begins.getD d 0 && ends.getD d 0 == accumulated.ends.getD d 0

/-- The loop over the concatenated values. -/
def accumulate (rank : Nat) (dim : Int) :
    List Nat → Option Accumulated → Option (Option Accumulated)
  | [], accumulated => some accumulated
  | value :: values, accumulated => do
    let (input, begins, ends, step) ← graph.sliceOp value
    guard (step.all (· == 1))
    match accumulated with
    | none => accumulate rank dim values (some { source := input, begins, ends })
    | some accumulated =>
      guard (input = accumulated.source)
      guard ((List.range rank).all (continues dim accumulated begins ends))
      accumulate rank dim values
        (some { accumulated with ends := accumulated.ends.set dim.toNat (ends.getD dim.toNat 0) })

def concatOfAdjacentSlices (value : Nat) : Option (Rewrite ε) :=
  match graph.definingOp value with
  | some (.concat inputs opDim) => do
    let rank := (graph.type value).shape.length
    let accumulated ← graph.accumulate rank (concatDim rank opDim) inputs none
    let { source, begins, ends } ← accumulated
    some
      { matched := value :: inputs
        replacement := .sliceStatic (.existing source) begins ends (List.replicate rank 1)
          (graph.type value) }
  | _ => none

def wide (size : Nat) : Bool := size != 1

def sliceOfSqueezedRow (value : Nat) : Option (Rewrite ε) := do
  let slice ← graph.reshapeOp value
  let (squeezed, sliceBegins, sliceEnds, sliceStep) ← graph.sliceOp slice
  let rowValue ← graph.reshapeOp squeezed
  let row := (graph.type rowValue).shape
  let result := (graph.type value).shape
  guard ((graph.type squeezed).shape.length = 1 ∧ result.length = row.length ∧
    row.countP wide = 1)
  let axis := row.findIdx wide
  guard (∀ d < row.length, d ≠ axis → result.getD d 0 = 1)
  some
    { matched := [value, slice, squeezed]
      replacement := .sliceStatic (.existing rowValue)
        ((List.replicate row.length 0).set axis (sliceBegins.getD 0 0))
        ((List.replicate row.length 1).set axis (sliceEnds.getD 0 0))
        ((List.replicate row.length 1).set axis (sliceStep.getD 0 0)) (graph.type value) }

def kTileDim : Int := 32

/-- The bounds take the whole dimension. -/
def whole (matrix : List Nat) (begins ends : List Int32) (d : Nat) : Bool :=
  (begins.getD d 0).toInt == 0 && (ends.getD d 0).toInt == matrix.getD d 0

/-- Attributes of a row's last dimension, and of the others. -/
def atBack (rank : Nat) (others back : Int32) : List Int32 :=
  (List.replicate rank others).set (rank - 1) back

def rowsOfReshapedRow (value : Nat) : Option (Rewrite ε) := do
  let (input, opBegins, opEnds, opStep) ← graph.sliceOp value
  let cast := graph.typecastOp input
  let reshaped := cast.getD input
  let rowValue ← graph.reshapeOp reshaped
  let row := graph.type rowValue
  let matrix := (graph.type reshaped).shape
  let rank := matrix.length
  guard (2 ≤ row.shape.length ∧ 2 ≤ rank ∧ row.shape.dropLast.any wide = false ∧
    (matrix.take (rank - 2)).any wide = false)
  guard (∀ d < rank, (opStep.getD d 0).toInt = 1 ∧
    (d ≠ rank - 2 → whole matrix opBegins opEnds d = true))
  let first := (opBegins.getD (rank - 2) 0).toInt
  let last := (opEnds.getD (rank - 2) 0).toInt
  let cols : Int := matrix.getD (rank - 1) 0
  guard (¬ (first < 0 ∨ last ≤ first ∨ Int.tmod first kTileDim = 0 ∨
    Int.tmod (first * cols) kTileDim ≠ 0))
  let shape := (List.replicate row.shape.length 1).set (row.shape.length - 1)
    ((last - first) * cols).toNat
  let slice : Replacement ε := .sliceStatic (.existing rowValue)
    (atBack row.shape.length 0 (Int32.ofInt (first * cols)))
    (atBack row.shape.length 1 (Int32.ofInt (last * cols)))
    (List.replicate row.shape.length 1) { row with shape }
  let cut := if cast.isSome then
      .typecast slice { shape, element := (graph.type value).element }
    else slice
  some
    { matched := if cast.isSome then [value, input, reshaped] else [value, reshaped]
      replacement := .reshape cut
        { cut.type graph with shape := (graph.type value).shape } }

end Graph

end Libtt.SliceFusions

/-! ## Slices, and graphs of operations -/
namespace Libtt.SliceFusions

open Libtt.StableHlo

variable {ε α : Type}

theorem toInt_one : (1 : Int32).toInt = 1 := by decide

theorem toInt_zero : (0 : Int32).toInt = 0 := by decide

/-- A coordinate of a slice is one of its operand. -/
theorem SliceFits.within {size result i : Nat} {start stop step : Int32}
    (fits : SliceFits size start stop step result) (less : i < result) :
    0 ≤ adjusted size start + i * step.toInt ∧ adjusted size start + i * step.toInt < size := by
  obtain ⟨positive, below, stopPositive, stopBelow, nonzero, up, down, count⟩ := fits
  have whole := Int.mul_fdiv_add_fmod (adjusted size start - adjusted size stop) step.toInt
  rw [sliceSize] at count
  rcases lt_or_gt_of_ne nonzero with negative | some
  · have remainder := Int.fmod_lt_of_pos (-(adjusted size start - adjusted size stop))
      (Int.neg_pos_of_neg negative)
    rw [Int.neg_fmod_neg] at remainder
    constructor <;> nlinarith
  · have remainder := Int.fmod_lt_of_pos (adjusted size start - adjusted size stop) some
    constructor <;> nlinarith

/-- A slice by ones takes what is between its bounds. -/
theorem sliceFits_one {size result : Nat} {start stop : Int32} :
    SliceFits size start stop 1 result ↔ 0 ≤ adjusted size start ∧ adjusted size start < size ∧
      adjusted size stop ≤ size ∧ adjusted size start ≤ adjusted size stop ∧
        (result : Int) = adjusted size stop - adjusted size start := by
  unfold SliceFits sliceSize
  rw [toInt_one, Int.fdiv_one]
  constructor
  · rintro ⟨positive, below, -, stopBelow, -, up, -, count⟩
    exact ⟨positive, below, stopBelow, up (by decide), by omega⟩
  · rintro ⟨positive, below, stopBelow, up, count⟩
    exact ⟨positive, below, by omega, stopBelow, by decide, fun _ => up, by omega, by omega⟩

theorem length_sliceIndex (shape : List Nat) (begins step : List Int32) (index : List Nat) :
    (sliceIndex shape begins step index).length = shape.length := by
  simp [sliceIndex]

theorem getD_sliceIndex {shape : List Nat} {begins step : List Int32} {index : List Nat} {d : Nat}
    (less : d < shape.length) : (sliceIndex shape begins step index).getD d 0 =
      (adjusted (shape.getD d 0) (begins.getD d 0) +
        index.getD d 0 * (step.getD d 0).toInt).toNat := by
  simp [sliceIndex, less]

theorem sliceIndex_within {shape result index : List Nat} {begins ends step : List Int32}
    (valid : VerifySlice shape begins ends step result) (inside : Within index result) :
    Within (sliceIndex shape begins step index) shape := by
  obtain ⟨-, -, -, length, fits⟩ := valid
  refine within_iff_getD.mpr ⟨length_sliceIndex .., fun d less => ?_⟩
  obtain ⟨positive, below⟩ := (fits d less).within ((within_iff_getD.mp inside).2 d (length ▸ less))
  rw [getD_sliceIndex less]
  omega

theorem getD_ones {rank d : Nat} (less : d < rank) :
    (List.replicate rank (1 : Int32)).getD d 0 = 1 := by
  simp [less]

namespace Graph

variable {graph : Graph ε} {value : Nat}

theorem sliceOp_eq_some {input : Nat} {begins ends step : List Int32} :
    graph.sliceOp value = some (input, begins, ends, step) ↔
      graph.definingOp value = some (.sliceStatic input begins ends step) := by
  unfold sliceOp
  split <;> simp_all

theorem reshapeOp_eq_some {input : Nat} :
    graph.reshapeOp value = some input ↔ graph.definingOp value = some (.reshape input) := by
  unfold reshapeOp
  split <;> simp_all

theorem typecastOp_eq_some {input : Nat} :
    graph.typecastOp value = some input ↔ graph.definingOp value = some (.typecast input) := by
  unfold typecastOp
  split <;> simp_all

/-- A defined value is what its operation gives. -/
theorem Defined.eq [Inhabited α] {conversions : Conversions ε α} {values : Nat → Tensor α}
    {op : Operation} (defined : graph.Defined conversions values value)
    (isOp : graph.definingOp value = some op) :
    values value = op.eval graph.type conversions values value := by
  obtain ⟨other, isOther, same⟩ := defined
  rw [isOp, Option.some.injEq] at isOther
  exact isOther ▸ same

theorem eval_congr [Inhabited α] {conversions : Conversions ε α} {values others : Nat → Tensor α}
    {op : Operation} (same : ∀ input ∈ op.inputs, values input = others input) :
    op.eval graph.type conversions values value = op.eval graph.type conversions others value := by
  cases op with
  | sliceStatic input begins ends step =>
    rw [Operation.eval, Operation.eval, same input (List.mem_singleton_self _)]
  | reshape input => rw [Operation.eval, Operation.eval, same input (List.mem_singleton_self _)]
  | typecast input => rw [Operation.eval, Operation.eval, same input (List.mem_singleton_self _)]
  | concat inputs dim =>
    have sameInputs : inputs.map values = inputs.map others := List.map_congr_left same
    rw [Operation.eval, Operation.eval, sameInputs]

/-- The values of a run, with the leaves given and those up to a place taken as leaves. -/
def run (graph : Graph ε) [Inhabited α] (conversions : Conversions ε α) (leaf : Nat → Tensor α)
    (stop value : Nat) : Tensor α :=
  if value ≤ stop then leaf value
  else match graph.definingOp value with
    | none => leaf value
    | some op => op.eval graph.type conversions
        (fun input => if _ : input < value then run graph conversions leaf stop input
          else leaf input) value
  termination_by value

section Runs

variable [Inhabited α] {conversions : Conversions ε α} {leaf : Nat → Tensor α} {stop : Nat}

theorem run_leaf (before : value ≤ stop) : graph.run conversions leaf stop value = leaf value := by
  rw [run, if_pos before]

theorem run_defined {op : Operation} (behind : stop < value)
    (isOp : graph.definingOp value = some op) :
    graph.Defined conversions (graph.run conversions leaf stop) value := by
  refine ⟨op, isOp, ?_⟩
  rw [run, if_neg (Nat.not_le_of_lt behind), isOp]
  refine eval_congr fun input member => ?_
  rw [dif_pos (graph.ordered value op isOp input member)]

theorem run_typed (typed : graph.Typed leaf) : graph.Typed (graph.run conversions leaf stop) := by
  intro value
  induction value using Nat.strong_induction_on with
  | _ value ih =>
    by_cases before : value ≤ stop
    · rw [run_leaf before, typed]
    · cases isOp : graph.definingOp value with
      | none =>
        rw [run, if_neg before, isOp]
        exact typed value
      | some op =>
        rw [(run_defined (Nat.lt_of_not_le before) isOp).eq isOp]
        cases op with
        | typecast input =>
          have less := graph.ordered value _ isOp input (List.mem_singleton_self _)
          exact (ih input less).trans (graph.verified value _ isOp)
        | sliceStatic | reshape | concat => rfl

end Runs

/-- Some values that a graph has. -/
theorem exists_values (graph : Graph ε) : ∃ (conversions : Conversions ε Unit)
    (values : Nat → Tensor Unit), graph.Typed values ∧
      ∀ value op, graph.definingOp value = some op → op.inputs ≠ [] →
        graph.Defined conversions values value := by
  refine ⟨fun _ _ _ => (), graph.run (fun _ _ _ => ())
    (fun value => { shape := (graph.type value).shape, data := fun _ => () }) 0,
    run_typed fun _ => rfl, fun value op isOp some => run_defined ?_ isOp⟩
  obtain ⟨input, member⟩ := List.exists_mem_of_ne_nil _ some
  exact Nat.zero_lt_of_lt (graph.ordered value op isOp input member)

end Graph

end Libtt.SliceFusions

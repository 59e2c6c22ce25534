import Libtt.StableHlo.UnitDims

/-!
# Reductions of StableHLO

A reduce combines, at each index of its result, the elements at the positions that agree with it
apart from the reduced dimensions.
-/
namespace Libtt.StableHlo

open Libtt.Foundation

variable {α β : Type}

/-- What remains of an index, or of a shape, without some dimensions; `dim` is its first one. -/
def without (dims : List Nat) : Nat → List α → List α
  | _, [] => []
  | dim, size :: shape =>
    if dim ∈ dims then without dims (dim + 1) shape else size :: without dims (dim + 1) shape

/-- The positions that a reduction combines at an index of its result, in their order. -/
def positions (dims : List Nat) : Nat → List Nat → List Nat → List (List Nat)
  | _, [], _ => [[]]
  | dim, size :: shape, index =>
    if dim ∈ dims then (List.range size).flatMap fun coordinate =>
      (positions dims (dim + 1) shape index).map (coordinate :: ·)
    else (positions dims (dim + 1) shape index.tail).map (index.headD 0 :: ·)

/-- Where a reduction of a program runs: its number there, and its device. -/
structure Site where
  operation : Nat
  device : List Nat

/-- The schedules of a program's reductions, each at each index, and of its all-reduces. -/
structure Schedules where
  reduce {α : Type} (site : Site) (index : List Nat) (body : α → α → α) (init : α) :
    List α → α
  allReduce {α : Type} (site : Site) (index : List Nat) (body : α → α → α) (first : α) :
    List α → α
  reduces {α : Type} (site : Site) (index : List Nat) (body : α → α → α) (init : α)
    (elements : List α) : Reduces body init elements (reduce site index body init elements)
  combines {α : Type} (site : Site) (index : List Nat) (body : α → α → α) (first : α)
    (rest : List α) : Combines body (first :: rest) (allReduce site index body first rest)

/-- One element after the other. -/
def Schedules.inOrder : Schedules where
  reduce _ _ body init elements := elements.foldl body init
  allReduce _ _ body first rest := rest.foldl body first
  reduces _ _ body init elements := Reduces.foldl body init elements
  combines _ _ body first rest := Combines.foldl body first rest

/-- `stablehlo.reduce` of one operand; that of several operands is one of tuples. -/
structure ReduceOp (α : Type) where
  dimensions : List Nat
  body : α → α → α
  initValue : α

namespace ReduceOp

variable (op : ReduceOp α)

/-- The elements that are combined at an index. -/
def elements (operand : Tensor α) (index : List Nat) : List α :=
  (positions op.dimensions 0 operand.shape index).map operand.data

def eval (schedules : Schedules) (site : Site) (operand : Tensor α) : Tensor α where
  shape := without op.dimensions 0 operand.shape
  data index := schedules.reduce site index op.body op.initValue (op.elements operand index)

end ReduceOp

/-- `stablehlo.iota`. -/
def iota (type : IntegerType) (shape : List Nat) (dim : Nat) : Tensor type.Word where
  shape := shape
  data index := type.constant (index.getD dim 0 : Nat)

/-- `stablehlo.select`. -/
def select (pred : Tensor Bool) (onTrue onFalse : Tensor α) : Tensor α where
  shape := onTrue.shape
  data index := if pred.data index then onTrue.data index else onFalse.data index

variable {dims before after first last index : List Nat} {dim size : Nat}

theorem without_append (dims : List Nat) (dim : Nat) (before after : List α) :
    without dims dim (before ++ after) =
      without dims dim before ++ without dims (dim + before.length) after := by
  induction before generalizing dim with
  | nil => rfl
  | cons size before ih =>
    simp only [List.cons_append, without, List.length_cons, ih]
    rw [show dim + 1 + before.length = dim + (before.length + 1) by omega]
    split <;> rfl

/-- Where no dimension is reduced, all remain. -/
theorem without_outside {shape : List α}
    (outside : ∀ other, dim ≤ other → other < dim + shape.length → other ∉ dims) :
    without dims dim shape = shape := by
  induction shape generalizing dim with
  | nil => rfl
  | cons size shape ih =>
    rw [List.length_cons] at outside
    rw [without, if_neg (outside dim (le_refl _) (by omega)),
      ih fun other above below => outside other (by omega) (by omega)]

theorem positions_append (isFirst : first.length = (without dims dim before).length) :
    positions dims dim (before ++ after) (first ++ last) =
      (positions dims dim before first).flatMap fun position =>
        (positions dims (dim + before.length) after last).map (position ++ ·) := by
  induction before generalizing dim first with
  | nil =>
    obtain rfl := List.length_eq_zero_iff.mp isFirst
    simp [positions]
  | cons size before ih =>
    have next : dim + 1 + before.length = dim + (before.length + 1) := by omega
    by_cases reduced : dim ∈ dims
    · rw [without, if_pos reduced] at isFirst
      simp only [List.cons_append, positions, if_pos reduced, ih isFirst, List.length_cons, next,
        List.map_flatMap, List.flatMap_assoc, List.flatMap_map, List.map_map]
      rfl
    · rw [without, if_neg reduced] at isFirst
      cases first with
      | nil => cases isFirst
      | cons coordinate first =>
        simp only [List.cons_append, positions, if_neg reduced, List.tail_cons, List.headD_cons,
          ih (Nat.succ.inj isFirst), List.length_cons, next, List.map_flatMap, List.flatMap_map,
          List.map_map]
        rfl

theorem positions_outside {shape : List Nat} (isIndex : index.length = shape.length)
    (outside : ∀ other, dim ≤ other → other < dim + shape.length → other ∉ dims) :
    positions dims dim shape index = [index] := by
  induction shape generalizing dim index with
  | nil =>
    obtain rfl := List.length_eq_zero_iff.mp isIndex
    rfl
  | cons size shape ih =>
    cases index with
    | nil => cases isIndex
    | cons coordinate index =>
      rw [List.length_cons] at outside
      rw [positions, if_neg (outside dim (le_refl _) (by omega)), List.tail_cons, List.headD_cons,
        ih (Nat.succ.inj isIndex) fun other above below => outside other (by omega) (by omega)]
      rfl

theorem length_without {shape : List α} {others : List β} (same : shape.length = others.length) :
    (without dims dim shape).length = (without dims dim others).length := by
  induction shape generalizing dim others with
  | nil =>
    obtain rfl := List.length_eq_zero_iff.mp same.symm
    rfl
  | cons size shape ih =>
    cases others with
    | nil => cases same
    | cons other others =>
      rw [without, without]
      split
      · exact ih (Nat.succ.inj same)
      · exact congrArg (· + 1) (ih (Nat.succ.inj same))

theorem without_zipWith {γ : Type} (f : α → β → γ) {shape : List α} {others : List β}
    (same : shape.length = others.length) :
    List.zipWith f (without dims dim shape) (without dims dim others) =
      without dims dim (List.zipWith f shape others) := by
  induction shape generalizing dim others with
  | nil =>
    rfl
  | cons size shape ih =>
    cases others with
    | nil => cases same
    | cons other others =>
      rw [List.zipWith_cons_cons, without, without, without]
      split
      · exact ih (Nat.succ.inj same)
      · rw [List.zipWith_cons_cons, ih (Nat.succ.inj same)]

theorem length_of_mem_positions {shape position : List Nat}
    (isPosition : position ∈ positions dims dim shape index) :
    position.length = shape.length := by
  induction shape generalizing dim index position with
  | nil =>
    obtain rfl := List.mem_singleton.mp isPosition
    rfl
  | cons size shape ih =>
    rw [positions] at isPosition
    split at isPosition
    · obtain ⟨coordinate, _, isRest⟩ := List.mem_flatMap.mp isPosition
      obtain ⟨rest, inside, rfl⟩ := List.mem_map.mp isRest
      exact congrArg (· + 1) (ih inside)
    · obtain ⟨rest, inside, rfl⟩ := List.mem_map.mp isPosition
      exact congrArg (· + 1) (ih inside)

/-- A reduction of one dimension. -/
theorem without_split (before after : List α) (size : α) :
    without [before.length] 0 (before ++ size :: after) = before ++ after := by
  rw [without_append, without_outside, Nat.zero_add, without, if_pos (List.mem_singleton_self _),
    without_outside]
  · intro other above below
    simp only [List.mem_singleton]
    omega
  · intro other above below
    simp only [List.mem_singleton]
    omega

theorem positions_split (isFirst : first.length = before.length)
    (isLast : last.length = after.length) :
    positions [before.length] 0 (before ++ size :: after) (first ++ last) =
      (List.range size).map fun coordinate => first ++ coordinate :: last := by
  have outsideFirst : ∀ other, 0 ≤ other → other < 0 + before.length → other ∉ [before.length] := by
    intro other _ below
    simp only [List.mem_singleton]
    omega
  have outsideLast : ∀ other, before.length + 1 ≤ other →
      other < before.length + 1 + after.length → other ∉ [before.length] := by
    intro other above _
    simp only [List.mem_singleton]
    omega
  rw [positions_append (by rw [without_outside outsideFirst, isFirst]),
    positions_outside isFirst outsideFirst, Nat.zero_add, positions,
    if_pos (List.mem_singleton_self _), positions_outside isLast outsideLast]
  simp only [List.flatMap_cons, List.flatMap_nil, List.append_nil, List.map_eq_flatMap,
    List.flatMap_assoc]

end Libtt.StableHlo

/-! ## Reduced dimensions -/
namespace Libtt.StableHlo

variable {dims shape index : List Nat} {dim : Nat}

/-- The dimensions that are not reduced. -/
def keptDims (dims : List Nat) (rank : Nat) : List Nat := dimsWhere (fun d => !dims.contains d) rank

theorem mem_keptDims {rank d : Nat} : d ∈ keptDims dims rank ↔ d < rank ∧ d ∉ dims := by
  simp [keptDims]

/-- What remains without some dimensions is at the others. -/
theorem without_eq (values : List Nat) :
    without dims 0 values = applyPermutation values (keptDims dims values.length) := by
  induction values using List.reverseRecOn with
  | nil => rfl
  | append_singleton values value ih =>
    unfold keptDims at ih ⊢
    rw [without_append, ih, Nat.zero_add, List.length_append, List.length_singleton,
      applyPermutation_concat]
    by_cases reduced : values.length ∈ dims <;> simp [without, reduced]

/-- The positions are the indices with the coordinates that are kept. -/
theorem mem_positions {position : List Nat} (inside : Within index (without dims dim shape)) :
    position ∈ positions dims dim shape index ↔
      Within position shape ∧ without dims dim position = index := by
  induction shape generalizing dim index position with
  | nil =>
    cases inside
    rw [positions, List.mem_singleton]
    constructor
    · rintro rfl
      exact ⟨.nil, rfl⟩
    · rintro ⟨within, -⟩
      cases within
      rfl
  | cons size shape ih =>
    rw [without] at inside
    by_cases reduced : dim ∈ dims
    · rw [if_pos reduced] at inside
      simp only [positions, if_pos reduced, List.mem_flatMap, List.mem_range, List.mem_map,
        ih inside]
      constructor
      · rintro ⟨coordinate, below, rest, ⟨within, same⟩, rfl⟩
        exact ⟨.cons below within, by rw [without, if_pos reduced, same]⟩
      · rintro ⟨within, same⟩
        cases within with
        | cons below within =>
          rw [without, if_pos reduced] at same
          exact ⟨_, below, _, ⟨within, same⟩, rfl⟩
    · rw [if_neg reduced] at inside
      cases inside with
      | cons below inside =>
        simp only [positions, if_neg reduced, List.tail_cons, List.headD_cons, List.mem_map,
          ih inside]
        constructor
        · rintro ⟨rest, ⟨within, same⟩, rfl⟩
          exact ⟨.cons below within, by rw [without, if_neg reduced, same]⟩
        · rintro ⟨within, same⟩
          cases within with
          | cons _ within =>
            rw [without, if_neg reduced, List.cons.injEq] at same
            exact ⟨_, ⟨within, same.2⟩, by rw [same.1]⟩

/-- Where the reduced dimensions have elements, each index has a position. -/
theorem exists_position (inside : Within index (without dims dim shape))
    (positive : ∀ d < shape.length, dim + d ∈ dims → 0 < shape.getD d 0) :
    ∃ position, Within position shape ∧ without dims dim position = index := by
  induction shape generalizing dim index with
  | nil =>
    cases inside
    exact ⟨[], .nil, rfl⟩
  | cons size shape ih =>
    have rest : ∀ d < shape.length, dim + 1 + d ∈ dims → 0 < shape.getD d 0 := by
      intro d less member
      rw [show dim + 1 + d = dim + (d + 1) by omega] at member
      exact positive (d + 1) (Nat.succ_lt_succ less) member
    rw [without] at inside
    by_cases reduced : dim ∈ dims
    · rw [if_pos reduced] at inside
      obtain ⟨position, within, same⟩ := ih inside rest
      exact ⟨0 :: position, .cons (positive 0 (Nat.succ_pos _) reduced) within,
        by rw [without, if_pos reduced, same]⟩
    · rw [if_neg reduced] at inside
      cases inside with
      | cons below inside =>
        obtain ⟨position, within, same⟩ := ih inside rest
        exact ⟨_ :: position, .cons below within, by rw [without, if_neg reduced, same]⟩

/-- Each position is combined once. -/
theorem nodup_positions (dims : List Nat) (dim : Nat) (shape index : List Nat) :
    (positions dims dim shape index).Nodup := by
  induction shape generalizing dim index with
  | nil => exact List.nodup_singleton []
  | cons size shape ih =>
    rw [positions]
    split
    · apply List.nodup_flatMap.mpr
      constructor
      · intro coordinate _
        exact (ih _ _).map fun _ _ same => (List.cons.inj same).2
      · refine List.nodup_range.imp fun {first second} different => ?_
        intro position isFirst isSecond
        obtain ⟨_, _, rfl⟩ := List.mem_map.mp isFirst
        obtain ⟨_, _, same⟩ := List.mem_map.mp isSecond
        exact different (List.cons.inj same).1.symm
    · exact (ih _ _).map fun _ _ same => (List.cons.inj same).2

end Libtt.StableHlo

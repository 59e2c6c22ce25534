import Mathlib.Data.List.Induction

/-!
# Schedules of a reduction

A reduction combines its elements in their order, but along a tree that is up to whoever runs it,
and puts the init value in wherever it likes.
-/
namespace Libtt.Foundation

variable {α β : Type}

/-- The results that a reduction of the elements may have. -/
inductive Reduces (op : α → α → α) (init : α) : List α → α → Prop where
  | init : Reduces op init [] init
  | element (element : α) : Reduces op init [element] element
  | combine {left right : List α} {first second : α} (leftReduces : Reduces op init left first)
    (rightReduces : Reduces op init right second) :
    Reduces op init (left ++ right) (op first second)

/-- The results without an init value, of elements of which there are some. -/
inductive Combines (op : α → α → α) : List α → α → Prop where
  | element (element : α) : Combines op [element] element
  | combine {left right : List α} {first second : α} (leftCombines : Combines op left first)
    (rightCombines : Combines op right second) : Combines op (left ++ right) (op first second)

variable {op : α → α → α} {init result : α} {elements : List α}

theorem Combines.reduces (init : α) (combines : Combines op elements result) :
    Reduces op init elements result := by
  induction combines with
  | element element => exact .element element
  | combine _ _ left right => exact .combine left right

/-- One after the other is a schedule. -/
theorem Reduces.foldl (op : α → α → α) (init : α) (elements : List α) :
    Reduces op init elements (elements.foldl op init) := by
  induction elements using List.reverseRecOn with
  | nil => exact .init
  | append_singleton elements last ih =>
    rw [List.foldl_append]
    exact .combine ih (.element last)

/-- Some of the init values among the elements are left out. -/
inductive Thinned (init : α) : List α → List α → Prop where
  | nil : Thinned init [] []
  | keep (element : α) {elements kept : List α} (rest : Thinned init elements kept) :
    Thinned init (element :: elements) (element :: kept)
  | drop {elements kept : List α} (rest : Thinned init elements kept) :
    Thinned init (init :: elements) kept

theorem Thinned.refl (init : α) (elements : List α) : Thinned init elements elements := by
  induction elements with
  | nil => exact .nil
  | cons element elements ih => exact .keep element ih

theorem Thinned.replicate_append (count : Nat) (elements : List α) :
    Thinned init (List.replicate count init ++ elements) elements := by
  induction count with
  | zero => exact .refl init elements
  | succ count ih => exact .drop ih

theorem Thinned.append_replicate (elements : List α) (count : Nat) :
    Thinned init (elements ++ List.replicate count init) elements := by
  induction elements with
  | nil => simpa using Thinned.replicate_append count []
  | cons element elements ih => exact .keep element ih

theorem Thinned.split {left right kept : List α} (thinned : Thinned init (left ++ right) kept) :
    ∃ first second, kept = first ++ second ∧ Thinned init left first ∧
      Thinned init right second := by
  induction left generalizing kept with
  | nil => exact ⟨[], kept, rfl, .nil, thinned⟩
  | cons element left ih =>
    cases thinned with
    | keep _ rest =>
      obtain ⟨first, second, rfl, isFirst, isSecond⟩ := ih rest
      exact ⟨element :: first, second, rfl, .keep element isFirst, isSecond⟩
    | drop rest =>
      obtain ⟨first, second, rfl, isFirst, isSecond⟩ := ih rest
      exact ⟨first, second, rfl, .drop isFirst, isSecond⟩

/-- Init values among the elements are such that the schedule may put in as well. -/
theorem Reduces.thin {kept : List α} (reduces : Reduces op init elements result)
    (thinned : Thinned init elements kept) : Reduces op init kept result := by
  induction reduces generalizing kept with
  | init =>
    cases thinned
    exact .init
  | element element =>
    cases thinned with
    | keep _ rest =>
      cases rest
      exact .element element
    | drop rest =>
      cases rest
      exact .init
  | combine _ _ left right =>
    obtain ⟨first, second, rfl, isFirst, isSecond⟩ := thinned.split
    exact .combine (left isFirst) (right isSecond)

theorem Combines.foldl (op : α → α → α) (first : α) (rest : List α) :
    Combines op (first :: rest) (rest.foldl op first) := by
  induction rest using List.reverseRecOn with
  | nil => exact .element first
  | append_singleton rest last ih =>
    rw [List.foldl_append, ← List.cons_append]
    exact .combine ih (.element last)

theorem Combines.ne_nil (combines : Combines op elements result) : elements ≠ [] := by
  induction combines with
  | element element => exact List.cons_ne_nil _ _
  | combine _ _ left _ => exact List.append_ne_nil_of_left_ne_nil left _

/-- What is combined of results is combined of what they are combined of. -/
theorem Combines.flatMap {items : List β} {heads : β → α} {parts : β → List α}
    (each : ∀ item ∈ items, Combines op (parts item) (heads item))
    (combines : Combines op (items.map heads) result) :
    Combines op (items.flatMap parts) result := by
  generalize isMap : items.map heads = combined at combines
  induction combines generalizing items with
  | element element =>
    obtain ⟨item, rfl, rfl⟩ := List.map_eq_singleton_iff.mp isMap
    rw [List.flatMap_singleton]
    exact each item (List.mem_singleton_self item)
  | combine _ _ left right =>
    obtain ⟨first, last, rfl, isFirst, isLast⟩ := List.map_eq_append_iff.mp isMap
    rw [List.flatMap_append]
    apply Combines.combine
    · exact left (fun item member => each item (List.mem_append_left _ member)) isFirst
    · exact right (fun item member => each item (List.mem_append_right _ member)) isLast

/-- With one order as good as another, what is combined goes onto a start like its elements. -/
theorem Combines.foldl_eq [Std.Associative op] [Std.Commutative op]
    (combines : Combines op elements result) (start : α) :
    elements.foldl op start = op result start := by
  have assoc := @Std.Associative.assoc _ op _
  have comm := @Std.Commutative.comm _ op _
  induction combines generalizing start with
  | element element => exact comm start element
  | @combine left right first second _ _ isFirst isSecond =>
    rw [List.foldl_append, isFirst, isSecond, ← assoc, comm second first]

section

variable [Std.Associative op] [Std.LawfulIdentity op init]

theorem foldr_append (left right : List α) :
    (left ++ right).foldr op init = op (left.foldr op init) (right.foldr op init) := by
  have assoc := @Std.Associative.assoc _ op _
  induction left with
  | nil => exact (Std.LawfulLeftIdentity.left_id _).symm
  | cons element left ih =>
    rw [List.cons_append, List.foldr_cons, ih, List.foldr_cons, assoc element]

/-- Every schedule of an associative operation with its identity has the same result. -/
theorem Reduces.eq_foldr (reduces : Reduces op init elements result) :
    result = elements.foldr op init := by
  induction reduces with
  | init => rfl
  | element element => exact (Std.LawfulRightIdentity.right_id element).symm
  | combine _ _ left right => rw [foldr_append, left, right]

omit [Std.Associative op] in
theorem foldr_replicate (count : Nat) : (List.replicate count init).foldr op init = init := by
  induction count with
  | zero => rfl
  | succ count ih =>
    rw [List.replicate_succ, List.foldr_cons, ih]
    exact Std.LawfulLeftIdentity.left_id init

end

/-- With one order as good as another, the elements may be combined onto a start. -/
theorem foldl_eq_foldr [Std.Associative op] [Std.Commutative op] [Std.LawfulIdentity op init]
    (start : α) (elements : List α) :
    elements.foldl op start = op (elements.foldr op init) start := by
  have assoc := @Std.Associative.assoc _ op _
  have comm := @Std.Commutative.comm _ op _
  induction elements generalizing start with
  | nil => exact (Std.LawfulLeftIdentity.left_id start).symm
  | cons element elements ih =>
    rw [List.foldl_cons, ih, List.foldr_cons, comm start element, ← assoc,
      comm (elements.foldr op init) element]

end Libtt.Foundation

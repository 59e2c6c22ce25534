import Libtt.ShardedGather.Lowering
import Mathlib.Algebra.BigOperators.Ring.List

/-!
# The gathers of the shards, summed

Strides and sizes of axes are places of the device number, so the devices along the axes have each
shard number once.
-/
namespace Libtt.ShardedGather

open Libtt.Foundation Libtt.StableHlo

variable {mesh : Mesh} {axis other : AxisRef} {axes : List AxisRef} {device : Nat}

theorem coordinatesOf_append (first second : List Nat) (device : Nat) :
    ∃ before, before.length = first.length ∧
      Mesh.coordinatesOf (first ++ second) device = before ++ Mesh.coordinatesOf second device := by
  induction first with
  | nil => exact ⟨[], rfl, rfl⟩
  | cons size first ih =>
    obtain ⟨before, same, rest⟩ := ih
    exact ⟨_ :: before, by simp [same], by
      rw [List.cons_append, Mesh.coordinatesOf, rest, List.cons_append]⟩

/-- A device's number, from its coordinates. -/
theorem rowMajor_coordinatesOf {shape : List Nat} (below : device < shape.prod) :
    rowMajor shape (Mesh.coordinatesOf shape device) = device := by
  have rest : ∀ shape, rowMajor shape (Mesh.coordinatesOf shape device) = device % shape.prod := by
    intro shape
    induction shape with
    | nil => exact (Nat.mod_one device).symm
    | cons size shape ih =>
      rw [Mesh.coordinatesOf, rowMajor, ih, List.prod_cons, Nat.mul_comm size, Nat.mod_mul,
        Nat.mul_comm, Nat.add_comm]
  rw [rest, Nat.mod_eq_of_lt below]

theorem coordinatesOf_lt {shape : List Nat} (positive : ∀ size ∈ shape, 0 < size) (device : Nat) :
    List.Forall₂ (· < ·) (Mesh.coordinatesOf shape device) shape := by
  induction shape with
  | nil => exact .nil
  | cons size shape ih =>
    exact .cons (Nat.mod_lt _ (positive size List.mem_cons_self))
      (ih fun other member => positive other (List.mem_cons_of_mem _ member))

/-- The parts that a device keeps, axis after axis, hold the element at its coordinates. -/
theorem foldl_meshPartition {Element : Type} {shape coordinates rest : List Nat}
    (inside : List.Forall₂ (· < ·) rest shape) (before kept : List Nat)
    (all : coordinates = kept ++ rest) (same : kept.length = before.length)
    (tensor : List Nat → Element) :
    (shape.zipIdx before.length).foldl (fun current axis =>
      if axis.1 = 1 then current else meshPartition current axis.2 (coordinates.getD axis.2 0))
        tensor (before ++ List.replicate shape.length 0) = tensor (before ++ rest) := by
  induction inside generalizing before kept tensor with
  | nil => rfl
  | @cons coordinate size rest shape less inside ih =>
    have next := ih (before ++ [0]) (kept ++ [coordinate]) (by rw [all]; simp) (by simp [same])
    have longer : before.length + 1 = (before ++ [0]).length := by simp
    rw [List.zipIdx_cons, List.foldl_cons, List.length_cons, List.replicate_succ,
      List.append_cons before 0, longer, next]
    have own : coordinates.getD before.length 0 = coordinate := by
      rw [all, ← same]
      simp
    split
    case isTrue one =>
      have zero : coordinate = 0 := by omega
      rw [zero, List.append_assoc, List.singleton_append]
    case isFalse =>
      rw [meshPartition, own, List.append_assoc, List.modify_eq_take_drop]
      simp

/-- The number that `stablehlo.partition_id` gives each device, as the lowering computes it. -/
theorem partitionId_coordinates (width : Nat) (below : device < mesh.devices) :
    partitionId width mesh.shape (mesh.coordinates device) = BitVec.ofNat width device := by
  have positive : ∀ size ∈ mesh.shape, 0 < size := by
    intro size member
    obtain ⟨axis, isAxis, rfl⟩ := List.mem_map.mp member
    exact mesh.positive axis isAxis
  have partition := foldl_meshPartition (coordinatesOf_lt positive device) [] []
    (List.nil_append _).symm rfl fun position => BitVec.ofNat width (rowMajor mesh.shape position)
  refine partition.trans ?_
  rw [List.nil_append, rowMajor_coordinatesOf below]

/-- The place of an axis in the device number. -/
def place (mesh : Mesh) (axis : AxisRef) : Place := ⟨axis.stride mesh, axis.getSize mesh⟩

/-- An axis of the mesh, with those before and after it. -/
structure Located (mesh : Mesh) (axis : AxisRef) (before : List MeshAxis) (own : MeshAxis)
    (after : List MeshAxis) : Prop where
  split : mesh.axes = before ++ own :: after
  named : own.name = axis.name

theorem extent_eq (mesh : Mesh) (axis : AxisRef) :
    (axis.extent mesh).2 = (axis.extent mesh).1 * axis.getSize mesh := by
  unfold AxisRef.extent AxisRef.getSize
  cases axis.subAxisInfo with
  | none => exact (Nat.one_mul _).symm
  | some subAxis => rfl

namespace Located

variable {before after : List MeshAxis} {own : MeshAxis}

theorem exists_of_valid (valid : axis.Valid mesh) : ∃ before own after,
    Located mesh axis before own after := by
  obtain ⟨own, member, named⟩ := List.mem_map.mp valid.isAxis
  obtain ⟨before, after, split⟩ := List.append_of_mem member
  exact ⟨before, own, after, split, named⟩

variable (located : Located mesh axis before own after)

include located

theorem before_ne : ∀ first ∈ before, first.name ≠ axis.name := by
  have distinct := mesh.distinct
  rw [located.split, List.map_append, List.map_cons] at distinct
  intro first member same
  refine (List.nodup_append.mp distinct).2.2 first.name (List.mem_map_of_mem member) own.name
    List.mem_cons_self (same.trans located.named.symm)

theorem after_ne : ∀ last ∈ after, last.name ≠ axis.name := by
  have distinct := mesh.distinct
  rw [located.split, List.map_append, List.map_cons] at distinct
  intro last member same
  have head := (List.nodup_cons.mp (List.nodup_append.mp distinct).2.1).1
  rw [located.named, ← same] at head
  exact head (List.mem_map_of_mem member)

theorem getAxisSize : mesh.getAxisSize axis.name = own.size := by
  have none : before.find? (·.name = axis.name) = none :=
    List.find?_eq_none.mpr fun first member => by simpa using located.before_ne first member
  rw [Mesh.getAxisSize, located.split, List.find?_append, none, Option.none_or,
    List.find?_cons_of_pos (by simpa using located.named)]
  rfl

/-- The strides are those of the axes after it. -/
theorem strides : ((mesh.axes.reverse.takeWhile (·.name ≠ axis.name)).map MeshAxis.size).prod =
    (after.map MeshAxis.size).prod := by
  have passes : ∀ last ∈ after.reverse, decide (last.name ≠ axis.name) = true := fun last member =>
    decide_eq_true (located.after_ne last (List.mem_reverse.mp member))
  rw [located.split, List.reverse_append, List.reverse_cons, List.append_assoc,
    List.takeWhile_append_of_pos passes, List.singleton_append,
    List.takeWhile_cons_of_neg (by simpa using located.named), List.append_nil, List.map_reverse,
    List.prod_reverse]

theorem coordinate_eq (device : Nat) : mesh.coordinate axis.name device =
    device / (after.map MeshAxis.size).prod % own.size := by
  have none : before.findIdx (·.name = axis.name) = before.length :=
    List.findIdx_eq_length.mpr fun first member => by simpa using located.before_ne first member
  have index : mesh.axes.findIdx (·.name = axis.name) = before.length := by
    rw [located.split, List.findIdx_append, none, if_neg (lt_irrefl _), List.findIdx_cons]
    simp [located.named]
  obtain ⟨first, same, rest⟩ := coordinatesOf_append (before.map MeshAxis.size)
    (own.size :: after.map MeshAxis.size) device
  rw [Mesh.coordinate, index, Mesh.coordinates, Mesh.shape, located.split, List.map_append,
    List.map_cons, rest, Mesh.coordinatesOf]
  rw [List.length_map] at same
  rw [← same]
  simp

theorem positive : 0 < own.size :=
  mesh.positive own (located.split ▸ List.mem_append_right _ List.mem_cons_self)

theorem after_positive : 0 < (after.map MeshAxis.size).prod := by
  refine Nat.pos_of_ne_zero fun zero => ?_
  obtain ⟨last, member, isZero⟩ := List.mem_map.mp (List.prod_eq_zero_iff.mp zero)
  have := mesh.positive last
    (located.split ▸ List.mem_append_right _ (List.mem_cons_of_mem _ member))
  omega

/-- The stride of the place, and how the size of the axis splits. -/
theorem stride_eq : axis.stride mesh =
    (after.map MeshAxis.size).prod * (own.size / (axis.extent mesh).2) := by
  rw [AxisRef.stride, located.strides]
  unfold AxisRef.extent
  cases parts : axis.subAxisInfo with
  | none =>
    rw [located.getAxisSize, Nat.div_self located.positive, Nat.mul_one]
  | some subAxis =>
    rw [located.getAxisSize, AxisRef.getSize, parts]

section

variable (valid : axis.Valid mesh)
include valid

theorem own_eq : own.size =
    (axis.extent mesh).1 * axis.getSize mesh * (own.size / (axis.extent mesh).2) := by
  have divides := valid.divides
  rw [located.getAxisSize] at divides
  rw [← extent_eq, Nat.mul_div_cancel' divides]

theorem parts_positive :
    0 < (axis.extent mesh).1 ∧ 0 < axis.getSize mesh ∧ 0 < own.size / (axis.extent mesh).2 := by
  have positive := located.positive
  have whole := located.own_eq valid
  refine ⟨Nat.pos_of_ne_zero fun zero => ?_, valid.positive, Nat.pos_of_ne_zero fun zero => ?_⟩ <;>
    · rw [zero] at whole
      omega

theorem proper : (place mesh axis).Proper := by
  refine ⟨?_, valid.positive⟩
  change 0 < axis.stride mesh
  rw [located.stride_eq]
  exact Nat.mul_pos located.after_positive (located.parts_positive valid).2.2

/-- The coordinate along the axis is the digit at its place. -/
theorem digit_eq (device : Nat) :
    axis.coordinate mesh device = (place mesh axis).digit device := by
  have whole := located.own_eq valid
  have stride := located.stride_eq
  rw [Place.digit, place, stride, ← Nat.div_div_eq_div_mul]
  unfold AxisRef.coordinate
  unfold AxisRef.extent AxisRef.getSize at whole
  unfold AxisRef.extent AxisRef.getSize
  cases parts : axis.subAxisInfo with
  | none =>
    rw [located.coordinate_eq, located.getAxisSize, Nat.div_self located.positive, Nat.div_one]
  | some subAxis =>
    rw [parts] at whole
    dsimp only at whole ⊢
    rw [located.coordinate_eq, located.getAxisSize]
    generalize own.size / (subAxis.preSize * subAxis.size) = rest at whole ⊢
    rw [whole, show subAxis.preSize * subAxis.size * rest = rest * (subAxis.size * subAxis.preSize) by
      ring, Nat.mod_mul_right_div_self, Nat.mod_mul_right_mod]

/-- The place is within the axis, and the axis within the mesh. -/
theorem span_dvd :
    (place mesh axis).span ∣ own.size * (after.map MeshAxis.size).prod := by
  refine ⟨(axis.extent mesh).1, ?_⟩
  conv_lhs => rw [located.own_eq valid]
  rw [Place.span, place, located.stride_eq]
  ring

end

theorem devices_eq : mesh.devices =
    (before.map MeshAxis.size).prod * (own.size * (after.map MeshAxis.size).prod) := by
  rw [Mesh.devices, Mesh.shape, located.split, List.map_append, List.prod_append, List.map_cons,
    List.prod_cons]

section

variable {before' after' : List MeshAxis} {own' : MeshAxis}
  (located' : Located mesh other before' own' after')
include located'

/-- Two axes of a mesh are one, or one is after the other. -/
theorem cases_of :
    (own = own' ∧ after = after') ∨ own' :: after' <:+ after ∨ own :: after <:+ after' := by
  have first : own :: after <:+ mesh.axes := ⟨before, located.split.symm⟩
  have second : own' :: after' <:+ mesh.axes := ⟨before', located'.split.symm⟩
  rcases List.suffix_or_suffix_of_suffix first second with inside | inside <;>
    rcases List.suffix_cons_iff.mp inside with same | deeper
  · exact .inl (List.cons.inj same)
  · exact .inr (.inr deeper)
  · exact .inl ((List.cons.inj same).imp Eq.symm Eq.symm)
  · exact .inr (.inl deeper)

/-- An axis after another: its places divide the other's strides. -/
theorem span_dvd_stride (valid' : other.Valid mesh) (later : own' :: after' <:+ after) :
    (place mesh other).span ∣ (place mesh axis).stride := by
  obtain ⟨between, split⟩ := later
  refine (located'.span_dvd valid').trans ?_
  rw [place, located.stride_eq, ← split, List.map_append, List.prod_append, List.map_cons,
    List.prod_cons]
  exact Dvd.dvd.mul_right (Dvd.intro_left _ rfl) _

end

end Located

/-- A part of an axis past another part of it. -/
theorem span_dvd_of_parts {before after : List MeshAxis} {own : MeshAxis}
    (located : Located mesh axis before own after) (valid : axis.Valid mesh)
    (located' : Located mesh other before own after) (valid' : other.Valid mesh)
    (past : (axis.extent mesh).2 ∣ (other.extent mesh).1) :
    (place mesh other).span ∣ (place mesh axis).stride := by
  obtain ⟨between, split⟩ := past
  have first := located.own_eq valid
  have second := located'.own_eq valid'
  have positive := (located.parts_positive valid).1
  have sizePositive := (located.parts_positive valid).2.1
  rw [← extent_eq] at first
  rw [place, place, Place.span, located.stride_eq, located'.stride_eq, split] at *
  have extentPositive : 0 < (axis.extent mesh).2 := by
    rw [extent_eq]
    exact Nat.mul_pos positive sizePositive
  have rest : own.size / (axis.extent mesh).2 =
      between * other.getSize mesh * (own.size / (other.extent mesh).2) := by
    refine Nat.eq_of_mul_eq_mul_left extentPositive ?_
    rw [← first]
    conv_lhs => rw [second]
    ring
  rw [rest]
  exact ⟨between, by ring⟩

/-- Axes of a mesh that do not overlap are places apart from each other. -/
theorem spread (valid : ∀ axis ∈ axes, axis.Valid mesh)
    (disjoint : axes.Pairwise fun axis other => axis.Disjoint mesh other) :
    Place.Spread (axes.map (place mesh)) mesh.devices where
  proper p member := by
    obtain ⟨axis, isAxis, rfl⟩ := List.mem_map.mp member
    obtain ⟨before, own, after, located⟩ := Located.exists_of_valid (valid axis isAxis)
    exact located.proper (valid axis isAxis)
  apart := by
    rw [List.pairwise_map]
    refine disjoint.imp_of_mem fun {axis other} isAxis isOther disjoint => ?_
    have first := valid axis isAxis
    have second := valid other isOther
    obtain ⟨before, own, after, located⟩ := Located.exists_of_valid first
    obtain ⟨before', own', after', located'⟩ := Located.exists_of_valid second
    rcases located.cases_of located' with ⟨rfl, rfl⟩ | later | later
    · have sameBefore : before' = before :=
        List.append_cancel_right (located'.split.symm.trans located.split)
      rw [sameBefore] at located'
      rcases disjoint (located.named.symm.trans located'.named) with past | past
      · exact .inr (span_dvd_of_parts located first located' second past)
      · exact .inl (span_dvd_of_parts located' second located first past)
    · exact .inr (located.span_dvd_stride located' second later)
    · exact .inl (located'.span_dvd_stride located first later)
  fits p member := by
    obtain ⟨axis, isAxis, rfl⟩ := List.mem_map.mp member
    obtain ⟨before, own, after, located⟩ := Located.exists_of_valid (valid axis isAxis)
    rw [located.devices_eq]
    exact (located.span_dvd (valid axis isAxis)).mul_left _

/-- The number of a device's shard, from the digits at the places of the axes. -/
theorem shardNumber_eq (valid : ∀ axis ∈ axes, axis.Valid mesh) (device : Nat) :
    shardNumber mesh axes device = Place.number (axes.map (place mesh)) device := by
  rw [shardNumber, Place.number, List.foldl_map]
  refine List.foldl_ext _ _ _ fun number axis isAxis => ?_
  obtain ⟨before, own, after, located⟩ := Located.exists_of_valid (valid axis isAxis)
  rw [located.digit_eq (valid axis isAxis)]
  rfl

theorem shards_eq (mesh : Mesh) (axes : List AxisRef) :
    shards mesh axes = Place.volume (axes.map (place mesh)) := by
  rw [shards, Place.volume, List.map_map]
  have product : ∀ first, axes.foldl (fun shards axis => shards * axis.getSize mesh) first =
      first * (axes.map (Place.size ∘ place mesh)).prod := by
    induction axes with
    | nil => simp
    | cons axis axes ih =>
      intro first
      rw [List.foldl_cons, ih, List.map_cons, List.prod_cons, Nat.mul_assoc]
      rfl
  rw [product, Nat.one_mul]

end Libtt.ShardedGather

import Libtt.DecodeFusions.ScalesCorrect

/-!
# Decode programs after their fusions

The fusion of a quantization keeps every program. That of a residual norm keeps those whose weight is
not the sum itself and has no zero added, and that of output scales those where the scales are as
wide as the product.
-/
namespace Libtt.DecodeFusions

open Libtt.Foundation

/-- When the fusions keep the program: no use is lost and all values are the same. -/
theorem decode_fusions_keep (helpers : Helpers) (documented : helpers.Documented) (program : Program)
    (valid : program.Valid) :
    (∀ norm result, residualNormFusion helpers program norm = some result →
      (Keeps program result ↔ NormFits helpers program norm)) ∧
    (∀ result, QuantizeFusion program result → Keeps program result) ∧
    ∀ outer result, outputScalesFusion program outer = some result →
      (Keeps program result ↔ ScalesFit program outer) := by
  refine ⟨?_, ?_, ?_⟩
  · intro norm result fused
    exact residualNormFusion_keeps_iff helpers program documented valid fused
  · intro result fused
    exact fused.keeps valid
  · intro outer result fused
    exact outputScalesFusion_keeps_iff valid fused

/-- A norm of the sum of two values by one more than a weight. -/
def normOfSum : Program where
  type value := [⟨[2, 32], .bf16⟩, ⟨[2, 32], .bf16⟩, ⟨[32], .bf16⟩, ⟨[2, 32], .bf16⟩, ⟨[32], .f32⟩,
    ⟨[1], .f32⟩, ⟨[32], .f32⟩, ⟨[1, 32], .f32⟩, ⟨[2, 32], .bf16⟩].getD value ⟨[], .f32⟩
  outer := []
  block := [(3, .add 0 1), (4, .typecast 2), (5, .constant one), (6, .add 4 5), (7, .reshape 6),
    (8, .rmsNorm 3 (some 7) none 0x358637bd#32 [32])]

/-- On programs with no reshape of a reshape and constants that are not reshaped. -/
def directHelpers : Helpers where
  lookThroughReshape program value :=
    match program.definingOp value with
    | some (.reshape input) => input
    | _ => value
  isOnes program value := program.definingOp value == some (.constant one)
  getSplatConstantValue program value :=
    match program.definingOp value with
    | some (.constant literal) => some literal
    | _ => none

theorem directHelpers_documented : directHelpers.Documented := by
  have constant {program : Program} (valid : program.Valid) {value : Nat} {literal : Literal}
      (defined : program.definingOp value = some (.constant literal)) {E : Type}
      (arithmetic : Arithmetic E) (arguments : Nat → Nat → E) :
      ∀ number < size program.type value, program.values arithmetic arguments value number =
        arithmetic.literal (program.type value).element literal := by
    intro number less
    rw [valid.run_eq arithmetic arguments defined less]
    rfl
  constructor
  · intro program value
    unfold directHelpers
    simp only
    split
    · next input defined => exact .reshape defined (.refl input)
    · exact .refl value
  · intro program valid value isOnes E arithmetic arguments
    exact constant valid (beq_iff_eq.mp isOnes) arithmetic arguments
  · intro program valid value literal isSplat E arithmetic arguments
    unfold directHelpers at isSplat
    simp only at isSplat
    split at isSplat
    · next literal' defined =>
      obtain rfl := Option.some.inj isSplat
      exact constant valid defined arithmetic arguments
    · contradiction

theorem normOfSum_valid : normOfSum.Valid where
  ordered := ⟨by decide, by decide⟩
  verified := by
    simp [Program.definitions, normOfSum, Operation.Verifies, BroadcastsTo, size]

theorem decode_fusions_keep_normOfSum :
    (residualNormFusion directHelpers normOfSum 8).isSome = true ∧
      ∀ result, residualNormFusion directHelpers normOfSum 8 = some result →
        Keeps normOfSum result := by
  refine ⟨by decide, fun result fused => ?_⟩
  have keeps := decode_fusions_keep directHelpers directHelpers_documented normOfSum normOfSum_valid
  apply (keeps.1 8 result fused).mpr
  intro input weight epsilon normalizedShape isNorm
  have same : 3 = input ∧ 7 = weight := by
    have op := Option.some.inj isNorm
    simp only [Operation.rmsNorm.injEq, Option.some.injEq] at op
    exact ⟨op.1, op.2.1⟩
  obtain ⟨rfl, rfl⟩ := same
  have offset : offsetWeight directHelpers normOfSum 7 = some (2, one) := by decide
  rw [offset]
  refine ⟨by decide, fun _ found isFound => ?_⟩
  obtain rfl := Option.some.inj isFound
  decide

/-- A product whose column scale is one element of rank 3, so that the result is of rank 3 too. -/
def deepScale : Program where
  type value := [⟨[1, 32], .float8⟩, ⟨[32, 32], .float8⟩, ⟨[1, 32], .f32⟩, ⟨[1, 1], .f32⟩,
    ⟨[1, 1, 1], .f32⟩, ⟨[1, 32], .f32⟩, ⟨[1, 1, 32], .f32⟩].getD value ⟨[], .f32⟩
  outer := []
  block := [(2, .matmul 0 1 ⟨false, false, true, 0⟩), (5, .multiply 2 3 true),
    (6, .multiply 5 4 true)]

/-- The fused operation has the result's type, but not its shape. -/
theorem deepScale_not_kept : ¬∀ (program : Program) (outer : Nat) (result : List Definition),
    program.Valid → outputScalesFusion program outer = some result → Keeps program result := by
  intro keeps
  have valid : deepScale.Valid := by
    refine ⟨⟨by decide, by decide⟩, ?_⟩
    simp [Program.definitions, deepScale, Operation.Verifies, BroadcastsTo, productRows, productCols]
  have fused : outputScalesFusion deepScale 6 =
      some [(6, .scaledMatmul 0 1 3 4 ⟨false, false, true, 0⟩)] := by decide
  have verified := (keeps deepScale 6 _ valid fused).verified _ List.mem_cons_self
  have ranks := congrArg List.length verified
  exact absurd ranks (by decide)

end Libtt.DecodeFusions

import Libtt.DecodeFusions.NormsCorrect
import Mathlib.Data.Sym.Sym2

/-!
# The fusion of output scales

What the fused operation multiplies is what the two multiplications did, with the scale of an
element's column.
-/
namespace Libtt.DecodeFusions

open Libtt.Foundation Libtt.StableHlo

/-- A multiplication of two factors, either way round. -/
def IsProduct (program : Program) (value first second : Nat) : Prop :=
  program.definingOp value = some (.multiply first second true) ∨
    program.definingOp value = some (.multiply second first true)

namespace IsProduct

variable {program : Program} {value first second : Nat} (isProduct : IsProduct program value first second)
include isProduct

theorem defined : ∃ op, program.definingOp value = some op ∧ isMultiply op = true ∧
    first ∈ op.operands ∧ second ∈ op.operands ∧
    (op.operands.count first = 1 → first ≠ second) := by
  rcases isProduct with defined | defined
  · refine ⟨_, defined, rfl, ?_, ?_, ?_⟩ <;>
      simp +contextual [List.count_cons]
    intro once same
    simp [same] at once
  · refine ⟨_, defined, rfl, ?_, ?_, ?_⟩ <;>
      simp +contextual [List.count_cons]
    intro once same
    simp [same] at once

variable (valid : program.Valid)
include valid

theorem broadcasts : BroadcastsTo (program.type first).shape (program.type value).shape ∧
    BroadcastsTo (program.type second).shape (program.type value).shape := by
  rcases isProduct with defined | defined
  · have verified := valid.verifies defined
    exact ⟨verified first (by simp), verified second (by simp)⟩
  · have verified := valid.verifies defined
    exact ⟨verified first (by simp), verified second (by simp)⟩

theorem run_eq {E : Type} (arith : Arithmetic E) (args : Nat → Nat → E) {number : Nat}
    (less : number < size program.type value) :
    program.values arith args value number =
      arith.cast .f32 (program.type value).element (arith.mul
        (operandAt arith program.type (program.values arith args) value first number)
        (operandAt arith program.type (program.values arith args) value second number)) := by
  rcases isProduct with defined | defined
  · rw [valid.run_eq arith args defined less]
    simp only [Operation.evalAt, if_true]
  · rw [valid.run_eq arith args defined less]
    simp only [Operation.evalAt, if_true]
    rw [arith.mul_comm]

end IsProduct

/-- All elements of a value are the same, whatever the program runs on. -/
def Uniform (program : Program) (value : Nat) : Prop :=
  ∀ {E : Type} (arithmetic : Arithmetic E) (arguments : Nat → Nat → E),
    ∀ number < size program.type value, program.values arithmetic arguments value number =
      program.values arithmetic arguments value 0

section Matches

variable (program : Program) (outer : Nat)

section

variable {program : Program} {isKind : Operation → Bool} {lhs rhs first second : Nat}
  (found : factorOf program isKind lhs rhs = some (first, second))
include found

theorem factorOf_some :
    lhs = first ∧ rhs = second ∨ lhs = second ∧ rhs = first := by
  unfold factorOf at found
  split at found
  · exact .inl (Prod.mk.inj (Option.some.inj found))
  · split at found
    · exact .inr (Prod.mk.inj (Option.some.inj found)).symm
    · contradiction

theorem isProduct_of_factorOf {value : Nat}
    (defined : program.definingOp value = some (.multiply lhs rhs true)) :
    IsProduct program value first second := by
  rcases factorOf_some found with ⟨rfl, rfl⟩ | ⟨rfl, rfl⟩
  · exact .inl defined
  · exact .inr defined

end

/-- The operations are those that the pattern looks for. -/
structure ScalesMatch.Matches (found : ScalesMatch) : Prop where
  isOuter : IsProduct program outer found.inner found.colScale
  isInner : IsProduct program found.inner found.matmul found.rowScale
  isMatmul : program.definingOp found.matmul = some (.matmul found.a found.b found.attributes)
  innerOnce : program.hasOneUse found.inner = true
  matmulOnce : program.hasOneUse found.matmul = true

theorem scalesMatch_some {found : ScalesMatch} (isFound : scalesMatch program outer = some found) :
    found.Matches program outer := by
  unfold scalesMatch at isFound
  split at isFound
  · next outerLhs outerRhs outerPlain isOuter =>
    split at isFound
    · next inner colScale isFactor =>
      split at isFound
      · next innerLhs innerRhs innerPlain isInner =>
        split at isFound
        · contradiction
        · next plain =>
          split at isFound
          · next matmul rowScale isFactorOfInner =>
            split at isFound
            · next a b attributes isMatmul =>
              split at isFound
              · contradiction
              · next once =>
                obtain rfl := Option.some.inj isFound
                simp only [not_or, Bool.not_eq_false] at plain once
                obtain ⟨rfl, rfl, innerOnce⟩ := plain
                exact ⟨isProduct_of_factorOf isFactor isOuter,
                  isProduct_of_factorOf isFactorOfInner isInner, isMatmul, innerOnce, once.1⟩
            · contradiction
          · contradiction
      · contradiction
    · contradiction
  · contradiction

theorem colReshape_some {colScale cols input : Nat}
    (found : colReshape program colScale cols = some input) :
    program.definingOp colScale = some (.reshape input) ∧ (program.type input).shape = [cols, 1] := by
  unfold colReshape at found
  split at found
  · next value isReshape =>
    split at found
    · next shape =>
      obtain rfl := Option.some.inj found
      exact ⟨isReshape, shape⟩
    · contradiction
  · contradiction

/-- The shape of the product. -/
def ScalesMatch.productShape (found : ScalesMatch) : List Nat := (program.type found.matmul).shape

/-- The column scale before a reshape. -/
def ScalesMatch.reshaped (found : ScalesMatch) : Option Nat :=
  colReshape program found.colScale ((found.productShape program).getD 1 0)

/-- The column scale that is used. -/
def ScalesMatch.usedScale (found : ScalesMatch) : Nat := (found.reshaped program).getD found.colScale

def ScalesMatch.fused (found : ScalesMatch) : Operation :=
  .scaledMatmul found.a found.b found.rowScale (found.usedScale program) found.attributes

/-- The operations that are erased. -/
def ScalesMatch.erased (found : ScalesMatch) (value : Nat) : Bool :=
  value == found.inner || value == found.matmul ||
    ((found.reshaped program).isSome && program.hasOneUse found.colScale && value == found.colScale)

/-- The types that the pattern has checked. -/
structure ScalesMatch.Fits (found : ScalesMatch) (rows cols : Nat) : Prop where
  product : found.productShape program = [rows, cols]
  matmulF32 : (program.type found.matmul).element = .f32
  innerF32 : (program.type found.inner).element = .f32
  rowF32 : (program.type found.rowScale).element = .f32
  colF32 : (program.type found.colScale).element = .f32
  row : (program.type found.rowScale).shape = [rows, 1]
  column : (found.reshaped program).isSome = true ∨
    size program.type (found.usedScale program) = 1 ∨
      (program.type (found.usedScale program)).shape = [1, cols]

theorem outputScalesFusion_some {result : List Definition}
    (fused : outputScalesFusion program outer = some result) :
    ∃ (found : ScalesMatch) (rows cols : Nat), scalesMatch program outer = some found ∧
      found.Matches program outer ∧ found.Fits program rows cols ∧
      result = program.replaced outer [(outer, found.fused program)] (found.erased program) := by
  obtain ⟨found, isFound, isResult⟩ := Option.bind_eq_some_iff.mp fused
  split at isResult
  · contradiction
  · next types =>
    simp only [scalesFit, Bool.not_eq_false, Bool.and_eq_true, Bool.or_eq_true, beq_iff_eq,
      decide_eq_true_eq] at types
    obtain ⟨⟨⟨⟨⟨⟨⟨⟨⟨⟨-, -⟩, rank⟩, matmulF32⟩, innerF32⟩, rowF32⟩, colF32⟩, -⟩, row⟩, column⟩, -⟩ := types
    match shape : (program.type found.matmul).shape with
    | [rows, cols] =>
      refine ⟨found, rows, cols, isFound, scalesMatch_some program outer isFound, ?_, ?_⟩
      · rw [shape] at row column
        refine ⟨shape, matmulF32, innerF32, rowF32, colF32, row, ?_⟩
        simp only [ScalesMatch.usedScale, ScalesMatch.reshaped, ScalesMatch.productShape, shape]
        exact or_assoc.mp column
      · exact (Option.some.inj isResult).symm
    | [] | [_] | _ :: _ :: _ :: _ => simp [shape] at rank

end Matches

namespace ScalesMatch

variable {program : Program} {outer : Nat} {found : ScalesMatch}

section Place

variable (isMatch : found.Matches program outer)
include isMatch

/-- What another operation uses is not erased. -/
theorem Matches.kept {user : Nat} {op : Operation} (defined : program.definingOp user = some op)
    {operand : Nat} (isOperand : operand ∈ op.operands) (notOuter : user ≠ outer)
    (notInner : user ≠ found.inner) : found.erased program operand = false := by
  obtain ⟨outerOp, isOuter, -, ofInner, ofScale, -⟩ := isMatch.isOuter.defined
  obtain ⟨innerOp, isInner, -, ofMatmul, -, -⟩ := isMatch.isInner.defined
  have member := Program.mem_of_definingOp defined
  -- An operation with one use has no other user.
  have only {value owner : Nat} {ownerOp : Operation} (once : program.hasOneUse value = true)
      (isOwner : program.definingOp owner = some ownerOp) (uses : value ∈ ownerOp.operands)
      (other : user ≠ owner) : operand ≠ value := by
    rintro rfl
    have same := (Program.eq_of_hasOneUse once (Program.mem_of_definingOp isOwner) uses).2 _ member
      isOperand
    exact other (congrArg Prod.fst same)
  have notInnerValue := only isMatch.innerOnce isOuter ofInner notOuter
  have notMatmul := only isMatch.matmulOnce isInner ofMatmul notInner
  by_cases once : program.hasOneUse found.colScale = true
  · have notScale := only once isOuter ofScale notOuter
    simp [erased, notInnerValue, notMatmul, notScale]
  · simp [erased, notInnerValue, notMatmul, once]

variable (valid : program.Valid)
include valid

theorem Matches.order : program.Earlier found.matmul found.inner ∧
    program.Earlier found.inner outer ∧ program.Earlier found.rowScale found.inner ∧
    program.Earlier found.colScale outer := by
  obtain ⟨outerOp, isOuter, -, ofInner, ofScale, -⟩ := isMatch.isOuter.defined
  obtain ⟨innerOp, isInner, -, ofMatmul, ofRow, -⟩ := isMatch.isInner.defined
  exact ⟨valid.earlier_input isInner ofMatmul, valid.earlier_input isOuter ofInner,
    valid.earlier_input isInner ofRow, valid.earlier_input isOuter ofScale⟩

theorem Matches.factors_kept : found.erased program found.a = false ∧
    found.erased program found.b = false ∧ found.erased program found.rowScale = false ∧
    found.erased program (found.usedScale program) = false := by
  obtain ⟨outerOp, isOuter, outerKind, ofInner, ofScale, innerOther⟩ := isMatch.isOuter.defined
  obtain ⟨innerOp, isInner, innerKind, ofMatmul, ofRow, matmulOther⟩ := isMatch.isInner.defined
  obtain ⟨matmulEarlier, innerEarlier, rowEarlier, scaleEarlier⟩ := isMatch.order valid
  have innerIsOuter := Program.eq_of_hasOneUse isMatch.innerOnce (Program.mem_of_definingOp isOuter)
    ofInner
  have matmulIsInner := Program.eq_of_hasOneUse isMatch.matmulOnce
    (Program.mem_of_definingOp isInner) ofMatmul
  have otherKind {value : Nat} {op : Operation} (defined : program.definingOp value = some op)
      (other : isMultiply op = false) : value ≠ outer ∧ value ≠ found.inner := by
    constructor
    · rintro rfl
      obtain rfl := Option.some.inj (isOuter.symm.trans defined)
      rw [outerKind] at other
      contradiction
    · rintro rfl
      obtain rfl := Option.some.inj (isInner.symm.trans defined)
      rw [innerKind] at other
      contradiction
  obtain ⟨matmulNotOuter, matmulNotInner⟩ := otherKind isMatch.isMatmul rfl
  have notOuter : found.inner ≠ outer := valid.ne_of_earlier isOuter innerEarlier
  refine ⟨?_, ?_, ?_, ?_⟩
  · exact isMatch.kept isMatch.isMatmul (by simp) matmulNotOuter matmulNotInner
  · exact isMatch.kept isMatch.isMatmul (by simp) matmulNotOuter matmulNotInner
  · have notInner : found.rowScale ≠ found.inner := valid.ne_of_earlier isInner rowEarlier
    have notMatmul : found.rowScale ≠ found.matmul := (matmulOther matmulIsInner.1).symm
    by_cases once : program.hasOneUse found.colScale = true
    · have notScale : found.rowScale ≠ found.colScale := by
        intro same
        have isOnly := (Program.eq_of_hasOneUse once (Program.mem_of_definingOp isOuter) ofScale).2 _
          (Program.mem_of_definingOp isInner) (same ▸ ofRow)
        exact notOuter (congrArg Prod.fst isOnly)
      simp [erased, notInner, notMatmul, notScale]
    · simp [erased, notInner, notMatmul, once]
  · cases isReshape : found.reshaped program with
    | none =>
      have notInner : found.colScale ≠ found.inner := (innerOther innerIsOuter.1).symm
      have notMatmul : found.colScale ≠ found.matmul := by
        intro same
        have isOnly := matmulIsInner.2 _ (Program.mem_of_definingOp isOuter) (same ▸ ofScale)
        exact notOuter (congrArg Prod.fst isOnly).symm
      simp [usedScale, isReshape, erased, notInner, notMatmul]
    | some input =>
      have defined := (colReshape_some program isReshape).1
      obtain ⟨reshapeNotOuter, reshapeNotInner⟩ := otherKind defined rfl
      rw [usedScale, isReshape, Option.getD_some]
      exact isMatch.kept defined (by simp) reshapeNotOuter reshapeNotInner

theorem Matches.replacement : ∃ op, Replacement program (outer, op) [(outer, found.fused program)]
    (found.erased program) := by
  obtain ⟨outerOp, isOuter, -, ofInner, ofScale, -⟩ := isMatch.isOuter.defined
  obtain ⟨innerOp, isInner, -⟩ := isMatch.isInner.defined
  obtain ⟨matmulEarlier, innerEarlier, rowEarlier, scaleEarlier⟩ := isMatch.order valid
  obtain ⟨aKept, bKept, rowKept, scaleKept⟩ := isMatch.factors_kept valid
  refine ⟨outerOp, valid, Program.mem_of_definingOp isOuter, by simp, by simp, by simp, ?_, ?_⟩
  · have ofMatmul {operand : Nat} (isOperand : operand ∈
        (Operation.matmul found.a found.b found.attributes).operands) :
        program.Earlier operand outer := by
      have atMatmul := valid.earlier_input isMatch.isMatmul isOperand
      exact valid.earlier_trans isInner (valid.earlier_trans isMatch.isMatmul atMatmul matmulEarlier)
        innerEarlier
    have usedEarlier : program.Earlier (found.usedScale program) outer := by
      cases isReshape : found.reshaped program with
      | none => simpa [usedScale, isReshape] using scaleEarlier
      | some input =>
        have defined := (colReshape_some program isReshape).1
        have inputEarlier : program.Earlier input found.colScale :=
          valid.earlier_input defined (by simp)
        simpa [usedScale, isReshape] using valid.earlier_trans defined inputEarlier scaleEarlier
    intro definition isCreated operand isOperand
    obtain rfl := List.mem_singleton.mp isCreated
    simp only [fused, Operation.operands, Operation.inputs, Operation.captured, List.append_nil,
      List.mem_cons, List.not_mem_nil, or_false] at isOperand
    rcases isOperand with rfl | rfl | rfl | rfl
    · exact ⟨aKept, ofMatmul (by simp)⟩
    · exact ⟨bKept, ofMatmul (by simp)⟩
    · exact ⟨rowKept, valid.earlier_trans isInner rowEarlier innerEarlier⟩
    · exact ⟨scaleKept, usedEarlier⟩
  · intro definition member notErased notRoot operand isOperand isErased
    have defined := valid.definingOp_eq member
    have notOuter : definition.1 ≠ outer := fun same =>
      notRoot (valid.ordered.eq_of_id member (Program.mem_of_definingOp isOuter) same)
    have notInner : definition.1 ≠ found.inner := by
      intro same
      simp [erased, same] at notErased
    rw [isMatch.kept defined isOperand notOuter notInner] at isErased
    contradiction

end Place

section Values

variable {rows cols : Nat} (isMatch : found.Matches program outer)
  (fits : found.Fits program rows cols) (valid : program.Valid)
include isMatch fits valid

omit isMatch in
theorem Matches.productSizes (isMatch : found.Matches program outer) :
    productRows program.type found.a found.attributes = rows ∧
      productCols program.type found.b found.attributes = cols := by
  have verified := valid.verifies isMatch.isMatmul
  have shape : (program.type found.matmul).shape = [rows, cols] := fits.product
  have sizes := verified (by rw [shape]; rfl)
  rw [shape] at sizes
  simp only [List.cons.injEq, and_true] at sizes
  exact ⟨sizes.1.symm, sizes.2.symm⟩

/-- The factor of the scales has the product's shape where the result does. -/
theorem Matches.innerShape (shape : (program.type outer).shape = [rows, cols]) :
    (program.type found.inner).shape = [rows, cols] := by
  have toOuter := (isMatch.isOuter.broadcasts valid).1
  have ofMatmul := (isMatch.isInner.broadcasts valid).1
  have product : (program.type found.matmul).shape = [rows, cols] := fits.product
  rw [shape] at toOuter
  rw [product] at ofMatmul
  obtain ⟨long, sizes⟩ := ofMatmul
  rcases toOuter.shape_cases with empty | ⟨size, isSize, -⟩ | ⟨first, second, isPair, ofRows, ofCols⟩
  · simp [empty] at long
  · simp [isSize] at long
  · rw [isPair] at sizes ⊢
    simp only [List.length_cons, List.length_nil, Nat.sub_self, List.drop_zero,
      List.forall₂_cons, List.forall₂_nil_right_iff, and_true] at sizes
    have isRows : first = rows := by omega
    have isCols : second = cols := by omega
    rw [isRows, isCols]

/-- An element of the result, with the column scale that the multiplication uses. -/
theorem Matches.run_outer (shape : (program.type outer).shape = [rows, cols]) {E : Type}
    (arith : Arithmetic E) (args : Nat → Nat → E) {number : Nat}
    (less : number < rows * cols) :
    program.values arith args outer number =
      arith.cast .f32 (program.type outer).element (arith.mul
        (arith.mul (arith.product (program.values arith args found.a)
            (program.values arith args found.b) found.attributes (number / cols)
            (number % cols))
          (widened arith program.type (program.values arith args) found.rowScale (number / cols)))
        (operandAt arith program.type (program.values arith args) outer found.colScale
          number)) := by
  have innerShape := isMatch.innerShape fits valid shape
  have product : (program.type found.matmul).shape = [rows, cols] := fits.product
  have outerLess : number < size program.type outer := by simpa [size, shape] using less
  have innerLess : number < size program.type found.inner := by simpa [size, innerShape] using less
  have matmulLess : number < size program.type found.matmul := by simpa [size, product] using less
  have ofProduct : operandAt arith program.type (program.values arith args)
      found.inner found.matmul number =
      arith.product (program.values arith args found.a)
        (program.values arith args found.b) found.attributes (number / cols)
        (number % cols) := by
    rw [operandAt_of_shape _ _ _ (product.trans innerShape.symm) innerLess,
      widened_of_f32 _ _ _ fits.matmulF32, valid.run_eq arith args isMatch.isMatmul matmulLess]
    simp only [Operation.evalAt, (isMatch.productSizes fits valid).2, fits.matmulF32,
      arith.cast_self]
  have ofRow : operandAt arith program.type (program.values arith args)
      found.inner found.rowScale number =
      widened arith program.type (program.values arith args) found.rowScale (number / cols) := by
    rw [operandAt, fits.row, innerShape, broadcastPlace_column less]
  rw [isMatch.isOuter.run_eq valid arith args outerLess,
    operandAt_of_shape _ _ _ (innerShape.trans shape.symm) outerLess,
    widened_of_f32 _ _ _ fits.innerF32, isMatch.isInner.run_eq valid arith args innerLess,
    ofProduct, ofRow, fits.innerF32, arith.cast_self]

/-- The place in the used column scale. -/
def scalePlace (program : Program) (found : ScalesMatch) (cols number : Nat) : Nat :=
  if size program.type (found.usedScale program) = 1 then 0 else number % cols

/-- An element of the fused operation's result. -/
theorem Matches.fused_at {E : Type} (arith : Arithmetic E) (values : Nat → Nat → E)
    (number : Nat) : (found.fused program).evalAt arith program.type values outer number =
      arith.cast .f32 (program.type outer).element (arith.mul
        (arith.mul (arith.product (values found.a) (values found.b) found.attributes
            (number / cols) (number % cols))
          (widened arith program.type values found.rowScale (number / cols)))
        (widened arith program.type values (found.usedScale program)
          (found.scalePlace program cols number))) := by
  simp only [fused, Operation.evalAt, (isMatch.productSizes fits valid).2, scalePlace]

/-- Where the column scales are the same, the fused operation returns the result. -/
theorem Matches.sound (shape : (program.type outer).shape = [rows, cols]) {E : Type}
    (arith : Arithmetic E) (args : Nat → Nat → E)
    (columns : ∀ number < rows * cols, operandAt arith program.type
        (program.values arith args) outer found.colScale number =
      widened arith program.type (program.values arith args) (found.usedScale program)
        (found.scalePlace program cols number)) :
    program.values arith args outer =
      (found.fused program).eval arith program.type (program.values arith args)
        outer := by
  obtain ⟨op, isOuter, -⟩ := isMatch.isOuter.defined
  have holds := valid.run_holds arith args (Program.mem_of_definingOp isOuter)
  rw [holds, Operation.eval, Operation.eval]
  apply upTo_congr
  intro number outerLess
  have less : number < rows * cols := by simpa [size, shape] using outerLess
  rw [← valid.run_eq arith args isOuter outerLess,
    isMatch.run_outer fits valid shape arith args less,
    isMatch.fused_at fits valid, columns number less]

end Values

section Columns

variable {rows cols : Nat} (isMatch : found.Matches program outer)
  (fits : found.Fits program rows cols) (valid : program.Valid)
  (shape : (program.type outer).shape = [rows, cols])
include isMatch fits valid shape

/-- A reshaped column scale. -/
theorem Matches.reshaped_at {input : Nat} (isReshape : found.reshaped program = some input)
    {number : Nat} (less : number < rows * cols) {E : Type} (arith : Arithmetic E)
    (args : Nat → Nat → E) :
    size program.type input = cols ∧ size program.type found.colScale = cols ∧
      broadcastPlace (program.type found.colScale).shape [rows, cols] number < cols ∧
      operandAt arith program.type (program.values arith args) outer found.colScale
          number =
        program.values arith args input
          (broadcastPlace (program.type found.colScale).shape [rows, cols] number) ∧
      ∀ place, widened arith program.type (program.values arith args) input place =
        program.values arith args input place := by
  obtain ⟨defined, inputShape⟩ := colReshape_some program isReshape
  have product : (program.type found.matmul).shape = [rows, cols] := fits.product
  obtain ⟨element, sizes⟩ := valid.verifies defined
  have inputSize : size program.type input = cols := by
    rw [size, inputShape, productShape, product]
    simp
  have scaleSize : size program.type found.colScale = cols := sizes ▸ inputSize
  have broadcasts := (isMatch.isOuter.broadcasts valid).2
  rw [shape] at broadcasts
  have placeLess := broadcastPlace_lt broadcasts (by simpa using less : number < _)
  refine ⟨inputSize, scaleSize, scaleSize ▸ placeLess, ?_, ?_⟩
  · rw [operandAt, widened_of_f32 _ _ _ fits.colF32, shape,
      valid.run_eq arith args defined placeLess]
    rfl
  · intro place
    exact widened_of_f32 _ _ _ (element.trans fits.colF32) place

/-- The used column scale is that of the multiplication. -/
theorem Matches.columns (even : ∀ input, found.reshaped program = some input →
      (program.type found.colScale).shape.getLast? = some cols ∨ Uniform program input)
    {number : Nat} (less : number < rows * cols) {E : Type} (arith : Arithmetic E)
    (args : Nat → Nat → E) :
    operandAt arith program.type (program.values arith args) outer found.colScale
        number =
      widened arith program.type (program.values arith args) (found.usedScale program)
        (found.scalePlace program cols number) := by
  have broadcasts := (isMatch.isOuter.broadcasts valid).2
  rw [shape] at broadcasts
  cases isReshape : found.reshaped program with
  | none =>
    have isUsed : found.usedScale program = found.colScale := by simp [usedScale, isReshape]
    rcases fits.column with isSome | one | isRow
    · simp [isReshape] at isSome
    · have place := broadcastPlace_lt broadcasts (by simpa using less : number < _)
      rw [isUsed] at one
      have zero : broadcastPlace (program.type found.colScale).shape [rows, cols] number = 0 := by
        rw [size] at one
        omega
      rw [operandAt, shape, zero, isUsed, scalePlace, isUsed, if_pos one]
    · rw [isUsed] at isRow
      rw [operandAt, shape, isRow, broadcastPlace_row (Nat.one_mul cols) less, isUsed, scalePlace,
        isUsed, size, isRow]
      split
      · next one =>
        have isOne : cols = 1 := by simpa using one
        rw [isOne, Nat.mod_one]
      · rfl
  | some input =>
    have isUsed : found.usedScale program = input := by simp [usedScale, isReshape]
    obtain ⟨inputSize, scaleSize, placeLess, atOperand, atInput⟩ :=
      isMatch.reshaped_at fits valid shape isReshape less arith args
    have positive : 0 < cols := Nat.zero_lt_of_lt placeLess
    have usedLess : found.scalePlace program cols number < cols := by
      unfold scalePlace
      split
      · exact positive
      · exact Nat.mod_lt _ positive
    rw [atOperand, isUsed, atInput]
    rcases even input isReshape with last | uniform
    · have same : broadcastPlace (program.type found.colScale).shape [rows, cols] number =
          number % cols := by
        rcases broadcasts.shape_cases with empty | ⟨single, isSingle, -⟩ | ⟨first, second, isPair, -, -⟩
        · simp [empty] at last
        · rw [isSingle] at last ⊢
          obtain rfl : single = cols := by simpa using last
          rw [broadcastPlace_single]
          split
          · next one => rw [one, Nat.mod_one]
          · rfl
        · rw [isPair] at last ⊢
          obtain rfl : second = cols := by simpa using last
          rw [size, isPair] at scaleSize
          exact broadcastPlace_row (by simpa using scaleSize) less
      have usedPlace : found.scalePlace program cols number = number % cols := by
        rw [scalePlace, isUsed, inputSize]
        split
        · next one => rw [one, Nat.mod_one]
        · rfl
      rw [same, usedPlace]
    · have first := uniform arith args _ (placeLess.trans_eq inputSize.symm)
      have second := uniform arith args _ (usedLess.trans_eq inputSize.symm)
      exact first.trans second.symm

/-- Where a reshaped column scale that is no row is used right, its elements are the same. -/
theorem Matches.uniform {input : Nat} (isReshape : found.reshaped program = some input)
    (notRow : (program.type found.colScale).shape.getLast? ≠ some cols)
    (columns : ∀ {E : Type} (arith : Arithmetic E) (args : Nat → Nat → E),
      ∀ number < rows * cols, operandAt arith program.type (program.values arith args)
          outer found.colScale number =
        widened arith program.type (program.values arith args)
          (found.usedScale program) (found.scalePlace program cols number)) :
    Uniform program input := by
  have isUsed : found.usedScale program = input := by simp [usedScale, isReshape]
  have broadcasts := (isMatch.isOuter.broadcasts valid).2
  rw [shape] at broadcasts
  obtain ⟨defined, inputShape⟩ := colReshape_some program isReshape
  have product : (program.type found.matmul).shape = [rows, cols] := fits.product
  have inputSize : size program.type input = cols := by
    rw [size, inputShape, productShape, product]
    simp
  have scaleSize : (program.type found.colScale).shape.prod = cols :=
    (valid.verifies defined).2.symm.trans inputSize
  intro E arith args number less
  rw [inputSize] at less
  by_cases one : cols = 1
  · obtain rfl : number = 0 := by omega
    rfl
  rcases broadcasts.shape_cases with empty | ⟨single, isSingle, -⟩ |
    ⟨first, second, isPair, ofRows, ofCols⟩
  · simp [empty] at scaleSize
    omega
  · simp [isSingle] at scaleSize notRow
    exact absurd scaleSize notRow
  · rw [isPair] at scaleSize notRow
    simp only [List.getLast?_cons_cons, List.getLast?_singleton, ne_eq, Option.some.injEq] at notRow
    obtain rfl : second = 1 := ofCols.resolve_right notRow
    obtain rfl : first = cols := by simpa using scaleSize
    obtain rfl : first = rows := ofRows.resolve_left one
    have place : number * first < first * first := Nat.mul_lt_mul_of_pos_right less (by omega)
    obtain ⟨-, -, -, atOperand, atInput⟩ :=
      isMatch.reshaped_at fits valid shape isReshape place arith args
    have same := columns arith args _ place
    rw [atOperand, isUsed, atInput, isPair, broadcastPlace_column place, scalePlace, isUsed,
      inputSize, if_neg one, Nat.mul_div_cancel _ (by omega), Nat.mul_mod_left] at same
    exact same

end Columns

end ScalesMatch

section Recording

variable {E : Type}

/-- The functions of others, on elements that tell the factors of a product. -/
def recording (arithmetic : Arithmetic E) : Arithmetic (E × Option (Sym2 E)) where
  literal type value := (arithmetic.literal type value, none)
  cast source target element := (arithmetic.cast source target element.1, element.2)
  add first second := (arithmetic.add first.1 second.1, none)
  mul first second := (arithmetic.mul first.1 second.1, some s(first.1, second.1))
  activated first second number :=
    (arithmetic.activated (fun at_ => (first at_).1) (fun at_ => (second at_).1) number, none)
  norm row weight bias epsilon number := (arithmetic.norm (fun at_ => (row at_).1)
    (weight.map fun elements at_ => (elements at_).1) (bias.map fun elements at_ => (elements at_).1)
    epsilon number, none)
  quantize row float8Type minScale isScale number :=
    (arithmetic.quantize (fun at_ => (row at_).1) float8Type minScale isScale number, none)
  product first second attributes row column := (arithmetic.product (fun at_ => (first at_).1)
    (fun at_ => (second at_).1) attributes row column, none)
  other name inputs number :=
    (arithmetic.other name (inputs.map fun elements at_ => (elements at_).1) number, none)
  cast_self type element := by rw [arithmetic.cast_self]
  cast_literal source target value isSource isTarget := by
    rw [arithmetic.cast_literal source target value isSource isTarget]
  add_comm first second := by rw [arithmetic.add_comm]
  mul_comm first second := by rw [arithmetic.mul_comm, Sym2.eq_swap]

variable (arith : Arithmetic E) (type : Nat → TensorType) (values : Nat → Nat → E × Option (Sym2 E))

theorem recording_upTo (count : Nat) (element : Nat → E × Option (Sym2 E)) :
    (fun number => (upTo (recording arith) count element number).1) =
      upTo arith count fun number => (element number).1 := by
  funext number
  unfold upTo
  split <;> rfl

theorem recording_normAt (input : Nat) (contents : Nat → E × Option (Sym2 E))
    (weight bias : Option (Nat → E × Option (Sym2 E))) (epsilon : Literal) (number : Nat) :
    (normAt (recording arith) type input contents weight bias epsilon number).1 =
      normAt arith type input (fun number => (contents number).1)
        (weight.map fun elements number => (elements number).1)
        (bias.map fun elements number => (elements number).1) epsilon number := rfl

theorem recording_outputAt (operands : NormOperands) (number : Nat) :
    (operands.outputAt (recording arith) type values number).1 =
      operands.outputAt arith type (fun value number => (values value number).1) number := by
  have weights : (fun column => (operands.weightAt (recording arith) type values column).1) =
      operands.weightAt arith type fun value number => (values value number).1 := by
    funext column
    unfold NormOperands.weightAt
    split <;> rfl
  rw [NormOperands.outputAt, recording_normAt, recording_upTo, Option.map_some, recording_upTo, weights]
  rfl

theorem recording_eval (result : Nat) (op : Operation) :
    (fun number => (op.eval (recording arith) type values result number).1) =
      op.eval arith type (fun value number => (values value number).1) result := by
  unfold Operation.eval
  rw [recording_upTo]
  congr 1
  funext number
  cases op with
  | constant value => rfl
  | add lhs rhs => rfl
  | multiply lhs rhs plain => cases plain <;> rfl
  | typecast input | reshape input | broadcast input | quantizeRows isScale input float8Type minScale => rfl
  | rmsNorm input weight bias epsilon normalizedShape =>
    have parameters (parameter : Option Nat) : ((parameter.map fun value =>
          upTo (recording arith) (size type value)
            (widened (recording arith) type values value)).map
          fun elements number => (elements number).1) =
        parameter.map fun value => upTo arith (size type value)
          (widened arith type (fun value number => (values value number).1) value) := by
      cases parameter with
      | none => rfl
      | some value => exact congrArg some (recording_upTo arith _ _)
    rw [Operation.evalAt, recording_normAt, parameters, parameters]
    rfl
  | rmsNormResidual norm operands =>
    cases norm with
    | output => exact recording_outputAt arith type values operands number
    | sum => rfl
    | codes | scale =>
      have outputs := recording_upTo arith (size type operands.input)
        (operands.outputAt (recording arith) type values)
      rw [funext (recording_outputAt arith type values operands)] at outputs
      have quantized (isScale : Bool) :
          (operands.quantizedAt (recording arith) type values isScale number).1 =
            operands.quantizedAt arith type (fun value number => (values value number).1) isScale
              number := by
        unfold NormOperands.quantizedAt
        rw [← outputs]
        rfl
      exact quantized _
  | matmul a b attributes => rfl
  | scaledMatmul a b rowScale colScale attributes => rfl
  | other name inputs captured =>
    simp [Operation.evalAt, recording, Function.comp_def]

/-- A run with recorded factors has the same elements. -/
theorem recording_values {program : Program} (valid : program.Valid) (args : Nat → Nat → E)
    (value number : Nat) :
    (program.values (recording arith) (fun value number => (args value number, none)) value
      number).1 = program.values arith args value number := by
  have recorded := solves_run (Operation.eval_depends (recording arith) program.type) valid.ordered
    fun value number => (args value number, none)
  have solves : Solves (Operation.eval arith program.type) program.definitions args
      fun value number => (program.values (recording arith)
        (fun value number => (args value number, none)) value number).1 := by
    constructor
    · intro definition member
      rw [← recording_eval]
      funext number
      exact congrArg (fun contents => (contents number).1) (recorded.holds definition member)
    · intro id undefined
      funext number
      exact congrArg (fun contents => (contents number).1) (recorded.others id undefined)
  have same := solves.unique (Operation.eval_depends arith program.type) valid.ordered
    (solves_run (Operation.eval_depends arith program.type) valid.ordered args)
  exact congrFun (congrFun same value) number

end Recording

/-- The result has the product's shape, and a column scale is a row or the same everywhere. -/
def ScalesFit (program : Program) (outer : Nat) : Prop :=
  ∀ found, scalesMatch program outer = some found →
    (program.type outer).shape = (program.type found.matmul).shape ∧
      ∀ input, colReshape program found.colScale ((program.type found.matmul).shape.getD 1 0) =
          some input →
        (program.type found.colScale).shape.getLast? =
            some ((program.type found.matmul).shape.getD 1 0) ∨
          Uniform program input

/-- The fusion of output scales keeps the program where it fits. -/
theorem outputScalesFusion_keeps_iff {program : Program} {outer : Nat} (valid : program.Valid)
    {result : List Definition} (fused : outputScalesFusion program outer = some result) :
    Keeps program result ↔ ScalesFit program outer := by
  obtain ⟨found, rows, cols, isFound, isMatch, fits, rfl⟩ := outputScalesFusion_some program outer fused
  have product : (program.type found.matmul).shape = [rows, cols] := fits.product
  obtain ⟨isRows, isCols⟩ := isMatch.productSizes fits valid
  obtain ⟨op, replacement⟩ := isMatch.replacement valid
  have scalesFit_iff : ScalesFit program outer ↔ (program.type outer).shape = [rows, cols] ∧
      ∀ input, found.reshaped program = some input →
        (program.type found.colScale).shape.getLast? = some cols ∨ Uniform program input := by
    unfold ScalesFit
    rw [isFound]
    simp only [Option.some.injEq, forall_eq', ScalesMatch.reshaped, ScalesMatch.productShape, product,
      List.getD_cons_succ, List.getD_cons_zero]
  rw [scalesFit_iff]
  constructor
  · intro keeps
    have shape : (program.type outer).shape = [rows, cols] := by
      have member : (outer, found.fused program) ∈
          program.replaced outer [(outer, found.fused program)] (found.erased program) := by
        simp [Program.replaced, rebuilt]
      have verified := keeps.verified _ member
      simp only [ScalesMatch.fused, Operation.Verifies, isRows, isCols] at verified
      exact verified
    refine ⟨shape, fun input isReshape => ?_⟩
    by_contra neither
    obtain ⟨notRow, notUniform⟩ := not_or.mp neither
    apply notUniform
    apply isMatch.uniform fits valid shape isReshape notRow
    intro E arith args number less
    -- The factors are recorded, and so they are the same where the results are.
    have sound := replacement.sound_of_keeps keeps (recording arith)
      (fun value number => (args value number, none)) _ List.mem_cons_self
    have here := congrFun sound number
    rw [isMatch.run_outer fits valid shape _ _ less, Operation.eval,
      upTo_of_lt _ (by simpa [size, shape] using less), isMatch.fused_at fits valid] at here
    have factors := Sym2.congr_right.mp (Option.some.inj (congrArg (·.2) here))
    have elements : (fun value number => (program.values (recording arith)
        (fun value number => (args value number, none)) value number).1) =
        program.values arith args :=
      funext fun value => funext (recording_values arith valid args value)
    rw [← elements]
    exact factors
  · rintro ⟨shape, even⟩
    apply replacement.keeps
    · intro definition isCreated
      obtain rfl := List.mem_singleton.mp isCreated
      simp only [ScalesMatch.fused, Operation.Verifies, isRows, isCols]
      exact shape
    · intro E arith args definition isCreated
      obtain rfl := List.mem_singleton.mp isCreated
      apply isMatch.sound fits valid shape
      intro number less
      exact isMatch.columns fits valid shape even less arith args

end Libtt.DecodeFusions

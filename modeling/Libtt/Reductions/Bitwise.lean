import Libtt.StableHlo.Block
import Libtt.StableHlo.Reduce

/-!
# Bitwise reductions

A reduce whose body is and, or or xor of its arguments runs as a reduction of 32-bit integers, of
which it keeps as many bits as its own type has.
-/
namespace Libtt.Reductions

open Libtt.StableHlo

inductive BitwiseOp where
  | and
  | or
  | xor
  deriving DecidableEq, Repr

/-- `ttir::BitwiseAndOp`, `ttir::BitwiseOrOp` and `ttir::BitwiseXorOp`. -/
def BitwiseOp.combine {width : Nat} : BitwiseOp → BitVec width → BitVec width → BitVec width
  | .and, left, right => left &&& right
  | .or, left, right => left ||| right
  | .xor, left, right => left ^^^ right

/-- All ones for and, zero for or and xor. -/
def BitwiseOp.identity (op : BitwiseOp) (width : Nat) : BitVec width :=
  if op = .and then BitVec.allOnes width else BitVec.ofNat width 0

/-- The operations that are looked for in a body. -/
inductive IntegerBodyOp where
  | bitwise (op : BitwiseOp)
  | other
  deriving DecidableEq, Repr

def IntegerBodyOp.apply {width : Nat} : IntegerBodyOp → List (BitVec width) →
    Option (BitVec width)
  | .bitwise op, [left, right] => some (op.combine left right)
  | _, _ => none

/-- An init value: a `stablehlo.constant`, or what the program computes. -/
inductive InitValue (α : Type) where
  | constant (value : α)
  | runtime (value : α)
  deriving DecidableEq, Repr

def InitValue.value {α : Type} : InitValue α → α
  | .constant value => value
  | .runtime value => value

/-- Unsigned integers of 32 bits. -/
def ui32 : IntegerType := ⟨32, false, positive32⟩

/-- Signed integers of 32 bits. -/
def si32 : IntegerType := ⟨32, true, positive32⟩

/-- `castToElementType`. A boolean is 0 or 1, and holds for what is not 0. -/
def castToElementType (source target : IntegerType) (value : source.Word) : target.Word :=
  if target.width = 1 then
    if value = BitVec.ofNat source.width 0 then BitVec.ofNat target.width 0
    else BitVec.ofNat target.width 1
  else target.constant (if source.width = 1 then (value.toNat : Int) else source.read value)

/-- `stablehlo.reduce` of integers. -/
structure IntegerReduceOp (type : IntegerType) where
  dimensions : List Nat
  body : Block IntegerBodyOp
  initValue : InitValue type.Word

namespace IntegerReduceOp

variable {type : IntegerType} (srcOp : IntegerReduceOp type)

def isBoolean (_ : IntegerReduceOp type) : Bool := type.width = 1

def hasIdentityInit (allOnes : Bool) : Bool :=
  match srcOp.initValue with
  | .constant value =>
    if allOnes then value = BitVec.allOnes type.width else value = BitVec.ofNat type.width 0
  | .runtime _ => false

/-- The bitwise reduction that a reduce is dispatched to. -/
def bitwiseReduction : Option BitwiseOp :=
  let isLogical := srcOp.isBoolean
  if !isLogical && srcOp.body.matchesBinaryReducer (.bitwise .and) then some .and
  else if !isLogical && srcOp.body.matchesBinaryReducer (.bitwise .or) then some .or
  else if srcOp.body.matchesBinaryReducer (.bitwise .xor) then some .xor
  else none

/-- The element type of the reduction. -/
def reduceElementType : IntegerType :=
  if type.width ≠ 32 then if srcOp.isBoolean || !type.signed then ui32 else si32
  else type

/-- `matchAndRewriteBitwise`. -/
def matchAndRewriteBitwise (op : BitwiseOp) (schedules : Schedules) (site : Site)
    (operand : Tensor type.Word) : Tensor type.Word :=
  let reduceElementType := srcOp.reduceElementType
  let input := operand.map (castToElementType type reduceElementType)
  let reduction : ReduceOp reduceElementType.Word :=
    ⟨srcOp.dimensions, op.combine, op.identity reduceElementType.width⟩
  let result := reduction.eval schedules site input
  let isAnd := op = .and
  let result :=
    if !srcOp.hasIdentityInit isAnd then
      let init := castToElementType type reduceElementType srcOp.initValue.value
      result.map (op.combine · init)
    else result
  result.map (castToElementType reduceElementType type)

end IntegerReduceOp

end Libtt.Reductions

/-! ## Bitwise reductions are exact in 32 bits -/
namespace Libtt.Reductions

open Libtt.Foundation Libtt.StableHlo

namespace BitwiseOp

variable (op : BitwiseOp) {width : Nat}

instance : Std.Associative (op.combine : BitVec width → BitVec width → BitVec width) where
  assoc := by
    intro first second third
    cases op
    · exact BitVec.and_assoc _ _ _
    · exact BitVec.or_assoc _ _ _
    · exact BitVec.xor_assoc _ _ _

theorem combine_comm (left right : BitVec width) :
    op.combine left right = op.combine right left := by
  cases op
  · exact BitVec.and_comm _ _
  · exact BitVec.or_comm _ _
  · exact BitVec.xor_comm _ _

instance : Std.Commutative (op.combine : BitVec width → BitVec width → BitVec width) :=
  ⟨op.combine_comm⟩

theorem combine_identity (value : BitVec width) :
    op.combine value (op.identity width) = value := by
  cases op
  · exact BitVec.and_allOnes
  · exact BitVec.or_zero
  · exact BitVec.xor_zero

instance : Std.LawfulIdentity (op.combine : BitVec width → BitVec width → BitVec width)
    (op.identity width) where
  left_id value := by rw [combine_comm, combine_identity]
  right_id := op.combine_identity

/-- A schedule on the device, and the init value after it, are the fold. -/
theorem reduces_foldl (schedules : Schedules) (site : Site) (index : List Nat)
    (init : BitVec width) (elements : List (BitVec width)) :
    op.combine (schedules.reduce site index op.combine (op.identity width) elements) init =
      elements.foldl op.combine init := by
  have reduces := schedules.reduces site index op.combine (op.identity width) elements
  rw [reduces.eq_foldr]
  exact (foldl_eq_foldr init elements).symm

end BitwiseOp

theorem computes_combine {op : BitwiseOp} {width : Nat} {block : Block IntegerBodyOp}
    (isReducer : block.matchesBinaryReducer (.bitwise op)) (outside : List (BitVec width)) :
    block.Computes IntegerBodyOp.apply outside op.combine :=
  Block.computes_of_matchesBinaryReducer isReducer (fun _ _ => rfl) op.combine_comm

/-- What a word of a type is in another one. -/
theorem constant_read (source target : IntegerType) (value : source.Word) :
    target.constant (source.read value) =
      if source.signed then value.signExtend target.width else value.setWidth target.width := by
  rw [IntegerType.constant, IntegerType.read]
  split
  · rfl
  · exact (BitVec.ofInt_natCast _ _).trans (BitVec.ofNat_toNat _ _)

/-- The operations work bit by bit, and so commute with extending and with dropping bits. -/
theorem constant_read_combine (op : BitwiseOp) (source target : IntegerType)
    (left right : source.Word) :
    target.constant (source.read (op.combine left right)) =
      op.combine (target.constant (source.read left)) (target.constant (source.read right)) := by
  simp only [constant_read]
  split
  · cases op
    · exact BitVec.signExtend_and
    · exact BitVec.signExtend_or
    · exact BitVec.signExtend_xor
  · cases op
    · exact BitVec.setWidth_and
    · exact BitVec.setWidth_or
    · exact BitVec.setWidth_xor

/-- The type of an integer on the device. -/
def deviceType (type : IntegerType) : IntegerType := ⟨32, type.signed, positive32⟩

/-- What the device keeps of an integer: the low 32 bits, extended. -/
def heldOnDevice (type : IntegerType) (value : type.Word) : type.Word :=
  type.constant ((deviceType type).read ((deviceType type).constant (type.read value)))

/-- The number is one of 32 bits. -/
def FitsDevice (type : IntegerType) (value : type.Word) : Prop :=
  (deviceType type).least ≤ type.read value ∧ type.read value ≤ (deviceType type).largest

variable {type : IntegerType}

theorem fitsDevice_of_width (narrow : type.width ≤ 32) (value : type.Word) :
    FitsDevice type value := by
  have below := type.least_le_read value
  have above := type.read_le_largest value
  have halves : 2 ^ (type.width - 1) ≤ 2 ^ 31 := Nat.pow_le_pow_right (by decide) (by omega)
  have wholes : 2 ^ type.width ≤ 2 ^ 32 := Nat.pow_le_pow_right (by decide) narrow
  have halvesInt : (2 : Int) ^ (type.width - 1) ≤ 2 ^ 31 := by exact_mod_cast halves
  rw [IntegerType.least] at below
  rw [IntegerType.largest] at above
  rw [FitsDevice, IntegerType.least, IntegerType.largest]
  cases isSigned : type.signed
  · simp only [deviceType, isSigned, Bool.false_eq_true, if_false] at below above ⊢
    omega
  · simp only [deviceType, isSigned, if_true] at below above ⊢
    omega

theorem heldOnDevice_of_fits {value : type.Word} (fits : FitsDevice type value) :
    heldOnDevice type value = value := by
  rw [heldOnDevice, IntegerType.read_constant fits.1 fits.2, IntegerType.constant_read]

theorem heldOnDevice_combine (op : BitwiseOp) (left right : type.Word) :
    heldOnDevice type (op.combine left right) =
      op.combine (heldOnDevice type left) (heldOnDevice type right) := by
  simp only [heldOnDevice, constant_read_combine]

/-- Holding the elements and the fold of them is the same. -/
theorem heldOnDevice_foldl (op : BitwiseOp) (init : type.Word) (elements : List type.Word) :
    heldOnDevice type (elements.foldl op.combine init) =
      (elements.map (heldOnDevice type)).foldl op.combine (heldOnDevice type init) := by
  rw [List.foldl_map]
  refine (List.foldl_hom (heldOnDevice type) ?_).symm
  intro value element
  exact (heldOnDevice_combine op value element).symm

theorem heldOnDevice_foldl_of_fits (op : BitwiseOp) {init : type.Word} {elements : List type.Word}
    (fit : ∀ value ∈ init :: elements, FitsDevice type value) :
    heldOnDevice type (elements.foldl op.combine init) = elements.foldl op.combine init := by
  rw [heldOnDevice_foldl, heldOnDevice_of_fits (fit init List.mem_cons_self)]
  congr 1
  refine (List.map_congr_left ?_).trans (List.map_id elements)
  intro value isElement
  exact heldOnDevice_of_fits (fit value (List.mem_cons_of_mem init isElement))

theorem castToElementType_eq {source target : IntegerType} (notSource : source.width ≠ 1)
    (notTarget : target.width ≠ 1) (value : source.Word) :
    castToElementType source target value = target.constant (source.read value) := by
  rw [castToElementType, if_neg notTarget, if_neg notSource]

theorem signExtend_identity (op : BitwiseOp) {width : Nat} (positive : 0 < width) (target : Nat) :
    (op.identity width).signExtend target = op.identity target := by
  apply BitVec.eq_of_getLsbD_eq
  intro bit below
  rw [BitVec.getLsbD_signExtend, BitVec.msb_eq_getLsbD_last, BitwiseOp.identity,
    BitwiseOp.identity]
  by_cases isAnd : op = .and
  · simp [isAnd, below, positive]
  · simp [isAnd]

theorem setWidth_identity (op : BitwiseOp) (width target : Nat) :
    ((op.identity width).setWidth target).setWidth width = (op.identity target).setWidth width := by
  apply BitVec.eq_of_getLsbD_eq
  intro bit below
  simp only [BitVec.getLsbD_setWidth, BitwiseOp.identity]
  split
  · simp [below]
  · simp

/-- The reduction's identity is what the device holds of the type's. -/
theorem constant_read_identity (op : BitwiseOp) (type : IntegerType) :
    type.constant ((deviceType type).read (op.identity (deviceType type).width)) =
      heldOnDevice type (op.identity type.width) := by
  rw [heldOnDevice, constant_read, constant_read, constant_read]
  have sameSign : (deviceType type).signed = type.signed := rfl
  cases isSigned : type.signed
  · simp only [sameSign, isSigned, Bool.false_eq_true, if_false]
    exact (setWidth_identity op _ _).symm
  · simp only [sameSign, isSigned, if_true]
    rw [signExtend_identity op type.positive]

/-- A boolean becomes 0 or 1. -/
theorem castToElementType_boolean (single : type.width = 1) (value : type.Word) :
    castToElementType type ui32 value = value.setWidth 32 := by
  rw [castToElementType, if_neg (by decide), if_pos single]
  exact (BitVec.ofInt_natCast _ _).trans (BitVec.ofNat_toNat _ _)

theorem castToElementType_combine (single : type.width = 1) (op : BitwiseOp)
    (left right : type.Word) :
    castToElementType type ui32 (op.combine left right) =
      op.combine (castToElementType type ui32 left) (castToElementType type ui32 right) := by
  simp only [castToElementType_boolean single]
  cases op
  · exact BitVec.setWidth_and
  · exact BitVec.setWidth_or
  · exact BitVec.setWidth_xor

/-- And 0 or 1 becomes the boolean again. -/
theorem castToElementType_narrow (single : type.width = 1) (value : type.Word) :
    castToElementType ui32 type (castToElementType type ui32 value) = value := by
  obtain ⟨width, signed, positive⟩ := type
  obtain rfl : width = 1 := single
  revert value
  cases signed <;> decide +revert

namespace IntegerReduceOp

variable (srcOp : IntegerReduceOp type)

theorem reduceElementType_eq (integers : srcOp.isBoolean = false) :
    srcOp.reduceElementType = deviceType type := by
  rw [reduceElementType, integers, Bool.false_or]
  obtain ⟨width, signed, positive⟩ := type
  split
  · cases signed <;> rfl
  · rename_i same
    obtain rfl := not_not.mp same
    rfl

theorem reduceElementType_boolean (booleans : srcOp.isBoolean = true) :
    srcOp.reduceElementType = ui32 := by
  have single : type.width = 1 := of_decide_eq_true booleans
  rw [reduceElementType, booleans, Bool.true_or, if_pos rfl, if_pos (by omega)]

/-- The reduce as StableHLO has it. -/
def reduceOp (body : type.Word → type.Word → type.Word) : ReduceOp type.Word :=
  ⟨srcOp.dimensions, body, srcOp.initValue.value⟩

/-- Where the 32-bit reduction starts from. -/
def start (op : BitwiseOp) (target : IntegerType) : target.Word :=
  if srcOp.hasIdentityInit (op = .and) then op.identity target.width
  else castToElementType type target srcOp.initValue.value

theorem value_of_hasIdentityInit {op : BitwiseOp} (isIdentity : srcOp.hasIdentityInit (op = .and)) :
    srcOp.initValue.value = op.identity type.width := by
  unfold hasIdentityInit at isIdentity
  split at isIdentity
  · rename_i value constant
    rw [constant, InitValue.value, BitwiseOp.identity]
    by_cases isAnd : op = .and <;> simp_all
  · cases isIdentity

theorem matchAndRewriteBitwise_data (op : BitwiseOp) (schedules : Schedules) (site : Site)
    (operand : Tensor type.Word) {target : IntegerType}
    (isTarget : srcOp.reduceElementType = target)
    (body : type.Word → type.Word → type.Word) (index : List Nat) :
    (srcOp.matchAndRewriteBitwise op schedules site operand).data index =
      castToElementType target type
        ((((srcOp.reduceOp body).elements operand index).map (castToElementType type target)).foldl
          op.combine (srcOp.start op target)) := by
  subst isTarget
  rw [← op.reduces_foldl schedules site index]
  unfold matchAndRewriteBitwise start
  cases isIdentity : srcOp.hasIdentityInit (op = .and)
  · simp only [isIdentity, Bool.not_false, if_true, Bool.false_eq_true, if_false]
    simp only [Tensor.map, ReduceOp.eval, ReduceOp.elements, reduceOp, List.map_map,
      Function.comp_def]
  · simp only [isIdentity, Bool.not_true, Bool.false_eq_true, if_false, if_true,
      op.combine_identity]
    simp only [Tensor.map, ReduceOp.eval, ReduceOp.elements, reduceOp, List.map_map,
      Function.comp_def]

section

variable {op : BitwiseOp} {operands : List BlockValue}
  (isBody : srcOp.body = ⟨2, [⟨.bitwise op, operands⟩], [.result 0]⟩)
  (order : operands = [.argument 0, .argument 1] ∨ operands = [.argument 1, .argument 0])
include isBody order

/-- A body that is one of the operations matches it, and no other. -/
theorem matchesBinaryReducer_of_body (other : BitwiseOp) :
    srcOp.body.matchesBinaryReducer (.bitwise other) = decide (op = other) := by
  rw [isBody]
  cases order with
  | inl inOrder => simp [Block.matchesBinaryReducer, inOrder]
  | inr reversed => simp [Block.matchesBinaryReducer, reversed]

/-- It is dispatched to the reduction with it, except for and and or of booleans. -/
theorem bitwiseReduction_of_body (booleans : type.width = 1 → op = .xor) :
    srcOp.bitwiseReduction = some op := by
  simp only [bitwiseReduction, srcOp.matchesBinaryReducer_of_body isBody order]
  cases isBoolean : srcOp.isBoolean
  · cases op <;> rfl
  · rw [booleans (of_decide_eq_true isBoolean)]
    rfl

end

/-- Integers wider than a bit: the result is what the device holds of the fold. -/
theorem data_of_integers (op : BitwiseOp) (integers : srcOp.isBoolean = false)
    (schedules : Schedules) (site : Site) (operand : Tensor type.Word) (index : List Nat) :
    (srcOp.matchAndRewriteBitwise op schedules site operand).data index =
      heldOnDevice type
        (((srcOp.reduceOp op.combine).elements operand index).foldl op.combine
          srcOp.initValue.value) := by
  have notBoolean : type.width ≠ 1 := of_decide_eq_false integers
  have notOnDevice : (deviceType type).width ≠ 1 := show 32 ≠ 1 by decide
  have extended : castToElementType type (deviceType type) =
      fun value => (deviceType type).constant (type.read value) :=
    funext (castToElementType_eq notBoolean notOnDevice)
  have startHeld : type.constant ((deviceType type).read (srcOp.start op (deviceType type))) =
      heldOnDevice type srcOp.initValue.value := by
    rw [start]
    split
    · rename_i isIdentity
      rw [srcOp.value_of_hasIdentityInit isIdentity, constant_read_identity]
    · rw [extended, heldOnDevice]
  rw [srcOp.matchAndRewriteBitwise_data op schedules site operand
      (srcOp.reduceElementType_eq integers) op.combine,
    castToElementType_eq notOnDevice notBoolean, extended, heldOnDevice_foldl, ← startHeld,
    List.foldl_map, List.foldl_map]
  refine (List.foldl_hom (fun value => type.constant ((deviceType type).read value)) ?_).symm
  intro value element
  exact (constant_read_combine op (deviceType type) type _ _).symm

/-- Booleans: a xor of zeros and ones is zero or one. -/
theorem data_of_booleans {op : BitwiseOp} (notAnd : op ≠ .and) (booleans : srcOp.isBoolean = true)
    (schedules : Schedules) (site : Site) (operand : Tensor type.Word) (index : List Nat) :
    (srcOp.matchAndRewriteBitwise op schedules site operand).data index =
      ((srcOp.reduceOp op.combine).elements operand index).foldl op.combine
        srcOp.initValue.value := by
  have single : type.width = 1 := of_decide_eq_true booleans
  have startWidened : srcOp.start op ui32 = castToElementType type ui32 srcOp.initValue.value := by
    rw [start]
    split
    · rename_i isIdentity
      rw [srcOp.value_of_hasIdentityInit isIdentity, BitwiseOp.identity, if_neg notAnd,
        BitwiseOp.identity, if_neg notAnd, castToElementType_boolean single, BitVec.setWidth_zero]
      rfl
    · rfl
  rw [srcOp.matchAndRewriteBitwise_data op schedules site operand
      (srcOp.reduceElementType_boolean booleans) op.combine, startWidened, List.foldl_map]
  refine (congrArg (castToElementType ui32 type)
    (List.foldl_hom (castToElementType type ui32) ?_)).trans (castToElementType_narrow single _)
  intro value element
  exact (castToElementType_combine single op value element).symm

end IntegerReduceOp

/-- A bitwise reduction is the fold of its body from the init value, of which the device keeps 32
bits. Nothing is lost of integers of up to 32 bits, nor of wider ones that fit. -/
theorem reduce_bitwise (srcOp : IntegerReduceOp type) {op : BitwiseOp} {operands : List BlockValue}
    (isBody : srcOp.body = ⟨2, [⟨.bitwise op, operands⟩], [.result 0]⟩)
    (order : operands = [.argument 0, .argument 1] ∨ operands = [.argument 1, .argument 0])
    (booleans : type.width = 1 → op = .xor) (schedules : Schedules) (site : Site)
    (operand : Tensor type.Word) :
    let result := srcOp.matchAndRewriteBitwise op schedules site operand
    let init := srcOp.initValue.value
    let elements := (srcOp.reduceOp op.combine).elements operand
    srcOp.bitwiseReduction = some op ∧
      (∀ outside : List type.Word,
        srcOp.body.Computes IntegerBodyOp.apply outside op.combine) ∧
      result.shape = without srcOp.dimensions 0 operand.shape ∧
      ∀ index,
        result.data index = heldOnDevice type ((elements index).foldl op.combine init) ∧
          ((type.width ≤ 32 ∨ ∀ value ∈ init :: elements index, FitsDevice type value) →
            result.data index = (elements index).foldl op.combine init) := by
  have held (index : List Nat) :
      (srcOp.matchAndRewriteBitwise op schedules site operand).data index =
        heldOnDevice type (((srcOp.reduceOp op.combine).elements operand index).foldl op.combine
          srcOp.initValue.value) := by
    cases isBoolean : srcOp.isBoolean
    · exact srcOp.data_of_integers op isBoolean schedules site operand index
    · have single : type.width = 1 := of_decide_eq_true isBoolean
      have notAnd : op ≠ .and := by simp [booleans single]
      rw [heldOnDevice_of_fits (fitsDevice_of_width (by omega) _)]
      exact srcOp.data_of_booleans notAnd isBoolean schedules site operand index
  have isReducer : srcOp.body.matchesBinaryReducer (.bitwise op) := by
    rw [srcOp.matchesBinaryReducer_of_body isBody order, decide_eq_true rfl]
  refine ⟨srcOp.bitwiseReduction_of_body isBody order booleans, ?_, ?_, ?_⟩
  · exact computes_combine isReducer
  · unfold IntegerReduceOp.matchAndRewriteBitwise
    dsimp only
    split <;> rfl
  · intro index
    constructor
    · exact held index
    · intro fit
      rw [held index]
      cases fit with
      | inl narrow => exact heldOnDevice_of_fits (fitsDevice_of_width narrow _)
      | inr fit => exact heldOnDevice_foldl_of_fits op fit

/-- An and of bytes along the last dimension, onto a value that the program computes; its body has
the arguments in the other order. -/
theorem reduce_bitwise_bytes :
    let bytes : IntegerType := ⟨8, false, by decide⟩
    let srcOp : IntegerReduceOp bytes :=
      ⟨[1], ⟨2, [⟨.bitwise .and, [.argument 1, .argument 0]⟩], [.result 0]⟩, .runtime 0xF3#8⟩
    let operand : Tensor bytes.Word := ⟨[2, 3], fun index => BitVec.ofNat 8 (255 - 4 * index.sum)⟩
    (srcOp.matchAndRewriteBitwise .and .inOrder ⟨0, []⟩ operand).data [1] = 0xF3#8 := by
  intro bytes srcOp operand
  have notBoolean : bytes.width ≠ 1 := show 8 ≠ 1 by decide
  have narrow : bytes.width ≤ 32 := show 8 ≤ 32 by decide
  have lowered := reduce_bitwise srcOp rfl (.inr rfl) (fun single => absurd single notBoolean)
    .inOrder ⟨0, []⟩ operand
  refine ((lowered.2.2.2 [1]).2 (.inl narrow)).trans ?_
  decide

/-- The bit above those that the device holds is lost. -/
theorem reduce_bitwise_wide :
    let wide : IntegerType := ⟨64, true, by decide⟩
    let srcOp : IntegerReduceOp wide :=
      ⟨[0], ⟨2, [⟨.bitwise .or, [.argument 0, .argument 1]⟩], [.result 0]⟩, .constant 0#64⟩
    let operand : Tensor wide.Word := ⟨[1], fun _ => BitVec.twoPow 64 32⟩
    srcOp.bitwiseReduction = some .or ∧
      (srcOp.matchAndRewriteBitwise .or .inOrder ⟨0, []⟩ operand).data [] ≠
        ((srcOp.reduceOp (· ||| ·)).elements operand []).foldl (· ||| ·) srcOp.initValue.value := by
  decide +kernel

end Libtt.Reductions

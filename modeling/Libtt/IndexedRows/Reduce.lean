import Libtt.Foundation.ExtremeFold
import Libtt.Foundation.FloatOrder
import Libtt.IndexedRows.Half

/-!
# The combines of a scatter

`reduce_rows` of `indexed_rows_common.hpp`, by which a scatter with a reduction combines the elements
of an update with those of a row. A float is its bits.
-/
namespace Libtt.IndexedRows

/-- `ElemKind`. -/
inductive ElemKind where
  | bytes | f32 | bf16 | f16 | i32 | u32 | i16 | u16 | i8 | u8
  deriving DecidableEq

/-- `ReduceKind`. -/
inductive ReduceKind where
  | none | add | mul | max | min
  deriving DecidableEq

/-- The bits of an element. -/
def ElemKind.width : ElemKind → Nat
  | f32 | i32 | u32 => 32
  | bf16 | f16 | i16 | u16 => 16
  | bytes | i8 | u8 => 8

def isNumber (v : BitVec 32) : Bool := decide (v &&& 0x7fffffff#32 ≤ 0x7f800000#32)

/-- By this numbers compare; the zeros are equal. -/
def signedMagnitude (v : BitVec 32) : Int :=
  let magnitude := (v &&& 0x7fffffff#32).toNat
  if v &&& 0x80000000#32 ≠ 0#32 then -magnitude else magnitude

/-- `==` of floats. A NaN is not even equal to itself. -/
def floatEq (a b : BitVec 32) : Bool :=
  isNumber a && isNumber b && signedMagnitude a == signedMagnitude b

/-- `<` of floats. -/
def floatLt (a b : BitVec 32) : Bool :=
  isNumber a && isNumber b && decide (signedMagnitude a < signedMagnitude b)

/-- `is_nan`. -/
def isNan (v : BitVec 32) : Bool := !floatEq v v

/-- `fmax_total`. -/
def fmaxTotal (a b : BitVec 32) : BitVec 32 :=
  if isNan a || isNan b then 0x7fc00000#32
  else if floatEq a b then if a &&& 0x80000000#32 ≠ 0#32 then b else a
  else if floatLt b a then a else b

/-- `fmin_total`. -/
def fminTotal (a b : BitVec 32) : BitVec 32 :=
  if isNan a || isNan b then 0x7fc00000#32
  else if floatEq a b then if a &&& 0x80000000#32 ≠ 0#32 then a else b
  else if floatLt a b then a else b

/-- The sum and the product of the float unit. -/
structure FloatUnit where
  add : BitVec 32 → BitVec 32 → BitVec 32
  mul : BitVec 32 → BitVec 32 → BitVec 32

/-- `reduce_f32`. -/
def reduceF32 (unit : FloatUnit) (kReduce : ReduceKind) (cur upd : BitVec 32) : BitVec 32 :=
  match kReduce with
  | .add => unit.add cur upd
  | .mul => unit.mul cur upd
  | .max => fmaxTotal cur upd
  | _ => fminTotal cur upd

/-- The integer promotion of an element. -/
def promote (isSigned : Bool) {w : Nat} (element : BitVec w) : BitVec 32 :=
  if isSigned then element.signExtend 32 else element.setWidth 32

/-- `<` of promoted elements, which compare as `int` unless they are `uint32_t`. -/
def intLt (isSigned : Bool) {w : Nat} (a b : BitVec w) : Bool :=
  if isSigned ∨ w < 32 then (promote isSigned a).slt (promote isSigned b)
  else (promote isSigned a).ult (promote isSigned b)

/-- `reduce_int`. The operands of a sum or a product are unsigned before their promotion, and the
32-bit result wraps. -/
def reduceInt (isSigned : Bool) (kReduce : ReduceKind) {w : Nat} (cur upd : BitVec w) : BitVec w :=
  match kReduce with
  | .add => (promote false cur + promote false upd).setWidth w
  | .mul => (promote false cur * promote false upd).setWidth w
  | .max => if intLt isSigned upd cur then cur else upd
  | _ => if intLt isSigned cur upd then cur else upd

/-- The element that the loop of `reduce_rows` writes, with fuel for `f16_to_f32`. -/
def reduceElement (unit : FloatUnit) (fuel : Nat) (kReduce : ReduceKind) : (kElem : ElemKind) →
    BitVec kElem.width → BitVec kElem.width → Option (BitVec kElem.width)
  | .bytes, cur, _ => some cur
  | .f32, cur, upd => some (reduceF32 unit kReduce cur upd)
  | .bf16, cur, upd => some (f32ToBf16 (reduceF32 unit kReduce (bf16ToF32 cur) (bf16ToF32 upd)))
  | .f16, cur, upd => do
    let cur ← f16ToF32 fuel cur
    let upd ← f16ToF32 fuel upd
    some (f32ToF16 (reduceF32 unit kReduce cur upd))
  | .i32, cur, upd => some (reduceInt true kReduce cur upd)
  | .u32, cur, upd => some (reduceInt false kReduce cur upd)
  | .i16, cur, upd => some (reduceInt true kReduce cur upd)
  | .u16, cur, upd => some (reduceInt false kReduce cur upd)
  | .i8, cur, upd => some (reduceInt true kReduce cur upd)
  | .u8, cur, upd => some (reduceInt false kReduce cur upd)

/-- `reduce_rows`, on the elements at the two addresses. -/
def reduceRows (unit : FloatUnit) (fuel : Nat) (kElem : ElemKind) (kReduce : ReduceKind)
    (count : Nat) (cur upd : Nat → BitVec kElem.width) : Option (Nat → BitVec kElem.width) :=
  (List.range count).foldlM (fun cur i => do
    let element ← reduceElement unit fuel kReduce kElem (cur i) (upd i)
    some (Function.update cur i element)) cur

end Libtt.IndexedRows

/-! ## The combines of a scatter do not depend on their order -/
namespace Libtt.IndexedRows

open Libtt.Foundation BinaryFormat

/-- The integer that some bits are. -/
def intValue (isSigned : Bool) {w : Nat} (element : BitVec w) : Int :=
  if isSigned then element.toInt else element.toNat

namespace ElemKind

/-- The format of the float kinds. -/
def format : ElemKind → Option BinaryFormat
  | f32 => some binary32
  | bf16 => some bfloat16
  | f16 => some binary16
  | _ => none

def isSigned : ElemKind → Bool
  | i32 | i16 | i8 => true
  | _ => false

variable (kElem : ElemKind)

/-- The integer that an element is. -/
def value (element : BitVec kElem.width) : Int := intValue kElem.isSigned element

def IsNaN (element : BitVec kElem.width) : Prop :=
  ∃ format ∈ kElem.format, format.IsNaN element.toNat

/-- Floats are ordered with -0 below +0, integers by their value. -/
def Below (left right : BitVec kElem.width) : Prop :=
  match kElem.format with
  | some format => format.AtMost left.toNat right.toNat
  | none => kElem.value left ≤ kElem.value right

/-- The NaN that a combine returns. -/
def canonicalNaN : (kElem : ElemKind) → BitVec kElem.width
  | f32 => 0x7fc00000#32
  | bf16 => 0x7fc0#16
  | f16 => 0x7e00#16
  | _ => 0#_

/-- The combines whose result does not depend on their order. -/
def Unordered (kReduce : ReduceKind) : Prop :=
  kElem ≠ bytes ∧ (kReduce = .max ∨ kReduce = .min ∨
    (kReduce = .add ∨ kReduce = .mul) ∧ kElem.format = none)

/-- What the combine of some elements is: the greatest or the least, or NaN where one is; or the sum
or the product modulo a power of two. -/
def IsReduced (kReduce : ReduceKind) (elements : List (BitVec kElem.width))
    (result : BitVec kElem.width) : Prop :=
  match kReduce with
  | .max => IsExtreme kElem.IsNaN kElem.Below kElem.canonicalNaN elements result
  | .min => IsExtreme kElem.IsNaN (flip kElem.Below) kElem.canonicalNaN elements result
  | .add => result = BitVec.ofInt _ (elements.map kElem.value).sum
  | .mul => result = BitVec.ofInt _ (elements.map kElem.value).prod
  | .none => False

end ElemKind

theorem toNat_clearSign (v : BitVec 32) :
    (v &&& 0x7fffffff#32).toNat = binary32.magnitude v.toNat := toNat_and_low v 31 (by decide)

theorem sign_test (v : BitVec 32) : v &&& 0x80000000#32 ≠ 0#32 ↔ binary32.Negative v.toNat :=
  and_one_shiftLeft_ne_zero v (show 31 < 32 by decide)

theorem isNumber_iff (v : BitVec 32) : isNumber v = true ↔ ¬binary32.IsNaN v.toNat := by
  rw [isNumber, decide_eq_true_iff, BitVec.le_def, toNat_clearSign, isNaN_iff, Nat.not_lt]
  rfl

theorem signedMagnitude_eq (v : BitVec 32) :
    signedMagnitude v = binary32.signedMagnitude v.toNat := by
  simp only [signedMagnitude, BinaryFormat.signedMagnitude, toNat_clearSign, sign_test]

theorem isNan_iff (v : BitVec 32) : isNan v = true ↔ binary32.IsNaN v.toNat := by
  have number := isNumber_iff v
  rw [isNan, floatEq, beq_self_eq_true, Bool.and_true, Bool.and_self]
  by_cases nan : binary32.IsNaN v.toNat <;> simp_all

section

variable {a b : BitVec 32} (aNumeric : ¬binary32.IsNaN a.toNat) (bNumeric : ¬binary32.IsNaN b.toNat)
include aNumeric bNumeric

theorem floatEq_iff :
    floatEq a b = true ↔ binary32.extended a.toNat = binary32.extended b.toNat := by
  rw [binary32.extended_eq_iff aNumeric bNumeric, floatEq, (isNumber_iff a).mpr aNumeric,
    (isNumber_iff b).mpr bNumeric, Bool.true_and, Bool.true_and, beq_iff_eq, signedMagnitude_eq,
    signedMagnitude_eq]

theorem floatLt_iff :
    floatLt a b = true ↔ binary32.extended a.toNat < binary32.extended b.toNat := by
  rw [binary32.extended_lt_iff aNumeric bNumeric, floatLt, (isNumber_iff a).mpr aNumeric,
    (isNumber_iff b).mpr bNumeric, Bool.true_and, Bool.true_and, decide_eq_true_iff,
    signedMagnitude_eq, signedMagnitude_eq]

end

/-- The order of a maximum, and that of a minimum. -/
def directed {α : Type} (below : α → α → Prop) : ReduceKind → α → α → Prop
  | .max => below
  | _ => flip below

section Floats

variable {kReduce : ReduceKind} {format : BinaryFormat}

/-- `fmax_total` and `fmin_total` return a canonical NaN if they are given one. -/
theorem reduceF32_nan (extreme : kReduce = .max ∨ kReduce = .min) (unit : FloatUnit)
    {a b : BitVec 32} (nan : binary32.IsNaN a.toNat ∨ binary32.IsNaN b.toNat) :
    reduceF32 unit kReduce a b = 0x7fc00000#32 := by
  have test : (isNan a || isNan b) = true := by
    rw [Bool.or_eq_true, isNan_iff, isNan_iff]
    exact nan
  rcases extreme with rfl | rfl
  · exact if_pos test
  · exact if_pos test

section

variable {a b : BitVec 32} (aNumeric : ¬binary32.IsNaN a.toNat) (bNumeric : ¬binary32.IsNaN b.toNat)
include aNumeric bNumeric

theorem total_select :
    fmaxTotal a b = a ∧ fminTotal a b = b ∧ binary32.AtMost b.toNat a.toNat ∨
      fmaxTotal a b = b ∧ fminTotal a b = a ∧ binary32.AtMost a.toNat b.toNat := by
  have numeric : ¬(isNan a || isNan b) = true := by
    rw [Bool.or_eq_true, isNan_iff, isNan_iff]
    exact fun nan => nan.elim aNumeric bNumeric
  rw [fmaxTotal, fminTotal, if_neg numeric, if_neg numeric]
  simp only [floatEq_iff aNumeric bNumeric, floatLt_iff aNumeric bNumeric,
    floatLt_iff bNumeric aNumeric, sign_test]
  rcases lt_trichotomy (binary32.extended a.toNat) (binary32.extended b.toNat) with
    less | same | more
  · simp only [if_neg less.ne, if_neg less.asymm, if_pos less, true_and]
    exact .inr (.inl less)
  · simp only [if_pos same]
    by_cases negative : binary32.Negative a.toNat
    · simp only [if_pos negative, true_and]
      exact .inr (.inr ⟨same, .inl negative⟩)
    · simp only [if_neg negative, true_and]
      exact .inl (.inr ⟨same.symm, .inr negative⟩)
  · simp only [if_neg more.ne', if_neg more.asymm, if_pos more, true_and]
    exact .inl (.inl more)

/-- Of two numbers they return the extreme one. -/
theorem reduceF32_select (extreme : kReduce = .max ∨ kReduce = .min) (unit : FloatUnit) :
    reduceF32 unit kReduce a b = a ∧ directed binary32.AtMost kReduce b.toNat a.toNat ∨
      reduceF32 unit kReduce a b = b ∧ directed binary32.AtMost kReduce a.toNat b.toNat := by
  rcases extreme with rfl | rfl
  · exact (total_select aNumeric bNumeric).imp (.imp_right And.right) (.imp_right And.right)
  · exact ((total_select aNumeric bNumeric).imp And.right And.right).symm

end

/-- A combine of floats selects, if it does so of any two. -/
theorem floats_select {w : Nat} (width : w = format.exponentBits + format.fractionBits + 1)
    (kReduce : ReduceKind) {canonical : BitVec w}
    {combine : BitVec w → BitVec w → Option (BitVec w)}
    (isCanonical : format.IsNaN canonical.toNat)
    (nan : ∀ left right : BitVec w, format.IsNaN left.toNat ∨ format.IsNaN right.toNat →
      combine left right = some canonical)
    (select : ∀ left right : BitVec w, ¬format.IsNaN left.toNat → ¬format.IsNaN right.toNat →
      combine left right = some left ∧ directed format.AtMost kReduce right.toNat left.toNat ∨
        combine left right = some right ∧ directed format.AtMost kReduce left.toNat right.toNat) :
    Selects (fun element => format.IsNaN element.toNat)
      (directed (fun left right => format.AtMost left.toNat right.toNat) kReduce) canonical
      combine := by
  have refl {value : BitVec w} (numeric : ¬format.IsNaN value.toNat) :
      format.AtMost value.toNat value.toNat := (format.atMost_iff numeric numeric).mpr le_rfl
  have trans {low middle high : BitVec w} (lowNumeric : ¬format.IsNaN low.toNat)
      (middleNumeric : ¬format.IsNaN middle.toNat) (highNumeric : ¬format.IsNaN high.toNat)
      (first : format.AtMost low.toNat middle.toNat)
      (second : format.AtMost middle.toNat high.toNat) : format.AtMost low.toNat high.toNat := by
    rw [format.atMost_iff lowNumeric middleNumeric] at first
    rw [format.atMost_iff middleNumeric highNumeric] at second
    exact (format.atMost_iff lowNumeric highNumeric).mpr (first.trans second)
  have antisymm {left right : BitVec w} (leftNumeric : ¬format.IsNaN left.toNat)
      (rightNumeric : ¬format.IsNaN right.toNat) (first : format.AtMost left.toNat right.toNat)
      (second : format.AtMost right.toNat left.toNat) : left = right := by
    rw [format.atMost_iff leftNumeric rightNumeric] at first
    rw [format.atMost_iff rightNumeric leftNumeric] at second
    exact BitVec.eq_of_toNat_eq (format.eq_of_rank (width ▸ left.isLt) (width ▸ right.isLt)
      (le_antisymm first second))
  cases kReduce
  case max => exact ⟨fun _ => refl, fun _ _ _ => trans, fun _ _ => antisymm,
    fun _ _ => isCanonical, nan, select⟩
  all_goals exact ⟨fun _ => refl, fun _ _ _ low middle high first second =>
    trans high middle low second first, fun _ _ leftNumeric rightNumeric first second =>
    antisymm leftNumeric rightNumeric second first, fun _ _ => isCanonical, nan, select⟩

/-- Floats of 16 bits are combined as the 32-bit ones that they are. -/
theorem narrow_select (width : 16 = format.exponentBits + format.fractionBits + 1)
    {widen : BitVec 16 → BitVec 32} {narrow : BitVec 32 → BitVec 16} {canonical : BitVec 16}
    (same : ∀ bits, SameNumber format binary32 bits.toNat (widen bits).toNat)
    (back : ∀ bits : BitVec 16, ¬format.IsNaN bits.toNat → narrow (widen bits) = bits)
    (isCanonical : format.IsNaN canonical.toNat) (isNarrow : narrow 0x7fc00000#32 = canonical)
    (extreme : kReduce = .max ∨ kReduce = .min) (unit : FloatUnit) :
    Selects (fun element : BitVec 16 => format.IsNaN element.toNat)
      (directed (fun left right => format.AtMost left.toNat right.toNat) kReduce) canonical
      (fun cur upd => some (narrow (reduceF32 unit kReduce (widen cur) (widen upd)))) := by
  apply floats_select width kReduce isCanonical
  · intro left right nan
    rw [reduceF32_nan extreme unit (nan.imp (same left).nan.mpr (same right).nan.mpr), isNarrow]
  · intro left right leftNumeric rightNumeric
    have order {low high : BitVec 16} (lowNumeric : ¬format.IsNaN low.toNat)
        (highNumeric : ¬format.IsNaN high.toNat) :
        directed binary32.AtMost kReduce (widen low).toNat (widen high).toNat →
          directed format.AtMost kReduce low.toNat high.toNat := by
      rcases extreme with rfl | rfl
      · exact ((same low).atMost_iff (same high) lowNumeric highNumeric).mp
      · exact ((same high).atMost_iff (same low) highNumeric lowNumeric).mp
    rcases reduceF32_select (mt (same left).nan.mp leftNumeric)
      (mt (same right).nan.mp rightNumeric) extreme unit with ⟨isLeft, above⟩ | ⟨isRight, above⟩
    · exact .inl ⟨by rw [isLeft, back left leftNumeric], order rightNumeric leftNumeric above⟩
    · exact .inr ⟨by rw [isRight, back right rightNumeric], order leftNumeric rightNumeric above⟩

end Floats

section Integers

variable {w : Nat} {isSigned : Bool}

theorem intValue_injective {left right : BitVec w}
    (same : intValue isSigned left = intValue isSigned right) : left = right := by
  unfold intValue at same
  split at same
  · exact BitVec.eq_of_toInt_eq same
  · exact BitVec.eq_of_toNat_eq (Int.ofNat_inj.mp same)

theorem ofInt_intValue (element : BitVec w) :
    BitVec.ofInt w (intValue isSigned element) = element := by
  unfold intValue
  split
  · exact BitVec.ofInt_toInt
  · rw [BitVec.ofInt_natCast, BitVec.ofNat_toNat, BitVec.setWidth_eq]

/-- Promoted elements compare as they are. -/
theorem intLt_iff (fits : w ≤ 32) (a b : BitVec w) :
    intLt isSigned a b = true ↔ intValue isSigned a < intValue isSigned b := by
  cases isSigned
  case true =>
    rw [intLt, if_pos (by simp), BitVec.slt, decide_eq_true_iff]
    simp only [promote, if_pos, intValue, BitVec.toInt_signExtend_of_le fits]
  case false =>
    have promoted (element : BitVec w) : (promote false element).toNat = element.toNat := by
      rw [promote, if_neg (by decide), BitVec.toNat_setWidth, Nat.mod_eq_of_lt]
      exact element.isLt.trans_le (Nat.pow_le_pow_right (by decide) fits)
    have casts : intValue false a < intValue false b ↔ a.toNat < b.toNat := by
      simp [intValue]
    rw [casts, intLt]
    by_cases narrow : w < 32
    · have less (element : BitVec w) : (promote false element).toNat < 2 ^ 31 :=
        (promoted element).trans_lt
          (element.isLt.trans_le (Nat.pow_le_pow_right (by decide) (by omega)))
      rw [if_pos (.inr narrow), slt_of_lt (less a) (less b), decide_eq_true_iff, promoted, promoted]
    · rw [if_neg (by simp [narrow]), BitVec.ult, decide_eq_true_iff, promoted, promoted]

theorem reduceInt_add (fits : w ≤ 32) (cur upd : BitVec w) :
    reduceInt isSigned .add cur upd = cur + upd := by
  simp [reduceInt, promote, BitVec.setWidth_add _ _ fits, BitVec.setWidth_setWidth_of_le _ fits]

theorem reduceInt_mul (fits : w ≤ 32) (cur upd : BitVec w) :
    reduceInt isSigned .mul cur upd = cur * upd := by
  simp [reduceInt, promote, BitVec.setWidth_mul _ _ fits, BitVec.setWidth_setWidth_of_le _ fits]

theorem reduceInt_select (fits : w ≤ 32) {kReduce : ReduceKind} {isNaN : BitVec w → Prop}
    (numeric : ∀ element, ¬isNaN element) (canonical : BitVec w)
    (extreme : kReduce = .max ∨ kReduce = .min) :
    Selects isNaN
      (directed (fun left right => intValue isSigned left ≤ intValue isSigned right) kReduce)
      canonical (fun cur upd => some (reduceInt isSigned kReduce cur upd)) := by
  have noNaN {left right : BitVec w} (nan : isNaN left ∨ isNaN right) : False :=
    nan.elim (numeric left) (numeric right)
  rcases extreme with rfl | rfl
  · refine ⟨fun _ _ => le_refl _, fun _ _ _ _ _ _ => le_trans, fun _ _ _ _ first second =>
      intValue_injective (le_antisymm first second), fun _ nan => absurd nan (numeric _),
      fun _ _ nan => (noNaN nan).elim, fun left right _ _ => ?_⟩
    simp only [reduceInt]
    by_cases less : intLt isSigned right left
    · rw [if_pos less]
      exact .inl ⟨rfl, ((intLt_iff fits _ _).mp less).le⟩
    · rw [if_neg less]
      exact .inr ⟨rfl, not_lt.mp (mt (intLt_iff fits _ _).mpr less)⟩
  · refine ⟨fun _ _ => le_refl _, fun _ _ _ _ _ _ first second => le_trans second first,
      fun _ _ _ _ first second => intValue_injective (le_antisymm second first),
      fun _ nan => absurd nan (numeric _), fun _ _ nan => (noNaN nan).elim,
      fun left right _ _ => ?_⟩
    simp only [reduceInt]
    by_cases less : intLt isSigned left right
    · rw [if_pos less]
      exact .inl ⟨rfl, ((intLt_iff fits _ _).mp less).le⟩
    · rw [if_neg less]
      exact .inr ⟨rfl, not_lt.mp (mt (intLt_iff fits _ _).mpr less)⟩

/-- A fold that computes with residues. -/
theorem foldlM_ofInt {combine : BitVec w → BitVec w → BitVec w} {op : Int → Int → Int}
    (hom : ∀ x y, BitVec.ofInt w (op x y) = combine (BitVec.ofInt w x) (BitVec.ofInt w y))
    (updates : List (BitVec w)) (start : Int) :
    updates.foldlM (fun cur upd => some (combine cur upd)) (BitVec.ofInt w start) =
      some (BitVec.ofInt w ((updates.map (intValue isSigned)).foldl op start)) := by
  induction updates generalizing start with
  | nil => rfl
  | cons update updates ih =>
    rw [List.foldlM_cons, Option.bind_eq_bind, Option.bind_some, List.map_cons, List.foldl_cons,
      ← ih, hom, ofInt_intValue]

theorem foldlM_add (fits : w ≤ 32) (initial : BitVec w) (updates : List (BitVec w)) :
    updates.foldlM (fun cur upd => some (reduceInt isSigned .add cur upd)) initial =
      some (BitVec.ofInt w ((initial :: updates).map (intValue isSigned)).sum) := by
  have folded : _ = some (BitVec.ofInt w ((updates.map (intValue isSigned)).foldl _ _)) :=
    foldlM_ofInt BitVec.ofInt_add updates (intValue isSigned initial)
  rw [ofInt_intValue] at folded
  simp only [reduceInt_add fits]
  rw [folded, List.sum_eq_foldl, List.map_cons, List.foldl_cons, Int.zero_add]

theorem foldlM_mul (fits : w ≤ 32) (initial : BitVec w) (updates : List (BitVec w)) :
    updates.foldlM (fun cur upd => some (reduceInt isSigned .mul cur upd)) initial =
      some (BitVec.ofInt w ((initial :: updates).map (intValue isSigned)).prod) := by
  have folded : _ = some (BitVec.ofInt w ((updates.map (intValue isSigned)).foldl _ _)) :=
    foldlM_ofInt BitVec.ofInt_mul updates (intValue isSigned initial)
  rw [ofInt_intValue] at folded
  simp only [reduceInt_mul fits]
  rw [folded, List.prod_eq_foldl, List.map_cons, List.foldl_cons, Int.one_mul]

end Integers

section Rows

variable {kElem : ElemKind} {kReduce : ReduceKind} {fuel : Nat}

/-- Every combine of an extreme selects. -/
theorem reduceElement_select (supported : kElem ≠ .bytes)
    (extreme : kReduce = .max ∨ kReduce = .min) (enough : 10 < fuel) (unit : FloatUnit) :
    Selects kElem.IsNaN (directed kElem.Below kReduce) kElem.canonicalNaN
      (reduceElement unit fuel kReduce kElem) := by
  have ofFormat {kElem : ElemKind} {format : BinaryFormat} (isFormat : kElem.format = some format) :
      kElem.IsNaN = fun element => format.IsNaN element.toNat := by
    funext element
    simp [ElemKind.IsNaN, isFormat]
  have ofInteger {kElem : ElemKind} (isInteger : kElem.format = none)
      (element : BitVec kElem.width) : ¬kElem.IsNaN element := by
    simp [ElemKind.IsNaN, isInteger]
  cases kElem
  case bytes => exact absurd rfl supported
  case f32 =>
    rw [ofFormat rfl]
    have isNaN : binary32.IsNaN (0x7fc00000#32).toNat := ⟨rfl, by decide⟩
    apply floats_select (show 32 = _ from rfl) kReduce isNaN
    · exact fun left right nan => congrArg some (reduceF32_nan extreme unit nan)
    · intro left right leftNumeric rightNumeric
      rcases reduceF32_select leftNumeric rightNumeric extreme unit with ⟨isLeft, above⟩ |
        ⟨isRight, above⟩
      · exact .inl ⟨congrArg some isLeft, above⟩
      · exact .inr ⟨congrArg some isRight, above⟩
  case bf16 =>
    rw [ofFormat rfl]
    exact narrow_select rfl (fun bits => (half_conversions.2.2.2 bits).1)
      (fun bits => (half_conversions.2.2.2 bits).2) ⟨rfl, by decide⟩
      (show f32ToBf16 0x7fc00000#32 = 0x7fc0#16 by decide) extreme unit
  case f16 =>
    rw [ofFormat rfl]
    choose widen isWide same back using
      fun bits => half_conversions.2.2.1 bits fuel enough
    have combines (cur upd : BitVec 16) : reduceElement unit fuel kReduce .f16 cur upd =
        some (f32ToF16 (reduceF32 unit kReduce (widen cur) (widen upd))) := by
      show (f16ToF32 fuel cur).bind (fun cur => (f16ToF32 fuel upd).bind _) = _
      rw [isWide, isWide]
      rfl
    rw [show reduceElement unit fuel kReduce .f16 = _ from funext fun cur => funext (combines cur)]
    exact narrow_select rfl same back ⟨rfl, by decide⟩
      (show f32ToF16 0x7fc00000#32 = 0x7e00#16 by decide) extreme unit
  all_goals exact reduceInt_select (by decide) (ofInteger rfl) _ extreme

/-- The elements of one place, combined one update after the other. -/
theorem foldlM_isReduced (unordered : kElem.Unordered kReduce) (enough : 10 < fuel)
    (unit : FloatUnit) (initial : BitVec kElem.width) {updates : List (BitVec kElem.width)}
    (nonempty : updates ≠ []) :
    ∃ result, updates.foldlM (reduceElement unit fuel kReduce kElem) initial = some result ∧
      kElem.IsReduced kReduce (initial :: updates) result := by
  obtain ⟨supported, rfl | rfl | ⟨rfl | rfl, isInteger⟩⟩ := unordered
  · exact (reduceElement_select supported (.inl rfl) enough unit).foldlM initial nonempty
  · exact (reduceElement_select supported (.inr rfl) enough unit).foldlM initial nonempty
  · refine ⟨_, ?_, rfl⟩
    cases kElem
    case bytes => exact absurd rfl supported
    case f32 | bf16 | f16 => exact nomatch isInteger
    all_goals exact foldlM_add (by decide) initial updates
  · refine ⟨_, ?_, rfl⟩
    cases kElem
    case bytes => exact absurd rfl supported
    case f32 | bf16 | f16 => exact nomatch isInteger
    all_goals exact foldlM_mul (by decide) initial updates

/-- Elements in another order are combined to the same. -/
theorem isReduced_unique (unordered : kElem.Unordered kReduce)
    {left right : List (BitVec kElem.width)} (same : left.Perm right)
    {first second : BitVec kElem.width} (isFirst : kElem.IsReduced kReduce left first)
    (isSecond : kElem.IsReduced kReduce right second) : first = second := by
  have unit : FloatUnit := ⟨fun a _ => a, fun a _ => a⟩
  have enough : 10 < 11 := by decide
  obtain ⟨supported, rfl | rfl | ⟨rfl | rfl, -⟩⟩ := unordered
  · exact (reduceElement_select supported (.inl rfl) enough unit).unique
      (fun _ => same.mem_iff) isFirst isSecond
  · exact (reduceElement_select supported (.inr rfl) enough unit).unique
      (fun _ => same.mem_iff) isFirst isSecond
  · rw [show first = _ from isFirst, show second = _ from isSecond, (same.map _).sum_eq]
  · rw [show first = _ from isFirst, show second = _ from isSecond, (same.map _).prod_eq]

/-- `reduce_rows` combines every element of a row with the update's. -/
theorem reduceRows_eq {unit : FloatUnit} {count : Nat} {cur upd out : Nat → BitVec kElem.width}
    (combines : ∀ i < count, reduceElement unit fuel kReduce kElem (cur i) (upd i) = some (out i)) :
    reduceRows unit fuel kElem kReduce count cur upd =
      some fun i => if i < count then out i else cur i := by
  unfold reduceRows
  induction count with
  | zero => rfl
  | succ count ih =>
    rw [List.range_succ, List.foldlM_append, ih fun i less => combines i (by omega)]
    simp only [Option.bind_eq_bind, Option.bind_some, List.foldlM_cons, List.foldlM_nil,
      Nat.lt_irrefl, if_false, combines count (Nat.lt_succ_self count)]
    congr 1
    funext i
    rcases lt_trichotomy i count with less | rfl | greater
    · rw [Function.update_of_ne (by omega), if_pos less, if_pos (by omega)]
    · rw [Function.update_self, if_pos (by omega)]
    · rw [Function.update_of_ne (by omega), if_neg (by omega), if_neg (by omega)]

/-- Rows are combined place by place. -/
theorem foldlM_reduceRows {unit : FloatUnit} {count : Nat}
    {initial result : Nat → BitVec kElem.width} {updates : List (Nat → BitVec kElem.width)}
    (folds : ∀ i < count, (updates.map (· i)).foldlM (reduceElement unit fuel kReduce kElem)
      (initial i) = some (result i)) :
    updates.foldlM (reduceRows unit fuel kElem kReduce count) initial =
      some fun i => if i < count then result i else initial i := by
  induction updates generalizing initial with
  | nil =>
    have unchanged : initial = fun i => if i < count then result i else initial i := by
      funext i
      split
      · rename_i less
        exact Option.some.inj (folds i less)
      · rfl
    exact congrArg some unchanged
  | cons update updates ih =>
    have first (i : Nat) (less : i < count) : ∃ out,
        reduceElement unit fuel kReduce kElem (initial i) (update i) = some out ∧
          (updates.map (· i)).foldlM (reduceElement unit fuel kReduce kElem) out =
            some (result i) := by
      have fold := folds i less
      exact Option.bind_eq_some_iff.mp fold
    choose! out isOut rest using first
    rw [List.foldlM_cons, reduceRows_eq isOut, Option.bind_eq_bind, Option.bind_some, ih]
    · congr 1
      funext i
      by_cases less : i < count <;> simp only [less, if_true, if_false]
    · intro i less
      rw [if_pos less]
      exact rest i less

end Rows

/-- A scatter's combines of maxima and minima, and of sums and products of integers, end, return
what they should and do not depend on the order of the updates. -/
theorem reduce_rows_unordered (unit : FloatUnit) (fuel : Nat) (kElem : ElemKind)
    (kReduce : ReduceKind) (count : Nat) (initial : Nat → BitVec kElem.width)
    (updates : List (Nat → BitVec kElem.width)) (enough : 10 < fuel)
    (unordered : kElem.Unordered kReduce) (nonempty : updates ≠ []) :
    ∃ result : Nat → BitVec kElem.width, (∀ order : List (Nat → BitVec kElem.width),
        order.Perm updates →
        order.foldlM (reduceRows unit fuel kElem kReduce count) initial = some result) ∧
      (∀ i < count, kElem.IsReduced kReduce (initial i :: updates.map (· i)) (result i)) ∧
      ∀ i, count ≤ i → result i = initial i := by
  have place (order : List (Nat → BitVec kElem.width)) (isOrder : order.Perm updates) (i : Nat) :=
    foldlM_isReduced unordered enough unit (initial i)
      (show order.map (· i) ≠ [] by
        simp only [ne_eq, List.map_eq_nil_iff]
        exact fun empty => nonempty (List.nil_perm.mp (empty ▸ isOrder)))
  choose result folds reduced using place updates (.refl _)
  refine ⟨fun i => if i < count then result i else initial i, ?_, ?_, ?_⟩
  · intro order isOrder
    apply foldlM_reduceRows
    intro i less
    obtain ⟨other, fold, isReduced⟩ := place order isOrder i
    rw [fold, isReduced_unique unordered ((isOrder.map (· i)).cons (initial i)) isReduced
      (reduced i)]
  · intro i less
    simpa only [if_pos less] using reduced i
  · intro i above
    exact if_neg (by omega)

/-- A half-precision maximum of -0 and two updates, of which one is +0, in either order. -/
theorem reduce_rows_unordered_zeros : 10 < 11 ∧ ElemKind.f16.Unordered .max ∧
    ∃ result : Nat → BitVec 16,
      [fun _ => 0#16, fun _ => 0x8000#16].foldlM
        (reduceRows ⟨fun a _ => a, fun a _ => a⟩ 11 .f16 .max 1) (fun _ => 0x8000#16) =
          some result ∧
      [fun _ => 0x8000#16, fun _ => 0#16].foldlM
        (reduceRows ⟨fun a _ => a, fun a _ => a⟩ 11 .f16 .max 1) (fun _ => 0x8000#16) =
          some result := by
  have unordered : ElemKind.f16.Unordered .max := ⟨by decide, .inl rfl⟩
  obtain ⟨result, same, -⟩ := reduce_rows_unordered ⟨fun a _ => a, fun a _ => a⟩ 11 .f16 .max 1
    (fun _ => 0x8000#16) [fun _ => 0#16, fun _ => 0x8000#16] (by decide) unordered (by simp)
  exact ⟨by decide, unordered, result, same _ (.refl _), same _ (.swap ..)⟩

/-- Single-precision numbers that are in order stay so when a scatter narrows them to 16 bits: also
zeros of either sign, infinities, and what is rounded to them. -/
theorem narrowing_keeps_order (u v : BitVec 32) (uNumeric : ¬binary32.IsNaN u.toNat)
    (vNumeric : ¬binary32.IsNaN v.toNat) (ordered : binary32.AtMost u.toNat v.toNat) :
    binary16.AtMost (f32ToF16 u).toNat (f32ToF16 v).toNat ∧
      bfloat16.AtMost (f32ToBf16 u).toNat (f32ToBf16 v).toNat := by
  have same (ranks : binary32.rank u.toNat = binary32.rank v.toNat) : u = v :=
    BitVec.eq_of_toNat_eq (binary32.eq_of_rank u.isLt v.isLt ranks)
  constructor
  · exact (f32ToF16_rounds u).atMost (f32ToF16_rounds v) uNumeric vNumeric
      (fun ranks => by rw [same ranks]) ordered
  · exact (f32ToBf16_rounds u).atMost (f32ToBf16_rounds v) uNumeric vNumeric
      (fun ranks => by rw [same ranks]) ordered

/-- The theorem at a negative number that is rounded to -0, and +0. -/
theorem narrowing_keeps_order_zero : binary16.AtMost (f32ToF16 0xB2000000#32).toNat
    (f32ToF16 0#32).toNat := by
  have uNumeric : ¬binary32.IsNaN (0xB2000000#32).toNat := fun nan => absurd nan.1 (by decide)
  have vNumeric : ¬binary32.IsNaN (0#32).toNat := fun nan => absurd nan.1 (by decide)
  exact (narrowing_keeps_order _ _ uNumeric vNumeric
    ((binary32.atMost_iff uNumeric vNumeric).mpr (by decide))).1

end Libtt.IndexedRows

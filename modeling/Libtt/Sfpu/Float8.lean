import Libtt.Foundation.BinaryFloat
import Libtt.Sfpu.Unit

/-!
# Exact float8 conversions

The kernels of `float8_sfpu.h`, in one lane: float8 codes sit zero-extended in 32 bits. What they
should return is stated on the numbers that codes and floats stand for.
-/
namespace Libtt.Sfpu

open Libtt.Foundation

/-- `sfpi::shft`, to the right by a negative amount. -/
def shft (word amount : Word) : Word :=
  if amount.slt 0#32 then word >>> ((-amount).toNat % 32) else word <<< (amount.toNat % 32)

/-- The lane arithmetic of floats. -/
structure FloatLane where
  /-- `sfpi::convert<sfpi::vFloat>` of an integer. -/
  convert : Word → Word
  mul : Word → Word → Word

/-- The code of infinity (e5m2) or of NaN (e4m3fn). -/
def topCode (M : Nat) (hasInf : Bool) : Word :=
  if hasInf then 0x7f#32 &&& ~~~(1#32 <<< M - 1#32) else 0x7f#32

/-- `calculate_fp8_to_fp32`. -/
def calculateFp8ToFp32 (lane : FloatLane) (M BIAS : Nat) (hasInf : Bool) (code : Word) : Word :=
  let magnitude := code &&& 0x7f#32
  let bits := shft magnitude (BitVec.ofNat 32 (23 - M)) + BitVec.ofNat 32 (127 - BIAS) <<< 23
  -- the float of `__builtin_ldexpf(1.0f, 1 - BIAS - M)` has only an exponent
  let bits := if magnitude.slt (1#32 <<< M) then
      lane.mul (lane.convert magnitude) (BitVec.ofNat 32 (128 - BIAS - M) <<< 23)
    else bits
  let top := topCode M hasInf
  let bits := if hasInf && magnitude == top then 0x7f800000#32 else bits
  let bits := if (top - if hasInf then 0#32 else 1#32).slt magnitude then 0x7fc00000#32 else bits
  bits ||| shft (code &&& 0x80#32) 24#32

/-- `calculate_fp32_to_fp8`. -/
def calculateFp32ToFp8 (M BIAS : Nat) (hasInf : Bool) (input : Word) : Word :=
  let magnitude := input &&& 0x7fffffff#32
  let magnitude := if (0x7f800000#32).slt magnitude then 0x7f800000#32 else magnitude
  let shift := BitVec.ofNat 32 (151 - BIAS - M) - shft magnitude (-23#32)
  let shift := if (31#32).slt shift then 31#32 else shift
  let significand := magnitude &&& 0x7fffff#32 ||| 0x800000#32
  let subnormal := shft (significand + (shft 1#32 (shift - 1#32) - 1#32) +
    (shft significand (0#32 - shift) &&& 1#32)) (0#32 - shift)
  let dropped := 23 - M
  let code := shft (magnitude + (shft magnitude (-BitVec.ofNat 32 dropped) &&& 1#32) +
      (1#32 <<< (dropped - 1) - 1#32)) (-BitVec.ofNat 32 dropped) -
    BitVec.ofNat 32 (127 - BIAS) <<< M
  let code := if magnitude.slt (BitVec.ofNat 32 (128 - BIAS) <<< 23) then subnormal else code
  let top := topCode M hasInf
  let code := if top.slt code then top else code
  let code := if hasInf && (0x7f800000#32).slt (input &&& 0x7fffffff#32) then 0x7f#32 else code
  code ||| (shft input (-24#32) &&& 0x80#32)

/-- The formats. -/
inductive Float8 where
  | e4m3fn | e5m2
  deriving DecidableEq

namespace Float8

/-- Mantissa bits. -/
def M : Float8 → Nat
  | e4m3fn => 3
  | e5m2 => 2

/-- The exponent bias. -/
def BIAS : Float8 → Nat
  | e4m3fn => 7
  | e5m2 => 15

def hasInf : Float8 → Bool
  | e4m3fn => false
  | e5m2 => true

/-- The layout of a code's fields. In e4m3fn the highest exponent is one of numbers. -/
def layout : Float8 → BinaryFormat
  | e4m3fn => ⟨4, 3, by decide, by decide⟩
  | e5m2 => ⟨5, 2, BinaryFormat.binary16.exponentBits_two, by decide⟩

/-- The first magnitude that is no number. -/
def top : Float8 → Nat
  | e4m3fn => 0x7f
  | e5m2 => 0x7c

variable (format : Float8)

def magnitude (code : Nat) : Nat := code % 2 ^ 7

def Negative (code : Nat) : Prop := code / 2 ^ 7 % 2 = 1

def IsFinite (code : Nat) : Prop := magnitude code < format.top

def IsInfinite (code : Nat) : Prop := format.hasInf = true ∧ magnitude code = format.top

def IsNaN (code : Nat) : Prop := ¬format.IsFinite code ∧ ¬format.IsInfinite code

/-- The number of a magnitude, as if the exponents went on. -/
def size (magnitude : Nat) : ℚ := format.layout.units magnitude * format.layout.unit

/-- The number that a finite code stands for. -/
def value (code : Nat) : ℚ := format.layout.value code

/-- The magnitude nearest to a number; of two, the even one. -/
def NearestEven (number : ℚ) (rounded : Nat) : Prop :=
  ∀ other, |format.size rounded - number| ≤ |format.size other - number| ∧
    (|format.size rounded - number| = |format.size other - number| →
      other = rounded ∨ rounded % 2 = 0)

/-- The code that a float is rounded to: what goes past the largest number is the top code. -/
structure Encodes (input code : Nat) : Prop where
  byte : code < 2 ^ 8
  sign : Negative code ↔ BinaryFormat.binary32.Negative input
  nan : BinaryFormat.binary32.IsNaN input → format.IsNaN code
  infinite : BinaryFormat.binary32.IsInfinite input → magnitude code = format.top
  number : BinaryFormat.binary32.IsFinite input → ∃ rounded,
    format.NearestEven |BinaryFormat.binary32.value input| rounded ∧
      magnitude code = min rounded format.top

/-- The float that is what a code is. -/
structure Decodes (code output : Nat) : Prop where
  sign : BinaryFormat.binary32.Negative output ↔ Negative code
  nan : format.IsNaN code → BinaryFormat.binary32.IsNaN output
  infinite : format.IsInfinite code → BinaryFormat.binary32.IsInfinite output
  number : format.IsFinite code → BinaryFormat.binary32.IsFinite output ∧
    BinaryFormat.binary32.value output = format.value code

end Float8

/-- What the conversions rely on: integers become floats exactly, and so does a float times a power
of two, while no subnormal comes of it. -/
structure FloatLane.Exact (lane : FloatLane) : Prop where
  convert : ∀ integer : Word, integer.toNat < 2 ^ 24 →
    ¬BinaryFormat.binary32.Negative (lane.convert integer).toNat ∧
      BinaryFormat.binary32.IsFinite (lane.convert integer).toNat ∧
      BinaryFormat.binary32.value (lane.convert integer).toNat = integer.toNat
  mul : ∀ number power : Word, ¬BinaryFormat.binary32.Negative number.toNat →
    ¬BinaryFormat.binary32.Negative power.toNat → BinaryFormat.binary32.IsFinite number.toNat →
    BinaryFormat.binary32.IsFinite power.toNat → BinaryFormat.binary32.fraction power.toNat = 0 →
    BinaryFormat.binary32.exponent power.toNat ≠ 0 →
    (BinaryFormat.binary32.value number.toNat = 0 ∨
      2 ^ (-126 : ℤ) ≤ BinaryFormat.binary32.value number.toNat ∧
      2 ^ (-126 : ℤ) ≤ BinaryFormat.binary32.value number.toNat *
        BinaryFormat.binary32.value power.toNat ∧
      BinaryFormat.binary32.value number.toNat * BinaryFormat.binary32.value power.toNat <
        2 ^ (128 : ℤ)) →
    ¬BinaryFormat.binary32.Negative (lane.mul number power).toNat ∧
      BinaryFormat.binary32.IsFinite (lane.mul number power).toNat ∧
      BinaryFormat.binary32.value (lane.mul number power).toNat =
        BinaryFormat.binary32.value number.toNat * BinaryFormat.binary32.value power.toNat

end Libtt.Sfpu

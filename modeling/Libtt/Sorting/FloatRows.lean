import Libtt.Foundation.FloatOrder
import Libtt.IndexedRows.Half
import Libtt.Sorting.IntegerKeys

/-!
# Sorts of float rows

The device sorts the 32-bit words of a padded row by their sign and magnitude.
-/
namespace Libtt.Sorting

open Libtt.Foundation BinaryFormat

/-- The floats that are sorted. -/
inductive FloatType
  | float32 | bfloat16 | float16
  deriving DecidableEq, Repr

def FloatType.format : FloatType → BinaryFormat
  | .float32 => binary32
  | .bfloat16 => BinaryFormat.bfloat16
  | .float16 => binary16

def FloatType.width : FloatType → Nat
  | .float32 => 32
  | .bfloat16 => 16
  | .float16 => 16

/-- What StableHLO's comparators see: -0 is +0, and the NaNs are one value above +inf. -/
def comparable (format : BinaryFormat) (encoding : Nat) : WithTop (WithBot (WithTop ℚ)) :=
  if format.IsNaN encoding then ⊤ else (format.extended encoding : WithTop _)

/-- The casts around the sort, and the one of a fill value when a BF16 row is padded. -/
structure Casts where
  bfloat16ToFloat32 : BitVec 16 → Word
  float16ToFloat32 : BitVec 16 → Word
  fillBfloat16 : Word → BitVec 16

/-- Widening keeps every number, and narrowing rounds to the nearest one; NaNs stay NaNs. -/
structure Casts.Documented (casts : Casts) : Prop where
  bfloat16 (bits : BitVec 16) :
    SameNumber BinaryFormat.bfloat16 binary32 bits.toNat (casts.bfloat16ToFloat32 bits).toNat
  float16 (bits : BitVec 16) :
    SameNumber binary16 binary32 bits.toNat (casts.float16ToFloat32 bits).toNat
  fill (value : Word) :
    RoundsToNearestEven binary32 BinaryFormat.bfloat16 value.toNat (casts.fillBfloat16 value).toNat

/-- The NaN that ascending rows are padded with. -/
def paddingNan : Word := 0x7FFFFFFF#32

/-- A lane of `_topk_canonicalize_negzero_value_tiles_`, between its load and its store. -/
def canonicalizeLane (canonicalizeNan : Bool) (loaded : Word) : Word :=
  let magnitude := loaded &&& 0x7FFFFFFF#32
  let value := if magnitude = 0#32 then loaded &&& 0x7FFFFFFF#32 else loaded
  -- NaN lanes: inf - |x| < 0. Of those, skip the padding word.
  if canonicalizeNan ∧ (0x7F800000#32 - magnitude).slt 0#32 ∧ value ^^^ 0x7FFFFFFF#32 ≠ 0#32 then
    0x7FC00000#32
  else value

/-- A row to sort, and what the caller asks for. -/
structure FloatSort where
  dtype : FloatType
  elements : List (BitVec dtype.width)
  paddedLength : Nat
  descending : Bool
  stable : Bool
  /-- The caller provides an indices output of UINT32. -/
  uint32Output : Bool
  fits : elements.length ≤ paddedLength

namespace FloatSort

variable (sort : FloatSort) (casts : Casts)

def length : Nat := sort.elements.length

def uint32Indices : Bool := 32768 < sort.length ∨ sort.uint32Output

def promoteToFloat32 : Bool :=
  sort.dtype = .float16 ∨ sort.dtype = .bfloat16 ∧ sort.uint32Indices

/-- BF16 values that are not promoted stay in 16-bit DEST. -/
def is32BitDest : Bool := sort.dtype ≠ .bfloat16 ∨ sort.promoteToFloat32

/-- What `ttnn::prim::sort` is given for `stable`. -/
def indexAware : Bool := sort.stable ∨ sort.dtype = .bfloat16

/-- `pad_fill` of a float row. -/
def padFill : Word := if sort.descending then 0xFF800000#32 else paddingNan

/-- A value in the rows of `padded_input_tensor`, as the SFPU loads it. -/
def deviceWord (is32BitDest : Bool) : (dtype : FloatType) → BitVec dtype.width → Word
  | .float32, bits => bits
  | .bfloat16, bits => if is32BitDest then casts.bfloat16ToFloat32 bits else bits ++ 0#16
  | .float16, bits => casts.float16ToFloat32 bits

def paddingWord : Word :=
  if sort.is32BitDest then sort.padFill else casts.fillBfloat16 sort.padFill ++ 0#16

/-- The padded row. -/
def word (place : Nat) : Word :=
  if inside : place < sort.elements.length then
    deviceWord casts sort.is32BitDest sort.dtype sort.elements[place]
  else sort.paddingWord casts

/-- The word that the network compares: a store to 16-bit DEST narrows it. -/
def canonicalWord (place : Nat) : Word :=
  let canonical := canonicalizeLane true (sort.word casts place)
  if sort.is32BitDest then canonical else canonical.extractLsb' 16 16 ++ 0#16

/-- The network compares signs and magnitudes. -/
def key (place : Nat) : ℤ := binary32.rank (sort.canonicalWord casts place).toNat

/-- An order that the network may leave the places in. -/
def Leaves (order : List Nat) : Prop :=
  if sort.indexAware then
    StableOrder (direction sort.descending) (sort.key casts) sort.paddedLength order
  else
    order.Perm (List.range sort.paddedLength) ∧
      order.Pairwise fun first second =>
        ¬direction sort.descending (sort.key casts second) (sort.key casts first)

/-- The value at a place of the row, or that of +0 outside. -/
def number (place : Nat) : WithTop (WithBot (WithTop ℚ)) :=
  comparable sort.dtype.format (sort.elements.getD place 0).toNat

/-- The first places are the row's, each once, in the order of StableHLO's comparator. -/
structure Sorted (order : List Nat) : Prop where
  each : (order.take sort.length).Perm (List.range sort.length)
  byNumber : (order.take sort.length).Pairwise fun first second =>
    ¬direction sort.descending (sort.number second) (sort.number first)
  ties : sort.indexAware → (order.take sort.length).Pairwise fun first second =>
    sort.number first = sort.number second → first < second

/-- The row has nothing that the padding is confused with. -/
def Unconfused : Prop :=
  if sort.indexAware then
    ∀ first second, first < second → second < sort.length →
      binary32.IsNaN (sort.word casts first).toNat →
      binary32.IsNaN (sort.word casts second).toNat →
      if sort.descending then
        sort.word casts second = paddingNan → sort.word casts first = paddingNan
      else sort.word casts first = paddingNan → sort.word casts second = paddingNan
  else
    sort.length = sort.paddedLength ∨ ∀ place < sort.length, sort.word casts place ≠ sort.padFill

end FloatSort

end Libtt.Sorting

/-! ## What the padding is confused with -/
namespace Libtt.Sorting

open Libtt.Foundation BinaryFormat

theorem direction_irrefl {κ : Type} [Preorder κ] {isDescending : Bool} {key : κ} :
    ¬direction isDescending key key := by
  unfold direction
  split <;> exact lt_irrefl _

theorem direction_asymm {κ : Type} [Preorder κ] {isDescending : Bool} {first second : κ}
    (before : direction isDescending first second) : ¬direction isDescending second first := by
  unfold direction at before ⊢
  split at before
  · rename_i descending
    rw [if_pos descending]
    exact before.asymm
  · rename_i ascending
    rw [if_neg ascending]
    exact before.asymm

theorem direction_total {κ : Type} [LinearOrder κ] (isDescending : Bool) (first second : κ) :
    direction isDescending first second ∨ first = second ∨ direction isDescending second first := by
  unfold direction
  split
  · rcases lt_trichotomy second first with less | same | greater
    · exact .inl less
    · exact .inr (.inl same.symm)
    · exact .inr (.inr greater)
  · exact lt_trichotomy first second

theorem direction_trans {κ : Type} [Preorder κ] {isDescending : Bool} {first second third : κ}
    (before : direction isDescending first second) (after : direction isDescending second third) :
    direction isDescending first third := by
  unfold direction at before after ⊢
  split at before
  · rename_i descending
    rw [if_pos descending] at after ⊢
    exact after.trans before
  · rename_i ascending
    rw [if_neg ascending] at after ⊢
    exact before.trans after

theorem magnitude_masked (word : Word) :
    (word &&& 0x7FFFFFFF#32).toNat = binary32.magnitude word.toNat := by
  rw [BitVec.toNat_and, show (0x7FFFFFFF#32).toNat = 2 ^ 31 - 1 from rfl,
    Nat.and_two_pow_sub_one_eq_mod]
  rfl

theorem magnitude_lt_two_pow (word : Word) : binary32.magnitude word.toNat < 2 ^ 31 :=
  binary32.magnitude_lt word.toNat

/-- Below infinity, the difference has a sign. -/
theorem isNaN_lane (word : Word) :
    (0x7F800000#32 - (word &&& 0x7FFFFFFF#32)).slt 0#32 ↔ binary32.IsNaN word.toNat := by
  have masked := magnitude_masked word
  have less := magnitude_lt_two_pow word
  rw [binary32.isNaN_iff, show binary32.infinity = 0x7F800000 from rfl,
    BitVec.slt_zero_iff_msb_cond, BitVec.msb_eq_decide, decide_eq_true_iff, BitVec.toNat_sub, masked]
  simp only [BitVec.toNat_ofNat]
  omega

theorem canonicalizeLane_eq (word : Word) : canonicalizeLane true word =
    if binary32.magnitude word.toNat = 0 then 0#32
    else if binary32.IsNaN word.toNat ∧ word ≠ paddingNan then 0x7FC00000#32 else word := by
  have masked := magnitude_masked word
  by_cases zero : binary32.magnitude word.toNat = 0
  · have isZero : word &&& 0x7FFFFFFF#32 = 0#32 := BitVec.eq_of_toNat_eq (masked.trans zero)
    rw [if_pos zero, canonicalizeLane, isZero]
    rfl
  · have notZero : word &&& 0x7FFFFFFF#32 ≠ 0#32 := by
      intro isZero
      rw [isZero] at masked
      exact zero masked.symm
    rw [if_neg zero, canonicalizeLane]
    simp only [if_neg notZero, true_and, isNaN_lane, ne_eq, BitVec.xor_eq_zero_iff]
    rfl

/-- What the comparator sees of a word. -/
def wordNumber (word : Word) : WithTop (WithBot (WithTop ℚ)) := comparable binary32 word.toNat

/-- The signed magnitude of a number, and for every NaN the one after infinity. -/
def wordOrder (word : Word) : ℤ :=
  if binary32.IsNaN word.toNat then binary32.infinity + 1 else binary32.signedMagnitude word.toNat

theorem wordOrder_bounds (word : Word) :
    -binary32.infinity ≤ wordOrder word ∧ wordOrder word ≤ binary32.infinity + 1 := by
  unfold wordOrder
  split
  · omega
  · rename_i numeric
    have most := binary32.signedMagnitude_le numeric
    omega

theorem isNaN_iff_wordOrder (word : Word) :
    binary32.IsNaN word.toNat ↔ wordOrder word = binary32.infinity + 1 := by
  unfold wordOrder
  split
  · rename_i nan
    exact iff_of_true nan rfl
  · rename_i numeric
    have most := binary32.signedMagnitude_le numeric
    exact iff_of_false numeric (by omega)

theorem wordNumber_lt_iff (first second : Word) :
    wordNumber first < wordNumber second ↔ wordOrder first < wordOrder second := by
  have firstBounds := wordOrder_bounds first
  have secondBounds := wordOrder_bounds second
  unfold wordNumber comparable
  by_cases firstNaN : binary32.IsNaN first.toNat
  · have isFirst := (isNaN_iff_wordOrder first).mp firstNaN
    rw [if_pos firstNaN]
    exact iff_of_false not_top_lt (by omega)
  · rw [if_neg firstNaN]
    by_cases secondNaN : binary32.IsNaN second.toNat
    · have isFirst := mt (isNaN_iff_wordOrder first).mpr firstNaN
      have isSecond := (isNaN_iff_wordOrder second).mp secondNaN
      rw [if_pos secondNaN]
      exact iff_of_true (WithTop.coe_lt_top _) (by omega)
    · rw [if_neg secondNaN, WithTop.coe_lt_coe, binary32.extended_lt_iff firstNaN secondNaN,
        wordOrder, wordOrder, if_neg firstNaN, if_neg secondNaN]

theorem wordNumber_eq_iff (first second : Word) :
    wordNumber first = wordNumber second ↔ wordOrder first = wordOrder second := by
  have forward := wordNumber_lt_iff first second
  have backward := wordNumber_lt_iff second first
  constructor
  · intro same
    rw [same, lt_self_iff_false, false_iff] at forward backward
    omega
  · intro same
    rw [same, lt_self_iff_false, iff_false] at forward backward
    exact le_antisymm (not_lt.mp backward) (not_lt.mp forward)

/-- The key of a number: zeros are one, and the numbers below are one further. -/
theorem rank_of_number {word : Word} (numeric : ¬binary32.IsNaN word.toNat) :
    binary32.rank (canonicalizeLane true word).toNat =
      if wordOrder word < 0 then wordOrder word - 1 else wordOrder word := by
  rw [canonicalizeLane_eq, wordOrder, if_neg numeric, signedMagnitude]
  by_cases zero : binary32.magnitude word.toNat = 0
  · rw [if_pos zero, zero]
    simp [rank, show ¬binary32.Negative 0 by decide, show binary32.magnitude 0 = 0 from rfl]
  · rw [if_neg zero, if_neg (by simp [numeric]), rank]
    split <;> split <;> omega

theorem rank_of_nan {word : Word} (nan : binary32.IsNaN word.toNat) :
    binary32.rank (canonicalizeLane true word).toNat =
      if word = paddingNan then 0x7FFFFFFF else 0x7FC00000 := by
  have notZero : binary32.magnitude word.toNat ≠ 0 := by
    have positive := binary32.isNaN_iff.mp nan
    omega
  rw [canonicalizeLane_eq, if_neg notZero]
  by_cases padding : word = paddingNan
  · rw [if_neg (by simp [padding]), if_pos padding, padding]
    rfl
  · rw [if_pos ⟨nan, padding⟩, if_neg padding]
    rfl

/-- Keys are ordered as the numbers are. -/
theorem rank_lt_of_number_lt {first second : Word} (less : wordNumber first < wordNumber second) :
    binary32.rank (canonicalizeLane true first).toNat <
      binary32.rank (canonicalizeLane true second).toNat := by
  have order := (wordNumber_lt_iff first second).mp less
  have bounds := wordOrder_bounds second
  have largest : (binary32.infinity : ℤ) = 0x7F800000 := rfl
  have firstNumeric : ¬binary32.IsNaN first.toNat := by
    rw [isNaN_iff_wordOrder]
    omega
  rw [rank_of_number firstNumeric]
  by_cases secondNaN : binary32.IsNaN second.toNat
  · rw [rank_of_nan secondNaN]
    split <;> split <;> omega
  · rw [rank_of_number secondNaN]
    split <;> split <;> omega

/-- Keys of one number are equal, unless one of two NaNs is the padding's. -/
theorem rank_eq_iff (first second : Word) :
    binary32.rank (canonicalizeLane true first).toNat =
        binary32.rank (canonicalizeLane true second).toNat ↔
      wordNumber first = wordNumber second ∧ (first = paddingNan ↔ second = paddingNan) := by
  have paddingIsNaN : binary32.IsNaN paddingNan.toNat := by decide
  have firstBounds := wordOrder_bounds first
  have secondBounds := wordOrder_bounds second
  have largest : (binary32.infinity : ℤ) = 0x7F800000 := rfl
  have isFirst := isNaN_iff_wordOrder first
  have isSecond := isNaN_iff_wordOrder second
  rw [wordNumber_eq_iff]
  by_cases firstNaN : binary32.IsNaN first.toNat <;>
    by_cases secondNaN : binary32.IsNaN second.toNat
  · rw [rank_of_nan firstNaN, rank_of_nan secondNaN, isFirst.mp firstNaN, isSecond.mp secondNaN]
    by_cases firstPadding : first = paddingNan <;> by_cases secondPadding : second = paddingNan <;>
      simp [firstPadding, secondPadding]
  · have order := mt isSecond.mpr secondNaN
    rw [rank_of_nan firstNaN, rank_of_number secondNaN, isFirst.mp firstNaN]
    apply iff_of_false
    · split <;> split <;> omega
    · rintro ⟨same, -⟩
      exact order same.symm
  · have order := mt isFirst.mpr firstNaN
    rw [rank_of_nan secondNaN, rank_of_number firstNaN, isSecond.mp secondNaN]
    apply iff_of_false
    · split <;> split <;> omega
    · rintro ⟨same, -⟩
      exact order same
  · have firstOther : first ≠ paddingNan := fun padding => firstNaN (padding ▸ paddingIsNaN)
    have secondOther : second ≠ paddingNan := fun padding => secondNaN (padding ▸ paddingIsNaN)
    rw [rank_of_number firstNaN, rank_of_number secondNaN]
    simp only [firstOther, secondOther, iff_self, and_true]
    split <;> split <;> omega

theorem rank_le (word : Word) :
    binary32.rank (canonicalizeLane true word).toNat ≤ 0x7FFFFFFF ∧
      (word ≠ paddingNan → binary32.rank (canonicalizeLane true word).toNat ≤ 0x7FC00000) ∧
      -0x7F800001 ≤ binary32.rank (canonicalizeLane true word).toNat := by
  have bounds := wordOrder_bounds word
  have largest : (binary32.infinity : ℤ) = 0x7F800000 := rfl
  by_cases nan : binary32.IsNaN word.toNat
  · rw [rank_of_nan nan]
    by_cases padding : word = paddingNan
    · simp [padding]
    · simp [padding]
  · have isNumber := mt (isNaN_iff_wordOrder word).mpr nan
    rw [rank_of_number nan]
    split <;> omega

/-- The least key is that of -inf. -/
theorem rank_of_least {word : Word} (least : wordOrder word = -binary32.infinity) :
    binary32.rank (canonicalizeLane true word).toNat = -0x7F800001 := by
  have largest : (binary32.infinity : ℤ) = 0x7F800000 := rfl
  have numeric : ¬binary32.IsNaN word.toNat := by
    rw [isNaN_iff_wordOrder]
    omega
  rw [rank_of_number numeric, if_pos (by omega)]
  omega

theorem rank_paddingNan_iff (word : Word) :
    binary32.rank (canonicalizeLane true word).toNat = 0x7FFFFFFF ↔ word = paddingNan := by
  have most := (rank_le word).2.1
  constructor
  · intro same
    by_contra other
    have less := most other
    omega
  · rintro rfl
    decide

theorem rank_negativeInfinity_iff (word : Word) :
    binary32.rank (canonicalizeLane true word).toNat = -0x7F800001 ↔ word = 0xFF800000#32 := by
  constructor
  · intro same
    by_cases nan : binary32.IsNaN word.toNat
    · rw [rank_of_nan nan] at same
      exact absurd same (by split <;> decide)
    · rw [rank_of_number nan] at same
      have least : wordOrder word = -0x7F800000 := by split at same <;> omega
      rw [wordOrder, if_neg nan, signedMagnitude] at least
      by_cases negative : binary32.Negative word.toNat
      · rw [if_pos negative] at least
        have magnitude : binary32.magnitude word.toNat = word.toNat % 2 ^ 31 := rfl
        have sign : word.toNat / 2 ^ 31 % 2 = 1 := negative
        apply BitVec.eq_of_toNat_eq
        rw [BitVec.toNat_ofNat]
        omega
      · rw [if_neg negative] at least
        omega
  · rintro rfl
    decide

/-- A stored 16-bit word is the canonical one: its low half is zero. -/
theorem narrowed_canonical (bits : BitVec 16) :
    (canonicalizeLane true (bits ++ 0#16)).extractLsb' 16 16 ++ 0#16 =
      canonicalizeLane true (bits ++ 0#16) := by
  rw [canonicalizeLane_eq]
  split
  · rfl
  · split
    · rfl
    · rw [BitVec.extractLsb'_append_eq_left]

/-- BF16 is the high half of FP32. -/
theorem bfloat16_sameNumber (bits : BitVec 16) :
    SameNumber BinaryFormat.bfloat16 binary32 bits.toNat (bits ++ 0#16 : Word).toNat := by
  have widened : (bits ++ 0#16 : Word) = IndexedRows.bf16ToF32 bits := by
    apply BitVec.eq_of_toNat_eq
    rw [IndexedRows.bf16ToF32, BitVec.toNat_append, BitVec.toNat_shiftLeft, BitVec.toNat_setWidth]
    simp only [Nat.shiftLeft_eq, BitVec.toNat_ofNat, Nat.zero_mod, Nat.or_zero]
    omega
  rw [widened]
  exact IndexedRows.bf16ToF32_same bits

theorem wordNumber_of_same {source : BinaryFormat} {original : Nat} {word : Word}
    (same : SameNumber source binary32 original word.toNat) :
    wordNumber word = comparable source original := by
  by_cases nan : source.IsNaN original
  · rw [wordNumber, comparable, comparable, if_pos nan, if_pos (same.nan.mpr nan)]
  · rw [wordNumber, comparable, comparable, if_neg nan, if_neg (mt same.nan.mp nan),
      same.extended nan]

namespace FloatSort

variable {casts : Casts}

/-- The device's words are the numbers of the row. -/
theorem number_deviceWord (documented : casts.Documented) (is32BitDest : Bool) (dtype : FloatType)
    (bits : BitVec dtype.width) :
    wordNumber (deviceWord casts is32BitDest dtype bits) = comparable dtype.format bits.toNat := by
  cases dtype with
  | float32 => rfl
  | bfloat16 =>
    cases is32BitDest
    · exact wordNumber_of_same (bfloat16_sameNumber bits)
    · exact wordNumber_of_same (documented.bfloat16 bits)
  | float16 => exact wordNumber_of_same (documented.float16 bits)

variable (sort : FloatSort)

theorem number_eq (documented : casts.Documented) {place : Nat} (inside : place < sort.length) :
    sort.number place = wordNumber (sort.word casts place) := by
  have element : place < sort.elements.length := inside
  rw [number, word, dif_pos element, List.getD_eq_getElem _ _ element]
  exact (number_deviceWord documented _ _ _).symm

theorem word_padding {place : Nat} (outside : sort.length ≤ place) :
    sort.word casts place = sort.paddingWord casts :=
  dif_neg outside.not_gt

/-- Only BF16 values are in 16-bit DEST. -/
theorem word_bfloat16 (casts : Casts) (narrow : sort.is32BitDest = false) (place : Nat) :
    ∃ bits : BitVec 16, sort.word casts place = bits ++ 0#16 := by
  by_cases inside : place < sort.elements.length
  · rw [word, dif_pos inside, narrow]
    have isBfloat16 : sort.dtype = .bfloat16 := by
      simp only [is32BitDest, decide_eq_false_iff_not] at narrow
      tauto
    generalize sort.elements[place] = bits
    generalize sort.dtype = dtype at isBfloat16 bits
    subst isBfloat16
    exact ⟨bits, rfl⟩
  · rw [sort.word_padding (not_lt.mp inside), paddingWord, narrow]
    exact ⟨_, rfl⟩

/-- What the network compares. -/
theorem key_eq (casts : Casts) (place : Nat) : sort.key casts place =
    binary32.rank (canonicalizeLane true (sort.word casts place)).toNat := by
  rw [key, canonicalWord]
  cases isDest : sort.is32BitDest
  · obtain ⟨bits, isWord⟩ := sort.word_bfloat16 casts isDest place
    rw [if_neg Bool.false_ne_true, isWord, narrowed_canonical]
  · rw [if_pos rfl]

theorem padFill_order :
    wordOrder sort.padFill = if sort.descending then -(binary32.infinity : ℤ)
      else binary32.infinity + 1 := by
  unfold padFill
  split <;> rfl

/-- The padding is -inf in a descending row, and a NaN in an ascending one. -/
theorem padding_order (documented : casts.Documented) :
    wordOrder (sort.paddingWord casts) = if sort.descending then -(binary32.infinity : ℤ)
      else binary32.infinity + 1 := by
  have order := sort.padFill_order
  unfold paddingWord
  split
  · exact order
  have rounds := documented.fill sort.padFill
  have same := bfloat16_sameNumber (casts.fillBfloat16 sort.padFill)
  split
  · rename_i descending
    have isFill : sort.padFill = 0xFF800000#32 := if_pos descending
    rw [isFill] at rounds same ⊢
    have numeric : ¬binary32.IsNaN (0xFF800000#32 : Word).toNat := by decide
    have infinite := same.infinite.mpr (rounds.infinite (by decide))
    have negative := same.sign.mpr ((rounds.sign numeric).mpr (by decide))
    rw [wordOrder, if_neg (mt same.nan.mp (mt rounds.nan.mp numeric)), signedMagnitude,
      if_pos negative, binary32.isInfinite_iff.mp infinite]
  · rename_i ascending
    have isFill : sort.padFill = paddingNan := if_neg ascending
    rw [isFill] at rounds same ⊢
    exact (isNaN_iff_wordOrder _).mp (same.nan.mpr (rounds.nan.mpr (by decide)))

variable {sort}

/-- Numbers in order have keys in order. -/
theorem direction_key (documented : casts.Documented) {first second : Nat}
    (isFirst : first < sort.length) (isSecond : second < sort.length)
    (before : direction sort.descending (sort.number first) (sort.number second)) :
    direction sort.descending (sort.key casts first) (sort.key casts second) := by
  rw [sort.number_eq documented isFirst, sort.number_eq documented isSecond] at before
  rw [sort.key_eq, sort.key_eq]
  unfold direction at before ⊢
  split at before
  · rename_i descending
    rw [if_pos descending]
    exact rank_lt_of_number_lt before
  · rename_i ascending
    rw [if_neg ascending]
    exact rank_lt_of_number_lt before

/-- One number has keys in order only where they are NaNs, and the later one is the padding's. -/
theorem tie_apart_iff (documented : casts.Documented) {first second : Nat}
    (isFirst : first < sort.length) (isSecond : second < sort.length) :
    sort.number first = sort.number second ∧
        direction sort.descending (sort.key casts first) (sort.key casts second) ↔
      binary32.IsNaN (sort.word casts first).toNat ∧
        binary32.IsNaN (sort.word casts second).toNat ∧
        if sort.descending then
          sort.word casts first = paddingNan ∧ sort.word casts second ≠ paddingNan
        else sort.word casts second = paddingNan ∧ sort.word casts first ≠ paddingNan := by
  rw [sort.number_eq documented isFirst, sort.number_eq documented isSecond, sort.key_eq,
    sort.key_eq]
  generalize sort.word casts first = firstWord
  generalize sort.word casts second = secondWord
  have firstNaN := isNaN_iff_wordOrder firstWord
  have secondNaN := isNaN_iff_wordOrder secondWord
  have same := wordNumber_eq_iff firstWord secondWord
  have ranks := rank_eq_iff firstWord secondWord
  have firstMost := (rank_le firstWord).1
  have secondMost := (rank_le secondWord).1
  have paddingIsNaN : binary32.IsNaN paddingNan.toNat := by decide
  constructor
  · rintro ⟨isSame, before⟩
    have nans : binary32.IsNaN firstWord.toNat ↔ binary32.IsNaN secondWord.toNat := by
      rw [firstNaN, secondNaN, same.mp isSame]
    have apart : ¬(firstWord = paddingNan ↔ secondWord = paddingNan) := by
      intro alike
      unfold direction at before
      rw [ranks.mpr ⟨isSame, alike⟩] at before
      split at before <;> exact lt_irrefl _ before
    by_cases isPadding : firstWord = paddingNan
    · have other : secondWord ≠ paddingNan := fun also => apart (iff_of_true isPadding also)
      have isNaN : binary32.IsNaN firstWord.toNat := isPadding ▸ paddingIsNaN
      have top := (rank_paddingNan_iff firstWord).mpr isPadding
      refine ⟨isNaN, nans.mp isNaN, ?_⟩
      unfold direction at before
      split at before
      · rename_i descending
        rw [if_pos descending]
        exact ⟨isPadding, other⟩
      · omega
    · have alsoPadding : secondWord = paddingNan := by
        by_contra other
        exact apart (iff_of_false isPadding other)
      have isNaN : binary32.IsNaN secondWord.toNat := alsoPadding ▸ paddingIsNaN
      have top := (rank_paddingNan_iff secondWord).mpr alsoPadding
      refine ⟨nans.mpr isNaN, isNaN, ?_⟩
      unfold direction at before
      split at before
      · omega
      · rename_i ascending
        rw [if_neg ascending]
        exact ⟨alsoPadding, isPadding⟩
  · rintro ⟨isFirstNaN, isSecondNaN, apart⟩
    refine ⟨same.mpr ((firstNaN.mp isFirstNaN).trans (secondNaN.mp isSecondNaN).symm), ?_⟩
    rw [rank_of_nan isFirstNaN, rank_of_nan isSecondNaN]
    unfold direction
    split at apart
    · rename_i descending
      rw [if_pos descending, if_pos apart.1, if_neg apart.2]
      decide
    · rename_i ascending
      rw [if_neg ascending, if_pos apart.1, if_neg apart.2]
      decide

/-- The padding is not before a place of the row. -/
theorem padding_last (documented : casts.Documented) {outside inside : Nat}
    (isOutside : sort.length ≤ outside) :
    ¬direction sort.descending (sort.key casts outside) (sort.key casts inside) := by
  have order := sort.padding_order documented
  have bounds := rank_le (sort.word casts inside)
  rw [sort.key_eq, sort.key_eq, sort.word_padding isOutside]
  unfold direction
  split
  · rename_i descending
    rw [if_pos descending] at order
    rw [rank_of_least order]
    omega
  · rename_i ascending
    rw [if_neg ascending] at order
    have nan := (isNaN_iff_wordOrder _).mpr order
    rw [rank_of_nan nan]
    cases isDest : sort.is32BitDest
    · -- A word of 16 bits is not the padding's NaN.
      obtain ⟨bits, isWord⟩ := sort.word_bfloat16 casts isDest inside
      have other : sort.word casts inside ≠ paddingNan := by
        rw [isWord]
        intro same
        have low := congrArg (fun word : Word => word.extractLsb' 0 16) same
        rw [BitVec.extractLsb'_append_eq_right] at low
        exact absurd low (by decide)
      have most := bounds.2.1 other
      split <;> omega
    · have isFill : sort.paddingWord casts = paddingNan := by
        rw [paddingWord, if_pos isDest]
        exact if_neg ascending
      rw [if_pos isFill]
      omega

/-- In 32-bit DEST a place of the row ties with the padding where it has the same word. -/
theorem padding_tie_iff (isDest : sort.is32BitDest = true)
    {outside inside : Nat} (isOutside : sort.length ≤ outside) :
    sort.key casts outside = sort.key casts inside ↔ sort.word casts inside = sort.padFill := by
  have isFill : sort.paddingWord casts = sort.padFill := if_pos isDest
  have order := sort.padFill_order
  rw [sort.key_eq, sort.key_eq, sort.word_padding isOutside, isFill]
  unfold padFill at order ⊢
  split at order
  · rename_i descending
    rw [if_pos descending, rank_of_least order, eq_comm]
    exact rank_negativeInfinity_iff _
  · rename_i ascending
    rw [if_neg ascending]
    have top := (rank_paddingNan_iff paddingNan).mpr rfl
    rw [top, eq_comm]
    exact rank_paddingNan_iff _

/-- An index-aware order keeps equal numbers in their places where no NaN is the padding's before
another, or after it in a descending row. -/
theorem unconfused_iff_ties (documented : casts.Documented) (isAware : sort.indexAware = true) :
    sort.Unconfused casts ↔ ∀ first second, first < second → second < sort.length →
      ¬(sort.number second = sort.number first ∧
        direction sort.descending (sort.key casts second) (sort.key casts first)) := by
  rw [Unconfused, if_pos isAware]
  apply forall_congr'
  intro first
  apply forall_congr'
  intro second
  apply imp_congr_right
  intro less
  apply imp_congr_right
  intro inside
  rw [tie_apart_iff documented inside (less.trans inside)]
  split <;> tauto

/-- Every order has all places, and no key before a greater one. -/
theorem Leaves.ordered {order : List Nat} (leaves : sort.Leaves casts order) :
    order.Perm (List.range sort.paddedLength) ∧ order.Pairwise fun first second =>
      ¬direction sort.descending (sort.key casts second) (sort.key casts first) := by
  unfold Leaves at leaves
  split at leaves
  · refine ⟨leaves.perm, leaves.sorted.imp fun ordered => ?_⟩
    rcases ordered with less | ⟨same, -⟩
    · exact direction_asymm less
    · rw [same]
      exact direction_irrefl
  · exact leaves

/-- Only BF16 is sorted in 16-bit DEST, and that is index-aware. -/
theorem is32BitDest_of_not_aware (notAware : ¬sort.indexAware = true) :
    sort.is32BitDest = true := by
  simp only [indexAware, decide_eq_true_iff, not_or] at notAware
  simp only [is32BitDest, decide_eq_true_iff]
  exact .inl notAware.2

section

variable {order : List Nat} (documented : casts.Documented) (unconfused : sort.Unconfused casts)
  (leaves : sort.Leaves casts order)
include documented unconfused leaves

theorem Leaves.first :
    order.Pairwise fun first second => second < sort.length → first < sort.length := by
  have ordered := leaves.ordered
  by_cases isAware : sort.indexAware = true
  · rw [Leaves, if_pos isAware] at leaves
    apply leaves.sorted.imp
    intro first second before inside
    by_contra outside
    rcases before with less | ⟨-, less⟩
    · exact padding_last documented (not_lt.mp outside) less
    · omega
  · rw [Unconfused, if_neg isAware] at unconfused
    apply ordered.2.imp_of_mem
    intro first second isFirst _ notAfter inside
    by_contra outside
    have isPlace := List.mem_range.mp (ordered.1.mem_iff.mp isFirst)
    rcases unconfused with whole | apart
    · omega
    · have tie : sort.key casts first = sort.key casts second := by
        rcases direction_total sort.descending (sort.key casts first) (sort.key casts second) with
          before | same | after
        · exact absurd before (padding_last documented (not_lt.mp outside))
        · exact same
        · exact absurd after notAfter
      exact apart second inside ((padding_tie_iff (is32BitDest_of_not_aware isAware)
        (not_lt.mp outside)).mp tie)

/-- A row that is not confused with its padding is sorted, in every order that may be left. -/
theorem Leaves.isSorted : sort.Sorted order := by
  have ordered := leaves.ordered
  have each := take_perm_range sort.fits ordered.1 (leaves.first documented unconfused)
  have inside {place : Nat} (taken : place ∈ order.take sort.length) : place < sort.length :=
    List.mem_range.mp (each.mem_iff.mp taken)
  constructor
  · exact each
  · apply (ordered.2.sublist (List.take_sublist _ _)).imp_of_mem
    intro first second isFirst isSecond notAfter after
    exact notAfter (direction_key documented (inside isSecond) (inside isFirst) after)
  · intro isAware
    rw [Leaves, if_pos isAware] at leaves
    have ties := (unconfused_iff_ties documented isAware).mp unconfused
    apply (leaves.sorted.sublist (List.take_sublist _ _)).imp_of_mem
    intro first second isFirst isSecond before same
    rcases before with less | ⟨-, earlier⟩
    · by_contra notEarlier
      rcases Nat.lt_or_eq_of_le (not_lt.mp notEarlier) with later | equal
      · exact ties second first later (inside isFirst) ⟨same, less⟩
      · rw [equal] at less
        exact direction_irrefl less
    · exact earlier

end

/-- Where ties are left in any order, the padding may come before the numbers it ties with. -/
theorem exists_padding_first (sort : FloatSort) (casts : Casts) :
    ∃ order : List Nat, order.Perm (List.range sort.paddedLength) ∧
      (order.Pairwise fun first second =>
        ¬direction sort.descending (sort.key casts second) (sort.key casts first)) ∧
      order.Pairwise fun first second => sort.key casts first = sort.key casts second →
        first < sort.length → second < sort.length := by
  let side (place : Nat) : ℤ := if place < sort.length ↔ sort.descending then 0 else 1
  have isStable := stableOrder_insertionSort (direction_total sort.descending)
    (fun _ _ _ => direction_trans) (fun place => 2 * sort.key casts place + side place)
    sort.paddedLength
  refine ⟨_, isStable.perm, isStable.sorted.imp ?_, isStable.sorted.imp ?_⟩
  · intro first second before after
    unfold Before direction at before
    unfold direction at after
    dsimp only [side] at before
    split at after <;> rename_i isDescending <;> simp only [isDescending] at before <;>
      split_ifs at before <;> omega
  · intro first second before same isFirst
    by_contra outside
    unfold Before direction at before
    dsimp only [side] at before
    rw [same] at before
    cases isDescending : sort.descending <;>
      simp [isDescending, isFirst, outside] at before

/-- The network sorts as StableHLO's comparator does, whatever order it leaves, exactly where the
row has nothing that the padding is confused with. -/
theorem sorted_iff_unconfused (sort : FloatSort) (casts : Casts) (documented : casts.Documented) :
    (∀ order, sort.Leaves casts order → sort.Sorted order) ↔ sort.Unconfused casts := by
  constructor
  · intro sorted
    by_cases isAware : sort.indexAware = true
    · rw [unconfused_iff_ties documented isAware]
      intro first second less inside confused
      have stable := stableOrder_insertionSort (direction_total sort.descending)
        (fun _ _ _ => direction_trans) (sort.key casts) sort.paddedLength
      have result := sorted _ (by rw [Leaves, if_pos isAware]; exact stable)
      have member {place : Nat} (isPlace : place < sort.length) :=
        result.each.mem_iff.mpr (List.mem_range.mpr isPlace)
      have taken := stable.sorted.sublist (List.take_sublist sort.length _)
      have both := taken.and (result.ties isAware)
      rcases pairwise_or both (member (less.trans inside)) (member inside) less.ne with
        ⟨before, -⟩ | ⟨-, earlier⟩
      · rcases before with before | ⟨same, -⟩
        · exact direction_asymm before confused.2
        · rw [same] at confused
          exact direction_irrefl confused.2
      · have := earlier confused.1
        omega
    · rw [Unconfused, if_neg isAware, or_iff_not_imp_left]
      intro notWhole place inside isFill
      obtain ⟨order, perm, ordered, paddingFirst⟩ := exists_padding_first sort casts
      have result := sorted order (by rw [Leaves, if_neg isAware]; exact ⟨perm, ordered⟩)
      have padded : sort.length < sort.paddedLength := lt_of_le_of_ne sort.fits notWhole
      have outside : sort.length ∈ order.drop sort.length := by
        have member := perm.mem_iff.mpr (List.mem_range.mpr padded)
        rw [← List.take_append_drop sort.length order, List.mem_append] at member
        rcases member with taken | dropped
        · exact absurd (List.mem_range.mp (result.each.mem_iff.mp taken)) (lt_irrefl _)
        · exact dropped
      have taken := result.each.mem_iff.mpr (List.mem_range.mpr inside)
      have tie := (padding_tie_iff (is32BitDest_of_not_aware isAware) le_rfl).mpr isFill
      rw [← List.take_append_drop sort.length order, List.pairwise_append] at paddingFirst
      exact lt_irrefl _ (paddingFirst.2.2 place taken _ outside tie.symm inside)
  · intro unconfused order leaves
    exact leaves.isSorted documented unconfused

/-- The casts that are also those of a scatter's half-precision combines. -/
def exactCasts : Casts where
  bfloat16ToFloat32 := IndexedRows.bf16ToF32
  float16ToFloat32 bits := (IndexedRows.f16ToF32 11 bits).getD 0#32
  fillBfloat16 := IndexedRows.f32ToBf16

theorem exactCasts_documented : exactCasts.Documented where
  bfloat16 := IndexedRows.bf16ToF32_same
  float16 bits := by
    obtain ⟨single, isSingle, same⟩ := IndexedRows.f16ToF32_same bits (by decide : 10 < 11)
    have isCast : exactCasts.float16ToFloat32 bits = single := by
      show (IndexedRows.f16ToF32 11 bits).getD 0#32 = single
      rw [isSingle, Option.getD_some]
    rw [isCast]
    exact same
  fill := IndexedRows.f32ToBf16_rounds

/-- A NaN, -0, -inf and +0. -/
def specials : FloatSort where
  dtype := .float32
  elements := [0x7FC00001#32, 0x80000000#32, 0xFF800000#32, 0#32]
  paddedLength := 32
  descending := false
  stable := false
  uint32Output := false
  fits := by decide

theorem sorted_iff_unconfused_specials : exactCasts.Documented ∧
    ∀ order, specials.Leaves exactCasts order → specials.Sorted order := by
  have unconfused : specials.Unconfused exactCasts := by
    exact .inr (by decide)
  exact ⟨exactCasts_documented,
    (sorted_iff_unconfused specials exactCasts exactCasts_documented).mpr unconfused⟩

/-- The padding's NaN before another one. -/
def paddingNanFirst : FloatSort where
  dtype := .float32
  elements := [0x7FFFFFFF#32, 0x7FC00000#32]
  paddedLength := 2
  descending := false
  stable := true
  uint32Output := false
  fits := by decide

/-- -inf in a descending row, with one place of padding. -/
def leastOnly : FloatSort where
  dtype := .float32
  elements := [0xFF800000#32]
  paddedLength := 2
  descending := true
  stable := false
  uint32Output := false
  fits := by decide

/-- A stable sort swaps two NaNs, and padding takes the place of -inf. -/
theorem padding_confused :
    (paddingNanFirst.Leaves exactCasts [1, 0] ∧ ¬paddingNanFirst.Sorted [1, 0]) ∧
      leastOnly.Leaves exactCasts [1, 0] ∧ ¬leastOnly.Sorted [1, 0] := by
  refine ⟨⟨?_, fun sorted => ?_⟩, ?_, fun sorted => ?_⟩
  · have less : paddingNanFirst.key exactCasts 1 < paddingNanFirst.key exactCasts 0 := by decide
    have before : Before (direction paddingNanFirst.descending)
        (paddingNanFirst.key exactCasts) 1 0 := .inl less
    exact ⟨by decide, List.pairwise_pair.mpr before⟩
  · have ties := sorted.ties (by decide)
    have same : paddingNanFirst.number 1 = paddingNanFirst.number 0 := by
      rw [number, number, comparable, comparable, if_pos (by decide), if_pos (by decide)]
    have earlier := List.rel_of_pairwise_cons ties (List.mem_singleton_self 0) same
    omega
  · rw [Leaves, if_neg (by decide)]
    exact ⟨by decide, by decide⟩
  · exact absurd sorted.each (by decide)

end FloatSort

end Libtt.Sorting

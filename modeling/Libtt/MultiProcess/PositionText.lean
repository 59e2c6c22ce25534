import Libtt.MultiProcess.Devices

/-!
# Positions as text

The text of mesh positions reads back as the positions. A position that is no `int` may be written
as a negative number, which a `size_t` reads as one from `2 ^ 64 - 2 ^ 31` on.
-/
namespace Libtt.MultiProcess

open Libtt.Foundation Libtt.KeyValue

theorem textOf_bytesOf {text : List Char} (bytes : ∀ letter ∈ text, letter.toNat < 256) :
    textOf (bytesOf text) = text := by
  induction text with
  | nil => rfl
  | cons letter text ih =>
    have byte := bytes letter (by simp)
    have same : Char.ofNat (UInt8.ofNat letter.toNat).toNat = letter := by
      rw [UInt8.toNat_ofNat', Nat.mod_eq_of_lt byte, Char.ofNat_toNat]
    have rest := ih fun other member => bytes other (by simp [member])
    show Char.ofNat (UInt8.ofNat letter.toNat).toNat :: textOf (bytesOf text) = letter :: text
    rw [same, rest]

/-- What a `size_t` reads of an `int`. -/
def sizeOfInt (number : Int) : Nat := (number % 2 ^ 64).toNat

/-- Digits are neither blanks nor signs, and they are bytes. -/
theorem digit_facts {letter : Char} (digit : letter.isDigit = true) :
    isSpace letter = false ∧ letter ≠ '-' ∧ letter ≠ '+' ∧ letter.toNat < 256 := by
  have range : 48 ≤ letter.toNat ∧ letter.toNat ≤ 57 := by
    simp only [Char.isDigit, Bool.and_eq_true, decide_eq_true_eq] at digit
    exact ⟨UInt32.le_iff_toNat_le.mp digit.1, UInt32.le_iff_toNat_le.mp digit.2⟩
  have other (symbol : Char) (less : symbol.toNat < 48) : letter ≠ symbol := by
    intro same
    rw [same] at range
    omega
  refine ⟨?_, other '-' (by decide), other '+' (by decide), by omega⟩
  simp only [isSpace, other ' ' (by decide), decide_false, Bool.false_or, Bool.and_eq_false_imp,
    decide_eq_true_eq, decide_eq_false_iff_not]
  omega

theorem toDigits_isDigit (number : Nat) :
    ∀ letter ∈ Nat.toDigits 10 number, letter.isDigit = true :=
  fun _ member => Nat.isDigit_of_mem_toDigits (by decide) (by decide) member

theorem toList_nat (number : Nat) : (toString (number : Int)).toList = Nat.toDigits 10 number := by
  show (toString number).toList = _
  rw [Nat.toString_eq_repr, Nat.toList_repr]

theorem toList_negative (number : Nat) :
    (toString (Int.negSucc number)).toList = '-' :: Nat.toDigits 10 (number + 1) := by
  have shape : (toString (Int.negSucc number)).toList = '-' :: (toString (number + 1)).toList := by
    simp [toString, Int.repr]
  rw [shape, Nat.toString_eq_repr, Nat.toList_repr]

/-- A number ends before a blank. -/
theorem digits_parts (number : Nat) (rest : List Char) :
    (Nat.toDigits 10 number ++ ' ' :: rest).takeWhile Char.isDigit = Nat.toDigits 10 number ∧
      (Nat.toDigits 10 number ++ ' ' :: rest).dropWhile Char.isDigit = ' ' :: rest := by
  have digits := toDigits_isDigit number
  have blank : ¬(' '.isDigit = true) := by decide
  rw [List.takeWhile_append_of_pos digits, List.dropWhile_append_of_pos digits,
    List.takeWhile_cons_of_neg blank, List.dropWhile_cons_of_neg blank, List.append_nil]
  exact ⟨rfl, rfl⟩

theorem extractSize_nat {number : Nat} (less : number < 2 ^ 64) (rest : List Char) :
    extractSize (Nat.toDigits 10 number ++ ' ' :: rest) = some (number, ' ' :: rest) := by
  obtain ⟨digits, remainder⟩ := digits_parts number rest
  obtain ⟨first, others, isDigits⟩ :=
    List.exists_cons_of_ne_nil (Nat.toDigits_ne_nil (b := 10) (n := number))
  have digit := toDigits_isDigit number first (by rw [isDigits]; simp)
  obtain ⟨notSpace, notMinus, notPlus, _⟩ := digit_facts digit
  have kept : (Nat.toDigits 10 number ++ ' ' :: rest).dropWhile isSpace =
      Nat.toDigits 10 number ++ ' ' :: rest := by
    rw [isDigits, List.cons_append, List.dropWhile_cons_of_neg (by rw [notSpace]; decide)]
  have head : (Nat.toDigits 10 number ++ ' ' :: rest).head? = some first := by
    rw [isDigits]
    rfl
  have unsigned :
      ¬((some first : Option Char) = some '-' ∨ (some first : Option Char) = some '+') := by
    simp [notMinus, notPlus]
  have isNumber : ¬(Nat.toDigits 10 number = [] ∨ 2 ^ 64 ≤ Nat.ofDigitChars 10
      (Nat.toDigits 10 number) 0) := by
    rw [Nat.ofDigitChars_ten_toDigits]
    simp [Nat.toDigits_ne_nil]
    omega
  rw [extractSize, kept, head, if_neg unsigned, digits, remainder, if_neg isNumber,
    if_neg (by simp [notMinus]), Nat.ofDigitChars_ten_toDigits]

theorem extractSize_negative {number : Nat} (less : number + 1 < 2 ^ 64) (rest : List Char) :
    extractSize ('-' :: Nat.toDigits 10 (number + 1) ++ ' ' :: rest) =
      some (2 ^ 64 - (number + 1), ' ' :: rest) := by
  obtain ⟨digits, remainder⟩ := digits_parts (number + 1) rest
  have kept : ('-' :: Nat.toDigits 10 (number + 1) ++ ' ' :: rest).dropWhile isSpace =
      '-' :: Nat.toDigits 10 (number + 1) ++ ' ' :: rest := by
    rw [List.cons_append, List.dropWhile_cons_of_neg (by decide)]
  have head : ('-' :: Nat.toDigits 10 (number + 1) ++ ' ' :: rest).head? = some '-' := rfl
  have tail : ('-' :: Nat.toDigits 10 (number + 1) ++ ' ' :: rest).tail =
      Nat.toDigits 10 (number + 1) ++ ' ' :: rest := rfl
  have isNumber : ¬(Nat.toDigits 10 (number + 1) = [] ∨ 2 ^ 64 ≤ Nat.ofDigitChars 10
      (Nat.toDigits 10 (number + 1)) 0) := by
    rw [Nat.ofDigitChars_ten_toDigits]
    simp [Nat.toDigits_ne_nil]
    omega
  have signed : (some '-' : Option Char) = some '-' ∨ (some '-' : Option Char) = some '+' :=
    .inl rfl
  rw [extractSize, kept, head, if_pos signed, tail, digits, remainder, if_neg isNumber, if_pos rfl,
    Nat.ofDigitChars_ten_toDigits, Nat.mod_eq_of_lt (by omega)]

/-- An `int` is read as a `size_t`. -/
theorem extractSize_int {number : Int} (least : -2 ^ 31 ≤ number) (less : number < 2 ^ 31)
    (rest : List Char) : extractSize ((toString number).toList ++ ' ' :: rest) =
      some (sizeOfInt number, ' ' :: rest) := by
  cases number with
  | ofNat number =>
    have isSize : sizeOfInt (Int.ofNat number) = number := by
      have less : (number : Int) < 2 ^ 31 := less
      show ((number : Int) % 2 ^ 64).toNat = number
      omega
    rw [isSize]
    show extractSize ((toString (number : Int)).toList ++ _) = _
    rw [toList_nat]
    exact extractSize_nat (by have less : (number : Int) < 2 ^ 31 := less; omega) rest
  | negSucc number =>
    have small : number + 1 < 2 ^ 64 := by omega
    have isSize : sizeOfInt (Int.negSucc number) = 2 ^ 64 - (number + 1) := by
      show (Int.negSucc number % 2 ^ 64).toNat = _
      omega
    rw [isSize, toList_negative]
    exact extractSize_negative small rest

theorem extractSize_space (text : List Char) : extractSize (' ' :: text) = extractSize text := by
  rw [extractSize, extractSize, List.dropWhile_cons_of_pos (by decide)]

/-- A text that has these positions left. -/
def HasLeft (ids : List (Int × Int)) (text : List Char) : Prop :=
  text = idsText ids ∨ text = ' ' :: idsText ids

/-- Positions as they are written. -/
def Written (ids : List (Int × Int)) : Prop := ∀ id ∈ ids, -2 ^ 31 ≤ id.2 ∧ id.2 < 2 ^ 31

/-- The next position is read. -/
theorem HasLeft.extractSize {id : Int × Int} {ids : List (Int × Int)} {text : List Char}
    (left : HasLeft (id :: ids) text) (written : Written (id :: ids)) :
    ∃ rest, MultiProcess.extractSize text = some (sizeOfInt id.2, rest) ∧ HasLeft ids rest := by
  obtain ⟨least, less⟩ := written id (by simp)
  have isText : idsText (id :: ids) = (toString id.2).toList ++ ' ' :: idsText ids := by
    rw [idsText, List.flatMap_cons, List.append_assoc]
    rfl
  refine ⟨' ' :: idsText ids, ?_, .inr rfl⟩
  rcases left with rfl | rfl
  · rw [isText, extractSize_int least less]
  · rw [extractSize_space, isText, extractSize_int least less]

theorem idsText_bytes (ids : List (Int × Int)) : ∀ letter ∈ idsText ids, letter.toNat < 256 := by
  intro letter member
  obtain ⟨id, _, inText⟩ := List.mem_flatMap.mp member
  rcases List.mem_append.mp inText with inNumber | isBlank
  · rcases isNumeral_int id.2 letter inNumber with digit | rfl
    · exact (digit_facts digit).2.2.2
    · decide
  · rw [List.mem_singleton.mp isBlank]
    decide

/-- What a process publishes is read as it was written. -/
theorem hasLeft_published (ids : List (Int × Int)) :
    HasLeft ids (textOf (bytesOf (idsText ids))) :=
  .inl (textOf_bytesOf (idsText_bytes ids))

theorem localPairs_written (deviceIds : List (Option Int)) : Written (localPairs deviceIds) := by
  intro id member
  obtain ⟨i, _, isId⟩ := List.mem_filterMap.mp member
  obtain ⟨physicalId, _, rfl⟩ := Option.map_eq_some_iff.mp isId
  exact ⟨Int32.le_toInt _, Int32.toInt_lt _⟩

theorem localIds_written (deviceIds : List (Option Int)) : Written (localIds deviceIds) :=
  fun id member => localPairs_written deviceIds id ((List.mem_insertionSort _).mp member)

end Libtt.MultiProcess

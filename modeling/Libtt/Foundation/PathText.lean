import Std.Data.String.ToInt
import Mathlib.Data.List.Basic

/-!
# Slash-joined paths

A path is a list of components joined by `/`.
-/
namespace Libtt.Foundation

/-- The text of a list of components. -/
def slashed (components : List String) : String := "/".intercalate components

/-- A component without the separator. -/
def Plain (component : String) : Prop := '/' ∉ component.toList

/-- A component of digits and signs, as `std::to_string` of an integer writes it. -/
def IsNumeral (component : String) : Prop :=
  ∀ letter ∈ component.toList, letter.isDigit = true ∨ letter = '-'

/-- Appending components appends their text behind a slash. -/
theorem slashed_append {front back : List String} (frontNonempty : front ≠ [])
    (backNonempty : back ≠ []) : slashed (front ++ back) = slashed front ++ "/" ++ slashed back :=
  String.intercalate_append_of_ne_nil frontNonempty backNonempty

/-- One more component. -/
theorem slashed_snoc {front : List String} (component : String) (frontNonempty : front ≠ []) :
    slashed (front ++ [component]) = slashed front ++ "/" ++ component := by
  rw [slashed_append frontNonempty (by simp)]
  simp [slashed]

/-- The text of plain components names them. -/
theorem slashed_injective {left right : List String} (plainLeft : ∀ part ∈ left, Plain part)
    (plainRight : ∀ part ∈ right, Plain part) (leftNonempty : left ≠ [])
    (rightNonempty : right ≠ []) (same : slashed left = slashed right) : left = right := by
  have split (parts : List String) (plain : ∀ part ∈ parts, Plain part) (nonempty : parts ≠ []) :
      (slashed parts).toList.splitOn '/' = parts.map String.toList := by
    have clean : ∀ letters ∈ parts.map String.toList, '/' ∉ letters := by
      intro letters member
      obtain ⟨part, inParts, rfl⟩ := List.mem_map.mp member
      exact plain part inParts
    rw [slashed, String.toList_intercalate]
    exact List.splitOn_intercalate '/' clean (by simpa using nonempty)
  have letters : left.map String.toList = right.map String.toList := by
    rw [← split left plainLeft leftNonempty, ← split right plainRight rightNonempty, same]
  exact List.map_injective_iff.mpr (fun _ _ => String.toList_inj.mp) letters

/-- A numeral holds no slash. -/
theorem IsNumeral.plain {component : String} (numeral : IsNumeral component) :
    Plain component := by
  intro slash
  have cases := numeral '/' slash
  simp at cases

/-- A natural number is written as a numeral. -/
theorem isNumeral_nat (value : Nat) : IsNumeral (toString value) := by
  intro letter member
  have digits : letter ∈ Nat.toDigits 10 value := by
    simpa [Nat.toString_eq_repr] using member
  exact .inl (Nat.isDigit_of_mem_toDigits (by decide) (by decide) digits)

/-- An integer is written as a numeral. -/
theorem isNumeral_int (value : Int) : IsNumeral (toString value) := by
  cases value with
  | ofNat magnitude => exact isNumeral_nat magnitude
  | negSucc magnitude =>
    intro letter member
    have shape : (toString (Int.negSucc magnitude)).toList =
        '-' :: (toString (magnitude + 1)).toList := by
      simp [toString, Int.repr]
    rw [shape, List.mem_cons] at member
    cases member with
    | inl sign => exact .inr sign
    | inr digit => exact isNumeral_nat _ letter digit

theorem toString_nat_injective {left right : Nat} (same : toString left = toString right) :
    left = right := Nat.repr_injective same

theorem toString_int_injective {left right : Int} (same : toString left = toString right) :
    left = right := Int.repr_injective same

/-- The numerals in front of a word are determined, and so is what follows them. -/
theorem numerals_append_inj {left right rest rest' : List String} {word word' : String}
    (leftNumerals : ∀ part ∈ left, IsNumeral part) (rightNumerals : ∀ part ∈ right, IsNumeral part)
    (isWord : ¬IsNumeral word) (isWord' : ¬IsNumeral word')
    (same : left ++ word :: rest = right ++ word' :: rest') :
    left = right ∧ word :: rest = word' :: rest' := by
  induction left generalizing right with
  | nil =>
    cases right with
    | nil => exact ⟨rfl, same⟩
    | cons numeral right =>
      have first : word = numeral := (List.cons.inj same).1
      exact absurd (first ▸ rightNumerals numeral (by simp)) isWord
  | cons numeral left ih =>
    cases right with
    | nil =>
      have first : numeral = word' := (List.cons.inj same).1
      exact absurd (first ▸ leftNumerals numeral (by simp)) isWord'
    | cons numeral' right =>
      have parts := List.cons.inj same
      have tail := ih (fun part member => leftNumerals part (by simp [member]))
        (fun part member => rightNumerals part (by simp [member])) parts.2
      exact ⟨by rw [parts.1, tail.1], tail.2⟩

end Libtt.Foundation

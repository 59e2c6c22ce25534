import Mathlib.Data.List.Basic

/-!
# Words of a text

A text is read back from left to right: a word ends at a separator or at the end of the text, so
a list of words, each behind a space, is determined by its text. Bytes in hexadecimal are words.
-/
namespace Libtt.Foundation

abbrev Text := List Char

/-- The text ends, or goes on behind a space. -/
def Ends (rest : Text) : Prop := rest = [] ∨ ∃ more, rest = ' ' :: more

/-- The pieces, each behind a space. -/
def spaced (pieces : List Text) : Text := pieces.flatMap (' ' :: ·)

@[simp] theorem spaced_nil : spaced [] = [] := rfl

@[simp] theorem spaced_cons (piece : Text) (pieces : List Text) :
    spaced (piece :: pieces) = ' ' :: (piece ++ spaced pieces) := rfl

theorem ends_spaced (pieces : List Text) : Ends (spaced pieces) := by
  cases pieces with
  | nil => exact .inl rfl
  | cons piece pieces => exact .inr ⟨_, rfl⟩

theorem ends_append_spaced (first second : List Text) : Ends (spaced first ++ spaced second) := by
  cases first with
  | nil => exact ends_spaced second
  | cons piece pieces => exact .inr ⟨_, rfl⟩

/-- What stands before the first separator, and what stands after it. -/
theorem separator_inj {α : Type} {separator : α} {first second rest more : List α}
    (plain : separator ∉ first) (plainOther : separator ∉ second)
    (same : first ++ separator :: rest = second ++ separator :: more) :
    first = second ∧ rest = more := by
  induction first generalizing second with
  | nil =>
    cases second with
    | nil => exact ⟨rfl, (List.cons.inj same).2⟩
    | cons head tail => exact absurd ((List.cons.inj same).1 ▸ List.mem_cons_self) plainOther
  | cons head tail ih =>
    cases second with
    | nil => exact absurd ((List.cons.inj same).1 ▸ List.mem_cons_self) plain
    | cons head' tail' =>
      have parts := List.cons.inj same
      have tails := ih (fun member => plain (List.mem_cons_of_mem _ member))
        (fun member => plainOther (List.mem_cons_of_mem _ member)) parts.2
      exact ⟨by rw [parts.1, tails.1], tails.2⟩

/-- A word is what stands before the first space, or the end. -/
theorem word_inj {word other rest more : Text} (plain : ' ' ∉ word) (plainOther : ' ' ∉ other)
    (ends : Ends rest) (endsMore : Ends more) (same : word ++ rest = other ++ more) :
    word = other ∧ rest = more := by
  rcases ends with rfl | ⟨rest, rfl⟩ <;> rcases endsMore with rfl | ⟨more, rfl⟩
  · simpa using same
  · rw [List.append_nil] at same
    rw [same] at plain
    simp at plain
  · rw [List.append_nil] at same
    rw [← same] at plainOther
    simp at plainOther
  · have parts := separator_inj plain plainOther same
    exact ⟨parts.1, by rw [parts.2]⟩

theorem spaced_injective {words others : List Text} (plain : ∀ word ∈ words, ' ' ∉ word)
    (plainOthers : ∀ word ∈ others, ' ' ∉ word) (same : spaced words = spaced others) :
    words = others := by
  induction words generalizing others with
  | nil =>
    cases others with
    | nil => rfl
    | cons other others => cases same
  | cons word words ih =>
    cases others with
    | nil => cases same
    | cons other others =>
      have parts := word_inj (plain word List.mem_cons_self)
        (plainOthers other List.mem_cons_self) (ends_spaced words) (ends_spaced others)
        (List.cons.inj same).2
      rw [parts.1, ih (fun piece member => plain piece (List.mem_cons_of_mem _ member))
        (fun piece member => plainOthers piece (List.mem_cons_of_mem _ member)) parts.2]

/-- The digits of `llvm::toHex` with `LowerCase`. -/
def hexDigits : List Char := "0123456789abcdef".toList

def hexDigit (value : Fin 16) : Char := hexDigits.get (value.cast rfl)

theorem hexDigit_injective : Function.Injective hexDigit := by
  have distinct : ∀ first second, hexDigit first = hexDigit second → first = second := by decide
  exact fun first second => distinct first second

theorem hexDigit_mem (value : Fin 16) : hexDigit value ∈ hexDigits := List.get_mem _ _

/-- `llvm::toHex` with `LowerCase`. -/
def toHex (bytes : List UInt8) : Text :=
  bytes.flatMap fun byte => [hexDigit (Fin.ofNat 16 (byte.toNat / 16)),
    hexDigit (Fin.ofNat 16 (byte.toNat % 16))]

theorem toHex_injective : Function.Injective toHex := by
  intro bytes others same
  induction bytes generalizing others with
  | nil =>
    cases others with
    | nil => rfl
    | cons other others => cases same
  | cons byte bytes ih =>
    cases others with
    | nil => cases same
    | cons other others =>
      have high := congrArg Fin.val (hexDigit_injective (List.cons.inj same).1)
      have low := congrArg Fin.val (hexDigit_injective (List.cons.inj (List.cons.inj same).2).1)
      have rest := ih (List.cons.inj (List.cons.inj same).2).2
      have bound := byte.toNat_lt
      have boundOther := other.toNat_lt
      simp only [Fin.val_ofNat] at high low
      rw [rest, UInt8.toNat_inj.mp (show byte.toNat = other.toNat by omega)]

theorem mem_toHex {bytes : List UInt8} {letter : Char} (member : letter ∈ toHex bytes) :
    letter ∈ hexDigits := by
  obtain ⟨byte, _, isDigit⟩ := List.mem_flatMap.mp member
  simp only [List.mem_cons, List.not_mem_nil, or_false] at isDigit
  rcases isDigit with rfl | rfl <;> exact hexDigit_mem _

/-- A letter that is no digit is in no hexadecimal text. -/
theorem not_mem_toHex {letter : Char} (other : letter ∉ hexDigits) (bytes : List UInt8) :
    letter ∉ toHex bytes := fun member => other (mem_toHex member)

end Libtt.Foundation

import Libtt.Foundation.PathText

/-!
# The keys of host coordination

Every context owns the keys below its prefix.
-/
namespace Libtt.KeyValue

open Libtt.Foundation

/-- The creation of one context from its parent. -/
inductive Branch where
  | group (ranks : List Int) (sequence : Nat)
  | duplicate (sequence : Nat)
  deriving Repr, DecidableEq

/-- How a context came about, from the root context on. -/
abbrev Path := List Branch

/-- The decimal forms of ranks. -/
def rankTexts (ranks : List Int) : List String := ranks.map toString

def Branch.components : Branch → List String
  | group ranks sequence => "group" :: (rankTexts ranks ++ [toString sequence])
  | duplicate sequence => ["duplicate", toString sequence]

/-- The components of a context's prefix. -/
def Path.components (path : Path) : List String :=
  ["libtt", "control"] ++ path.flatMap Branch.components

/-- The prefix of a context. -/
def Path.text (path : Path) : String := slashed path.components

/-- One entry of a context: a message, its acknowledgement, one member's part of an `all_gather`
and the root's bytes of a `broadcast`. -/
inductive Slot where
  | message (source destination tag : Int) (sequence : Nat)
  | ack (source destination tag : Int) (sequence : Nat)
  | gathered (sequence : Nat) (rank : Int)
  | broadcast (sequence : Nat) (root : Int)
  deriving Repr, DecidableEq

def Slot.components : Slot → List String
  | message source destination tag sequence =>
    ["message", toString source, toString destination, toString tag, toString sequence]
  | ack source destination tag sequence =>
    ["message", toString source, toString destination, toString tag, toString sequence, "ack"]
  | gathered sequence rank => ["collective", toString sequence, "all_gather", toString rank]
  | broadcast sequence root => ["collective", toString sequence, "broadcast", toString root]

/-- A counter of a context: of messages, of the collectives, or of a kind of creation. -/
inductive Channel where
  | send (source destination tag : Int)
  | recv (source destination tag : Int)
  | collective
  | duplicate
  | group (ranks : List Int)
  deriving Repr, DecidableEq

def Channel.components : Channel → List String
  | send source destination tag =>
    ["send", "message", toString source, toString destination, toString tag]
  | recv source destination tag =>
    ["recv", "message", toString source, toString destination, toString tag]
  | collective => ["collective"]
  | duplicate => ["duplicate"]
  | group ranks => "group" :: rankTexts ranks

/-- The counter's name in `sequences_`. -/
def Channel.text (channel : Channel) : String := slashed channel.components

/-- The counter that numbers a slot for its owner. -/
def Slot.channel : Slot → Channel
  | message source destination tag _ => .send source destination tag
  | ack source destination tag _ => .recv source destination tag
  | gathered _ _ | broadcast _ _ => .collective

/-- The counter that numbers a branch. -/
def Branch.channel : Branch → Channel
  | group ranks _ => .group ranks
  | duplicate _ => .duplicate

/-- The number of a branch. -/
def Branch.sequence : Branch → Nat
  | group _ sequence | duplicate sequence => sequence

/-- The member that writes a slot. -/
def Slot.owner : Slot → Int
  | message source _ _ _ => source
  | ack _ destination _ _ => destination
  | gathered _ rank => rank
  | broadcast _ root => root

/-- The number its owner's counter gave a slot. -/
def Slot.sequence : Slot → Nat
  | message _ _ _ sequence | ack _ _ _ sequence | gathered sequence _ | broadcast sequence _ =>
    sequence

/-- The store's key of a slot of a context. -/
def keyText (path : Path) (slot : Slot) : String := slashed (path.components ++ slot.components)

theorem Path.components_nonempty (path : Path) : path.components ≠ [] := by
  simp [components]

theorem Path.components_child (path : Path) (branch : Branch) :
    Path.components (path ++ [branch]) = path.components ++ branch.components := by
  simp [components]

theorem Branch.components_nonempty (branch : Branch) : branch.components ≠ [] := by
  cases branch <;> simp [components]

theorem Slot.components_nonempty (slot : Slot) : slot.components ≠ [] := by
  cases slot <;> simp [components]

/-- A child's prefix continues its parent's. -/
theorem Path.text_child (path : Path) (branch : Branch) :
    Path.text (path ++ [branch]) = path.text ++ "/" ++ slashed branch.components := by
  rw [text, components_child, slashed_append path.components_nonempty branch.components_nonempty,
    text]

/-- A slot's key continues its context's prefix. -/
theorem keyText_eq (path : Path) (slot : Slot) :
    keyText path slot = path.text ++ "/" ++ slashed slot.components := by
  rw [keyText, slashed_append path.components_nonempty slot.components_nonempty, Path.text]

section Injectivity

theorem plain_words : Plain "libtt" ∧ Plain "control" ∧ Plain "group" ∧ Plain "duplicate" ∧
    Plain "message" ∧ Plain "ack" ∧ Plain "collective" ∧ Plain "all_gather" ∧
    Plain "broadcast" := by
  simp [Plain]

theorem plain_nat (value : Nat) : Plain (toString value) := (isNumeral_nat value).plain

theorem plain_int (value : Int) : Plain (toString value) := (isNumeral_int value).plain

theorem isNumeral_rankTexts (ranks : List Int) : ∀ part ∈ rankTexts ranks, IsNumeral part := by
  intro part member
  obtain ⟨rank, _, rfl⟩ := List.mem_map.mp member
  exact isNumeral_int rank

theorem Branch.components_plain (branch : Branch) : ∀ part ∈ branch.components, Plain part := by
  intro part member
  cases branch with
  | group ranks sequence =>
    simp only [components, List.mem_cons, List.mem_append, List.not_mem_nil, or_false] at member
    rcases member with rfl | numeral | rfl
    · exact plain_words.2.2.1
    · exact (isNumeral_rankTexts ranks part numeral).plain
    · exact plain_nat sequence
  | duplicate sequence =>
    simp only [components, List.mem_cons, List.not_mem_nil, or_false] at member
    rcases member with rfl | rfl
    · exact plain_words.2.2.2.1
    · exact plain_nat sequence

theorem Slot.components_plain (slot : Slot) : ∀ part ∈ slot.components, Plain part := by
  have words := plain_words
  cases slot <;>
    simp only [components, List.forall_mem_cons, words, plain_nat, plain_int, true_and,
      List.not_mem_nil, false_implies, implies_true]

theorem Path.components_plain (path : Path) : ∀ part ∈ path.components, Plain part := by
  intro part member
  simp only [components, List.mem_append, List.mem_cons, List.not_mem_nil, or_false,
    List.mem_flatMap] at member
  rcases member with (rfl | rfl) | ⟨branch, _, member⟩
  · exact plain_words.1
  · exact plain_words.2.1
  · exact branch.components_plain part member

theorem rankTexts_injective {left right : List Int} (same : rankTexts left = rankTexts right) :
    left = right :=
  List.map_injective_iff.mpr (fun _ _ => toString_int_injective) same

/-- The components of a slot name it. -/
theorem Slot.components_injective {left right : Slot}
    (same : left.components = right.components) : left = right := by
  cases left <;> cases right <;> simp [components] at same <;>
    grind [toString_nat_injective, toString_int_injective]

theorem Channel.components_plain (channel : Channel) : ∀ part ∈ channel.components, Plain part := by
  have words : Plain "send" ∧ Plain "recv" := by simp [Plain]
  cases channel with
  | group ranks =>
    intro part member
    rcases List.mem_cons.mp member with rfl | numeral
    · exact plain_words.2.2.1
    · exact (isNumeral_rankTexts ranks part numeral).plain
  | _ =>
    simp only [components, List.forall_mem_cons, words, plain_words, plain_int, true_and,
      List.not_mem_nil, false_implies, implies_true]

/-- No two counters of a context share a name. -/
theorem Channel.text_injective : Function.Injective Channel.text := by
  intro left right same
  have components := slashed_injective left.components_plain right.components_plain
    (by cases left <;> simp [components]) (by cases right <;> simp [components]) same
  cases left <;> cases right <;> simp only [Channel.components, List.cons.injEq] at components <;>
    first
    | rfl
    | grind [toString_int_injective, rankTexts_injective]

/-- The branches and slot below the root prefix, as components. -/
def below (path : Path) (slot : Slot) : List String :=
  path.flatMap Branch.components ++ slot.components

/-- The components below the root prefix begin with a word. -/
theorem below_head (path : Path) (slot : Slot) :
    ∃ word rest, ¬IsNumeral word ∧ below path slot = word :: rest := by
  have word (name : String) (letter : Char) (inside : letter ∈ name.toList)
      (isLetter : ¬(letter.isDigit = true ∨ letter = '-')) : ¬IsNumeral name :=
    fun numeral => isLetter (numeral letter inside)
  cases path with
  | nil =>
    cases slot with
    | message | ack =>
      exact ⟨"message", _, word "message" 'm' (by simp) (by decide), rfl⟩
    | gathered | broadcast =>
      exact ⟨"collective", _, word "collective" 'c' (by simp) (by decide), rfl⟩
  | cons branch path =>
    cases branch with
    | group => exact ⟨"group", _, word "group" 'g' (by simp) (by decide), rfl⟩
    | duplicate => exact ⟨"duplicate", _, word "duplicate" 'd' (by simp) (by decide), rfl⟩

/-- A group's numerals end where the next word begins, so its branch is read off. -/
theorem group_below_inj {ranks ranks' : List Int} {sequence sequence' : Nat} {path path' : Path}
    {slot slot' : Slot} (same : below (.group ranks sequence :: path) slot =
      below (.group ranks' sequence' :: path') slot') :
    ranks = ranks' ∧ sequence = sequence' ∧ below path slot = below path' slot' := by
  obtain ⟨word, rest, isWord, shape⟩ := below_head path slot
  obtain ⟨word', rest', isWord', shape'⟩ := below_head path' slot'
  have numerals (ranks : List Int) (sequence : Nat) :
      ∀ part ∈ rankTexts ranks ++ [toString sequence], IsNumeral part := by
    intro part member
    rcases List.mem_append.mp member with inRanks | last
    · exact isNumeral_rankTexts ranks part inRanks
    · rw [List.mem_singleton.mp last]
      exact isNumeral_nat sequence
  have tails : (rankTexts ranks ++ [toString sequence]) ++ below path slot =
      (rankTexts ranks' ++ [toString sequence']) ++ below path' slot' := by
    simpa [below, Branch.components] using same
  rw [shape, shape'] at tails ⊢
  have split := numerals_append_inj (numerals ranks sequence) (numerals ranks' sequence') isWord
    isWord' tails
  have parts := List.append_inj' split.1 rfl
  exact ⟨rankTexts_injective parts.1, toString_nat_injective (List.cons.inj parts.2).1, split.2⟩

/-- The components below the root prefix name the branches and the slot. -/
theorem below_injective {path path' : Path} {slot slot' : Slot}
    (same : below path slot = below path' slot') : path = path' ∧ slot = slot' := by
  induction path generalizing path' with
  | nil =>
    cases path' with
    | nil => exact ⟨rfl, Slot.components_injective same⟩
    | cons branch path' =>
      cases slot <;> cases branch <;> simp [below, Slot.components, Branch.components] at same
  | cons branch path ih =>
    cases path' with
    | nil =>
      cases slot' <;> cases branch <;> simp [below, Slot.components, Branch.components] at same
    | cons branch' path' =>
      cases branch with
      | group ranks sequence =>
        cases branch' with
        | group ranks' sequence' =>
          obtain ⟨rfl, rfl, tails⟩ := group_below_inj same
          have rest := ih tails
          exact ⟨by rw [rest.1], rest.2⟩
        | duplicate => simp [below, Branch.components] at same
      | duplicate sequence =>
        cases branch' with
        | group => simp [below, Branch.components] at same
        | duplicate sequence' =>
          have parts : toString sequence = toString sequence' ∧
              below path slot = below path' slot' := by
            simpa [below, Branch.components] using same
          have rest := ih parts.2
          exact ⟨by rw [rest.1, toString_nat_injective parts.1], rest.2⟩

/-- No two slots of any contexts share a key. -/
theorem keyText_injective {path path' : Path} {slot slot' : Slot}
    (same : keyText path slot = keyText path' slot') : path = path' ∧ slot = slot' := by
  have plain (path : Path) (slot : Slot) :
      ∀ part ∈ path.components ++ slot.components, Plain part := by
    intro part member
    rcases List.mem_append.mp member with inPath | inSlot
    · exact path.components_plain part inPath
    · exact slot.components_plain part inSlot
  have components := slashed_injective (plain path slot) (plain path' slot')
    (by simp [Path.components]) (by simp [Path.components]) same
  apply below_injective
  simpa [Path.components, below] using components

/-- No two contexts share a prefix. -/
theorem Path.text_injective {path path' : Path} (same : path.text = path'.text) :
    path = path' := by
  have key : keyText path (.gathered 0 0) = keyText path' (.gathered 0 0) := by
    rw [keyText_eq, keyText_eq, same]
  exact (keyText_injective key).1

end Injectivity

end Libtt.KeyValue

import Libtt.Allocator.BankManager

/-!
# A first-fit free list

The bytes below a capacity, with the held ranges sorted by address: a small free list that does
what the bank manager expects of `allocator::Algorithm`.
-/
namespace Libtt.Allocator.FirstFit

open Libtt.Foundation

/-- A held range: its address and size. -/
abbrev Held := List (Nat × Nat)

/-- The free ranges from `lower` on, between the held ones. -/
def gaps (capacity lower : Nat) : Held → List (Nat × Nat)
  | [] => if lower < capacity then [(lower, capacity)] else []
  | (address, size) :: held =>
    if lower < address then (lower, address) :: gaps capacity (address + size) held
    else gaps capacity (address + size) held

def insert (address size : Nat) : Held → Held
  | [] => [(address, size)]
  | first :: held =>
    if address < first.1 then (address, size) :: first :: held
    else first :: insert address size held

/-- The range is within the capacity and apart from every held one. -/
def Fits (capacity : Nat) (held : Held) (address size : Nat) : Prop :=
  address + size ≤ capacity ∧
    ∀ other ∈ held, address + size ≤ other.1 ∨ other.1 + other.2 ≤ address

instance (capacity : Nat) (held : Held) (address size : Nat) :
    Decidable (Fits capacity held address size) := inferInstanceAs (Decidable (_ ∧ _))

/-- The place of a new range: the start of the first gap it fits in, or the end of the last. -/
def place (capacity : Nat) (held : Held) (size : Nat) (bottomUp : Bool) (limit : Nat) :
    Option Nat :=
  let wide := (gaps capacity 0 held).filter fun gap => size ≤ gap.2 - gap.1
  let address := if bottomUp then wide.head?.map Prod.fst
    else wide.getLast?.map fun gap => gap.2 - size
  address.filter fun address => limit ≤ address

/-- The free list on its held ranges. An empty range takes one byte. -/
def algorithm (capacity : Nat) : Algorithm Held where
  allocate held size bottomUp limit :=
    (place capacity held (max size 1) bottomUp limit).map fun address =>
      (address, insert address (max size 1) held)
  allocateAtAddress held address size :=
    if Fits capacity held address (max size 1) then some (insert address (max size 1) held)
    else none
  deallocate held address := held.filter fun other => other.1 ≠ address
  availableAddresses held size := (gaps capacity 0 held).filter fun gap => size ≤ gap.2 - gap.1
  getAllocationSize held address := (held.find? fun other => other.1 = address).map Prod.snd
  clear _ := []

/-- The held ranges from `lower` on are sorted, apart, not empty and within the capacity. -/
def Sorted (capacity lower : Nat) : Held → Prop
  | [] => lower ≤ capacity
  | (address, size) :: held => lower ≤ address ∧ 0 < size ∧ Sorted capacity (address + size) held

variable {capacity lower address size : Nat} {held : Held}

theorem Sorted.le (sorted : Sorted capacity lower held) : lower ≤ capacity := by
  induction held generalizing lower with
  | nil => exact sorted
  | cons first held ih =>
    have rest := ih sorted.2.2
    have above := sorted.1
    omega

theorem Sorted.mono (sorted : Sorted capacity lower held) {lower' : Nat} (order : lower' ≤ lower) :
    Sorted capacity lower' held := by
  cases held with
  | nil => exact Nat.le_trans order sorted
  | cons first held => exact ⟨Nat.le_trans order sorted.1, sorted.2⟩

theorem Sorted.bounds (sorted : Sorted capacity lower held) {other : Nat × Nat}
    (member : other ∈ held) : lower ≤ other.1 ∧ 0 < other.2 ∧ other.1 + other.2 ≤ capacity := by
  induction held generalizing lower with
  | nil => cases member
  | cons first held ih =>
    obtain ⟨above, positive, rest⟩ := sorted
    rcases List.mem_cons.mp member with equal | member
    · exact equal ▸ ⟨above, positive, rest.le⟩
    · have bounds := ih rest member
      omega

/-- Held ranges are apart. -/
theorem Sorted.apart (sorted : Sorted capacity lower held) {first second : Nat × Nat}
    (isFirst : first ∈ held) (isSecond : second ∈ held) :
    first = second ∨ first.1 + first.2 ≤ second.1 ∨ second.1 + second.2 ≤ first.1 := by
  induction held generalizing lower with
  | nil => cases isFirst
  | cons head held ih =>
    obtain ⟨_, _, rest⟩ := sorted
    rcases List.mem_cons.mp isFirst with equal | isFirst
    · rcases List.mem_cons.mp isSecond with equal' | isSecond
      · exact .inl (equal.trans equal'.symm)
      · exact .inr (.inl (equal ▸ (rest.bounds isSecond).1))
    · rcases List.mem_cons.mp isSecond with equal' | isSecond
      · exact .inr (.inr (equal' ▸ (rest.bounds isFirst).1))
      · exact ih rest isFirst isSecond

theorem Sorted.getAllocationSize_eq_some (sorted : Sorted capacity lower held) :
    (algorithm capacity).getAllocationSize held address = some size ↔ (address, size) ∈ held := by
  constructor
  · intro isSize
    obtain ⟨other, found, rfl⟩ := Option.map_eq_some_iff.mp isSize
    have isAddress : other.1 = address := by simpa using List.find?_some found
    exact isAddress ▸ List.mem_of_find?_eq_some found
  · intro member
    have some : (held.find? fun other => other.1 = address).isSome :=
      List.find?_isSome.mpr ⟨_, member, by simp⟩
    obtain ⟨other, found⟩ := Option.isSome_iff_exists.mp some
    have isAddress : other.1 = address := by simpa using List.find?_some found
    have isOther := List.mem_of_find?_eq_some found
    have positive := (sorted.bounds member).2.1
    have positive' := (sorted.bounds isOther).2.1
    rcases sorted.apart isOther member with equal | before | after
    · exact Option.map_eq_some_iff.mpr ⟨other, found, by rw [equal]⟩
    · simp only at before
      omega
    · simp only at after
      omega

/-- Held ranges that agree have the same sizes. -/
theorem getAllocationSize_ext {alloc : Nat → Option Nat} (sorted : Sorted capacity lower held)
    (same : ∀ address size, (address, size) ∈ held ↔ alloc address = some size) :
    (algorithm capacity).getAllocationSize held = alloc := by
  funext address
  apply Option.ext
  intro size
  exact sorted.getAllocationSize_eq_some.trans (same address size)

theorem mem_insert {other : Nat × Nat} :
    other ∈ insert address size held ↔ other = (address, size) ∨ other ∈ held := by
  induction held with
  | nil => simp [insert]
  | cons first held ih =>
    rw [insert]
    split
    · simp
    · rw [List.mem_cons, List.mem_cons, ih]
      tauto

theorem Sorted.insert (sorted : Sorted capacity lower held) (positive : 0 < size)
    (above : lower ≤ address) (fits : Fits capacity held address size) :
    Sorted capacity lower (insert address size held) := by
  induction held generalizing lower with
  | nil => exact ⟨above, positive, fits.1⟩
  | cons first held ih =>
    obtain ⟨firstAddress, firstSize⟩ := first
    obtain ⟨above', positive', rest⟩ := sorted
    have gap := fits.2 (firstAddress, firstSize) (by simp)
    rw [FirstFit.insert]
    split
    · refine ⟨above, positive, ?_, positive', rest⟩
      omega
    · refine ⟨above', positive', ih rest ?_ ⟨fits.1, fun other member => fits.2 other
        (List.mem_cons_of_mem _ member)⟩⟩
      omega

/-- A range that fits begins where none is held. -/
theorem Fits.free (fits : Fits capacity held address size) (positive : 0 < size)
    (sorted : Sorted capacity lower held) :
    (algorithm capacity).getAllocationSize held address = none := by
  by_contra isHeld
  obtain ⟨other, isSize⟩ := Option.ne_none_iff_exists'.mp isHeld
  have member := sorted.getAllocationSize_eq_some.mp isSize
  have gap := fits.2 _ member
  have bounds := sorted.bounds member
  omega

theorem Sorted.getAllocationSize_insert (sorted : Sorted capacity 0 held) (positive : 0 < size)
    (fits : Fits capacity held address size) :
    (algorithm capacity).getAllocationSize (FirstFit.insert address size held) =
      Function.update ((algorithm capacity).getAllocationSize held) address (some size) := by
  apply getAllocationSize_ext (sorted.insert positive (Nat.zero_le _) fits)
  intro other otherSize
  rw [mem_insert]
  by_cases same : other = address
  · subst same
    have none := fits.free positive sorted
    have unheld : (other, otherSize) ∉ held := fun member => by
      rw [sorted.getAllocationSize_eq_some.mpr member] at none
      cases none
    rw [Function.update_self]
    simp only [Prod.mk.injEq, unheld, or_false, true_and, Option.some.injEq, eq_comm]
  · rw [Function.update_of_ne same, sorted.getAllocationSize_eq_some]
    simp [same]

section

variable (sorted : Sorted capacity lower held)
include sorted

theorem Sorted.filter (test : Nat × Nat → Bool) :
    Sorted capacity lower (held.filter test) := by
  induction held generalizing lower with
  | nil => exact sorted
  | cons first held ih =>
    obtain ⟨above, positive, rest⟩ := sorted
    rw [List.filter_cons]
    split
    · exact ⟨above, positive, ih rest⟩
    · exact (ih rest).mono (by omega)

/-- The gaps are the bytes that no range holds. -/
theorem Sorted.mem_gaps (byte : Nat) :
    (∃ gap ∈ gaps capacity lower held, gap.1 ≤ byte ∧ byte < gap.2) ↔
      lower ≤ byte ∧ byte < capacity ∧
        ∀ other ∈ held, byte < other.1 ∨ other.1 + other.2 ≤ byte := by
  induction held generalizing lower with
  | nil =>
    rw [gaps]
    split
    · simp
    · simp only [List.not_mem_nil, false_and, exists_false, false_iff]
      omega
  | cons first held ih =>
    obtain ⟨address, size⟩ := first
    obtain ⟨above, positive, rest⟩ := sorted
    have high := rest.le
    have later : ∀ other ∈ held, address + size ≤ other.1 := fun other member =>
      (rest.bounds member).1
    rw [gaps, List.forall_mem_cons]
    split
    · simp only [List.exists_mem_cons_iff, ih rest]
      constructor
      · rintro (inGap | ⟨low, below, apart⟩)
        · refine ⟨inGap.1, by omega, by omega, fun other member => ?_⟩
          have after := later other member
          omega
        · exact ⟨by omega, below, by omega, apart⟩
      · rintro ⟨low, below, here, apart⟩
        by_cases before : byte < address
        · exact .inl ⟨low, before⟩
        · exact .inr ⟨by omega, below, apart⟩
    · rw [ih rest]
      constructor
      · rintro ⟨low, below, apart⟩
        exact ⟨by omega, below, by omega, apart⟩
      · rintro ⟨low, below, here, apart⟩
        exact ⟨by omega, below, apart⟩

theorem Sorted.gaps_above :
    ∀ gap ∈ gaps capacity lower held, lower ≤ gap.1 ∧ gap.1 < gap.2 := by
  induction held generalizing lower with
  | nil =>
    rw [gaps]
    split <;> simp_all
  | cons first held ih =>
    obtain ⟨address, size⟩ := first
    obtain ⟨above, positive, rest⟩ := sorted
    have others : ∀ gap ∈ gaps capacity (address + size) held, lower ≤ gap.1 ∧ gap.1 < gap.2 := by
      intro gap member
      have bounds := ih rest gap member
      omega
    rw [gaps]
    split
    · rename_i order
      rw [List.forall_mem_cons]
      exact ⟨⟨Nat.le_refl _, order⟩, others⟩
    · exact others

theorem Sorted.gaps_apart :
    (gaps capacity lower held).Pairwise fun first second =>
      first.2 ≤ second.1 ∨ second.2 ≤ first.1 := by
  induction held generalizing lower with
  | nil =>
    rw [gaps]
    split
    · exact List.pairwise_singleton _ _
    · exact .nil
  | cons first held ih =>
    obtain ⟨_, _, rest⟩ := sorted
    rw [gaps]
    split
    · refine .cons (fun gap member => .inl ?_) (ih rest)
      have bounds := rest.gaps_above gap member
      omega
    · exact ih rest

end

/-- A range inside a gap fits. -/
theorem Sorted.fits_gap (sorted : Sorted capacity 0 held) {gap : Nat × Nat}
    (member : gap ∈ gaps capacity 0 held) (positive : 0 < size) (above : gap.1 ≤ address)
    (below : address + size ≤ gap.2) : Fits capacity held address size := by
  have free (byte : Nat) (low : gap.1 ≤ byte) (high : byte < gap.2) :=
    (sorted.mem_gaps byte).mp ⟨gap, member, low, high⟩
  have last := (free (gap.2 - 1) (by omega) (by omega)).2.1
  refine ⟨by omega, fun other isOther => ?_⟩
  -- Otherwise the ranges have a byte in common.
  by_contra common
  have bounds := sorted.bounds isOther
  have byte := (free (max address other.1) (by omega) (by omega)).2.2 other isOther
  omega

theorem Sorted.place_fits (sorted : Sorted capacity 0 held) (positive : 0 < size) {bottomUp : Bool}
    {limit : Nat} (found : place capacity held size bottomUp limit = some address) :
    Fits capacity held address size := by
  have found := (Option.filter_eq_some_iff.mp found).1
  cases bottomUp with
  | true =>
    obtain ⟨gap, isGap, rfl⟩ := Option.map_eq_some_iff.mp found
    have member := List.mem_filter.mp (List.mem_of_mem_head? isGap)
    have wide := of_decide_eq_true member.2
    exact sorted.fits_gap member.1 positive (Nat.le_refl _) (by omega)
  | false =>
    obtain ⟨gap, isGap, rfl⟩ := Option.map_eq_some_iff.mp found
    have member := List.mem_filter.mp (List.mem_of_getLast? isGap)
    have wide := of_decide_eq_true member.2
    exact sorted.fits_gap member.1 positive (by omega) (by omega)

/-- The free list does what a bank manager relies on. -/
theorem lawful (capacity : Nat) : (algorithm capacity).Lawful (Sorted capacity 0) 0 capacity where
  positive sorted isSize := (sorted.bounds (sorted.getAllocationSize_eq_some.mp isSize)).2.1
  inside sorted isSize :=
    ⟨Nat.zero_le _, (sorted.bounds (sorted.getAllocationSize_eq_some.mp isSize)).2.2⟩
  apart sorted isSize isSize' different := by
    have either := sorted.apart (sorted.getAllocationSize_eq_some.mp isSize)
      (sorted.getAllocationSize_eq_some.mp isSize')
    exact either.resolve_left fun equal => different (Prod.mk.inj equal).1
  allocate {held size _ _ _ _} sorted found := by
    obtain ⟨address, isPlace, equal⟩ := Option.map_eq_some_iff.mp found
    cases equal
    have positive : 0 < max size 1 := by omega
    have fits := sorted.place_fits positive isPlace
    exact ⟨sorted.insert positive (Nat.zero_le _) fits, fits.free positive sorted, _,
      Nat.le_max_left _ _, sorted.getAllocationSize_insert positive fits⟩
  allocateAtAddress {held address size _} sorted found := by
    have positive : 0 < max size 1 := by omega
    simp only [algorithm] at found
    split at found
    · rename_i fits
      cases found
      exact ⟨sorted.insert positive (Nat.zero_le _) fits, fits.free positive sorted, _,
        Nat.le_max_left _ _, by omega, sorted.getAllocationSize_insert positive fits⟩
    · cases found
  fits {held address size} sorted positive _ high unheld := by
    have fits : Fits capacity held address (max size 1) := by
      rw [Nat.max_eq_left positive]
      exact ⟨high, fun other member =>
        unheld other.1 other.2 (sorted.getAllocationSize_eq_some.mpr member)⟩
    simp only [algorithm, if_pos fits, Option.isSome_some]
  deallocate {held} address sorted := by
    refine ⟨sorted.filter _, getAllocationSize_ext (sorted.filter _) fun other size => ?_⟩
    refine List.mem_filter.trans ?_
    by_cases same : other = address
    · simp [same]
    · rw [Function.update_of_ne same, sorted.getAllocationSize_eq_some]
      simp [same]
  available {held} byte sorted := by
    have all : (algorithm capacity).availableAddresses held 1 = gaps capacity 0 held := by
      apply List.filter_eq_self.mpr
      intro gap member
      have bounds := sorted.gaps_above gap member
      exact decide_eq_true (by omega)
    rw [all, sorted.mem_gaps byte]
    refine and_congr_right fun _ => and_congr_right fun _ => ⟨fun unheld other size isSize =>
      unheld (other, size) (sorted.getAllocationSize_eq_some.mp isSize), fun unheld other member =>
      unheld other.1 other.2 (sorted.getAllocationSize_eq_some.mpr member)⟩
  availableApart sorted := sorted.gaps_apart.filter _

end Libtt.Allocator.FirstFit

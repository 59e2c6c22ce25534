import Mathlib.Algebra.BigOperators.Group.Finset.Basic
import Mathlib.Data.Nat.ModEq
import Mathlib.Tactic.Ring

/-!
# Digits of numbers at places of any size

A place of a number has a stride and a size: its digit is the quotient by the stride, modulo the
size.
-/
namespace Libtt.Foundation

structure Place where
  stride : Nat
  size : Nat
  deriving DecidableEq, Repr

namespace Place

variable {p q : Place} {n c bound : Nat} {ps : List Place}

def digit (p : Place) (n : Nat) : Nat := n / p.stride % p.size

/-- The stride of the next place. -/
def span (p : Place) : Nat := p.stride * p.size

/-- The number with another digit at the place. -/
def set (p : Place) (n c : Nat) : Nat := n - p.digit n * p.stride + c * p.stride

/-- One of the places is past the other. -/
def Apart (p q : Place) : Prop := p.span ∣ q.stride ∨ q.span ∣ p.stride

/-- Digits exist. -/
def Proper (p : Place) : Prop := 0 < p.stride ∧ 0 < p.size

theorem Apart.symm (apart : Apart p q) : Apart q p := Or.symm apart

theorem digit_lt (proper : p.Proper) (n : Nat) : p.digit n < p.size := Nat.mod_lt _ proper.2

/-- A number is its part above the place, its digit there, and its part below. -/
theorem parts (p : Place) (n : Nat) :
    n / p.span * p.span + p.digit n * p.stride + n % p.stride = n := by
  have low := Nat.div_add_mod n p.stride
  have high := Nat.div_add_mod (n / p.stride) p.size
  rw [Nat.div_div_eq_div_mul] at high
  calc n / p.span * p.span + p.digit n * p.stride + n % p.stride
      = p.stride * (p.size * (n / p.span) + p.digit n) + n % p.stride := by
        rw [span]
        ring
    _ = p.stride * (n / p.stride) + n % p.stride := by rw [span, digit, high]
    _ = n := low

/-- Setting a digit takes one multiple of the stride away and adds another. -/
theorem set_spec (p : Place) (n c : Nat) :
    p.set n c + p.digit n * p.stride = n + c * p.stride := by
  have parts := p.parts n
  rw [set]
  omega

theorem set_parts (p : Place) (n c : Nat) :
    p.set n c = n / p.span * p.span + c * p.stride + n % p.stride := by
  have spec := p.set_spec n c
  have parts := p.parts n
  omega

section

variable (proper : p.Proper)
include proper

/-- What is above the place stays. -/
theorem set_div_span (less : c < p.size) (n : Nat) :
    p.set n c / p.span = n / p.span := by
  have positive : 0 < p.span := Nat.mul_pos proper.1 proper.2
  have below : c * p.stride + n % p.stride < p.span := by
    have low := Nat.mod_lt n proper.1
    calc c * p.stride + n % p.stride < c * p.stride + p.stride := by omega
      _ = p.stride * (c + 1) := by ring
      _ ≤ p.span := Nat.mul_le_mul_left _ less
  rw [set_parts, Nat.add_assoc, Nat.add_comm, Nat.add_mul_div_right _ _ positive,
    Nat.div_eq_of_lt below, Nat.zero_add]

theorem set_lt (less : c < p.size) (fits : p.span ∣ bound) (below : n < bound) :
    p.set n c < bound := by
  obtain ⟨count, rfl⟩ := fits
  have positive : 0 < p.span := Nat.mul_pos proper.1 proper.2
  have quotient : n / p.span < count := Nat.div_lt_of_lt_mul below
  have same := set_div_span proper less n
  rw [← same] at quotient
  rw [Nat.mul_comm]
  exact (Nat.div_lt_iff_lt_mul positive).mp quotient

theorem digit_set (less : c < p.size) (n : Nat) : p.digit (p.set n c) = c := by
  have low := Nat.mod_lt n proper.1
  have quotient : p.set n c / p.stride = n / p.span * p.size + c := by
    rw [set_parts, show n / p.span * p.span + c * p.stride + n % p.stride =
      n % p.stride + (n / p.span * p.size + c) * p.stride by rw [span]; ring,
      Nat.add_mul_div_right _ _ proper.1, Nat.div_eq_of_lt low, Nat.zero_add]
  rw [digit, quotient, Nat.mul_comm, Nat.mul_add_mod, Nat.mod_eq_of_lt less]

theorem digit_set_apart (apart : Apart p q) (less : c < p.size) (n : Nat) :
    q.digit (p.set n c) = q.digit n := by
  rcases apart with ⟨count, above⟩ | ⟨count, below⟩
  · rw [digit, digit, above, ← Nat.div_div_eq_div_mul, ← Nat.div_div_eq_div_mul,
      set_div_span proper less]
  · -- The digit is one of the remainder, which multiples of the stride do not change.
    have remainder : ∀ m, q.digit m = m % q.span / q.stride := by
      intro m
      rw [digit, span, Nat.mod_mul_right_div_self]
    have congruent : p.set n c ≡ n [MOD q.span] := by
      have spec := p.set_spec n c
      have multiple : ∀ a, a * p.stride ≡ 0 [MOD q.span] := by
        intro a
        rw [below]
        exact (Nat.modEq_zero_iff_dvd.mpr ⟨a * count, by ring⟩)
      have left : p.set n c + p.digit n * p.stride ≡ p.set n c + 0 [MOD q.span] :=
        (multiple _).add_left _
      have right : n + c * p.stride ≡ n + 0 [MOD q.span] := (multiple _).add_left _
      rw [spec] at left
      exact left.symm.trans right
    rw [remainder, remainder, congruent]

theorem set_set (less : c < p.size) (n d : Nat) :
    p.set (p.set n c) d = p.set n d := by
  have outer := p.set_spec (p.set n c) d
  have inner := p.set_spec n c
  have direct := p.set_spec n d
  rw [digit_set proper less] at outer
  omega

theorem set_comm (properOther : q.Proper) (apart : Apart p q) (less : c < p.size) {d : Nat}
    (lessOther : d < q.size) (n : Nat) :
    q.set (p.set n c) d = p.set (q.set n d) c := by
  have first := q.set_spec (p.set n c) d
  have second := p.set_spec n c
  have third := p.set_spec (q.set n d) c
  have fourth := q.set_spec n d
  rw [digit_set_apart proper apart less] at first
  rw [digit_set_apart properOther apart.symm lessOther] at third
  omega

end

/-- The places are proper, apart from each other, and within the bound. -/
structure Spread (ps : List Place) (bound : Nat) : Prop where
  proper : ∀ p ∈ ps, p.Proper
  apart : ps.Pairwise Apart
  fits : ∀ p ∈ ps, p.span ∣ bound

/-- The number with every digit at the places zero. -/
def clear (ps : List Place) (n : Nat) : Nat := ps.foldr (fun p rest => p.set rest 0) n

/-- How many numbers the digits at the places make. -/
def volume (ps : List Place) : Nat := (ps.map Place.size).prod

theorem volume_cons (p : Place) (ps : List Place) : volume (p :: ps) = p.size * volume ps := by
  rw [volume, List.map_cons, List.prod_cons, volume]

/-- The digits as one number, the first most significant. -/
def number (ps : List Place) (n : Nat) : Nat :=
  ps.foldl (fun total p => total * p.size + p.digit n) 0

theorem foldl_number (ps : List Place) (n total : Nat) :
    ps.foldl (fun total p => total * p.size + p.digit n) total = total * volume ps + number ps n := by
  induction ps generalizing total with
  | nil => simp [volume, number]
  | cons p ps ih =>
    rw [number, List.foldl_cons, List.foldl_cons, ih, ih (0 * p.size + p.digit n), volume_cons]
    ring

theorem number_cons (p : Place) (ps : List Place) (n : Nat) :
    number (p :: ps) n = p.digit n * volume ps + number ps n := by
  rw [number, List.foldl_cons, foldl_number, Nat.zero_mul, Nat.zero_add]

theorem clear_cons (p : Place) (ps : List Place) (n : Nat) :
    clear (p :: ps) n = p.set (clear ps n) 0 := rfl

namespace Spread

theorem tail (spread : Spread (p :: ps) bound) : Spread ps bound where
  proper q member := spread.proper q (List.mem_cons_of_mem _ member)
  apart := (List.pairwise_cons.mp spread.apart).2
  fits q member := spread.fits q (List.mem_cons_of_mem _ member)

theorem head_apart (spread : Spread (p :: ps) bound) (member : q ∈ ps) : Apart p q :=
  (List.pairwise_cons.mp spread.apart).1 q member

theorem head_proper (spread : Spread (p :: ps) bound) : p.Proper :=
  spread.proper p List.mem_cons_self

variable (spread : Spread ps bound)

include spread

theorem volume_pos : 0 < volume ps := by
  induction ps with
  | nil => exact Nat.one_pos
  | cons p ps ih =>
    exact Nat.mul_pos spread.head_proper.2 (ih spread.tail)

theorem number_lt (n : Nat) : number ps n < volume ps := by
  induction ps with
  | nil => simp [number, volume]
  | cons p ps ih =>
    have digit := digit_lt spread.head_proper n
    have rest := ih spread.tail
    rw [number_cons, volume_cons]
    calc p.digit n * volume ps + number ps n
        < p.digit n * volume ps + volume ps := by omega
      _ = (p.digit n + 1) * volume ps := by ring
      _ ≤ p.size * volume ps := Nat.mul_le_mul_right _ digit

/-- A place apart from all of them keeps its digit. -/
theorem digit_clear (apart : ∀ p ∈ ps, Apart q p) (n : Nat) :
    q.digit (clear ps n) = q.digit n := by
  induction ps with
  | nil => rfl
  | cons p ps ih =>
    rw [clear_cons, digit_set_apart spread.head_proper (apart p List.mem_cons_self).symm
      spread.head_proper.2, ih spread.tail fun other member => apart other
        (List.mem_cons_of_mem _ member)]

theorem clear_set (proper : q.Proper) (apart : ∀ p ∈ ps, Apart q p) (less : c < q.size) (n : Nat) :
    clear ps (q.set n c) = q.set (clear ps n) c := by
  induction ps with
  | nil => rfl
  | cons p ps ih =>
    rw [clear_cons, clear_cons, ih spread.tail fun other member => apart other
      (List.mem_cons_of_mem _ member)]
    exact set_comm proper spread.head_proper (apart p List.mem_cons_self) less
      spread.head_proper.2 _

theorem number_set (proper : q.Proper) (apart : ∀ p ∈ ps, Apart q p) (less : c < q.size)
    (n : Nat) : number ps (q.set n c) = number ps n := by
  induction ps with
  | nil => rfl
  | cons p ps ih =>
    rw [number_cons, number_cons, ih spread.tail fun other member => apart other
      (List.mem_cons_of_mem _ member), digit_set_apart proper (apart p List.mem_cons_self) less]

/-- Some number agrees with a given one apart from the places, and has given digits there. -/
theorem exists_number (below : n < bound) (less : c < volume ps) :
    ∃ m < bound, clear ps m = clear ps n ∧ number ps m = c := by
  induction ps generalizing c with
  | nil =>
    have zero : c = 0 := by simpa [volume] using less
    exact ⟨n, below, rfl, zero.symm⟩
  | cons p ps ih =>
    have positive := spread.tail.volume_pos
    rw [volume_cons, Nat.mul_comm] at less
    obtain ⟨m, inside, cleared, digits⟩ := ih spread.tail (Nat.mod_lt c positive)
    have quotient : c / volume ps < p.size := Nat.div_lt_of_lt_mul less
    refine ⟨p.set m (c / volume ps), set_lt spread.head_proper quotient
      (spread.fits p List.mem_cons_self) inside, ?_, ?_⟩
    · rw [clear_cons, clear_cons, spread.tail.clear_set spread.head_proper
        (fun q => spread.head_apart) quotient, set_set spread.head_proper quotient, cleared]
    · rw [number_cons, digit_set spread.head_proper quotient, spread.tail.number_set
        spread.head_proper (fun q => spread.head_apart) quotient, digits, Nat.mul_comm]
      exact Nat.div_add_mod c (volume ps)

/-- The digits at the places, and what is left without them, make the number. -/
theorem eq_of_number {m : Nat} (cleared : clear ps m = clear ps n)
    (digits : number ps m = number ps n) : m = n := by
  induction ps with
  | nil => exact cleared
  | cons p ps ih =>
    have positive := spread.tail.volume_pos
    rw [number_cons, number_cons] at digits
    have heads := congrArg (· / volume ps) digits
    have tails := congrArg (· % volume ps) digits
    simp only [Nat.mul_comm _ (volume ps), Nat.mul_add_div positive, Nat.mul_add_mod,
      Nat.div_eq_of_lt (spread.tail.number_lt _), Nat.mod_eq_of_lt (spread.tail.number_lt _),
      Nat.add_zero] at heads tails
    refine ih spread.tail ?_ tails
    have first := p.set_spec (clear ps m) 0
    have second := p.set_spec (clear ps n) 0
    rw [spread.tail.digit_clear fun q => spread.head_apart] at first second
    rw [clear_cons, clear_cons] at cleared
    rw [heads, cleared] at first
    omega

end Spread

/-- The numbers below the bound that agree with one apart from the places. -/
def group (ps : List Place) (bound n : Nat) : Finset Nat :=
  (Finset.range bound).filter fun m => clear ps m = clear ps n

/-- A group has each number of digits once. -/
theorem Spread.sum_group {M : Type} [AddCommMonoid M] (spread : Spread ps bound)
    (below : n < bound) (value : Nat → M) :
    ((group ps bound n).sum fun m => value (number ps m)) =
      (Finset.range (volume ps)).sum value := by
  refine Finset.sum_nbij (number ps) (fun m member => ?_) (fun m member other isOther same => ?_)
    (fun c member => ?_) fun m _ => rfl
  · exact Finset.mem_range.mpr (spread.number_lt m)
  · have cleared := (Finset.mem_filter.mp member).2.trans (Finset.mem_filter.mp isOther).2.symm
    exact spread.eq_of_number cleared same
  · obtain ⟨m, inside, cleared, digits⟩ :=
      spread.exists_number below (Finset.mem_range.mp (Finset.mem_coe.mp member))
    exact ⟨m, Finset.mem_coe.mpr (Finset.mem_filter.mpr ⟨Finset.mem_range.mpr inside, cleared⟩),
      digits⟩

end Place

end Libtt.Foundation

import Libtt.Rng.Correct

/-!
# Streams never repeat a block

The rounds of both generators lose nothing of a counter, so blocks under one key differ where their
counters do. Draw after draw counts the second 64-bit element of the state up.
-/
namespace Libtt.Rng

/-- A fold of steps that lose nothing. -/
theorem foldl_injective {α β : Type} {step : α → β → α} {items : List β}
    (each : ∀ item ∈ items, Function.Injective (step · item)) :
    Function.Injective (items.foldl step ·) := by
  induction items with
  | nil => exact Function.injective_id
  | cons item items ih =>
    intro left right same
    exact each item List.mem_cons_self
      (ih (fun other member => each other (List.mem_cons_of_mem _ member)) same)

theorem rotateLeft_injective {r : Nat} (small : r < 32) : Function.Injective (rotateLeft · r) := by
  have moved (x : Word) (i : Nat) (inside : i < 32) :
      (rotateLeft x r).getLsbD ((i + r) % 32) = x.getLsbD i := by
    rw [rotateLeft, BitVec.getLsbD_or, BitVec.getLsbD_shiftLeft, BitVec.getLsbD_ushiftRight]
    rcases Nat.lt_or_ge (i + r) 32 with low | high
    · rw [Nat.mod_eq_of_lt low, BitVec.getLsbD_of_ge x (32 - r + (i + r)) (by omega)]
      simp [low]
    · have place : (i + r) % 32 = i + r - 32 := by omega
      rw [place, show 32 - r + (i + r - 32) = i by omega]
      simp [show i + r - 32 < r by omega]
  intro x y same
  dsimp only at same
  refine BitVec.eq_of_getLsbD_eq fun i inside => ?_
  rw [← moved x i inside, ← moved y i inside, same]

/-! ## Blocks -/

theorem threefryRound_injective {r : Nat} (small : r < 32) :
    Function.Injective (threefryRound · r) := by
  rintro ⟨x0, x1⟩ ⟨y0, y1⟩ same
  simp only [threefryRound, Prod.mk.injEq] at same
  obtain ⟨sum, mixed⟩ := same
  rw [sum, BitVec.xor_left_inj] at mixed
  obtain rfl := rotateLeft_injective small mixed
  rw [(BitVec.add_left_inj _).mp sum]

theorem threefry_injective (k0 k1 : Word) :
    Function.Injective fun c : Word × Word => threefry k0 k1 c.1 c.2 := by
  have shifted {x y : Word × Word} {a b : Word} (same : (x.1 + a, x.2 + b) = (y.1 + a, y.2 + b)) :
      x = y := by
    rw [Prod.mk.injEq, BitVec.add_left_inj, BitVec.add_left_inj] at same
    exact Prod.ext same.1 same.2
  intro c d same
  dsimp only [threefry] at same
  refine shifted (foldl_injective (fun i _ x y same => ?_) same)
  refine foldl_injective (fun r member => threefryRound_injective ?_) (shifted same)
  rw [rotations] at member
  split at member <;> simp only [List.mem_cons, List.not_mem_nil, or_false] at member <;> omega

/-- Multiplication by a word with an inverse. -/
theorem multiplier_injective {multiplier x y : Word} (inverse : Word)
    (unit : inverse * multiplier = 1#32)
    (same : multiplier * x = multiplier * y) : x = y := by
  have undone := congrArg (inverse * ·) same
  simpa only [← BitVec.mul_assoc, unit, BitVec.one_mul] using undone

theorem philoxRound_injective (k0 k1 : Word) : Function.Injective (philoxRound k0 k1) := by
  rintro ⟨a0, a1, a2, a3⟩ ⟨b0, b1, b2, b3⟩ same
  simp only [philoxRound, Counter.mk.injEq] at same
  obtain ⟨first, second, third, fourth⟩ := same
  obtain rfl := multiplier_injective 0x6D7CAE67#32 (by decide) second
  obtain rfl := multiplier_injective 0x991A7CDB#32 (by decide) fourth
  rw [BitVec.xor_left_inj, BitVec.xor_right_inj] at first third
  rw [first, third]

theorem counterAfter_injective (k0 k1 : Word) (rounds : Nat) :
    Function.Injective (counterAfter k0 k1 · rounds) := by
  induction rounds with
  | zero => exact Function.injective_id
  | succ rounds ih => exact (philoxRound_injective _ _).comp ih

/-- The key and the words of the block whose first word is drawn for an element. -/
def block (algorithm : RngAlgorithm) (state : State) (index : Nat) : (Word × Word) × Counter :=
  match algorithm with
  | .Threefry =>
    let key := threefry state.w0 state.h0 state.h1 0x1BD11BDA#32
    let words := threefry key.1 key.2 (BitVec.ofNat 32 index) state.w1
    (key, ⟨words.1, words.2, 0, 0⟩)
  | .Philox =>
    ((state.w0, state.h0), ((List.range 10).foldl philoxStep
      ((state.w0, state.h0), ⟨BitVec.ofNat 32 index, state.w1, 0, state.h1⟩)).2)

theorem block_inj {algorithm : RngAlgorithm} {state state' : State} {index index' : Nat}
    (same : block algorithm state index = block algorithm state' index')
    (w0Eq : state.w0 = state'.w0) (h0Eq : state.h0 = state'.h0) :
    state.w1 = state'.w1 ∧ state.h1 = state'.h1 ∧
      BitVec.ofNat 32 index = BitVec.ofNat 32 index' := by
  obtain ⟨w0, w1, h0, h1⟩ := state
  obtain ⟨_, w1', _, h1'⟩ := state'
  cases w0Eq
  cases h0Eq
  cases algorithm with
  | Threefry =>
    obtain ⟨keys, words⟩ := Prod.mk.inj same
    obtain ⟨rfl, -⟩ := Prod.mk.inj (threefry_injective _ _ keys)
    obtain ⟨first, second, -⟩ := Counter.mk.inj words
    obtain ⟨sameIndex, rfl⟩ := Prod.mk.inj (threefry_injective _ _ (Prod.ext first second))
    exact ⟨rfl, rfl, sameIndex⟩
  | Philox =>
    obtain ⟨-, counters⟩ := Prod.mk.inj same
    rw [philoxStep_foldl, philoxStep_foldl] at counters
    obtain ⟨sameIndex, w1Eq, -, h1Eq⟩ := Counter.mk.inj (counterAfter_injective _ _ _ counters)
    exact ⟨w1Eq, h1Eq, sameIndex⟩

/-! ## Draws in a row -/

/-- The second 64-bit element of the state. -/
def State.second (state : State) : BitVec 64 := state.h1 ++ state.w1

theorem second_next (state : State) : state.next.second = state.second + 1#64 := by
  have joined (x : BitVec 64) : ((x >>> 32).setWidth 32 : Word) ++ (x.setWidth 32 : Word) = x := by
    ext i inside
    simp only [BitVec.getElem_append, BitVec.getElem_setWidth, BitVec.getLsbD_ushiftRight]
    split
    · simp [← BitVec.getLsbD_eq_getElem]
    · rw [show 32 + (i - 32) = i by omega]
      simp [← BitVec.getLsbD_eq_getElem]
  exact joined _

theorem iterate_next (state : State) (draws : Nat) :
    (State.next^[draws] state).w0 = state.w0 ∧ (State.next^[draws] state).h0 = state.h0 ∧
      (State.next^[draws] state).second = state.second + BitVec.ofNat 64 draws := by
  induction draws with
  | zero => simp
  | succ draws ih =>
    obtain ⟨w0, h0, second⟩ := ih
    rw [Function.iterate_succ_apply']
    refine ⟨w0, h0, ?_⟩
    rw [second_next, second, BitVec.add_assoc, BitVec.ofNat_add]

/-- In any run of fewer than `2 ^ 64` draws of up to `2 ^ 32` elements, every word is the first of
a block of its own: no two of them have the same key and words. -/
theorem stream_blocks_injective (algorithm : RngAlgorithm) (state : State) :
    (∀ draws index, drawn algorithm (State.next^[draws] state) index =
      (block algorithm (State.next^[draws] state) index).2.c0) ∧
    Set.InjOn (fun place : Nat × Nat => block algorithm (State.next^[place.1] state) place.2)
      (Set.Iio (2 ^ 64) ×ˢ Set.Iio (2 ^ 32)) := by
  constructor
  · intro draws index
    cases algorithm <;> rfl
  · rintro ⟨draws, index⟩ ⟨few, inside⟩ ⟨draws', index'⟩ ⟨few', inside'⟩ same
    obtain ⟨w0, h0, second⟩ := iterate_next state draws
    obtain ⟨w0', h0', second'⟩ := iterate_next state draws'
    obtain ⟨w1, h1, sameIndex⟩ := block_inj same (w0.trans w0'.symm) (h0.trans h0'.symm)
    have sameSecond : BitVec.ofNat 64 draws = BitVec.ofNat 64 draws' := by
      rw [State.second, h1, w1] at second
      exact (BitVec.add_right_inj _).mp (second.symm.trans second')
    have drawsEq := congrArg BitVec.toNat sameSecond
    have indexEq := congrArg BitVec.toNat sameIndex
    rw [BitVec.toNat_ofNat, BitVec.toNat_ofNat, Nat.mod_eq_of_lt few, Nat.mod_eq_of_lt few']
      at drawsEq
    rw [BitVec.toNat_ofNat, BitVec.toNat_ofNat, Nat.mod_eq_of_lt inside, Nat.mod_eq_of_lt inside']
      at indexEq
    exact Prod.ext drawsEq indexEq

end Libtt.Rng

import Mathlib.Algebra.BigOperators.Group.List.Basic
import Mathlib.Data.List.Range
import Libtt.Foundation.Updates
import Libtt.Rng.Words

/-!
# Elements of a tile

The vectors of a tile are updated independently, so an element of a tile goes through the
kernel's rounds on its own; its index is the one of its row-major position.
-/

namespace Libtt.Rng

open Libtt.Foundation

variable {p : Position} {rowsValid : Nat}

/-- The element of a lane is in the vector and the lane it was addressed by. -/
@[simp] theorem vector_positionOf (tile : Nat) (face : Fin 4) (d : Fin 8) (lane : Fin 32) :
    (positionOf tile face d lane).vector = (face, d) := by
  refine Prod.ext rfl (Fin.ext ?_)
  simp only [positionOf, Position.vector]
  omega

/-- Loading the vector of an element gives the element in its lane. -/
theorem load_lane (dst : Dst) (tile : Nat) (p : Position) :
    load dst tile p.vector p.lane = dst { p with tile := tile } := by
  simp only [load, positionOf, Position.vector, Position.lane]
  congr 2 <;> exact Fin.ext (by dsimp only; omega)

/-- Storing a vector sets its elements in the tile. -/
theorem store_vector (dst : Dst) (tile : Nat) (p : Position) (lanes : Lanes) :
    store dst tile p.vector lanes p = if p.tile = tile then lanes p.lane else dst p := by
  simp only [store, and_true]

theorem store_other (dst : Dst) (tile : Nat) {vector : Fin 4 × Fin 8} (lanes : Lanes)
    (other : p.vector ≠ vector) : store dst tile vector lanes p = dst p :=
  if_neg fun same => other same.2

/-- Loads of one vector from memories that agree on it. -/
theorem load_congr {dst other : Dst} {vector : Fin 4 × Fin 8}
    (same : ∀ p : Position, p.vector = vector → dst p = other p) (tile : Nat) :
    load dst tile vector = load other tile vector := by
  funext lane
  exact same _ (vector_positionOf tile vector.1 vector.2 lane)

theorem vectors_nodup : (vectors.map id).Nodup := by decide

theorem mem_vectors (vector : Fin 4 × Fin 8) : vector ∈ vectors := by
  simp [vectors, List.mem_flatMap, Prod.ext_iff]

/-- An update of one vector that reads nothing else. -/
def OfVector (update : Fin 4 × Fin 8 → Dst → Dst) : Prop :=
  Independent Position.vector id update

/-- A store of fixed lanes. -/
theorem ofVector_store (tile : Nat) (lanes : Fin 4 × Fin 8 → Lanes) :
    OfVector fun vector dst => store dst tile vector (lanes vector) where
  frame vector dst p other := store_other _ _ _ other
  reads vector dst other same p own := by
    subst own
    rw [store_vector, store_vector, same p rfl]

/-- An update made for some vectors only. -/
theorem OfVector.guarded {update : Fin 4 × Fin 8 → Dst → Dst} (ofVector : OfVector update)
    (applies : Fin 4 × Fin 8 → Bool) :
    OfVector fun vector dst => if applies vector then update vector dst else dst where
  frame vector dst p other := by
    split
    · exact ofVector.frame vector dst p other
    · rfl
  reads vector dst other same p own := by
    split
    · exact ofVector.reads vector dst other same p own
    · exact same p own

/-- After a loop over all vectors, an element is as its own vector's update leaves it. -/
theorem OfVector.foldl_at {update : Fin 4 × Fin 8 → Dst → Dst} (ofVector : OfVector update)
    (dst : Dst) (p : Position) :
    vectors.foldl (fun dst vector => update vector dst) dst p = update p.vector dst p :=
  Independent.foldl_at ofVector vectors_nodup dst (mem_vectors p.vector) rfl

/-- The update of a half round: a store of the low words, and one of the mixed high words. -/
theorem ofVector_philoxHalfVector (multiplier : Word) (lastRound : Bool) (word other : Nat)
    (key : Word) : OfVector (philoxHalfVector multiplier lastRound word other key) where
  frame vector dst p outside := by
    change p.vector ≠ vector at outside
    rw [philoxHalfVector, store_other _ _ _ outside]
    split
    · rfl
    · exact store_other _ _ _ outside
  reads vector dst dst' same p own := by
    subst own
    change ∀ place : Position, place.vector = p.vector → dst place = dst' place at same
    have words := load_congr same word
    simp only [philoxHalfVector, words]
    have stored : ∀ place : Position, place.vector = p.vector →
        (if lastRound then dst else store dst word p.vector fun lane =>
          (mulhilo multiplier (load dst' word p.vector lane)).2) place =
        (if lastRound then dst' else store dst' word p.vector fun lane =>
          (mulhilo multiplier (load dst' word p.vector lane)).2) place := by
      intro place own
      split
      · exact same place own
      · rw [← own, store_vector, store_vector, same place own]
    rw [store_vector, store_vector, load_congr stored other, stored p rfl]

/-- The lane's own offset. -/
theorem laneOffsets_eq (W : Word) (lane : Fin 32) :
    laneOffsets W lane = BitVec.ofNat 32 (2 * (lane % 8)) + BitVec.ofNat 32 (lane / 8) * W := by
  have column : BitVec.ofNat 32 (2 * lane) &&& 14#32 = BitVec.ofNat 32 (2 * (lane % 8)) := by
    revert lane
    decide
  have odd : (BitVec.ofNat 32 (2 * lane) >>> 4 &&& 1#32 ≠ 0) ↔ (lane.val / 8) % 2 = 1 := by
    revert lane
    decide
  have high : (BitVec.ofNat 32 (2 * lane) >>> 4 &&& 2#32 ≠ 0) ↔ (lane.val / 8) / 2 = 1 := by
    revert lane
    decide
  have twice : W <<< 1 = BitVec.ofNat 32 2 * W := by
    rfl
  simp only [laneOffsets, column, odd, high, twice]
  have rows : lane.val / 8 = 0 ∨ lane.val / 8 = 1 ∨ lane.val / 8 = 2 ∨ lane.val / 8 = 3 := by omega
  rcases rows with row | row | row | row <;> rw [row] <;> simp
  · rw [add_assoc]
    congr 1
    rw [show (3#32 : Word) = 1 + 2 from rfl, add_mul, one_mul]
    rfl

/-- The index the kernel computes for an element of a tile. -/
theorem element_index (base W : Word) (p : Position) :
    laneOffsets W p.lane + vectorIndex (faceIndex base W p.vector.1) W p.vector.2 =
      base + BitVec.ofNat 32 (16 * (p.face / 2) + p.row) * W +
        BitVec.ofNat 32 (16 * (p.face % 2) + p.column) := by
  have row : p.row.val = 4 * (p.row / 4) + p.row % 4 := by omega
  have column : p.column.val = 2 * (p.column / 2) + p.column % 2 := by omega
  have lane : p.lane.val / 8 = p.row % 4 ∧ p.lane.val % 8 = p.column / 2 := by
    simp only [Position.lane]
    omega
  have vector : p.vector.2.val / 2 = p.row / 4 ∧ p.vector.2.val % 2 = p.column % 2 := by
    simp only [Position.vector]
    omega
  rw [laneOffsets_eq, vectorIndex, faceIndex, lane.1, lane.2, vector.1, vector.2]
  conv => rhs; rw [row, column]
  simp only [BitVec.ofNat_add, BitVec.ofNat_mul, Position.vector]
  ring

/-- The element of `indexTile` is its index. -/
theorem indexTile_at (tile : Nat) (base W : Word) (dst : Dst) (p : Position) :
    indexTile tile base W dst p =
      if p.tile = tile then
        base + BitVec.ofNat 32 (16 * (p.face / 2) + p.row) * W +
          BitVec.ofNat 32 (16 * (p.face % 2) + p.column)
      else dst p := by
  rw [indexTile, (ofVector_store tile fun vector lane =>
    laneOffsets W lane + vectorIndex (faceIndex base W vector.1) W vector.2).foldl_at, store_vector,
    element_index]

/-- The element of `threefryTile`, on rows of the tensor, is drawn for its index. -/
theorem threefryTile_at (tile : Nat) (base W : Word) (ks0 ks1 w1 : Word) (dst : Dst)
    (own : p.tile = tile) (valid : rowValid p.vector rowsValid) :
    threefryTile tile base W rowsValid ks0 ks1 (ks0 ^^^ ks1 ^^^ 0x1BD11BDA#32) w1 dst p =
      (threefry ks0 ks1 (base + BitVec.ofNat 32 (16 * (p.face / 2) + p.row) * W +
        BitVec.ofNat 32 (16 * (p.face % 2) + p.column)) w1).1 := by
  rw [threefryTile, ((ofVector_store tile fun vector lane =>
    (threefryKeyed (laneOffsets W lane + (vectorIndex (faceIndex base W vector.1) W vector.2 + ks0),
      w1 + ks1) ks0 ks1 (ks0 ^^^ ks1 ^^^ 0x1BD11BDA#32)).1).guarded
      fun vector => rowValid vector rowsValid).foldl_at]
  simp only [valid, if_true]
  rw [store_vector, if_pos own, ← BitVec.add_assoc, element_index, threefryKeyed_eq]

/-- An element through a half round: the words of its counter in two of the tiles change. -/
theorem philoxHalfRound_at (multiplier : Word) (lastRound : Bool) {word other : Nat}
    (apart : word ≠ other) (key : Word) (dst : Dst) (valid : rowValid p.vector rowsValid) :
    philoxHalfRound multiplier lastRound word other key rowsValid dst p =
      if p.tile = other then
        mulHigh multiplier (dst { p with tile := word }) ^^^ dst p ^^^ key
      else if p.tile = word ∧ lastRound = false then multiplier * dst p
      else dst p := by
  rw [philoxHalfRound, ((ofVector_philoxHalfVector multiplier lastRound word other key).guarded
    fun vector => rowValid vector rowsValid).foldl_at]
  simp only [valid, if_true, philoxHalfVector]
  rw [store_vector, load_lane, load_lane, mulhilo_eq]
  cases lastRound with
  | true =>
    simp only [if_true]
    by_cases isOther : p.tile = other
    · rw [if_pos isOther, if_pos isOther, ← isOther]
    · rw [if_neg isOther, if_neg isOther, if_neg fun both => Bool.noConfusion both.2]
  | false =>
    have read : ∀ tile, store dst word p.vector
        (fun lane => (mulhilo multiplier (load dst word p.vector lane)).2) { p with tile := tile } =
          if tile = word then multiplier * dst { p with tile := word }
          else dst { p with tile := tile } := by
      intro tile
      have stored := store_vector dst word { p with tile := tile }
        fun lane => (mulhilo multiplier (load dst word p.vector lane)).2
      have lane : load dst word p.vector (Position.lane { p with tile := tile }) =
          dst { p with tile := word } := load_lane dst word p
      rw [lane, mulhilo_eq] at stored
      exact stored
    have here := read p.tile
    by_cases isOther : p.tile = other
    · rw [if_pos isOther, if_pos isOther]
      simp only [Bool.false_eq_true, if_false, read]
      rw [if_neg (Ne.symm apart), ← isOther]
    · rw [if_neg isOther, if_neg isOther]
      simp only [Bool.false_eq_true, if_false, and_true]
      rw [here]
      by_cases isWord : p.tile = word
      · rw [if_pos isWord, if_pos isWord, ← isWord]
      · rw [if_neg isWord, if_neg isWord]

/-- The counter an element has in the four tiles of the Philox loop. -/
def PhiloxLoop.counter (loop : PhiloxLoop) (p : Position) : Counter where
  c0 := loop.dst { p with tile := loop.x.1 }
  c1 := loop.dst { p with tile := loop.x.2.1 }
  c2 := loop.dst { p with tile := loop.x.2.2.1 }
  c3 := loop.dst { p with tile := loop.x.2.2.2 }

/-- The four tiles are different. -/
def PhiloxLoop.Apart (loop : PhiloxLoop) : Prop :=
  [loop.x.1, loop.x.2.1, loop.x.2.2.1, loop.x.2.2.2].Nodup

/-- One round of the loop is one Philox round of each element's counter. -/
theorem PhiloxLoop.round_counter {loop : PhiloxLoop} (apart : loop.Apart)
    (valid : rowValid p.vector rowsValid) :
    (loop.round rowsValid).Apart ∧
      (loop.round rowsValid).counter p = philoxRound loop.k0 loop.k1 (loop.counter p) := by
  simp only [Apart, List.nodup_cons, List.mem_cons, List.not_mem_nil, or_false, not_or,
    List.nodup_nil, and_true, not_false_eq_true] at apart
  obtain ⟨⟨x01, x02, x03⟩, ⟨x12, x13⟩, x23⟩ := apart
  have valid' : ∀ tile, rowValid (Position.vector { p with tile := tile }) rowsValid :=
    fun _ => valid
  refine ⟨?_, ?_⟩
  · simp only [Apart, round, List.nodup_cons, List.mem_cons, List.not_mem_nil, or_false, not_or,
      List.nodup_nil, and_true, not_false_eq_true]
    exact ⟨⟨x12, x13, Ne.symm x01⟩, ⟨x23, Ne.symm x02⟩, Ne.symm x03⟩
  · simp only [counter, round, philoxRound,
      philoxHalfRound_at _ _ (Ne.symm x12) _ _ (valid' _),
      philoxHalfRound_at _ _ x03 _ _ (valid' _), x01, x02, x03, x12, x13, x23, Ne.symm x01,
      Ne.symm x02, Ne.symm x03, Ne.symm x12, Ne.symm x13, Ne.symm x23, if_true, if_false, false_and,
      and_self]

/-- The key of a Philox round, which each round but the first advances. -/
def roundKey (k0 k1 : Word) (round : Nat) : Word × Word :=
  (k0 + BitVec.ofNat 32 round * 0x9E3779B9#32, k1 + BitVec.ofNat 32 round * 0xBB67AE85#32)

theorem roundKey_succ (k0 k1 : Word) (round : Nat) :
    roundKey k0 k1 (round + 1) =
      ((roundKey k0 k1 round).1 + 0x9E3779B9#32, (roundKey k0 k1 round).2 + 0xBB67AE85#32) := by
  simp only [roundKey, BitVec.ofNat_add, show BitVec.ofNat 32 1 = (1 : Word) from rfl]
  refine Prod.ext ?_ ?_ <;> dsimp only <;> ring

/-- The counter after some rounds of the reference. -/
def counterAfter (k0 k1 : Word) (c : Counter) : Nat → Counter
  | 0 => c
  | rounds + 1 =>
    philoxRound (roundKey k0 k1 rounds).1 (roundKey k0 k1 rounds).2 (counterAfter k0 k1 c rounds)

/-- The reference loop after some rounds. -/
theorem philoxStep_foldl (k0 k1 : Word) (c : Counter) (rounds : Nat) :
    (List.range (rounds + 1)).foldl philoxStep ((k0, k1), c) =
      (roundKey k0 k1 rounds, counterAfter k0 k1 c (rounds + 1)) := by
  induction rounds with
  | zero => simp [philoxStep, roundKey, counterAfter]
  | succ rounds ih =>
    rw [List.range_succ, List.foldl_append, ih, List.foldl_cons, List.foldl_nil, philoxStep,
      if_pos (Nat.succ_pos rounds), ← roundKey_succ]
    rfl

/-- The kernel's loop after some rounds. -/
theorem PhiloxLoop.foldl_counter {loop : PhiloxLoop} (apart : loop.Apart)
    (valid : rowValid p.vector rowsValid) (rounds : Nat) :
    let after := (List.range rounds).foldl (fun loop _ => loop.round rowsValid) loop
    after.Apart ∧ (after.k0, after.k1) = roundKey loop.k0 loop.k1 rounds ∧
      after.counter p = counterAfter loop.k0 loop.k1 (loop.counter p) rounds := by
  induction rounds with
  | zero => simp [apart, roundKey, counterAfter]
  | succ rounds ih =>
    obtain ⟨apart, keys, counter⟩ := ih
    rw [List.range_succ, List.foldl_append, List.foldl_cons, List.foldl_nil]
    obtain ⟨apart', counter'⟩ := PhiloxLoop.round_counter apart valid
    refine ⟨apart', ?_, ?_⟩
    · rw [roundKey_succ, ← keys]
      rfl
    · rw [counter', counter, counterAfter, ← keys]

/-- Nine rounds and the last half round leave the first word of Philox in the second tile. -/
theorem PhiloxLoop.last_word {loop : PhiloxLoop} (apart : loop.Apart)
    (valid : rowValid p.vector rowsValid) :
    let after := (List.range 9).foldl (fun loop _ => loop.round rowsValid) loop
    philoxHalfRound 0xCD9E8D57#32 true after.x.2.2.1 after.x.2.1 after.k0 rowsValid after.dst
        { p with tile := after.x.2.1 } = philox loop.k0 loop.k1 (loop.counter p) := by
  intro after
  obtain ⟨apart, keys, counter⟩ := PhiloxLoop.foldl_counter apart valid 9
  have different : after.x.2.2.1 ≠ after.x.2.1 := by
    simp only [Apart, List.nodup_cons, List.mem_cons, not_or] at apart
    exact Ne.symm apart.2.1.1
  have valid : rowValid (Position.vector { p with tile := after.x.2.1 }) rowsValid := valid
  rw [philoxHalfRound_at _ _ different _ _ valid, if_pos rfl, philox, philoxStep_foldl,
    counterAfter, ← counter, ← keys]
  rfl

/-- An element of a tile on a row of the tensor is drawn for its index. -/
theorem computeTile_eq (algorithm : RngAlgorithm) (args : CommonArgs) (words : Nat → Word)
    (tile : Nat) (dst : Dst) (face : Fin 4) (row column : Fin 16)
    (valid : tile / args.Wt % args.Ht * 32 + (16 * (face / 2) + row) < args.H) :
    computeTile algorithm args words tile dst face row column =
      drawn algorithm (stateOf words)
        ((tile / (args.Wt * args.Ht % 2 ^ 32) * args.H + tile / args.Wt % args.Ht * 32 +
          (16 * (face / 2) + row)) * args.W + tile % args.Wt * 32 + (16 * (face % 2) + column)) := by
  have isValid : rowValid (Position.vector ⟨0, face, row, column⟩)
      (if args.H - tile / args.Wt % args.Ht * 32 < 32 then
        args.H - tile / args.Wt % args.Ht * 32 else 32) := by
    refine decide_eq_true ?_
    dsimp only [Position.vector]
    split <;> omega
  have index : (BitVec.ofNat 32 (tile / (args.Wt * args.Ht % 2 ^ 32)) * BitVec.ofNat 32 args.H +
      BitVec.ofNat 32 (tile / args.Wt % args.Ht) * 32) * BitVec.ofNat 32 args.W +
      BitVec.ofNat 32 (tile % args.Wt) * 32 +
      BitVec.ofNat 32 (16 * (face / 2) + row) * BitVec.ofNat 32 args.W +
      BitVec.ofNat 32 (16 * (face % 2) + column) =
        BitVec.ofNat 32 ((tile / (args.Wt * args.Ht % 2 ^ 32) * args.H + tile / args.Wt % args.Ht * 32 +
          (16 * (face / 2) + row)) * args.W + tile % args.Wt * 32 +
          (16 * (face % 2) + column)) := by
    simp only [BitVec.ofNat_add, BitVec.ofNat_mul, show BitVec.ofNat 32 32 = (32 : Word) from rfl]
    ring
  cases algorithm with
  | Threefry =>
    simp only [computeTile, drawn, stateOf]
    rw [threefryTile_at _ _ _ _ _ _ _ rfl isValid, threefryKeyed_eq, index]
  | Philox =>
    simp only [computeTile, drawn, stateOf]
    refine (PhiloxLoop.last_word ?_ isValid).trans ?_
    · show [0, 1, 2, 3].Nodup
      decide
    simp only [PhiloxLoop.counter, fillTile, indexTile_at, index, if_true, Nat.reduceEqDiff,
      if_false, OfNat.zero_ne_ofNat, OfNat.one_ne_ofNat, zero_ne_one]

end Libtt.Rng

import Libtt.StableHlo.Tensor
import Mathlib.Algebra.BigOperators.Intervals
import Mathlib.Algebra.BigOperators.Ring.Finset
import Mathlib.Tactic.NormNum

/-!
# The experts of one device

`tt.fused_moe_ep` is lowered to calls of the fused kernel on at most 512 tokens each. A call leaves
the outputs of each token's experts, and a matmul with a placement matrix sums a token's outputs
with its weights. Arithmetic is exact, so that casts keep every number.
-/
namespace Libtt.FusedMoe

open Libtt.StableHlo

variable {α : Type}
variable {start token column place : Nat}

def kMaxTokensPerCall : Nat := 512

inductive ElementType
  | integer (width : Nat) (isUnsigned : Bool) | float
  deriving DecidableEq, Repr

/-- The kernel reads int32 or uint16 ids. -/
def ElementType.isIdType : ElementType → Bool
  | .integer width isUnsigned => width = 32 ∨ width = 16 ∧ isUnsigned
  | .float => false

/-- The devices of the module's first mesh. -/
def deviceCount : List (List Nat) → Nat
  | [] => 1
  | shape :: _ => shape.prod

/-- The operands of a `tt.fused_moe_ep` call. Only the shapes of the experts matter here. -/
structure Operands (α : Type) where
  x : Tensor α
  topkWeights : Tensor α
  topkIds : Tensor Int
  idType : ElementType
  w1Shape : List Nat
  w3Shape : List Nat
  w2Shape : List Nat

/-- `ttir.moe_compute` on a device: of a chunk of tokens with a leading dimension, their ids, their
weights and the mapping of the experts to devices. -/
abbrev MoeCompute (α : Type) :=
  Tensor α → Tensor Int → Tensor α → Tensor (BitVec 16) → Tensor α

/-- Some rows of a tensor. -/
def rows {β : Type} (value : Tensor β) (start stop : Nat) : Tensor β where
  shape := value.shape.set 0 (stop - start)
  data
    | row :: rest => value.data ((start + row) :: rest)
    | [] => value.data []

/-- A reshape to one more dimension in front. -/
def withLeading (value : Tensor α) : Tensor α where
  shape := 1 :: value.shape
  data index := value.data index.tail

def matmul [Zero α] [Add α] [Mul α] (a b : Tensor α) : Tensor α where
  shape := [a.shape.getD 0 0, b.shape.getD 1 0]
  data index := ((List.range (a.shape.getD 1 0)).map fun inner =>
    a.data [index.getD 0 0, inner] * b.data [inner, index.getD 1 0]).sum

def multiply [Mul α] (a b : Tensor α) : Tensor α := a.zipWith (· * ·) b

/-- `ttir.concat` along dimension 0. -/
def concatRows [Zero α] : List (Tensor α) → Tensor α
  | [] => ⟨[0, 0], fun _ => 0⟩
  | first :: rest =>
    let others := concatRows rest
    let height := first.shape.getD 0 0
    { shape := first.shape.set 0 (height + others.shape.getD 0 0)
      data
        | row :: index =>
          if row < height then first.data (row :: index)
          else others.data ((row - height) :: index)
        | [] => 0 }

/-- The outputs of the calls as one. -/
def joined [Zero α] : List (Tensor α) → Tensor α
  | [output] => output
  | outputs => concatRows outputs

/-- An `[m, n]` 0/1 matrix, 1 where row `r` equals column `c`'s index. -/
def mask [Zero α] [One α] (m n : Nat) (index : Nat → Nat) : Tensor α where
  shape := [m, n]
  data place := if place.getD 0 0 = index (place.getD 1 0) then 1 else 0

namespace Operands

variable (operands : Operands α)

def tokens : Nat := operands.x.shape.getD 0 0
def hidden : Nat := operands.x.shape.getD 1 0
def k : Nat := operands.topkIds.shape.getD 1 0
def localExperts : Nat := operands.w1Shape.getD 0 0

/-- The shapes and the type of the ids that the pattern takes. -/
def accepts : Bool :=
  operands.x.shape.length = 2 ∧ operands.topkIds.shape.length = 2 ∧
    operands.w1Shape.length = 3 ∧ operands.topkWeights.shape = operands.topkIds.shape ∧
    operands.topkIds.shape.getD 0 0 = operands.x.shape.getD 0 0 ∧
    operands.w1Shape.getD 1 0 = operands.x.shape.getD 1 0 ∧
    operands.w3Shape = operands.w1Shape ∧
    operands.w2Shape =
      [operands.w1Shape.getD 0 0, operands.w1Shape.getD 2 0, operands.w1Shape.getD 1 0] ∧
    operands.idType.isIdType

/-- Every device's row of the mapping gives each expert's device, in 16 bits. -/
def mapping (devices : Nat) : Tensor (BitVec 16) where
  shape := [devices, operands.localExperts * devices]
  data index := BitVec.ofNat 16 (index.getD 1 0 / operands.localExperts)

section Chunk

variable [Zero α] [One α] [Add α] [Mul α]

/-- A chunk's placement matrix: row `i` holds token `i`'s weight `j` at column `j * t + i`. -/
def placement (t : Nat) (chunkWeights : Tensor α) : Tensor α :=
  if 1 < t then
    -- Column j * t + i is slot j of token i.
    let spread := mask operands.k (operands.k * t) fun c => c / t
    let own := mask t (operands.k * t) fun c => c % t
    multiply (matmul chunkWeights spread) own
  else chunkWeights

/-- The slots of a chunk: row `j * t + i` holds token `i`'s `j`-th expert output, unweighted. -/
def slots (devices : Nat) (moeCompute : MoeCompute α) (start stop : Nat) : Tensor α :=
  moeCompute (withLeading (rows operands.x start stop)) (rows operands.topkIds start stop)
    (rows operands.topkWeights start stop) (operands.mapping devices)

/-- The output of the tokens from one on. -/
def chunk (devices : Nat) (moeCompute : MoeCompute α) (start : Nat) : Tensor α :=
  let stop := min operands.tokens (start + kMaxTokensPerCall)
  matmul (operands.placement (stop - start) (rows operands.topkWeights start stop))
    (operands.slots devices moeCompute start stop)

/-- What the pattern emits on a device. The loop takes `kMaxTokensPerCall` tokens in a turn. -/
def matchAndRewrite (meshes : List (List Nat)) (moeCompute : MoeCompute α) :
    Option (Tensor α) :=
  if operands.accepts then
    let devices := deviceCount meshes
    let turns := (operands.tokens + kMaxTokensPerCall - 1) / kMaxTokensPerCall
    some (joined ((List.range turns).map fun turn =>
      operands.chunk devices moeCompute (turn * kMaxTokensPerCall)))
  else none

end Chunk

end Operands

end Libtt.FusedMoe

/-! ## The layer is the sum over devices -/
namespace Libtt.FusedMoe

open Libtt.StableHlo

variable {α : Type}

theorem sum_map_range [AddCommMonoid α] (term : Nat → α) (count : Nat) :
    ((List.range count).map term).sum = ∑ place ∈ Finset.range count, term place := by
  induction count with
  | zero => rfl
  | succ count ih => rw [List.range_succ, List.map_append, List.sum_append, ih,
      Finset.sum_range_succ, List.map_singleton, List.sum_singleton]

/-- A sum over the places of a table, by its rows. -/
theorem sum_range_table [AddCommMonoid α] (term : Nat → Nat → α) (count : Nat) {size : Nat}
    (positive : 0 < size) :
    ∑ place ∈ Finset.range (count * size), term (place / size) (place % size) =
      ∑ row ∈ Finset.range count, ∑ column ∈ Finset.range size, term row column := by
  induction count with
  | zero => rw [Nat.zero_mul]; rfl
  | succ count ih =>
    rw [Nat.succ_mul, Finset.sum_range_add, ih, Finset.sum_range_succ]
    congr 1
    apply Finset.sum_congr rfl
    intro column member
    have less := Finset.mem_range.mp member
    rw [Nat.mul_comm, Nat.mul_add_div positive, Nat.div_eq_of_lt less, Nat.mul_add_mod,
      Nat.mod_eq_of_lt less, Nat.add_zero]

theorem concatRows_chunks [Zero α] {chunk : Nat → Tensor α} {size tokens start count row : Nat}
    {index : List Nat} (heights : ∀ turn, turn * size < tokens →
      (chunk turn).shape.getD 0 0 = min tokens (turn * size + size) - turn * size)
    (inside : start * size + row < tokens) (enough : tokens ≤ (start + count) * size) :
    (concatRows ((List.range' start count).map chunk)).data (row :: index) =
      (chunk (start + row / size)).data (row % size :: index) := by
  induction count generalizing start row with
  | zero =>
    rw [Nat.add_zero] at enough
    omega
  | succ count ih =>
    have height := heights start (by omega)
    have next : (start + 1) * size = start * size + size := Nat.succ_mul ..
    change (if row < (chunk start).shape.getD 0 0 then (chunk start).data (row :: index)
      else (concatRows _).data ((row - (chunk start).shape.getD 0 0) :: index)) = _
    by_cases first : row < (chunk start).shape.getD 0 0
    · have less : row < size := by omega
      rw [if_pos first, Nat.div_eq_of_lt less, Nat.mod_eq_of_lt less, Nat.add_zero]
    · have isSize : (chunk start).shape.getD 0 0 = size := by omega
      have more : size ≤ row := by omega
      have positive : 0 < size := by
        by_contra none
        rw [show size = 0 by omega, Nat.mul_zero] at enough
        omega
      rw [if_neg first, isSize, ih (by omega) (by rwa [Nat.add_assoc, Nat.add_comm 1 count]),
        Nat.mod_eq_sub_mod more, Nat.div_eq_sub_div positive more]
      congr 2
      omega

/-- One output is what concatenation makes of it. -/
theorem joined_data [Zero α] {outputs : List (Tensor α)} {row : Nat} {index : List Nat}
    (inside : ∀ output, outputs = [output] → row < output.shape.getD 0 0) :
    (joined outputs).data (row :: index) = (concatRows outputs).data (row :: index) := by
  unfold joined
  split
  · rename_i output
    exact (if_pos (inside output rfl)).symm
  · rfl

/-- An expert's output is a row, of a token's row. -/
abbrev Experts (α : Type) := Nat → List α → Nat → α

/-- A slot: the output of the expert where the device owns it, and zero otherwise. -/
def slotValue [Zero α] (output : Experts α) (localExperts devices device : Nat) (id : Int)
    (row : List α) (column : Nat) : α :=
  if 0 ≤ id ∧ id < localExperts * devices ∧ id.toNat / localExperts = device then
    output id.toNat row column
  else 0

/-- What the kernel does on a device, given the device of every expert. -/
structure Fills [Zero α] (output : Experts α) (localExperts devices device : Nat)
    (moeCompute : MoeCompute α) : Prop where
  shape (t k hidden : Nat) (x : Tensor α) (ids : Tensor Int) (weights : Tensor α)
    (mapping : Tensor (BitVec 16)) : x.shape = [1, t, hidden] → ids.shape = [t, k] →
      (moeCompute x ids weights mapping).shape = [k * t, hidden]
  slot (t k hidden : Nat) (x : Tensor α) (ids : Tensor Int) (weights : Tensor α)
    (mapping : Tensor (BitVec 16)) : x.shape = [1, t, hidden] → ids.shape = [t, k] →
      (∀ other < devices, ∀ expert < localExperts * devices,
        (mapping.data [other, expert]).toNat = expert / localExperts) →
      ∀ token < t, ∀ slot < k, ∀ column < hidden,
        (moeCompute x ids weights mapping).data [slot * t + token, column] =
          slotValue output localExperts devices device (ids.data [token, slot])
            ((List.range hidden).map fun place => x.data [0, token, place]) column

namespace Operands

variable (operands : Operands α)

/-- The ids, the weights and the rows of tokens, and the expert outputs that a device has. -/
def id (token slot : Nat) : Int := operands.topkIds.data [token, slot]
def weight (token slot : Nat) : α := operands.topkWeights.data [token, slot]
def row (token : Nat) : List α :=
  (List.range operands.hidden).map fun place => operands.x.data [token, place]

def slot [Zero α] (output : Experts α) (devices device token slot column : Nat) : α :=
  slotValue output operands.localExperts devices device (operands.id token slot)
    (operands.row token) column

variable {operands}

/-- The shapes that are accepted. -/
theorem shapes (accepted : operands.accepts = true) :
    operands.x.shape = [operands.tokens, operands.hidden] ∧
      operands.topkIds.shape = [operands.tokens, operands.k] ∧
      operands.topkWeights.shape = [operands.tokens, operands.k] := by
  simp only [accepts, decide_eq_true_eq] at accepted
  obtain ⟨xRank, idsRank, -, sameShape, sameTokens, -⟩ := accepted
  have two {shape : List Nat} (rank : shape.length = 2) :
      shape = [shape.getD 0 0, shape.getD 1 0] := by
    match shape, rank with
    | [first, second], _ => rfl
  have ids := two idsRank
  rw [sameTokens] at ids
  exact ⟨two xRank, ids, sameShape.trans ids⟩

/-- The mapping has the device of every expert while devices are numbers of 16 bits. -/
theorem mapping_owner (operands : Operands α) {devices : Nat} (few : devices ≤ 2 ^ 16) :
    ∀ other < devices, ∀ expert < operands.localExperts * devices,
      ((operands.mapping devices).data [other, expert]).toNat = expert / operands.localExperts := by
  intro other _ expert less
  have owner : expert / operands.localExperts < devices := Nat.div_lt_of_lt_mul less
  exact Nat.mod_eq_of_lt (owner.trans_le few)

section Chunk

variable [Zero α] {output : Experts α} {devices device : Nat} {moeCompute : MoeCompute α}

/-- The rows of a chunk's slots. -/
theorem slots_data (accepted : operands.accepts = true) (few : devices ≤ 2 ^ 16)
    (fills : Fills output operands.localExperts devices device moeCompute) {stop : Nat} {slot : Nat}
    (isToken : token < stop - start) (isSlot : slot < operands.k)
    (isColumn : column < operands.hidden) :
    (operands.slots devices moeCompute start stop).data [slot * (stop - start) + token, column] =
      operands.slot output devices device (start + token) slot column := by
  obtain ⟨xShape, idsShape, -⟩ := shapes accepted
  apply fills.slot (stop - start) operands.k operands.hidden _ _ _ _ _ _
    (operands.mapping_owner few) token isToken slot isSlot column isColumn
  · simp [withLeading, rows, xShape]
  · simp [rows, idsShape]

variable [One α] [Add α] [Mul α]

/-- What a chunk puts out: for each place of the placement matrix, its product with the slot. -/
theorem chunk_data (accepted : operands.accepts = true) (few : devices ≤ 2 ^ 16)
    (fills : Fills output operands.localExperts devices device moeCompute)
    (isToken : token < min operands.tokens (start + kMaxTokensPerCall) - start)
    (isColumn : column < operands.hidden) :
    let t := min operands.tokens (start + kMaxTokensPerCall) - start
    (operands.chunk devices moeCompute start).data [token, column] =
      ((List.range (operands.k * t)).map fun place =>
        (operands.placement t (rows operands.topkWeights start (start + t))).data [token, place] *
          operands.slot output devices device (start + place % t) (place / t) column).sum := by
  intro t
  obtain ⟨xShape, idsShape, weightsShape⟩ := shapes accepted
  have isStop : min operands.tokens (start + kMaxTokensPerCall) = start + t := by omega
  have width : (operands.placement t (rows operands.topkWeights start (start + t))).shape.getD 1 0 =
      operands.k * t := by
    unfold placement
    split
    · simp [multiply, Tensor.zipWith, matmul, mask]
    · simp [rows, weightsShape, show t = 1 by omega]
  rw [chunk, isStop, show start + t - start = t by omega]
  show ((List.range _).map _).sum = _
  rw [width]
  congr 1
  apply List.map_congr_left
  intro place isPlace
  have positive : 0 < t := by omega
  have isSlot : place / t < operands.k :=
    Nat.div_lt_of_lt_mul (by rw [Nat.mul_comm]; exact List.mem_range.mp isPlace)
  have isToken' : place % t < start + t - start := by
    rw [Nat.add_sub_cancel_left]
    exact Nat.mod_lt _ positive
  have slots := slots_data accepted few fills isToken' isSlot isColumn
  rw [Nat.add_sub_cancel_left, Nat.mul_comm, Nat.div_add_mod] at slots
  exact congrArg _ slots

/-- A place of the placement matrix of several tokens. -/
theorem placement_wide (accepted : operands.accepts = true) {t : Nat} (several : 1 < t) :
    (operands.placement t (rows operands.topkWeights start (start + t))).data [token, place] =
      ((List.range operands.k).map fun slot => operands.weight (start + token) slot *
        if slot = place / t then 1 else 0).sum * if token = place % t then 1 else 0 := by
  obtain ⟨-, -, weightsShape⟩ := shapes accepted
  have width : (rows operands.topkWeights start (start + t)).shape.getD 1 0 = operands.k := by
    simp [rows, weightsShape]
  rw [placement, if_pos several, ← width]
  rfl

theorem placement_single {t : Nat} (single : ¬1 < t) :
    (operands.placement t (rows operands.topkWeights start (start + t))).data [token, place] =
      operands.weight (start + token) place := by
  rw [placement, if_neg single]
  rfl

end Chunk

section Exact

variable [CommSemiring α] {output : Experts α} {devices device : Nat} {moeCompute : MoeCompute α}

/-- A place of the placement matrix has a weight of its token, or is zero. -/
theorem placement_data (accepted : operands.accepts = true) {t : Nat} (isToken : token < t)
    (isPlace : place < operands.k * t) :
    (operands.placement t (rows operands.topkWeights start (start + t))).data [token, place] =
      if token = place % t then operands.weight (start + token) (place / t) else 0 := by
  by_cases several : 1 < t
  · have isSlot : place / t < operands.k := Nat.div_lt_of_lt_mul (by rwa [Nat.mul_comm])
    rw [placement_wide accepted several, sum_map_range]
    simp only [mul_ite, mul_one, mul_zero]
    rw [Finset.sum_ite_eq' _ (place / t), if_pos (Finset.mem_range.mpr isSlot)]
  · obtain rfl : t = 1 := by omega
    rw [placement_single several, Nat.mod_one, if_pos (by omega), Nat.div_one]

/-- A token's output: its slots with its weights. -/
theorem chunk_sum (accepted : operands.accepts = true) (few : devices ≤ 2 ^ 16)
    (fills : Fills output operands.localExperts devices device moeCompute)
    (isToken : token < min operands.tokens (start + kMaxTokensPerCall) - start)
    (isColumn : column < operands.hidden) :
    (operands.chunk devices moeCompute start).data [token, column] =
      ∑ slot ∈ Finset.range operands.k, operands.weight (start + token) slot *
        operands.slot output devices device (start + token) slot column := by
  rw [chunk_data accepted few fills isToken isColumn, sum_map_range]
  generalize min operands.tokens (start + kMaxTokensPerCall) - start = t at *
  have positive : 0 < t := by omega
  let term (slot other : Nat) : α :=
    (if token = other then operands.weight (start + token) slot else 0) *
      operands.slot output devices device (start + other) slot column
  have terms : ∀ place ∈ Finset.range (operands.k * t),
      (operands.placement t (rows operands.topkWeights start (start + t))).data [token, place] *
        operands.slot output devices device (start + place % t) (place / t) column =
      term (place / t) (place % t) := by
    intro place member
    rw [placement_data accepted isToken (Finset.mem_range.mp member)]
  rw [Finset.sum_congr rfl terms, sum_range_table term _ positive]
  apply Finset.sum_congr rfl
  intro slot _
  simp only [term, ite_mul, zero_mul]
  rw [Finset.sum_ite_eq, if_pos (Finset.mem_range.mpr isToken)]

end Exact

section Emitted

variable [Zero α] [One α] [Add α] [Mul α]

theorem chunk_height (operands : Operands α) (devices : Nat) (moeCompute : MoeCompute α)
    (accepted : operands.accepts = true) :
    (operands.chunk devices moeCompute start).shape.getD 0 0 =
      min operands.tokens (start + kMaxTokensPerCall) - start := by
  obtain ⟨-, -, weightsShape⟩ := shapes accepted
  show (operands.placement _ _).shape.getD 0 0 = _
  unfold placement
  split
  · simp [multiply, Tensor.zipWith, matmul, rows, weightsShape]
  · simp [rows, weightsShape]

/-- A token's output is in the chunk that has it. -/
theorem exists_emitted (accepted : operands.accepts = true) (meshes : List (List Nat))
    (moeCompute : MoeCompute α) :
    ∃ out, operands.matchAndRewrite meshes moeCompute = some out ∧
      ∀ token < operands.tokens, ∀ column, out.data [token, column] =
        (operands.chunk (deviceCount meshes) moeCompute
          (token / kMaxTokensPerCall * kMaxTokensPerCall)).data
            [token % kMaxTokensPerCall, column] := by
  refine ⟨_, if_pos accepted, fun token isToken column => ?_⟩
  set turns := (operands.tokens + kMaxTokensPerCall - 1) / kMaxTokensPerCall with isTurns
  have positive : 0 < kMaxTokensPerCall := by decide
  have enough : operands.tokens ≤ (0 + turns) * kMaxTokensPerCall := by
    have less := Nat.lt_div_mul_add positive (a := operands.tokens + kMaxTokensPerCall - 1)
    rw [← isTurns] at less
    rw [Nat.zero_add]
    omega
  have heights : ∀ turn, turn * kMaxTokensPerCall < operands.tokens →
      (operands.chunk (deviceCount meshes) moeCompute (turn * kMaxTokensPerCall)).shape.getD 0 0 =
        min operands.tokens (turn * kMaxTokensPerCall + kMaxTokensPerCall) -
          turn * kMaxTokensPerCall :=
    fun turn _ => operands.chunk_height _ _ accepted
  have inside : 0 * kMaxTokensPerCall + token < operands.tokens := by
    rwa [Nat.zero_mul, Nat.zero_add]
  rw [joined_data]
  · have data := @concatRows_chunks α _ _ kMaxTokensPerCall _ 0 turns token [column] heights inside
      enough
    rw [← List.range_eq_range', Nat.zero_add] at data
    exact data
  · -- One output has all tokens.
    intro output single
    have one : turns = 1 := by
      have length := congrArg List.length single
      rwa [List.length_map, List.length_range] at length
    rw [one, Nat.zero_add, Nat.one_mul] at enough
    rw [one] at single
    have isOutput := (List.cons.inj single).1
    rw [← isOutput, heights 0 (by omega)]
    omega

end Emitted

/-- A token's experts with its weights, without padding. -/
def mixture [CommSemiring α] (operands : Operands α) (output : Experts α) (devices : Nat)
    (token column : Nat) : α :=
  ∑ slot ∈ Finset.range operands.k,
    if 0 ≤ operands.id token slot ∧
        operands.id token slot < operands.localExperts * devices then
      operands.weight token slot *
        output (operands.id token slot).toNat (operands.row token) column
    else 0

/-- One device has an expert. -/
theorem sum_slots [CommSemiring α] (operands : Operands α) (output : Experts α) (devices : Nat)
    (token slot column : Nat) :
    ∑ device ∈ Finset.range devices, operands.slot output devices device token slot column =
      if 0 ≤ operands.id token slot ∧
          operands.id token slot < operands.localExperts * devices then
        output (operands.id token slot).toNat (operands.row token) column
      else 0 := by
  unfold Operands.slot slotValue
  by_cases isExpert : 0 ≤ operands.id token slot ∧
      operands.id token slot < operands.localExperts * devices
  · have less : (operands.id token slot).toNat < operands.localExperts * devices := by
      have bound := isExpert.2
      have same := Int.toNat_of_nonneg isExpert.1
      rw [← same] at bound
      exact_mod_cast bound
    have isDevice := Finset.mem_range.mpr (Nat.div_lt_of_lt_mul less)
    simp only [isExpert.1, isExpert.2, true_and, and_self, if_true]
    rw [Finset.sum_ite_eq, if_pos isDevice]
  · rw [if_neg isExpert]
    apply Finset.sum_eq_zero
    intro device _
    exact if_neg fun owned => isExpert ⟨owned.1, owned.2.1⟩

/-- The place of a token in its call. -/
theorem token_within {token tokens : Nat} (isToken : token < tokens) : token % kMaxTokensPerCall <
    min tokens (token / kMaxTokensPerCall * kMaxTokensPerCall + kMaxTokensPerCall) -
      token / kMaxTokensPerCall * kMaxTokensPerCall := by
  have place := Nat.div_add_mod' token kMaxTokensPerCall
  have less := Nat.mod_lt token (by decide : 0 < kMaxTokensPerCall)
  omega

/-- The devices' outputs sum to the mixture. -/
theorem emitted_sum [CommSemiring α] {output : Experts α} {meshes : List (List Nat)}
    {kernels : Nat → MoeCompute α} (accepted : operands.accepts = true)
    (few : deviceCount meshes ≤ 2 ^ 16)
    (fills : ∀ device < deviceCount meshes,
      Fills output operands.localExperts (deviceCount meshes) device (kernels device)) :
    ∃ outs : Nat → Tensor α,
      (∀ device, operands.matchAndRewrite meshes (kernels device) = some (outs device)) ∧
      ∀ token < operands.tokens, ∀ column < operands.hidden,
        ∑ device ∈ Finset.range (deviceCount meshes), (outs device).data [token, column] =
          operands.mixture output (deviceCount meshes) token column := by
  choose outs emits data using fun device =>
    exists_emitted accepted meshes (kernels device)
  refine ⟨outs, emits, fun token isToken column isColumn => ?_⟩
  have place := Nat.div_add_mod' token kMaxTokensPerCall
  have within := token_within isToken
  have deviceOutput : ∀ device ∈ Finset.range (deviceCount meshes),
      (outs device).data [token, column] = ∑ slot ∈ Finset.range operands.k,
        operands.weight token slot *
          operands.slot output (deviceCount meshes) device token slot column := by
    intro device member
    rw [data device token isToken column,
      chunk_sum accepted few (fills device (Finset.mem_range.mp member)) within isColumn, place]
  rw [Finset.sum_congr rfl deviceOutput, Finset.sum_comm, mixture]
  apply Finset.sum_congr rfl
  intro slot _
  rw [← Finset.mul_sum, sum_slots, mul_ite, mul_zero]

end Operands

/-- A number, an infinity or a NaN. -/
inductive Extended
  | finite (number : ℚ) | infinite (isNegative : Bool) | nan
  deriving DecidableEq

namespace Extended

instance : Zero Extended := ⟨.finite 0⟩
instance : One Extended := ⟨.finite 1⟩

/-- The sum; opposite infinities have none. -/
protected def add : Extended → Extended → Extended
  | .nan, _ | _, .nan => .nan
  | .finite first, .finite second => .finite (first + second)
  | .finite _, .infinite isNegative => .infinite isNegative
  | .infinite isNegative, .finite _ => .infinite isNegative
  | .infinite first, .infinite second => if first = second then .infinite first else .nan

/-- The product; zero and an infinity have none. -/
protected def mul : Extended → Extended → Extended
  | .nan, _ | _, .nan => .nan
  | .finite first, .finite second => .finite (first * second)
  | .finite number, .infinite isNegative | .infinite isNegative, .finite number =>
    if number = 0 then .nan else .infinite (isNegative != decide (number < 0))
  | .infinite first, .infinite second => .infinite (first != second)

instance : Add Extended := ⟨Extended.add⟩
instance : Mul Extended := ⟨Extended.mul⟩

def IsFinite (value : Extended) : Prop := ∃ number, value = .finite number

/-- What is multiplied by zero does not matter while it is finite. -/
theorem mul_zero_mul (weight : Extended) {slot other : Extended} (isFinite : slot.IsFinite)
    (otherFinite : other.IsFinite) : weight * 0 * slot = weight * 0 * other := by
  obtain ⟨first, rfl⟩ := isFinite
  obtain ⟨second, rfl⟩ := otherFinite
  cases weight with
  | finite number =>
    show Extended.finite (number * 0 * first) = .finite (number * 0 * second)
    rw [mul_zero, zero_mul, zero_mul]
  | infinite isNegative => rfl
  | nan => rfl

end Extended

namespace Operands

/-- Two calls with the same shapes and the same token at one place. -/
structure SameToken (first second : Operands α) (token : Nat) : Prop where
  x : second.x.shape = first.x.shape
  ids : second.topkIds.shape = first.topkIds.shape
  experts : second.w1Shape = first.w1Shape
  row : second.row token = first.row token
  id : ∀ slot < first.k, second.id token slot = first.id token slot
  weight : ∀ slot < first.k, second.weight token slot = first.weight token slot

/-- The other tokens of a token's chunk have finite slots. -/
def FiniteOthers (operands : Operands Extended) (output : Experts Extended) (devices device : Nat)
    (token : Nat) : Prop :=
  ∀ other < operands.tokens, other ≠ token →
    other / kMaxTokensPerCall = token / kMaxTokensPerCall →
    ∀ slot < operands.k, ∀ column < operands.hidden,
      (operands.slot output devices device other slot column).IsFinite

theorem SameToken.placement {first second : Operands Extended} {t : Nat}
    (same : SameToken first second (start + token)) (accepted : first.accepts = true)
    (alsoAccepted : second.accepts = true) (isToken : token < t) (isPlace : place < first.k * t) :
    (second.placement t (rows second.topkWeights start (start + t))).data [token, place] =
      (first.placement t (rows first.topkWeights start (start + t))).data [token, place] := by
  have slots : second.k = first.k := by rw [k, same.ids, Operands.k]
  by_cases several : 1 < t
  · rw [placement_wide accepted several, placement_wide alsoAccepted several, slots]
    congr 2
    apply List.map_congr_left
    intro slot isSlot
    rw [same.weight slot (List.mem_range.mp isSlot)]
  · obtain rfl : t = 1 := by omega
    rw [placement_single several, placement_single several, same.weight place (by omega)]

/-- Others are placed with a zero. -/
theorem exists_placement_zero {operands : Operands Extended} {t : Nat}
    (accepted : operands.accepts = true) (isToken : token < t) (other : token ≠ place % t) :
    ∃ weight, (operands.placement t (rows operands.topkWeights start (start + t))).data
      [token, place] = weight * 0 := by
  have several : 1 < t := by
    by_contra single
    obtain rfl : t = 1 := by omega
    omega
  rw [placement_wide accepted several, if_neg other]
  exact ⟨_, rfl⟩

/-- A token's output is the same in two calls while the other tokens' slots are finite. -/
theorem SameToken.chunk {first second : Operands Extended} {output : Experts Extended}
    {devices device : Nat} {moeCompute : MoeCompute Extended}
    (same : SameToken first second (start + token)) (accepted : first.accepts = true)
    (alsoAccepted : second.accepts = true) (few : devices ≤ 2 ^ 16)
    (fills : Fills output first.localExperts devices device moeCompute)
    (isToken : token < min first.tokens (start + kMaxTokensPerCall) - start)
    (isColumn : column < first.hidden) (isStart : kMaxTokensPerCall ∣ start)
    (finite : first.FiniteOthers output devices device (start + token))
    (alsoFinite : second.FiniteOthers output devices device (start + token)) :
    (second.chunk devices moeCompute start).data [token, column] =
      (first.chunk devices moeCompute start).data [token, column] := by
  have tokens : second.tokens = first.tokens := by rw [tokens, same.x, Operands.tokens]
  have hidden : second.hidden = first.hidden := by rw [hidden, same.x, Operands.hidden]
  have slots : second.k = first.k := by rw [k, same.ids, Operands.k]
  have experts : second.localExperts = first.localExperts := by
    rw [localExperts, same.experts, Operands.localExperts]
  rw [chunk_data accepted few fills isToken isColumn,
    chunk_data alsoAccepted few (experts ▸ fills) (tokens ▸ isToken) (hidden ▸ isColumn), tokens,
    slots]
  set t := min first.tokens (start + kMaxTokensPerCall) - start with isLength
  congr 1
  apply List.map_congr_left
  intro place isPlace
  have inside := List.mem_range.mp isPlace
  have isSlot : place / t < first.k := Nat.div_lt_of_lt_mul (by rwa [Nat.mul_comm])
  rw [same.placement accepted alsoAccepted isToken inside]
  by_cases own : token = place % t
  · rw [← own]
    congr 1
    rw [Operands.slot, Operands.slot, same.row, same.id _ isSlot, experts]
  · obtain ⟨weight, isWeight⟩ := exists_placement_zero accepted isToken own
    rw [isWeight]
    have isOther := Nat.mod_lt place (by omega : 0 < t)
    have otherToken : start + place % t < first.tokens := by omega
    have apart : start + place % t ≠ start + token := by omega
    have together : (start + place % t) / kMaxTokensPerCall =
        (start + token) / kMaxTokensPerCall := by
      obtain ⟨turn, rfl⟩ := isStart
      have positive : 0 < kMaxTokensPerCall := by decide
      rw [Nat.mul_add_div positive, Nat.mul_add_div positive,
        Nat.div_eq_of_lt (by omega), Nat.div_eq_of_lt (by omega)]
    exact Extended.mul_zero_mul weight
      (alsoFinite _ (tokens ▸ otherToken) apart together _ (slots ▸ isSlot) _ (hidden ▸ isColumn))
      (finite _ otherToken apart together _ isSlot _ isColumn)

end Operands

/-- The fused layer sums to the mixture of experts. What the pattern emits on the devices sums to
each token's experts with its weights, and a token's output does not depend on the other tokens and
their slots while those of its chunk are finite. -/
theorem fused_layer :
    (∀ (α : Type) [CommSemiring α] (operands : Operands α) (output : Experts α)
      (meshes : List (List Nat)) (kernels : Nat → MoeCompute α), operands.accepts = true →
      deviceCount meshes ≤ 2 ^ 16 →
      (∀ device < deviceCount meshes,
        Fills output operands.localExperts (deviceCount meshes) device (kernels device)) →
      ∃ outs : Nat → Tensor α,
        (∀ device, operands.matchAndRewrite meshes (kernels device) = some (outs device)) ∧
        ∀ token < operands.tokens, ∀ column < operands.hidden,
          ∑ device ∈ Finset.range (deviceCount meshes), (outs device).data [token, column] =
            operands.mixture output (deviceCount meshes) token column) ∧
    ∀ (first second : Operands Extended) (output : Experts Extended) (meshes : List (List Nat))
      (device : Nat) (moeCompute : MoeCompute Extended) (token : Nat), first.accepts = true →
      second.accepts = true → deviceCount meshes ≤ 2 ^ 16 →
      Fills output first.localExperts (deviceCount meshes) device moeCompute →
      token < first.tokens → first.SameToken second token →
      first.FiniteOthers output (deviceCount meshes) device token →
      second.FiniteOthers output (deviceCount meshes) device token →
      ∃ out out', first.matchAndRewrite meshes moeCompute = some out ∧
        second.matchAndRewrite meshes moeCompute = some out' ∧
        ∀ column < first.hidden, out'.data [token, column] = out.data [token, column] := by
  constructor
  · intro α _ operands output meshes kernels accepted few fills
    exact Operands.emitted_sum accepted few fills
  · intro first second output meshes device moeCompute token accepted alsoAccepted few fills isToken
      same finite alsoFinite
    obtain ⟨out, emits, data⟩ := Operands.exists_emitted accepted meshes moeCompute
    obtain ⟨out', emits', data'⟩ := Operands.exists_emitted alsoAccepted meshes moeCompute
    refine ⟨out, out', emits, emits', fun column isColumn => ?_⟩
    have place := Nat.div_add_mod' token kMaxTokensPerCall
    have within := Operands.token_within isToken
    have tokens : second.tokens = first.tokens := by
      rw [Operands.tokens, same.x, Operands.tokens]
    rw [data token isToken column, data' token (tokens ▸ isToken) column]
    rw [← place] at same finite alsoFinite
    exact same.chunk accepted alsoAccepted few fills within isColumn (Nat.dvd_mul_left _ _) finite
      alsoFinite

/-- A kernel that computes every slot. -/
def slotKernel [Zero α] (output : Experts α) (localExperts devices device : Nat) : MoeCompute α :=
  fun x ids _ _ =>
    { shape := [ids.shape.getD 1 0 * ids.shape.getD 0 0, x.shape.getD 2 0]
      data index :=
        let token := index.getD 0 0 % ids.shape.getD 0 0
        slotValue output localExperts devices device
          (ids.data [token, index.getD 0 0 / ids.shape.getD 0 0])
          ((List.range (x.shape.getD 2 0)).map fun place => x.data [0, token, place])
          (index.getD 1 0) }

theorem slotKernel_fills [Zero α] (output : Experts α) (localExperts devices device : Nat) :
    Fills output localExperts devices device (slotKernel output localExperts devices device) where
  shape t k hidden x ids weights mapping xShape idsShape := by
    simp [slotKernel, xShape, idsShape]
  slot t k hidden x ids weights mapping xShape idsShape _ token isToken slot _ column _ := by
    have positive : 0 < t := by omega
    simp only [slotKernel, xShape, idsShape, List.getD_cons_zero, List.getD_cons_succ]
    rw [Nat.mul_comm slot, Nat.mul_add_mod, Nat.mod_eq_of_lt isToken, Nat.mul_add_div positive,
      Nat.div_eq_of_lt isToken, Nat.add_zero]

/-- Two tokens of one number each, with one expert. -/
def twoTokens (x : Nat → α) [One α] : Operands α where
  x := ⟨[2, 1], fun index => x (index.getD 0 0)⟩
  topkWeights := ⟨[2, 1], fun _ => 1⟩
  topkIds := ⟨[2, 1], fun _ => 0⟩
  idType := .integer 32 false
  w1Shape := [1, 1, 1]
  w3Shape := [1, 1, 1]
  w2Shape := [1, 1, 1]

/-- An expert that puts out its input. -/
def sameRow [Zero α] : Experts α := fun _ row column => row.getD column 0

theorem fused_layer_two :
    (∃ outs : Nat → Tensor ℚ, (∀ device, (twoTokens fun token => (token : ℚ)).matchAndRewrite []
        (slotKernel sameRow 1 1 device) = some (outs device)) ∧
      ∀ token < 2, ∀ column < 1, ∑ device ∈ Finset.range 1, (outs device).data [token, column] =
        (twoTokens fun token => (token : ℚ)).mixture sameRow 1 token column) ∧
    ∃ out out', (twoTokens fun _ => (1 : Extended)).matchAndRewrite []
        (slotKernel sameRow 1 1 0) = some out ∧
      (twoTokens fun token => if token = 0 then (1 : Extended) else 0).matchAndRewrite []
        (slotKernel sameRow 1 1 0) = some out' ∧
      ∀ column < 1, out'.data [0, column] = out.data [0, column] := by
  have finite (x : Nat → Extended) (numbers : ∀ token, (x token).IsFinite) :
      (twoTokens x).FiniteOthers sameRow 1 0 0 := by
    intro other _ _ _ slot _ column isColumn
    have isFirst : column = 0 := by
      have less : column < 1 := isColumn
      omega
    subst isFirst
    show (slotValue sameRow 1 1 0 0 [x other] 0).IsFinite
    unfold slotValue
    split
    · exact numbers other
    · exact ⟨0, rfl⟩
  refine ⟨fused_layer.1 ℚ _ sameRow [] (fun device => slotKernel sameRow 1 1 device) (by decide)
    (by decide) fun device _ => slotKernel_fills _ _ _ _, ?_⟩
  apply fused_layer.2 _ _ sameRow [] 0 _ 0 (by decide) (by decide) (by decide)
    (slotKernel_fills _ _ _ _) (by decide)
  · exact ⟨rfl, rfl, rfl, rfl, fun _ _ => rfl, fun _ _ => rfl⟩
  · exact finite _ fun _ => ⟨1, rfl⟩
  · apply finite
    intro token
    split
    · exact ⟨1, rfl⟩
    · exact ⟨0, rfl⟩

/-- An infinity of the second token makes the first one's output a NaN, and the device of expert
65536 of as many devices is not a number of 16 bits. -/
theorem infinity_spreads :
    ((twoTokens fun _ => (1 : Extended)).matchAndRewrite [] (slotKernel sameRow 1 1 0)).map
        (fun out => out.data [0, 0]) = some 1 ∧
      ((twoTokens fun token =>
        if token = 0 then (1 : Extended) else .infinite false).matchAndRewrite []
          (slotKernel sameRow 1 1 0)).map (fun out => out.data [0, 0]) = some .nan ∧
      ((twoTokens fun _ => (1 : Extended)).mapping 65537).data [0, 65536] = 0#16 := by
  refine ⟨?_, ?_, by decide⟩
  · change some (Extended.finite ((1 * 1 + 0) * 1 * 1 + ((1 * 1 + 0) * 0 * 1 + 0))) =
      some (Extended.finite 1)
    norm_num
  · change some (Extended.add (.finite ((1 * 1 + 0) * 1 * 1))
      (Extended.add (Extended.mul (.finite ((1 * 1 + 0) * 0)) (.infinite false)) (.finite 0))) =
        some .nan
    rw [mul_zero]
    rfl

end Libtt.FusedMoe

import Libtt.Foundation.Best
import Libtt.ShardedReduce.Lowering
import Mathlib.Data.Int.ConditionallyCompleteOrder
import Mathlib.Data.Prod.Lex

/-!
# What JAX's reducer finds

Whatever the schedule, the reducer finds the first best element: a NaN is best, then the extreme
number.
-/
namespace Libtt.ShardedReduce

open Libtt.Foundation Libtt.StableHlo

variable {reduction : ArgReduction} {type : ElementType} {indexType : IntegerType}

/-- How good a number is. -/
def worth (reduction : ArgReduction) (number : Int) : Int :=
  match reduction with
  | .argMin => -number
  | .argMax => number

/-- How good a value is. -/
def rank (reduction : ArgReduction) (type : ElementType) (value : Element type) : WithTop Int :=
  match number type value with
  | none => ⊤
  | some number => (worth reduction number : WithTop Int)

theorem worth_inj {left right : Int} :
    worth reduction left = worth reduction right ↔ left = right := by
  cases reduction <;> simp [worth]

/-- The comparison of the reducer finds the better number. -/
theorem better_iff (op acc : Int) :
    (match reduction.comparison with
      | .EQ => decide (op = acc)
      | .NE => decide (op ≠ acc)
      | .LT => decide (op < acc)
      | .GT => decide (acc < op)) = true ↔ worth reduction acc < worth reduction op := by
  cases reduction <;> simp [worth, ArgReduction.comparison]

theorem rank_eq_iff {left right : Element type} :
    rank reduction type left = rank reduction type right ↔ number type left = number type right := by
  unfold rank
  cases number type left <;> cases number type right <;> simp [worth_inj]

/-- The reducer takes the first value if it is NaN, or better. -/
theorem picks_value (op acc : Element type) :
    (compareOp reduction.comparison type op acc || compareOp .NE type op op) = true ↔
      rank reduction type op = ⊤ ∨ rank reduction type acc < rank reduction type op := by
  unfold rank compareOp
  cases number type op with
  | none => simp
  | some op =>
    cases number type acc with
    | none => cases reduction <;> simp [ArgReduction.comparison]
    | some acc =>
      simp only [ne_eq, not_true_eq_false, decide_false, Bool.or_false, WithTop.coe_ne_top,
        false_or, WithTop.coe_lt_coe]
      exact better_iff op acc

theorem compare_eq (reduction : ArgReduction) (op acc : Element type) : compareOp .EQ type op acc = true ↔
    rank reduction type op ≠ ⊤ ∧ rank reduction type op = rank reduction type acc := by
  unfold rank compareOp
  cases number type op <;> cases number type acc <;> simp [worth_inj]

theorem compare_index (op acc : indexType.Word) :
    compareOp .LT (.integer indexType) op acc = true ↔ indexType.read op < indexType.read acc := by
  simp [compareOp, number]

/-- The init value is a number that no value is worse than. -/
theorem jaxInitValue_le (reduction : ArgReduction) (value : Element type) :
    rank reduction type (jaxInitValue reduction type) ≤ rank reduction type value ∧
      rank reduction type (jaxInitValue reduction type) ≠ ⊤ := by
  cases type with
  | integer type =>
    have least := type.least_le_read value
    have large := type.read_le_largest value
    cases reduction with
    | argMin =>
      have read : type.read (type.constant type.largest) = type.largest :=
        type.read_constant (by omega) (le_refl _)
      simp only [rank, worth, jaxInitValue, number, read, ne_eq, WithTop.coe_ne_top, not_false_eq_true,
        and_true, WithTop.coe_le_coe]
      omega
    | argMax =>
      have read : type.read (type.constant type.least) = type.least :=
        type.read_constant (le_refl _) (by omega)
      simp only [rank, worth, jaxInitValue, number, read, ne_eq, WithTop.coe_ne_top, not_false_eq_true,
        and_true, WithTop.coe_le_coe]
      omega
  | float format =>
    cases value with
    | nan => cases reduction <;> simp [rank, worth, jaxInitValue, number]
    | number key mem =>
      cases reduction <;>
        simp only [rank, worth, jaxInitValue, number, ne_eq, WithTop.coe_ne_top, not_false_eq_true,
          and_true, WithTop.coe_le_coe] <;> split_ifs <;> omega

/-- Values with their indices, the better ones above, and of equal ones the first. -/
abbrev Key := WithTop Int ×ₗ Intᵒᵈ

def key (reduction : ArgReduction) (result : Element type × indexType.Word) : Key :=
  toLex (rank reduction type result.1, OrderDual.toDual (indexType.read result.2))

def placeKey (reduction : ArgReduction) (values : Nat → Element type) (place : Nat) : Key :=
  toLex (rank reduction type (values place), OrderDual.toDual (place : Int))

/-- The reducer takes the higher key, where the first of two NaNs has the lesser index. -/
theorem key_jaxReducer (op acc : Element type × indexType.Word)
    (ordered : rank reduction type op.1 = ⊤ → rank reduction type acc.1 = ⊤ →
      indexType.read op.2 ≤ indexType.read acc.2) :
    key reduction (jaxReducer reduction type indexType op acc) =
      max (key reduction op) (key reduction acc) := by
  by_cases picks : rank reduction type op.1 = ⊤ ∨
      rank reduction type acc.1 < rank reduction type op.1
  · have above : key reduction acc ≤ key reduction op := by
      rw [key, key, Prod.Lex.toLex_le_toLex]
      rcases picks with top | better
      · rcases lt_or_eq_of_le (le_top : rank reduction type acc.1 ≤ ⊤) with below | same
        · exact .inl (top ▸ below)
        · exact .inr ⟨same.trans top.symm, ordered top same⟩
      · exact .inl better
    rw [max_eq_left above, jaxReducer, (picks_value op.1 acc.1).mpr picks]
    rfl
  · have passes := Bool.eq_false_iff.mpr (mt (picks_value op.1 acc.1).mp picks)
    obtain ⟨isNumber, notBetter⟩ := not_or.mp picks
    simp only [jaxReducer, passes, Bool.false_or, Bool.and_eq_true,
      compare_eq reduction, compare_index, Bool.false_eq_true, if_false]
    rcases lt_or_eq_of_le (not_lt.mp notBetter) with worse | same
    · have above : key reduction op ≤ key reduction acc :=
        Prod.Lex.toLex_le_toLex.mpr (.inl worse)
      rw [max_eq_right above, if_neg fun both => worse.ne both.1.2]
    · split_ifs with earlier
      · have above : key reduction acc ≤ key reduction op :=
          Prod.Lex.toLex_le_toLex.mpr (.inr ⟨same.symm, le_of_lt earlier.2⟩)
        rw [max_eq_left above, key, key, same]
      · have later := not_lt.mp fun less => earlier ⟨⟨isNumber, same⟩, less⟩
        rw [max_eq_right (Prod.Lex.toLex_le_toLex.mpr (.inr ⟨same, later⟩))]

/-- What a reduction of the places from one on has found: the highest key. -/
structure Found (reduction : ArgReduction) (values : Nat → Element type) (start length : Nat)
    (result : Element type × indexType.Word) : Prop where
  isOne : key reduction result =
      toLex (rank reduction type (jaxInitValue reduction type), OrderDual.toDual 0) ∨
    ∃ place, start ≤ place ∧ place < start + length ∧
      key reduction result = placeKey reduction values place
  highest : ∀ place, start ≤ place → place < start + length →
    placeKey reduction values place ≤ key reduction result

/-- The results of two runs of places, the one after the other. -/
theorem Found.combine {values : Nat → Element type} {start length more : Nat}
    {op acc : Element type × indexType.Word} (left : Found reduction values start length op)
    (right : Found reduction values (start + length) more acc) :
    Found reduction values start (length + more) (jaxReducer reduction type indexType op acc) := by
  have number : rank reduction type (jaxInitValue reduction type) ≠ ⊤ :=
    (jaxInitValue_le reduction (jaxInitValue reduction type)).2
  have joined := key_jaxReducer op acc fun opNan accNan => by
    rcases left.isOne with isInit | ⟨first, _, below, isFirst⟩
    · exact absurd ((congrArg Prod.fst isInit).symm.trans opNan) number
    rcases right.isOne with isInit | ⟨second, above, _, isSecond⟩
    · exact absurd ((congrArg Prod.fst isInit).symm.trans accNan) number
    have opIndex : indexType.read op.2 = first := congrArg Prod.snd isFirst
    have accIndex : indexType.read acc.2 = second := congrArg Prod.snd isSecond
    omega
  constructor
  · rw [joined]
    rcases max_choice (key reduction op) (key reduction acc) with isOp | isAcc
    · rw [isOp]
      exact left.isOne.imp_right fun ⟨place, isFrom, below, same⟩ =>
        ⟨place, isFrom, by omega, same⟩
    · rw [isAcc]
      exact right.isOne.imp_right fun ⟨place, isFrom, below, same⟩ =>
        ⟨place, by omega, by omega, same⟩
  · intro place isFrom below
    rw [joined]
    by_cases isLeft : place < start + length
    · exact le_max_of_le_left (left.highest place isFrom isLeft)
    · exact le_max_of_le_right (right.highest place (not_lt.mp isLeft) (by omega))

/-- Every schedule finds it. -/
theorem found_of_reduces {values : Nat → Element type}
    {elements : List (Element type × indexType.Word)} {result : Element type × indexType.Word}
    (reduces : Reduces (jaxReducer reduction type indexType)
      (jaxInitValue reduction type, BitVec.ofNat indexType.width 0) elements result) (start length : Nat)
    (isElements : elements = (List.range' start length).map fun place =>
      (values place, indexType.constant place))
    (fits : start + length ≤ indexType.largest + 1) :
    Found reduction values start length result := by
  induction reduces generalizing start length with
  | init =>
    have empty : length = 0 := by
      simpa using (congrArg List.length isElements).symm
    have zero : indexType.read (BitVec.ofNat indexType.width 0) = 0 :=
      (congrArg indexType.read (by rfl)).trans (indexType.read_constant_nat (Nat.zero_le _))
    exact ⟨.inl (by rw [key, zero]), fun place isFrom below => by omega⟩
  | element element =>
    have one : length = 1 := by
      simpa using (congrArg List.length isElements).symm
    subst one
    obtain rfl := List.singleton_inj.mp isElements
    have index : indexType.read (indexType.constant start) = start :=
      indexType.read_constant_nat (by omega)
    have same : key reduction (values start, indexType.constant start) =
        placeKey reduction values start := by rw [key, placeKey, index]
    refine ⟨.inr ⟨start, le_refl _, by omega, same⟩, fun place isFrom below => ?_⟩
    rw [same, show place = start by omega]
  | @combine left right first second _ _ leftFound rightFound =>
    obtain ⟨some, rest, parts, rfl, rfl⟩ := List.map_eq_append_iff.mp isElements.symm
    obtain ⟨count, within, rfl, rfl⟩ := List.range'_eq_append_iff.mp parts
    have whole : length = count + (length - count) := by omega
    rw [whole]
    refine (leftFound start count rfl (by omega)).combine
      (rightFound (start + count) (length - count) ?_ (by omega))
    rw [Nat.mul_one]

/-- The index and the value that a reduction of all places finds. -/
theorem first_best_of_reduces {values : Nat → Element type} {count : Nat}
    {result : Element type × indexType.Word}
    (reduces : Reduces (jaxReducer reduction type indexType)
      (jaxInitValue reduction type, BitVec.ofNat indexType.width 0)
      ((List.range count).map fun place => (values place, indexType.constant place)) result)
    (nonempty : 0 < count) (fits : count ≤ indexType.largest + 1) :
    ∃ place, IsFirstBest (fun place => rank reduction type (values place)) count place ∧
      result.2 = indexType.constant place ∧ number type result.1 = number type (values place) := by
  have found := found_of_reduces reduces 0 count (by rw [List.range_eq_range']) (by omega)
  -- where the init value wins, it is as good as the first place
  have isPlace : ∃ place < count, key reduction result = placeKey reduction values place := by
    rcases found.isOne with isInit | ⟨place, _, below, same⟩
    · refine ⟨0, nonempty, le_antisymm ?_ (found.highest 0 (le_refl _) (by omega))⟩
      rw [isInit, placeKey, Prod.Lex.toLex_le_toLex]
      exact (lt_or_eq_of_le (jaxInitValue_le reduction (values 0)).1).imp_right fun same =>
        ⟨same, le_refl _⟩
    · exact ⟨place, by omega, same⟩
  obtain ⟨place, below, same⟩ := isPlace
  have highest : ∀ other < count, rank reduction type (values other) <
      rank reduction type (values place) ∨ rank reduction type (values other) =
        rank reduction type (values place) ∧ place ≤ other := by
    intro other inside
    have above := found.highest other (Nat.zero_le _) (by omega)
    rw [same, placeKey, placeKey, Prod.Lex.toLex_le_toLex] at above
    exact above.imp_right fun ⟨equal, later⟩ =>
      ⟨equal, Int.ofNat_le.mp (OrderDual.toDual_le_toDual.mp later)⟩
  refine ⟨place, ⟨below, fun other inside => ?_, fun other inside equal => ?_⟩, ?_, ?_⟩
  · exact (highest other inside).elim le_of_lt fun tie => tie.1.le
  · exact (highest other inside).elim (fun worse => absurd equal worse.ne) And.right
  · have index : indexType.read result.2 = place := congrArg Prod.snd same
    refine IntegerType.eq_of_read (index.trans (indexType.read_constant_nat ?_).symm)
    omega
  · exact rank_eq_iff.mp (congrArg Prod.fst same)

theorem number_zeroAttr (type : ElementType) : number type (zeroAttr type) = some 0 := by
  cases type with
  | integer type =>
    have zero : type.read (BitVec.ofNat type.width 0) = 0 :=
      (congrArg type.read (by rfl)).trans (type.read_constant_nat (Nat.zero_le _))
    exact congrArg some zero
  | float format => rfl

theorem zeroSums_integer (semantics : Semantics) (type : IntegerType) :
    ZeroSums semantics (.integer type) := by
  intro value zero isZero
  have same : zero = BitVec.ofNat type.width 0 :=
    IntegerType.eq_of_read (Option.some.inj (isZero.trans (number_zeroAttr (.integer type)).symm))
  subst same
  have right : type.combine .add value (BitVec.ofNat type.width 0) = value := by
    simp only [IntegerType.combine, BitVec.or_zero, BitVec.add_zero, ite_self]
  exact ⟨congrArg (number (.integer type)) right,
    congrArg (number (.integer type)) ((IntegerType.combine_comm .add _ _).trans right)⟩

/-- Every schedule of a masked sum finds the number that is not masked. -/
theorem picked_of_reduces {semantics : Semantics} (sums : ZeroSums semantics type)
    (values : Nat → Element type) {place : Nat} {elements : List (Element type)}
    {result : Element type}
    (reduces : Reduces (semantics.combine .add type) (zeroAttr type) elements result)
    (start length : Nat) (isElements : elements = (List.range' start length).map fun other =>
      if other = place then values other else zeroAttr type) :
    number type result = if start ≤ place ∧ place < start + length then
      number type (values place) else some 0 := by
  induction reduces generalizing start length with
  | init =>
    have empty : length = 0 := by
      simpa using (congrArg List.length isElements).symm
    rw [if_neg (by omega), number_zeroAttr]
  | element element =>
    have one : length = 1 := by
      simpa using (congrArg List.length isElements).symm
    subst one
    obtain rfl := List.singleton_inj.mp isElements
    dsimp only
    by_cases same : start = place
    · rw [if_pos same, if_pos (by omega), same]
    · rw [if_neg same, if_neg (by omega), number_zeroAttr]
  | @combine left right first second _ _ isLeft isRight =>
    obtain ⟨some, rest, parts, rfl, rfl⟩ := List.map_eq_append_iff.mp isElements.symm
    obtain ⟨count, within, rfl, rfl⟩ := List.range'_eq_append_iff.mp parts
    have leftNumber := isLeft start count rfl
    have rightNumber := isRight (start + count) (length - count) (by rw [Nat.mul_one])
    by_cases inLeft : start ≤ place ∧ place < start + count
    · rw [if_neg (by omega)] at rightNumber
      rw [(sums first second rightNumber).1, leftNumber, if_pos inLeft, if_pos (by omega)]
    · rw [if_neg inLeft] at leftNumber
      rw [(sums second first leftNumber).2, rightNumber]
      exact if_congr (by omega) rfl rfl

end Libtt.ShardedReduce

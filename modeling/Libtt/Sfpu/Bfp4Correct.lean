import Libtt.Sfpu.Bfp4

/-!
# Bfp4 keeps what a row is rounded to

The rotations find the largest exponent of each row of a face. It stays the largest one, so what a
row is rounded to is exact under the packer.
-/
namespace Libtt.Sfpu

open Libtt.Foundation Libtt.Foundation.BinaryFormat

/-- The exponent field in its place. -/
theorem toNat_exponentField (value : Word) :
    (value &&& 0x7f800000#32).toNat = binary32.exponent value.toNat * 2 ^ 23 := by
  have field := and_shiftLeft value.toNat 0xff 23
  have low := Nat.and_two_pow_sub_one_eq_mod (value.toNat >>> 23) 8
  have masked : value.toNat >>> 23 &&& 0xff = value.toNat / 2 ^ 23 % 2 ^ 8 := by
    rw [← Nat.shiftRight_eq_div_pow]
    exact low
  rw [masked, Nat.shiftLeft_eq, Nat.shiftLeft_eq] at field
  rw [BitVec.toNat_and, show (0x7f800000#32).toNat = 0xff * 2 ^ 23 from rfl, field]
  show value.toNat / 2 ^ 23 % 2 ^ 8 * 2 ^ 23 = value.toNat % 2 ^ 31 / 2 ^ 23 * 2 ^ 23
  omega

theorem exponent_lt (value : Word) : binary32.exponent value.toNat < 2 ^ 8 := by
  show value.toNat % 2 ^ 31 / 2 ^ 23 < 2 ^ 8
  omega

theorem exponent_of_field {word : Word} {exponent : Nat} (less : exponent < 2 ^ 8)
    (isWord : word.toNat = exponent * 2 ^ 23) : (exexp word).toNat = exponent := by
  rw [toNat_exexp]
  show word.toNat % 2 ^ 31 / 2 ^ 23 = exponent
  omega

theorem toNat_maxLane {left right : Word} (leftLess : left.toNat < 2 ^ 31)
    (rightLess : right.toNat < 2 ^ 31) :
    (maxLane left right).toNat = max left.toNat right.toNat := by
  have plus {word : Word} (less : word.toNat < 2 ^ 31) :
      binary32.signedMagnitude word.toNat = word.toNat := by
    have notNegative : ¬binary32.Negative word.toNat := by
      show ¬word.toNat / 2 ^ 31 % 2 = 1
      omega
    rw [signedMagnitude, if_neg notNegative]
    show ((word.toNat % 2 ^ 31 : Nat) : ℤ) = word.toNat
    rw [Nat.mod_eq_of_lt less]
  rw [maxLane, plus leftLess, plus rightLess]
  by_cases more : left.toNat < right.toNat
  · rw [if_pos (by exact_mod_cast more), Nat.max_eq_right more.le]
  · rw [if_neg (by exact_mod_cast more), Nat.max_eq_left (Nat.not_lt.mp more)]

/-- A register of exponent fields, by its exponents. -/
def IsExponents (lanes : Lanes) (exponents : Fin 4 → Fin 8 → Nat) : Prop :=
  ∀ i j, exponents i j < 2 ^ 8 ∧ (lanes i j).toNat = exponents i j * 2 ^ 23

theorem IsExponents.max {left right : Lanes} {leftExponents rightExponents : Fin 4 → Fin 8 → Nat}
    (isLeft : IsExponents left leftExponents) (isRight : IsExponents right rightExponents) :
    IsExponents (fun i j => maxLane (left i j) (right i j))
      (fun i j => Nat.max (leftExponents i j) (rightExponents i j)) := by
  intro i j
  obtain ⟨leftLess, leftEq⟩ := isLeft i j
  obtain ⟨rightLess, rightEq⟩ := isRight i j
  constructor
  · exact Nat.max_lt.mpr ⟨leftLess, rightLess⟩
  · rw [toNat_maxLane (by omega) (by omega), leftEq, rightEq]
    show Max.max (_ * 2 ^ 23) (_ * 2 ^ 23) = Max.max _ _ * 2 ^ 23
    omega

theorem IsExponents.masked (lanes : Lanes) :
    IsExponents (fun i j => lanes i j &&& 0x7f800000#32)
      (fun i j => binary32.exponent (lanes i j).toNat) :=
  fun i j => ⟨exponent_lt (lanes i j), toNat_exponentField (lanes i j)⟩

/-- A maximum with the lanes that a rotation brings here. -/
def rotatedMax (rotation : Fin 8 → Fin 8) (exponents : Fin 8 → Nat) (j : Fin 8) : Nat :=
  max (exponents j) (exponents (rotation j))

theorem rotatedMax_mem {rotation : Fin 8 → Fin 8} {exponents : Fin 8 → Nat} {numbers : Set Nat}
    (all : ∀ j, exponents j ∈ numbers) (j : Fin 8) : rotatedMax rotation exponents j ∈ numbers := by
  rcases max_choice (exponents j) (exponents (rotation j)) with here | there
  · rw [rotatedMax, here]
    exact all j
  · rw [rotatedMax, there]
    exact all (rotation j)

/-- The numerals of the lanes. -/
local instance lanesNeZero : NeZero 8 := ⟨by decide⟩

/-- The rotations by one, two and four lanes. -/
def laneMax (exponents : Fin 8 → Nat) : Fin 8 → Nat :=
  rotatedMax (fun j => j - 1 - 1 - 1 - 1)
    (rotatedMax (fun j => j - 1 - 1) (rotatedMax (fun j => j - 1) exponents))

/-- Rotations by one, two and four reach every lane of a row. -/
theorem laneMax_isGreatest (exponents : Fin 8 → Nat) (j : Fin 8) :
    IsGreatest (Set.range exponents) (laneMax exponents j) := by
  constructor
  · have start : ∀ j, exponents j ∈ Set.range exponents := fun j => ⟨j, rfl⟩
    exact rotatedMax_mem (rotatedMax_mem (rotatedMax_mem start)) j
  · rintro _ ⟨k, rfl⟩
    have reached : ∀ j k : Fin 8,
        ((k = j ∨ k = j - 1) ∨ k = j - 1 - 1 ∨ k = j - 1 - 1 - 1) ∨
          (k = j - 1 - 1 - 1 - 1 ∨ k = j - 1 - 1 - 1 - 1 - 1) ∨
            k = j - 1 - 1 - 1 - 1 - 1 - 1 ∨ k = j - 1 - 1 - 1 - 1 - 1 - 1 - 1 := by decide
    have here {lane : Fin 8} (same : k = lane) : exponents k ≤ exponents lane := same ▸ le_rfl
    simp only [laneMax, rotatedMax, le_max_iff]
    exact (reached j k).imp (Or.imp (Or.imp here here) (Or.imp here here))
      (Or.imp (Or.imp here here) (Or.imp here here))

theorem rowMax_exponents (lo hi : Lanes) :
    IsExponents (rowMax lo hi) fun i => laneMax fun j =>
      max (binary32.exponent (lo i j).toNat) (binary32.exponent (hi i j).toNat) := by
  have start := (IsExponents.masked lo).max (IsExponents.masked hi)
  have one := start.max fun i j => start i (j - 1)
  have two := one.max fun i j => one i (j - 1 - 1)
  exact two.max fun i j => two i (j - 1 - 1 - 1 - 1)

/-- The even and the odd columns together are the row. -/
theorem columns_isGreatest (exponents : Fin 16 → Nat) (j : Fin 8) :
    IsGreatest (Set.range exponents) (laneMax (fun k =>
      max (exponents ⟨2 * k, by omega⟩) (exponents ⟨2 * k + 1, by omega⟩)) j) := by
  obtain ⟨⟨k, isMax⟩, most⟩ := laneMax_isGreatest (fun k =>
    max (exponents ⟨2 * k, by omega⟩) (exponents ⟨2 * k + 1, by omega⟩)) j
  constructor
  · rw [← isMax]
    rcases max_choice (exponents ⟨2 * k, by omega⟩) (exponents ⟨2 * k + 1, by omega⟩) with
      here | there
    · exact ⟨⟨2 * k, by omega⟩, here.symm⟩
    · exact ⟨⟨2 * k + 1, by omega⟩, there.symm⟩
  · rintro _ ⟨column, rfl⟩
    have bound := most ⟨⟨column / 2, by omega⟩, rfl⟩
    dsimp only at bound
    rcases Nat.mod_two_eq_zero_or_one column with isEven | isOdd
    · have here : (⟨2 * (column.val / 2), by omega⟩ : Fin 16) = column := Fin.ext (by
        show 2 * (column.val / 2) = column
        omega)
      rw [here] at bound
      exact (le_max_left _ _).trans bound
    · have there : (⟨2 * (column.val / 2) + 1, by omega⟩ : Fin 16) = column := Fin.ext (by
        show 2 * (column.val / 2) + 1 = column
        omega)
      rw [there] at bound
      exact (le_max_right _ _).trans bound

/-- The registers of a band. -/
def bandMax (dst : Dst) (face band : Nat) : Lanes :=
  rowMax (dst.load (16 * face + 4 * band)) (dst.load (16 * face + 4 * band + 2))

theorem bandMax_isGreatest (dst : Dst) (face band : Nat) (i : Fin 4) (j : Fin 8) :
    IsGreatest (rowExponents dst (16 * face + 4 * band + i))
      (exexp (bandMax dst face band i j)).toNat := by
  obtain ⟨bound, isWord⟩ := rowMax_exponents (dst.load (16 * face + 4 * band))
    (dst.load (16 * face + 4 * band + 2)) i j
  have even (k : Fin 8) : dst.load (16 * face + 4 * band) i k =
      dst (16 * face + 4 * band + i) ⟨2 * k, by omega⟩ := by
    have row : (16 * face + 4 * band) / 4 * 4 + i.val = 16 * face + 4 * band + i := by omega
    have column : 2 * k.val + (16 * face + 4 * band) / 2 % 2 = 2 * k := by omega
    simp only [Dst.load, row, column]
  have odd (k : Fin 8) : dst.load (16 * face + 4 * band + 2) i k =
      dst (16 * face + 4 * band + i) ⟨2 * k + 1, by omega⟩ := by
    have row : (16 * face + 4 * band + 2) / 4 * 4 + i.val = 16 * face + 4 * band + i := by omega
    have column : 2 * k.val + (16 * face + 4 * band + 2) / 2 % 2 = 2 * k + 1 := by omega
    simp only [Dst.load, row, column]
  have isExponent := exponent_of_field bound isWord
  simp only [even, odd] at isExponent
  rw [bandMax, isExponent]
  exact columns_isGreatest (fun column =>
    binary32.exponent (dst (16 * face + 4 * band + i) column).toNat) j

/-- The rounding of an element of a band. -/
def roundedAt (lane : FloatLane) (face : Nat) (dst : Dst) (row : Nat) (column : Fin 16) : Word :=
  roundFp16bToBfp4b lane (dst row column)
    (exexp (bandMax dst face ((row - 16 * face) / 4) ⟨row % 4, row_lt row⟩
      ⟨column / 2, half_lt column⟩))

theorem roundBand_apply (lane : FloatLane) (face : Nat) (dst : Dst) (band row : Nat)
    (column : Fin 16) : roundBand lane face dst band row column =
      if row / 4 = 4 * face + band then roundedAt lane face dst row column
      else dst row column := by
  have address : (16 * face + 4 * band) / 4 = 4 * face + band ∧
      (16 * face + 4 * band + 2) / 4 = 4 * face + band ∧
      (16 * face + 4 * band) / 2 % 2 = 0 ∧ (16 * face + 4 * band + 2) / 2 % 2 = 1 := by omega
  obtain ⟨first, second, even, odd⟩ := address
  simp only [roundBand, Dst.store, first, second, even, odd]
  by_cases inside : row / 4 = 4 * face + band
  · have isBand : (row - 16 * face) / 4 = band := by omega
    have isRow : (16 * face + 4 * band) / 4 * 4 + row % 4 = row ∧
        (16 * face + 4 * band + 2) / 4 * 4 + row % 4 = row := by omega
    rw [if_pos inside, roundedAt, bandMax, isBand]
    rcases Nat.mod_two_eq_zero_or_one column with isEven | isOdd
    · have here : 2 * (column.val / 2) + 0 = column := by omega
      rw [if_neg (by omega), if_pos ⟨inside, isEven⟩]
      simp only [Dst.load, isRow.1, even, here]
    · have here : 2 * (column.val / 2) + 1 = column := by omega
      rw [if_pos ⟨inside, isOdd⟩]
      simp only [Dst.load, isRow.2, odd, here]
  · rw [if_neg (by omega), if_neg (by omega), if_neg inside]

/-- The bands are rounded one after the other. -/
theorem roundBands_apply (lane : FloatLane) (face : Nat) (dst : Dst) (count row : Nat)
    (column : Fin 16) : (List.range count).foldl (roundBand lane face) dst row column =
      if 4 * face ≤ row / 4 ∧ row / 4 < 4 * face + count then roundedAt lane face dst row column
      else dst row column := by
  induction count generalizing row column with
  | zero => rw [if_neg (by omega)]; rfl
  | succ count ih =>
    rw [List.range_succ, List.foldl_append, List.foldl_cons, List.foldl_nil, roundBand_apply]
    by_cases last : row / 4 = 4 * face + count
    · -- the bands before leave this one as it is
      have same (other : Nat) (column : Fin 16) (inside : other / 4 = row / 4) :
          (List.range count).foldl (roundBand lane face) dst other column = dst other column := by
        rw [ih, if_neg (by omega)]
      have isBand : (row - 16 * face) / 4 = count := by omega
      have band (i : Fin 4) (j : Fin 8) :
          bandMax ((List.range count).foldl (roundBand lane face) dst) face count i j =
            bandMax dst face count i j := by
        have loads (address : Nat) (within : address / 4 = row / 4) :
            ((List.range count).foldl (roundBand lane face) dst).load address =
              dst.load address := by
          funext i j
          exact same _ _ (by omega)
        rw [bandMax, loads _ (by omega), loads _ (by omega), bandMax]
      rw [if_pos last, if_pos (by omega), roundedAt, roundedAt, same _ _ rfl, isBand, band]
    · rw [if_neg last, ih]
      by_cases before : 4 * face ≤ row / 4 ∧ row / 4 < 4 * face + count
      · rw [if_pos before, if_pos (by omega)]
      · rw [if_neg before, if_neg (by omega)]

theorem typecast_apply (lane : FloatLane) (face : Nat) (dst : Dst) (row : Nat) (column : Fin 16) :
    calculateTypecastFp16bToBfp4b lane face dst row column =
      if row / 16 = face then roundedAt lane face dst row column else dst row column := by
  rw [calculateTypecastFp16bToBfp4b, roundBands_apply]
  by_cases inside : row / 16 = face
  · rw [if_pos (by omega), if_pos inside]
  · rw [if_neg (by omega), if_neg inside]

/-- A row of a face is rounded against its largest exponent. -/
theorem roundedAt_shared (lane : FloatLane) {face row sharedExp : Nat} (inside : row / 16 = face)
    {dst : Dst} (isMax : IsGreatest (rowExponents dst row) sharedExp) (column : Fin 16) :
    ∃ shared : Word, shared.toNat = sharedExp ∧
      roundedAt lane face dst row column = roundFp16bToBfp4b lane (dst row column) shared := by
  have isRow : 16 * face + 4 * ((row - 16 * face) / 4) + row % 4 = row := by omega
  have isGreatest := bandMax_isGreatest dst face ((row - 16 * face) / 4) ⟨row % 4, by omega⟩
    ⟨column / 2, by omega⟩
  rw [show ((⟨row % 4, by omega⟩ : Fin 4) : Nat) = row % 4 from rfl, isRow] at isGreatest
  exact ⟨_, isGreatest.unique isMax, rfl⟩

/-- The largest exponent of a row stays. -/
theorem rowExponents_rounded {lane : FloatLane} (exact : lane.Exact) {face row sharedExp : Nat}
    (inside : row / 16 = face) {dst : Dst} (isMax : IsGreatest (rowExponents dst row) sharedExp)
    (least : 3 ≤ sharedExp) (isFp16b : ∀ column, IsFp16b (dst row column)) :
    IsGreatest (rowExponents (calculateTypecastFp16bToBfp4b lane face dst) row) sharedExp := by
  have rounded (column : Fin 16) := roundedAt_shared lane inside isMax column
  have number (column : Fin 16) : binary32.exponent (dst row column).toNat < 255 :=
    (isFp16b column).finite
  obtain ⟨⟨largest, isLargest⟩, most⟩ := isMax
  have finite : sharedExp < 255 := by
    rw [← isLargest]
    exact number largest
  constructor
  · obtain ⟨shared, isShared, isRounded⟩ := rounded largest
    obtain ⟨sign, fields⟩ := (isFp16b largest).fields
    refine ⟨largest, ?_⟩
    dsimp only at isLargest ⊢
    rw [isLargest] at fields
    have kept := round_fields exact fields isShared.ge (by omega) (by omega)
    rw [typecast_apply, if_pos inside, isRounded, ← isShared]
    apply kept.exponent_of_four_le (by omega)
    have four := four_le_roundedQ sharedExp (mantissa (dst row largest))
    rw [keptQ, if_neg (by omega), isShared]
    omega
  · rintro _ ⟨column, rfl⟩
    obtain ⟨shared, isShared, isRounded⟩ := rounded column
    dsimp only
    rw [typecast_apply, if_pos inside, isRounded, ← isShared]
    exact (roundsToBfp4b exact (isFp16b column) (isShared ▸ most ⟨column, rfl⟩) (by omega)
      (by omega)).exponent

/-- Rounding to Bfp4 is exact under the packer. -/
theorem typecast_fp16b_to_bfp4b (lane : FloatLane) (exact : lane.Exact) (face : Nat) (dst : Dst) :
    (∀ band (i : Fin 4) (j : Fin 8), IsGreatest (rowExponents dst (16 * face + 4 * band + i))
      (exexp (rowMax (dst.load (16 * face + 4 * band)) (dst.load (16 * face + 4 * band + 2))
        i j)).toNat) ∧
    ∀ row sharedExp, row / 16 = face → IsGreatest (rowExponents dst row) sharedExp →
      3 ≤ sharedExp → (∀ column, IsFp16b (dst row column)) →
      let result := calculateTypecastFp16bToBfp4b lane face dst
      (∀ column, RoundsToBfp4b sharedExp (dst row column) (result row column)) ∧
      IsGreatest (rowExponents result row) sharedExp ∧
      ∀ column, calculateTypecastFp16bToBfp4b lane face result row column = result row column := by
  constructor
  · exact bandMax_isGreatest dst face
  intro row sharedExp inside isMax least isFp16b result
  have kept : IsGreatest (rowExponents result row) sharedExp :=
    rowExponents_rounded exact inside isMax least isFp16b
  have finite : sharedExp < 255 := by
    obtain ⟨column, isLargest⟩ := isMax.1
    rw [← isLargest]
    exact (isFp16b column).finite
  have isResult (column : Fin 16) : ∃ shared : Word, shared.toNat = sharedExp ∧
      result row column = roundFp16bToBfp4b lane (dst row column) shared := by
    obtain ⟨shared, isShared, isRounded⟩ := roundedAt_shared lane inside isMax column
    refine ⟨shared, isShared, ?_⟩
    show calculateTypecastFp16bToBfp4b lane face dst row column = _
    rw [typecast_apply, if_pos inside, isRounded]
  refine ⟨fun column => ?_, kept, fun column => ?_⟩
  · obtain ⟨shared, isShared, isRounded⟩ := isResult column
    rw [isRounded, ← isShared]
    exact roundsToBfp4b exact (isFp16b column) (isShared ▸ isMax.2 ⟨column, rfl⟩) (by omega)
      (by omega)
  · obtain ⟨shared, isShared, isRounded⟩ := isResult column
    obtain ⟨again, isAgain, isRoundedAgain⟩ := roundedAt_shared lane inside kept column
    have same : again = shared := BitVec.eq_of_toNat_eq (isAgain.trans isShared.symm)
    rw [typecast_apply, if_pos inside, isRoundedAgain, same, isRounded]
    exact round_round exact (isFp16b column) (isShared ▸ isMax.2 ⟨column, rfl⟩) (by omega)
      (by omega)

/-- A row of 1.0 and of -0.7 for what is not in the first column. -/
def mixedRow : Dst := fun _ column => if column.val = 0 then 0x3f800000#32 else 0xbf330000#32

theorem typecast_fp16b_to_bfp4b_mixed :
    let result := calculateTypecastFp16bToBfp4b exactLane 0 mixedRow
    (∀ column, RoundsToBfp4b 127 (mixedRow 5 column) (result 5 column)) ∧
      IsGreatest (rowExponents result 5) 127 ∧
      ∀ column, calculateTypecastFp16bToBfp4b exactLane 0 result 5 column = result 5 column := by
  have isMax : IsGreatest (rowExponents mixedRow 5) 127 := by
    constructor
    · exact ⟨0, rfl⟩
    · rintro _ ⟨column, rfl⟩
      dsimp only [mixedRow]
      split <;> decide
  have isFp16b (column : Fin 16) : IsFp16b (mixedRow 5 column) := by
    unfold mixedRow
    split
    · exact ⟨rfl, show 127 < 255 by decide⟩
    · exact ⟨rfl, show 126 < 255 by decide⟩
  exact (typecast_fp16b_to_bfp4b exactLane exactLane_exact 0 mixedRow).2 5 127 rfl isMax (by decide)
    isFp16b

end Libtt.Sfpu

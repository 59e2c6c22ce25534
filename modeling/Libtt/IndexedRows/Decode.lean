import Libtt.IndexedRows.Rows

/-!
# The rows of a position

`decode` clamps the coordinates of an index position, and `window_row` numbers the rows of its
window with the strides that `geometry` gives the row components. All numbers are words.
-/
namespace Libtt.IndexedRows

open Libtt.StableHlo

/-- With a column, the last component is not one of the row's. -/
def rowComponents (column : Bool) (sizes : List (BitVec 32)) : Nat :=
  sizes.length - if column then 1 else 0

/-- The loop over the row components, from the last: their strides, and the rows of a batch. -/
def rowStrides (sizes : List (BitVec 32)) : List (BitVec 32) × BitVec 32 :=
  sizes.foldr (fun size (strides, stride) => (stride :: strides, stride * size)) ([], 1)

/-- The strides of `geometry`. -/
def strides (column : Bool) (sizes : List (BitVec 32)) : List (BitVec 32) :=
  let rows := rowComponents column sizes
  (rowStrides (sizes.take rows)).1 ++ List.replicate (sizes.length - rows) 0

structure Coords where
  c : List (BitVec 32)
  outOfBounds : Bool

/-- A coordinate of `decode`, and whether it is out of bounds. -/
def decodeComponent (isUnsigned : Bool) (raw size window : BitVec 32) : BitVec 32 × Bool :=
  let hi := size - window
  if isUnsigned then (if hi < raw then hi else raw, decide (hi < raw))
  else
    let c := if raw.slt 0 then 0 else if hi.slt raw then hi else raw
    (c, decide (raw ≠ c))

/-- `decode` of the first `KD` components. -/
def decode (KD : Nat) (isUnsigned : Bool) (ptr : BitVec 32 → BitVec 32) (stride : BitVec 32)
    (sizes windows : List (BitVec 32)) : Coords :=
  let components := (List.range KD).map fun k => decodeComponent isUnsigned
    (ptr (BitVec.ofNat 32 k * stride)) (sizes.getD k 0) (windows.getD k 0)
  ⟨components.map Prod.fst, components.any Prod.snd⟩

/-- The loop of `window_row`, which takes the components from the last. -/
def windowLoop (components : List (BitVec 32 × BitVec 32 × BitVec 32)) (j : BitVec 32) :
    BitVec 32 × BitVec 32 :=
  components.foldr (fun (c, window, stride) (row, j) =>
    (row + (c + j % window) * stride, j / window)) (0, j)

/-- `window_row`. -/
def windowRow (KR : Nat) (coords : Coords) (j : BitVec 32) (windows strides : List (BitVec 32)) :
    BitVec 32 :=
  (windowLoop ((coords.c.zip (windows.zip strides)).take KR) j).1

/-- The type of the index words. -/
abbrev indexType (isUnsigned : Bool) : IntegerType := ⟨32, !isUnsigned, positive32⟩

/-- A component is clamped to where its window fits, and out of bounds if that changes it. -/
theorem decodeComponent_spec (isUnsigned : Bool) (raw : BitVec 32) {size window : BitVec 32}
    (fits : window.toNat ≤ size.toNat) (small : size.toNat < 2 ^ 31) :
    let clamped := max 0 (min ((indexType isUnsigned).read raw) (size.toNat - window.toNat))
    (decodeComponent isUnsigned raw size window).1.toInt = clamped ∧
      ((decodeComponent isUnsigned raw size window).2 = true ↔
        clamped ≠ (indexType isUnsigned).read raw) := by
  have top : (size - window).toNat = size.toNat - window.toNat :=
    BitVec.toNat_sub_of_le (BitVec.le_def.mpr fits)
  have hi : (size - window).toInt = size.toNat - window.toNat := by
    rw [BitVec.toInt_eq_toNat_of_lt (by omega), top]
    omega
  intro clamped
  cases isUnsigned with
  | true =>
    have read : (indexType true).read raw = raw.toNat := rfl
    simp only [clamped, read, decodeComponent, if_true, decide_eq_true_eq, BitVec.lt_def, top]
    by_cases high : size.toNat - window.toNat < raw.toNat
    · rw [if_pos high, hi]
      omega
    · rw [if_neg high, BitVec.toInt_eq_toNat_of_lt (by omega)]
      omega
  | false =>
    have read : (indexType false).read raw = raw.toInt := rfl
    have zero : (0 : BitVec 32).toInt = 0 := rfl
    simp only [clamped, read, decodeComponent, Bool.false_eq_true, if_false, decide_eq_true_eq,
      ne_eq, ← BitVec.toInt_inj, BitVec.slt_iff_toInt_lt, hi, zero]
    split_ifs
    · rw [zero]
      omega
    · rw [hi]
      omega
    · omega

theorem decode_getD {KD k : Nat} (less : k < KD) (isUnsigned : Bool) (ptr : BitVec 32 → BitVec 32)
    (stride : BitVec 32) (sizes windows : List (BitVec 32)) :
    (decode KD isUnsigned ptr stride sizes windows).c.getD k 0 = (decodeComponent isUnsigned
      (ptr (BitVec.ofNat 32 k * stride)) (sizes.getD k 0) (windows.getD k 0)).1 := by
  simp [decode, less]

/-- The numbers of words. -/
def numbers (words : List (BitVec 32)) : List Nat := words.map BitVec.toNat

@[simp] theorem length_numbers (words : List (BitVec 32)) :
    (numbers words).length = words.length := List.length_map _

theorem numbers_cons (word : BitVec 32) (words : List (BitVec 32)) :
    numbers (word :: words) = word.toNat :: numbers words := rfl

theorem getD_numbers (words : List (BitVec 32)) (k : Nat) :
    (numbers words).getD k 0 = (words.getD k 0).toNat :=
  List.getD_map words 0 BitVec.toNat

theorem rowStrides_snd (sizes : List (BitVec 32)) :
    (rowStrides sizes).2 = BitVec.ofNat 32 (numbers sizes).prod := by
  induction sizes with
  | nil => rfl
  | cons size sizes ih =>
    change (rowStrides sizes).2 * size = _
    rw [ih, numbers_cons, List.prod_cons, Nat.mul_comm, BitVec.ofNat_mul, BitVec.ofNat_toNat,
      BitVec.setWidth_eq]

theorem rowStrides_fst (sizes : List (BitVec 32)) : (rowStrides sizes).1 =
    (List.range sizes.length).map fun k =>
      BitVec.ofNat 32 ((numbers sizes).drop (k + 1)).prod := by
  induction sizes with
  | nil => rfl
  | cons size sizes ih =>
    change (rowStrides sizes).2 :: (rowStrides sizes).1 = _
    rw [ih, rowStrides_snd, List.length_cons, List.range_succ_eq_map]
    simp [numbers_cons, Function.comp_def]

/-- The loop finds the row-major digits of `j`, what is left of `j`, and the row of the digits. -/
theorem windowLoop_eq {c windows sizes : List (BitVec 32)} (length : c.length = sizes.length)
    (lengthWindows : windows.length = sizes.length) {j : Nat} (small : j < 2 ^ 32) :
    windowLoop (c.zip (windows.zip (rowStrides sizes).1)) (BitVec.ofNat 32 j) =
      (BitVec.ofNat 32 (position (numbers sizes) (List.zipWith (· + ·) (numbers c)
        (coordinates (numbers windows) (j % (numbers windows).prod)))),
      BitVec.ofNat 32 (j / (numbers windows).prod)) := by
  induction sizes generalizing c windows with
  | nil =>
    rw [List.eq_nil_of_length_eq_zero length, List.eq_nil_of_length_eq_zero lengthWindows]
    simp [windowLoop, numbers, position, coordinates]
  | cons size sizes ih =>
    obtain ⟨first, c, rfl⟩ := List.exists_cons_of_length_eq_add_one length
    obtain ⟨window, windows, rfl⟩ := List.exists_cons_of_length_eq_add_one lengthWindows
    have rest := ih (Nat.succ.inj length) (Nat.succ.inj lengthWindows)
    change (let (row, j) := windowLoop (c.zip (windows.zip (rowStrides sizes).1)) _
      (row + (first + j % window) * (rowStrides sizes).2, j / window)) = _
    rw [rest, rowStrides_snd]
    simp only [numbers_cons, List.prod_cons, coordinates, List.zipWith_cons_cons, position,
      Nat.mod_mul_left_div_self, Nat.mod_mul_left_mod]
    have fits : j / (numbers windows).prod < 2 ^ 32 := Nat.lt_of_le_of_lt (Nat.div_le_self _ _) small
    refine Prod.ext ?_ (BitVec.eq_of_toNat_eq ?_)
    · dsimp only
      have digit : BitVec.ofNat 32 (j / (numbers windows).prod) % window =
          BitVec.ofNat 32 (j / (numbers windows).prod % window.toNat) := by
        refine BitVec.eq_of_toNat_eq ?_
        rw [BitVec.toNat_umod, BitVec.toNat_ofNat, BitVec.toNat_ofNat, Nat.mod_eq_of_lt fits,
          Nat.mod_eq_of_lt (Nat.lt_of_le_of_lt (Nat.mod_le _ _) fits)]
      rw [digit, Nat.add_comm (_ * _), BitVec.ofNat_add, BitVec.ofNat_mul, BitVec.ofNat_add,
        BitVec.ofNat_toNat, BitVec.setWidth_eq]
    · dsimp only
      rw [BitVec.toNat_udiv, BitVec.toNat_ofNat, BitVec.toNat_ofNat, Nat.mod_eq_of_lt fits,
        Nat.div_div_eq_div_mul, Nat.mul_comm (numbers windows).prod, Nat.mod_eq_of_lt
          (Nat.lt_of_le_of_lt (Nat.div_le_self _ _) small)]

/-- What a component adds to a row. -/
def rowTerm (c digits strides : List Nat) (k : Nat) : Nat :=
  (c.getD k 0 + digits.getD k 0) * strides.getD k 0

/-- A row is the sum of its components' terms, and no operation on the way to it passes 32 bits. -/
structure SumsDigits (KR : Nat) (c digits strides : List Nat) (row : Nat) : Prop where
  sum : row = ∑ k ∈ Finset.range KR, rowTerm c digits strides k
  offset : ∀ k < KR, c.getD k 0 + digits.getD k 0 < 2 ^ 32
  product : ∀ k < KR, rowTerm c digits strides k < 2 ^ 32
  partialSum : ∀ k < KR, ∑ i ∈ Finset.Ico k KR, rowTerm c digits strides i < 2 ^ 32

section

variable {c windows sizes : List (BitVec 32)} {j : Nat}

/-- The row of a window that the loop reaches, for as many coordinates, windows and sizes. -/
def loopRow (c windows sizes : List (BitVec 32)) (j : Nat) : BitVec 32 :=
  (windowLoop (c.zip (windows.zip (rowStrides sizes).1)) (BitVec.ofNat 32 j)).1

/-- The window of each component fits behind its coordinate. -/
structure Placed (c windows sizes : List (BitVec 32)) : Prop where
  length : c.length = sizes.length
  lengthWindows : windows.length = sizes.length
  inside : ∀ k < sizes.length,
    (c.getD k 0).toNat + (windows.getD k 0).toNat ≤ (sizes.getD k 0).toNat

variable (placed : Placed c windows sizes)
include placed

namespace Placed

theorem prod_windows_le : (numbers windows).prod ≤ (numbers sizes).prod := by
  refine List.Forall₂.prod_le_prod' (List.forall₂_iff_get.mpr ⟨?_, fun k less bound => ?_⟩)
  · rw [length_numbers, length_numbers, placed.lengthWindows]
  · have fits := placed.inside k (by simpa using bound)
    rw [← getD_numbers windows, ← getD_numbers sizes, List.getD_eq_getElem _ _ less,
      List.getD_eq_getElem _ _ bound] at fits
    exact (Nat.le_add_left _ _).trans fits

variable (less : j < (numbers windows).prod)
include less

theorem sameLength : (numbers c).length = (coordinates (numbers windows) j).length := by
  rw [length_numbers, (coordinates_within less).length, length_numbers, placed.length,
    placed.lengthWindows]

/-- The components of a row are within the sizes. -/
theorem within :
    Within (List.zipWith (· + ·) (numbers c) (coordinates (numbers windows) j)) (numbers sizes) := by
  have digits := (within_iff_getD.mp (coordinates_within less)).2
  refine within_iff_getD.mpr ⟨?_, fun k bound => ?_⟩
  · rw [List.length_zipWith, ← placed.sameLength less, Nat.min_self, length_numbers,
      length_numbers, placed.length]
  · rw [length_numbers] at bound digits
    have digit := digits k (placed.lengthWindows ▸ bound)
    have fits := placed.inside k bound
    rw [getD_zipWith_add (placed.sameLength less), getD_numbers, getD_numbers]
    rw [getD_numbers] at digit
    omega

variable (small : (numbers sizes).prod < 2 ^ 31)
include small

theorem toNat_loopRow : (loopRow c windows sizes j).toNat = position (numbers sizes)
    (List.zipWith (· + ·) (numbers c) (coordinates (numbers windows) j)) := by
  have bound := position_lt (placed.within less)
  have fewer := placed.prod_windows_le
  rw [loopRow, windowLoop_eq placed.length placed.lengthWindows (by omega), BitVec.toNat_ofNat,
    Nat.mod_eq_of_lt less, Nat.mod_eq_of_lt (by omega)]

/-- The strides are those of the row-major order. -/
theorem toNat_rowStrides {k : Nat} (bound : k < sizes.length) :
    ((rowStrides sizes).1.getD k 0).toNat = ((numbers sizes).drop (k + 1)).prod := by
  have positive := Nat.zero_lt_of_lt (position_lt (placed.within less))
  have part := Nat.le_of_dvd positive
    (Dvd.intro_left _ (List.prod_take_mul_prod_drop (numbers sizes) (k + 1)))
  rw [rowStrides_fst, List.getD_eq_getElem _ _ (by simpa using bound), List.getElem_map,
    List.getElem_range, BitVec.toNat_ofNat, Nat.mod_eq_of_lt (by omega)]

theorem sumsDigits : SumsDigits sizes.length (numbers c) (coordinates (numbers windows) j)
    (numbers (rowStrides sizes).1) (loopRow c windows sizes j).toNat := by
  have within := placed.within less
  have row := placed.toNat_loopRow less small
  have digits := (within_iff_getD.mp within).2
  rw [length_numbers] at digits
  have sum : (loopRow c windows sizes j).toNat = ∑ k ∈ Finset.range sizes.length,
      rowTerm (numbers c) (coordinates (numbers windows) j) (numbers (rowStrides sizes).1) k := by
    rw [row, position_eq_sum within, length_numbers]
    refine Finset.sum_congr rfl fun k member => ?_
    rw [getD_zipWith_add (placed.sameLength less), rowTerm, getD_numbers (rowStrides sizes).1,
      placed.toNat_rowStrides less small (Finset.mem_range.mp member)]
  have whole := sum ▸ (loopRow c windows sizes j).isLt
  refine ⟨sum, fun k less => ?_, fun k less => ?_, fun k _ => ?_⟩
  · have digit := digits k less
    rw [getD_zipWith_add (placed.sameLength ‹_›), getD_numbers sizes] at digit
    exact digit.trans (sizes.getD k 0).isLt
  · exact (Finset.single_le_sum (fun _ _ => Nat.zero_le _) (Finset.mem_range.mpr less)).trans_lt whole
  · rw [Finset.range_eq_Ico] at whole
    exact (Finset.sum_le_sum_of_subset (Finset.Ico_subset_Ico_left (Nat.zero_le k))).trans_lt whole

/-- Other numbers have other rows. -/
theorem loopRow_injective {j' : Nat} (less' : j' < (numbers windows).prod)
    (same : loopRow c windows sizes j = loopRow c windows sizes j') : j = j' := by
  have rows := congrArg BitVec.toNat same
  rw [placed.toNat_loopRow less small, placed.toNat_loopRow less' small] at rows
  have sums := position_injective (placed.within less) (placed.within less') rows
  have digits : coordinates (numbers windows) j = coordinates (numbers windows) j' := by
    refine ext_getD 0 (placed.sameLength less).symm (placed.sameLength less').symm fun k _ => ?_
    have digit := congrArg (·.getD k 0) sums
    simp only [getD_zipWith_add (placed.sameLength less),
      getD_zipWith_add (placed.sameLength less')] at digit
    exact Nat.add_left_cancel digit
  rw [← position_coordinates less, digits, position_coordinates less']

end Placed

end

/-- What the operations check of the sizes and the windows. -/
structure Fits (sizes windows : List (BitVec 32)) : Prop where
  length : windows.length = sizes.length
  positive : ∀ window ∈ windows, 1 ≤ window.toNat
  inside : ∀ k < sizes.length, (windows.getD k 0).toNat ≤ (sizes.getD k 0).toNat
  small : ∀ k < sizes.length, (sizes.getD k 0).toNat < 2 ^ 31

theorem take_strides (column : Bool) (sizes : List (BitVec 32)) :
    let KR := rowComponents column sizes
    (strides column sizes).take KR = (rowStrides (sizes.take KR)).1 := by
  refine List.take_left' ?_
  rw [rowStrides_fst, List.length_map, List.length_range, List.length_take]
  exact Nat.min_eq_left (Nat.sub_le _ _)

/-- A position's coordinates are clamped as numbers and reported out of bounds where that changes
one; the rows of its window are distinct rows of the table, those of the row-major digits of their
numbers. -/
theorem positions_name_rows (isUnsigned column : Bool) (ptr : BitVec 32 → BitVec 32)
    (stride : BitVec 32) {sizes windows : List (BitVec 32)} (fits : Fits sizes windows) {KD : Nat}
    (decoded : rowComponents column sizes ≤ KD) (most : KD ≤ sizes.length)
    (small : (numbers (sizes.take (rowComponents column sizes))).prod < 2 ^ 31) :
    let KR := rowComponents column sizes
    let W := (numbers (windows.take KR)).prod
    let coords := decode KD isUnsigned ptr stride sizes windows
    let raw k := (indexType isUnsigned).read (ptr (BitVec.ofNat 32 k * stride))
    let row j := windowRow KR coords (BitVec.ofNat 32 j) windows (strides column sizes)
    (∀ k < KD, (coords.c.getD k 0).toInt =
        max 0 (min (raw k) ((sizes.getD k 0).toNat - (windows.getD k 0).toNat))) ∧
      (coords.outOfBounds = true ↔ ∃ k < KD, (coords.c.getD k 0).toInt ≠ raw k) ∧
      (∀ k < KR, ((strides column sizes).getD k 0).toNat =
        ((numbers (sizes.take KR)).drop (k + 1)).prod) ∧
      (∀ j < W, (row j).toNat < (numbers (sizes.take KR)).prod ∧
        SumsDigits KR (numbers (coords.c.take KR)) (coordinates (numbers (windows.take KR)) j)
          (numbers ((strides column sizes).take KR)) (row j).toNat) ∧
      ∀ j < W, ∀ j' < W, row j = row j' → j = j' := by
  intro KR W coords raw row
  have fewer : KR ≤ sizes.length := Nat.sub_le _ _
  have component (k : Nat) (less : k < KD) := decodeComponent_spec isUnsigned
    (ptr (BitVec.ofNat 32 k * stride)) (fits.inside k (by omega)) (fits.small k (by omega))
  have clamped (k : Nat) (less : k < KD) : (coords.c.getD k 0).toInt =
      max 0 (min (raw k) ((sizes.getD k 0).toNat - (windows.getD k 0).toNat)) := by
    rw [decode_getD less]
    exact (component k less).1
  -- the row components
  have lengthSizes : (sizes.take KR).length = KR := List.length_take_of_le fewer
  have taken (list : List (BitVec 32)) {k : Nat} (less : k < KR) :
      (list.take KR).getD k 0 = list.getD k 0 := by
    simp [List.getD_eq_getElem?_getD, less]
  have placed : Placed (coords.c.take KR) (windows.take KR) (sizes.take KR) := by
    refine ⟨?_, ?_, fun k bound => ?_⟩
    · rw [lengthSizes, List.length_take_of_le (by simpa [coords, decode] using decoded)]
    · rw [List.length_take, List.length_take, fits.length]
    · have less : k < KR := lengthSizes ▸ bound
      have value := clamped k (by omega)
      have fit := fits.inside k (by omega)
      have small := fits.small k (by omega)
      rw [BitVec.toInt_eq_toNat_cond] at value
      rw [taken _ less, taken _ less, taken _ less]
      split at value <;> omega
  have rows (j : Nat) : row j = loopRow (coords.c.take KR) (windows.take KR) (sizes.take KR) j := by
    rw [loopRow, ← take_strides column sizes]
    simp only [row, windowRow, List.zip_eq_zipWith, List.take_zipWith]
    rfl
  have least : ∀ number ∈ numbers (windows.take KR), 1 ≤ number := by
    intro number member
    obtain ⟨window, isWindow, rfl⟩ := List.mem_map.mp member
    exact fits.positive window (List.mem_of_mem_take isWindow)
  have positive : 0 < W := List.one_le_prod_of_one_le least
  refine ⟨clamped, ?_, fun k less => ?_, fun j less => ⟨?_, ?_⟩, fun j less j' less' same => ?_⟩
  · have reported : coords.outOfBounds = true ↔ ∃ k < KD, (decodeComponent isUnsigned
        (ptr (BitVec.ofNat 32 k * stride)) (sizes.getD k 0) (windows.getD k 0)).2 = true := by
      simp [coords, decode]
    rw [reported]
    refine exists_congr fun k => and_congr_right fun less => ?_
    rw [clamped k less]
    exact (component k less).2
  · rw [← placed.toNat_rowStrides positive small (lengthSizes.symm ▸ less), ← take_strides,
      taken _ less]
  · rw [rows, placed.toNat_loopRow less small]
    exact position_lt (placed.within less)
  · have sums := placed.sumsDigits less small
    rwa [lengthSizes, ← rows, ← take_strides] at sums
  · rw [rows, rows] at same
    exact placed.loopRow_injective less small less' same

theorem positions_name_rows_clamped :
    let ptr : BitVec 32 → BitVec 32 := fun k => if k = 0 then 7 else 1
    let coords := decode 2 true ptr 1 [4, 5] [2, 3]
    Fits [4, 5] [2, 3] ∧ (coords.c.getD 0 0).toInt = 2 ∧ ∀ j < 6,
      (windowRow 2 coords (BitVec.ofNat 32 j) [2, 3] (strides false [4, 5])).toNat < 20 := by
  intro ptr coords
  have most : ∀ k < 2, (([4, 5] : List (BitVec 32)).getD k 0).toNat ≤ 5 := by decide
  have fits : Fits [4, 5] [2, 3] :=
    ⟨rfl, by simp, by decide, fun k less => (most k less).trans_lt (by omega)⟩
  obtain ⟨clamped, -, -, rows, -⟩ := positions_name_rows true false ptr 1 fits
    (show rowComponents false [4, 5] ≤ 2 by decide) (Nat.le_refl 2)
    (show 4 * (5 * 1) < 2 ^ 31 by omega)
  exact ⟨fits, clamped 0 (by decide), fun j less => (rows j less).1⟩

end Libtt.IndexedRows

import Libtt.Foundation.Updates
import Libtt.Foundation.Spans
import Mathlib.Algebra.BigOperators.Ring.List
import Mathlib.Tactic.IntervalCases
import Mathlib.Tactic.Ring

/-!
# Gathering strided host buffers

`gatherContiguousBytes` (`runtime.cpp` as the host copy patches leave it) copies a strided view of
host memory into a dense buffer. It copies the longest dense suffix of dimensions at a time, or
transposes stacks of 16-bit matrices in 8x8 blocks on several threads. The model lists what each
thread writes, in its order. Loads and stores are of whole bytes; sizes and addresses fit theirs.
-/
namespace Libtt.HostCopy

open Libtt.Foundation

/-- A dimension of a view, with its stride in elements. -/
structure Dim where
  size : Nat
  stride : Int

/-- The bytes of the host, by address. -/
abbrev Memory := Int → UInt8

def bytes (memory : Memory) (address : Int) (count : Nat) : List UInt8 :=
  (List.range count).map fun i : Nat => memory (address + i)

/-- A byte and where in the output it is written. -/
abbrev Cell := UInt8 × Nat

def getNumElements (shape : List Dim) : Nat := (shape.map Dim.size).prod

section
variable {Lane : Type}

/-- `InterleaveLower` and `InterleaveUpper` of eight 16-bit lanes, in groups of a width. -/
def interleave (width : Nat) (upper : Bool) (a b : Nat → Lane) : Nat → Lane := fun lane =>
  let group := lane / width
  let half := if upper then 4 / width else 0
  (if group % 2 = 0 then a else b) ((group / 2 + half) * width + lane % width)

def interleaveRound (width : Nat) (v : Nat → Nat → Lane) : Nat → Nat → Lane := fun i =>
  interleave width (i % 2 = 1) (v (i / 2)) (v (i / 2 + 4))

end

def kBitReversed : List Nat := [0, 4, 2, 6, 1, 5, 3, 7]

/-- `transpose8x8`, where a 16-bit lane is its two bytes. The source is an address, the destination
an index of 16-bit values. -/
def transpose8x8 (memory : Memory) (src srcStride : Int) (dst dstStride : Nat) : List Cell :=
  let v := fun i lane : Nat =>
    bytes memory (src + 2 * ((kBitReversed.getD i 0 : Nat) * srcStride + lane)) 2
  let v := interleaveRound 4 (interleaveRound 2 (interleaveRound 1 v))
  (List.range 8).flatMap fun i => (List.range 8).flatMap fun lane =>
    (v i lane).zipIdx ((dst + i * dstStride + lane) * 2)

/-- The sides of the tiles that `transpose16` visits. -/
def kTile : Nat := 64

/-- The rows before the first tile boundary. -/
def tileHead (src : Int) : Nat :=
  if src % 16 = 0 then ((128 - src % 128) % 128 / 2).toNat else 0

/-- The end of the tile of a row. -/
def tileEnd (head rowEnd r0 : Nat) : Nat :=
  min (if r0 < head then head else head + (r0 - head) / kTile * kTile + kTile) rowEnd

theorem lt_tileEnd {head rowEnd r0 : Nat} (within : r0 < rowEnd) : r0 < tileEnd head rowEnd r0 := by
  unfold tileEnd kTile
  split <;> omega

/-- One tile of rows. -/
def copyTile (memory : Memory) (src colStride : Int) (out cols r0 r1 : Nat) : List Cell :=
  (steps 0 cols kTile).flatMap fun c0 : Nat =>
    (steps r0 r1 8).flatMap fun r : Nat =>
      (steps c0 (min (c0 + kTile) cols) 8).flatMap fun c : Nat =>
        transpose8x8 memory (src + 2 * (r + c * colStride)) colStride (out + r * cols + c) cols

/-- `copyRows`. -/
def copyRows (memory : Memory) (src colStride : Int) (out cols rowEnd r0 : Nat) : List Cell :=
  if r0 < rowEnd then
    let r1 := tileEnd (tileHead src) rowEnd r0
    copyTile memory src colStride out cols r0 r1 ++
      copyRows memory src colStride out cols rowEnd r1
  else []
termination_by rowEnd - r0
decreasing_by
  have later : r0 < tileEnd (tileHead src) rowEnd r0 := lt_tileEnd ‹r0 < rowEnd›
  omega

/-- `transpose16`, by thread. -/
def transpose16 (memory : Memory) (src colStride : Int) (out rows cols : Nat) : List (List Cell) :=
  let numThreads := max 1 (min (rows * cols / (4 * 2 ^ 20)) 8)
  if numThreads = 1 then [copyRows memory src colStride out cols rows 0]
  else (List.range numThreads).map fun t =>
    copyRows memory src colStride out cols (rows * (t + 1) / numThreads / 8 * 8)
      (rows * t / numThreads / 8 * 8)

/-- The offset of an element, or of a matrix of a stack, in a view whose dimensions are given last
first. -/
def offsetOf : List Dim → Nat → Int
  | [], _ => 0
  | dim :: dims, rest => (rest % dim.size : Nat) * dim.stride + offsetOf dims (rest / dim.size)

/-- `transposeMatrices`, by thread. -/
def transposeMatrices (memory : Memory) (data : Int) (stack : List Dim) (colStride : Int)
    (rows cols start stop : Nat) : List (List Cell) :=
  (List.range' start (stop - start)).flatMap fun m =>
    transpose16 memory (data + 2 * offsetOf stack m) colStride (m * (rows * cols)) rows cols

/-- The matrices of a stack, by thread. Matrices of 8M elements are split inside. -/
def transposeStack (memory : Memory) (data : Int) (stack : List Dim) (colStride : Int)
    (rows cols matrices : Nat) : List (List Cell) :=
  let transposeMatrices := transposeMatrices memory data stack colStride rows cols
  let numThreads := if rows * cols ≥ 8 * 2 ^ 20 then 1 else min matrices 16
  if numThreads = 1 then transposeMatrices 0 matrices
  else (List.range numThreads).map fun t =>
    (transposeMatrices (matrices * t / numThreads) (matrices * (t + 1) / numThreads)).flatten

/-- The dimensions, last first, without those of the longest dense suffix, and the elements of the
suffix. -/
def denseSuffix : List Dim → Nat → List Dim × Nat
  | [], runElements => ([], runElements)
  | dim :: dims, runElements =>
    if dim.size = 1 ∨ dim.stride = runElements then denseSuffix dims (runElements * dim.size)
    else (dim :: dims, runElements)

/-- The offset of an index, last dimension first. -/
def srcOffset : List Dim → List Nat → Int
  | dim :: dims, i :: idx => i * dim.stride + srcOffset dims idx
  | _, _ => 0

/-- The next index in row-major order, last dimension first. -/
def advance : List Dim → List Nat → List Nat
  | dim :: dims, i :: idx => if i + 1 < dim.size then (i + 1) :: idx else 0 :: advance dims idx
  | _, idx => idx

/-- The loop over the runs, for so many rounds at most. -/
def copyRuns (memory : Memory) (data : Int) (dims : List Dim) (runBytes itemsize size : Nat) :
    Nat → Nat → List Nat → Option (List Cell)
  | fuel, dst, idx =>
    if dst = size then some []
    else match fuel with
      | 0 => none
      | fuel + 1 =>
        (copyRuns memory data dims runBytes itemsize size fuel (dst + runBytes)
          (advance dims idx)).map
            ((bytes memory (data + srcOffset dims idx * itemsize) runBytes).zipIdx dst ++ ·)

/-- `gatherContiguousBytes`: what each thread writes, where its loop over runs ends. -/
def gatherContiguousBytes (fuel : Nat) (memory : Memory) (data : Int) (shape : List Dim)
    (itemsize : Nat) : Option (List (List Cell)) :=
  let size := getNumElements shape * itemsize
  if size = 0 then some []
  else
    let (dims, runElements) := denseSuffix shape.reverse 1
    let runs := (copyRuns memory data dims (runElements * itemsize) itemsize size fuel 0
      (dims.map fun _ => 0)).map ([·])
    match dims with
    | cols :: rows :: stack =>
      if itemsize = 2 ∧ runElements = 1 ∧ rows.stride = 1 ∧ rows.size % 8 = 0 ∧ cols.size % 8 = 0
      then
        some (transposeStack memory data stack cols.stride rows.size cols.size
          (size / itemsize / (rows.size * cols.size)))
      else runs
    | _ => runs

/-- Write a cell of the output. -/
def write (cell : Cell) (buffer : Nat → UInt8) : Nat → UInt8 :=
  Function.update buffer cell.2 cell.1

end Libtt.HostCopy

/-! ## A gathered buffer is the element-wise copy -/
namespace Libtt.HostCopy

open Libtt.Foundation

/-- The offsets of the elements of a view in row-major order. -/
def rowMajor : List Dim → List Int
  | [] => [0]
  | dim :: dims => (List.range dim.size).flatMap fun i : Nat =>
      (rowMajor dims).map fun offset => i * dim.stride + offset

/-- The element-wise copy of a view. -/
def elementwise (memory : Memory) (data : Int) (shape : List Dim) (itemsize : Nat) : List UInt8 :=
  (rowMajor shape).flatMap fun offset => bytes memory (data + offset * itemsize) itemsize

/-- The last dimension is the fastest. -/
theorem rowMajor_concat (dims : List Dim) (last : Dim) :
    rowMajor (dims ++ [last]) =
      (rowMajor dims).flatMap fun offset => (List.range last.size).map fun i : Nat =>
        offset + i * last.stride := by
  induction dims with
  | nil =>
    simp only [List.nil_append, rowMajor, List.map_cons, List.map_nil, List.flatMap_singleton,
      Int.add_zero, Int.zero_add]
    exact List.map_eq_flatMap.symm
  | cons dim dims ih =>
    simp only [List.cons_append, rowMajor, ih, List.flatMap_assoc, List.map_flatMap,
      List.flatMap_map, List.map_map, Function.comp_def, add_assoc]

theorem getNumElements_cons (dim : Dim) (dims : List Dim) :
    getNumElements (dim :: dims) = dim.size * getNumElements dims := List.prod_cons

theorem getNumElements_reverse (dims : List Dim) :
    getNumElements dims.reverse = getNumElements dims := by
  rw [getNumElements, List.map_reverse, List.prod_reverse]
  rfl

/-- An offset is the sum of the strides times the digits of the element's number. -/
theorem rowMajor_reverse (dims : List Dim) :
    rowMajor dims.reverse = (List.range (getNumElements dims)).map (offsetOf dims) := by
  induction dims with
  | nil => rfl
  | cons dim dims ih =>
    rw [List.reverse_cons, rowMajor_concat, ih, List.flatMap_map, getNumElements_cons,
      Nat.mul_comm, List.map_eq_flatMap, flatMap_range_mul]
    apply List.flatMap_congr
    intro q _
    rw [List.map_eq_flatMap]
    apply List.flatMap_congr
    intro i member
    have below : i < dim.size := List.mem_range.mp member
    rw [offsetOf, Nat.mul_comm, Nat.mul_add_mod, Nat.mod_eq_of_lt below,
      Nat.mul_add_div (Nat.zero_lt_of_lt below), Nat.div_eq_of_lt below, Nat.add_zero, add_comm]

theorem length_bytes (memory : Memory) (address : Int) (count : Nat) :
    (bytes memory address count).length = count := by
  rw [bytes, List.length_map, List.length_range]

/-- The bytes of consecutive elements are a run of bytes. -/
theorem flatMap_bytes (memory : Memory) (address : Int) (count size : Nat) :
    ((List.range count).flatMap fun j : Nat => bytes memory (address + j * size) size) =
      bytes memory address (count * size) := by
  rw [bytes, List.map_eq_flatMap, flatMap_range_mul]
  apply List.flatMap_congr
  intro j _
  rw [bytes, List.map_eq_flatMap]
  apply List.flatMap_congr
  intro i _
  rw [Int.natCast_add, Int.natCast_mul, Int.add_assoc]

/-- The elements of runs at some offsets. -/
def runOffsets (offsets : List Int) (runElements : Nat) : List Int :=
  offsets.flatMap fun offset => (List.range runElements).map fun j : Nat => offset + j

/-- A dense dimension makes the runs longer. -/
theorem runOffsets_concat (dims : List Dim) {dim : Dim} {runElements : Nat}
    (dense : dim.size = 1 ∨ dim.stride = runElements) :
    runOffsets (rowMajor (dims ++ [dim])) runElements =
      runOffsets (rowMajor dims) (runElements * dim.size) := by
  rw [runOffsets, runOffsets, rowMajor_concat, List.flatMap_assoc]
  apply List.flatMap_congr
  intro offset _
  rw [List.flatMap_map, List.map_eq_flatMap, Nat.mul_comm,
    flatMap_range_mul]
  apply List.flatMap_congr
  intro i member
  rw [List.map_eq_flatMap]
  apply List.flatMap_congr
  intro j _
  have same : (i : Int) * dim.stride = i * runElements := by
    rcases dense with one | stride
    · rw [one] at member
      rw [Nat.lt_one_iff.mp (List.mem_range.mp member)]
      exact (Int.zero_mul _).trans (Int.zero_mul _).symm
    · rw [stride]
  rw [same, Int.natCast_add, Int.natCast_mul, Int.add_assoc]

/-- The runs that the dense suffix leaves have the same elements. -/
theorem denseSuffix_offsets (dims : List Dim) (runElements : Nat) :
    runOffsets (rowMajor dims.reverse) runElements =
      runOffsets (rowMajor (denseSuffix dims runElements).1.reverse)
        (denseSuffix dims runElements).2 := by
  induction dims generalizing runElements with
  | nil => rfl
  | cons dim dims ih =>
    rw [denseSuffix]
    split
    case isTrue dense => rw [List.reverse_cons, runOffsets_concat _ dense, ih]
    case isFalse => rfl

theorem denseSuffix_elements (dims : List Dim) (runElements : Nat) :
    getNumElements (denseSuffix dims runElements).1 * (denseSuffix dims runElements).2 =
      getNumElements dims * runElements := by
  induction dims generalizing runElements with
  | nil => rfl
  | cons dim dims ih =>
    rw [denseSuffix]
    split
    case isTrue =>
      rw [ih, getNumElements_cons, Nat.mul_comm runElements, ← Nat.mul_assoc,
        Nat.mul_comm (getNumElements dims)]
    case isFalse => rfl

/-- The run of bytes with a number. -/
def run (memory : Memory) (data : Int) (dims : List Dim) (runElements itemsize k : Nat) :
    List UInt8 :=
  bytes memory (data + offsetOf dims k * itemsize) (runElements * itemsize)

/-- The element-wise copy is the runs one after the other. -/
theorem elementwise_eq (memory : Memory) (data : Int) (shape : List Dim) (itemsize : Nat) :
    let (dims, runElements) := denseSuffix shape.reverse 1
    elementwise memory data shape itemsize =
      (List.range (getNumElements dims)).flatMap (run memory data dims runElements itemsize) := by
  generalize suffix : denseSuffix shape.reverse 1 = result
  have single : rowMajor shape = runOffsets (rowMajor shape.reverse.reverse) 1 := by
    simp [runOffsets]
  rw [denseSuffix_offsets, suffix, rowMajor_reverse] at single
  simp only [elementwise, single, runOffsets, List.flatMap_assoc, List.flatMap_map]
  apply List.flatMap_congr
  intro k _
  rw [run, ← flatMap_bytes]
  apply List.flatMap_congr
  intro j _
  rw [Int.add_mul, Int.add_assoc]

/-- The index of the run with a number. -/
def digits : List Dim → Nat → List Nat
  | [], _ => []
  | dim :: dims, k => k % dim.size :: digits dims (k / dim.size)

theorem digits_zero (dims : List Dim) : digits dims 0 = dims.map fun _ => 0 := by
  induction dims with
  | nil => rfl
  | cons dim dims ih => rw [digits, Nat.zero_mod, Nat.zero_div, ih, List.map_cons]

theorem srcOffset_digits (dims : List Dim) (k : Nat) :
    srcOffset dims (digits dims k) = offsetOf dims k := by
  induction dims generalizing k with
  | nil => rfl
  | cons dim dims ih => rw [digits, srcOffset, offsetOf, ih]

/-- The index counts. -/
theorem advance_digits {dims : List Dim} (positive : ∀ dim ∈ dims, 0 < dim.size) (k : Nat) :
    advance dims (digits dims k) = digits dims (k + 1) := by
  induction dims generalizing k with
  | nil => rfl
  | cons dim dims ih =>
    have size := positive dim List.mem_cons_self
    have below := Nat.mod_lt k size
    have parts := Nat.div_add_mod k dim.size
    rw [digits, advance]
    split
    case isTrue inside =>
      have next : k + 1 = dim.size * (k / dim.size) + (k % dim.size + 1) := by omega
      rw [digits, next, Nat.mul_add_mod, Nat.mod_eq_of_lt inside, Nat.mul_add_div size,
        Nat.div_eq_of_lt inside, Nat.add_zero]
      rfl
    case isFalse outside =>
      have next : k + 1 = dim.size * (k / dim.size + 1) := by
        rw [Nat.mul_succ]
        omega
      rw [ih fun other member => positive other (List.mem_cons_of_mem _ member), digits, next,
        Nat.mul_mod_right, Nat.mul_div_cancel_left _ size]

/-- The loop copies the runs that are left, and ends when it has. -/
theorem copyRuns_eq (memory : Memory) (data : Int) {dims : List Dim} {runElements itemsize : Nat}
    (positive : ∀ dim ∈ dims, 0 < dim.size) (step : 0 < runElements * itemsize) (fuel : Nat)
    {k : Nat} (within : k ≤ getNumElements dims) :
    copyRuns memory data dims (runElements * itemsize) itemsize
        (getNumElements dims * (runElements * itemsize)) fuel (k * (runElements * itemsize))
        (digits dims k) =
      if getNumElements dims - k ≤ fuel then
        some ((List.range' k (getNumElements dims - k)).flatMap fun j =>
          (run memory data dims runElements itemsize j).zipIdx (j * (runElements * itemsize)))
      else none := by
  induction fuel generalizing k with
  | zero =>
    unfold copyRuns
    by_cases last : k = getNumElements dims
    · rw [if_pos (by rw [last]), last, Nat.sub_self, if_pos (Nat.le_refl 0)]
      rfl
    · have more : k * (runElements * itemsize) ≠ getNumElements dims * (runElements * itemsize) :=
        fun same => last (Nat.eq_of_mul_eq_mul_right step same)
      rw [if_neg more, if_neg (by omega)]
  | succ fuel ih =>
    unfold copyRuns
    by_cases last : k = getNumElements dims
    · rw [if_pos (by rw [last]), last, Nat.sub_self, if_pos (Nat.zero_le _)]
      rfl
    · have more : k * (runElements * itemsize) ≠ getNumElements dims * (runElements * itemsize) :=
        fun same => last (Nat.eq_of_mul_eq_mul_right step same)
      have rest : getNumElements dims - k = getNumElements dims - (k + 1) + 1 := by omega
      rw [if_neg more]
      dsimp only
      rw [advance_digits positive, ← Nat.add_one_mul, ih (by omega), rest,
        srcOffset_digits, List.range'_succ, List.flatMap_cons]
      by_cases enough : getNumElements dims - (k + 1) ≤ fuel
      · rw [if_pos enough, if_pos (Nat.succ_le_succ enough)]
        rfl
      · rw [if_neg enough, if_neg fun more => enough (Nat.le_of_succ_le_succ more)]
        rfl

/-- The three rounds transpose columns taken in bit-reversed order. -/
theorem interleaveRounds {Lane : Type} (columns : Nat → Nat → Lane) {i lane : Nat} (row : i < 8)
    (column : lane < 8) :
    interleaveRound 4 (interleaveRound 2 (interleaveRound 1 fun i => columns
      (kBitReversed.getD i 0))) i lane = columns lane i := by
  interval_cases i <;> interval_cases lane <;> rfl

section
variable (memory : Memory) (src colStride : Int) (out cols : Nat)

/-- What is written for an element of a matrix. -/
def element (r c : Nat) : List Cell :=
  (bytes memory (src + 2 * (r + c * colStride)) 2).zipIdx ((out + r * cols + c) * 2)

/-- What is written for the rows and columns of a block. -/
def block (r c : Nat) : List Cell :=
  (List.range 8).flatMap fun i => (List.range 8).flatMap fun lane =>
    element memory src colStride out cols (r * 8 + i) (c * 8 + lane)

theorem transpose8x8_eq (r c : Nat) :
    transpose8x8 memory (src + 2 * ((8 * r : Nat) + (8 * c : Nat) * colStride)) colStride
      (out + 8 * r * cols + 8 * c) cols = block memory src colStride out cols r c := by
  apply List.flatMap_congr
  intro i row
  apply List.flatMap_congr
  intro lane column
  have lanes := interleaveRounds
    (fun column lane : Nat => bytes memory
      (src + 2 * ((8 * r : Nat) + (8 * c : Nat) * colStride) + 2 * (column * colStride + lane)) 2)
    (List.mem_range.mp row) (List.mem_range.mp column)
  have place : out + 8 * r * cols + 8 * c + i * cols + lane =
      out + (r * 8 + i) * cols + (c * 8 + lane) := by
    rw [Nat.add_mul, Nat.mul_comm 8 r]
    omega
  have address : src + 2 * (((8 * r : Nat) : Int) + (8 * c : Nat) * colStride) +
      2 * (lane * colStride + i) =
        src + 2 * (((r * 8 + i : Nat) : Int) + (c * 8 + lane : Nat) * colStride) := by
    push_cast
    ring
  rw [element, ← place, ← address, ← lanes]

/-- The blocks of a row of blocks. -/
def blockRow (width r : Nat) : List Cell :=
  (List.range width).flatMap fun c => block memory src colStride out cols r c

/-- The bands of columns that the tiles visit are all columns. -/
theorem column_bands (width : Nat) (visit : Nat → List Cell) :
    ((steps 0 (8 * width) kTile).flatMap fun c0 =>
      (steps c0 (min (c0 + kTile) (8 * width)) 8).flatMap visit) =
      (List.range width).flatMap fun c => visit (8 * c) := by
  let bound := fun t => min (8 * t) width
  have monotone : Monotone bound := fun _ _ le => min_le_min_right _ (Nat.mul_le_mul_left 8 le)
  let count := (8 * width + 63) / 64
  have last : bound count = width := by
    show min (8 * ((8 * width + 63) / 64)) width = width
    omega
  have bands := flatMap_bands monotone count
  rw [last, show bound 0 = 0 from Nat.zero_min _, Nat.sub_zero, ← List.range_eq_range'] at bands
  have tiles : steps 0 (8 * width) kTile = (List.range count).map fun t => 64 * t := by
    rw [steps, range'_eq_map_mul]
    simp only [Nat.zero_add, Nat.sub_zero]
    rfl
  rw [tiles, List.flatMap_map, ← bands, List.flatMap_assoc]
  apply List.flatMap_congr
  intro t member
  have inside : t < (8 * width + 63) / 64 := List.mem_range.mp member
  have start : bound t = 8 * t := by
    show min (8 * t) width = 8 * t
    omega
  have stop : min (64 * t + kTile) (8 * width) = 8 * bound (t + 1) := by
    show min (64 * t + 64) (8 * width) = 8 * min (8 * (t + 1)) width
    omega
  rw [stop, start, show 64 * t = 8 * (8 * t) by omega, steps_mul (by decide), List.flatMap_map]

/-- A tile of rows holds its rows of blocks. -/
theorem copyTile_perm (width a b : Nat) :
    (copyTile memory src colStride out (8 * width) (8 * a) (8 * b)).Perm
      ((List.range' a (b - a)).flatMap (blockRow memory src colStride out (8 * width) width)) := by
  refine (flatMap_perm_comm _ _ _).trans (List.Perm.of_eq ?_)
  rw [steps_mul (by decide), List.flatMap_map]
  apply List.flatMap_congr
  intro r _
  rw [column_bands, blockRow]
  simp only [transpose8x8_eq]

theorem eight_dvd_tileHead : 8 ∣ tileHead src := by
  unfold tileHead
  split <;> omega

theorem eight_dvd_tileEnd {head rowEnd r0 : Nat} (isHead : 8 ∣ head) (isEnd : 8 ∣ rowEnd) :
    8 ∣ tileEnd head rowEnd r0 := by
  unfold tileEnd kTile
  split <;> omega

/-- `copyRows` holds the rows of blocks of its rows. -/
theorem copyRows_perm (width a b : Nat) :
    (copyRows memory src colStride out (8 * width) (8 * b) (8 * a)).Perm
      ((List.range' a (b - a)).flatMap (blockRow memory src colStride out (8 * width) width)) := by
  induction isLeft : b - a using Nat.strongRecOn generalizing a with
  | ind left ih =>
    rw [copyRows]
    by_cases within : 8 * a < 8 * b
    · obtain ⟨e, isEnd⟩ : 8 ∣ tileEnd (tileHead src) (8 * b) (8 * a) :=
        eight_dvd_tileEnd (eight_dvd_tileHead src) (Nat.dvd_mul_right 8 b)
      have later : 8 * a < tileEnd (tileHead src) (8 * b) (8 * a) := lt_tileEnd within
      have inside : tileEnd (tileHead src) (8 * b) (8 * a) ≤ 8 * b := min_le_right _ _
      have parts : List.range' a left = List.range' a (e - a) ++ List.range' e (b - e) := by
        have joined := @List.range'_append_1 a (e - a) (b - e)
        rw [Nat.add_sub_of_le (by omega)] at joined
        rw [joined]
        congr 1
        omega
      rw [if_pos within, isEnd, parts, List.flatMap_append]
      exact (copyTile_perm memory src colStride out width a e).append (ih (b - e) (by omega) e rfl)
    · rw [if_neg within, ← isLeft, Nat.sub_eq_zero_of_le (by omega)]
      exact List.Perm.refl _

/-- The rows of one thread out of several. -/
theorem monotone_bands (rows count : Nat) : Monotone fun t => rows * t / count / 8 := fun _ _ le =>
  Nat.div_le_div_right (Nat.div_le_div_right (Nat.mul_le_mul_left rows le))

/-- The threads of `transpose16` hold all rows of blocks. -/
theorem transpose16_perm (height width : Nat) :
    (transpose16 memory src colStride out (8 * height) (8 * width)).flatten.Perm
      ((List.range height).flatMap (blockRow memory src colStride out (8 * width) width)) := by
  unfold transpose16
  extract_lets numThreads
  split
  case isTrue =>
    rw [List.flatten_singleton, List.range_eq_range']
    exact copyRows_perm memory src colStride out width 0 height
  case isFalse =>
    have positive : 0 < numThreads := Nat.lt_of_lt_of_le Nat.one_pos (le_max_left _ _)
    have bands := flatMap_bands (monotone_bands (8 * height) numThreads) numThreads
    simp only [Nat.mul_zero, Nat.zero_div, Nat.sub_zero, Nat.mul_div_cancel _ positive,
      Nat.mul_div_cancel_left height (show 0 < 8 by decide), ← List.range_eq_range'] at bands
    rw [← bands, List.flatMap_assoc, ← List.flatMap_def]
    apply List.Perm.flatMap_left
    intro t _
    have rows := copyRows_perm memory src colStride out width (8 * height * t / numThreads / 8)
      (8 * height * (t + 1) / numThreads / 8)
    rw [Nat.mul_comm 8 (8 * height * t / numThreads / 8),
      Nat.mul_comm 8 (8 * height * (t + 1) / numThreads / 8)] at rows
    exact rows

/-- The threads of `transpose16` write every element of the matrix. -/
theorem transpose16_elements (height width : Nat) :
    (transpose16 memory src colStride out (8 * height) (8 * width)).flatten.Perm
      ((List.range (8 * height)).flatMap fun r => (List.range (8 * width)).flatMap
        (element memory src colStride out (8 * width) r)) := by
  refine (transpose16_perm memory src colStride out height width).trans ?_
  rw [Nat.mul_comm 8 height, flatMap_range_mul]
  apply List.Perm.flatMap_left
  intro r _
  refine (flatMap_perm_comm _ _ _).trans (List.Perm.flatMap_left _ fun i _ => List.Perm.of_eq ?_)
  rw [Nat.mul_comm 8 width, flatMap_range_mul]

end

section
variable (memory : Memory) (data : Int) (stack : List Dim) (colStride : Int) (height width : Nat)

/-- What is written for the elements of a matrix of a stack. -/
def matrix (m : Nat) : List Cell :=
  (List.range (8 * height)).flatMap fun r => (List.range (8 * width)).flatMap
    (element memory (data + 2 * offsetOf stack m) colStride (m * (8 * height * (8 * width)))
      (8 * width) r)

theorem transposeMatrices_perm (start stop : Nat) :
    (transposeMatrices memory data stack colStride (8 * height) (8 * width) start
      stop).flatten.Perm
      ((List.range' start (stop - start)).flatMap
        (matrix memory data stack colStride height width)) := by
  rw [transposeMatrices, ← List.flatMap_id, List.flatMap_assoc]
  apply List.Perm.flatMap_left
  intro m _
  rw [List.flatMap_id]
  exact transpose16_elements memory (data + 2 * offsetOf stack m) colStride _ height width

/-- The threads write the elements of every matrix. -/
theorem transposeStack_perm (matrices : Nat) :
    (transposeStack memory data stack colStride (8 * height) (8 * width) matrices).flatten.Perm
      ((List.range matrices).flatMap (matrix memory data stack colStride height width)) := by
  unfold transposeStack
  extract_lets transposes numThreads
  split
  case isTrue =>
    rw [List.range_eq_range']
    exact transposeMatrices_perm memory data stack colStride height width 0 matrices
  case isFalse =>
    have monotone : Monotone fun t => matrices * t / numThreads := fun _ _ le =>
      Nat.div_le_div_right (Nat.mul_le_mul_left matrices le)
    have all : matrices * numThreads / numThreads = matrices := by
      rcases Nat.eq_zero_or_pos numThreads with none | some
      · have empty : matrices = 0 := by
          simp only [numThreads] at none
          split at none <;> omega
        rw [empty, Nat.zero_mul, Nat.zero_div]
      · exact Nat.mul_div_cancel matrices some
    have bands := flatMap_bands monotone numThreads
    simp only [Nat.mul_zero, Nat.zero_div, Nat.sub_zero, all, ← List.range_eq_range'] at bands
    rw [← bands, List.flatMap_assoc, ← List.flatMap_def]
    apply List.Perm.flatMap_left
    intro t _
    exact transposeMatrices_perm memory data stack colStride height width _ _

/-- The elements of a stack, in row-major order. -/
theorem matrices_eq (matrices : Nat) {cols rows : Dim} (isRows : rows.size = 8 * height)
    (isCols : cols.size = 8 * width) (unit : rows.stride = 1) :
    ((List.range matrices).flatMap (matrix memory data stack cols.stride height width)) =
      (List.range (matrices * (8 * height * (8 * width)))).flatMap fun k =>
        (run memory data (cols :: rows :: stack) 1 2 k).zipIdx (k * (1 * 2)) := by
  rw [flatMap_range_mul]
  apply List.flatMap_congr
  intro m _
  rw [matrix, flatMap_range_mul (8 * height) (8 * width)]
  apply List.flatMap_congr
  intro r row
  apply List.flatMap_congr
  intro c column
  have below : c < 8 * width := List.mem_range.mp column
  have below' : r < 8 * height := List.mem_range.mp row
  have number : m * (8 * height * (8 * width)) + (r * (8 * width) + c) =
      8 * width * (8 * height * m + r) + c := by ring
  have offset : offsetOf (cols :: rows :: stack)
      (m * (8 * height * (8 * width)) + (r * (8 * width) + c)) =
        c * cols.stride + (r + offsetOf stack m) := by
    simp only [offsetOf, isCols, isRows, unit, number, Nat.mul_add_mod, Nat.mod_eq_of_lt below,
      Nat.mul_add_div (Nat.zero_lt_of_lt below), Nat.div_eq_of_lt below, Nat.add_zero,
      Nat.mod_eq_of_lt below', Nat.mul_add_div (Nat.zero_lt_of_lt below'),
      Nat.div_eq_of_lt below', Int.mul_one]
  rw [element, run, offset, Nat.add_assoc]
  congr 2
  ring

end

/-- Writes of different cells do not see each other. -/
theorem write_independent :
    Independent (fun place : Nat => place) (fun cell : Cell => cell.2) write where
  frame cell buffer place other := Function.update_of_ne other ..
  reads cell buffer other _ place own := by
    subst own
    rw [write, write, Function.update_self, Function.update_self]

/-- Cells that are a list numbered by place leave the list, in whatever order they are written. -/
theorem foldl_write {contents : List UInt8} {order : List Cell}
    (perm : order.Perm contents.zipIdx) (buffer : Nat → UInt8) :
    (List.range contents.length).map
      (order.foldl (fun buffer cell => write cell buffer) buffer) = contents := by
  have distinct : (order.map Prod.snd).Nodup := by
    rw [(perm.map Prod.snd).nodup_iff, List.zipIdx_map_snd]
    exact List.nodup_range'
  apply List.ext_getElem
  · rw [List.length_map, List.length_range]
  · intro place _ within
    rw [List.getElem_map, List.getElem_range]
    have member : (contents[place], place) ∈ order :=
      perm.mem_iff.mpr (List.mem_zipIdx_iff_getElem?.mpr (List.getElem?_eq_getElem within))
    rw [write_independent.foldl_at distinct buffer member rfl, write, Function.update_self]

theorem size_pos {shape : List Dim} (nonempty : getNumElements shape ≠ 0) :
    ∀ dim ∈ shape, 0 < dim.size := by
  intro dim member
  apply Nat.pos_of_ne_zero
  intro zero
  exact nonempty (List.prod_eq_zero (List.mem_map.mpr ⟨dim, member, zero⟩))

section

variable (memory : Memory) (data : Int)
include memory data

theorem length_elementwise (shape : List Dim) (itemsize : Nat) :
    (elementwise memory data shape itemsize).length = getNumElements shape * itemsize := by
  have offsets := congrArg List.length (rowMajor_reverse shape.reverse)
  rw [List.reverse_reverse, List.length_map, List.length_range, getNumElements_reverse] at offsets
  simp only [elementwise, List.length_flatMap, length_bytes, List.map_const', List.sum_replicate_nat,
    offsets]

/-- The loop over all runs. -/
theorem copyRuns_all {shape dims : List Dim} {runElements itemsize : Nat}
    (suffix : denseSuffix shape.reverse 1 = (dims, runElements))
    (nonempty : getNumElements shape * itemsize ≠ 0) (fuel : Nat) :
    copyRuns memory data dims (runElements * itemsize) itemsize (getNumElements shape * itemsize)
        fuel 0 (dims.map fun _ => 0) =
      if getNumElements dims ≤ fuel then some (elementwise memory data shape itemsize).zipIdx
      else none := by
  have copy := elementwise_eq memory data shape itemsize
  have elements := denseSuffix_elements shape.reverse 1
  rw [suffix] at copy elements
  rw [getNumElements_reverse, Nat.mul_one] at elements
  rw [← elements, Nat.mul_assoc] at nonempty
  have positive := size_pos (Nat.ne_of_gt (Nat.pos_of_ne_zero (left_ne_zero_of_mul nonempty)))
  have step := Nat.pos_of_ne_zero (right_ne_zero_of_mul nonempty)
  have all := copyRuns_eq memory data positive step fuel (Nat.zero_le _)
  have uniform (k : Nat) :
      (run memory data dims runElements itemsize k).length = runElements * itemsize :=
    length_bytes ..
  have numbered := zipIdx_flatMap_range' uniform 0 (getNumElements dims)
  rw [Nat.zero_mul, ← List.range_eq_range', ← copy] at numbered
  rw [Nat.zero_mul, Nat.sub_zero, digits_zero, ← List.range_eq_range', ← numbered] at all
  rw [← elements, Nat.mul_assoc]
  exact all

/-- The transposes of a stack write its elements. -/
theorem transposeStack_elementwise {shape stack : List Dim} {cols rows : Dim}
    (suffix : denseSuffix shape.reverse 1 = (cols :: rows :: stack, 1))
    (nonempty : getNumElements shape * 2 ≠ 0) (unit : rows.stride = 1) (isRows : rows.size % 8 = 0)
    (isCols : cols.size % 8 = 0) :
    (transposeStack memory data stack cols.stride rows.size cols.size
      (getNumElements shape * 2 / 2 / (rows.size * cols.size))).flatten.Perm
        (elementwise memory data shape 2).zipIdx := by
  obtain ⟨height, isHeight⟩ := Nat.dvd_of_mod_eq_zero isRows
  obtain ⟨width, isWidth⟩ := Nat.dvd_of_mod_eq_zero isCols
  have copy := elementwise_eq memory data shape 2
  have elements := denseSuffix_elements shape.reverse 1
  rw [suffix] at copy elements
  rw [getNumElements_reverse, Nat.mul_one, Nat.mul_one, getNumElements_cons, getNumElements_cons,
    ← Nat.mul_assoc, Nat.mul_comm, Nat.mul_comm cols.size] at elements
  have positive : 0 < rows.size * cols.size := by
    apply Nat.pos_of_ne_zero
    intro zero
    rw [zero, Nat.mul_zero] at elements
    rw [← elements] at nonempty
    exact nonempty rfl
  have uniform (k : Nat) : (run memory data (cols :: rows :: stack) 1 2 k).length = 1 * 2 :=
    length_bytes ..
  have numbered := zipIdx_flatMap_range' uniform 0 (getNumElements (cols :: rows :: stack))
  rw [Nat.zero_mul, ← List.range_eq_range', ← copy, getNumElements_cons, getNumElements_cons,
    ← Nat.mul_assoc, Nat.mul_comm _ (getNumElements stack), Nat.mul_comm cols.size, isHeight,
    isWidth] at numbered
  rw [Nat.mul_div_cancel _ (show 0 < 2 by decide), ← elements, Nat.mul_div_cancel _ positive,
    isHeight, isWidth, numbered,
    ← matrices_eq memory data stack height width (getNumElements stack) isHeight isWidth unit]
  exact transposeStack_perm memory data stack cols.stride height width (getNumElements stack)

/-- What the threads write together is the element-wise copy, numbered by place. -/
theorem gatherContiguousBytes_perm (shape : List Dim) (itemsize : Nat) :
    ∃ threads : List (List Cell),
      (∃ fuel, gatherContiguousBytes fuel memory data shape itemsize = some threads) ∧
      (∀ fuel other, gatherContiguousBytes fuel memory data shape itemsize = some other →
        other = threads) ∧
      threads.flatten.Perm (elementwise memory data shape itemsize).zipIdx := by
  unfold gatherContiguousBytes
  by_cases empty : getNumElements shape * itemsize = 0
  · have nothing : elementwise memory data shape itemsize = [] :=
      List.eq_nil_of_length_eq_zero ((length_elementwise ..).trans empty)
    simp only [if_pos empty, nothing]
    exact ⟨[], ⟨0, rfl⟩, fun _ _ same => (Option.some.inj same).symm, List.Perm.refl _⟩
  · simp only [if_neg empty]
    generalize suffix : denseSuffix shape.reverse 1 = result
    obtain ⟨dims, runElements⟩ := result
    simp only [copyRuns_all memory data suffix empty]
    -- The loop over the runs ends when it is given a round for each run.
    have runs : ∃ threads : List (List Cell),
        (∃ fuel, Option.map ([·]) (if getNumElements dims ≤ fuel then
          some (elementwise memory data shape itemsize).zipIdx else none) = some threads) ∧
        (∀ fuel other, Option.map ([·]) (if getNumElements dims ≤ fuel then
          some (elementwise memory data shape itemsize).zipIdx else none) = some other →
            other = threads) ∧
        threads.flatten.Perm (elementwise memory data shape itemsize).zipIdx := by
      refine ⟨[(elementwise memory data shape itemsize).zipIdx], ⟨getNumElements dims, ?_⟩, ?_, ?_⟩
      · rw [if_pos (Nat.le_refl _), Option.map_some]
      · intro fuel other same
        split at same
        · exact (Option.some.inj same).symm
        · contradiction
      · rw [List.flatten_singleton]
    match dims, suffix, runs with
    | [], _, runs => exact runs
    | [_], _, runs => exact runs
    | cols :: rows :: stack, suffix, runs =>
      simp only
      split
      case isFalse => exact runs
      case isTrue transposed =>
        obtain ⟨rfl, rfl, unit, isRows, isCols⟩ := transposed
        exact ⟨_, ⟨0, rfl⟩, fun _ _ same => (Option.some.inj same).symm,
          transposeStack_elementwise memory data suffix empty unit isRows isCols⟩

/-- A gathered buffer is the element-wise copy: the loops end, every byte of the output is written
once by one thread, and the buffer holds the copy in whatever order the threads write. -/
theorem gather_elementwise (shape : List Dim) (itemsize : Nat) :
    ∃ threads : List (List Cell),
      (∃ fuel, gatherContiguousBytes fuel memory data shape itemsize = some threads) ∧
      (∀ fuel other, gatherContiguousBytes fuel memory data shape itemsize = some other →
        other = threads) ∧
      (threads.flatten.map Prod.snd).Perm (List.range (getNumElements shape * itemsize)) ∧
      ∀ order : List Cell, order.Perm threads.flatten → ∀ buffer : Nat → UInt8,
        (List.range (getNumElements shape * itemsize)).map
          (order.foldl (fun buffer cell => write cell buffer) buffer) =
            elementwise memory data shape itemsize := by
  obtain ⟨threads, ends, only, perm⟩ := gatherContiguousBytes_perm memory data shape itemsize
  refine ⟨threads, ends, only, ?_, ?_⟩
  · have places := perm.map Prod.snd
    rw [List.zipIdx_map_snd, length_elementwise, ← List.range_eq_range'] at places
    exact places
  · intro order reordered buffer
    rw [← length_elementwise memory data shape itemsize]
    exact foldl_write (reordered.trans perm) buffer

end

end Libtt.HostCopy

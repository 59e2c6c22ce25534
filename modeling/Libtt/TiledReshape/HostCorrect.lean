import Libtt.Foundation.BitFields
import Libtt.TiledReshape.Windows

/-!
# The plan that the host packs

No field of a segment's words overflows, so that the kernel decodes the segment from them, and the
bitmaps have the windows that the segments of a page touch.
-/
namespace Libtt.TiledReshape

open Libtt.Foundation

namespace Reshape

variable {Core : Type} (reshape : Reshape Core)

/-- The segments of an output page. -/
def segments (page : Nat) : List Segment :=
  (reshape.reshapeMapOutputPage page).filter (·.numElements ≠ 0)

def inputByte (segment : Segment) : Nat := segment.inputPageOffset * reshape.elementSize

def outputByte (segment : Segment) : Nat := segment.outputPageOffset * reshape.elementSize

def bytes (segment : Segment) : Nat := segment.numElements * reshape.elementSize

/-- The segment is within its pages. -/
structure Inside (segment : Segment) : Prop where
  page : segment.inputPageIndex < reshape.numInputPages
  input : reshape.inputByte segment + reshape.bytes segment ≤ reshape.tileBytes
  output : reshape.outputByte segment + reshape.bytes segment ≤ reshape.tileBytes

/-- How many output pages the cores have. -/
def numOutputPages : Nat := (reshape.allCores.map reshape.numPages).sum

/-- Sizes as the formats and the hardware have them, and segments that make up the pages. -/
structure Formed : Prop where
  alignment_pos : 0 < reshape.alignment
  elementSize_pos : 0 < reshape.elementSize
  /-- The tiles of no format have more than 8 bytes for each of 32x32 elements. -/
  tile_size : reshape.tileBytes ≤ 8192
  /-- The input has an address for each byte. -/
  addresses : reshape.numInputPages * reshape.tileBytes < 2 ^ 64
  inside : ∀ page < reshape.numOutputPages, ∀ segment ∈ reshape.segments page,
    reshape.Inside segment
  disjoint : ∀ page < reshape.numOutputPages, (reshape.segments page).Pairwise fun first second =>
    reshape.outputByte first + reshape.bytes first ≤ reshape.outputByte second ∨
      reshape.outputByte second + reshape.bytes second ≤ reshape.outputByte first

/-- The segments of a core, with the pages of the core that they are in. -/
def entries (startPage numPages : Nat) : List (Nat × Segment) :=
  (List.range numPages).flatMap fun j => (reshape.segments (startPage + j)).map (j, ·)

/-- The window of a byte of an output page has a byte of the segment. -/
def Touches (segment : Segment) (w : Nat) : Prop :=
  ∃ i < reshape.bytes segment, (reshape.outputByte segment + i) / reshape.alignment = w

variable {reshape}

theorem mem_entries {startPage numPages : Nat} {entry : Nat × Segment} :
    entry ∈ reshape.entries startPage numPages ↔
      entry.1 < numPages ∧ entry.2 ∈ reshape.segments (startPage + entry.1) := by
  obtain ⟨j, segment⟩ := entry
  simp [entries, List.mem_flatMap]

theorem word_eq {number : Nat} (fits : number < 2 ^ 32) : word number = number :=
  Nat.mod_eq_of_lt fits

section Inside

variable {segment : Segment} (formed : reshape.Formed) (inside : reshape.Inside segment)
include formed inside

theorem inBegin_eq : reshape.inBegin segment = reshape.inputByte segment := by
  apply word_eq
  have below := inside.input
  have tile := formed.tile_size
  rw [inputByte] at below
  omega

theorem outBegin_eq : reshape.outBegin segment = reshape.outputByte segment := by
  apply word_eq
  have below := inside.output
  have tile := formed.tile_size
  rw [outputByte] at below
  omega

theorem size_eq : reshape.size segment = reshape.bytes segment := by
  apply word_eq
  have below := inside.output
  have tile := formed.tile_size
  rw [bytes] at below
  omega

end Inside

/-- What the checks of the host say, once there is a program. -/
structure Checked (reshape : Reshape Core) : Prop where
  maxPages : reshape.maxPages ≤ 8
  alignment : reshape.alignment ≤ 64
  divides : reshape.tileBytes =
    windowsPerPage reshape.tileBytes reshape.alignment * reshape.alignment
  windows : reshape.numInputPages * windowsPerPage reshape.tileBytes reshape.alignment < 2 ^ 32

/-- The first byte of the segment is in a window of its page. -/
theorem window_lt_windowsPerPage (checked : reshape.Checked) {segment : Segment}
    (inside : reshape.Inside segment) (some : 0 < reshape.bytes segment) :
    reshape.inputByte segment / reshape.alignment <
      windowsPerPage reshape.tileBytes reshape.alignment := by
  have below := inside.input
  apply Nat.div_lt_of_lt_mul
  rw [Nat.mul_comm, ← checked.divides]
  omega

section

variable (formed : reshape.Formed) (checked : reshape.Checked) {segment : Segment}
  (inside : reshape.Inside segment) (some : 0 < reshape.bytes segment)
include formed checked inside some

/-- The window word has the input page and the window in it. -/
theorem windowWord_eq :
    reshape.windowWord segment =
        windowsPerPage reshape.tileBytes reshape.alignment * segment.inputPageIndex +
          reshape.inputByte segment / reshape.alignment ∧
      reshape.windowWord segment < 2 ^ 32 := by
  have window := window_lt_windowsPerPage checked inside some
  have all : (segment.inputPageIndex + 1) * windowsPerPage reshape.tileBytes reshape.alignment ≤
      reshape.numInputPages * windowsPerPage reshape.tileBytes reshape.alignment :=
    Nat.mul_le_mul_right _ inside.page
  have total := checked.windows
  rw [Nat.succ_mul] at all
  rw [windowWord, inBegin_eq formed inside, Nat.mul_comm _ segment.inputPageIndex]
  generalize segment.inputPageIndex * windowsPerPage reshape.tileBytes reshape.alignment = pages
    at all ⊢
  rw [word_eq (show pages < 2 ^ 32 by omega), word_eq (by omega)]
  exact ⟨rfl, by omega⟩

/-- The kernel finds both in it. -/
theorem windowWord_decoded :
    reshape.windowWord segment / windowsPerPage reshape.tileBytes reshape.alignment =
        segment.inputPageIndex ∧
      reshape.windowWord segment % windowsPerPage reshape.tileBytes reshape.alignment =
        reshape.inputByte segment / reshape.alignment := by
  have window := window_lt_windowsPerPage checked inside some
  rw [(windowWord_eq formed checked inside some).1]
  constructor
  · rw [Nat.mul_add_div (Nat.zero_lt_of_lt window), Nat.div_eq_of_lt window, Nat.add_zero]
  · rw [Nat.mul_add_mod, Nat.mod_eq_of_lt window]

end

/-- Three fields in one word. -/
theorem pack_eq {offset page size : Nat} (low : offset < 2 ^ 6) (middle : page < 2 ^ 16)
    (high : size < 2 ^ 8) :
    offset ||| word (page <<< 6) ||| word (size <<< 22) =
      size * 2 ^ 22 + (page * 2 ^ 6 + offset) := by
  have pages : page <<< 6 = page * 2 ^ 6 := Nat.shiftLeft_eq _ _
  have sizes : size <<< 22 = size * 2 ^ 22 := Nat.shiftLeft_eq _ _
  rw [pages, sizes, word_eq (by omega), word_eq (by omega), Nat.lor_comm offset,
    or_eq_add page low, Nat.lor_comm, or_eq_add size (by omega)]

theorem unpack_eq {offset page size : Nat} (low : offset < 2 ^ 6) (middle : page < 2 ^ 16) :
    let packed := size * 2 ^ 22 + (page * 2 ^ 6 + offset)
    packed &&& 0x3F = offset ∧ packed >>> 6 &&& 0xFFFF = page ∧ packed >>> 22 = size := by
  have mask (number bits : Nat) : number &&& (2 ^ bits - 1) = number % 2 ^ bits :=
    Nat.and_two_pow_sub_one_eq_mod number bits
  have lowMask := mask (size * 2 ^ 22 + (page * 2 ^ 6 + offset)) 6
  have pageMask := mask ((size * 2 ^ 22 + (page * 2 ^ 6 + offset)) >>> 6) 16
  rw [Nat.shiftRight_eq_div_pow] at pageMask
  refine ⟨?_, ?_, ?_⟩
  · show _ &&& (2 ^ 6 - 1) = offset
    omega
  · show _ >>> 6 &&& (2 ^ 16 - 1) = page
    rw [Nat.shiftRight_eq_div_pow]
    omega
  · rw [Nat.shiftRight_eq_div_pow]
    omega

/-- The packed word has its three fields, none of which overflows. -/
theorem packedWord_eq (formed : reshape.Formed) (checked : reshape.Checked) {segment : Segment}
    (inside : reshape.Inside segment) (some : 0 < reshape.bytes segment) {j : Nat}
    (less : j < reshape.maxPages) (fits : reshape.inputByte segment % reshape.alignment +
      reshape.bytes segment ≤ reshape.alignment) :
    let offset := reshape.inputByte segment % reshape.alignment
    let page := j * reshape.tileBytes + reshape.outputByte segment
    offset < 2 ^ 6 ∧ page < 2 ^ 16 ∧ reshape.bytes segment < 2 ^ 8 ∧
      reshape.packedWord j segment = reshape.bytes segment * 2 ^ 22 + (page * 2 ^ 6 + offset) := by
  have tile := formed.tile_size
  have alignment := checked.alignment
  have output := inside.output
  have pages := checked.maxPages
  have rows : j * reshape.tileBytes ≤ 7 * reshape.tileBytes := Nat.mul_le_mul_right _ (by omega)
  have low : reshape.inputByte segment % reshape.alignment < 2 ^ 6 := by omega
  have middle : j * reshape.tileBytes + reshape.outputByte segment < 2 ^ 16 := by omega
  have high : reshape.bytes segment < 2 ^ 8 := by omega
  refine ⟨low, middle, high, ?_⟩
  rw [packedWord, inBegin_eq formed inside, outBegin_eq formed inside, size_eq formed inside,
    word_eq (show j * reshape.tileBytes < 2 ^ 32 by omega),
    word_eq (show j * reshape.tileBytes + reshape.outputByte segment < 2 ^ 32 by omega)]
  exact pack_eq low middle high

/-- Whether a bit of the bitmaps is set. -/
def marked (reshape : Reshape Core) (bitmaps : List Nat) (j w : Nat) : Bool :=
  (bitmaps.getD (j * bitmapWords reshape.tileBytes reshape.alignment + w / 32) 0).testBit (w % 32)

theorem div_lt_bitmapWords {tileBytes alignment w : Nat}
    (less : w < windowsPerPage tileBytes alignment) : w / 32 < bitmapWords tileBytes alignment := by
  unfold bitmapWords
  omega

/-- A bit has one place in the bitmaps. -/
theorem marked_touch {bitmaps : List Nat} {j w j' w' : Nat}
    (inside : j * bitmapWords reshape.tileBytes reshape.alignment + w / 32 < bitmaps.length)
    (less : w / 32 < bitmapWords reshape.tileBytes reshape.alignment)
    (less' : w' / 32 < bitmapWords reshape.tileBytes reshape.alignment) :
    reshape.marked (reshape.touch j bitmaps w) j' w' = true ↔
      reshape.marked bitmaps j' w' = true ∨ j' = j ∧ w' = w := by
  have bit : word (1 <<< (w % 32)) = 2 ^ (w % 32) := by
    rw [Nat.shiftLeft_eq, Nat.one_mul]
    apply word_eq
    exact Nat.pow_lt_pow_right (by decide) (Nat.mod_lt _ (by decide))
  unfold marked touch
  rw [bit, List.getD_eq_getElem?_getD, List.getD_eq_getElem?_getD]
  generalize bitmapWords reshape.tileBytes reshape.alignment = words at inside less less' ⊢
  by_cases place : j * words + w / 32 = j' * words + w' / 32
  · have same : j' = j := by
      have positive : 0 < words := by omega
      have rows : (j * words + w / 32) / words = (j' * words + w' / 32) / words :=
        congrArg (· / words) place
      rw [Nat.mul_comm, Nat.mul_add_div positive, Nat.mul_comm, Nat.mul_add_div positive,
        Nat.div_eq_of_lt less, Nat.div_eq_of_lt less'] at rows
      omega
    subst same
    rw [← place, List.getElem?_modify_eq, List.getElem?_eq_getElem inside]
    simp only [Option.map_eq_map, Option.map_some, Option.getD_some, Nat.testBit_or,
      Nat.testBit_two_pow, Bool.or_eq_true, decide_eq_true_eq]
    apply or_congr_right
    rw [true_and]
    omega
  · have other : ¬(j' = j ∧ w' = w) := by
      rintro ⟨rfl, rfl⟩
      exact place rfl
    rw [List.getElem?_modify_ne _ _ place, or_iff_left other]

theorem length_foldl_touch (j : Nat) (windows bitmaps : List Nat) :
    (windows.foldl (reshape.touch j) bitmaps).length = bitmaps.length := by
  induction windows generalizing bitmaps with
  | nil => rfl
  | cons w windows ih => rw [List.foldl_cons, ih, touch, List.length_modify]

theorem marked_foldl_touch {j numPages : Nat} (less : j < numPages) {windows bitmaps : List Nat}
    (length : bitmaps.length = numPages * bitmapWords reshape.tileBytes reshape.alignment)
    (inside : ∀ w ∈ windows, w < windowsPerPage reshape.tileBytes reshape.alignment) {j' w' : Nat}
    (less' : w' < windowsPerPage reshape.tileBytes reshape.alignment) :
    reshape.marked (windows.foldl (reshape.touch j) bitmaps) j' w' = true ↔
      reshape.marked bitmaps j' w' = true ∨ j' = j ∧ w' ∈ windows := by
  induction windows generalizing bitmaps with
  | nil => simp
  | cons w windows ih =>
    have below : w / 32 < bitmapWords reshape.tileBytes reshape.alignment :=
      div_lt_bitmapWords (inside w List.mem_cons_self)
    have rows : (j + 1) * bitmapWords reshape.tileBytes reshape.alignment ≤ bitmaps.length :=
      length ▸ Nat.mul_le_mul_right _ less
    rw [Nat.succ_mul] at rows
    rw [List.foldl_cons, ih (by rw [touch, List.length_modify, length])
      (fun w member => inside w (List.mem_cons_of_mem _ member)),
      marked_touch (by omega) below (div_lt_bitmapWords less'), List.mem_cons, and_or_left, or_assoc]

theorem mem_touchedWindows (formed : reshape.Formed) {segment : Segment}
    (inside : reshape.Inside segment) (some : 0 < reshape.bytes segment) {w : Nat} :
    w ∈ reshape.touchedWindows segment ↔ reshape.Touches segment w := by
  have positive := formed.alignment_pos
  unfold touchedWindows Touches
  rw [outBegin_eq formed inside, size_eq formed inside, List.mem_range'_1]
  constructor
  · rintro ⟨first, last⟩
    have isLast : w ≤ (reshape.outputByte segment + reshape.bytes segment - 1) /
        reshape.alignment := by omega
    rw [Nat.le_div_iff_mul_le positive] at isLast
    -- The first byte of the segment in the window.
    refine ⟨w * reshape.alignment - reshape.outputByte segment, by omega, ?_⟩
    by_cases before : w * reshape.alignment ≤ reshape.outputByte segment
    · rw [Nat.sub_eq_zero_of_le before, Nat.add_zero]
      apply Nat.le_antisymm first
      exact (Nat.le_div_iff_mul_le positive).mpr before
    · rw [Nat.add_sub_cancel' (by omega), Nat.mul_div_cancel _ positive]
  · rintro ⟨i, less, rfl⟩
    have first : reshape.outputByte segment / reshape.alignment ≤
        (reshape.outputByte segment + i) / reshape.alignment := Nat.div_le_div_right (by omega)
    have last : (reshape.outputByte segment + i) / reshape.alignment ≤
        (reshape.outputByte segment + reshape.bytes segment - 1) / reshape.alignment :=
      Nat.div_le_div_right (by omega)
    omega

/-- What a plan has of the segments that are planned. -/
structure Planned (reshape : Reshape Core) (start : CorePlan Core) (done : List (Nat × Segment))
    (plan : CorePlan Core) : Prop where
  core : plan.core = start.core
  startPage : plan.startPage = start.startPage
  numPages : plan.numPages = start.numPages
  segments : plan.segments = done.flatMap fun entry =>
    [reshape.windowWord entry.2, reshape.packedWord entry.1 entry.2]
  length : plan.bitmaps.length =
    start.numPages * bitmapWords reshape.tileBytes reshape.alignment
  bitmaps : ∀ j, ∀ w < windowsPerPage reshape.tileBytes reshape.alignment,
    reshape.marked plan.bitmaps j w = true ↔
      ∃ entry ∈ done, entry.1 = j ∧ reshape.Touches entry.2 w
  fits : ∀ entry ∈ done, reshape.inputByte entry.2 % reshape.alignment + reshape.bytes entry.2 ≤
    reshape.alignment

theorem bytes_pos (formed : reshape.Formed) {segment : Segment} (some : segment.numElements ≠ 0) :
    0 < reshape.bytes segment :=
  Nat.mul_pos (Nat.pos_of_ne_zero some) formed.elementSize_pos

theorem inside_of_entry (formed : reshape.Formed) {startPage numPages : Nat}
    (pages : startPage + numPages ≤ reshape.numOutputPages) {entry : Nat × Segment}
    (member : entry ∈ reshape.entries startPage numPages) :
    entry.1 < numPages ∧ reshape.Inside entry.2 ∧ 0 < reshape.bytes entry.2 := by
  obtain ⟨less, isSegment⟩ := mem_entries.mp member
  refine ⟨less, formed.inside _ (by omega) _ isSegment, bytes_pos formed ?_⟩
  simpa using (List.mem_filter.mp isSegment).2

section

variable (formed : reshape.Formed) (checked : reshape.Checked) {start plan next : CorePlan Core}
  {done : List (Nat × Segment)} {j : Nat} (less : j < start.numPages)
include formed checked less

/-- One segment more. -/
theorem planned_segment {segment : Segment}
    (inside : segment.numElements ≠ 0 → reshape.Inside segment)
    (planned : reshape.Planned start done plan)
    (isNext : reshape.planSegment j plan segment = some next) :
    reshape.Planned start (done ++ ([segment].filter (·.numElements ≠ 0)).map (j, ·)) next := by
  unfold planSegment at isNext
  by_cases none : segment.numElements = 0
  · rw [if_pos none] at isNext
    rw [← Option.some.inj isNext, List.filter_cons_of_neg (by simpa using none), List.filter_nil,
      List.map_nil, List.append_nil]
    exact planned
  · rw [if_neg none] at isNext
    have within := inside none
    have positive := bytes_pos formed none
    split at isNext
    · cases isNext
    · rename_i fits
      rw [← Option.some.inj isNext, List.filter_cons_of_pos (by simpa using none), List.filter_nil,
        List.map_singleton]
      rw [inBegin_eq formed within, size_eq formed within] at fits
      exact {
        core := planned.core
        startPage := planned.startPage
        numPages := planned.numPages
        segments := by
          rw [List.flatMap_append, List.flatMap_singleton, ← planned.segments]
        length := by
          rw [length_foldl_touch, planned.length]
        bitmaps := by
          intro j' w' less'
          have windows : ∀ w ∈ reshape.touchedWindows segment,
              w < windowsPerPage reshape.tileBytes reshape.alignment := by
            intro w member
            obtain ⟨i, below, rfl⟩ := (mem_touchedWindows formed within positive).mp member
            apply Nat.div_lt_of_lt_mul
            rw [Nat.mul_comm, ← checked.divides]
            have output := within.output
            omega
          rw [marked_foldl_touch less planned.length windows less', planned.bitmaps j' w' less',
            mem_touchedWindows formed within positive]
          simp only [List.mem_append, List.mem_singleton, or_and_right, exists_or, exists_eq_left,
            eq_comm]
        fits := by
          intro entry member
          cases List.mem_append.mp member with
          | inl earlier => exact planned.fits entry earlier
          | inr isLast =>
            rw [List.mem_singleton.mp isLast]
            have tile := formed.tile_size
            have output := within.output
            have small := Nat.mod_lt (reshape.inputByte segment) formed.alignment_pos
            have alignment := checked.alignment
            rwa [word_eq (by omega), Nat.not_lt] at fits }

/-- The segments of a page. -/
theorem planned_page {segments : List Segment}
    (inside : ∀ segment ∈ segments, segment.numElements ≠ 0 → reshape.Inside segment)
    (planned : reshape.Planned start done plan)
    (isNext : segments.foldlM (reshape.planSegment j) plan = some next) :
    reshape.Planned start (done ++ (segments.filter (·.numElements ≠ 0)).map (j, ·)) next := by
  induction segments generalizing plan done with
  | nil =>
    obtain rfl := Option.some.inj isNext
    simpa using planned
  | cons segment segments ih =>
    obtain ⟨first, isFirst, rest⟩ := Option.bind_eq_some_iff.mp isNext
    have one := planned_segment formed checked less (inside segment List.mem_cons_self) planned
      isFirst
    have all := ih (fun other member => inside other (List.mem_cons_of_mem _ member)) one rest
    rwa [List.append_assoc, ← List.map_append, ← List.filter_append, List.singleton_append] at all

end

/-- The pages of a core. -/
theorem planned_pages (formed : reshape.Formed) (checked : reshape.Checked)
    {start next : CorePlan Core} {page count : Nat} (within : count ≤ start.numPages)
    (inside : ∀ j < count, ∀ segment ∈ reshape.segments (page + j), reshape.Inside segment)
    (planned : reshape.Planned start [] start)
    (isNext : (List.range count).foldlM (reshape.planPage page) start = some next) :
    reshape.Planned start (reshape.entries page count) next := by
  induction count generalizing next with
  | zero =>
    obtain rfl := Option.some.inj isNext
    exact planned
  | succ count ih =>
    rw [List.range_succ, List.foldlM_append] at isNext
    obtain ⟨plan, isPlan, rest⟩ := Option.bind_eq_some_iff.mp isNext
    obtain ⟨last, isLast, same⟩ := Option.bind_eq_some_iff.mp rest
    obtain rfl := Option.some.inj same
    have earlier := ih (by omega) (fun j less => inside j (by omega)) isPlan
    have all := planned_page formed checked (Nat.lt_of_succ_le within)
      (fun segment member some => inside count (Nat.lt_succ_self count) segment
        (List.mem_filter.mpr ⟨member, by simpa using some⟩)) earlier isLast
    rw [entries, List.range_succ, List.flatMap_append, List.flatMap_singleton]
    exact all

/-- Nothing is planned at first. -/
theorem planned_nil (core : Core) (page numPages : Nat) :
    let start : CorePlan Core := {
      core
      startPage := page
      numPages
      segments := []
      bitmaps := List.replicate (numPages * bitmapWords reshape.tileBytes reshape.alignment) 0 }
    reshape.Planned start [] start where
  core := rfl
  startPage := rfl
  numPages := rfl
  segments := rfl
  length := List.length_replicate
  bitmaps j w _ := by
    rw [marked, List.getD_eq_getElem?_getD, List.getElem?_getD_replicate_default_eq,
      Nat.zero_testBit]
    simp
  fits _ member := nomatch member

theorem numPages_le (core : Core) : reshape.numPages core ≤ reshape.maxPages := by
  unfold numPages maxPages
  split
  · exact le_max_left _ _
  · split
    · exact le_max_right _ _
    · exact Nat.zero_le _

/-- A plan of pages of the output, of one core. -/
structure IsPlan (reshape : Reshape Core) (plan : CorePlan Core) : Prop where
  pages : plan.startPage + plan.numPages ≤ reshape.numOutputPages
  numPages : plan.numPages ≤ reshape.maxPages
  planned : ∃ start, reshape.Planned start (reshape.entries plan.startPage plan.numPages) plan

theorem isPlan_of_planCore (formed : reshape.Formed) (checked : reshape.Checked) {core : Core}
    {page numPages : Nat} {plan : CorePlan Core}
    (isPlan : reshape.planCore core page numPages = some plan)
    (pages : page + numPages ≤ reshape.numOutputPages) (most : numPages ≤ reshape.maxPages) :
    plan.startPage = page ∧ plan.numPages = numPages ∧ reshape.IsPlan plan := by
  obtain ⟨last, isLast, rest⟩ := Option.bind_eq_some_iff.mp isPlan
  split at rest
  · cases rest
  · obtain rfl := Option.some.inj rest
    have planned := planned_pages formed checked (Nat.le_refl numPages)
      (fun j less => formed.inside (page + j) (by omega)) (planned_nil core page numPages) isLast
    have startPage := planned.startPage
    have isNumPages := planned.numPages
    refine ⟨startPage, isNumPages, ⟨?_, ?_, ?_⟩⟩
    · rwa [startPage, isNumPages]
    · rwa [isNumPages]
    · rw [startPage, isNumPages]
      exact ⟨_, planned⟩

/-- The plans of the cores, whose pages are one after the other and all that there are. -/
theorem planCores_eq (formed : reshape.Formed) (checked : reshape.Checked) {cores : List Core}
    {page : Nat} {plans : List (CorePlan Core)} (arePlans : reshape.planCores cores page = some plans)
    (pages : page + (cores.map reshape.numPages).sum ≤ reshape.numOutputPages) :
    (∀ plan ∈ plans, page ≤ plan.startPage ∧ reshape.IsPlan plan) ∧
      plans.Pairwise (fun first second => first.startPage + first.numPages ≤ second.startPage) ∧
      ∀ own, page ≤ own → own < page + (cores.map reshape.numPages).sum →
        ∃ plan ∈ plans, plan.startPage ≤ own ∧ own < plan.startPage + plan.numPages := by
  induction cores generalizing page plans with
  | nil =>
    obtain rfl := Option.some.inj arePlans
    refine ⟨nofun, .nil, ?_⟩
    intro own from_ below
    exact absurd below (Nat.not_lt.mpr from_)
  | cons core cores ih =>
    rw [List.map_cons, List.sum_cons] at pages ⊢
    unfold planCores at arePlans
    split at arePlans
    · rename_i none
      rw [none, Nat.zero_add] at pages ⊢
      exact ih arePlans pages
    · obtain ⟨plan, isPlan, rest⟩ := Option.bind_eq_some_iff.mp arePlans
      obtain ⟨later, areLater, same⟩ := Option.bind_eq_some_iff.mp rest
      obtain rfl := Option.some.inj same
      obtain ⟨start, count, formedPlan⟩ :=
        isPlan_of_planCore formed checked isPlan (by omega) (numPages_le core)
      obtain ⟨all, pairwise, covers⟩ := ih areLater (by omega)
      refine ⟨?_, ?_, ?_⟩
      · intro other member
        cases List.mem_cons.mp member with
        | inl isFirst => exact isFirst ▸ ⟨start.ge, formedPlan⟩
        | inr isLater =>
          have first := (all other isLater).1
          exact ⟨by omega, (all other isLater).2⟩
      · apply List.Pairwise.cons _ pairwise
        intro other member
        rw [start, count]
        exact (all other member).1
      · intro own first last
        by_cases inFirst : own < page + reshape.numPages core
        · exact ⟨plan, List.mem_cons_self, by omega, by omega⟩
        · obtain ⟨other, member, inside⟩ := covers own (by omega) (by omega)
          exact ⟨other, List.mem_cons_of_mem _ member, inside⟩

theorem length_resize (values : List Nat) (size : Nat) : (resize values size).length = size := by
  rw [resize, List.length_append, List.length_take, List.length_replicate]
  omega

theorem getD_resize (values : List Nat) {size index : Nat} (less : index < size) :
    (resize values size).getD index 0 = values.getD index 0 := by
  rw [resize, List.getD_eq_getElem?_getD, List.getD_eq_getElem?_getD]
  by_cases inside : index < values.length
  · rw [List.getElem?_append_left (by rw [List.length_take]; omega),
      List.getElem?_take_of_lt less]
  · rw [List.getElem?_append_right (by rw [List.length_take]; omega),
      List.getElem?_getD_replicate_default_eq, List.getElem?_eq_none (Nat.not_lt.mp inside)]
    rfl

theorem le_foldl_max {plans : List (CorePlan Core)} (most : Nat) :
    most ≤ plans.foldl (fun most plan => max most (plan.segments.length / 2)) most ∧
      ∀ plan ∈ plans, plan.segments.length / 2 ≤
        plans.foldl (fun most plan => max most (plan.segments.length / 2)) most := by
  induction plans generalizing most with
  | nil => exact ⟨Nat.le_refl _, nofun⟩
  | cons first plans ih =>
    obtain ⟨start, later⟩ := ih (max most (first.segments.length / 2))
    refine ⟨(le_max_left _ _).trans start, ?_⟩
    intro plan member
    cases List.mem_cons.mp member with
    | inl isFirst =>
      rw [isFirst]
      exact (le_max_right _ _).trans start
    | inr isLater => exact later plan isLater

section Arguments

variable {plan : CorePlan Core} {maxSegments maxPages : Nat}

/-- The words of the segments come first. -/
theorem getD_runArgs_segments (most : plan.segments.length ≤ 2 * maxSegments) {numVarargs index : Nat}
    (all : 2 * maxSegments ≤ numVarargs) (less : index < plan.segments.length) :
    (runArgs maxSegments numVarargs plan).varargs.getD index 0 = plan.segments.getD index 0 := by
  have inside : index < (resize plan.segments (2 * maxSegments)).length := by
    rw [length_resize]
    omega
  rw [runArgs, getD_resize _ (by omega), List.getD_append _ _ _ _ inside, getD_resize _ (by omega)]

/-- Then come the bitmaps. -/
theorem getD_runArgs_bitmaps {numVarargs index : Nat}
    (less : 2 * maxSegments + index < numVarargs) :
    (runArgs maxSegments numVarargs plan).varargs.getD (2 * maxSegments + index) 0 =
      plan.bitmaps.getD index 0 := by
  rw [runArgs, getD_resize _ less, List.getD_append_right _ _ _ _ (by rw [length_resize]; omega),
    length_resize, Nat.add_sub_cancel_left]

end Arguments

/-- Two words for each entry. -/
theorem getD_pairs {Entry : Type} {first second : Entry → Nat} {entries : List Entry} :
    (entries.flatMap fun entry => [first entry, second entry]).length = 2 * entries.length ∧
      ∀ s entry, entries[s]? = some entry →
        (entries.flatMap fun entry => [first entry, second entry]).getD (2 * s) 0 = first entry ∧
        (entries.flatMap fun entry => [first entry, second entry]).getD (2 * s + 1) 0 =
          second entry := by
  induction entries with
  | nil => exact ⟨rfl, fun _ _ none => nomatch none⟩
  | cons head entries ih =>
    rw [List.flatMap_cons]
    constructor
    · rw [List.length_append, ih.1, List.length_cons, List.length_cons, List.length_cons,
        List.length_nil]
      omega
    · intro s entry isEntry
      cases s with
      | zero =>
        obtain rfl := Option.some.inj isEntry
        exact ⟨rfl, rfl⟩
      | succ s => exact ih.2 s entry isEntry

/-- The arguments of a core are the plan of its pages, and the kernel reads it from them: no field
overflows, and each argument that is read is there. -/
structure PlanRead (reshape : Reshape Core) (artifacts : ProgramArtifacts Core)
    (args : KernelRunArgs Core) : Prop where
  pages : args.startOutputPage + args.numPages ≤ reshape.numOutputPages
  length : args.varargs.length = artifacts.numRuntimeVarargs
  numSegments : args.numSegments = (reshape.entries args.startOutputPage args.numPages).length
  maxSegments : args.numSegments ≤ artifacts.maxSegments
  room : args.numPages * reshape.tileBytes + artifacts.maxSegments * reshape.alignment +
    reshape.alignment ≤ artifacts.scratchpadSize
  reads : 2 * artifacts.maxSegments + args.numPages *
    bitmapWords reshape.tileBytes reshape.alignment ≤ args.varargs.length
  window : ∀ s entry, (reshape.entries args.startOutputPage args.numPages)[s]? = some entry →
    let window := args.varargs.getD (2 * s) 0
    let windows := windowsPerPage reshape.tileBytes reshape.alignment
    window < 2 ^ 32 ∧ window / windows = entry.2.inputPageIndex ∧
      window % windows = reshape.inputByte entry.2 / reshape.alignment
  packed : ∀ s entry, (reshape.entries args.startOutputPage args.numPages)[s]? = some entry →
    let packed := args.varargs.getD (2 * s + 1) 0
    let offset := reshape.inputByte entry.2 % reshape.alignment
    let page := entry.1 * reshape.tileBytes + reshape.outputByte entry.2
    offset < 2 ^ 6 ∧ page < 2 ^ 16 ∧ reshape.bytes entry.2 < 2 ^ 8 ∧ packed < 2 ^ 32 ∧
      packed &&& 0x3F = offset ∧ packed >>> 6 &&& 0xFFFF = page ∧
        packed >>> 22 = reshape.bytes entry.2
  fits : ∀ entry ∈ reshape.entries args.startOutputPage args.numPages,
    reshape.inputByte entry.2 % reshape.alignment + reshape.bytes entry.2 ≤ reshape.alignment
  touched : ∀ j < args.numPages, ∀ w < windowsPerPage reshape.tileBytes reshape.alignment,
    (args.varargs.getD (2 * artifacts.maxSegments + j *
        bitmapWords reshape.tileBytes reshape.alignment + w / 32) 0).testBit (w % 32) = true ↔
      ∃ segment ∈ reshape.segments (args.startOutputPage + j), reshape.Touches segment w

/-- What the artifacts have of the sizes. -/
structure Sized (reshape : Reshape Core) (artifacts : ProgramArtifacts Core) : Prop where
  tileSizeBytes : artifacts.tileSizeBytes = reshape.tileBytes
  alignment : artifacts.alignment = reshape.alignment

/-- The cores have different pages, and all that there are. -/
structure SplitsPages (reshape : Reshape Core) (artifacts : ProgramArtifacts Core) : Prop where
  distinct : artifacts.kernelRunArgs.Pairwise fun first second =>
    first.startOutputPage + first.numPages ≤ second.startOutputPage
  covers : ∀ page < reshape.numOutputPages, ∃ args ∈ artifacts.kernelRunArgs,
    args.startOutputPage ≤ page ∧ page < args.startOutputPage + args.numPages

/-- The words of each segment, in the arguments. -/
theorem getD_runArgs_words {plan : CorePlan Core} (isPlan : reshape.IsPlan plan)
    {maxSegments numVarargs : Nat} (most : plan.segments.length / 2 ≤ maxSegments)
    (all : 2 * maxSegments ≤ numVarargs) :
    plan.segments.length / 2 = (reshape.entries plan.startPage plan.numPages).length ∧
      ∀ s entry, (reshape.entries plan.startPage plan.numPages)[s]? = some entry →
        (runArgs maxSegments numVarargs plan).varargs.getD (2 * s) 0 =
            reshape.windowWord entry.2 ∧
          (runArgs maxSegments numVarargs plan).varargs.getD (2 * s + 1) 0 =
            reshape.packedWord entry.1 entry.2 := by
  obtain ⟨start, planned⟩ := isPlan.planned
  obtain ⟨pairs, words⟩ := @getD_pairs _ (fun entry : Nat × Segment => reshape.windowWord entry.2)
    (fun entry => reshape.packedWord entry.1 entry.2)
    (reshape.entries plan.startPage plan.numPages)
  rw [← planned.segments] at pairs words
  refine ⟨by omega, ?_⟩
  intro s entry isEntry
  have inside := (List.getElem?_eq_some_iff.mp isEntry).1
  rw [getD_runArgs_segments (by omega) all (by omega),
    getD_runArgs_segments (by omega) all (by omega)]
  exact words s entry isEntry

/-- The windows that are touched, in the arguments. -/
theorem testBit_runArgs {plan : CorePlan Core} (isPlan : reshape.IsPlan plan)
    {maxSegments numVarargs : Nat} (all : 2 * maxSegments +
      plan.numPages * bitmapWords reshape.tileBytes reshape.alignment ≤ numVarargs) {j w : Nat}
    (less : j < plan.numPages) (below : w < windowsPerPage reshape.tileBytes reshape.alignment) :
    ((runArgs maxSegments numVarargs plan).varargs.getD (2 * maxSegments + j *
        bitmapWords reshape.tileBytes reshape.alignment + w / 32) 0).testBit (w % 32) = true ↔
      ∃ segment ∈ reshape.segments (plan.startPage + j), reshape.Touches segment w := by
  obtain ⟨start, planned⟩ := isPlan.planned
  have row := Nat.mul_le_mul_right (bitmapWords reshape.tileBytes reshape.alignment)
    (show j + 1 ≤ plan.numPages from less)
  have word := div_lt_bitmapWords below
  rw [Nat.succ_mul] at row
  rw [Nat.add_assoc, getD_runArgs_bitmaps (by omega)]
  refine (planned.bitmaps j w below).trans ?_
  constructor
  · rintro ⟨entry, member, rfl, touches⟩
    exact ⟨entry.2, (mem_entries.mp member).2, touches⟩
  · rintro ⟨segment, member, touches⟩
    exact ⟨(j, segment), mem_entries.mpr ⟨less, member⟩, rfl, touches⟩

theorem planRead_of_isPlan (formed : reshape.Formed) (checked : reshape.Checked)
    {artifacts : ProgramArtifacts Core} {plan : CorePlan Core} (isPlan : reshape.IsPlan plan)
    (most : plan.segments.length / 2 ≤ artifacts.maxSegments)
    (isSize : artifacts.scratchpadSize = reshape.alignment +
      artifacts.maxSegments * reshape.alignment + reshape.maxPages * reshape.tileBytes)
    (isNumber : artifacts.numRuntimeVarargs = 2 * artifacts.maxSegments +
      reshape.maxPages * bitmapWords reshape.tileBytes reshape.alignment) :
    reshape.PlanRead artifacts (runArgs artifacts.maxSegments artifacts.numRuntimeVarargs plan) := by
  have rows : plan.numPages * bitmapWords reshape.tileBytes reshape.alignment ≤
      reshape.maxPages * bitmapWords reshape.tileBytes reshape.alignment :=
    Nat.mul_le_mul_right _ isPlan.numPages
  obtain ⟨count, words⟩ := getD_runArgs_words isPlan most
    (show 2 * artifacts.maxSegments ≤ artifacts.numRuntimeVarargs by omega)
  have facts {s : Nat} {entry : Nat × Segment}
      (isEntry : (reshape.entries plan.startPage plan.numPages)[s]? = some entry) :=
    inside_of_entry formed isPlan.pages (List.mem_of_getElem? isEntry)
  have fits : ∀ entry ∈ reshape.entries plan.startPage plan.numPages,
      reshape.inputByte entry.2 % reshape.alignment + reshape.bytes entry.2 ≤
        reshape.alignment := by
    obtain ⟨start, planned⟩ := isPlan.planned
    exact planned.fits
  exact {
    pages := isPlan.pages
    length := length_resize _ _
    numSegments := count
    maxSegments := most
    room := by
      have tiles : plan.numPages * reshape.tileBytes ≤ reshape.maxPages * reshape.tileBytes :=
        Nat.mul_le_mul_right _ isPlan.numPages
      dsimp only [runArgs]
      omega
    reads := by
      rw [show (runArgs artifacts.maxSegments artifacts.numRuntimeVarargs plan).varargs.length =
        artifacts.numRuntimeVarargs from length_resize _ _, isNumber]
      exact Nat.add_le_add_left rows _
    window := by
      intro s entry isEntry
      obtain ⟨-, inside, some⟩ := facts isEntry
      rw [(words s entry isEntry).1]
      constructor
      · exact (windowWord_eq formed checked inside some).2
      · exact windowWord_decoded formed checked inside some
    packed := by
      intro s entry isEntry
      obtain ⟨less, inside, some⟩ := facts isEntry
      obtain ⟨low, middle, high, isPacked⟩ := packedWord_eq formed checked inside some
        (less.trans_le isPlan.numPages) (fits entry (List.mem_of_getElem? isEntry))
      rw [(words s entry isEntry).2, isPacked]
      refine ⟨low, middle, high, by omega, ?_⟩
      exact unpack_eq low middle
    fits
    touched := by
      intro j less w below
      exact testBit_runArgs isPlan (isNumber ▸ Nat.add_le_add_left rows _) less below }

/-- What the host makes of a plan is read by the kernel. -/
theorem planRead_of_created (formed : reshape.Formed) {artifacts : ProgramArtifacts Core}
    (created : reshape.createWindowedProgramArtifacts = some artifacts) :
    reshape.Checked ∧ reshape.Sized artifacts ∧ reshape.SplitsPages artifacts ∧
      ∀ args ∈ artifacts.kernelRunArgs, reshape.PlanRead artifacts args := by
  unfold createWindowedProgramArtifacts at created
  dsimp only at created
  split at created
  · cases created
  · rename_i checks
    obtain ⟨plans, arePlans, rest⟩ := Option.bind_eq_some_iff.mp created
    split at rest
    · cases rest
    · obtain rfl := Option.some.inj rest
      simp only [not_or, Nat.not_lt, not_not, kMaxPagesPerCore] at checks
      obtain ⟨maxPages, alignment, divides, windows⟩ := checks
      have exactly : reshape.tileBytes =
          windowsPerPage reshape.tileBytes reshape.alignment * reshape.alignment :=
        (Nat.div_mul_cancel (Nat.dvd_of_mod_eq_zero divides)).symm
      have checked : reshape.Checked := by
        refine ⟨maxPages, alignment, exactly, ?_⟩
        have addresses := formed.addresses
        have most : reshape.numInputPages * windowsPerPage reshape.tileBytes reshape.alignment ≤
            reshape.numInputPages * reshape.tileBytes :=
          Nat.mul_le_mul_left _ (Nat.div_le_self _ _)
        omega
      obtain ⟨all, distinct, covers⟩ :=
        planCores_eq formed checked arePlans (Nat.le_of_eq (Nat.zero_add _))
      refine ⟨checked, ⟨rfl, rfl⟩, ⟨?_, ?_⟩, ?_⟩
      · exact List.pairwise_map.mpr distinct
      · intro page less
        obtain ⟨plan, member, first, last⟩ :=
          covers page (Nat.zero_le _) ((Nat.zero_add _).symm ▸ less)
        exact ⟨_, List.mem_map_of_mem member, first, last⟩
      · intro args member
        obtain ⟨plan, isPlan, rfl⟩ := List.mem_map.mp member
        exact planRead_of_isPlan formed checked (all plan isPlan).2 ((le_foldl_max 0).2 plan isPlan)
          rfl rfl

end Reshape

end Libtt.TiledReshape

import Libtt.TiledReshape.HostCorrect

/-!
# The kernel executes its plan

The windows that are read, the segments that are copied and the windows that are written do not meet
each other, so that the copies behind one barrier may complete in any order.
-/
namespace Libtt.TiledReshape

open Libtt.Foundation

section Runs

variable {touched : Nat → Bool} {windows : Nat}

theorem runEnd_spec {fuel stop : Nat} :
    stop ≤ runEnd touched windows fuel stop ∧
      ∀ w, stop ≤ w → w < runEnd touched windows fuel stop → w < windows ∧ touched w = true := by
  induction fuel generalizing stop with
  | zero => exact ⟨Nat.le_refl _, fun w first last => absurd last (Nat.not_lt.mpr first)⟩
  | succ fuel ih =>
    rw [runEnd]
    split
    · rename_i more
      rw [Bool.and_eq_true, decide_eq_true_eq] at more
      obtain ⟨later, all⟩ := @ih (stop + 1)
      refine ⟨by omega, ?_⟩
      intro w first last
      by_cases same : w = stop
      · exact same ▸ more
      · exact all w (by omega) last
    · exact ⟨Nat.le_refl _, fun w first last => absurd last (Nat.not_lt.mpr first)⟩

/-- Only touched windows are in runs. -/
theorem touched_of_runs {fuel w : Nat} {run : Nat × Nat} (member : run ∈ runs touched windows fuel w)
    {x : Nat} (first : run.1 ≤ x) (last : x < run.2) : x < windows ∧ touched x = true := by
  induction fuel generalizing w with
  | zero => cases member
  | succ fuel ih =>
    rw [runs] at member
    split at member
    · rename_i inside
      split at member
      · exact ih member
      · rename_i isTouched
        cases List.mem_cons.mp member with
        | inl isFirst =>
          subst isFirst
          by_cases same : x = w
          · subst same
            exact ⟨inside, by simpa using isTouched⟩
          · exact runEnd_spec.2 x (Nat.lt_of_le_of_ne first (Ne.symm same)) last
        | inr isLater => exact ih isLater
    · cases member

/-- All touched windows are in runs. -/
theorem runs_of_touched {fuel w x : Nat} (enough : windows ≤ w + fuel) (first : w ≤ x)
    (inside : x < windows) (isTouched : touched x = true) :
    ∃ run ∈ runs touched windows fuel w, run.1 ≤ x ∧ x < run.2 := by
  induction fuel generalizing w with
  | zero => omega
  | succ fuel ih =>
    rw [runs, if_pos (Nat.lt_of_le_of_lt first inside)]
    split
    · rename_i untouched
      have later : w ≠ x := by
        rintro rfl
        rw [isTouched] at untouched
        cases untouched
      exact ih (by omega) (by omega)
    · have passed := (@runEnd_spec touched windows windows (w + 1)).1
      by_cases inRun : x < runEnd touched windows windows (w + 1)
      · exact ⟨_, List.mem_cons_self, first, inRun⟩
      · obtain ⟨run, member, inside⟩ := ih (by omega : windows ≤
          runEnd touched windows windows (w + 1) + fuel) (Nat.not_lt.mp inRun)
        exact ⟨run, List.mem_cons_of_mem _ member, inside⟩

end Runs

namespace Reshape

variable {Core : Type} {reshape : Reshape Core}

/-- A byte of an output page is of one segment. -/
theorem entries_unique (formed : reshape.Formed) {startPage numPages : Nat}
    (pages : startPage + numPages ≤ reshape.numOutputPages) {s s' : Nat} {entry entry' : Nat × Segment}
    (isEntry : (reshape.entries startPage numPages)[s]? = some entry)
    (isEntry' : (reshape.entries startPage numPages)[s']? = some entry') (same : entry.1 = entry'.1)
    {i i' : Nat} (less : i < reshape.bytes entry.2) (less' : i' < reshape.bytes entry'.2)
    (byte : reshape.outputByte entry.2 + i = reshape.outputByte entry'.2 + i') : s = s' := by
  have pairwise : (reshape.entries startPage numPages).Pairwise fun first second =>
      first.1 = second.1 →
        reshape.outputByte first.2 + reshape.bytes first.2 ≤ reshape.outputByte second.2 ∨
          reshape.outputByte second.2 + reshape.bytes second.2 ≤ reshape.outputByte first.2 := by
    rw [entries, List.pairwise_flatMap]
    constructor
    · intro j member
      have inside := List.mem_range.mp member
      rw [List.pairwise_map]
      apply (formed.disjoint (startPage + j) (by omega)).imp
      intro first second apart _
      exact apart
    · apply List.pairwise_lt_range.imp
      intro j j' less first isFirst second isSecond same
      obtain ⟨_, -, rfl⟩ := List.mem_map.mp isFirst
      obtain ⟨_, -, rfl⟩ := List.mem_map.mp isSecond
      exact absurd same less.ne
  obtain ⟨inside, rfl⟩ := List.getElem?_eq_some_iff.mp isEntry
  obtain ⟨inside', rfl⟩ := List.getElem?_eq_some_iff.mp isEntry'
  rcases Nat.lt_trichotomy s s' with earlier | isSame | later
  · have apart := List.pairwise_iff_getElem.mp pairwise s s' inside inside' earlier same
    omega
  · exact isSame
  · have apart := List.pairwise_iff_getElem.mp pairwise s' s inside' inside later same.symm
    omega

section Copies

variable {artifacts : ProgramArtifacts Core} {args : KernelRunArgs Core} {staging : Nat}
  (sized : reshape.Sized artifacts) (plan : reshape.PlanRead artifacts args)

include sized plan

section

variable {s : Nat} {entry : Nat × Segment}
  (isEntry : (reshape.entries args.startOutputPage args.numPages)[s]? = some entry)
include isEntry

/-- What is read of a segment's window. -/
theorem read_eq :
    (artifacts.kernel args staging).read s = transfer reshape.alignment
      (fun i => .l1 ((artifacts.kernel args staging).windowsBase + s * reshape.alignment + i))
      (fun i => .input entry.2.inputPageIndex
        (reshape.inputByte entry.2 / reshape.alignment * reshape.alignment + i)) := by
  obtain ⟨-, page, window⟩ := plan.window s entry isEntry
  rw [← sized.tileSizeBytes, ← sized.alignment] at page
  rw [← sized.tileSizeBytes] at window
  rw [← sized.alignment] at window ⊢
  rw [← page, ← window]
  rfl

/-- What is copied of a segment. -/
theorem move_eq :
    (artifacts.kernel args staging).move s = transfer (reshape.bytes entry.2)
      (fun i => .l1 ((artifacts.kernel args staging).pagesBase +
        (entry.1 * reshape.tileBytes + reshape.outputByte entry.2) + i))
      (fun i => .l1 ((artifacts.kernel args staging).windowsBase + s * reshape.alignment +
        reshape.inputByte entry.2 % reshape.alignment + i)) := by
  obtain ⟨-, -, -, -, offset, page, size⟩ := plan.packed s entry isEntry
  rw [← offset, ← page, ← size, ← sized.alignment]
  rfl

end

omit sized in
theorem exists_entry {s : Nat} (less : s < args.numSegments) :
    ∃ entry, (reshape.entries args.startOutputPage args.numPages)[s]? = some entry :=
  ⟨_, List.getElem?_eq_getElem (plan.numSegments ▸ less)⟩

omit sized in
theorem lt_numSegments {s : Nat} {entry : Nat × Segment}
    (isEntry : (reshape.entries args.startOutputPage args.numPages)[s]? = some entry) :
    s < args.numSegments :=
  plan.numSegments ▸ (List.getElem?_eq_some_iff.mp isEntry).1

theorem mem_reads {copy : Copy Address} :
    copy ∈ (artifacts.kernel args staging).reads ↔ ∃ s entry,
      (reshape.entries args.startOutputPage args.numPages)[s]? = some entry ∧
      ∃ i < reshape.alignment, copy =
        ⟨.l1 ((artifacts.kernel args staging).windowsBase + s * reshape.alignment + i),
          .input entry.2.inputPageIndex
            (reshape.inputByte entry.2 / reshape.alignment * reshape.alignment + i)⟩ := by
  rw [Kernel.reads, List.mem_flatMap]
  constructor
  · rintro ⟨s, inside, member⟩
    obtain ⟨entry, isEntry⟩ := exists_entry plan (List.mem_range.mp inside)
    rw [read_eq sized plan isEntry, mem_transfer] at member
    exact ⟨s, entry, isEntry, member⟩
  · rintro ⟨s, entry, isEntry, found⟩
    refine ⟨s, List.mem_range.mpr (lt_numSegments plan isEntry), ?_⟩
    rw [read_eq sized plan isEntry, mem_transfer]
    exact found

theorem mem_moves {copy : Copy Address} :
    copy ∈ (artifacts.kernel args staging).moves ↔ ∃ s entry,
      (reshape.entries args.startOutputPage args.numPages)[s]? = some entry ∧
      ∃ i < reshape.bytes entry.2, copy =
        ⟨.l1 ((artifacts.kernel args staging).pagesBase +
            (entry.1 * reshape.tileBytes + reshape.outputByte entry.2) + i),
          .l1 ((artifacts.kernel args staging).windowsBase + s * reshape.alignment +
            reshape.inputByte entry.2 % reshape.alignment + i)⟩ := by
  rw [Kernel.moves, List.mem_flatMap]
  constructor
  · rintro ⟨s, inside, member⟩
    obtain ⟨entry, isEntry⟩ := exists_entry plan (List.mem_range.mp inside)
    rw [move_eq sized plan isEntry, mem_transfer] at member
    exact ⟨s, entry, isEntry, member⟩
  · rintro ⟨s, entry, isEntry, found⟩
    refine ⟨s, List.mem_range.mpr (lt_numSegments plan isEntry), ?_⟩
    rw [move_eq sized plan isEntry, mem_transfer]
    exact found

/-- The windows that are written are those that segments touch. -/
theorem touched_iff {j : Nat} (less : j < args.numPages) {w : Nat}
    (inside : w < windowsPerPage reshape.tileBytes reshape.alignment) :
    (artifacts.kernel args staging).touched j w = true ↔
      ∃ segment ∈ reshape.segments (args.startOutputPage + j), reshape.Touches segment w := by
  rw [← plan.touched j less w inside, ← sized.tileSizeBytes, ← sized.alignment, Nat.testBit,
    Nat.land_comm]
  rw [bne_iff_ne]
  exact decide_eq_true_iff

omit sized plan in
/-- A byte is in a run of windows if its window is. -/
theorem exists_in_run {alignment first last offset : Nat} (positive : 0 < alignment) :
    (∃ i < (last - first) * alignment, offset = first * alignment + i) ↔
      first ≤ offset / alignment ∧ offset / alignment < last := by
  rw [Nat.le_div_iff_mul_le positive, Nat.div_lt_iff_lt_mul positive, Nat.sub_mul]
  constructor
  · rintro ⟨i, less, rfl⟩
    omega
  · rintro ⟨start, stop⟩
    exact ⟨offset - first * alignment, by omega, by omega⟩

theorem mem_writes (formed : reshape.Formed) (checked : reshape.Checked) {copy : Copy Address} :
    copy ∈ (artifacts.kernel args staging).writes ↔
      ∃ j < args.numPages, ∃ offset < reshape.tileBytes,
      (∃ segment ∈ reshape.segments (args.startOutputPage + j),
        reshape.Touches segment (offset / reshape.alignment)) ∧ copy =
        ⟨.output (args.startOutputPage + j) offset,
          .l1 ((artifacts.kernel args staging).pagesBase + j * reshape.tileBytes + offset)⟩ := by
  have positive := formed.alignment_pos
  have isAlignment : (artifacts.kernel args staging).alignment = reshape.alignment :=
    sized.alignment
  have isTile : (artifacts.kernel args staging).tileSizeBytes = reshape.tileBytes :=
    sized.tileSizeBytes
  have isWindows : (artifacts.kernel args staging).pageWindows =
      windowsPerPage reshape.tileBytes reshape.alignment := by
    rw [Kernel.pageWindows, isAlignment, isTile]
  have inPage {offset : Nat} : offset / reshape.alignment <
      windowsPerPage reshape.tileBytes reshape.alignment ↔ offset < reshape.tileBytes := by
    rw [Nat.div_lt_iff_lt_mul positive, ← checked.divides]
  rw [Kernel.writes, List.mem_flatMap, isWindows]
  constructor
  · rintro ⟨j, inside, member⟩
    have less : j < args.numPages := List.mem_range.mp inside
    obtain ⟨run, isRun, member⟩ := List.mem_flatMap.mp member
    obtain ⟨i, below, rfl⟩ := mem_transfer.mp member
    rw [isAlignment] at below ⊢
    rw [isTile, Nat.add_assoc _ (run.1 * reshape.alignment)]
    obtain ⟨first, last⟩ := (exists_in_run positive).mp ⟨i, below, rfl⟩
    obtain ⟨isWindow, isTouched⟩ := touched_of_runs isRun first last
    exact ⟨j, less, _, inPage.mp isWindow, (touched_iff sized plan less isWindow).mp isTouched, rfl⟩
  · rintro ⟨j, less, offset, below, touches, rfl⟩
    have isWindow := inPage.mpr below
    obtain ⟨run, isRun, inRun⟩ := runs_of_touched (Nat.zero_add _).ge (Nat.zero_le _) isWindow
      ((touched_iff sized plan less isWindow).mpr touches)
    obtain ⟨i, inside, isOffset⟩ := (exists_in_run positive).mpr inRun
    refine ⟨j, List.mem_range.mpr less, List.mem_flatMap.mpr ⟨run, isRun, ?_⟩⟩
    rw [Kernel.write, mem_transfer, isAlignment, isTile]
    refine ⟨i, inside, ?_⟩
    rw [Nat.add_assoc _ (run.1 * reshape.alignment), ← isOffset]
    rfl

end Copies

/-- What the kernel does on a core. -/
structure Executed {Byte : Type} (reshape : Reshape Core) (artifacts : ProgramArtifacts Core)
    (args : KernelRunArgs Core) (staging : Nat) (before after : Address → Byte) : Prop where
  covered : ∀ j < args.numPages, ∀ segment ∈ reshape.segments (args.startOutputPage + j),
    ∀ i < reshape.bytes segment,
      after (.output (args.startOutputPage + j) (reshape.outputByte segment + i)) =
        before (.input segment.inputPageIndex (reshape.inputByte segment + i))
  untouched : ∀ j < args.numPages, ∀ offset,
    (∀ segment ∈ reshape.segments (args.startOutputPage + j),
      ¬reshape.Touches segment (offset / reshape.alignment)) →
    after (.output (args.startOutputPage + j) offset) =
      before (.output (args.startOutputPage + j) offset)
  others : ∀ page offset, page < args.startOutputPage ∨
      args.startOutputPage + args.numPages ≤ page ∨ reshape.tileBytes ≤ offset →
    after (.output page offset) = before (.output page offset)
  input : ∀ page offset, after (.input page offset) = before (.input page offset)
  l1 : ∀ address, address < staging ∨ staging + artifacts.scratchpadSize ≤ address →
    after (.l1 address) = before (.l1 address)

theorem roundUp_spec {number multiple : Nat} (positive : 0 < multiple) :
    number ≤ roundUp number multiple ∧ roundUp number multiple < number + multiple := by
  have split := Nat.div_add_mod' (number + multiple - 1) multiple
  have less := Nat.mod_lt (number + multiple - 1) positive
  unfold roundUp
  omega

section Phases

variable {artifacts : ProgramArtifacts Core} {args : KernelRunArgs Core} {staging : Nat}
  (formed : reshape.Formed) (sized : reshape.Sized artifacts)
  (plan : reshape.PlanRead artifacts args) {Byte : Type}
  {before windows pages after : Address → Byte}

omit sized in
theorem pagesBase_eq (sized : reshape.Sized artifacts) : (artifacts.kernel args staging).pagesBase =
    (artifacts.kernel args staging).windowsBase + artifacts.maxSegments * reshape.alignment := by
  rw [← sized.alignment]
  rfl

include sized plan

/-- The windows of the segments are before the pages. -/
theorem window_lt {s : Nat} {entry : Nat × Segment}
    (isEntry : (reshape.entries args.startOutputPage args.numPages)[s]? = some entry) {i : Nat}
    (less : i < reshape.alignment) :
    (artifacts.kernel args staging).windowsBase + s * reshape.alignment + i <
      (artifacts.kernel args staging).pagesBase := by
  have below := lt_numSegments plan isEntry
  have most := plan.maxSegments
  have slots : (s + 1) * reshape.alignment ≤ artifacts.maxSegments * reshape.alignment :=
    Nat.mul_le_mul_right _ (by omega)
  rw [Nat.succ_mul] at slots
  rw [pagesBase_eq sized]
  omega

include formed

/-- Each segment is in its slot, after the reads. -/
theorem read_same (completes : Completes (artifacts.kernel args staging).reads before windows)
    {s : Nat} {entry : Nat × Segment}
    (isEntry : (reshape.entries args.startOutputPage args.numPages)[s]? = some entry) {i : Nat}
    (less : i < reshape.bytes entry.2) :
    windows (.l1 ((artifacts.kernel args staging).windowsBase + s * reshape.alignment +
        reshape.inputByte entry.2 % reshape.alignment + i)) =
      before (.input entry.2.inputPageIndex (reshape.inputByte entry.2 + i)) := by
  have positive := formed.alignment_pos
  have fits := plan.fits entry (List.mem_of_getElem? isEntry)
  have split := Nat.div_add_mod' (reshape.inputByte entry.2) reshape.alignment
  have copied := completes.copied ((mem_reads sized plan).mpr ⟨s, entry, isEntry,
    reshape.inputByte entry.2 % reshape.alignment + i, by omega, rfl⟩) ?_ ?_
  · dsimp only at copied
    rw [← Nat.add_assoc, ← Nat.add_assoc, split] at copied
    exact copied
  · intro other member same
    obtain ⟨s', entry', isEntry', i', less', rfl⟩ := (mem_reads sized plan).mp member
    simp only [Address.l1.injEq] at same
    have slot : s' = s := by
      have first : (s' * reshape.alignment + i') / reshape.alignment = s' := by
        rw [Nat.mul_comm, Nat.mul_add_div positive, Nat.div_eq_of_lt less', Nat.add_zero]
      have second : (s * reshape.alignment +
          (reshape.inputByte entry.2 % reshape.alignment + i)) / reshape.alignment = s := by
        rw [Nat.mul_comm, Nat.mul_add_div positive, Nat.div_eq_of_lt (by omega), Nat.add_zero]
      rw [← first, ← second]
      congr 1
      omega
    subst slot
    obtain rfl := Option.some.inj (isEntry'.symm.trans isEntry)
    have isByte : i' = reshape.inputByte entry'.2 % reshape.alignment + i := by omega
    rw [isByte]
  · intro other member
    obtain ⟨_, _, _, _, _, rfl⟩ := (mem_reads sized plan).mp member
    exact nofun

/-- Each segment is in its page, after the copies. -/
theorem move_same (completes : Completes (artifacts.kernel args staging).moves windows pages)
    {s : Nat} {entry : Nat × Segment}
    (isEntry : (reshape.entries args.startOutputPage args.numPages)[s]? = some entry) {i : Nat}
    (less : i < reshape.bytes entry.2) :
    pages (.l1 ((artifacts.kernel args staging).pagesBase +
        (entry.1 * reshape.tileBytes + reshape.outputByte entry.2) + i)) =
      windows (.l1 ((artifacts.kernel args staging).windowsBase + s * reshape.alignment +
        reshape.inputByte entry.2 % reshape.alignment + i)) := by
  have inside := (inside_of_entry formed plan.pages (List.mem_of_getElem? isEntry)).2.1.output
  apply completes.copied ((mem_moves sized plan).mpr ⟨s, entry, isEntry, i, less, rfl⟩)
  · intro other member same
    obtain ⟨s', entry', isEntry', i', less', rfl⟩ := (mem_moves sized plan).mp member
    have inside' := (inside_of_entry formed plan.pages (List.mem_of_getElem? isEntry')).2.1.output
    simp only [Address.l1.injEq] at same
    have page : entry'.1 = entry.1 := by
      have positive : 0 < reshape.tileBytes := by omega
      have first : (entry'.1 * reshape.tileBytes + (reshape.outputByte entry'.2 + i')) /
          reshape.tileBytes = entry'.1 := by
        rw [Nat.mul_comm, Nat.mul_add_div positive, Nat.div_eq_of_lt (by omega), Nat.add_zero]
      have second : (entry.1 * reshape.tileBytes + (reshape.outputByte entry.2 + i)) /
          reshape.tileBytes = entry.1 := by
        rw [Nat.mul_comm, Nat.mul_add_div positive, Nat.div_eq_of_lt (by omega), Nat.add_zero]
      rw [← first, ← second]
      congr 1
      omega
    rw [page] at same
    have byte : reshape.outputByte entry'.2 + i' = reshape.outputByte entry.2 + i := by omega
    obtain rfl := entries_unique formed plan.pages isEntry' isEntry page less' less byte
    obtain rfl := Option.some.inj (isEntry'.symm.trans isEntry)
    have isByte : i' = i := by omega
    rw [isByte]
  · intro other member
    obtain ⟨_, _, _, _, _, rfl⟩ := (mem_moves sized plan).mp member
    have fits := plan.fits entry (List.mem_of_getElem? isEntry)
    have slot := @window_lt _ _ _ _ staging sized plan _ _ isEntry
      (reshape.inputByte entry.2 % reshape.alignment + i) (by omega)
    simp only [ne_eq, Address.l1.injEq]
    omega

/-- Each window that is touched is in the output, after the writes. -/
theorem write_same (checked : reshape.Checked)
    (completes : Completes (artifacts.kernel args staging).writes pages after) {j offset : Nat}
    (less : j < args.numPages) (below : offset < reshape.tileBytes)
    (touches : ∃ segment ∈ reshape.segments (args.startOutputPage + j),
      reshape.Touches segment (offset / reshape.alignment)) :
    after (.output (args.startOutputPage + j) offset) =
      pages (.l1 ((artifacts.kernel args staging).pagesBase + j * reshape.tileBytes + offset)) := by
  apply completes.copied ((mem_writes sized plan formed checked).mpr
    ⟨j, less, offset, below, touches, rfl⟩)
  · intro other member same
    obtain ⟨j', _, offset', _, _, rfl⟩ := (mem_writes sized plan formed checked).mp member
    obtain ⟨page, rfl⟩ := Address.output.inj same
    rw [Nat.add_left_cancel page]
  · intro other member
    obtain ⟨_, _, _, _, _, rfl⟩ := (mem_writes sized plan formed checked).mp member
    exact nofun

/-- Only the staging area is written in the core's memory before the writes. -/
theorem staging_of_copy {copy : Copy Address}
    (member : copy ∈ (artifacts.kernel args staging).reads ∨
      copy ∈ (artifacts.kernel args staging).moves) :
    ∃ address, copy.target = .l1 address ∧ staging ≤ address ∧
      address < staging + artifacts.scratchpadSize := by
  obtain ⟨first, last⟩ := @roundUp_spec staging reshape.alignment formed.alignment_pos
  have base : (artifacts.kernel args staging).windowsBase = roundUp staging reshape.alignment := by
    rw [← sized.alignment]
    rfl
  have isPages := @pagesBase_eq _ _ _ args staging sized
  have room := plan.room
  cases member with
  | inl isRead =>
    obtain ⟨s, entry, isEntry, i, less, rfl⟩ := (mem_reads sized plan).mp isRead
    have slot := @window_lt _ _ _ _ staging sized plan _ _ isEntry i less
    refine ⟨_, rfl, ?_, ?_⟩ <;> omega
  | inr isMove =>
    obtain ⟨s, entry, isEntry, i, less, rfl⟩ := (mem_moves sized plan).mp isMove
    obtain ⟨page, inside, -⟩ :=
      inside_of_entry formed plan.pages (List.mem_of_getElem? isEntry)
    have output := inside.output
    have row : (entry.1 + 1) * reshape.tileBytes ≤ args.numPages * reshape.tileBytes :=
      Nat.mul_le_mul_right _ page
    rw [Nat.succ_mul] at row
    refine ⟨_, rfl, ?_, ?_⟩ <;> omega

/-- The kernel executes its plan. -/
theorem executed_of_main (checked : reshape.Checked)
    (isMain : (artifacts.kernel args staging).Main before after) :
    reshape.Executed artifacts args staging before after := by
  obtain ⟨windows, pages, areRead, areMoved, areWritten⟩ := isMain
  -- Only the writes are for the output, and nothing is for the input.
  have staged {address : Address} (other : ∀ place, address ≠ .l1 place) :
      pages address = before address := by
    rw [areMoved.other, areRead.other]
    · intro copy member same
      obtain ⟨place, isPlace, -⟩ := staging_of_copy formed sized plan (.inl member)
      exact other place (same.symm.trans isPlace)
    · intro copy member same
      obtain ⟨place, isPlace, -⟩ := staging_of_copy formed sized plan (.inr member)
      exact other place (same.symm.trans isPlace)
  have kept {page offset : Nat} (other : ∀ j < args.numPages, page = args.startOutputPage + j →
      offset < reshape.tileBytes → ¬∃ segment ∈ reshape.segments (args.startOutputPage + j),
        reshape.Touches segment (offset / reshape.alignment)) :
      after (.output page offset) = before (.output page offset) := by
    refine (areWritten.other ?_).trans (staged nofun)
    intro copy member same
    obtain ⟨j, less, _, below, touches, rfl⟩ := (mem_writes sized plan formed checked).mp member
    obtain ⟨rfl, rfl⟩ := Address.output.inj same
    exact other j less rfl below touches
  constructor
  · intro j less segment member i inside
    obtain ⟨s, isEntry⟩ := List.mem_iff_getElem?.mp
      (mem_entries.mpr ⟨less, member⟩ : (j, segment) ∈ reshape.entries _ _)
    have output := (inside_of_entry formed plan.pages (List.mem_of_getElem? isEntry)).2.1.output
    rw [write_same formed sized plan checked areWritten less (by dsimp only at output; omega)
      ⟨segment, member, i, inside, rfl⟩, ← read_same formed sized plan areRead isEntry inside,
      ← move_same formed sized plan areMoved isEntry inside]
    dsimp only
    congr 2
    omega
  · intro j less offset untouched
    apply kept
    rintro j' - isPage - ⟨segment, member, touches⟩
    obtain rfl := Nat.add_left_cancel isPage
    exact untouched segment member touches
  · intro page offset outside
    apply kept
    intro j less isPage below
    omega
  · intro page offset
    refine (areWritten.other ?_).trans (staged nofun)
    intro copy member
    obtain ⟨_, _, _, _, _, rfl⟩ := (mem_writes sized plan formed checked).mp member
    exact nofun
  · intro address outside
    have apart {copy : Copy Address} (member : copy ∈ (artifacts.kernel args staging).reads ∨
        copy ∈ (artifacts.kernel args staging).moves) : copy.target ≠ .l1 address := by
      intro same
      obtain ⟨place, isPlace, first, last⟩ := staging_of_copy formed sized plan member
      obtain rfl := Address.l1.inj (same.symm.trans isPlace)
      omega
    rw [areWritten.other, areMoved.other fun copy member => apart (.inr member),
      areRead.other fun copy member => apart (.inl member)]
    intro copy member
    obtain ⟨_, _, _, _, _, rfl⟩ := (mem_writes sized plan formed checked).mp member
    exact nofun

end Phases

end Reshape

/-- Whatever program the host returns, the cores split the output pages, each reads its plan from its
arguments without a field that overflows, and executes it. -/
theorem windowed_reshape {Core : Type} (reshape : Reshape Core) (formed : reshape.Formed)
    {artifacts : ProgramArtifacts Core}
    (created : reshape.createWindowedProgramArtifacts = some artifacts) :
    reshape.SplitsPages artifacts ∧ ∀ args ∈ artifacts.kernelRunArgs,
      reshape.PlanRead artifacts args ∧
        ∀ {Byte : Type} (staging : Nat) (before after : Address → Byte),
          (artifacts.kernel args staging).Main before after →
            reshape.Executed artifacts args staging before after := by
  obtain ⟨checked, sized, splits, plans⟩ := Reshape.planRead_of_created formed created
  refine ⟨splits, ?_⟩
  intro args member
  refine ⟨plans args member, ?_⟩
  intro Byte staging before after isMain
  exact Reshape.executed_of_main formed sized (plans args member) checked isMain

/-- Three pages of two cores, from windows of two pages. -/
def twoCores : Reshape Nat where
  tileBytes := 128
  elementSize := 4
  alignment := 32
  numInputPages := 2
  allCores := [0, 1]
  coreGroup1 := (· = 0)
  coreGroup2 := (· = 1)
  numTilesPerCoreGroup1 := 2
  numTilesPerCoreGroup2 := 1
  reshapeMapOutputPage := fun
    | 0 => [⟨0, 0, 0, 8⟩, ⟨1, 8, 16, 4⟩]
    | 1 => [⟨1, 16, 0, 4⟩]
    | _ => [⟨0, 24, 8, 8⟩, ⟨0, 0, 0, 0⟩]

theorem twoCores_formed : twoCores.Formed where
  alignment_pos := by decide
  elementSize_pos := by decide
  tile_size := by decide
  addresses := by decide
  inside := by
    have all : ∀ page < 3, ∀ segment ∈ twoCores.segments page, segment.inputPageIndex < 2 ∧
        twoCores.inputByte segment + twoCores.bytes segment ≤ 128 ∧
        twoCores.outputByte segment + twoCores.bytes segment ≤ 128 := by
      decide
    intro page less segment member
    obtain ⟨isPage, input, output⟩ := all page less segment member
    exact ⟨isPage, input, output⟩
  disjoint := by
    decide

/-- The second core's page has the last window of the first input page. -/
theorem windowed_reshape_twoCores :
    ∃ artifacts args, ∃ after : Address → Nat,
      twoCores.createWindowedProgramArtifacts = some artifacts ∧ args ∈ artifacts.kernelRunArgs ∧
      (artifacts.kernel args 100).Main
        (fun | .input page offset => 128 * page + offset | _ => 0) after ∧
      after (.output 2 32) = 96 := by
  obtain ⟨artifacts, created⟩ := Option.isSome_iff_exists.mp
    (show twoCores.createWindowedProgramArtifacts.isSome by decide)
  obtain ⟨splits, all⟩ := windowed_reshape twoCores twoCores_formed created
  obtain ⟨args, member, first, last⟩ := splits.covers 2 (by decide)
  obtain ⟨-, executes⟩ := all args member
  have isMain : (artifacts.kernel args 100).Main
      (fun | .input page offset => 128 * page + offset | _ => 0) _ :=
    ⟨_, _, .inOrder _ _, .inOrder _ _, .inOrder _ _⟩
  refine ⟨artifacts, args, _, created, member, isMain, ?_⟩
  have covered := (executes 100 _ _ isMain).covered (2 - args.startOutputPage) (by omega)
  rw [Nat.add_sub_cancel' first] at covered
  exact covered ⟨0, 24, 8, 8⟩ (by decide) 0 (by decide)

end Libtt.TiledReshape

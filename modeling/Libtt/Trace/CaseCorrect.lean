import Libtt.Trace.CaseReplay

/-!
# Trace cases replay as recorded

The recorder writes exactly `CaseTree.code`: a finished branch differs from its code only in the
skip that leaves the case, and landing that skip commutes with landing the ones before it.
-/

namespace Libtt.Trace

open Libtt.Foundation
open Recorder (boundaryCommands changeSkip)

variable {W σ : Type} (layout : Layout W) (workers : W → Nat)

/-- Rewriting a skip keeps the size of every command. -/
theorem size_changeSkip (change : ExecBufSkipCmd → ExecBufSkipCmd) (command : Command W) :
    layout.size (changeSkip change command) = layout.size command := by
  cases command <;> simp [changeSkip, layout.size_skip]

/-- `land_skip` on the stream alone, with the write pointer given. -/
def landAt (writePtr : Nat) (stream : List (Command W)) (offset : Nat) : List (Command W) :=
  layout.modifyAt (changeSkip fun cmd =>
    { cmd with bytes := UInt32.ofNat (writePtr - offset - layout.skipSize) }) stream offset

/-- Landing a skip does not move the write pointer. -/
theorem bytes_landAt (writePtr : Nat) (stream : List (Command W)) (offset : Nat) :
    layout.bytes (landAt layout writePtr stream offset) = layout.bytes stream :=
  layout.bytes_modifyAt (size_changeSkip layout _) stream offset

/-- The skip after a prefix is landed in place. -/
theorem landAt_append (writePtr : Nat) (before : List (Command W)) (cmd : ExecBufSkipCmd)
    (after : List (Command W)) :
    landAt layout writePtr (before ++ .skip cmd :: after) (layout.bytes before) =
      before ++ .skip { cmd with
        bytes := UInt32.ofNat (writePtr - layout.bytes before - layout.skipSize) } :: after := by
  simp [landAt, changeSkip]

/-- Two skips may be landed in either order. -/
theorem landAt_comm (writePtr : Nat) (stream : List (Command W)) (first second : Nat) :
    landAt layout writePtr (landAt layout writePtr stream second) first =
      landAt layout writePtr (landAt layout writePtr stream first) second := by
  by_cases same : first = second
  · rw [same]
  · exact layout.modifyAt_comm (size_changeSkip layout _) (size_changeSkip layout _) stream same

/-- The skip recorded last may be landed first. -/
theorem foldl_landAt_last (writePtr : Nat) (skips : List Nat) (last : Nat)
    (stream : List (Command W)) :
    (skips ++ [last]).foldl (landAt layout writePtr) stream =
      skips.foldl (landAt layout writePtr) (landAt layout writePtr stream last) := by
  induction skips generalizing stream with
  | nil => rfl
  | cons first rest ih =>
    rw [List.cons_append, List.foldl_cons, List.foldl_cons, ih, landAt_comm]

/-- The loop of `emit_case_marker` over the skips to the end of a case. -/
theorem foldl_landSkip (r : Recorder W) (skips : List Nat) :
    skips.foldl (fun r skip => r.landSkip layout skip) r =
      { r with bypassData := skips.foldl (landAt layout (r.writePtr layout)) r.bypassData } := by
  induction skips generalizing r with
  | nil => rfl
  | cons first rest ih =>
    have kept : (r.landSkip layout first).writePtr layout = r.writePtr layout :=
      bytes_landAt layout _ _ _
    rw [List.foldl_cons, ih, kept]
    rfl

/-- A branch count that fits its counter is not mistaken for none. -/
theorem branchCount_ne_zero {number : Nat} (small : number + 1 < 2 ^ 32) :
    (UInt32.ofNat (number + 1) != 0) = true := by
  rw [bne_iff_ne]
  intro zero
  have := congrArg UInt32.toNat zero
  rw [UInt32.toNat_ofNat_of_lt' small] at this
  simp at this

mutual

/-- Every case of a tree has fewer branches than its counter holds. -/
def CaseTree.Counted : CaseTree W → Prop
  | .done => True
  | .workload _ rest => rest.Counted
  | .case _ branches rest => branches.Counted 0 ∧ rest.Counted

/-- The branches from `number` on are counted without wrapping. -/
def Branches.Counted : Branches W → Nat → Prop
  | .last body, number => number + 1 < 2 ^ 32 ∧ body.Counted
  | .more body rest, number => number + 1 < 2 ^ 32 ∧ body.Counted ∧ rest.Counted (number + 1)

end

/-- A test as the recorder first writes it, before its target is known. -/
def openTest (indexAddress : UInt32) (number : Nat) : ExecBufSkipCmd :=
  { mode := .ifNotEqual, baseAddr := indexAddress, value := UInt32.ofNat number, bytes := 0 }

/-- A finished branch's skip as the recorder first writes it. -/
def openLeave (indexAddress : UInt32) : ExecBufSkipCmd :=
  { mode := .always, baseAddr := indexAddress, value := 0, bytes := 0 }

/-- The recorder inside branch `number` of its innermost case, whose test follows `before`. -/
def insideBranch (indexAddress : UInt32) (number : Nat) (before middle : List (Command W))
    (skips : List Nat) (outer : List OpenCase) (since : Option Nat) : Recorder W where
  bypassData := before ++ .skip (openTest indexAddress number) :: middle
  openCases := { indexAddress, branches := UInt32.ofNat (number + 1),
                 skipToNextBranch := layout.bytes before, skipsToEnd := skips } :: outer
  descriptors := since

section

variable (indexAddress : UInt32) {number : Nat} (small : number + 1 < 2 ^ 32)
  (before middle : List (Command W)) (skips : List Nat) (outer : List OpenCase) (since : Option Nat)
include indexAddress small before middle skips outer since

/-- A branch marker ends the branch being recorded: its test lands, a skip to the end is left
open, and the next test is written. -/
theorem recordNode_caseBranch {leaving : List (Command W)}
    (isLeaving : middle ++ boundaryCommands since false = leaving) :
    (insideBranch layout indexAddress number before middle skips outer since).recordNode
        layout workers .caseBranch = .ok
      (insideBranch layout indexAddress (number + 1)
        (before ++ .skip { openTest indexAddress number with
            bytes := UInt32.ofNat (layout.bytes leaving + layout.skipSize) } ::
          (leaving ++ [.skip (openLeave indexAddress)])) []
        (skips ++ [layout.bytes (before ++ .skip (openTest indexAddress number) :: leaving)])
        outer none) := by
  have next : UInt32.ofNat (number + 1) + 1 = UInt32.ofNat (number + 1 + 1) := by
    simp [UInt32.ofNat_add]
  let written := before ++ .skip (openTest indexAddress number) :: leaving ++
    [.skip (openLeave indexAddress)]
  have shape : before ++ .skip (openTest indexAddress number) :: middle ++
      boundaryCommands since false = before ++ .skip (openTest indexAddress number) :: leaving := by
    simp [← isLeaving]
  have shapeLeave : before ++ .skip (openTest indexAddress number) ::
      (leaving ++ [.skip (openLeave indexAddress)]) = written := by simp [written]
  have target : layout.bytes written - layout.bytes before - layout.skipSize =
      layout.bytes leaving + layout.skipSize := by
    simp only [written, Sizing.bytes_append, Sizing.bytes_cons, Sizing.bytes_nil, layout.size_skip]
    omega
  have landed := landAt_append layout (layout.bytes written) before (openTest indexAddress number)
    (leaving ++ [.skip (openLeave indexAddress)])
  rw [target, shapeLeave] at landed
  simp only [insideBranch, Recorder.recordNode, branchCount_ne_zero small, if_true, next,
    Recorder.emitBoundary, Recorder.emitSkip, Recorder.append, Recorder.landSkip,
    Recorder.modifySkip, Recorder.writePtr]
  rw [shape]
  change (Except.ok
    { bypassData := landAt layout (layout.bytes written) written (layout.bytes before) ++
        [.skip (openTest indexAddress (number + 1))]
      openCases :=
        { indexAddress, branches := UInt32.ofNat (number + 1 + 1)
          skipToNextBranch :=
            layout.bytes (landAt layout (layout.bytes written) written (layout.bytes before))
          skipsToEnd := _ } :: outer
      descriptors := none } : Except String (Recorder W)) = _
  rw [landed]

/-- The end marker makes the last test a skip of nothing and lands what leaves the case. -/
theorem recordNode_caseEnd :
    (insideBranch layout indexAddress number before middle skips outer since).recordNode
        layout workers .caseEnd = .ok
      { bypassData := skips.foldl
          (landAt layout (layout.bytes (before ++
            .skip { openTest indexAddress number with mode := .always } ::
              (middle ++ boundaryCommands since false))))
          (before ++ .skip { openTest indexAddress number with mode := .always } ::
            (middle ++ boundaryCommands since false))
        openCases := outer
        descriptors := none } := by
  have shape : before ++ .skip (openTest indexAddress number) :: middle ++
      boundaryCommands since false = before ++ .skip (openTest indexAddress number) ::
        (middle ++ boundaryCommands since false) := by simp
  simp only [insideBranch, Recorder.recordNode, branchCount_ne_zero small, if_true,
    Recorder.emitBoundary, Recorder.append, Recorder.modifySkip, foldl_landSkip,
    Recorder.writePtr, shape, Sizing.modifyAt_append, changeSkip]

end

/-- Once the branches after it are written, the skip that leaves a branch lands behind them. -/
theorem landAt_leave (before leaving after : List (Command W)) (first landed : ExecBufSkipCmd)
    (indexAddress : UInt32) :
    landAt layout
        (layout.bytes (before ++ .skip landed :: (leaving ++ [.skip (openLeave indexAddress)]) ++
          after))
        (before ++ .skip landed :: (leaving ++ [.skip (openLeave indexAddress)]) ++ after)
        (layout.bytes (before ++ .skip first :: leaving)) =
      before ++ .skip landed :: (leaving ++
        .skip { openLeave indexAddress with bytes := UInt32.ofNat (layout.bytes after) } ::
          after) := by
  have shape : before ++ .skip landed :: (leaving ++ [.skip (openLeave indexAddress)]) ++ after =
      (before ++ .skip landed :: leaving) ++ .skip (openLeave indexAddress) :: after := by simp
  have offset : layout.bytes (before ++ .skip first :: leaving) =
      layout.bytes (before ++ .skip landed :: leaving) := by simp [layout.size_skip]
  have target : layout.bytes ((before ++ .skip landed :: leaving) ++
      .skip (openLeave indexAddress) :: after) -
        layout.bytes (before ++ .skip landed :: leaving) - layout.skipSize =
      layout.bytes after := by
    simp only [Sizing.bytes_append, Sizing.bytes_cons, layout.size_skip]
    omega
  rw [offset, shape, landAt_append, target]
  simp

/-! Recording is by recursion on the tree. A case enters its branches just after the test of
branch 0; a branch leaves through `recordNode_caseBranch` or `recordNode_caseEnd`. -/

mutual

/-- Recording a tree appends its code and leaves the open cases alone. -/
theorem CaseTree.recordNodes (tree : CaseTree W) (counted : tree.Counted) (r : Recorder W) :
    r.recordNodes layout workers tree.nodes = .ok
      { r with
        bypassData := r.bypassData ++ (tree.code layout workers r.descriptors).1
        descriptors := (tree.code layout workers r.descriptors).2 } := by
  match tree with
  | .done => simp [CaseTree.nodes, Recorder.recordNodes, CaseTree.code]
  | .workload node rest =>
    have tail := CaseTree.recordNodes rest counted
      { r.append [.workload node] with
        descriptors := some (r.descriptors.getD 0 + workers node) }
    simp only [CaseTree.nodes, Recorder.recordNodes, Recorder.recordNode, bind, Except.bind, tail]
    simp [Recorder.append, CaseTree.code]
  | .case indexAddress branches rest =>
    obtain ⟨inner, later⟩ := counted
    have inside := Branches.recordNodes branches indexAddress 0 inner
      (r.bypassData ++ boundaryCommands r.descriptors true) [] r.openCases
    have tail := CaseTree.recordNodes rest later
      { bypassData := r.bypassData ++ boundaryCommands r.descriptors true ++
          branches.code layout workers indexAddress 0
        openCases := r.openCases
        descriptors := none }
    have begun : r.recordNodes layout workers [.caseBegin indexAddress, .caseBranch] = .ok
        (insideBranch layout indexAddress 0
          (r.bypassData ++ boundaryCommands r.descriptors true) [] [] r.openCases none) := rfl
    have parts : (CaseTree.case indexAddress branches rest).nodes =
        [.caseBegin indexAddress, .caseBranch] ++
          ((branches.nodes ++ [.caseEnd]) ++ rest.nodes) := by
      simp [CaseTree.nodes]
    rw [parts, Recorder.recordNodes_append, begun, Except.bind, Recorder.recordNodes_append,
      inside, Except.bind, List.foldl_nil, tail]
    simp [CaseTree.code]

/-- Recording the branches of a case from just after a test to the case's end writes their code,
and lands every skip that was waiting for the end. -/
theorem Branches.recordNodes (branches : Branches W) (indexAddress : UInt32) (number : Nat)
    (counted : branches.Counted number) (before : List (Command W)) (skips : List Nat)
    (outer : List OpenCase) :
    (insideBranch layout indexAddress number before [] skips outer none).recordNodes
        layout workers (branches.nodes ++ [.caseEnd]) = .ok
      { bypassData := skips.foldl
          (landAt layout (layout.bytes
            (before ++ branches.code layout workers indexAddress number)))
          (before ++ branches.code layout workers indexAddress number)
        openCases := outer
        descriptors := none } := by
  match branches with
  | .last body =>
    obtain ⟨small, inner⟩ := counted
    have inside := CaseTree.recordNodes body inner
      (insideBranch layout indexAddress number before [] skips outer none)
    have ended := recordNode_caseEnd layout workers indexAddress small before
      (body.code layout workers none).1 skips outer (body.code layout workers none).2
    have reached : (insideBranch layout indexAddress number before [] skips outer none).recordNodes
        layout workers body.nodes = .ok (insideBranch layout indexAddress number before
          (body.code layout workers none).1 skips outer (body.code layout workers none).2) := by
      rw [inside]
      simp [insideBranch]
    rw [Branches.nodes, Recorder.recordNodes_append, reached, Except.bind]
    simp only [Recorder.recordNodes, ended, bind, Except.bind, Branches.code]
    rfl
  | .more body rest =>
    obtain ⟨small, inner, later⟩ := counted
    have inside := CaseTree.recordNodes body inner
      (insideBranch layout indexAddress number before [] skips outer none)
    have marked := recordNode_caseBranch layout workers indexAddress small before
      (body.code layout workers none).1 skips outer (body.code layout workers none).2 rfl
    have reached : (insideBranch layout indexAddress number before [] skips outer none).recordNodes
        layout workers body.nodes = .ok (insideBranch layout indexAddress number before
          (body.code layout workers none).1 skips outer (body.code layout workers none).2) := by
      rw [inside]
      simp [insideBranch]
    have tail := Branches.recordNodes rest indexAddress (number + 1) later
    rw [Branches.nodes, List.append_assoc, Recorder.recordNodes_append, reached, Except.bind]
    simp only [List.cons_append, Recorder.recordNodes, marked, bind, Except.bind]
    rw [tail, foldl_landAt_last, landAt_leave layout _ _ _ (openTest indexAddress number),
      ← bytes_landAt layout _ _ _, landAt_leave layout _ _ _ (openTest indexAddress number)]
    rfl

end

section Replaying

variable (device : Device W σ)

section

variable (stream before after : List (Command W))
include stream before after

/-- A workload's commands are relayed and the next command follows. -/
theorem passes_workload (node : W) (shape : stream = before ++ .workload node :: after) (state : σ)
    (ran : List W) :
    Passes layout device stream ⟨layout.bytes before, state, ran⟩ [.workload node]
      ⟨layout.bytes (before ++ [.workload node]), device.launch node state, ran ++ [node]⟩ := by
  refine .next ?_ ?_ .here
  · simp [shape]
  · simp [Replay.step, shape]

/-- A skip continues at its stride. -/
theorem passes_skip (cmd : ExecBufSkipCmd) (shape : stream = before ++ .skip cmd :: after)
    (state : σ) (ran : List W) :
    Passes layout device stream ⟨layout.bytes before, state, ran⟩ [.skip cmd]
      ⟨layout.bytes before + skipStride layout device state cmd, state, ran⟩ := by
  refine .next ?_ ?_ .here
  · simp [shape]
  · simp [Replay.step, shape]

/-- A boundary launches nothing; with a stall, the device settles. -/
theorem passes_boundary (since : Option Nat) (stallPrefetcher : Bool)
    (shape : stream = before ++ (boundaryCommands since stallPrefetcher ++ after)) (state : σ)
    (ran : List W) :
    Passes layout device stream ⟨layout.bytes before, state, ran⟩
      (boundaryCommands since stallPrefetcher)
      ⟨layout.bytes (before ++ boundaryCommands since stallPrefetcher),
        if stallPrefetcher then device.settle state else state, ran⟩ := by
  have stalled (before : List (Command W))
      (shape : stream = before ++ .waitPrefetchStall :: after) :
      Passes layout device stream ⟨layout.bytes before, state, ran⟩ [.waitPrefetchStall]
        ⟨layout.bytes (before ++ [.waitPrefetchStall]), device.settle state, ran⟩ := by
    refine .next ?_ ?_ .here
    · simp [shape]
    · simp [Replay.step, shape]
  cases since with
  | none =>
    cases stallPrefetcher with
    | false => simpa [boundaryCommands] using Passes.here
    | true => simpa [boundaryCommands] using stalled before (by simpa [boundaryCommands] using shape)
  | some workersCompleted =>
    have reset : Passes layout device stream ⟨layout.bytes before, state, ran⟩
        [.resetWorkers workersCompleted]
        ⟨layout.bytes (before ++ [.resetWorkers workersCompleted]), state, ran⟩ := by
      refine .next ?_ ?_ .here
      · simp [shape, boundaryCommands]
      · simp [Replay.step, shape, boundaryCommands]
    cases stallPrefetcher with
    | false => simpa [boundaryCommands] using reset
    | true =>
      have settled := stalled (before ++ [.resetWorkers workersCompleted])
        (by simpa [boundaryCommands] using shape)
      simpa [boundaryCommands] using reset.trans settled

/-- A go signal launches nothing. -/
theorem passes_goSignal (shape : stream = before ++ .goSignal :: after) (state : σ) (ran : List W) :
    Passes layout device stream ⟨layout.bytes before, state, ran⟩ [.goSignal]
      ⟨layout.bytes (before ++ [.goSignal]), state, ran⟩ := by
  refine .next ?_ ?_ .here
  · simp [shape]
  · simp [Replay.step, shape]

end

/-- A taken skip reaches the bytes it names when they fit the stride. -/
theorem skipStride_taken (state : σ) (cmd : ExecBufSkipCmd) (bytes : Nat)
    (taken : cmd.mode = .always ∨ device.index state cmd.baseAddr ≠ cmd.value)
    (names : cmd.bytes = UInt32.ofNat bytes) (fits : layout.skipSize + bytes < 2 ^ 32) :
    skipStride layout device state cmd = layout.skipSize + bytes := by
  have word : cmd.bytes.toNat = bytes := by
    rw [names, UInt32.toNat_ofNat_of_lt' (Nat.lt_of_le_of_lt (Nat.le_add_left _ _) fits)]
  have skips : (cmd.mode != .always && device.index state cmd.baseAddr == cmd.value) = false := by
    rcases taken with always | differs
    · simp [always]
    · simp [differs]
  rw [skipStride, skips, word]
  simpa using Nat.mod_eq_of_lt fits

/-- A test whose value the index equals goes on with the next command. -/
theorem skipStride_equal (state : σ) (cmd : ExecBufSkipCmd) (mode : cmd.mode = .ifNotEqual)
    (equal : device.index state cmd.baseAddr = cmd.value) :
    skipStride layout device state cmd = layout.skipSize := by
  simp [skipStride, mode, equal]

mutual

/-- The code of a tree, anywhere in a stream of 32-bit offsets, goes through the tree's
commands and does what the tree does. -/
theorem CaseTree.passes (tree : CaseTree W) (since : Option Nat)
    (stream before after : List (Command W)) (fits : layout.bytes stream < 2 ^ 32)
    (shape : stream = before ++ ((tree.code layout workers since).1 ++ after)) (state : σ)
    (ran : List W) :
    Passes layout device stream ⟨layout.bytes before, state, ran⟩
      (tree.trail layout workers device since (state, ran))
      ⟨layout.bytes (before ++ (tree.code layout workers since).1),
        (tree.replay device (state, ran)).1, (tree.replay device (state, ran)).2⟩ := by
  match tree with
  | .done => simpa [CaseTree.code, CaseTree.replay, CaseTree.trail] using Passes.here
  | .workload node rest =>
    rw [CaseTree.code] at shape
    have first := passes_workload layout device stream before _ node (by simpa using shape) state ran
    have tail := CaseTree.passes rest (some (since.getD 0 + workers node)) stream
      (before ++ [.workload node]) after fits (by simpa using shape)
      (device.launch node state) (ran ++ [node])
    simpa [CaseTree.code, CaseTree.replay, CaseTree.trail] using first.trans tail
  | .case indexAddress branches rest =>
    rw [CaseTree.code] at shape
    have drained := passes_boundary layout device stream before _ since true
      (by simpa using shape) state ran
    have inside := Branches.passes branches indexAddress 0 stream
      (before ++ boundaryCommands since true) _ fits (by simpa using shape)
      (device.settle state) ran (Nat.zero_le _)
    have tail := CaseTree.passes rest none stream
      (before ++ boundaryCommands since true ++ branches.code layout workers indexAddress 0) after
      fits (by simpa using shape)
    simpa [CaseTree.code, CaseTree.replay, CaseTree.trail] using
      (drained.trans inside).trans (tail _ _)

/-- Branches from `number` on, reached with an index the branches before did not take, do what
the selected one does and end at the end of the case. -/
theorem Branches.passes (branches : Branches W) (indexAddress : UInt32) (number : Nat)
    (stream before after : List (Command W)) (fits : layout.bytes stream < 2 ^ 32)
    (shape : stream = before ++ (branches.code layout workers indexAddress number ++ after))
    (state : σ) (ran : List W)
    (later : number ≤ (device.index state indexAddress).toNat) :
    Passes layout device stream ⟨layout.bytes before, state, ran⟩
      (branches.trail layout workers device indexAddress number
        ((device.index state indexAddress).toNat - number) (state, ran))
      ⟨layout.bytes (before ++ branches.code layout workers indexAddress number),
        (branches.replay device ((device.index state indexAddress).toNat - number) (state, ran)).1,
        (branches.replay device ((device.index state indexAddress).toNat - number)
          (state, ran)).2⟩ := by
  match branches with
  | .last body =>
    let test : ExecBufSkipCmd :=
      { mode := .always, baseAddr := indexAddress, value := UInt32.ofNat number, bytes := 0 }
    let inside := body.code layout workers none
    have code : (Branches.last body).code layout workers indexAddress number =
        .skip test :: (inside.1 ++ boundaryCommands inside.2 false) := by rw [Branches.code]
    have flat : stream = before ++
        .skip test :: (inside.1 ++ (boundaryCommands inside.2 false ++ after)) := by
      rw [shape, code]
      simp
    have total := congrArg layout.bytes flat
    simp only [layout.bytes_append, layout.bytes_cons, layout.size_skip] at total
    have start : layout.bytes (before ++ [.skip test]) = layout.bytes before + layout.skipSize := by
      simp [layout.size_skip]
    -- The last test is a skip of nothing: every index goes on into the branch.
    have entered := passes_skip layout device stream before _ test flat state ran
    rw [skipStride_taken layout device state test 0 (.inl rfl) rfl (by omega)] at entered
    have done := CaseTree.passes body none stream (before ++ [.skip test])
      (boundaryCommands inside.2 false ++ after) fits (by rw [flat]; simp [inside]) state ran
    have drained := passes_boundary layout device stream (before ++ [.skip test] ++ inside.1) after
      inside.2 false (by rw [flat]; simp) (body.replay device (state, ran)).1
      (body.replay device (state, ran)).2
    have finish : before ++ [.skip test] ++ inside.1 ++ boundaryCommands inside.2 false =
        before ++ .skip test :: (inside.1 ++ boundaryCommands inside.2 false) := by simp
    rw [start] at done
    rw [finish] at drained
    exact entered.trans (done.trans drained)
  | .more body rest =>
    have small : number < 2 ^ 32 := Nat.lt_of_le_of_lt later (UInt32.toNat_lt _)
    let inside := body.code layout workers none
    let leaving := inside.1 ++ boundaryCommands inside.2 false
    let others := rest.code layout workers indexAddress (number + 1)
    let test : ExecBufSkipCmd :=
      { mode := .ifNotEqual, baseAddr := indexAddress, value := UInt32.ofNat number,
        bytes := UInt32.ofNat (layout.bytes leaving + layout.skipSize) }
    let leave : ExecBufSkipCmd :=
      { mode := .always, baseAddr := indexAddress, value := 0,
        bytes := UInt32.ofNat (layout.bytes others) }
    have code : (Branches.more body rest).code layout workers indexAddress number =
        .skip test :: (leaving ++ .skip leave :: others) := by rw [Branches.code]
    have flat : stream = before ++ .skip test :: (leaving ++ .skip leave :: (others ++ after)) := by
      rw [shape, code]
      simp
    have total := congrArg layout.bytes flat
    simp only [layout.bytes_append, layout.bytes_cons, layout.size_skip] at total
    have tested := passes_skip layout device stream before _ test flat state ran
    by_cases selected : (device.index state indexAddress).toNat = number
    · have equal : device.index state indexAddress = UInt32.ofNat number := by
        rw [← selected, UInt32.ofNat_toNat]
      rw [skipStride_equal layout device state test rfl equal] at tested
      have done := CaseTree.passes body none stream (before ++ [.skip test])
        (boundaryCommands inside.2 false ++ .skip leave :: (others ++ after)) fits
        (by rw [flat]; simp [leaving, inside]) state ran
      have drained := passes_boundary layout device stream (before ++ [.skip test] ++ inside.1)
        (.skip leave :: (others ++ after)) inside.2 false (by rw [flat]; simp [leaving])
        (body.replay device (state, ran)).1 (body.replay device (state, ran)).2
      have left := passes_skip layout device stream (before ++ .skip test :: leaving)
        (others ++ after) leave (by rw [flat]; simp) (body.replay device (state, ran)).1
        (body.replay device (state, ran)).2
      rw [skipStride_taken layout device _ leave (layout.bytes others) (.inl rfl) rfl
        (by omega)] at left
      rw [selected, Nat.sub_self, Branches.replay, Branches.trail, code]
      have start : layout.bytes (before ++ [.skip test]) = layout.bytes before + layout.skipSize := by
        simp [layout.size_skip]
      have middle : before ++ [.skip test] ++ inside.1 ++ boundaryCommands inside.2 false =
          before ++ .skip test :: leaving := by simp [leaving]
      have finish : layout.bytes (before ++ .skip test :: (leaving ++ .skip leave :: others)) =
          layout.bytes (before ++ .skip test :: leaving) +
            (layout.skipSize + layout.bytes others) := by
        simp [layout.size_skip, Nat.add_assoc]
      rw [start] at done
      rw [middle] at drained
      rw [finish]
      exact tested.trans (done.trans (drained.trans left))
    · have differs : device.index state indexAddress ≠ UInt32.ofNat number := by
        intro equal
        rw [equal, UInt32.toNat_ofNat_of_lt' small] at selected
        exact selected rfl
      rw [skipStride_taken layout device state test (layout.bytes leaving + layout.skipSize)
        (.inr differs) rfl (by omega)] at tested
      have tail := Branches.passes rest indexAddress (number + 1) stream
        (before ++ .skip test :: (leaving ++ [.skip leave])) after fits
        (by rw [flat]; simp [others]) state ran (by omega)
      obtain ⟨next, isNext⟩ : ∃ next, (device.index state indexAddress).toNat - number =
          next + 1 := ⟨_, (Nat.succ_pred_eq_of_pos (by omega)).symm⟩
      have same : (device.index state indexAddress).toNat - (number + 1) = next := by omega
      have start : layout.bytes (before ++ .skip test :: (leaving ++ [.skip leave])) =
          layout.bytes before + (layout.skipSize + (layout.bytes leaving + layout.skipSize)) := by
        simp [layout.size_skip]
      have finish : before ++ .skip test :: (leaving ++ [.skip leave]) ++ others =
          before ++ .skip test :: (leaving ++ .skip leave :: others) := by simp
      rw [same, start, finish] at tail
      rw [isNext, Branches.replay, Branches.trail, code]
      exact tested.trans tail

end

end Replaying

section

variable {layout}

/-- The end of a list is a boundary. -/
theorem boundary_end (stream : List (Command W)) :
    layout.Boundary stream (layout.bytes stream) :=
  ⟨stream, [], by simp, rfl⟩

/-- Commands added behind a stream keep its boundaries. -/
theorem Boundary.append {stream : List (Command W)} {offset : Nat}
    (boundary : layout.Boundary stream offset) (more : List (Command W)) :
    layout.Boundary (stream ++ more) offset := by
  obtain ⟨before, after, rfl, same⟩ := boundary
  exact ⟨before, after ++ more, by simp, same⟩

/-- The empty stream has no skip. -/
theorem SkipsLand.nil : SkipsLand layout ([] : List (Command W)) := by
  intro before cmd after shape
  simp at shape

/-- A command in front lands when it is no skip, or a skip that lands in what follows. -/
theorem SkipsLand.cons {command : Command W} {rest : List (Command W)}
    (lands : ∀ cmd, command = .skip cmd → layout.Boundary rest cmd.bytes.toNat)
    (restLands : SkipsLand layout rest) : SkipsLand layout (command :: rest) := by
  intro before cmd after shape
  cases before with
  | nil =>
    rw [List.nil_append, List.cons.injEq] at shape
    obtain ⟨isSkip, rfl⟩ := shape
    exact lands cmd isSkip
  | cons head before =>
    rw [List.cons_append, List.cons.injEq] at shape
    exact restLands before cmd after shape.2

/-- Two streams whose skips land, in order. -/
theorem SkipsLand.append {left right : List (Command W)} (leftLands : SkipsLand layout left)
    (rightLands : SkipsLand layout right) : SkipsLand layout (left ++ right) := by
  induction left with
  | nil => exact rightLands
  | cons command rest ih =>
    apply SkipsLand.cons
    · intro cmd isSkip
      exact Boundary.append (leftLands [] cmd rest (by simp [isSkip])) right
    · exact ih fun before cmd after shape =>
        leftLands (command :: before) cmd after (by simp [shape])

/-- A boundary holds no skip. -/
theorem SkipsLand.boundaryCommands (since : Option Nat) (stallPrefetcher : Bool) :
    SkipsLand layout (boundaryCommands since stallPrefetcher : List (Command W)) := by
  cases since <;> cases stallPrefetcher <;>
    repeat' first | exact SkipsLand.nil | apply SkipsLand.cons | simp

mutual

/-- The skips of a tree's code land on its commands. -/
theorem CaseTree.skipsLand (tree : CaseTree W) (since : Option Nat)
    (fits : layout.bytes (tree.code layout workers since).1 < 2 ^ 32) :
    SkipsLand layout (tree.code layout workers since).1 := by
  match tree with
  | .done => exact SkipsLand.nil
  | .workload node rest =>
    rw [CaseTree.code] at fits ⊢
    exact SkipsLand.cons (by simp) (CaseTree.skipsLand rest _
      (by simp only [layout.bytes_cons] at fits; omega))
  | .case indexAddress branches rest =>
    rw [CaseTree.code] at fits ⊢
    simp only [layout.bytes_append] at fits
    exact (SkipsLand.boundaryCommands since true).append
      ((Branches.skipsLand branches indexAddress 0 (by omega)).append
        (CaseTree.skipsLand rest none (by omega)))

/-- The skips of a case's code land on its commands or at its end. -/
theorem Branches.skipsLand (branches : Branches W) (indexAddress : UInt32) (number : Nat)
    (fits : layout.bytes (branches.code layout workers indexAddress number) < 2 ^ 32) :
    SkipsLand layout (branches.code layout workers indexAddress number) := by
  match branches with
  | .last body =>
    rw [Branches.code] at fits ⊢
    simp only [layout.bytes_cons, layout.bytes_append] at fits
    refine SkipsLand.cons ?_ ((CaseTree.skipsLand body none (by omega)).append
      (SkipsLand.boundaryCommands _ false))
    rintro cmd ⟨⟩
    exact layout.boundary_zero _
  | .more body rest =>
    rw [Branches.code] at fits ⊢
    simp only [layout.bytes_cons, layout.bytes_append, layout.size_skip] at fits
    have leaving := (CaseTree.skipsLand body none (by omega)).append
      (SkipsLand.boundaryCommands (body.code layout workers none).2 false)
    have others := Branches.skipsLand rest indexAddress (number + 1) (by omega)
    refine SkipsLand.cons ?_ (leaving.append (SkipsLand.cons ?_ others))
    · -- The test lands behind the skip that leaves the branch.
      rintro cmd ⟨⟩
      refine ⟨(body.code layout workers none).1 ++
          boundaryCommands (body.code layout workers none).2 false ++ [.skip _],
        rest.code layout workers indexAddress (number + 1), by simp; rfl, ?_⟩
      simp only [UInt32.toNat_ofNat', layout.bytes_append, layout.bytes_cons, layout.bytes_nil,
        layout.size_skip]
      omega
    · -- The skip that leaves the branch lands behind all others.
      rintro cmd ⟨⟩
      have named : (UInt32.ofNat (layout.bytes
          (rest.code layout workers indexAddress (number + 1)))).toNat =
          layout.bytes (rest.code layout workers indexAddress (number + 1)) :=
        UInt32.toNat_ofNat_of_lt' (show _ < 2 ^ 32 by omega)
      rw [named]
      exact boundary_end _

end

end

/-- Branch markers of a node list. -/
def branchMarkers (nodes : List (MeshTraceNode W)) : Nat :=
  nodes.countP fun | .caseBranch => true | _ => false

@[simp] theorem branchMarkers_append (left right : List (MeshTraceNode W)) :
    branchMarkers (left ++ right) = branchMarkers left + branchMarkers right :=
  List.countP_append

@[simp] theorem branchMarkers_cons_workload (node : W) (rest : List (MeshTraceNode W)) :
    branchMarkers (.workload node :: rest) = branchMarkers rest := rfl

@[simp] theorem branchMarkers_cons_caseBegin (indexAddress : UInt32)
    (rest : List (MeshTraceNode W)) :
    branchMarkers (.caseBegin indexAddress :: rest) = branchMarkers rest := rfl

@[simp] theorem branchMarkers_cons_caseBranch (rest : List (MeshTraceNode W)) :
    branchMarkers (.caseBranch :: rest) = branchMarkers rest + 1 := by
  simp [branchMarkers]

@[simp] theorem branchMarkers_cons_caseEnd (rest : List (MeshTraceNode W)) :
    branchMarkers (.caseEnd :: rest) = branchMarkers rest := rfl

/-- No node takes back bytes, and a branch marker writes at least one. -/
theorem recordNode_bytes {r after : Recorder W} {node : MeshTraceNode W}
    (recorded : r.recordNode layout workers node = .ok after) :
    layout.bytes r.bypassData + branchMarkers [node] ≤ layout.bytes after.bypassData := by
  cases node with
  | workload node =>
    obtain rfl := Except.ok.inj recorded
    simp [Recorder.append, branchMarkers]
  | caseBegin indexAddress =>
    obtain rfl := Except.ok.inj recorded
    simp [Recorder.emitBoundary, Recorder.append, branchMarkers]
  | caseBranch =>
    have written (cmd : ExecBufSkipCmd) := layout.positive (.skip cmd)
    rw [Recorder.recordNode] at recorded
    cases cases : r.openCases with
    | nil => simp [cases] at recorded
    | cons last outer =>
      simp only [cases] at recorded
      split at recorded
      · obtain rfl := Except.ok.inj recorded
        have landed := bytes_landAt layout
        simp only [landAt] at landed
        simp only [Recorder.emitSkip, Recorder.append, Recorder.landSkip, Recorder.modifySkip,
          Recorder.emitBoundary, layout.bytes_append, layout.bytes_cons, layout.bytes_nil, landed,
          branchMarkers_cons_caseBranch]
        have := written { mode := .ifNotEqual, baseAddr := last.indexAddress,
                          value := last.branches, bytes := 0 }
        simp only [branchMarkers, List.countP_nil]
        omega
      · obtain rfl := Except.ok.inj recorded
        simp only [Recorder.emitSkip, Recorder.append, layout.bytes_append, layout.bytes_cons,
          layout.bytes_nil, branchMarkers_cons_caseBranch]
        have := written { mode := .ifNotEqual, baseAddr := last.indexAddress,
                          value := last.branches, bytes := 0 }
        simp only [branchMarkers, List.countP_nil]
        omega
  | caseEnd =>
    rw [Recorder.recordNode] at recorded
    cases cases : r.openCases with
    | nil => simp [cases] at recorded
    | cons last outer =>
      simp only [cases] at recorded
      split at recorded
      · obtain rfl := Except.ok.inj recorded
        have landed (writePtr : Nat) (skips : List Nat) (data : List (Command W)) :
            layout.bytes (skips.foldl (landAt layout writePtr) data) = layout.bytes data := by
          induction skips generalizing data with
          | nil => rfl
          | cons first rest ih => rw [List.foldl_cons, ih, bytes_landAt]
        rw [foldl_landSkip, landed]
        simp [Recorder.modifySkip, Recorder.emitBoundary, Recorder.append, branchMarkers,
          layout.bytes_modifyAt (size_changeSkip layout _)]
      · contradiction

/-- A recorded list of nodes has at most as many branch markers as bytes. -/
theorem recordNodes_bytes {r after : Recorder W} {nodes : List (MeshTraceNode W)}
    (recorded : r.recordNodes layout workers nodes = .ok after) :
    layout.bytes r.bypassData + branchMarkers nodes ≤ layout.bytes after.bypassData := by
  induction nodes generalizing r with
  | nil =>
    obtain rfl := Except.ok.inj recorded
    simp [branchMarkers]
  | cons node rest ih =>
    rw [Recorder.recordNodes] at recorded
    cases first : r.recordNode layout workers node with
    | error => simp [first, bind, Except.bind] at recorded
    | ok middle =>
      simp only [first, bind, Except.bind] at recorded
      have one := recordNode_bytes layout workers first
      have others := ih recorded
      have split := branchMarkers_append [node] rest
      rw [List.singleton_append] at split
      omega

mutual

/-- With fewer than 2³² branch markers in all, no case's counter wraps. -/
theorem CaseTree.counted (tree : CaseTree W) (few : branchMarkers tree.nodes < 2 ^ 32) :
    tree.Counted := by
  match tree with
  | .done => exact trivial
  | .workload node rest =>
    exact CaseTree.counted rest (by simpa [CaseTree.nodes] using few)
  | .case indexAddress branches rest =>
    simp only [CaseTree.nodes, branchMarkers_cons_caseBegin, branchMarkers_cons_caseBranch,
      branchMarkers_append, branchMarkers_cons_caseEnd] at few
    exact ⟨Branches.counted branches 0 (by omega), CaseTree.counted rest (by omega)⟩

/-- The branches from `number` on, together with those before, do not wrap the counter. -/
theorem Branches.counted (branches : Branches W) (number : Nat)
    (few : number + 1 + branchMarkers branches.nodes < 2 ^ 32) : branches.Counted number := by
  match branches with
  | .last body =>
    rw [Branches.nodes] at few
    exact ⟨by omega, CaseTree.counted body (by omega)⟩
  | .more body rest =>
    simp only [Branches.nodes, branchMarkers_append, branchMarkers_cons_caseBranch] at few
    exact ⟨by omega, CaseTree.counted body (by omega),
      Branches.counted rest (number + 1) (by omega)⟩

end

/-- What `record_end` puts between the nodes' commands and the end of the stream. -/
def closing (tree : CaseTree W) : List (Command W) :=
  if tree.nodes.any MeshTraceNode.isMarker then
    boundaryCommands (tree.code layout workers none).2 false ++ [.goSignal]
  else []

/-- A tree whose counters do not wrap is recorded as its code. -/
theorem recordEnd_tree (tree : CaseTree W) (counted : tree.Counted) :
    recordEnd layout workers tree.nodes = .ok
      ((tree.code layout workers none).1 ++ closing layout workers tree ++ [.execBufEnd]) := by
  have nodes := CaseTree.recordNodes layout workers tree counted {}
  simp only [recordEnd, nodes, bind, Except.bind, closing, List.isEmpty_nil, if_true]
  cases tree.nodes.any MeshTraceNode.isMarker <;>
    simp [Recorder.emitBoundary, Recorder.append]

/-- A recorded stream has fewer branch markers than bytes. -/
theorem branchMarkers_lt_bytes {nodes : List (MeshTraceNode W)} {stream : List (Command W)}
    (recorded : recordEnd layout workers nodes = .ok stream) :
    branchMarkers nodes < layout.bytes stream := by
  rw [recordEnd] at recorded
  cases all : Recorder.recordNodes layout workers {} nodes with
  | error => simp [all, bind, Except.bind] at recorded
  | ok r =>
    have written := recordNodes_bytes layout workers all
    have ending := layout.positive .execBufEnd
    simp only [all, bind, Except.bind] at recorded
    split at recorded
    · obtain rfl := Except.ok.inj recorded
      split <;> simp only [Recorder.emitBoundary, Recorder.append, layout.bytes_append,
        layout.bytes_cons] <;> omega
    · contradiction

/-- A well-bracketed recording replays as its tree: from any device the stream runs up to its
`exec_buf_end`, leaving the device the tree leaves and having run the workloads the tree runs,
in order; every skip in it lands on a command. The stream's offsets are 32-bit. -/
theorem trace_cases_compile (device : Device W σ) (tree : CaseTree W) (stream : List (Command W))
    (recorded : recordEnd layout workers tree.nodes = .ok stream)
    (fits : layout.bytes stream < 2 ^ 32) (state : σ) :
    SkipsLand layout stream ∧
      ∃ final : Replay W σ, Runs layout device stream ⟨0, state, []⟩ final ∧
        layout.entryAt stream final.position = some .execBufEnd ∧
        (final.device, final.ran) = tree.replay device (state, []) := by
  have counted := CaseTree.counted tree
    (Nat.lt_trans (branchMarkers_lt_bytes layout workers recorded) fits)
  rw [recordEnd_tree layout workers tree counted] at recorded
  obtain rfl := Except.ok.inj recorded
  have parts := fits
  simp only [layout.bytes_append] at parts
  have ending : SkipsLand layout [(.execBufEnd : Command W)] :=
    SkipsLand.cons (by simp) SkipsLand.nil
  have closed : SkipsLand layout (closing layout workers tree) := by
    rw [closing]
    split
    · exact (SkipsLand.boundaryCommands _ false).append (SkipsLand.cons (by simp) SkipsLand.nil)
    · exact SkipsLand.nil
  refine ⟨((CaseTree.skipsLand workers tree none (by omega)).append closed).append ending, ?_⟩
  have ran := (CaseTree.passes layout workers device tree none _ []
    (closing layout workers tree ++ [.execBufEnd]) fits (by simp) state []).runs
  have ended : Runs layout device
      ((tree.code layout workers none).1 ++ closing layout workers tree ++ [.execBufEnd])
      ⟨layout.bytes (tree.code layout workers none).1, (tree.replay device (state, [])).1,
        (tree.replay device (state, [])).2⟩
      ⟨layout.bytes ((tree.code layout workers none).1 ++ closing layout workers tree),
        (tree.replay device (state, [])).1, (tree.replay device (state, [])).2⟩ := by
    rw [closing]
    split
    · have drained := passes_boundary layout device
        ((tree.code layout workers none).1 ++
          (boundaryCommands (tree.code layout workers none).2 false ++ [.goSignal]) ++
            [.execBufEnd])
        (tree.code layout workers none).1 [.goSignal, .execBufEnd]
        (tree.code layout workers none).2 false (by simp) (tree.replay device (state, [])).1
        (tree.replay device (state, [])).2
      have signalled := passes_goSignal layout device
        ((tree.code layout workers none).1 ++
          (boundaryCommands (tree.code layout workers none).2 false ++ [.goSignal]) ++
            [.execBufEnd])
        ((tree.code layout workers none).1 ++
          boundaryCommands (tree.code layout workers none).2 false) [.execBufEnd] (by simp)
        (tree.replay device (state, [])).1 (tree.replay device (state, [])).2
      simpa using (drained.trans signalled).runs
    · simpa using Relation.ReflTransGen.refl
  exact ⟨_, ran.trans ended, layout.entryAt_append _ _ [], rfl⟩

/-- Sixteen bytes for every command. -/
def evenLayout {W : Type} : Layout W where
  size _ := 16
  positive _ := by decide
  skipSize := 16
  size_skip _ := rfl

/-- A device holding one index word per address, which no workload changes. -/
def indexDevice : Device Nat (UInt32 → UInt32) where
  launch _ state := state
  settle state := state
  index state address := state address

/-- One workload, then a case of two branches whose second is empty. -/
def twoWay : CaseTree Nat :=
  .workload 5 (.case 64 (.more (.workload 7 .done) (.last .done)) .done)

/-- With index 9 the case takes its last branch and only the first workload runs. -/
theorem trace_cases_compile_twoWay :
    ∃ stream, recordEnd evenLayout (fun _ => 1) twoWay.nodes = .ok stream ∧
      SkipsLand evenLayout stream ∧
      ∃ final : Replay Nat (UInt32 → UInt32),
        Runs evenLayout indexDevice stream ⟨0, fun _ => 9, []⟩ final ∧
        evenLayout.entryAt stream final.position = some .execBufEnd ∧
        final.ran = [5] := by
  obtain ⟨stream, recorded, fits⟩ : ∃ stream,
      recordEnd evenLayout (fun _ => 1) twoWay.nodes = .ok stream ∧
        evenLayout.bytes stream < 2 ^ 32 := ⟨_, rfl, by decide⟩
  obtain ⟨lands, final, runs, ended, replayed⟩ :=
    trace_cases_compile evenLayout (fun _ => 1) indexDevice twoWay stream recorded fits fun _ => 9
  exact ⟨stream, recorded, lands, final, runs, ended, congrArg Prod.snd replayed⟩

end Libtt.Trace

import Libtt.Trace.CaseCorrect
import Libtt.Trace.Dispatch

/-!
# Replays find the dispatch state they were built for

The bookkeeping is that of a tree whose workloads are built, `CaseTree.build`, and the stream is its
code.
-/
namespace Libtt.Trace

open Libtt.Foundation
open Recorder (boundaryCommands)

variable {W L P M R K σ : Type}

/-- The workloads a tree begins with. -/
def CaseTree.run : CaseTree W → List W
  | .workload node rest => node :: rest.run
  | .done | .case _ _ _ => []

/-- The workloads the first branch begins with. -/
def Branches.run : Branches W → List W
  | .last body | .more body _ => body.run

mutual

/-- A tree with the commands of its workloads built. -/
def CaseTree.build (dispatcher : Dispatcher W L P M) :
    CaseTree W → Bookkeeping W L M → Option Nat → CaseTree (Built W L M)
  | .done, _, _ => .done
  | .workload node rest, books, since =>
    .workload (books.built since node) (rest.build dispatcher (books.launchNode dispatcher node)
      (some (since.getD 0 + dispatcher.workers node)))
  | .case indexAddress branches rest, _, _ =>
    .case indexAddress (branches.build dispatcher)
      (rest.build dispatcher (.boundary dispatcher rest.run) none)

/-- Branches with the commands of their workloads built. -/
def Branches.build (dispatcher : Dispatcher W L P M) : Branches W → Branches (Built W L M)
  | .last body => .last (body.build dispatcher (.boundary dispatcher body.run) none)
  | .more body rest =>
    .more (body.build dispatcher (.boundary dispatcher body.run) none) (rest.build dispatcher)

end

/-- The bookkeeping at the end of a tree. -/
def CaseTree.books (dispatcher : Dispatcher W L P M) :
    CaseTree W → Bookkeeping W L M → Bookkeeping W L M
  | .done, books => books
  | .workload node rest, books => rest.books dispatcher (books.launchNode dispatcher node)
  | .case _ _ rest, _ => rest.books dispatcher (.boundary dispatcher rest.run)

theorem CaseTree.runOf_nodes (tree : CaseTree W) {tail : List (MeshTraceNode W)}
    (stops : runOf tail = []) : runOf (tree.nodes ++ tail) = tree.run := by
  match tree with
  | .done => simpa [CaseTree.nodes, CaseTree.run] using stops
  | .workload node rest =>
    have later := CaseTree.runOf_nodes rest stops
    simp [CaseTree.nodes, CaseTree.run, runOf, later]
  | .case indexAddress branches rest => simp [CaseTree.nodes, CaseTree.run, runOf]

theorem Branches.runOf_nodes (branches : Branches W) (tail : List (MeshTraceNode W)) :
    runOf (branches.nodes ++ .caseEnd :: tail) = branches.run := by
  cases branches with
  | last body => exact body.runOf_nodes rfl
  | more body rest =>
    rw [Branches.nodes, List.append_assoc]
    exact body.runOf_nodes rfl

/-! Building keeps the shape of a tree. -/

mutual

theorem CaseTree.counted_build (dispatcher : Dispatcher W L P M) (tree : CaseTree W)
    (books : Bookkeeping W L M) (since : Option Nat) :
    (tree.build dispatcher books since).Counted ↔ tree.Counted := by
  match tree with
  | .done => simp [CaseTree.build, CaseTree.Counted]
  | .workload node rest =>
    rw [CaseTree.build, CaseTree.Counted, CaseTree.Counted]
    exact CaseTree.counted_build dispatcher rest _ _
  | .case indexAddress branches rest =>
    rw [CaseTree.build, CaseTree.Counted, CaseTree.Counted,
      Branches.counted_build dispatcher branches, CaseTree.counted_build dispatcher rest]

theorem Branches.counted_build (dispatcher : Dispatcher W L P M) (branches : Branches W)
    (number : Nat) : (branches.build dispatcher).Counted number ↔ branches.Counted number := by
  match branches with
  | .last body =>
    rw [Branches.build, Branches.Counted, Branches.Counted,
      CaseTree.counted_build dispatcher body]
  | .more body rest =>
    rw [Branches.build, Branches.Counted, Branches.Counted,
      CaseTree.counted_build dispatcher body, Branches.counted_build dispatcher rest]

end

section Recording

variable (layout : Layout (Built W L M)) (dispatcher : Dispatcher W L P M)

theorem recordRange_cons {r after : Recorder (Built W L M)} {books : Bookkeeping W L M}
    {node : MeshTraceNode W} (rest : List (MeshTraceNode W))
    (recorded : r.recordNode layout dispatcher.builtWorkers (node.build books r.descriptors) =
      .ok after) :
    recordRange layout dispatcher r books (node :: rest) =
      recordRange layout dispatcher after
        (books.next dispatcher r.openCases (runOf rest) node) rest := by
  rw [recordRange, recorded]
  rfl

mutual

/-- Recording a tree records its built tree, up to what follows it. -/
theorem CaseTree.recordRange (tree : CaseTree W) (counted : tree.Counted)
    {tail : List (MeshTraceNode W)} (stops : runOf tail = []) (r : Recorder (Built W L M))
    (books : Bookkeeping W L M) :
    Trace.recordRange layout dispatcher r books (tree.nodes ++ tail) =
      Trace.recordRange layout dispatcher
        { r with
          bypassData := r.bypassData ++ ((tree.build dispatcher books r.descriptors).code layout
            dispatcher.builtWorkers r.descriptors).1
          descriptors := ((tree.build dispatcher books r.descriptors).code layout
            dispatcher.builtWorkers r.descriptors).2 }
        (tree.books dispatcher books) tail := by
  match tree with
  | .done => simp [CaseTree.nodes, CaseTree.build, CaseTree.code, CaseTree.books]
  | .workload node rest =>
    have later := CaseTree.recordRange rest counted stops
      { r.append [.workload (books.built r.descriptors node)] with
        descriptors := some (r.descriptors.getD 0 + dispatcher.workers node) }
      (books.launchNode dispatcher node)
    refine later.trans ?_
    simp [Recorder.append, CaseTree.build, CaseTree.code, CaseTree.books, Dispatcher.builtWorkers,
      Bookkeeping.built]
  | .case indexAddress branches rest =>
    obtain ⟨inner, later⟩ := counted
    have inside := Branches.recordRange branches indexAddress 0 inner
      (r.bypassData ++ boundaryCommands r.descriptors true) [] r.openCases (rest.nodes ++ tail)
    rw [Branches.recordNodes layout dispatcher.builtWorkers (branches.build dispatcher)
      indexAddress 0 ((Branches.counted_build dispatcher branches 0).mpr inner)] at inside
    rw [List.foldl_nil, rest.runOf_nodes stops] at inside
    have tailed := CaseTree.recordRange rest later stops
      { bypassData := r.bypassData ++ boundaryCommands r.descriptors true ++
          (branches.build dispatcher).code layout dispatcher.builtWorkers indexAddress 0
        openCases := r.openCases
        descriptors := none } (.boundary dispatcher rest.run)
    have parts : (CaseTree.case indexAddress branches rest).nodes ++ tail =
        .caseBegin indexAddress :: .caseBranch ::
          (branches.nodes ++ .caseEnd :: (rest.nodes ++ tail)) := by
      simp [CaseTree.nodes]
    rw [parts, recordRange_cons layout dispatcher _ rfl, recordRange_cons layout dispatcher _ rfl]
    have books' : Bookkeeping.next dispatcher
        (books.next dispatcher r.openCases [] (.caseBegin indexAddress))
        (({ indexAddress } : OpenCase) :: r.openCases)
        (runOf (branches.nodes ++ .caseEnd :: (rest.nodes ++ tail))) .caseBranch =
          .boundary dispatcher branches.run := by
      rw [Branches.runOf_nodes]
      rfl
    refine (congrArg (fun books => Trace.recordRange layout dispatcher _ books _) books').trans ?_
    refine inside.trans (tailed.trans ?_)
    simp [CaseTree.build, CaseTree.code, CaseTree.books]

/-- Recording the branches of a case records the built branches and the end of the case. -/
theorem Branches.recordRange (branches : Branches W) (indexAddress : UInt32) (number : Nat)
    (counted : branches.Counted number) (before : List (Command (Built W L M)))
    (skips : List Nat) (outer : List OpenCase) (tail : List (MeshTraceNode W)) :
    Trace.recordRange layout dispatcher
        (insideBranch layout indexAddress number before [] skips outer none)
        (.boundary dispatcher branches.run) (branches.nodes ++ .caseEnd :: tail) =
      ((insideBranch layout indexAddress number before [] skips outer none).recordNodes layout
        dispatcher.builtWorkers ((branches.build dispatcher).nodes ++ [.caseEnd])).bind fun after =>
          Trace.recordRange layout dispatcher after (.boundary dispatcher (runOf tail)) tail := by
  match branches with
  | .last body =>
    obtain ⟨small, inner⟩ := counted
    obtain ⟨middle, since, walked, recorded⟩ := body.insideBranch_recorded inner
      indexAddress number before skips outer (.caseEnd :: tail) rfl
    have ended := recordNode_caseEnd layout dispatcher.builtWorkers indexAddress small before
      middle skips outer since
    rw [Branches.nodes, Branches.run, walked, recordRange_cons layout dispatcher tail ended,
      Branches.build, Branches.nodes, Recorder.recordNodes_append, recorded]
    simp only [Except.bind, Recorder.recordNodes, ended, bind]
    rfl
  | .more body rest =>
    obtain ⟨small, inner, later⟩ := counted
    obtain ⟨middle, since, walked, recorded⟩ := body.insideBranch_recorded inner
      indexAddress number before skips outer (.caseBranch :: (rest.nodes ++ .caseEnd :: tail)) rfl
    have marked := recordNode_caseBranch layout dispatcher.builtWorkers indexAddress small before
      middle skips outer since rfl
    have following := fun before skips =>
      Branches.recordRange rest indexAddress (number + 1) later before skips outer tail
    have books : (body.books dispatcher (.boundary dispatcher body.run)).next dispatcher
        (insideBranch layout indexAddress number before middle skips outer since).openCases
        (runOf (rest.nodes ++ .caseEnd :: tail)) .caseBranch = .boundary dispatcher rest.run := by
      rw [Branches.runOf_nodes]
      simp only [Bookkeeping.next, insideBranch, List.head?_cons, Option.any_some,
        branchCount_ne_zero small, if_true]
    have parts : (Branches.more body rest).nodes ++ .caseEnd :: tail =
        body.nodes ++ .caseBranch :: (rest.nodes ++ .caseEnd :: tail) := by
      simp [Branches.nodes]
    have builtParts : ((Branches.more body rest).build dispatcher).nodes ++ [.caseEnd] =
        (body.build dispatcher (.boundary dispatcher body.run) none).nodes ++
          .caseBranch :: ((rest.build dispatcher).nodes ++ [.caseEnd]) := by
      simp [Branches.build, Branches.nodes]
    rw [parts, Branches.run, walked, recordRange_cons layout dispatcher _ marked, books, following,
      builtParts]
    conv_rhs => rw [Recorder.recordNodes_append, recorded]
    simp only [Except.bind, Recorder.recordNodes, marked, bind]

/-- Recording the body of a branch. -/
theorem CaseTree.insideBranch_recorded (body : CaseTree W) (inner : body.Counted)
    (indexAddress : UInt32) (number : Nat) (before : List (Command (Built W L M)))
    (skips : List Nat) (outer : List OpenCase) (tail : List (MeshTraceNode W))
    (stops : runOf tail = []) : ∃ middle since,
      Trace.recordRange layout dispatcher
          (insideBranch layout indexAddress number before [] skips outer none)
          (.boundary dispatcher body.run) (body.nodes ++ tail) =
        Trace.recordRange layout dispatcher
          (insideBranch layout indexAddress number before middle skips outer since)
          (body.books dispatcher (.boundary dispatcher body.run)) tail ∧
      (insideBranch layout indexAddress number before [] skips outer none).recordNodes layout
          dispatcher.builtWorkers (body.build dispatcher (.boundary dispatcher body.run) none).nodes =
        .ok (insideBranch layout indexAddress number before middle skips outer since) := by
  have walked := CaseTree.recordRange body inner stops
    (insideBranch layout indexAddress number before [] skips outer none)
    (.boundary dispatcher body.run)
  have reached := CaseTree.recordNodes layout dispatcher.builtWorkers
    (body.build dispatcher (.boundary dispatcher body.run) none)
    ((CaseTree.counted_build dispatcher body _ _).mpr inner)
    (insideBranch layout indexAddress number before [] skips outer none)
  let code := (body.build dispatcher (.boundary dispatcher body.run) none).code layout
    dispatcher.builtWorkers none
  exact ⟨code.1, code.2, by simpa [insideBranch] using walked, by simpa [insideBranch] using reached⟩

end

/-- A recorded list of nodes has at most as many branch markers as bytes. -/
theorem recordRange_bytes {r after : Recorder (Built W L M)} {books last : Bookkeeping W L M}
    {nodes : List (MeshTraceNode W)}
    (recorded : recordRange layout dispatcher r books nodes = .ok (after, last)) :
    layout.bytes r.bypassData + branchMarkers nodes ≤ layout.bytes after.bypassData := by
  induction nodes generalizing r books with
  | nil =>
    obtain ⟨rfl, _⟩ := Prod.mk.inj (Except.ok.inj recorded)
    simp [branchMarkers]
  | cons node rest ih =>
    rw [recordRange] at recorded
    cases first : r.recordNode layout dispatcher.builtWorkers (node.build books r.descriptors) with
    | error => simp [first, bind, Except.bind] at recorded
    | ok middle =>
      simp only [first, bind, Except.bind] at recorded
      have one := recordNode_bytes layout dispatcher.builtWorkers first
      have others := ih recorded
      have same : branchMarkers [node.build books r.descriptors] = branchMarkers [node] := by
        cases node <;> rfl
      have split := branchMarkers_append [node] rest
      rw [List.singleton_append] at split
      omega

/-- The bookkeeping `record_end` begins with. -/
def Start.books (start : Start dispatcher) (run : List W) : Bookkeeping W L M where
  starting := start.descriptors.getD 0
  launch := start.launch
  run := run
  place := 0
  cache := dispatcher.cacheReset

/-- The tree of a device range with its commands built. -/
def CaseTree.builtFrom (start : Start dispatcher) (tree : CaseTree W) : CaseTree (Built W L M) :=
  tree.build dispatcher (start.books dispatcher tree.run) start.descriptors

/-- What `record_end` puts after the nodes of a device range. -/
def closingFrom (start : Start dispatcher) (tree : CaseTree W) : List (Command (Built W L M)) :=
  if tree.nodes.any MeshTraceNode.isMarker then
    boundaryCommands ((tree.builtFrom dispatcher start).code layout dispatcher.builtWorkers
      start.descriptors).2 false ++ [.goSignal]
  else []

/-- A tree that is recorded is recorded as the code of its built tree. -/
theorem recordDispatched_tree {start : Start dispatcher} {tree : CaseTree W}
    {recorded : Recorded W L M}
    (isRecorded : recordDispatched layout dispatcher start tree.nodes = .ok recorded)
    (fits : layout.bytes recorded.stream < 2 ^ 32) :
    recorded.stream = start.written ++ (((tree.builtFrom dispatcher start).code layout
        dispatcher.builtWorkers start.descriptors).1 ++
          (closingFrom layout dispatcher start tree ++ [.execBufEnd])) ∧
      (tree.nodes.any MeshTraceNode.isMarker → recorded.descriptors = some dispatcher.allWorkers ∧
        recorded.launch = dispatcher.multicast dispatcher.launchReset) := by
  have run : runOf tree.nodes = tree.run := by
    simpa using @CaseTree.runOf_nodes _ tree [] rfl
  cases all : recordRange layout dispatcher
      { bypassData := start.written, descriptors := start.descriptors }
      (start.books dispatcher (runOf tree.nodes)) tree.nodes with
  | error what =>
    simp only [Start.books] at all
    simp [recordDispatched, all, bind, Except.bind] at isRecorded
  | ok result =>
    have written : branchMarkers tree.nodes < 2 ^ 32 := by
      have bytes := recordRange_bytes layout dispatcher all
      simp only [Start.books] at all
      simp only [recordDispatched, all, bind, Except.bind] at isRecorded
      split at isRecorded
      · split at isRecorded <;> obtain rfl := Except.ok.inj isRecorded <;>
          simp only [Recorder.emitBoundary, Recorder.append, layout.bytes_append] at fits <;> omega
      · contradiction
    have walked := @CaseTree.recordRange _ _ _ _ layout dispatcher tree (tree.counted written)
      [] rfl { bypassData := start.written, descriptors := start.descriptors }
      (start.books dispatcher (runOf tree.nodes))
    rw [List.append_nil, run] at walked
    simp only [recordRange, Start.books] at walked
    simp only [recordDispatched, run, walked, bind, Except.bind, List.isEmpty_nil, if_true]
      at isRecorded
    by_cases marked : tree.nodes.any MeshTraceNode.isMarker = true
    · rw [if_pos marked] at isRecorded
      obtain rfl := Except.ok.inj isRecorded
      refine ⟨?_, fun _ => ⟨rfl, rfl⟩⟩
      simp [closingFrom, marked, Recorder.emitBoundary, Recorder.append, CaseTree.builtFrom,
        Start.books]
    · rw [if_neg marked] at isRecorded
      obtain rfl := Except.ok.inj isRecorded
      refine ⟨?_, fun isMarked => absurd isMarked marked⟩
      simp [closingFrom, marked, CaseTree.builtFrom, Start.books]

end Recording

section Soundness

variable (layout : Layout (Built W L M)) {dispatcher : Dispatcher W L P M}
  {memories : Memories W P M R K}

/-- The dispatch state after some commands. -/
def follow (dispatcher : Dispatcher W L P M) (memories : Memories W P M R K)
    (dispatch : Dispatch L R K) (commands : List (Command (Built W L M))) : Dispatch L R K :=
  commands.foldl (fun dispatch command => command.dispatch dispatcher memories dispatch) dispatch

/-- Every command is sound when it is reached. -/
def SoundAlong (dispatcher : Dispatcher W L P M) (memories : Memories W P M R K) :
    Dispatch L R K → List (Command (Built W L M)) → Prop
  | _, [] => True
  | dispatch, command :: rest => Sound dispatcher memories dispatch command ∧
    SoundAlong dispatcher memories (command.dispatch dispatcher memories dispatch) rest

theorem soundAlong_append {dispatch : Dispatch L R K} {first second : List (Command (Built W L M))} :
    SoundAlong dispatcher memories dispatch (first ++ second) ↔
      SoundAlong dispatcher memories dispatch first ∧
        SoundAlong dispatcher memories (follow dispatcher memories dispatch first) second := by
  induction first generalizing dispatch with
  | nil => simp [SoundAlong, follow]
  | cons command first ih =>
    simp only [List.cons_append, SoundAlong, ih, follow, List.foldl_cons]
    tauto

theorem follow_append (dispatch : Dispatch L R K) (first second : List (Command (Built W L M))) :
    follow dispatcher memories dispatch (first ++ second) =
      follow dispatcher memories (follow dispatcher memories dispatch first) second :=
  List.foldl_append ..

/-- A device without a workload since the last boundary. -/
def Clean (dispatcher : Dispatcher W L P M) (dispatch : Dispatch L R K) : Prop :=
  dispatch.completed = 0 ∧ dispatch.launch = dispatcher.launchReset

/-- The device's count is the bookkeeping's, and without a workload the device is clean. -/
def Counts (dispatcher : Dispatcher W L P M) (since : Option Nat) (dispatch : Dispatch L R K) :
    Prop :=
  dispatch.completed = since.getD 0 ∧ (since = none → dispatch.launch = dispatcher.launchReset)

/-- The device is as the bookkeeping has it. -/
structure Tracks (dispatcher : Dispatcher W L P M) (memories : Memories W P M R K)
    (books : Bookkeeping W L M) (since : Option Nat) (dispatch : Dispatch L R K) : Prop where
  completed : dispatch.completed = since.getD 0
  starting : since.getD 0 =
    books.starting + ((books.run.take books.place).map dispatcher.workers).sum
  launch : dispatch.launch = books.launch
  fresh : since = none → books.launch = dispatcher.launchReset
  ring : ∃ ring, dispatch.ring = ringAfter dispatcher memories books.run books.place ring
  manager : books.cache = managed dispatcher (books.run.take books.place)
  cache : ∃ cache, dispatch.cache = cacheAfter dispatcher memories books.run books.place cache

variable {books : Bookkeeping W L M} {since : Option Nat} {dispatch : Dispatch L R K}

theorem Tracks.counts (tracks : Tracks dispatcher memories books since dispatch) :
    Counts dispatcher since dispatch :=
  ⟨tracks.completed, fun none => tracks.launch.trans (tracks.fresh none)⟩

theorem Clean.tracks (clean : Clean dispatcher dispatch) (run : List W) :
    Tracks dispatcher memories (.boundary dispatcher run) none dispatch where
  completed := clean.1
  starting := by simp [Bookkeeping.boundary]
  launch := clean.2
  fresh := fun _ => rfl
  ring := ⟨dispatch.ring, by simp [ringAfter, Bookkeeping.boundary]⟩
  manager := by simp [managed, Bookkeeping.boundary]
  cache := ⟨dispatch.cache, by simp [cacheAfter, Bookkeeping.boundary]⟩

variable (memories) in
/-- A boundary leaves the device clean, also where it emits no reset. -/
theorem boundary_sound (counts : Counts dispatcher since dispatch) (stallPrefetcher : Bool) :
    SoundAlong dispatcher memories dispatch (boundaryCommands since stallPrefetcher) ∧
      Clean dispatcher (follow dispatcher memories dispatch
        (boundaryCommands since stallPrefetcher)) := by
  obtain ⟨completed, fresh⟩ := counts
  cases since with
  | none =>
    have clean : Clean dispatcher dispatch := ⟨completed, fresh rfl⟩
    cases stallPrefetcher <;>
      simpa [boundaryCommands, SoundAlong, Sound, follow, Command.dispatch] using clean
  | some workersCompleted =>
    cases stallPrefetcher <;>
      simpa [boundaryCommands, SoundAlong, Sound, follow, Command.dispatch, Clean] using completed

theorem take_succ_of_getElem? {run : List W} {place : Nat} {node : W}
    (found : run[place]? = some node) : run.take (place + 1) = run.take place ++ [node] := by
  rw [List.take_add_one, found]
  rfl

/-- A workload of the run finds the state it was built for, and the bookkeeping follows it. -/
theorem Tracks.workload (tracks : Tracks dispatcher memories books since dispatch) {node : W}
    (found : books.run[books.place]? = some node) :
    Fits dispatcher memories (books.built since node) dispatch ∧
      Tracks dispatcher memories (books.launchNode dispatcher node)
        (some (since.getD 0 + dispatcher.workers node))
        ((Command.workload (books.built since node)).dispatch dispatcher memories dispatch) := by
  have longer := take_succ_of_getElem? found
  have length : (books.run.take books.place).length = books.place := by
    have bound := (List.getElem?_eq_some_iff.mp found).1
    rw [List.length_take]
    omega
  obtain ⟨ring, isRing⟩ := tracks.ring
  obtain ⟨cache, isCache⟩ := tracks.cache
  refine ⟨⟨found, tracks.completed, tracks.starting, tracks.launch, ⟨ring, isRing⟩, tracks.manager,
    ⟨cache, isCache⟩⟩, ?_, ?_, ?_, nofun, ⟨ring, ?_⟩, ?_, ⟨cache, ?_⟩⟩
  · simp [Command.dispatch, Bookkeeping.built, tracks.completed]
  · simp only [Bookkeeping.launchNode, longer, List.map_append, List.sum_append, Option.getD_some,
      List.map_cons, List.map_nil, List.sum_cons, List.sum_nil]
    rw [tracks.starting]
    omega
  · simp [Command.dispatch, Bookkeeping.built, Bookkeeping.launchNode, tracks.launch]
  · simp only [Command.dispatch, Bookkeeping.built, Bookkeeping.launchNode, ringAfter, longer,
      List.zipIdx_append, List.foldl_append, length, isRing]
    simp
  · simp only [Bookkeeping.launchNode, longer, managed, List.foldl_append, List.foldl_cons,
      List.foldl_nil]
    rw [tracks.manager, managed]
  · simp only [Command.dispatch, Bookkeeping.built, Bookkeeping.launchNode, cacheAfter, longer,
      List.zipIdx_append, List.foldl_append, length, isCache, tracks.manager]
    simp

variable (device : Device (Built W L M) σ)

mutual

/-- A replay of a built tree finds every command sound. -/
theorem CaseTree.sound (tree : CaseTree W) {books : Bookkeeping W L M} {since : Option Nat}
    {dispatch : Dispatch L R K} (tracks : Tracks dispatcher memories books since dispatch)
    (run : books.run.drop books.place = tree.run) (state : σ × List (Built W L M)) :
    SoundAlong dispatcher memories dispatch ((tree.build dispatcher books since).trail layout
        dispatcher.builtWorkers device since state) ∧
      Counts dispatcher
        ((tree.build dispatcher books since).code layout dispatcher.builtWorkers since).2
        (follow dispatcher memories dispatch ((tree.build dispatcher books since).trail layout
          dispatcher.builtWorkers device since state)) := by
  match tree with
  | .done =>
    simp only [CaseTree.build, CaseTree.trail, CaseTree.code, SoundAlong, follow, List.foldl_nil,
      true_and]
    exact tracks.counts
  | .workload node rest =>
    have found : books.run[books.place]? = some node := by
      rw [← Nat.add_zero books.place, ← List.getElem?_drop, run]
      rfl
    have following : books.run.drop (books.place + 1) = rest.run := by
      rw [← List.drop_drop, run]
      rfl
    obtain ⟨fits, tracks'⟩ := tracks.workload found
    have later := CaseTree.sound rest tracks' following
      (device.launch (books.built since node) state.1, state.2 ++ [books.built since node])
    exact ⟨⟨fits, later.1⟩, later.2⟩
  | .case indexAddress branches rest =>
    obtain ⟨drained, clean⟩ :=
      boundary_sound memories tracks.counts true
    obtain ⟨inside, clean'⟩ := Branches.sound branches clean indexAddress 0
      (device.index (device.settle state.1) indexAddress).toNat (device.settle state.1, state.2)
    have later := CaseTree.sound rest (clean'.tracks rest.run) rfl
      ((branches.build dispatcher).replay device
        (device.index (device.settle state.1) indexAddress).toNat (device.settle state.1, state.2))
    simp only [CaseTree.build, CaseTree.trail, CaseTree.code, soundAlong_append, follow_append]
    exact ⟨⟨drained, inside, later.1⟩, later.2⟩

/-- A replay of built branches, from a clean device, leaves a clean device. -/
theorem Branches.sound (branches : Branches W) {dispatch : Dispatch L R K}
    (clean : Clean dispatcher dispatch) (indexAddress : UInt32) (number index : Nat)
    (state : σ × List (Built W L M)) :
    SoundAlong dispatcher memories dispatch ((branches.build dispatcher).trail layout
        dispatcher.builtWorkers device indexAddress number index state) ∧
      Clean dispatcher (follow dispatcher memories dispatch ((branches.build dispatcher).trail
        layout dispatcher.builtWorkers device indexAddress number index state)) := by
  match branches, index with
  | .last body, index =>
    obtain ⟨inside, counts⟩ := CaseTree.sound body (clean.tracks body.run) rfl state
    obtain ⟨drained, clean'⟩ :=
      boundary_sound memories counts false
    rw [Branches.build, Branches.trail]
    simp only [SoundAlong, Sound, Command.dispatch, true_and, soundAlong_append]
    refine ⟨⟨inside, drained⟩, ?_⟩
    rw [follow, List.foldl_cons, ← follow, follow_append]
    exact clean'
  | .more body rest, 0 =>
    obtain ⟨inside, counts⟩ := CaseTree.sound body (clean.tracks body.run) rfl state
    obtain ⟨drained, clean'⟩ :=
      boundary_sound memories counts false
    rw [Branches.build, Branches.trail]
    simp only [SoundAlong, Sound, Command.dispatch, true_and, and_true, soundAlong_append]
    refine ⟨⟨inside, drained⟩, ?_⟩
    rw [follow, List.foldl_cons, ← follow, follow_append, follow_append]
    exact clean'
  | .more body rest, index + 1 =>
    have later := Branches.sound rest clean indexAddress (number + 1) index state
    rw [Branches.build, Branches.trail]
    simp only [SoundAlong, Sound, Command.dispatch, true_and]
    exact later

end

end Soundness

section Sessions

variable (layout : Layout (Built W L M)) (dispatcher : Dispatcher W L P M)
  (memories : Memories W P M R K) (device : Device (Built W L M) σ)

/-- The sessions that a replay goes through. -/
abbrev Session.Reaches (stream : List (Command (Built W L M))) :
    Session W L M R K σ → Session W L M R K σ → Prop :=
  Relation.ReflTransGen fun before after =>
    before.step layout dispatcher memories device stream = some after

section

variable {stream commands : List (Command (Built W L M))} {start last : Replay (Built W L M) σ}
  {dispatch : Dispatch L R K} (passes : Passes layout device stream start commands last)
include passes

/-- A session of a replay that goes through some commands is between two of them. -/
theorem Session.between (stops : last.step layout device stream = none)
    {session : Session W L M R K σ}
    (reached : Session.Reaches layout dispatcher memories device stream ⟨start, dispatch⟩ session) :
    ∃ before after, commands = before ++ after ∧
      session.dispatch = follow dispatcher memories dispatch before ∧
      Passes layout device stream session.replay after last := by
  induction reached with
  | refl => exact ⟨[], commands, rfl, rfl, passes⟩
  | @tail middle session _ stepped ih =>
    obtain ⟨before, after, rfl, isDispatch, later⟩ := ih
    obtain ⟨command, found, stepped⟩ := Option.bind_eq_some_iff.mp stepped
    obtain ⟨replay, isReplay, equal⟩ := Option.bind_eq_some_iff.mp stepped
    cases equal
    cases later with
    | here => rw [stops] at isReplay; cases isReplay
    | @next _ replay' _ command' after found' stepped' later =>
      have sameCommand : command = command' := Option.some.inj (found.symm.trans found')
      have sameReplay : replay = replay' := Option.some.inj (isReplay.symm.trans stepped')
      subst sameCommand sameReplay
      refine ⟨before ++ [command], after, by simp, ?_, later⟩
      rw [isDispatch, follow_append]
      rfl

/-- A replay that goes through some commands has a session at the last. -/
theorem Session.reaches_last :
    Session.Reaches layout dispatcher memories device stream ⟨start, dispatch⟩
      ⟨last, follow dispatcher memories dispatch commands⟩ := by
  induction passes generalizing dispatch with
  | here => exact .refl
  | @next before after last command commands found stepped _ ih =>
    refine .head ?_ ih
    simp [Session.step, found, stepped]

end

/-- A trace of a tree runs to its end through these commands. -/
theorem passes_recorded {start : Start dispatcher} {tree : CaseTree W}
    {recorded : Recorded W L M}
    (isRecorded : recordDispatched layout dispatcher start tree.nodes = .ok recorded)
    (fits : layout.bytes recorded.stream < 2 ^ 32) (state : σ) :
    ∃ last : Replay (Built W L M) σ,
      Passes layout device recorded.stream ⟨layout.bytes start.written, state, []⟩
        ((tree.builtFrom dispatcher start).trail layout dispatcher.builtWorkers device
          start.descriptors (state, []) ++ closingFrom layout dispatcher start tree) last ∧
      layout.entryAt recorded.stream last.position = some .execBufEnd := by
  obtain ⟨stream, _⟩ := recordDispatched_tree layout dispatcher isRecorded fits
  let built := tree.builtFrom dispatcher start
  let code := built.code layout dispatcher.builtWorkers start.descriptors
  let replayed := built.replay device (state, [])
  have ran := CaseTree.passes layout dispatcher.builtWorkers device built start.descriptors
    recorded.stream start.written (closingFrom layout dispatcher start tree ++ [.execBufEnd]) fits
    stream state []
  have closed : Passes layout device recorded.stream
      ⟨layout.bytes (start.written ++ code.1), replayed.1, replayed.2⟩
      (closingFrom layout dispatcher start tree)
      ⟨layout.bytes (start.written ++ code.1 ++ closingFrom layout dispatcher start tree),
        replayed.1, replayed.2⟩ := by
    rw [closingFrom] at stream ⊢
    split at stream
    case isFalse unmarked => simpa [unmarked] using Passes.here
    case isTrue marked =>
      rw [if_pos marked]
      have drained := passes_boundary layout device recorded.stream (start.written ++ code.1)
        [.goSignal, .execBufEnd] code.2 false (by rw [stream]; simp [code, built]) replayed.1
        replayed.2
      have signalled := passes_goSignal layout device recorded.stream
        (start.written ++ code.1 ++ boundaryCommands code.2 false) [.execBufEnd]
        (by rw [stream]; simp [code, built]) replayed.1 replayed.2
      simpa using drained.trans signalled
  refine ⟨_, ran.trans closed, ?_⟩
  have ended := layout.entryAt_append
    (start.written ++ code.1 ++ closingFrom layout dispatcher start tree) .execBufEnd []
  rw [stream]
  simpa [code, built] using ended

variable {layout dispatcher}

theorem SoundAlong.of_append {dispatch : Dispatch L R K}
    {before after : List (Command (Built W L M))} {command : Command (Built W L M)}
    (sound : SoundAlong dispatcher memories dispatch (before ++ command :: after)) :
    Sound dispatcher memories (follow dispatcher memories dispatch before) command :=
  (soundAlong_append.mp sound).2.1

/-- The commands a replay goes through are sound. -/
theorem recorded_sound (start : Start dispatcher) (tree : CaseTree W) (state : σ)
    {dispatch : Dispatch L R K} (completed : dispatch.completed = start.descriptors.getD 0)
    (launch : dispatch.launch = start.launch) {commands : List (Command (Built W L M))}
    (isCommands : commands = (tree.builtFrom dispatcher start).trail layout dispatcher.builtWorkers
      device start.descriptors (state, []) ++ closingFrom layout dispatcher start tree) :
    SoundAlong dispatcher memories dispatch commands ∧
      (tree.nodes.any MeshTraceNode.isMarker →
        (follow dispatcher memories dispatch commands).completed = dispatcher.allWorkers ∧
        (follow dispatcher memories dispatch commands).launch =
          dispatcher.multicast dispatcher.launchReset) := by
  have tracks : Tracks dispatcher memories (start.books dispatcher tree.run) start.descriptors
      dispatch := by
    refine ⟨completed, ?_, launch, start.fresh, ⟨dispatch.ring, ?_⟩, ?_, ⟨dispatch.cache, ?_⟩⟩
    · simp [Start.books]
    · simp [ringAfter, Start.books]
    · simp [managed, Start.books]
    · simp [cacheAfter, Start.books]
  obtain ⟨sound, counts⟩ := tree.sound layout device tracks rfl (state, [])
  rw [isCommands, soundAlong_append, follow_append]
  by_cases marked : tree.nodes.any MeshTraceNode.isMarker = true
  · obtain ⟨drained, clean⟩ := boundary_sound memories counts false
    rw [closingFrom, if_pos marked, follow_append, soundAlong_append]
    refine ⟨⟨sound, drained, clean.1, trivial⟩, fun _ => ⟨?_, ?_⟩⟩
    · change _ + dispatcher.allWorkers = dispatcher.allWorkers
      rw [Nat.add_eq_right]
      exact clean.1
    · exact congrArg dispatcher.multicast clean.2
  · rw [closingFrom, if_neg marked]
    exact ⟨⟨sound, trivial⟩, fun isMarked => absurd isMarked marked⟩

/-- Whatever branches a replay of a trace takes, every workload finds the dispatch state its
commands were built for and every reset waits for the workloads since the last one. The replay gets
to the end, where a trace with a case leaves the one state that its descriptors describe. -/
theorem trace_dispatch_state {start : Start dispatcher} {tree : CaseTree W}
    {recorded : Recorded W L M}
    (isRecorded : recordDispatched layout dispatcher start tree.nodes = .ok recorded)
    (fits : layout.bytes recorded.stream < 2 ^ 32) (state : σ) {dispatch : Dispatch L R K}
    (completed : dispatch.completed = start.descriptors.getD 0)
    (launch : dispatch.launch = start.launch) :
    (∀ session : Session W L M R K σ, Session.Reaches layout dispatcher memories device
        recorded.stream ⟨⟨layout.bytes start.written, state, []⟩, dispatch⟩ session →
      (∀ command, layout.entryAt recorded.stream session.replay.position = some command →
        Sound dispatcher memories session.dispatch command) ∧
      (layout.entryAt recorded.stream session.replay.position = some .execBufEnd →
        tree.nodes.any MeshTraceNode.isMarker →
          recorded.descriptors = some session.dispatch.completed ∧
          recorded.launch = session.dispatch.launch ∧
          session.dispatch.completed = dispatcher.allWorkers ∧
          session.dispatch.launch = dispatcher.multicast dispatcher.launchReset)) ∧
    ∃ session : Session W L M R K σ, Session.Reaches layout dispatcher memories device
        recorded.stream ⟨⟨layout.bytes start.written, state, []⟩, dispatch⟩ session ∧
      layout.entryAt recorded.stream session.replay.position = some .execBufEnd := by
  obtain ⟨last, passes, ended⟩ := passes_recorded layout dispatcher device isRecorded fits state
  have stops : last.step layout device recorded.stream = none := by simp [Replay.step, ended]
  obtain ⟨sound, leaves⟩ :=
    @recorded_sound _ _ _ _ _ _ _ layout _ memories device start tree state _ completed launch _ rfl
  refine ⟨fun session reached => ?_, _, Session.reaches_last layout dispatcher memories device
    passes, ended⟩
  obtain ⟨before, after, shape, isDispatch, later⟩ :=
    Session.between layout dispatcher memories device passes stops reached
  constructor
  · intro command found
    cases later with
    | here =>
      rw [ended] at found
      cases found
      trivial
    | next found' stepped later =>
      cases Option.some.inj (found.symm.trans found')
      rw [shape] at sound
      rw [isDispatch]
      exact sound.of_append
  · intro found marked
    have described := (recordDispatched_tree layout dispatcher isRecorded fits).2 marked
    cases later with
    | next found' stepped later =>
      rw [Replay.step, found] at stepped
      cases stepped
    | here =>
      rw [shape, List.append_nil, ← isDispatch] at leaves
      obtain ⟨all, signalled⟩ := leaves marked
      rw [described.1, described.2, all, signalled]
      exact ⟨rfl, rfl, rfl, rfl⟩

end Sessions

abbrev builtLayout : Layout (Built Nat Nat Nat) := evenLayout

/-- One worker a workload, eight launch messages and places in order. -/
def countingDispatcher : Dispatcher Nat Nat Nat Nat where
  workers _ := 1
  allWorkers := 4
  launchReset := 0
  launched _ launch := (launch + 1) % 8
  multicast launch := (launch + 1) % 8
  allocate _ place := place
  cacheReset := 0
  cached node manager := manager + node

/-- Memories that keep what was loaded. -/
def listMemories : Memories Nat Nat Nat (List (Nat × Nat)) (List (Nat × Nat)) where
  load node place ring := ring ++ [(node, place)]
  fill node manager cache := cache ++ [(node, manager)]

/-- A device range that takes part in every workload. -/
def wholeRange : Start countingDispatcher where
  written := []
  descriptors := none
  launch := 0
  fresh _ := rfl

/-- The trace of `twoWay` ends with one go signal to four workers. -/
theorem trace_dispatch_state_twoWay : ∃ recorded,
    recordDispatched builtLayout countingDispatcher wholeRange twoWay.nodes = .ok recorded ∧
    ∃ session : Session Nat Nat Nat (List (Nat × Nat)) (List (Nat × Nat)) Nat,
      Session.Reaches builtLayout countingDispatcher listMemories
        ⟨fun _ state => state, fun state => state, fun state _ => UInt32.ofNat state⟩
        recorded.stream ⟨⟨0, 9, []⟩, ⟨0, 0, [(3, 3)], []⟩⟩ session ∧
      session.dispatch.completed = 4 ∧ session.dispatch.launch = 1 := by
  obtain ⟨recorded, isRecorded, fits⟩ : ∃ recorded,
      recordDispatched builtLayout countingDispatcher wholeRange twoWay.nodes = .ok recorded ∧
        builtLayout.bytes recorded.stream < 2 ^ 32 := ⟨_, rfl, by decide⟩
  obtain ⟨sound, session, reached, ended⟩ := trace_dispatch_state listMemories
    (⟨fun _ state => state, fun state => state, fun state _ => UInt32.ofNat state⟩ :
      Device (Built Nat Nat Nat) Nat) isRecorded fits 9
    (show (⟨0, 0, [(3, 3)], []⟩ : Dispatch Nat _ (List (Nat × Nat))).completed = 0 from rfl) rfl
  have left := (sound session reached).2 ended rfl
  exact ⟨recorded, isRecorded, session, reached, left.2.2.1, left.2.2.2⟩

end Libtt.Trace

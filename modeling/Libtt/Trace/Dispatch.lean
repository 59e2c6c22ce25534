import Libtt.Trace.CaseReplay

/-!
# The dispatch state of a trace with cases

The commands of a workload are built for one dispatch state: how many workers will have completed,
where the launch messages stand, what the kernel config ring and the prefetcher cache hold.
`record_end` works that state out along the linear stream. It lays out the workloads between two
markers as a trace of their own, and every boundary takes its bookkeeping back to the state a replay
starts in. A device has a state of its own, which the commands it goes through change.
-/
namespace Libtt.Trace

open Libtt.Foundation

variable {W L P M R K σ : Type}

/-- What `record_end` calls to place and launch workloads: `L` is the state of the launch messages,
`P` a place in the kernel config ring and `M` the prefetcher cache's manager. -/
structure Dispatcher (W L P M : Type) where
  /-- Workers that complete a workload. -/
  workers : W → Nat
  /-- `num_worker_cores`. -/
  allWorkers : Nat
  /-- The launch messages after a reset. -/
  launchReset : L
  /-- The launch messages after a workload. -/
  launched : W → L → L
  /-- `inc_mcast_wptr(1)`. -/
  multicast : L → L
  /-- `allocate_trace_programs` of a run: the place of its n-th workload. -/
  allocate : List W → Nat → P
  /-- `reset_prefetcher_cache_manager`. -/
  cacheReset : M
  /-- The manager after a workload. -/
  cached : W → M → M

/-- A workload with the state its commands are built for. -/
structure Built (W L M : Type) where
  node : W
  /-- The workloads it is laid out with, and its number among them. -/
  run : List W
  place : Nat
  /-- `starting_workers_completed`. -/
  starting : Nat
  /-- The completion count of `trace_worker_descriptors`. -/
  workersCompleted : Nat
  /-- `worker_launch_message_buffer_state`. -/
  launch : L
  cache : M

/-- What the loop of `record_end` carries beside its recorder. -/
structure Bookkeeping (W L M : Type) where
  starting : Nat
  launch : L
  run : List W
  place : Nat
  cache : M

/-- The workloads up to the next case marker. -/
def runOf : List (MeshTraceNode W) → List W
  | .workload node :: rest => node :: runOf rest
  | _ => []

namespace Bookkeeping

/-- The bookkeeping after `emit_boundary`, with the run that follows. -/
def boundary (dispatcher : Dispatcher W L P M) (run : List W) : Bookkeeping W L M where
  starting := 0
  launch := dispatcher.launchReset
  run := run
  place := 0
  cache := dispatcher.cacheReset

/-- The state the commands of a workload are built for. -/
def built (books : Bookkeeping W L M) (since : Option Nat) (node : W) : Built W L M where
  node := node
  run := books.run
  place := books.place
  starting := books.starting
  workersCompleted := since.getD 0
  launch := books.launch
  cache := books.cache

/-- The bookkeeping after a workload. -/
def launchNode (dispatcher : Dispatcher W L P M) (books : Bookkeeping W L M) (node : W) :
    Bookkeeping W L M :=
  { books with
    launch := dispatcher.launched node books.launch
    place := books.place + 1
    cache := dispatcher.cached node books.cache }

/-- The bookkeeping after a node. The first branch of a case has no boundary of its own. -/
def next (dispatcher : Dispatcher W L P M) (books : Bookkeeping W L M)
    (openCases : List OpenCase) (run : List W) : MeshTraceNode W → Bookkeeping W L M
  | .workload node => books.launchNode dispatcher node
  | .caseBegin _ | .caseEnd => boundary dispatcher run
  | .caseBranch =>
    if openCases.head?.any (fun last => last.branches != 0) then boundary dispatcher run
    else { books with run := run, place := 0 }

end Bookkeeping

/-- A node whose workload has its commands built. -/
def MeshTraceNode.build (books : Bookkeeping W L M) (since : Option Nat) :
    MeshTraceNode W → MeshTraceNode (Built W L M)
  | .workload node => .workload (books.built since node)
  | .caseBegin indexAddress => .caseBegin indexAddress
  | .caseBranch => .caseBranch
  | .caseEnd => .caseEnd

/-- Workers of a built workload. -/
def Dispatcher.builtWorkers (dispatcher : Dispatcher W L P M) (built : Built W L M) : Nat :=
  dispatcher.workers built.node

/-- The loop of `record_end` over the nodes of one device range, with its bookkeeping. -/
def recordRange (layout : Layout (Built W L M)) (dispatcher : Dispatcher W L P M)
    (r : Recorder (Built W L M)) (books : Bookkeeping W L M) :
    List (MeshTraceNode W) → Except String (Recorder (Built W L M) × Bookkeeping W L M)
  | [] => .ok (r, books)
  | node :: rest => do
    let after ← r.recordNode layout dispatcher.builtWorkers (node.build books r.descriptors)
    recordRange layout dispatcher after
      (books.next dispatcher r.openCases (runOf rest) node) rest

/-- What `record_end` has written and counted before its loop: the go signals of the workloads that
the device range has no part in. -/
structure Start (dispatcher : Dispatcher W L P M) where
  written : List (Command (Built W L M))
  descriptors : Option Nat
  launch : L
  /-- Without a workload the launch messages are as a replay finds them. -/
  fresh : descriptors = none → launch = dispatcher.launchReset

/-- A trace of one device range. -/
structure Recorded (W L M : Type) where
  stream : List (Command (Built W L M))
  /-- `trace_worker_descriptors`, as in `Recorder.descriptors`. -/
  descriptors : Option Nat
  /-- `worker_launch_message_buffer_state`. -/
  launch : L

/-- `record_end` for one device range, with its bookkeeping. -/
def recordDispatched (layout : Layout (Built W L M)) (dispatcher : Dispatcher W L P M)
    (start : Start dispatcher) (nodes : List (MeshTraceNode W)) :
    Except String (Recorded W L M) := do
  let (r, books) ← recordRange layout dispatcher
    { bypassData := start.written, descriptors := start.descriptors }
    { starting := start.descriptors.getD 0
      launch := start.launch
      run := runOf nodes
      place := 0
      cache := dispatcher.cacheReset } nodes
  if r.openCases.isEmpty then
    if nodes.any MeshTraceNode.isMarker then
      let r := (r.emitBoundary false).append [.goSignal]
      .ok {
        stream := r.bypassData ++ [.execBufEnd]
        descriptors := some dispatcher.allWorkers
        launch := dispatcher.multicast dispatcher.launchReset }
    else
      .ok {
        stream := r.bypassData ++ [.execBufEnd]
        descriptors := r.descriptors
        launch := books.launch }
  else .error "A trace case is still open at the end of the capture"

/-- The dispatch state of a device: `R` is its kernel config ring and `K` the prefetcher's cache. -/
structure Dispatch (L R K : Type) where
  /-- The completion count once the workloads launched so far are done. -/
  completed : Nat
  /-- The workers' launch message pointers. -/
  launch : L
  ring : R
  cache : K

/-- How a workload's commands change a device's memories. -/
structure Memories (W P M R K : Type) where
  /-- A workload goes to its place in the ring. -/
  load : W → P → R → R
  /-- Its commands fill the cache as the manager had them do. -/
  fill : W → M → K → K

/-- What a command does to the dispatch state. A reset waits for the workloads since the last one,
takes the launch pointers back and clears the counter. -/
def Command.dispatch (dispatcher : Dispatcher W L P M) (memories : Memories W P M R K)
    (dispatch : Dispatch L R K) : Command (Built W L M) → Dispatch L R K
  | .workload built =>
    { completed := dispatch.completed + dispatcher.workers built.node
      launch := dispatcher.launched built.node dispatch.launch
      ring := memories.load built.node (dispatcher.allocate built.run built.place) dispatch.ring
      cache := memories.fill built.node built.cache dispatch.cache }
  | .resetWorkers _ =>
    { dispatch with
      completed := 0
      launch := dispatcher.launchReset }
  | .goSignal =>
    { dispatch with
      completed := dispatch.completed + dispatcher.allWorkers
      launch := dispatcher.multicast dispatch.launch }
  | .waitPrefetchStall | .skip _ | .execBufEnd => dispatch

/-- A replay with the dispatch state of its device. -/
structure Session (W L M R K σ : Type) where
  replay : Replay (Built W L M) σ
  dispatch : Dispatch L R K

/-- One command. -/
def Session.step (layout : Layout (Built W L M)) (dispatcher : Dispatcher W L P M)
    (memories : Memories W P M R K) (device : Device (Built W L M) σ)
    (stream : List (Command (Built W L M))) (session : Session W L M R K σ) :
    Option (Session W L M R K σ) := do
  let command ← layout.entryAt stream session.replay.position
  let replay ← session.replay.step layout device stream
  some ⟨replay, command.dispatch dispatcher memories session.dispatch⟩

/-- The ring after the first workloads of a run, from what it held before. -/
def ringAfter (dispatcher : Dispatcher W L P M) (memories : Memories W P M R K) (run : List W)
    (place : Nat) (ring : R) : R :=
  (run.take place).zipIdx.foldl
    (fun ring entry => memories.load entry.1 (dispatcher.allocate run entry.2) ring) ring

/-- The manager after some workloads of a run. -/
def managed (dispatcher : Dispatcher W L P M) (nodes : List W) : M :=
  nodes.foldl (fun manager node => dispatcher.cached node manager) dispatcher.cacheReset

/-- The cache after the first workloads of a run, from what it held before. -/
def cacheAfter (dispatcher : Dispatcher W L P M) (memories : Memories W P M R K) (run : List W)
    (place : Nat) (cache : K) : K :=
  (run.take place).zipIdx.foldl
    (fun cache entry => memories.fill entry.1 (managed dispatcher (run.take entry.2)) cache) cache

/-- A device is in the state a workload's commands were built for. What the ring and the cache held
when the run began does not matter. -/
structure Fits (dispatcher : Dispatcher W L P M) (memories : Memories W P M R K)
    (built : Built W L M) (dispatch : Dispatch L R K) : Prop where
  current : built.run[built.place]? = some built.node
  completed : dispatch.completed = built.workersCompleted
  starting : built.workersCompleted =
    built.starting + ((built.run.take built.place).map dispatcher.workers).sum
  launch : dispatch.launch = built.launch
  ring : ∃ ring, dispatch.ring = ringAfter dispatcher memories built.run built.place ring
  manager : built.cache = managed dispatcher (built.run.take built.place)
  cache : ∃ cache, dispatch.cache = cacheAfter dispatcher memories built.run built.place cache

/-- What must hold when a command is reached: a workload finds the state it was built for, and a
reset or the last go signal waits for as many workers as will have completed. -/
def Sound (dispatcher : Dispatcher W L P M) (memories : Memories W P M R K)
    (dispatch : Dispatch L R K) : Command (Built W L M) → Prop
  | .workload built => Fits dispatcher memories built dispatch
  | .resetWorkers workersCompleted => dispatch.completed = workersCompleted
  | .goSignal => dispatch.completed = 0
  | .waitPrefetchStall | .skip _ | .execBufEnd => True

end Libtt.Trace

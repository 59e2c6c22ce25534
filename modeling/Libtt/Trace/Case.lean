import Libtt.Foundation.Sized

/-!
# Recording trace cases

`FDMeshCommandQueue::record_end` turns the recorded workloads and case markers of one device
range into a linear command stream. A case becomes a chain of tests: each skips to the next
branch unless the device's index word names its branch. Skips are rewritten in place once their
targets are known, through a stack of open cases. Device commands between workloads carry no
payload here beyond what a replay depends on.
-/

namespace Libtt.Trace

open Libtt.Foundation

/-- `CQ_PREFETCH_EXEC_BUF_SKIP_ALWAYS` and `CQ_PREFETCH_EXEC_BUF_SKIP_IF_NOT_EQUAL`. -/
inductive SkipMode
  | always
  | ifNotEqual
  deriving DecidableEq, Repr

/-- `CQPrefetchExecBufSkipCmd`. -/
structure ExecBufSkipCmd where
  /-- Whether the skip depends on a device value. -/
  mode : SkipMode
  /-- The buffer holding the value. -/
  baseAddr : UInt32
  /-- The value that keeps the prefetcher from skipping. -/
  value : UInt32
  /-- Bytes skipped after the command. -/
  bytes : UInt32
  deriving DecidableEq, Repr

/-- What the trace's byte stream is made of. The commands of one workload are one entry. -/
inductive Command (W : Type)
  /-- Everything written to launch one workload. -/
  | workload (node : W)
  /-- `reset_worker_dispatch_state_on_device`, waiting for this many workers. -/
  | resetWorkers (workersCompleted : Nat)
  /-- `add_dispatch_wait_with_prefetch_stall`. -/
  | waitPrefetchStall
  /-- `CQ_PREFETCH_CMD_EXEC_BUF_SKIP`. -/
  | skip (cmd : ExecBufSkipCmd)
  /-- `write_go_signal_sequence`. -/
  | goSignal
  /-- `exec_buf_end`. -/
  | execBufEnd
  deriving DecidableEq, Repr

/-- Byte sizes of the commands. A skip command is padded to `skipSize`
(`CQ_PREFETCH_CMD_BARE_MIN_SIZE` on the device) whatever it holds. -/
structure Layout (W : Type) extends Sizing (Command W) where
  /-- `skip_size`. -/
  skipSize : Nat
  /-- Rewriting a skip does not move the commands after it. -/
  size_skip : ∀ cmd, size (.skip cmd) = skipSize

/-- `MeshTraceNode`: a workload, or a case marker; a `Begin` marker holds the index address. -/
inductive MeshTraceNode (W : Type)
  | workload (node : W)
  | caseBegin (indexAddress : UInt32)
  | caseBranch
  | caseEnd
  deriving DecidableEq, Repr

/-- `OpenCase`: the skips of a case whose targets are not yet known, by stream offset. -/
structure OpenCase where
  /-- `begin->case_index_address`. -/
  indexAddress : UInt32
  /-- Branches begun so far. -/
  branches : UInt32 := 0
  /-- The test of the branch being recorded. -/
  skipToNextBranch : Nat := 0
  /-- The skips that leave the finished branches. -/
  skipsToEnd : List Nat := []
  deriving DecidableEq, Repr

/-- What `record_end` carries from node to node of one device range. -/
structure Recorder (W : Type) where
  /-- The stream written so far. -/
  bypassData : List (Command W) := []
  /-- Open cases, innermost first. -/
  openCases : List OpenCase := []
  /-- `trace_worker_descriptors` of the only sub-device: the completion count since the last
  boundary, absent until a workload ran. -/
  descriptors : Option Nat := none
  deriving Repr

namespace Recorder

variable {W : Type} (layout : Layout W)

/-- `write_ptr`. -/
def writePtr (r : Recorder W) : Nat := layout.bytes r.bypassData

/-- `append`. -/
def append (r : Recorder W) (commands : List (Command W)) : Recorder W :=
  { r with bypassData := r.bypassData ++ commands }

/-- The commands of `emit_boundary`: a reset when programs ran since the last boundary, and the
stall the markers that read an index ask for. -/
def boundaryCommands (descriptors : Option Nat) (stallPrefetcher : Bool) : List (Command W) :=
  (match descriptors with
    | none => []
    | some workersCompleted => [.resetWorkers workersCompleted]) ++
  (if stallPrefetcher then [.waitPrefetchStall] else [])

/-- `emit_boundary`. -/
def emitBoundary (r : Recorder W) (stallPrefetcher : Bool) : Recorder W :=
  { r.append (boundaryCommands r.descriptors stallPrefetcher) with descriptors := none }

/-- `emit_skip`; the caller takes the offset from `writePtr` before the call. -/
def emitSkip (r : Recorder W) (mode : SkipMode) (indexAddress value : UInt32) : Recorder W :=
  r.append [.skip { mode, baseAddr := indexAddress, value, bytes := 0 }]

/-- Change the skip command an entry is; other entries stay. -/
def changeSkip (change : ExecBufSkipCmd → ExecBufSkipCmd) : Command W → Command W
  | .skip cmd => .skip (change cmd)
  | command => command

/-- `skip_at(offset)` written through. -/
def modifySkip (r : Recorder W) (offset : Nat) (change : ExecBufSkipCmd → ExecBufSkipCmd) :
    Recorder W :=
  { r with bypassData := layout.modifyAt (changeSkip change) r.bypassData offset }

/-- `land_skip`: the skip at `offset` now ends at the write pointer. -/
def landSkip (r : Recorder W) (offset : Nat) : Recorder W :=
  r.modifySkip layout offset fun cmd =>
    { cmd with bytes := UInt32.ofNat (r.writePtr layout - offset - layout.skipSize) }

/-- `emit_case_marker`, and the bookkeeping of `record_end` after a workload's commands, which
complete `workers node` cores. -/
def recordNode (workers : W → Nat) (r : Recorder W) : MeshTraceNode W → Except String (Recorder W)
  | .workload node =>
    .ok { r.append [.workload node] with
      descriptors := some (r.descriptors.getD 0 + workers node) }
  | .caseBegin indexAddress =>
    let r := r.emitBoundary true
    .ok { r with openCases := { indexAddress } :: r.openCases }
  | .caseBranch =>
    match r.openCases with
    | [] => .error "record_case_branch needs an open record_case_begin"
    | last :: outer =>
      if last.branches != 0 then
        let r := r.emitBoundary false
        let skipToEnd := r.writePtr layout
        let r := r.emitSkip .always last.indexAddress 0
        let r := r.landSkip layout last.skipToNextBranch
        .ok { r.emitSkip .ifNotEqual last.indexAddress last.branches with
          openCases := { last with
            branches := last.branches + 1
            skipToNextBranch := r.writePtr layout
            skipsToEnd := last.skipsToEnd ++ [skipToEnd] } :: outer }
      else
        .ok { r.emitSkip .ifNotEqual last.indexAddress last.branches with
          openCases := { last with
            branches := last.branches + 1
            skipToNextBranch := r.writePtr layout } :: outer }
  | .caseEnd =>
    match r.openCases with
    | [] => .error "record_case_end needs an open record_case_begin with a branch"
    | last :: outer =>
      if last.branches != 0 then
        let r := r.emitBoundary false
        -- The last branch takes every other index: its test becomes a skip of nothing.
        let r := r.modifySkip layout last.skipToNextBranch fun cmd => { cmd with mode := .always }
        let r := last.skipsToEnd.foldl (fun r skip => r.landSkip layout skip) r
        .ok { r with openCases := outer }
      else .error "record_case_end needs an open record_case_begin with a branch"

/-- The loop of `record_end` over the nodes of one device range. -/
def recordNodes (workers : W → Nat) (r : Recorder W) :
    List (MeshTraceNode W) → Except String (Recorder W)
  | [] => .ok r
  | node :: rest => do
    let r ← r.recordNode layout workers node
    r.recordNodes workers rest

/-- Recording two lists of nodes in order. -/
theorem recordNodes_append (workers : W → Nat) (r : Recorder W)
    (first second : List (MeshTraceNode W)) :
    r.recordNodes layout workers (first ++ second) =
      (r.recordNodes layout workers first).bind
        fun r => r.recordNodes layout workers second := by
  induction first generalizing r with
  | nil => rfl
  | cons node rest ih =>
    simp only [List.cons_append, recordNodes]
    cases step : r.recordNode layout workers node with
    | error => rfl
    | ok after =>
      have continued := ih after
      simpa only [bind, Except.bind] using continued

end Recorder

/-- Whether a node is a case marker (a null in `trace_nodes`). -/
def MeshTraceNode.isMarker {W : Type} : MeshTraceNode W → Bool
  | .workload _ => false
  | _ => true

/-- `record_end` for one device range: all nodes, a drain and one go signal when the trace has
cases, and the end of the stream. -/
def recordEnd {W : Type} (layout : Layout W) (workers : W → Nat)
    (nodes : List (MeshTraceNode W)) : Except String (List (Command W)) := do
  let r ← Recorder.recordNodes layout workers {} nodes
  if r.openCases.isEmpty then
    let r := if nodes.any MeshTraceNode.isMarker then
        (r.emitBoundary false).append [.goSignal]
      else r
    .ok (r.bypassData ++ [.execBufEnd])
  else .error "A trace case is still open at the end of the capture"

end Libtt.Trace

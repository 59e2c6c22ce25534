import Mathlib.Tactic.Ring
import Libtt.Trace.Case

/-!
# Replaying trace cases

A well-bracketed recording is a tree: workloads in sequence, and cases with at least one branch.
`CaseTree.replay` says what the tree means, `Replay.step` is the prefetcher working through a
linear command stream. Both act on one device, which is left abstract: a workload and a stall
may change anything it holds, index buffers included.
-/

namespace Libtt.Trace

open Libtt.Foundation

variable {W σ : Type}

mutual

/-- A well-bracketed recording. -/
inductive CaseTree (W : Type)
  | done
  | workload (node : W) (rest : CaseTree W)
  | case (indexAddress : UInt32) (branches : Branches W) (rest : CaseTree W)

/-- The branches of a case, of which there is at least one. -/
inductive Branches (W : Type)
  | last (body : CaseTree W)
  | more (body : CaseTree W) (rest : Branches W)

end

mutual

/-- The nodes that record a tree. -/
def CaseTree.nodes : CaseTree W → List (MeshTraceNode W)
  | .done => []
  | .workload node rest => .workload node :: rest.nodes
  | .case indexAddress branches rest =>
    .caseBegin indexAddress :: .caseBranch :: (branches.nodes ++ .caseEnd :: rest.nodes)

/-- The nodes between a case's first branch marker and its end marker. -/
def Branches.nodes : Branches W → List (MeshTraceNode W)
  | .last body => body.nodes
  | .more body rest => body.nodes ++ .caseBranch :: rest.nodes

end

/-- The device a trace is replayed on. -/
structure Device (W σ : Type) where
  /-- What one workload does. -/
  launch : W → σ → σ
  /-- What has changed once a stalled prefetcher goes on. -/
  settle : σ → σ
  /-- The first word of page 0 of the interleaved buffer at an address. -/
  index : σ → UInt32 → UInt32

mutual

/-- What a tree does: the device it leaves and the workloads it ran, appended to those before.
A case reads its index once the device has settled. -/
def CaseTree.replay (device : Device W σ) : CaseTree W → σ × List W → σ × List W
  | .done, state => state
  | .workload node rest, (state, ran) =>
    rest.replay device (device.launch node state, ran ++ [node])
  | .case indexAddress branches rest, (state, ran) =>
    let state := device.settle state
    rest.replay device
      (branches.replay device (device.index state indexAddress).toNat (state, ran))

/-- The branch an index selects, counted from the first branch; the last one takes every index
from its own on. -/
def Branches.replay (device : Device W σ) : Branches W → Nat → σ × List W → σ × List W
  | .last body, _, state => body.replay device state
  | .more body _, 0, state => body.replay device state
  | .more _ rest, index + 1, state => rest.replay device index state

end

/-- The prefetcher inside an exec_buf: the byte it is at, the device, and the workloads whose
commands it has relayed. -/
structure Replay (W σ : Type) where
  /-- Byte offset in the stream. -/
  position : Nat
  /-- The device. -/
  device : σ
  /-- Workloads run so far. -/
  ran : List W

/-- `process_exec_buf_skip_cmd`: the 32-bit stride to the next command. -/
def skipStride (layout : Layout W) (device : Device W σ) (state : σ) (cmd : ExecBufSkipCmd) : Nat :=
  if cmd.mode != .always && device.index state cmd.baseAddr == cmd.value then layout.skipSize
  else (layout.skipSize + cmd.bytes.toNat) % 2 ^ 32

/-- One command. The replay stops at `exec_buf_end`, and where no command starts. -/
def Replay.step (layout : Layout W) (device : Device W σ) (stream : List (Command W))
    (replay : Replay W σ) : Option (Replay W σ) :=
  match layout.entryAt stream replay.position with
  | none | some .execBufEnd => none
  | some (.workload node) => some
    { position := replay.position + layout.size (.workload node)
      device := device.launch node replay.device
      ran := replay.ran ++ [node] }
  | some .waitPrefetchStall => some
    { replay with
      position := replay.position + layout.size (.waitPrefetchStall)
      device := device.settle replay.device }
  | some (.skip cmd) => some
    { replay with position := replay.position + skipStride layout device replay.device cmd }
  | some command => some { replay with position := replay.position + layout.size command }

/-- Any number of commands. -/
abbrev Runs (layout : Layout W) (device : Device W σ) (stream : List (Command W)) :
    Replay W σ → Replay W σ → Prop :=
  Relation.ReflTransGen fun before after => before.step layout device stream = some after

/-- The replay goes through these commands, one after the other. -/
inductive Passes (layout : Layout W) (device : Device W σ) (stream : List (Command W)) :
    Replay W σ → List (Command W) → Replay W σ → Prop
  | here {replay : Replay W σ} : Passes layout device stream replay [] replay
  | next {before after last : Replay W σ} {command : Command W} {commands : List (Command W)}
    (found : layout.entryAt stream before.position = some command)
    (stepped : before.step layout device stream = some after)
    (later : Passes layout device stream after commands last) :
    Passes layout device stream before (command :: commands) last

theorem Passes.trans {layout : Layout W} {device : Device W σ} {stream : List (Command W)}
    {start middle last : Replay W σ} {first second : List (Command W)}
    (passes : Passes layout device stream start first middle)
    (later : Passes layout device stream middle second last) :
    Passes layout device stream start (first ++ second) last := by
  induction passes with
  | here => exact later
  | next found stepped _ ih => exact .next found stepped (ih later)

/-- Forget the commands. -/
theorem Passes.runs {layout : Layout W} {device : Device W σ} {stream : List (Command W)}
    {start last : Replay W σ} {commands : List (Command W)}
    (passes : Passes layout device stream start commands last) :
    Runs layout device stream start last := by
  induction passes with
  | here => exact .refl
  | next _ stepped _ ih => exact .head stepped ih

/-- Every skip of a stream, taken, ends where a command starts or the stream ends. -/
def SkipsLand (layout : Layout W) (stream : List (Command W)) : Prop :=
  ∀ before cmd after, stream = before ++ .skip cmd :: after →
    layout.Boundary after cmd.bytes.toNat

open Recorder (boundaryCommands)

mutual

/-- The commands of a tree and the completion count it leaves open. -/
def CaseTree.code (layout : Layout W) (workers : W → Nat) :
    CaseTree W → Option Nat → List (Command W) × Option Nat
  | .done, since => ([], since)
  | .workload node rest, since =>
    let after := rest.code layout workers (some (since.getD 0 + workers node))
    (.workload node :: after.1, after.2)
  | .case indexAddress branches rest, since =>
    let after := rest.code layout workers none
    (boundaryCommands since true ++ (branches.code layout workers indexAddress 0 ++ after.1),
      after.2)

/-- The commands of branches, numbered from `number`, up to the end of their case. -/
def Branches.code (layout : Layout W) (workers : W → Nat) (indexAddress : UInt32) :
    Branches W → Nat → List (Command W)
  | .last body, number =>
    let inside := body.code layout workers none
    .skip { mode := .always, baseAddr := indexAddress, value := UInt32.ofNat number, bytes := 0 } ::
      (inside.1 ++ boundaryCommands inside.2 false)
  | .more body rest, number =>
    let inside := body.code layout workers none
    let leaving := inside.1 ++ boundaryCommands inside.2 false
    let after := rest.code layout workers indexAddress (number + 1)
    .skip { mode := .ifNotEqual, baseAddr := indexAddress, value := UInt32.ofNat number,
            bytes := UInt32.ofNat (layout.bytes leaving + layout.skipSize) } ::
      (leaving ++ .skip { mode := .always, baseAddr := indexAddress, value := 0,
                          bytes := UInt32.ofNat (layout.bytes after) } :: after)

end

mutual

/-- What a replay of a tree's code goes through, from a device that ran some workloads. -/
def CaseTree.trail (layout : Layout W) (workers : W → Nat) (device : Device W σ) :
    CaseTree W → Option Nat → σ × List W → List (Command W)
  | .done, _, _ => []
  | .workload node rest, since, (state, ran) =>
    .workload node :: rest.trail layout workers device (some (since.getD 0 + workers node))
      (device.launch node state, ran ++ [node])
  | .case indexAddress branches rest, since, (state, ran) =>
    let state := device.settle state
    let index := (device.index state indexAddress).toNat
    boundaryCommands since true ++
      (branches.trail layout workers device indexAddress 0 index (state, ran) ++
        rest.trail layout workers device none (branches.replay device index (state, ran)))

/-- What it goes through in the branches from `number` on. -/
def Branches.trail (layout : Layout W) (workers : W → Nat) (device : Device W σ)
    (indexAddress : UInt32) : Branches W → Nat → Nat → σ × List W → List (Command W)
  | .last body, number, _, state =>
    .skip { mode := .always, baseAddr := indexAddress, value := UInt32.ofNat number, bytes := 0 } ::
      (body.trail layout workers device none state ++
        boundaryCommands (body.code layout workers none).2 false)
  | .more body rest, number, index, state =>
    let inside := body.code layout workers none
    let leaving := inside.1 ++ boundaryCommands inside.2 false
    let after := rest.code layout workers indexAddress (number + 1)
    .skip { mode := .ifNotEqual, baseAddr := indexAddress, value := UInt32.ofNat number,
            bytes := UInt32.ofNat (layout.bytes leaving + layout.skipSize) } ::
      match index with
      | 0 => body.trail layout workers device none state ++ (boundaryCommands inside.2 false ++
          [.skip { mode := .always, baseAddr := indexAddress, value := 0,
                   bytes := UInt32.ofNat (layout.bytes after) }])
      | index + 1 => rest.trail layout workers device indexAddress (number + 1) index state

end

end Libtt.Trace

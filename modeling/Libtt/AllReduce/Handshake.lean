import Libtt.Foundation.Fairness
import Mathlib.Data.Fintype.Basic
import Mathlib.Data.Nat.ModEq

/-!
# Direct all-reduce: the writers' handshake

Each chip runs programs one after another; some are direct exchanges, and the exchanges of all
chips come in one order. In an exchange a worker core of every link runs `worker_writer`: it tells
the peers that its chip runs the exchange, waits until all of them do, clears its count and sends
its tiles into the peers' scratch. The count is the core's copy of the global semaphore.
-/
namespace Libtt.AllReduce

open Libtt.Foundation

inductive Direction where
  | forward | backward
  deriving DecidableEq, Repr

/-- The chips that a multicast of each chip reaches in each direction: between them every other
chip, once. The factory passes the writer their numbers as `num_targets_forward_direction` and
`num_targets_backward_direction`. -/
structure Routes (chips : Nat) where
  targets : Fin chips → Direction → List (Fin chips)
  once : ∀ chip, (targets chip .forward ++ targets chip .backward).Nodup
  others : ∀ chip peer, peer ∈ targets chip .forward ++ targets chip .backward ↔ peer ≠ chip

namespace Routes

variable {chips : Nat}

def numTargets (routes : Routes chips) (chip : Fin chips) (direction : Direction) : Nat :=
  (routes.targets chip direction).length

/-- On a line, all chips after this one and all before it. -/
def line (chips : Nat) : Routes chips where
  targets chip
    | .forward => (List.finRange chips).filter (chip < ·)
    | .backward => (List.finRange chips).filter (· < chip)
  once chip := by
    refine List.nodup_append.mpr ⟨(List.nodup_finRange chips).filter _,
      (List.nodup_finRange chips).filter _, fun peer after other before => ?_⟩
    simp only [List.mem_filter, decide_eq_true_eq] at after before
    rintro rfl
    exact absurd after.2 (not_lt.mpr before.2.le)
  others chip peer := by
    simp only [List.mem_append, List.mem_filter, List.mem_finRange, true_and, decide_eq_true_eq]
    exact ⟨fun either => either.elim ne_of_gt ne_of_lt, fun different =>
      (lt_or_gt_of_ne different).symm⟩

end Routes

/-- The arguments of `worker_writer` that say which tiles it sends, and in what packets. -/
structure WriterArgs where
  numTilesToRead : Nat
  numTilesPerCore : Nat
  firstCoreTileStartOffset : Nat
  packetSizeInPages : Nat
  tensor0PageSize : Nat
  payloadBytesPerTile : Nat
  startsInside : firstCoreTileStartOffset < numTilesPerCore
  packetHoldsTile : 0 < packetSizeInPages * tensor0PageSize / payloadBytesPerTile

namespace WriterArgs

def tilesPerPacket (args : WriterArgs) : Nat :=
  args.packetSizeInPages * args.tensor0PageSize / args.payloadBytesPerTile

/-- Tiles sent at once: the first of them, counted from the writer's first tile, how many there
are, and the reduction core and place in its slot they go to. -/
structure Packet where
  tilesRead : Nat
  tiles : Nat
  coreId : Nat
  shardTileId : Nat
  deriving DecidableEq, Repr

/-- The packets of the writer's loop, from a state of its counters; the fuel is an upper bound of
the tiles left. -/
def packetsFrom (args : WriterArgs) : Nat → Nat → Nat → Nat → List Packet
  | 0, _, _, _ => []
  | fuel + 1, tilesRead, shardTileId, coreId =>
    if tilesRead < args.numTilesToRead then
      let tiles := min (args.numTilesToRead - tilesRead)
        (min (args.numTilesPerCore - shardTileId) args.tilesPerPacket)
      let filled := args.numTilesPerCore ≤ shardTileId + tiles
      ⟨tilesRead, tiles, coreId, shardTileId⟩ ::
        args.packetsFrom fuel (tilesRead + tiles) (if filled then 0 else shardTileId + tiles)
          (if filled then coreId + 1 else coreId)
    else []

def packets (args : WriterArgs) : List Packet :=
  args.packetsFrom args.numTilesToRead 0 args.firstCoreTileStartOffset 0

/-- The packets follow each other and carry every tile that is left. -/
theorem packetsFrom_spec (args : WriterArgs) {fuel tilesRead shardTileId : Nat} (coreId : Nat)
    (inside : shardTileId < args.numTilesPerCore)
    (enough : args.numTilesToRead ≤ tilesRead + fuel) :
    (∀ packet ∈ args.packetsFrom fuel tilesRead shardTileId coreId,
      tilesRead ≤ packet.tilesRead) ∧
    (args.packetsFrom fuel tilesRead shardTileId coreId).Pairwise
      (fun first second => first.tilesRead < second.tilesRead) ∧
    ((args.packetsFrom fuel tilesRead shardTileId coreId).map Packet.tiles).sum =
      args.numTilesToRead - tilesRead := by
  induction fuel generalizing tilesRead shardTileId coreId with
  | zero =>
    refine ⟨nofun, .nil, ?_⟩
    simp only [packetsFrom, List.map_nil, List.sum_nil]
    omega
  | succ fuel ih =>
    have holds : 0 < args.tilesPerPacket := args.packetHoldsTile
    rw [packetsFrom]
    split
    case isFalse none =>
      refine ⟨nofun, .nil, ?_⟩
      simp only [List.map_nil, List.sum_nil]
      omega
    case isTrue left =>
      set tiles := min (args.numTilesToRead - tilesRead)
        (min (args.numTilesPerCore - shardTileId) args.tilesPerPacket) with isTiles
      have rest := @ih (tilesRead + tiles)
        (if args.numTilesPerCore ≤ shardTileId + tiles then 0 else shardTileId + tiles)
        (if args.numTilesPerCore ≤ shardTileId + tiles then coreId + 1 else coreId)
        (by split <;> omega) (by omega)
      refine ⟨fun packet member => ?_, List.pairwise_cons.mpr ⟨fun packet member => ?_, rest.2.1⟩,
        ?_⟩
      · rcases List.mem_cons.mp member with rfl | member
        · exact le_refl _
        · exact le_trans (Nat.le_add_right _ _) (rest.1 packet member)
      · have := rest.1 packet member
        change tilesRead < packet.tilesRead
        omega
      · rw [List.map_cons, List.sum_cons, rest.2.2]
        change tiles + _ = _
        omega

/-- The writer sends all its tiles. -/
theorem packets_tiles (args : WriterArgs) :
    (args.packets.map Packet.tiles).sum = args.numTilesToRead :=
  (args.packetsFrom_spec 0 args.startsInside (by omega)).2.2

theorem packets_nodup (args : WriterArgs) : args.packets.Nodup :=
  (args.packetsFrom_spec 0 args.startsInside (by omega)).2.1.imp fun less same => by
    rw [same] at less
    exact absurd less (lt_irrefl _)

theorem packets_ne_nil (args : WriterArgs) (tiles : args.numTilesToRead ≠ 0) :
    args.packets ≠ [] := by
  intro empty
  have sum := args.packets_tiles
  rw [empty] at sum
  exact tiles sum.symm

end WriterArgs

open WriterArgs (Packet)

/-- What goes over the fabric: the atomic increment of a peer's count, or tiles for its scratch. -/
inductive Payload where
  | ready
  | data (packet : Packet)
  deriving DecidableEq, Repr

/-- The steps of a writer that others can see. A multicast without targets has no connection, and
sends nothing. -/
inductive Instruction where
  | send (direction : Direction) (payload : Payload)
  | waitMin
  | set
  deriving DecidableEq, Repr

/-- Under `WAIT_FOR_PEERS`: `send_ready` both ways, `noc_semaphore_wait_min`,
`noc_semaphore_set` to zero. -/
def waitForPeers : List Instruction :=
  [.send .forward .ready, .send .backward .ready, .waitMin, .set]

def sendPackets (packets : List Packet) : List Instruction :=
  packets.flatMap fun packet => [.send .forward (.data packet), .send .backward (.data packet)]

/-- `worker_writer` of a direct exchange. Without tiles it skips the handshake and sends nothing. -/
def writer (args : WriterArgs) : List Instruction :=
  if args.numTilesToRead ≠ 0 then waitForPeers ++ sendPackets args.packets else []

/-- What a chip is doing: nothing, a program of another kind, or its next exchange. -/
inductive Activity where
  | idle | other | exchange
  deriving DecidableEq, Repr

/-- A payload, with the exchange it belongs to. No receiver looks at the exchange; it is there to
state what an increment or a packet was sent for. -/
structure Message where
  exchange : Nat
  payload : Payload
  deriving DecidableEq, Repr

/-- The state of the mesh. `delivered` and `arrivals` are history: all that one writer's messages
to one chip brought, and the increments in each count since it was last set to zero. -/
structure State (chips links : Nat) where
  completed : Fin chips → Nat
  activity : Fin chips → Activity
  pending : Fin chips → Fin links → List Instruction
  count : Fin chips → Fin links → Nat
  channel : Fin chips → Fin links → Fin chips → List Message
  delivered : Fin chips → Fin links → Fin chips → List Message
  arrivals : Fin chips → Fin links → List (Fin chips × Nat)

/-- The semaphore is created with zero on every core, before any exchange. -/
def State.initial (chips links : Nat) : State chips links where
  completed _ := 0
  activity _ := .idle
  pending _ _ := []
  count _ _ := 0
  channel _ _ _ := []
  delivered _ _ _ := []
  arrivals _ _ := []

inductive Action (chips links : Nat) where
  | startOther (chip : Fin chips)
  | finishOther (chip : Fin chips)
  | startExchange (chip : Fin chips)
  | advance (chip : Fin chips) (link : Fin links)
  | deliver (sender : Fin chips) (link : Fin links) (chip : Fin chips)
  | finishExchange (chip : Fin chips)
  deriving DecidableEq

/-- A mesh: its routes, and the arguments of each exchange's writers. The work split is the same
on every chip. -/
structure Mesh (chips links : Nat) where
  routes : Routes chips
  args : Nat → Fin links → WriterArgs

namespace Mesh

variable {chips links : Nat}

def program (mesh : Mesh chips links) (exchange : Nat) (link : Fin links) : List Instruction :=
  writer (mesh.args exchange link)

/-- How many peers a writer waits for. -/
def targetCount (mesh : Mesh chips links) (chip : Fin chips) : Nat :=
  mesh.routes.numTargets chip .forward + mesh.routes.numTargets chip .backward

/-- A chip has the tiles of every peer writer that has tiles. -/
def Received (mesh : Mesh chips links) (state : State chips links) (chip : Fin chips)
    (exchange : Nat) : Prop :=
  ∀ peer ≠ chip, ∀ link, (mesh.args exchange link).numTilesToRead ≠ 0 →
    ∀ packet ∈ (mesh.args exchange link).packets,
      (⟨exchange, .data packet⟩ : Message) ∈ state.delivered peer link chip

instance (mesh : Mesh chips links) (state : State chips links) (chip : Fin chips) (exchange : Nat) :
    Decidable (mesh.Received state chip exchange) := by
  unfold Received
  infer_instance

/-- One step of a writer. -/
def advance (mesh : Mesh chips links) (state : State chips links) (chip : Fin chips)
    (link : Fin links) : Option (State chips links) :=
  match state.pending chip link with
  | [] => none
  | instruction :: rest =>
    let moved := { state with
      pending := fun other otherLink =>
        if other = chip ∧ otherLink = link then rest else state.pending other otherLink }
    match instruction with
    | .send direction payload => some { moved with
        channel := fun sender otherLink receiver =>
          if (sender = chip ∧ otherLink = link) ∧ receiver ∈ mesh.routes.targets chip direction then
            state.channel sender otherLink receiver ++ [⟨state.completed chip, payload⟩]
          else state.channel sender otherLink receiver }
    | .waitMin => if mesh.targetCount chip ≤ state.count chip link then some moved else none
    | .set => some { moved with
        count := fun other otherLink =>
          if other = chip ∧ otherLink = link then 0 else state.count other otherLink
        arrivals := fun other otherLink =>
          if other = chip ∧ otherLink = link then [] else state.arrivals other otherLink }

/-- The first message of one writer to one chip arrives. -/
def deliver (state : State chips links) (sender : Fin chips) (link : Fin links)
    (chip : Fin chips) : Option (State chips links) :=
  match state.channel sender link chip with
  | [] => none
  | message :: rest =>
    let taken := { state with
      channel := fun other otherLink receiver =>
        if other = sender ∧ otherLink = link ∧ receiver = chip then rest
        else state.channel other otherLink receiver
      delivered := fun other otherLink receiver =>
        if other = sender ∧ otherLink = link ∧ receiver = chip then
          state.delivered sender link chip ++ [message]
        else state.delivered other otherLink receiver }
    match message.payload with
    | .data _ => some taken
    | .ready => some { taken with
        count := fun other otherLink =>
          if other = chip ∧ otherLink = link then state.count chip link + 1
          else state.count other otherLink
        arrivals := fun other otherLink =>
          if other = chip ∧ otherLink = link then
            state.arrivals chip link ++ [(sender, message.exchange)]
          else state.arrivals other otherLink }

/-- Chips start and finish programs one at a time; an exchange ends when its writers have and the
chip has the data of every peer. -/
def step (mesh : Mesh chips links) (state : State chips links) :
    Action chips links → Option (State chips links)
  | .startOther chip => if state.activity chip = .idle then
      some { state with activity := Function.update state.activity chip .other } else none
  | .finishOther chip => if state.activity chip = .other then
      some { state with activity := Function.update state.activity chip .idle } else none
  | .startExchange chip => if state.activity chip = .idle then
      some { state with
        activity := Function.update state.activity chip .exchange
        pending := Function.update state.pending chip (mesh.program (state.completed chip)) }
    else none
  | .advance chip link => mesh.advance state chip link
  | .deliver sender link chip => deliver state sender link chip
  | .finishExchange chip =>
    if state.activity chip = .exchange ∧ (∀ link, state.pending chip link = []) ∧
        mesh.Received state chip (state.completed chip) then
      some { state with
        activity := Function.update state.activity chip .idle
        completed := Function.update state.completed chip (state.completed chip + 1) }
    else none

/-- The states of the mesh, from its creation on. -/
def Reachable (mesh : Mesh chips links) : State chips links → Prop :=
  Reaches mesh.step (State.initial chips links)

end Mesh

/-- A chip runs an exchange: it has started it and not finished it. -/
def State.Running {chips links : Nat} (state : State chips links) (chip : Fin chips)
    (exchange : Nat) : Prop :=
  state.activity chip = .exchange ∧ state.completed chip = exchange

/-- A chip has started an exchange. -/
def State.Started {chips links : Nat} (state : State chips links) (chip : Fin chips)
    (exchange : Nat) : Prop :=
  exchange < state.completed chip ∨ state.Running chip exchange

end Libtt.AllReduce

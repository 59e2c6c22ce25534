import Libtt.AllReduce.HandshakeCorrect

/-!
# Exchanges end

What a step leaves as it is, and from that: in a fair run an exchange that every chip has started is
finished by every chip.
-/
namespace Libtt.AllReduce

open Libtt.Foundation
open WriterArgs (Packet)

variable {chips links : Nat} {mesh : Mesh chips links} {state next : State chips links}
  {chip peer sender : Fin chips} {link : Fin links} {exchange : Nat}
  {instruction : Instruction} {rest : List Instruction} {action : Action chips links}

/-- What an action can do to each part of the state. -/
structure Effect (mesh : Mesh chips links) (state : State chips links)
    (action : Action chips links) (next : State chips links) : Prop where
  completed : ∀ chip, next.completed chip =
    if action = .finishExchange chip then state.completed chip + 1 else state.completed chip
  starts : ∀ chip, action = .startExchange chip → state.activity chip = .idle
  finishes : ∀ chip, action = .finishExchange chip → state.activity chip = .exchange ∧
    ∀ link, state.pending chip link = []
  running : ∀ chip, action ≠ .finishExchange chip → state.activity chip = .exchange →
    next.activity chip = .exchange
  remains : ∀ chip link, action ≠ .startExchange chip →
    next.pending chip link ⊆ state.pending chip link
  pending : ∀ chip link, action ≠ .startExchange chip → action ≠ .advance chip link →
    next.pending chip link = state.pending chip link
  count : ∀ chip link, action ≠ .advance chip link →
    state.count chip link ≤ next.count chip link
  delivered : ∀ sender link chip, state.delivered sender link chip ⊆
    next.delivered sender link chip
  channel : ∀ sender link chip, action ≠ .deliver sender link chip →
    ∃ more, next.channel sender link chip = state.channel sender link chip ++ more

/-- The step of a writer, whatever it is. -/
theorem moved_of_advance (taken : mesh.advance state chip link = some next) :
    ∃ instruction rest, state.pending chip link = instruction :: rest ∧
      Moved state next chip link rest ∧ Effect mesh state (.advance chip link) next := by
  unfold Mesh.advance at taken
  split at taken
  case h_1 => cases taken
  case h_2 instruction rest has =>
    refine ⟨instruction, rest, has, ?_⟩
    have elsewhere : ∀ other otherLink, Action.advance chip link ≠ .advance other otherLink →
        ¬(other = chip ∧ otherLink = link) := by
      rintro other otherLink different ⟨rfl, rfl⟩
      exact different rfl
    have subset : ∀ other otherLink, (if other = chip ∧ otherLink = link then rest else
        state.pending other otherLink) ⊆ state.pending other otherLink := by
      intro other otherLink
      split
      case isTrue here =>
        obtain ⟨rfl, rfl⟩ := here
        rw [has]
        exact List.subset_cons_self instruction rest
      case isFalse => exact List.Subset.refl _
    cases instruction with
    | send direction payload =>
      cases taken
      refine ⟨⟨rfl, rfl, rfl⟩, fun _ => rfl, nofun, nofun, fun _ _ running => running,
        fun other otherLink _ => subset other otherLink,
        fun other otherLink _ different => if_neg (elsewhere _ _ different),
        fun _ _ _ => le_refl _, fun _ _ _ => List.Subset.refl _, fun other otherLink receiver _ => ?_⟩
      by_cases here : (other = chip ∧ otherLink = link) ∧
          receiver ∈ mesh.routes.targets chip direction
      · exact ⟨_, if_pos here⟩
      · exact ⟨[], by simp [here]⟩
    | waitMin =>
      obtain ⟨_, same⟩ := Option.ite_none_right_eq_some.mp taken
      cases same
      exact ⟨⟨rfl, rfl, rfl⟩, fun _ => rfl, nofun, nofun, fun _ _ running => running,
        fun other otherLink _ => subset other otherLink,
        fun other otherLink _ different => if_neg (elsewhere _ _ different),
        fun _ _ _ => le_refl _, fun _ _ _ => List.Subset.refl _,
        fun _ _ _ _ => ⟨[], (List.append_nil _).symm⟩⟩
    | set =>
      cases taken
      refine ⟨⟨rfl, rfl, rfl⟩, fun _ => rfl, nofun, nofun, fun _ _ running => running,
        fun other otherLink _ => subset other otherLink,
        fun other otherLink _ different => if_neg (elsewhere _ _ different),
        fun other otherLink different => ?_, fun _ _ _ => List.Subset.refl _,
        fun _ _ _ _ => ⟨[], (List.append_nil _).symm⟩⟩
      exact (if_neg (elsewhere other otherLink different)).ge

/-- The first message of a channel is delivered, and counted if it is an increment. -/
theorem effect_of_deliver (mesh : Mesh chips links)
    (taken : Mesh.deliver state sender link chip = some next) :
    ∃ message rest, state.channel sender link chip = message :: rest ∧
      message ∈ next.delivered sender link chip ∧
        Effect mesh state (.deliver sender link chip) next := by
  unfold Mesh.deliver at taken
  split at taken
  case h_1 => cases taken
  case h_2 message rest has =>
    refine ⟨message, rest, has, ?_⟩
    have more : ∀ other otherLink receiver, state.delivered other otherLink receiver ⊆
        if other = sender ∧ otherLink = link ∧ receiver = chip then
          state.delivered sender link chip ++ [message]
        else state.delivered other otherLink receiver := by
      intro other otherLink receiver
      split
      case isTrue here =>
        obtain ⟨rfl, rfl, rfl⟩ := here
        exact List.subset_append_left _ _
      case isFalse => exact List.Subset.refl _
    have elsewhere : ∀ other otherLink receiver,
        Action.deliver sender link chip ≠ .deliver other otherLink receiver →
          ¬(other = sender ∧ otherLink = link ∧ receiver = chip) := by
      rintro other otherLink receiver different ⟨rfl, rfl, rfl⟩
      exact different rfl
    cases kind : message.payload with
    | data packet =>
      simp only [kind] at taken
      cases taken
      refine ⟨by simp, fun _ => rfl, nofun, nofun, fun _ _ running => running,
        fun _ _ _ => List.Subset.refl _, fun _ _ _ _ => rfl, fun _ _ _ => le_refl _, more,
        fun other otherLink receiver different => ⟨[], ?_⟩⟩
      rw [List.append_nil]
      exact if_neg (elsewhere other otherLink receiver different)
    | ready =>
      simp only [kind] at taken
      cases taken
      refine ⟨by simp, fun _ => rfl, nofun, nofun, fun _ _ running => running,
        fun _ _ _ => List.Subset.refl _, fun _ _ _ _ => rfl, fun other otherLink _ => ?_, more,
        fun other otherLink receiver different => ⟨[], ?_⟩⟩
      · change _ ≤ if other = chip ∧ otherLink = link then _ else _
        split
        case isTrue here =>
          obtain ⟨rfl, rfl⟩ := here
          exact Nat.le_succ _
        case isFalse => exact le_refl _
      · rw [List.append_nil]
        exact if_neg (elsewhere other otherLink receiver different)

/-- A program that starts or finishes changes the activity of its chip. -/
theorem effect_of_activity {activity : Activity} {pending : Fin chips → Fin links → List Instruction}
    (other : ∀ chip, action ≠ .finishExchange chip)
    (starts : ∀ chip, action = .startExchange chip → state.activity chip = .idle)
    (idle : state.activity chip ≠ .exchange)
    (same : ∀ other link, action ≠ .startExchange other →
      pending other link = state.pending other link) :
    Effect mesh state action { state with
      activity := Function.update state.activity chip activity, pending := pending } where
  completed chip := by rw [if_neg (other chip)]
  starts := starts
  finishes chip finishes := absurd finishes (other chip)
  running other' _ running := by
    have different : other' ≠ chip := by
      rintro rfl
      exact idle running
    simpa [Function.update_of_ne different] using running
  remains other' link different := by
    change pending other' link ⊆ _
    rw [same other' link different]
    exact List.Subset.refl _
  pending other' link different _ := same other' link different
  count _ _ _ := le_refl _
  delivered _ _ _ := List.Subset.refl _
  channel _ _ _ _ := ⟨[], (List.append_nil _).symm⟩

theorem effect_of_step (taken : mesh.step state action = some next) :
    Effect mesh state action next := by
  cases action with
  | startOther chip =>
    obtain ⟨idle, same⟩ := Option.ite_none_right_eq_some.mp taken
    cases same
    exact effect_of_activity nofun nofun (by simp [idle]) fun _ _ _ => rfl
  | finishOther chip =>
    obtain ⟨busy, same⟩ := Option.ite_none_right_eq_some.mp taken
    cases same
    exact effect_of_activity nofun nofun (by simp [busy]) fun _ _ _ => rfl
  | startExchange chip =>
    obtain ⟨idle, same⟩ := Option.ite_none_right_eq_some.mp taken
    cases same
    refine effect_of_activity nofun ?_ (by simp [idle]) fun other link different => ?_
    · intro other starts
      cases starts
      exact idle
    · have elsewhere : other ≠ chip := by
        rintro rfl
        exact different rfl
      rw [Function.update_of_ne elsewhere]
  | advance chip link =>
    obtain ⟨_, _, _, _, effect⟩ := moved_of_advance taken
    exact effect
  | deliver sender link chip =>
    obtain ⟨_, _, _, _, effect⟩ := effect_of_deliver mesh taken
    exact effect
  | finishExchange chip =>
    obtain ⟨guard, same⟩ := Option.ite_none_right_eq_some.mp taken
    cases same
    refine ⟨fun other => ?_, nofun, fun other finishes => ?_, fun other different running => ?_,
      fun _ _ _ => List.Subset.refl _, fun _ _ _ _ => rfl, fun _ _ _ => le_refl _,
      fun _ _ _ => List.Subset.refl _, fun _ _ _ _ => ⟨[], (List.append_nil _).symm⟩⟩
    · by_cases here : other = chip
      · subst here
        simp
      · rw [if_neg (by simpa using fun same => here same.symm)]
        exact Function.update_of_ne here _ _
    · cases finishes
      exact ⟨guard.1, guard.2.1⟩
    · have elsewhere : other ≠ chip := by
        rintro rfl
        exact different rfl
      simpa [Function.update_of_ne elsewhere] using running

namespace Effect

variable (effect : Effect mesh state action next)

include effect

theorem completed_le (chip : Fin chips) : state.completed chip ≤ next.completed chip := by
  rw [effect.completed]
  split <;> omega

/-- A chip that runs an exchange runs it until it finishes it. -/
theorem running_next (running : state.Running chip exchange)
    (different : action ≠ .finishExchange chip) : next.Running chip exchange :=
  ⟨effect.running chip different running.1, by rw [effect.completed, if_neg different, running.2]⟩

theorem not_starts (running : state.Running chip exchange) : action ≠ .startExchange chip := by
  intro starts
  have idle := effect.starts chip starts
  rw [running.1] at idle
  cases idle

theorem started_next (started : state.Started chip exchange) : next.Started chip exchange := by
  rcases started with past | running
  · exact .inl (lt_of_lt_of_le past (effect.completed_le chip))
  · by_cases finishes : action = .finishExchange chip
    · refine .inl ?_
      rw [effect.completed, if_pos finishes, running.2]
      exact Nat.lt_succ_self exchange
    · exact .inr (effect.running_next running finishes)

theorem executed_next (executed : state.Executed mesh chip link exchange instruction) :
    next.Executed mesh chip link exchange instruction := by
  refine ⟨executed.1, ?_⟩
  rcases executed.2 with past | ⟨running, absent⟩
  · exact .inl (lt_of_lt_of_le past (effect.completed_le chip))
  · rcases effect.started_next (.inr running) with past | still
    · exact .inl past
    · exact .inr ⟨still, fun pending =>
        absent (effect.remains chip link (effect.not_starts running) pending)⟩

theorem received_next (received : mesh.Received state chip exchange) :
    mesh.Received next chip exchange := fun peer different link tiles packet member =>
  effect.delivered _ _ _ (received peer different link tiles packet member)

end Effect

namespace Consistent

variable (consistent : Consistent mesh state)

include consistent

/-- A chip past an exchange has every message of it. -/
theorem past_of_channel {message : Message} (member : message ∈ state.channel sender link chip)
    (past : message.exchange < state.completed chip) : False := by
  have apart := (List.nodup_append.mp (consistent.once sender link chip)).2.2
  have different := consistent.ne_of_sent (List.mem_append_right _ member)
  obtain ⟨direction, _, executed⟩ :=
    (consistent.sent sender link chip message).mp (List.mem_append_right _ member)
  have tiles := tiles_of_mem executed.1
  obtain ⟨exchange, payload⟩ := message
  cases payload with
  | ready =>
    have waited := consistent.waited chip link exchange
      ⟨mem_program_of_tiles tiles (by decide), .inl past⟩ sender different.symm
    exact apart _ waited _ member rfl
  | data packet =>
    have received := consistent.received chip exchange past sender different.symm link tiles packet
      (mem_program_data.mp executed.1).2
    exact apart _ received _ member rfl

/-- A writer past its wait knows that every peer has started the exchange. -/
theorem peer_started (executed : state.Executed mesh sender link exchange .waitMin)
    (different : chip ≠ sender) : state.Started chip exchange := by
  have delivered := consistent.waited sender link exchange executed chip different
  obtain ⟨direction, sent⟩ := consistent.executed_of_delivered delivered
  exact sent.started

/-- Tiles on their way are for the exchange that the chip they go to runs. -/
theorem running_of_channel {message : Message} {packet : Packet}
    (member : message ∈ state.channel sender link chip) (isData : message.payload = .data packet) :
    state.Running chip message.exchange := by
  have different := consistent.ne_of_sent (List.mem_append_right _ member)
  obtain ⟨direction, _, executed⟩ :=
    (consistent.sent sender link chip message).mp (List.mem_append_right _ member)
  rw [isData] at executed
  have waited := consistent.waitMin_of_set (consistent.set_of_data executed)
  rcases consistent.peer_started waited different with past | running
  · exact (consistent.past_of_channel member past).elim
  · exact running

/-- Tiles about to be sent are for the exchange that the chips they go to run. -/
theorem running_of_send {direction : Direction} {packet : Packet}
    (has : state.pending sender link = .send direction (.data packet) :: rest)
    (target : chip ∈ mesh.routes.targets sender direction) :
    state.Running chip (state.completed sender) := by
  have isPending : .send direction (.data packet) ∈ state.pending sender link :=
    has ▸ List.mem_cons_self
  have inProgram := mem_program_data.mp (consistent.mem_program isPending)
  have cleared := consistent.earlier_of_head (program_of_tiles inProgram.1)
    (show .set ∈ waitForPeers by decide)
    (mem_sendPackets.mpr ⟨direction, packet, inProgram.2, rfl⟩) has
  have different : chip ≠ sender := by
    refine (mesh.routes.others sender chip).mp (List.mem_append.mpr ?_)
    cases direction
    · exact .inl target
    · exact .inr target
  rcases consistent.peer_started (consistent.waitMin_of_set cleared) different with past | running
  · -- A chip past the exchange has the tiles, which have not been sent.
    have received := consistent.received chip _ past sender different.symm link inProgram.1 packet
      inProgram.2
    obtain ⟨other, otherTarget, executed⟩ :=
      (consistent.sent _ _ _ _).mp (List.mem_append_left _ received)
    rw [mesh.routes.direction_unique otherTarget target] at executed
    exact absurd executed (state.not_executed isPending)
  · exact running

/-- The count that a writer is about to clear has this exchange's increments only. -/
theorem arrivals_of_set (has : state.pending chip link = .set :: rest) :
    state.count chip link = mesh.targetCount chip ∧
      ∀ arrival, arrival ∈ state.arrivals chip link ↔
        arrival.1 ≠ chip ∧ arrival.2 = state.completed chip := by
  have isPending : .set ∈ state.pending chip link := has ▸ List.mem_cons_self
  have waits : ¬state.Executed mesh chip link (state.completed chip) .set :=
    state.not_executed isPending
  have tiles := tiles_of_mem (consistent.mem_program isPending)
  have split : mesh.program (state.completed chip) link =
      [.send .forward .ready, .send .backward .ready, .waitMin] ++
        (.set :: sendPackets (mesh.args (state.completed chip) link).packets) :=
    program_of_tiles tiles
  have waited := consistent.earlier_of_head split (show .waitMin ∈ _ by decide)
    List.mem_cons_self has
  have all : ∀ arrival, arrival ∈ state.arrivals chip link ↔
      arrival.1 ≠ chip ∧ arrival.2 = state.completed chip := by
    intro arrival
    constructor
    · intro member
      have delivered := ((consistent.arrived chip link arrival).mp member).1
      exact ⟨(consistent.ne_of_sent (List.mem_append_left _ delivered)).symm,
        consistent.arrival_exchange tiles waits member⟩
    · rintro ⟨different, same⟩
      refine (consistent.arrived chip link arrival).mpr ?_
      rw [same]
      exact ⟨consistent.waited chip link _ waited arrival.1 different, waits⟩
  refine ⟨le_antisymm (consistent.count_le waits tiles) ?_, all⟩
  have perm : (mesh.routes.targets chip .forward ++ mesh.routes.targets chip .backward).Subperm
      ((state.arrivals chip link).map Prod.fst) := by
    refine List.Nodup.subperm (mesh.routes.once chip) fun peer member => ?_
    have different := (mesh.routes.others chip peer).mp member
    exact List.mem_map.mpr ⟨(peer, state.completed chip), (all _).mpr ⟨different, rfl⟩, rfl⟩
  have bound := perm.length_le
  rwa [length_peers, List.length_map, ← consistent.counted chip link] at bound

/-- Before a chip starts an exchange, its counts have increments for that exchange only. -/
theorem arrivals_before_start (idle : state.activity chip ≠ .exchange) {other : Fin links}
    (tiles : (mesh.args (state.completed chip) other).numTilesToRead ≠ 0)
    {arrival : Fin chips × Nat} (member : arrival ∈ state.arrivals chip link) :
    arrival.1 ≠ chip ∧ arrival.2 = state.completed chip := by
  have delivered := ((consistent.arrived chip link arrival).mp member).1
  refine ⟨(consistent.ne_of_sent (List.mem_append_left _ delivered)).symm,
    consistent.arrival_exchange tiles (fun executed => ?_) member⟩
  rcases executed.started with past | running
  · exact lt_irrefl _ past
  · exact idle running.1

end Consistent

/-- The parts of an exchange: a step of a writer, the arrival of a message, the end of a chip. -/
inductive Task (chips links : Nat) where
  | step (chip : Fin chips) (link : Fin links) (instruction : Instruction)
  | arrival (sender : Fin chips) (link : Fin links) (chip : Fin chips) (payload : Payload)
  | finish (chip : Fin chips)
  deriving DecidableEq

namespace Task

def toAction : Task chips links → Action chips links
  | step chip link _ => .advance chip link
  | arrival sender link chip _ => .deliver sender link chip
  | finish chip => .finishExchange chip

def Done (mesh : Mesh chips links) (exchange : Nat) (state : State chips links) :
    Task chips links → Prop
  | step chip link instruction => state.Executed mesh chip link exchange instruction
  | arrival sender link chip payload => (⟨exchange, payload⟩ : Message) ∈
      state.delivered sender link chip
  | finish chip => exchange < state.completed chip

/-- The task is what its action would do now. -/
def Urged (mesh : Mesh chips links) (exchange : Nat) (state : State chips links) :
    Task chips links → Prop
  | step chip link instruction => state.Running chip exchange ∧
      (∃ rest, state.pending chip link = instruction :: rest) ∧
      (instruction = .waitMin → mesh.targetCount chip ≤ state.count chip link)
  | arrival sender link chip payload => ∃ rest,
      state.channel sender link chip = ⟨exchange, payload⟩ :: rest
  | finish chip => state.Running chip exchange ∧ (∀ link, state.pending chip link = []) ∧
      mesh.Received state chip exchange

/-- The payload that a step sends. -/
def payloads : Instruction → List Payload
  | .send _ payload => [payload]
  | .waitMin | .set => []

/-- The tasks of an exchange. -/
def list (mesh : Mesh chips links) (exchange : Nat) : List (Task chips links) :=
  (List.finRange chips).flatMap fun chip => finish chip ::
    (List.finRange links).flatMap fun link =>
      (mesh.program exchange link).flatMap fun instruction => step chip link instruction ::
        (List.finRange chips).flatMap fun receiver =>
          (payloads instruction).map (arrival chip link receiver)

theorem finish_mem (chip : Fin chips) : finish chip ∈ list mesh exchange :=
  List.mem_flatMap.mpr ⟨chip, List.mem_finRange chip, List.mem_cons_self⟩

theorem step_mem (member : instruction ∈ mesh.program exchange link) :
    step chip link instruction ∈ list mesh exchange :=
  List.mem_flatMap.mpr ⟨chip, List.mem_finRange chip, List.mem_cons_of_mem _
    (List.mem_flatMap.mpr ⟨link, List.mem_finRange link, List.mem_flatMap.mpr
      ⟨instruction, member, List.mem_cons_self⟩⟩)⟩

theorem arrival_mem {direction : Direction} {payload : Payload}
    (member : .send direction payload ∈ mesh.program exchange link) :
    arrival sender link chip payload ∈ list mesh exchange := by
  refine List.mem_flatMap.mpr ⟨sender, List.mem_finRange sender, List.mem_cons_of_mem _
    (List.mem_flatMap.mpr ⟨link, List.mem_finRange link, List.mem_flatMap.mpr
      ⟨_, member, List.mem_cons_of_mem _ (List.mem_flatMap.mpr ⟨chip, List.mem_finRange chip, ?_⟩)⟩⟩)⟩
  simp [payloads]

variable {task : Task chips links}

theorem done_next (effect : Effect mesh state action next) (done : task.Done mesh exchange state) :
    task.Done mesh exchange next := by
  cases task with
  | step chip link instruction => exact effect.executed_next done
  | arrival sender link chip payload => exact effect.delivered _ _ _ done
  | finish chip => exact lt_of_lt_of_le done (effect.completed_le chip)

theorem enabled (urged : task.Urged mesh exchange state) :
    Enabled mesh.step state task.toAction := by
  cases task with
  | step chip link instruction =>
    obtain ⟨_, ⟨rest, has⟩, full⟩ := urged
    change (mesh.advance state chip link).isSome
    cases instruction with
    | send => simp [Mesh.advance, has]
    | waitMin => simp [Mesh.advance, has, full rfl]
    | set => simp [Mesh.advance, has]
  | arrival sender link chip payload =>
    obtain ⟨rest, has⟩ := urged
    change (Mesh.deliver state sender link chip).isSome
    cases payload <;> simp [Mesh.deliver, has]
  | finish chip =>
    obtain ⟨⟨running, same⟩, finished, received⟩ := urged
    subst same
    change (if _ then some _ else none).isSome
    rw [if_pos ⟨running, finished, received⟩]
    rfl

/-- Only its action takes a task away. -/
theorem urged_next (effect : Effect mesh state action next) (different : action ≠ task.toAction)
    (urged : task.Urged mesh exchange state) : task.Urged mesh exchange next := by
  cases task with
  | step chip link instruction =>
    obtain ⟨running, ⟨rest, has⟩, full⟩ := urged
    have notFinish : action ≠ .finishExchange chip := by
      intro finishes
      rw [(effect.finishes chip finishes).2 link] at has
      cases has
    refine ⟨effect.running_next running notFinish, ⟨rest, ?_⟩, fun isWait =>
      le_trans (full isWait) (effect.count chip link different)⟩
    rw [effect.pending chip link (effect.not_starts running) different, has]
  | arrival sender link chip payload =>
    obtain ⟨rest, has⟩ := urged
    obtain ⟨more, channel⟩ := effect.channel sender link chip different
    exact ⟨rest ++ more, by rw [channel, has, List.cons_append]⟩
  | finish chip =>
    obtain ⟨running, finished, received⟩ := urged
    refine ⟨effect.running_next running different, fun link => ?_, effect.received_next received⟩
    have subset := effect.remains chip link (effect.not_starts running)
    rw [finished link] at subset
    exact List.eq_nil_of_subset_nil subset

theorem done_of_action (consistent : Consistent mesh state)
    (urged : task.Urged mesh exchange state) (taken : mesh.step state task.toAction = some next) :
    task.Done mesh exchange next := by
  cases task with
  | step chip link instruction =>
    obtain ⟨running, ⟨rest, has⟩, _⟩ := urged
    obtain ⟨instruction', rest', has', moved, _⟩ := moved_of_advance taken
    rw [has'] at has
    cases has
    exact (moved.executed_iff consistent.toScheduled has' _ _ _ _).mpr
      (.inr ⟨⟨rfl, rfl⟩, running.2.symm, rfl⟩)
  | arrival sender link chip payload =>
    obtain ⟨rest, has⟩ := urged
    obtain ⟨message, rest', has', delivered, _⟩ := effect_of_deliver mesh taken
    rw [has'] at has
    cases has
    exact delivered
  | finish chip =>
    have effect := effect_of_step taken
    change exchange < next.completed chip
    rw [effect.completed, ← urged.1.2]
    simp [toAction]

end Task

namespace Consistent

variable (consistent : Consistent mesh state)

include consistent

/-- A message of an exchange on its way to a chip that has started it: some message of the exchange
is the next one to arrive there. -/
theorem urged_of_channel (started : state.Started chip exchange) {payload : Payload}
    (member : (⟨exchange, payload⟩ : Message) ∈ state.channel sender link chip) :
    ∃ task ∈ Task.list mesh exchange, ¬task.Done mesh exchange state ∧
      task.Urged mesh exchange state := by
  obtain ⟨first, behind, has⟩ := List.exists_cons_of_ne_nil (List.ne_nil_of_mem member)
  have isFirst : first ∈ state.channel sender link chip := has ▸ List.mem_cons_self
  have before : first.exchange ≤ exchange := by
    have ordered := consistent.ordered sender link chip
    rw [has] at ordered member
    rcases List.mem_cons.mp member with same | later
    · exact le_of_eq (congrArg Message.exchange same).symm
    · exact (List.pairwise_cons.mp ordered).1 _ later
  have reached : exchange ≤ state.completed chip :=
    started.elim le_of_lt fun running => running.2.ge
  have same : first.exchange = exchange := by
    rcases Nat.lt_or_ge first.exchange exchange with less | more
    · exact (consistent.past_of_channel isFirst (lt_of_lt_of_le less reached)).elim
    · exact le_antisymm before more
  obtain ⟨number, payload'⟩ := first
  cases same
  obtain ⟨direction, _, executed⟩ :=
    (consistent.sent _ _ _ _).mp (List.mem_append_right _ isFirst)
  refine ⟨.arrival sender link chip payload', Task.arrival_mem executed.1, fun already => ?_,
    behind, has⟩
  exact (List.nodup_append.mp (consistent.once sender link chip)).2.2 _ already _ isFirst rfl

/-- A chip that every peer has told of an exchange counts all of them. -/
theorem exists_missing (waits : ¬state.Executed mesh chip link exchange .set)
    (short : state.count chip link < mesh.targetCount chip) :
    ∃ peer ≠ chip, (⟨exchange, .ready⟩ : Message) ∉ state.delivered peer link chip := by
  by_contra! none
  have subperm : (mesh.routes.targets chip .forward ++ mesh.routes.targets chip .backward).Subperm
      ((state.arrivals chip link).map Prod.fst) := by
    refine List.Nodup.subperm (mesh.routes.once chip) fun peer member => ?_
    have different := (mesh.routes.others chip peer).mp member
    exact List.mem_map.mpr ⟨(peer, exchange), (consistent.arrived chip link _).mpr
      ⟨none peer different, waits⟩, rfl⟩
  have bound := subperm.length_le
  rw [length_peers, List.length_map, ← consistent.counted chip link] at bound
  omega

/-- Where an exchange has started and not finished, something of it can happen. -/
theorem exists_urged (started : ∀ chip, state.Started chip exchange)
    (unfinished : ¬∀ chip, exchange < state.completed chip) :
    ∃ task ∈ Task.list mesh exchange, ¬task.Done mesh exchange state ∧
      task.Urged mesh exchange state := by
  by_cases canStep : ∃ chip link instruction rest, state.Running chip exchange ∧
      state.pending chip link = instruction :: rest ∧
        (instruction = .waitMin → mesh.targetCount chip ≤ state.count chip link)
  · obtain ⟨chip, link, instruction, rest, running, has, full⟩ := canStep
    have isPending : instruction ∈ state.pending chip link := has ▸ List.mem_cons_self
    have same := running.2
    subst same
    exact ⟨.step chip link instruction, Task.step_mem (consistent.mem_program isPending),
      state.not_executed isPending, running, ⟨rest, has⟩, full⟩
  -- A writer with something to do waits for its count.
  have blocked : ∀ chip link instruction rest, state.Running chip exchange →
      state.pending chip link = instruction :: rest →
        instruction = .waitMin ∧ state.count chip link < mesh.targetCount chip := by
    intro chip link instruction rest running has
    by_contra fine
    refine canStep ⟨chip, link, instruction, rest, running, has, fun isWait => ?_⟩
    by_contra less
    exact fine ⟨isWait, not_le.mp less⟩
  by_cases waiting : ∃ chip link rest, state.Running chip exchange ∧
      state.pending chip link = .waitMin :: rest
  · -- The increment that it waits for is on its way.
    obtain ⟨chip, link, rest, running, has⟩ := waiting
    have isPending : .waitMin ∈ state.pending chip link := has ▸ List.mem_cons_self
    have short := (blocked chip link _ rest running has).2
    have same := running.2
    subst same
    have tiles := tiles_of_mem (consistent.mem_program isPending)
    obtain ⟨peer, different, missing⟩ := consistent.exists_missing
      (fun cleared => state.not_executed isPending (consistent.waitMin_of_set cleared)) short
    have told : ∀ direction, state.Executed mesh peer link (state.completed chip)
        (.send direction .ready) := by
      intro direction
      have inProgram : .send direction .ready ∈ mesh.program (state.completed chip) link :=
        mem_program_of_tiles tiles (by cases direction <;> decide)
      rcases started peer with past | peerRunning
      · exact ⟨inProgram, .inl past⟩
      · cases pending : state.pending peer link with
        | nil => exact ⟨inProgram, .inr ⟨peerRunning, by simp [pending]⟩⟩
        | cons instruction later =>
          have isWait := (blocked peer link instruction later peerRunning pending).1
          subst isWait
          have split : mesh.program (state.completed chip) link =
              [.send .forward .ready, .send .backward .ready] ++ (.waitMin :: .set ::
                sendPackets (mesh.args (state.completed chip) link).packets) :=
            program_of_tiles tiles
          rw [← peerRunning.2] at split ⊢
          exact consistent.earlier_of_head split (by cases direction <;> decide)
            List.mem_cons_self pending
    have sent := consistent.mem_of_executed (Ne.symm different) told
    exact consistent.urged_of_channel (started chip)
      ((List.mem_append.mp sent).resolve_left missing)
  · -- No writer has anything to do: what a chip waits for is on its way.
    have finished : ∀ chip link, state.Running chip exchange → state.pending chip link = [] := by
      intro chip link running
      cases pending : state.pending chip link with
      | nil => rfl
      | cons instruction rest =>
        have isWait := (blocked chip link instruction rest running pending).1
        subst isWait
        exact absurd ⟨chip, link, rest, running, pending⟩ waiting
    obtain ⟨chip, notPast⟩ := not_forall.mp unfinished
    have running := (started chip).resolve_left notPast
    by_cases received : mesh.Received state chip exchange
    · exact ⟨.finish chip, Task.finish_mem chip, notPast, running,
        fun link => finished chip link running, received⟩
    · unfold Mesh.Received at received
      push Not at received
      obtain ⟨peer, different, link, tiles, packet, isPacket, missing⟩ := received
      have executed : ∀ direction, state.Executed mesh peer link exchange
          (.send direction (.data packet)) := fun direction =>
        ⟨mem_program_data.mpr ⟨tiles, isPacket⟩, (started peer).imp_right fun peerRunning =>
          ⟨peerRunning, by simp [finished peer link peerRunning]⟩⟩
      have sent := consistent.mem_of_executed different.symm executed
      exact consistent.urged_of_channel (started chip)
        ((List.mem_append.mp sent).resolve_left missing)

end Consistent

/-- What a run of an exchange goes through until every chip has finished it. -/
theorem exchange_progress (mesh : Mesh chips links) (exchange : Nat) :
    Progress mesh.step
      (fun state => Consistent mesh state ∧ ∀ chip, state.Started chip exchange)
      (fun state => ∀ chip, exchange < state.completed chip) (Task.list mesh exchange).toFinset
      Task.toAction (fun state task => task.Done mesh exchange state)
      fun state task => task.Urged mesh exchange state where
  kept _ _ _ holds taken := ⟨holds.1.of_step taken, fun chip =>
    (effect_of_step taken).started_next (holds.2 chip)⟩
  lasting _ _ _ _ taken _ := Task.done_next (effect_of_step taken)
  possible _ _ _ urged := Task.enabled urged
  persists _ _ _ _ _ urged different taken :=
    Task.urged_next (effect_of_step taken) different urged
  completes _ _ _ holds urged taken := Task.done_of_action holds.1 urged taken
  urges _ holds unfinished := by
    obtain ⟨task, member, undone, urged⟩ := holds.1.exists_urged holds.2 unfinished
    exact ⟨task, List.mem_toFinset.mpr member, undone, urged⟩

/-- What the handshake keeps: tiles are sent, and arrive, only while the chip they go to runs the
same exchange; a count is cleared when it has the increment of each peer for the exchange that its
chip runs, and no other; and before an exchange starts the counts have increments for it only. -/
structure Safe (mesh : Mesh chips links) (state : State chips links) : Prop where
  sends : ∀ sender link direction packet rest,
    state.pending sender link = .send direction (.data packet) :: rest →
      ∀ chip ∈ mesh.routes.targets sender direction, state.Running chip (state.completed sender)
  arrives : ∀ sender link chip, ∀ message ∈ state.channel sender link chip,
    ∀ packet, message.payload = .data packet → state.Running chip message.exchange
  clears : ∀ chip link rest, state.pending chip link = .set :: rest →
    state.count chip link = mesh.targetCount chip ∧ ∀ arrival,
      arrival ∈ state.arrivals chip link ↔ arrival.1 ≠ chip ∧ arrival.2 = state.completed chip
  starts : ∀ chip, state.activity chip ≠ .exchange →
    (∃ link, (mesh.args (state.completed chip) link).numTilesToRead ≠ 0) → ∀ link,
      state.count chip link = (state.arrivals chip link).length ∧
        (state.arrivals chip link).Nodup ∧ ∀ arrival ∈ state.arrivals chip link,
          arrival.1 ≠ chip ∧ arrival.2 = state.completed chip

theorem Consistent.safe (consistent : Consistent mesh state) : Safe mesh state where
  sends _ _ _ _ _ has _ target := consistent.running_of_send has target
  arrives _ _ _ _ member _ isData := consistent.running_of_channel member isData
  clears _ _ _ has := consistent.arrivals_of_set has
  starts chip idle tiles link := by
    obtain ⟨other, tiles⟩ := tiles
    exact ⟨consistent.counted chip link, consistent.distinct chip link, fun _ member =>
      consistent.arrivals_before_start idle tiles member⟩

/-- The actions that an exchange waits for: the steps of the writers, the fabric's deliveries and
the end of a program whose kernels have ended. -/
def Action.Served : Action chips links → Prop
  | .advance _ _ | .deliver _ _ _ | .finishExchange _ => True
  | .startOther _ | .finishOther _ | .startExchange _ => False

theorem Task.served (task : Task chips links) : task.toAction.Served := by
  cases task <;> exact trivial

/-- The handshake of direct all-reduce, whatever the routes, the links with tiles in each exchange
and the programs in between: every state that the mesh can reach is safe, and in every run that is
fair to the writers and the fabric an exchange that all chips have started is finished by all. -/
theorem direct_all_reduce_handshake (mesh : Mesh chips links) :
    (∀ state, mesh.Reachable state → Safe mesh state) ∧
    ∀ (run : Run mesh.step) (exchange time : Nat), mesh.Reachable (run.state 0) →
      (∀ action : Action chips links, action.Served → run.Fair action) →
      (∀ chip, (run.state time).Started chip exchange) →
      ∃ later ≥ time, ∀ chip, exchange < (run.state later).completed chip := by
  refine ⟨fun state reachable => reachable.consistent.safe,
    fun run exchange time reachable fair started => ?_⟩
  have consistent : Consistent mesh (run.state time) :=
    Run.holds_from (consistent_kept mesh) (Nat.zero_le time) reachable.consistent
  exact (exchange_progress mesh exchange).eventually
    (fun task _ => fair task.toAction task.served) ⟨consistent, started⟩

/-- Two chips on a line, one link, one tile in each exchange. -/
def pairMesh : Mesh 2 1 where
  routes := .line 2
  args _ _ := ⟨1, 1, 0, 1, 2048, 2048, by decide, by decide⟩

/-- The second chip starts late, after another program; then both go through an exchange. -/
def pairSchedule : List (Action 2 1) :=
  [.startExchange 0, .startOther 1, .advance 0 0, .advance 0 0, .deliver 0 0 1, .finishOther 1,
    .startExchange 1, .advance 1 0, .advance 1 0, .deliver 1 0 0, .advance 0 0, .advance 0 0,
    .advance 0 0, .advance 0 0, .deliver 0 0 1, .advance 1 0, .advance 1 0, .advance 1 0,
    .advance 1 0, .deliver 1 0 0, .finishExchange 0, .finishExchange 1]

theorem pairSchedule_plays : Run.Plays pairMesh.step (State.initial 2 1) pairSchedule := by
  decide

theorem direct_all_reduce_handshake_pair :
    Safe pairMesh (Run.after pairMesh.step (State.initial 2 1) (pairSchedule.take 5)) ∧
      ∃ later ≥ 7, ∀ chip, 0 < ((Run.scheduled (State.initial 2 1) pairSchedule
        pairSchedule_plays).state later).completed chip := by
  refine ⟨(direct_all_reduce_handshake pairMesh).1 _ ?_,
    (direct_all_reduce_handshake pairMesh).2 _ 0 7 .here (fun action served => ?_) ?_⟩
  · exact (Run.scheduled (State.initial 2 1) pairSchedule pairSchedule_plays).reaches
      (Nat.zero_le 5)
  · refine Run.scheduled_fair pairSchedule_plays ?_
    cases action with
    | advance chip link => clear served; revert chip link; decide
    | deliver sender link chip => clear served; revert sender link chip; decide
    | finishExchange chip => clear served; revert chip; decide
    | startOther | finishOther | startExchange => exact served.elim
  · intro chip
    refine .inr ⟨?_, ?_⟩ <;> revert chip <;> decide

end Libtt.AllReduce

import Libtt.AllReduce.Handshake

/-!
# The handshake is safe and never waits forever

A count holds one increment for each peer that runs the exchange its writer is about to clear it
for.
-/
namespace Libtt.AllReduce

open Libtt.Foundation
open WriterArgs (Packet)

variable {chips links : Nat} {mesh : Mesh chips links} {state next : State chips links}
  {chip peer sender : Fin chips} {link : Fin links} {exchange : Nat}
  {instruction : Instruction} {rest : List Instruction}

theorem mem_sendPackets {packets : List Packet} :
    instruction ∈ sendPackets packets ↔
      ∃ direction, ∃ packet ∈ packets, instruction = .send direction (.data packet) := by
  simp only [sendPackets, List.mem_flatMap, List.mem_cons, List.not_mem_nil, or_false]
  constructor
  · rintro ⟨packet, member, rfl | rfl⟩
    · exact ⟨.forward, packet, member, rfl⟩
    · exact ⟨.backward, packet, member, rfl⟩
  · rintro ⟨direction, packet, member, rfl⟩
    cases direction
    · exact ⟨packet, member, .inl rfl⟩
    · exact ⟨packet, member, .inr rfl⟩

theorem sendPackets_nodup {packets : List Packet} (nodup : packets.Nodup) :
    (sendPackets packets).Nodup := by
  refine List.nodup_flatMap.mpr ⟨fun packet _ => by simp, nodup.imp fun different => ?_⟩
  intro shared first second
  simp only [List.mem_cons, List.not_mem_nil, or_false] at first second
  rcases first with rfl | rfl <;> simp_all

theorem program_nodup (mesh : Mesh chips links) (exchange : Nat) (link : Fin links) :
    (mesh.program exchange link).Nodup := by
  rw [Mesh.program, writer]
  split
  case isFalse => exact .nil
  case isTrue =>
    refine List.nodup_append.mpr ⟨by decide, sendPackets_nodup (WriterArgs.packets_nodup _), ?_⟩
    rintro first isFirst second isSecond rfl
    obtain ⟨direction, packet, _, rfl⟩ := mem_sendPackets.mp isSecond
    simp [waitForPeers] at isFirst

/-- A writer with a step to take has tiles. -/
theorem tiles_of_mem (member : instruction ∈ mesh.program exchange link) :
    (mesh.args exchange link).numTilesToRead ≠ 0 := by
  intro none
  rw [Mesh.program, writer, if_neg (by simpa using none)] at member
  cases member

theorem program_of_tiles (tiles : (mesh.args exchange link).numTilesToRead ≠ 0) :
    mesh.program exchange link =
      waitForPeers ++ sendPackets (mesh.args exchange link).packets := if_pos tiles

theorem mem_program_of_tiles (tiles : (mesh.args exchange link).numTilesToRead ≠ 0)
    (member : instruction ∈ waitForPeers) : instruction ∈ mesh.program exchange link := by
  rw [program_of_tiles tiles]
  exact List.mem_append_left _ member

theorem mem_program_data {direction : Direction} {packet : Packet} :
    .send direction (.data packet) ∈ mesh.program exchange link ↔
      (mesh.args exchange link).numTilesToRead ≠ 0 ∧
        packet ∈ (mesh.args exchange link).packets := by
  constructor
  · intro member
    have tiles := tiles_of_mem member
    rw [program_of_tiles tiles, List.mem_append] at member
    rcases member with early | late
    · simp [waitForPeers] at early
    · obtain ⟨_, other, isOther, same⟩ := mem_sendPackets.mp late
      cases same
      exact ⟨tiles, isOther⟩
  · rintro ⟨tiles, member⟩
    rw [program_of_tiles tiles]
    exact List.mem_append_right _ (mem_sendPackets.mpr ⟨direction, packet, member, rfl⟩)

/-- What comes after a step of a suffix is in the suffix. -/
theorem mem_suffix {α : Type} {before after suffix : List α} {early late : α}
    (isSuffix : suffix <:+ before ++ after) (nodup : (before ++ after).Nodup)
    (isEarly : early ∈ before) (pending : early ∈ suffix) (isLate : late ∈ after) :
    late ∈ suffix := by
  rcases List.suffix_or_suffix_of_suffix isSuffix (List.suffix_append before after) with
    inside | contains
  · exact absurd rfl ((List.nodup_append.mp nodup).2.2 early isEarly early (inside.subset pending))
  · exact contains.subset isLate

/-- The writer of the link has taken the step of the exchange. -/
def State.Executed (mesh : Mesh chips links) (state : State chips links) (chip : Fin chips)
    (link : Fin links) (exchange : Nat) (instruction : Instruction) : Prop :=
  instruction ∈ mesh.program exchange link ∧ (exchange < state.completed chip ∨
    state.Running chip exchange ∧ instruction ∉ state.pending chip link)

theorem State.Executed.started (executed : state.Executed mesh chip link exchange instruction) :
    state.Started chip exchange :=
  executed.2.imp_right And.left

/-- A step of the current exchange that is still to come has not been taken. -/
theorem State.not_executed (member : instruction ∈ state.pending chip link) :
    ¬state.Executed mesh chip link (state.completed chip) instruction := fun executed =>
  executed.2.elim (lt_irrefl _) fun late => late.2 member

/-- What the writers still have to do is the end of their programs. -/
structure Scheduled (mesh : Mesh chips links) (state : State chips links) : Prop where
  suffix : ∀ chip link, state.activity chip = .exchange →
    state.pending chip link <:+ mesh.program (state.completed chip) link
  quiet : ∀ chip link, state.activity chip ≠ .exchange → state.pending chip link = []

namespace Scheduled

variable (scheduled : Scheduled mesh state)

include scheduled

/-- A writer with something to do runs an exchange. -/
theorem running (has : state.pending chip link = instruction :: rest) :
    state.Running chip (state.completed chip) := by
  refine ⟨?_, rfl⟩
  by_contra idle
  rw [scheduled.quiet chip link idle] at has
  cases has

theorem mem_program (member : instruction ∈ state.pending chip link) :
    instruction ∈ mesh.program (state.completed chip) link := by
  obtain ⟨head, tail, has⟩ := List.exists_cons_of_ne_nil (List.ne_nil_of_mem member)
  exact (scheduled.suffix chip link (scheduled.running has).1).subset member

theorem head_not_mem (has : state.pending chip link = instruction :: rest) :
    instruction ∉ rest := by
  have suffix := scheduled.suffix chip link (scheduled.running has).1
  rw [has] at suffix
  exact (List.nodup_cons.mp ((program_nodup mesh _ link).sublist suffix.sublist)).1

/-- Steps are taken in the order of the program. -/
theorem earlier {before after : List Instruction} {early late : Instruction}
    (split : mesh.program exchange link = before ++ after) (isEarly : early ∈ before)
    (isLate : late ∈ after) (executed : state.Executed mesh chip link exchange late) :
    state.Executed mesh chip link exchange early := by
  refine ⟨by rw [split]; exact List.mem_append_left _ isEarly, executed.2.imp_right ?_⟩
  rintro ⟨running, notPending⟩
  refine ⟨running, fun pending => notPending ?_⟩
  have suffix := scheduled.suffix chip link running.1
  rw [running.2, split] at suffix
  exact mem_suffix suffix (split ▸ program_nodup mesh exchange link) isEarly pending isLate

/-- Before the step that a writer is about to take come the steps it has taken. -/
theorem earlier_of_head {before after : List Instruction} {early : Instruction}
    (split : mesh.program (state.completed chip) link = before ++ after)
    (isEarly : early ∈ before) (isLate : instruction ∈ after)
    (has : state.pending chip link = instruction :: rest) :
    state.Executed mesh chip link (state.completed chip) early := by
  have nodup := split ▸ program_nodup mesh (state.completed chip) link
  have running := scheduled.running has
  refine ⟨by rw [split]; exact List.mem_append_left _ isEarly, .inr ⟨running, fun pending => ?_⟩⟩
  rw [has, List.mem_cons] at pending
  rcases pending with rfl | later
  · exact (List.nodup_append.mp nodup).2.2 _ isEarly _ isLate rfl
  · have suffix := scheduled.suffix chip link running.1
    rw [has, split] at suffix
    exact scheduled.head_not_mem has
      (mem_suffix ((List.suffix_cons _ _).trans suffix) nodup isEarly later isLate)

/-- The count is cleared after the wait. -/
theorem waitMin_of_set (executed : state.Executed mesh chip link exchange .set) :
    state.Executed mesh chip link exchange .waitMin := by
  have split : mesh.program exchange link =
      [.send .forward .ready, .send .backward .ready, .waitMin] ++
        (.set :: sendPackets (mesh.args exchange link).packets) :=
    program_of_tiles (tiles_of_mem executed.1)
  exact scheduled.earlier split (by decide) List.mem_cons_self executed

/-- Tiles are sent after the count is cleared. -/
theorem set_of_data {direction : Direction} {packet : Packet}
    (executed : state.Executed mesh chip link exchange (.send direction (.data packet))) :
    state.Executed mesh chip link exchange .set := by
  have member := mem_program_data.mp executed.1
  exact scheduled.earlier (program_of_tiles member.1) (by decide)
    (mem_sendPackets.mpr ⟨direction, packet, member.2, rfl⟩) executed

end Scheduled

/-- The peers of a chip. -/
theorem length_peers (mesh : Mesh chips links) (chip : Fin chips) :
    (mesh.routes.targets chip .forward ++ mesh.routes.targets chip .backward).length =
      mesh.targetCount chip := List.length_append

/-- Every message sent is on its way or was delivered, once, and in the order of the exchanges; a
count has the increments delivered since the chip cleared it; a writer past its wait, and a chip
past its exchange, have what they waited for. -/
structure Consistent (mesh : Mesh chips links) (state : State chips links) : Prop
    extends Scheduled mesh state where
  sent : ∀ sender link chip message,
    message ∈ state.delivered sender link chip ++ state.channel sender link chip ↔
      ∃ direction, chip ∈ mesh.routes.targets sender direction ∧
        state.Executed mesh sender link message.exchange (.send direction message.payload)
  once : ∀ sender link chip,
    (state.delivered sender link chip ++ state.channel sender link chip).Nodup
  ordered : ∀ sender link chip, (state.channel sender link chip).Pairwise
    fun first second => first.exchange ≤ second.exchange
  arrived : ∀ chip link arrival, arrival ∈ state.arrivals chip link ↔
    (⟨arrival.2, .ready⟩ : Message) ∈ state.delivered arrival.1 link chip ∧
      ¬state.Executed mesh chip link arrival.2 .set
  distinct : ∀ chip link, (state.arrivals chip link).Nodup
  counted : ∀ chip link, state.count chip link = (state.arrivals chip link).length
  waited : ∀ chip link exchange, state.Executed mesh chip link exchange .waitMin →
    ∀ peer ≠ chip, (⟨exchange, .ready⟩ : Message) ∈ state.delivered peer link chip
  received : ∀ chip, ∀ exchange < state.completed chip, mesh.Received state chip exchange

theorem consistent_initial (mesh : Mesh chips links) :
    Consistent mesh (State.initial chips links) where
  suffix _ _ running := nomatch running
  quiet _ _ _ := rfl
  sent _ _ _ _ := ⟨nofun, fun ⟨_, _, executed⟩ =>
    executed.2.elim (fun less => absurd less (Nat.not_lt_zero _)) fun late => nomatch late.1.1⟩
  once _ _ _ := .nil
  ordered _ _ _ := .nil
  arrived _ _ _ := ⟨nofun, fun both => nomatch both.1⟩
  distinct _ _ := .nil
  counted _ _ := rfl
  waited _ _ _ executed :=
    executed.2.elim (fun less => absurd less (Nat.not_lt_zero _)) fun late => nomatch late.1.1
  received _ _ less := absurd less (Nat.not_lt_zero _)

namespace Consistent

variable (consistent : Consistent mesh state)

include consistent

/-- A message that was delivered, or is on its way, was sent by a peer. -/
theorem ne_of_sent {message : Message}
    (member : message ∈ state.delivered sender link chip ++ state.channel sender link chip) :
    chip ≠ sender := by
  obtain ⟨direction, target, _⟩ := (consistent.sent sender link chip message).mp member
  refine (mesh.routes.others sender chip).mp (List.mem_append.mpr ?_)
  cases direction
  · exact .inl target
  · exact .inr target

/-- Which peers get what a writer sends both ways. -/
theorem mem_of_executed {payload : Payload} (different : chip ≠ sender)
    (executed : ∀ direction, state.Executed mesh sender link exchange (.send direction payload)) :
    (⟨exchange, payload⟩ : Message) ∈
      state.delivered sender link chip ++ state.channel sender link chip := by
  refine (consistent.sent sender link chip _).mpr ?_
  rcases List.mem_append.mp ((mesh.routes.others sender chip).mpr different) with ahead | behind
  · exact ⟨.forward, ahead, executed .forward⟩
  · exact ⟨.backward, behind, executed .backward⟩

/-- The sender of a delivered payload has taken the step that sends it. -/
theorem executed_of_delivered {message : Message}
    (member : message ∈ state.delivered sender link chip) :
    ∃ direction, state.Executed mesh sender link message.exchange
      (.send direction message.payload) := by
  obtain ⟨direction, _, executed⟩ :=
    (consistent.sent sender link chip message).mp (List.mem_append_left _ member)
  exact ⟨direction, executed⟩

/-- A peer past an exchange has this chip's tiles, which were sent after its counts were cleared. -/
theorem set_of_peer_past (tiles : (mesh.args exchange link).numTilesToRead ≠ 0)
    (different : peer ≠ chip) (past : exchange < state.completed peer) :
    state.Executed mesh chip link exchange .set := by
  obtain ⟨packet, member⟩ := List.exists_mem_of_ne_nil _ (WriterArgs.packets_ne_nil _ tiles)
  have delivered := consistent.received peer exchange past chip (Ne.symm different) link tiles
    packet member
  obtain ⟨direction, executed⟩ := consistent.executed_of_delivered delivered
  exact consistent.set_of_data executed

/-- The increments in a count that its writer has not cleared are for the current exchange, when a
writer of the chip has not cleared its count for that. -/
theorem arrival_exchange {other : Fin links}
    (tiles : (mesh.args (state.completed chip) other).numTilesToRead ≠ 0)
    (waits : ¬state.Executed mesh chip other (state.completed chip) .set)
    {arrival : Fin chips × Nat} (member : arrival ∈ state.arrivals chip link) :
    arrival.2 = state.completed chip := by
  obtain ⟨delivered, uncleared⟩ := (consistent.arrived chip link arrival).mp member
  obtain ⟨direction, executed⟩ := consistent.executed_of_delivered delivered
  have different := consistent.ne_of_sent (List.mem_append_left _ delivered)
  rcases Nat.lt_trichotomy arrival.2 (state.completed chip) with earlier | same | later
  · exact absurd ⟨mem_program_of_tiles (tiles_of_mem executed.1) (by decide), .inl earlier⟩
      uncleared
  · exact same
  · have past : state.completed chip < state.completed arrival.1 := by
      rcases executed.started with less | running
      · exact lt_trans later less
      · rw [running.2]
        exact later
    exact absurd (consistent.set_of_peer_past tiles different.symm past) waits

section

variable (waits : ¬state.Executed mesh chip link (state.completed chip) .set)
  (tiles : (mesh.args (state.completed chip) link).numTilesToRead ≠ 0)
include waits tiles

/-- The peers whose increments a count has. -/
theorem arrivals_subperm :
    ((state.arrivals chip link).map Prod.fst).Subperm
      (mesh.routes.targets chip .forward ++ mesh.routes.targets chip .backward) := by
  have exchanges : ∀ arrival ∈ state.arrivals chip link, _ := fun _ member =>
    consistent.arrival_exchange tiles waits member
  refine List.Nodup.subperm ?_ fun peer member => ?_
  · refine List.Nodup.map_on (fun first isFirst second isSecond same => ?_)
      (consistent.distinct chip link)
    exact Prod.ext same ((exchanges first isFirst).trans (exchanges second isSecond).symm)
  · obtain ⟨arrival, isArrival, rfl⟩ := List.mem_map.mp member
    have delivered := ((consistent.arrived chip link arrival).mp isArrival).1
    exact (mesh.routes.others chip arrival.1).mpr
      (consistent.ne_of_sent (List.mem_append_left _ delivered)).symm

/-- No count exceeds the number of peers while its writer waits. -/
theorem count_le :
    state.count chip link ≤ mesh.targetCount chip := by
  have bound := (consistent.arrivals_subperm waits tiles).length_le
  rwa [List.length_map, ← consistent.counted chip link, length_peers] at bound

/-- When a count is full, every peer has sent its increment for the current exchange. -/
theorem arrivals_of_count (full : mesh.targetCount chip ≤ state.count chip link)
    (different : peer ≠ chip) :
    (peer, state.completed chip) ∈ state.arrivals chip link := by
  have subperm := consistent.arrivals_subperm waits tiles
  have perm := subperm.perm_of_length_le (by
    rw [List.length_map, ← consistent.counted chip link, length_peers]
    exact full)
  have member := perm.mem_iff.mpr ((mesh.routes.others chip peer).mpr different)
  obtain ⟨arrival, isArrival, rfl⟩ := List.mem_map.mp member
  have same := consistent.arrival_exchange tiles waits isArrival
  rwa [← same]

end

/-- What only starts or finishes programs moves no message and takes no step of a writer. -/
theorem of_same (scheduled : Scheduled mesh next)
    (executed : ∀ chip link exchange instruction,
      next.Executed mesh chip link exchange instruction ↔
        state.Executed mesh chip link exchange instruction)
    (channel : next.channel = state.channel) (delivered : next.delivered = state.delivered)
    (count : next.count = state.count) (arrivals : next.arrivals = state.arrivals)
    (received : ∀ chip, ∀ exchange < next.completed chip, mesh.Received next chip exchange) :
    Consistent mesh next where
  toScheduled := scheduled
  sent sender link chip message := by
    simp only [channel, delivered, executed]
    exact consistent.sent sender link chip message
  once sender link chip := by
    rw [channel, delivered]
    exact consistent.once sender link chip
  ordered sender link chip := by
    rw [channel]
    exact consistent.ordered sender link chip
  arrived chip link arrival := by
    rw [arrivals, delivered, executed]
    exact consistent.arrived chip link arrival
  distinct chip link := by
    rw [arrivals]
    exact consistent.distinct chip link
  counted chip link := by
    rw [count, arrivals]
    exact consistent.counted chip link
  waited chip link exchange isExecuted := by
    rw [delivered]
    exact consistent.waited chip link exchange ((executed _ _ _ _).mp isExecuted)
  received := received

/-- A chip that runs no exchange starts or finishes another program. -/
theorem of_activity {activity : Activity} (before : state.activity chip ≠ .exchange)
    (after : activity ≠ .exchange) :
    Consistent mesh { state with activity := Function.update state.activity chip activity } := by
  have same : ∀ other, Function.update state.activity chip activity other = .exchange ↔
      state.activity other = .exchange := by
    intro other
    by_cases equal : other = chip
    · subst equal
      simp [before, after]
    · rw [Function.update_of_ne equal]
  refine consistent.of_same ⟨fun other link running => ?_, fun other link idle => ?_⟩
    (fun other link exchange instruction => ?_) rfl rfl rfl rfl consistent.received
  · exact consistent.suffix other link ((same other).mp running)
  · exact consistent.quiet other link fun running => idle ((same other).mpr running)
  · simp only [State.Executed, State.Running, same]

theorem of_start (idle : state.activity chip = .idle) :
    Consistent mesh { state with
      activity := Function.update state.activity chip .exchange
      pending := Function.update state.pending chip (mesh.program (state.completed chip)) } := by
  refine consistent.of_same ⟨fun other link running => ?_, fun other link notRunning => ?_⟩
    (fun other link exchange instruction => ?_) rfl rfl rfl rfl consistent.received <;>
    by_cases equal : other = chip
  · subst equal
    simp only [Function.update_self]
    exact List.suffix_refl _
  · simp only [Function.update_of_ne equal] at running ⊢
    exact consistent.suffix other link running
  · subst equal
    simp at notRunning
  · simp only [Function.update_of_ne equal] at notRunning ⊢
    exact consistent.quiet other link notRunning
  · -- No step of the new exchange has been taken: all of them are to come.
    subst equal
    simp only [State.Executed, State.Running, Function.update_self, idle]
    constructor
    · rintro ⟨member, less | ⟨⟨_, rfl⟩, absent⟩⟩
      · exact ⟨member, .inl less⟩
      · exact absurd member absent
    · rintro ⟨member, less | ⟨⟨running, _⟩, _⟩⟩
      · exact ⟨member, .inl less⟩
      · cases running
  · simp only [State.Executed, State.Running, Function.update_of_ne equal]

theorem of_finish (running : state.activity chip = .exchange)
    (finished : ∀ link, state.pending chip link = [])
    (received : mesh.Received state chip (state.completed chip)) :
    Consistent mesh { state with
      activity := Function.update state.activity chip .idle
      completed := Function.update state.completed chip (state.completed chip + 1) } := by
  refine consistent.of_same ⟨fun other link isRunning => ?_, fun other link notRunning => ?_⟩
    (fun other link exchange instruction => ?_) rfl rfl rfl rfl (fun other exchange less => ?_) <;>
    by_cases equal : other = chip
  · subst equal
    simp at isRunning
  · simp only [Function.update_of_ne equal] at isRunning ⊢
    exact consistent.suffix other link isRunning
  · subst equal
    exact finished link
  · simp only [Function.update_of_ne equal] at notRunning ⊢
    exact consistent.quiet other link notRunning
  · -- The writers of the chip have taken every step of the exchange.
    subst equal
    simp only [State.Executed, State.Running, Function.update_self, running, finished]
    refine and_congr_right fun _ => ⟨?_, ?_⟩
    · rintro (less | ⟨⟨idle, _⟩, _⟩)
      · rcases Nat.lt_succ_iff_lt_or_eq.mp less with less | rfl
        · exact .inl less
        · exact .inr ⟨⟨trivial, rfl⟩, List.not_mem_nil⟩
      · cases idle
    · rintro (less | ⟨⟨_, rfl⟩, _⟩)
      · exact .inl (Nat.lt_succ_of_lt less)
      · exact .inl (Nat.lt_succ_self _)
  · simp only [State.Executed, State.Running, Function.update_of_ne equal]
  · subst equal
    simp only [Function.update_self] at less
    rcases Nat.lt_succ_iff_lt_or_eq.mp less with less | rfl
    · exact consistent.received other exchange less
    · exact received
  · simp only [Function.update_of_ne equal] at less
    exact consistent.received other exchange less

end Consistent

/-- A multicast reaches a peer in one direction. -/
theorem Routes.direction_unique (routes : Routes chips) {first second : Direction}
    (isFirst : peer ∈ routes.targets chip first) (isSecond : peer ∈ routes.targets chip second) :
    first = second := by
  have apart := (List.nodup_append.mp (routes.once chip)).2.2
  cases first <;> cases second
  · rfl
  · exact absurd rfl (apart peer isFirst peer isSecond)
  · exact absurd rfl (apart peer isSecond peer isFirst)
  · rfl

/-- The writer of the link is past the first step it had to take. -/
structure Moved (state next : State chips links) (chip : Fin chips) (link : Fin links)
    (rest : List Instruction) : Prop where
  completed : next.completed = state.completed
  activity : next.activity = state.activity
  pending : next.pending = fun other otherLink =>
    if other = chip ∧ otherLink = link then rest else state.pending other otherLink

namespace Moved

variable (moved : Moved state next chip link rest) (scheduled : Scheduled mesh state)
  (has : state.pending chip link = instruction :: rest)

include moved scheduled has

theorem executed_iff (other : Fin chips) (otherLink : Fin links) (exchange : Nat)
    (late : Instruction) :
    next.Executed mesh other otherLink exchange late ↔
      state.Executed mesh other otherLink exchange late ∨
        ((other = chip ∧ otherLink = link) ∧ exchange = state.completed chip ∧
          late = instruction) := by
  have running := scheduled.running has
  simp only [State.Executed, State.Running, moved.completed, moved.activity, moved.pending]
  by_cases here : other = chip ∧ otherLink = link
  · obtain ⟨rfl, rfl⟩ := here
    simp only [and_self, if_true, true_and, has, List.mem_cons, not_or]
    constructor
    · rintro ⟨member, less | ⟨⟨isRunning, rfl⟩, absent⟩⟩
      · exact .inl ⟨member, .inl less⟩
      · by_cases same : late = instruction
        · exact .inr ⟨rfl, same⟩
        · exact .inl ⟨member, .inr ⟨⟨isRunning, rfl⟩, same, absent⟩⟩
    · rintro (⟨member, less | ⟨isRunning, _, absent⟩⟩ | ⟨rfl, rfl⟩)
      · exact ⟨member, .inl less⟩
      · exact ⟨member, .inr ⟨isRunning, absent⟩⟩
      · exact ⟨scheduled.mem_program (has ▸ List.mem_cons_self), .inr ⟨running,
          scheduled.head_not_mem has⟩⟩
  · simp only [here, if_false, false_and, or_false]

theorem scheduled_next : Scheduled mesh next where
  suffix other otherLink running := by
    rw [moved.activity] at running
    simp only [moved.completed, moved.pending]
    split
    case isTrue here =>
      obtain ⟨rfl, rfl⟩ := here
      have suffix := scheduled.suffix other otherLink running
      rw [has] at suffix
      exact (List.suffix_cons instruction rest).trans suffix
    case isFalse elsewhere => exact scheduled.suffix other otherLink running
  quiet other otherLink idle := by
    rw [moved.activity] at idle
    simp only [moved.pending]
    split
    case isTrue here =>
      obtain ⟨rfl, rfl⟩ := here
      exact absurd (scheduled.running has).1 idle
    case isFalse elsewhere => exact scheduled.quiet other otherLink idle

end Moved

namespace Consistent

variable (consistent : Consistent mesh state)

include consistent

/-- Nothing was delivered by a step of a writer. -/
theorem received_of_moved (moved : Moved state next chip link rest)
    (delivered : next.delivered = state.delivered) (other : Fin chips) (exchange : Nat)
    (less : exchange < next.completed other) : mesh.Received next other exchange := by
  rw [moved.completed] at less
  unfold Mesh.Received
  rw [delivered]
  exact consistent.received other exchange less

/-- A writer that does not send leaves the messages as they are. -/
theorem sent_of_moved (moved : Moved state next chip link rest)
    (has : state.pending chip link = instruction :: rest)
    (silent : ∀ direction payload, instruction ≠ .send direction payload)
    (channel : next.channel = state.channel) (delivered : next.delivered = state.delivered)
    (sender : Fin chips) (other : Fin links) (receiver : Fin chips) (message : Message) :
    message ∈ next.delivered sender other receiver ++ next.channel sender other receiver ↔
      ∃ direction, receiver ∈ mesh.routes.targets sender direction ∧
        next.Executed mesh sender other message.exchange (.send direction message.payload) := by
  rw [channel, delivered, consistent.sent]
  refine exists_congr fun direction => and_congr_right fun _ => ?_
  rw [moved.executed_iff consistent.toScheduled has]
  exact ⟨.inl, fun either => either.elim id fun now =>
    absurd now.2.2.symm (silent direction message.payload)⟩

theorem of_send {direction : Direction} {payload : Payload}
    (has : state.pending chip link = .send direction payload :: rest)
    (moved : Moved state next chip link rest)
    (channel : next.channel = fun sender otherLink receiver =>
      if (sender = chip ∧ otherLink = link) ∧ receiver ∈ mesh.routes.targets chip direction then
        state.channel sender otherLink receiver ++ [⟨state.completed chip, payload⟩]
      else state.channel sender otherLink receiver)
    (delivered : next.delivered = state.delivered) (count : next.count = state.count)
    (arrivals : next.arrivals = state.arrivals) : Consistent mesh next := by
  have executed := moved.executed_iff consistent.toScheduled has
  have unsent : ∀ receiver ∈ mesh.routes.targets chip direction,
      (⟨state.completed chip, payload⟩ : Message) ∉
        state.delivered chip link receiver ++ state.channel chip link receiver := by
    intro receiver target member
    obtain ⟨other, otherTarget, already⟩ := (consistent.sent _ _ _ _).mp member
    rw [mesh.routes.direction_unique otherTarget target] at already
    exact state.not_executed (has ▸ List.mem_cons_self) already
  refine ⟨moved.scheduled_next consistent.toScheduled has, fun sender other receiver message => ?_,
    fun sender other receiver => ?_, fun sender other receiver => ?_, fun other otherLink arrival =>
    ?_, ?_, ?_, fun other otherLink exchange isExecuted => ?_,
    consistent.received_of_moved moved delivered⟩
  · have old := consistent.sent sender other receiver message
    rw [channel, delivered]
    simp only [executed]
    by_cases here : (sender = chip ∧ other = link) ∧ receiver ∈ mesh.routes.targets chip direction
    · rw [if_pos here, ← List.append_assoc, List.mem_append, old, List.mem_singleton]
      obtain ⟨⟨rfl, rfl⟩, target⟩ := here
      constructor
      · rintro (⟨direction', target', already⟩ | rfl)
        · exact ⟨direction', target', .inl already⟩
        · exact ⟨direction, target, .inr ⟨⟨rfl, rfl⟩, rfl, rfl⟩⟩
      · rintro ⟨direction', target', already | ⟨_, sameExchange, same⟩⟩
        · exact .inl ⟨direction', target', already⟩
        · cases message
          cases same
          subst sameExchange
          exact .inr rfl
    · rw [if_neg here, old]
      refine exists_congr fun direction' => and_congr_right fun target' =>
        ⟨.inl, fun either => either.elim id fun now => ?_⟩
      obtain ⟨place, _, same⟩ := now
      obtain ⟨rfl, rfl⟩ := place
      cases same
      exact absurd ⟨⟨rfl, rfl⟩, target'⟩ here
  · have old := consistent.once sender other receiver
    simp only [channel, delivered]
    by_cases here : (sender = chip ∧ other = link) ∧ receiver ∈ mesh.routes.targets chip direction
    · rw [if_pos here, ← List.append_assoc]
      obtain ⟨⟨rfl, rfl⟩, target⟩ := here
      refine List.nodup_append.mpr ⟨old, List.nodup_singleton _, ?_⟩
      rintro first isFirst second isSecond rfl
      rw [List.mem_singleton] at isSecond
      subst isSecond
      exact unsent receiver target isFirst
    · rw [if_neg here]
      exact old
  · -- Everything a chip sent before is for this exchange or an earlier one.
    have old := consistent.ordered sender other receiver
    simp only [channel]
    by_cases here : (sender = chip ∧ other = link) ∧ receiver ∈ mesh.routes.targets chip direction
    · rw [if_pos here]
      obtain ⟨⟨rfl, rfl⟩, target⟩ := here
      refine List.pairwise_append.mpr ⟨old, List.pairwise_singleton _ _, ?_⟩
      intro first isFirst second isSecond
      rw [List.mem_singleton] at isSecond
      subst isSecond
      obtain ⟨_, _, already⟩ := (consistent.sent _ _ _ _).mp (List.mem_append_right _ isFirst)
      rcases already.started with less | running
      · exact le_of_lt less
      · exact running.2.ge
    · rw [if_neg here]
      exact old
  · rw [arrivals, delivered, executed, consistent.arrived]
    simp
  · rw [arrivals]
    exact consistent.distinct
  · rw [count, arrivals]
    exact consistent.counted
  · rw [delivered]
    rcases (executed _ _ _ _).mp isExecuted with already | ⟨_, _, same⟩
    · exact consistent.waited other otherLink exchange already
    · cases same

theorem of_waitMin (has : state.pending chip link = .waitMin :: rest)
    (full : mesh.targetCount chip ≤ state.count chip link)
    (moved : Moved state next chip link rest) (channel : next.channel = state.channel)
    (delivered : next.delivered = state.delivered) (count : next.count = state.count)
    (arrivals : next.arrivals = state.arrivals) : Consistent mesh next := by
  have executed := moved.executed_iff consistent.toScheduled has
  have isPending : .waitMin ∈ state.pending chip link := has ▸ List.mem_cons_self
  have waits : ¬state.Executed mesh chip link (state.completed chip) .set := fun already =>
    state.not_executed isPending (consistent.waitMin_of_set already)
  have tiles := tiles_of_mem (consistent.mem_program isPending)
  refine ⟨moved.scheduled_next consistent.toScheduled has,
    consistent.sent_of_moved moved has nofun channel delivered, ?_, ?_,
    fun other otherLink arrival => ?_, ?_, ?_, fun other otherLink exchange isExecuted peer
    different => ?_, consistent.received_of_moved moved delivered⟩
  · rw [channel, delivered]
    exact consistent.once
  · rw [channel]
    exact consistent.ordered
  · rw [arrivals, delivered, executed, consistent.arrived]
    simp
  · rw [arrivals]
    exact consistent.distinct
  · rw [count, arrivals]
    exact consistent.counted
  · rw [delivered]
    rcases (executed _ _ _ _).mp isExecuted with already | ⟨⟨rfl, rfl⟩, rfl, _⟩
    · exact consistent.waited other otherLink exchange already peer different
    · have arrived := consistent.arrivals_of_count waits tiles full different
      exact ((consistent.arrived _ _ _).mp arrived).1

theorem of_set (has : state.pending chip link = .set :: rest)
    (moved : Moved state next chip link rest) (channel : next.channel = state.channel)
    (delivered : next.delivered = state.delivered)
    (count : next.count = fun other otherLink =>
      if other = chip ∧ otherLink = link then 0 else state.count other otherLink)
    (arrivals : next.arrivals = fun other otherLink =>
      if other = chip ∧ otherLink = link then [] else state.arrivals other otherLink) :
    Consistent mesh next := by
  have executed := moved.executed_iff consistent.toScheduled has
  have isPending : .set ∈ state.pending chip link := has ▸ List.mem_cons_self
  have waits : ¬state.Executed mesh chip link (state.completed chip) .set :=
    state.not_executed isPending
  have tiles := tiles_of_mem (consistent.mem_program isPending)
  refine ⟨moved.scheduled_next consistent.toScheduled has,
    consistent.sent_of_moved moved has nofun channel delivered, ?_, ?_,
    fun other otherLink arrival => ?_, fun other otherLink => ?_, fun other otherLink => ?_,
    fun other otherLink exchange isExecuted => ?_, consistent.received_of_moved moved delivered⟩
  · rw [channel, delivered]
    exact consistent.once
  · rw [channel]
    exact consistent.ordered
  · -- The increments that are cleared are all for this exchange.
    simp only [arrivals, delivered, executed]
    have old := consistent.arrived other otherLink arrival
    split
    case isTrue here =>
      obtain ⟨rfl, rfl⟩ := here
      refine ⟨nofun, fun both => absurd (Or.inr ⟨⟨rfl, rfl⟩, ?_, trivial⟩) both.2⟩
      exact consistent.arrival_exchange tiles waits
        (old.mpr ⟨both.1, fun already => both.2 (.inl already)⟩)
    case isFalse elsewhere =>
      rw [old]
      simp [elsewhere]
  · simp only [arrivals]
    split
    · exact .nil
    · exact consistent.distinct other otherLink
  · rw [count, arrivals]
    by_cases here : other = chip ∧ otherLink = link
    · simp [here]
    · simp only [here, if_false]
      exact consistent.counted other otherLink
  · rw [delivered]
    rcases (executed _ _ _ _).mp isExecuted with already | ⟨_, _, same⟩
    · exact consistent.waited other otherLink exchange already
    · cases same

theorem of_advance (taken : mesh.advance state chip link = some next) :
    Consistent mesh next := by
  unfold Mesh.advance at taken
  split at taken
  case h_1 => cases taken
  case h_2 instruction rest has =>
    cases instruction with
    | send direction payload =>
      cases taken
      exact consistent.of_send has ⟨rfl, rfl, rfl⟩ rfl rfl rfl rfl
    | waitMin =>
      obtain ⟨full, same⟩ := Option.ite_none_right_eq_some.mp taken
      cases same
      exact consistent.of_waitMin has full ⟨rfl, rfl, rfl⟩ rfl rfl rfl rfl
    | set =>
      cases taken
      exact consistent.of_set has ⟨rfl, rfl, rfl⟩ rfl rfl rfl rfl

/-- A count that a writer has cleared for an exchange gets no more increments for it. -/
theorem uncleared_of_channel (isNext : (⟨exchange, .ready⟩ : Message) ∈
      state.channel sender link chip) :
    ¬state.Executed mesh chip link exchange .set := by
  intro cleared
  have different := consistent.ne_of_sent (List.mem_append_right _ isNext)
  have delivered := consistent.waited chip link exchange (consistent.waitMin_of_set cleared)
    sender different.symm
  exact (List.nodup_append.mp (consistent.once sender link chip)).2.2 _ delivered _ isNext rfl

theorem of_deliver {message : Message} {behind : List Message}
    (has : state.channel sender link chip = message :: behind)
    (completed : next.completed = state.completed) (activity : next.activity = state.activity)
    (pending : next.pending = state.pending)
    (channel : next.channel = fun other otherLink receiver =>
      if other = sender ∧ otherLink = link ∧ receiver = chip then behind
      else state.channel other otherLink receiver)
    (delivered : next.delivered = fun other otherLink receiver =>
      if other = sender ∧ otherLink = link ∧ receiver = chip then
        state.delivered sender link chip ++ [message]
      else state.delivered other otherLink receiver)
    (count : ∀ other otherLink, next.count other otherLink =
      if message.payload = .ready ∧ other = chip ∧ otherLink = link then
        state.count chip link + 1 else state.count other otherLink)
    (arrivals : ∀ other otherLink, next.arrivals other otherLink =
      if message.payload = .ready ∧ other = chip ∧ otherLink = link then
        state.arrivals chip link ++ [(sender, message.exchange)]
      else state.arrivals other otherLink) : Consistent mesh next := by
  have executed : ∀ other otherLink exchange late,
      next.Executed mesh other otherLink exchange late ↔
        state.Executed mesh other otherLink exchange late := by
    intro other otherLink exchange late
    simp only [State.Executed, State.Running, completed, activity, pending]
  have together : ∀ other otherLink receiver,
      next.delivered other otherLink receiver ++ next.channel other otherLink receiver =
        state.delivered other otherLink receiver ++ state.channel other otherLink receiver := by
    intro other otherLink receiver
    simp only [channel, delivered]
    split
    case isTrue here =>
      obtain ⟨rfl, rfl, rfl⟩ := here
      rw [has, List.append_assoc, List.singleton_append]
    case isFalse => rfl
  have more : ∀ other otherLink receiver, ∀ old ∈ state.delivered other otherLink receiver,
      old ∈ next.delivered other otherLink receiver := by
    intro other otherLink receiver old member
    simp only [delivered]
    split
    case isTrue here =>
      obtain ⟨rfl, rfl, rfl⟩ := here
      exact List.mem_append_left _ member
    case isFalse => exact member
  have isNext : message ∈ state.channel sender link chip := has ▸ List.mem_cons_self
  have fresh : message ∉ state.delivered sender link chip := fun already =>
    (List.nodup_append.mp (consistent.once sender link chip)).2.2 _ already _ isNext rfl
  refine ⟨⟨?_, ?_⟩, fun other otherLink receiver old => ?_, fun other otherLink receiver => ?_,
    fun other otherLink receiver => ?_, fun other otherLink arrival => ?_,
    fun other otherLink => ?_, fun other otherLink => ?_, ?_, ?_⟩
  · rw [completed, activity, pending]
    exact consistent.suffix
  · rw [activity, pending]
    exact consistent.quiet
  · rw [together]
    simp only [executed]
    exact consistent.sent other otherLink receiver old
  · rw [together]
    exact consistent.once other otherLink receiver
  · have old := consistent.ordered other otherLink receiver
    simp only [channel]
    split
    case isTrue here =>
      obtain ⟨rfl, rfl, rfl⟩ := here
      rw [has] at old
      exact old.of_cons
    case isFalse => exact old
  · rw [arrivals, executed]
    have old := consistent.arrived other otherLink arrival
    simp only [delivered]
    by_cases here : message.payload = .ready ∧ other = chip ∧ otherLink = link
    · obtain ⟨isReady, rfl, rfl⟩ := here
      have isMessage : (⟨message.exchange, .ready⟩ : Message) = message := by rw [← isReady]
      have unclear := consistent.uncleared_of_channel (isMessage.symm ▸ isNext)
      simp only [isReady, and_self, if_true, and_true, List.mem_append, List.mem_singleton, old]
      constructor
      · rintro (⟨earlier, uncleared⟩ | rfl)
        · refine ⟨?_, uncleared⟩
          split
          case isTrue same => exact same ▸ List.mem_append_left _ earlier
          case isFalse => exact earlier
        · refine ⟨?_, unclear⟩
          rw [if_pos rfl, List.mem_append, List.mem_singleton]
          exact .inr (by rw [← isReady])
      · rintro ⟨member, uncleared⟩
        split at member
        case isTrue same =>
          rw [List.mem_append, List.mem_singleton] at member
          rcases member with earlier | now
          · exact .inl ⟨same ▸ earlier, uncleared⟩
          · exact .inr (Prod.ext same (congrArg Message.exchange now))
        case isFalse => exact .inl ⟨member, uncleared⟩
    · rw [if_neg here, old]
      refine and_congr_left fun _ => ?_
      split
      case isTrue place =>
        obtain ⟨same, rfl, rfl⟩ := place
        rw [same, List.mem_append, List.mem_singleton]
        refine ⟨.inl, fun either => either.elim id fun now => absurd ⟨?_, rfl, rfl⟩ here⟩
        rw [← now]
      case isFalse => rfl
  · rw [arrivals]
    split
    case isTrue here =>
      refine List.nodup_append.mpr ⟨consistent.distinct _ _, List.nodup_singleton _, ?_⟩
      rintro first isFirst second isSecond rfl
      rw [List.mem_singleton] at isSecond
      subst isSecond
      have already := ((consistent.arrived chip link _).mp isFirst).1
      rw [← here.1] at already
      exact fresh already
    case isFalse => exact consistent.distinct other otherLink
  · rw [count, arrivals]
    split
    · rw [consistent.counted chip link, List.length_append, List.length_singleton]
    · exact consistent.counted other otherLink
  · intro other otherLink exchange isExecuted peer different
    exact more _ _ _ _ (consistent.waited other otherLink exchange ((executed _ _ _ _).mp isExecuted)
      peer different)
  · intro other exchange less peer different otherLink tiles packet member
    rw [completed] at less
    exact more _ _ _ _ (consistent.received other exchange less peer different otherLink tiles
      packet member)

theorem of_step {action : Action chips links} (taken : mesh.step state action = some next) :
    Consistent mesh next := by
  cases action with
  | startOther chip =>
    obtain ⟨idle, same⟩ := Option.ite_none_right_eq_some.mp taken
    cases same
    exact consistent.of_activity (by simp [idle]) (by decide)
  | finishOther chip =>
    obtain ⟨busy, same⟩ := Option.ite_none_right_eq_some.mp taken
    cases same
    exact consistent.of_activity (by simp [busy]) (by decide)
  | startExchange chip =>
    obtain ⟨idle, same⟩ := Option.ite_none_right_eq_some.mp taken
    cases same
    exact consistent.of_start idle
  | advance chip link => exact consistent.of_advance taken
  | deliver sender link chip =>
    change Mesh.deliver state sender link chip = some next at taken
    unfold Mesh.deliver at taken
    split at taken
    case h_1 => cases taken
    case h_2 message rest has =>
      cases kind : message.payload with
      | ready =>
        simp only [kind] at taken
        cases taken
        exact consistent.of_deliver has rfl rfl rfl rfl rfl (by simp [kind]) (by simp [kind])
      | data packet =>
        simp only [kind] at taken
        cases taken
        exact consistent.of_deliver has rfl rfl rfl rfl rfl (by simp [kind]) (by simp [kind])
  | finishExchange chip =>
    obtain ⟨guard, same⟩ := Option.ite_none_right_eq_some.mp taken
    cases same
    exact consistent.of_finish guard.1 guard.2.1 guard.2.2

end Consistent

theorem consistent_kept (mesh : Mesh chips links) : Keeps mesh.step (Consistent mesh) :=
  fun _ _ _ consistent taken => consistent.of_step taken

theorem Mesh.Reachable.consistent (reachable : mesh.Reachable state) : Consistent mesh state :=
  Reaches.holds (consistent_kept mesh) (consistent_initial mesh) reachable

end Libtt.AllReduce

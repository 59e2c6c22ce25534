import Libtt.Store.Split

/-!
# Barriers, and gathers that end

A call that gathers puts its part before it gets another's.
-/
namespace Libtt.KeyValue

open Libtt.Foundation Operation

section Parts

variable {undefinedColor : Int32} {context : KeyValueContext}

theorem allGather_puts {buffer : Bytes} {recvSize : Nat}
    (fits : recvSize = buffer.length * context.members.length)
    (several : context.members.length ≠ 1) : ∃ next, allGather buffer recvSize context =
      .put (context.key (.gathered (context.count .collective) context.rank)) buffer next := by
  simp only [allGather, bind_apply, this_apply, Action.bind_done, check_apply, if_pos fits,
    if_neg several, ← collective_text, next_eq]
  simp only [put_apply, Action.bind_put, collective_text, advance_rank, gathered_key]
  exact ⟨_, rfl⟩

/-- A call with a part puts the entry it owes before anything else. -/
theorem run_puts {call : Call} (isPart : call.part.isSome) {entry : String × Bytes}
    (owed : owedEntry context call = some entry) :
    ∃ next, call.run undefinedColor context = .put entry.1 entry.2 next := by
  have accepted : call.Accepted context := by
    by_contra rejected
    simp [owedEntry, owes, rejected] at owed
  have several : context.members.length ≠ 1 := by
    intro single
    cases call <;> simp [Call.part] at isPart <;>
      simp [owedEntry, owes, owes.part, single] at owed
  cases call with
  | allGather buffer recvSize =>
    simp only [owedEntry, owes, if_pos accepted, owes.part, if_neg several, Option.map_some,
      Option.some.injEq] at owed
    subst owed
    obtain ⟨next, puts⟩ := allGather_puts accepted several
    exact ⟨_, by simp only [Call.run, bind_apply, puts, Action.bind_put]; rfl⟩
  | barrier =>
    simp only [owedEntry, owes, if_pos accepted, owes.part, if_neg several, Option.map_some,
      Option.some.injEq] at owed
    subst owed
    obtain ⟨next, puts⟩ := @allGather_puts context [1] context.members.length (by simp) several
    exact ⟨_, by simp only [Call.run, barrier, bind_apply, this_apply, Action.bind_done, puts,
      Action.bind_put]; rfl⟩
  | split color key =>
    simp only [owedEntry, owes, if_pos accepted, owes.part, if_neg several, Option.map_some,
      Option.some.injEq] at owed
    subst owed
    obtain ⟨next, puts⟩ := @allGather_puts context (pairBytes color key)
      (8 * context.members.length) (by simp [pairBytes, intBytes]) several
    exact ⟨_, by simp only [Call.run, split, bind_apply, this_apply, Action.bind_done, puts,
      Action.bind_put]; rfl⟩
  | send | ssend | recv | irecv | snoopIncomingMsgSize | broadcast | createSubContext | duplicate =>
    cases isPart

end Parts

/-- The calls of an object with a part have put it, or the one in progress is about to. -/
structure Object.Entered (puts : List (String × Bytes)) (object : Object) : Prop where
  running : ∀ running, object.current = some running → running.call.part.isSome →
    ∀ entry, owedEntry object.context running.call = some entry →
      (∃ next, running.action = .put entry.1 entry.2 next) ∨ entry ∈ puts
  past : ∀ record ∈ object.past, record.call.part.isSome →
    ∀ entry, owedEntry record.context record.call = some entry → entry ∈ puts

section Systems

variable {undefinedColor : Int32} {size : Nat} {system : System} {process process' : Nat}
  {object object' : Object} {store : String → Option Bytes} {entry : Option (String × Bytes)}
  {child : Option Object} {puts : List (String × Bytes)}

theorem Object.Entered.more (entered : object.Entered puts) (rest : List (String × Bytes)) :
    object.Entered (puts ++ rest) where
  running running isRunning isPart entry owed :=
    (entered.running running isRunning isPart entry owed).imp_right (List.mem_append_left rest)
  past record member isPart entry owed :=
    List.mem_append_left rest (entered.past record member isPart entry owed)

theorem Object.Step.entered (entered : object.Entered puts)
    (step : object.Step undefinedColor store entry object' child) :
    object'.Entered (puts ++ entry.toList) := by
  have further := entered.more entry.toList
  cases step with
  | call call idle =>
    refine ⟨fun running isRunning isPart entry owed => ?_, further.past⟩
    cases isRunning
    exact .inl (run_puts isPart owed)
  | @act running entry action busy step =>
    refine ⟨fun running' isRunning isPart owedOne owed => ?_, further.past⟩
    cases isRunning
    rcases entered.running running busy isPart owedOne owed with ⟨next, isPut⟩ | already
    · rw [isPut] at step
      cases step
      exact .inr (by simp)
    · exact .inr (List.mem_append_left _ already)
  | @task place record task entry task' posted request step =>
    refine ⟨further.running, fun other member => ?_⟩
    rcases List.mem_or_eq_of_mem_set member with old | rfl
    · exact further.past other old
    · exact further.past record (List.mem_of_getElem? posted)
  | @finish call outcome context busy =>
    refine ⟨by simp, fun record member isPart owedOne owed => ?_⟩
    rcases List.mem_append.mp member with old | new
    · exact further.past record old isPart owedOne owed
    · rw [List.mem_singleton.mp new] at isPart owed
      rcases further.running _ busy isPart owedOne owed with ⟨next, isPut⟩ | already
      · cases isPut
      · exact already

theorem System.Reachable.entered (reachable : System.Reachable undefinedColor size system)
    (has : system.Has process object) : object.Entered system.puts := by
  induction reachable generalizing process object with
  | start =>
    obtain ⟨context, _, rfl, _⟩ := System.start_has has
    exact ⟨by simp, by simp⟩
  | step reachable taken ih =>
    obtain @⟨process', index, stepped, object', entry, child, chosen, step⟩ := taken
    rcases System.after_has has with ⟨_, rfl⟩ | ⟨_, rfl⟩ | old
    · exact step.entered (ih (List.mem_of_getElem? chosen))
    · obtain ⟨call, isNew, _⟩ := step.child
      rw [isNew]
      exact ⟨by simp [Object.child], by simp [Object.child]⟩
    · exact (ih old).more _

/-- What was put is in the store. -/
theorem System.Reachable.stored (reachable : System.Reachable undefinedColor size system)
    {key : String} {value : Bytes} (put : (key, value) ∈ system.puts) :
    system.store key = some value := by
  induction reachable with
  | start => cases put
  | @step system system' reachable taken ih =>
    have valid : system'.Valid system'.Stored undefinedColor size :=
      (System.Reachable.step reachable taken).valid fun _ member => member
    have distinct := valid.distinct
    obtain @⟨process', index, stepped, object', entry, child, chosen, step⟩ := taken
    rcases List.mem_append.mp put with old | new
    · cases entry with
      | none => exact ih old
      | some latest =>
        have other : key ≠ latest.1 := by
          rintro rfl
          rw [List.map_append, List.nodup_append] at distinct
          exact distinct.2.2 _ (List.mem_map_of_mem old) _ (by simp) rfl
        exact (Function.update_of_ne other _ _).trans (ih old)
    · rw [Option.mem_toList.mp new]
      exact Function.update_self _ _ _

/-- Calls of one number find the same number in the counter of gathers. -/
theorem System.Valid.count_eq (valid : system.Valid system.Stored undefinedColor size)
    (order : system.SameOrder) (has : system.Has process object)
    (has' : system.Has process' object') (lineage : object.lineage = object'.lineage)
    (samePrefix : object.context.keyPrefix = object'.context.keyPrefix) {place place' : Nat}
    {mark mark' : Mark} (found : object.ledger[place]? = some mark)
    (found' : object'.ledger[place']? = some mark')
    (isCollective : mark.call.Accepted mark.context ∧ mark.call.collective.isSome)
    (isCollective' : mark'.call.Accepted mark'.context ∧ mark'.call.collective.isSome)
    (numbers : object.number place = object'.number place') :
    mark.context.count .collective = mark'.context.count .collective := by
  have count := (valid.objects _ _ has).count_weights found .collective trivial
    (Object.ledger_take found ▸ (List.take_append_drop place object.ledger).symm)
  have count' := (valid.objects _ _ has').count_weights found' .collective trivial
    (Object.ledger_take found' ▸ (List.take_append_drop place' object'.ledger).symm)
  have bound := (List.getElem?_eq_some_iff.mp
    (Object.ledger_number found isCollective.1 isCollective.2)).1
  have bound' := (List.getElem?_eq_some_iff.mp
    (Object.ledger_number found' isCollective'.1 isCollective'.2)).1
  rw [count, count', ← Object.number, ← Object.number, ← numbers]
  apply sum_take_eq
  · rw [weights, List.length_map]
    omega
  · rw [weights, List.length_map]
    omega
  · exact fun number first second _ isFirst isSecond =>
      valid.weights_collective order has has' lineage samePrefix isFirst isSecond

/-- A numbered collective call and its place. -/
theorem Object.place_of_number {number : Nat} (bound : number < object.collectives.length) :
    ∃ place mark, object.ledger[place]? = some mark ∧ object.number place = number ∧
      mark.call.Accepted mark.context ∧ mark.call.collective.isSome := by
  rw [Object.collectives_eq, List.length_map] at bound
  have found := List.getElem?_eq_getElem bound
  obtain ⟨place, mark, isMark, isChosen, count⟩ := exists_place_of_getElem?_filterMap found
  have inside := mem_collectiveMarks.mp (List.mem_of_getElem? found)
  obtain ⟨_, _, equal⟩ := Option.map_eq_some_iff.mp isChosen
  rw [← equal] at inside
  refine ⟨place, mark, isMark, ?_, inside.2⟩
  rw [Object.number, ← Object.ledger_take isMark]
  exact count

/-- A running gather ends after at most one step more than there are members. It can take its next
step, or end, unless some member did not enter the call yet or is about to put its part. -/
def System.GathersProceed (system : System) : Prop :=
  ∀ process object running, system.Has process object → object.current = some running →
    running.call.part.isSome →
      (∃ turns ≤ object.context.members.length + 1,
        running.action.Within (fun _ => True) (fun _ => True) turns) ∧
      ((∃ result, running.action = .done result) ∨
        (∃ entry action, running.action.Step system.store entry action) ∨
        ∃ rank < object.context.members.length, ∀ peer, system.Peer object rank peer →
          peer.collectives.length ≤ object.returned.length ∨
          ∃ running' key value next, peer.current = some running' ∧
            running'.action = .put key value next)

theorem part_of_collective {call call' : Call} (kind : call.collective = call'.collective)
    (isPart : call.part.isSome) : call'.part.isSome := by
  cases call <;> simp [Call.part] at isPart <;> cases call' <;>
    simp [Call.collective, Call.part] at kind ⊢

/-- The entry that a call with a part owes. -/
theorem owes_of_part {context : KeyValueContext} {call : Call} (accepted : call.Accepted context)
    (isPart : call.part.isSome) (several : context.members.length ≠ 1) : ∃ part,
      owes context call = some (.gathered (context.count .collective) context.rank, part) := by
  cases call <;> simp [Call.part] at isPart <;> simp [owes, accepted, owes.part, several]

/-- A peer has its rank. -/
theorem System.Valid.peer_rank (valid : system.Valid system.Stored undefinedColor size)
    (has : system.Has process object) (has' : system.Has process' object')
    (samePrefix : object.context.keyPrefix = object'.context.keyPrefix) {rank : Nat}
    (member : object.context.members[rank]? = some process') : object'.context.rank = rank := by
  have ranked := object'.context.ranked
  rw [valid.ranks _ _ has', ← valid.members_eq has has' samePrefix] at ranked
  have bound := (List.getElem?_eq_some_iff.mp ranked).1
  exact (List.getElem?_inj bound (valid.objects _ _ has).distinct).mp (ranked.trans member.symm)

/-- A member that entered the call of a number has put its part of it, or is about to. -/
theorem System.Reachable.part_put (reachable : System.Reachable undefinedColor size system)
    (order : system.SameOrder) (has : system.Has process object) {running : Running}
    (busy : object.current = some running) (accepted : running.call.Accepted object.context)
    (isPart : running.call.part.isSome) (several : object.context.members.length ≠ 1)
    {rank : Nat} {peer : Object} (isPeer : system.Peer object rank peer)
    (entered : object.returned.length < peer.collectives.length) :
    (∃ part, system.store (object.context.key
      (.gathered (object.context.count .collective) rank)) = some part) ∨
    ∃ running' key value next, peer.current = some running' ∧
      running'.action = .put key value next := by
  have valid : system.Valid system.Stored undefinedColor size := reachable.valid fun _ member => member
  obtain ⟨_, ⟨process', member, hasPeer⟩, lineage⟩ := isPeer
  have samePrefix : object.context.keyPrefix = peer.context.keyPrefix :=
    (valid.level order _ _ _ _ _ has hasPeer rfl).mp lineage.symm
  obtain ⟨place, mark, found, number, isMark⟩ := Object.place_of_number entered
  -- The call in progress, as the last of the ledger.
  have own : object.ledger[object.past.length]? = some ⟨object.context, running.call, none⟩ := by
    simp [Object.ledger, Object.marks, busy]
  have numbers : object.number object.past.length = peer.number place := by
    rw [number, Object.number, List.take_of_length_le (by simp [Object.marks]),
      Object.returned_length]
  have isOwn : running.call.Accepted object.context ∧ running.call.collective.isSome :=
    ⟨accepted, call_part_collective isPart⟩
  have kind := order.kind has hasPeer lineage.symm (Object.ledger_number own isOwn.1 isOwn.2)
    (numbers ▸ Object.ledger_number found isMark.1 isMark.2)
  have counts := valid.count_eq order has hasPeer lineage.symm samePrefix own found isOwn isMark
    numbers
  have same := (valid.objects _ _ hasPeer).at_mark found
  have theirPart : mark.call.part.isSome := part_of_collective kind isPart
  have isRank : mark.context.rank = rank := by
    rw [same.rank]
    exact valid.peer_rank has hasPeer samePrefix (by simpa using member)
  obtain ⟨part, owed⟩ := owes_of_part isMark.1 theirPart (by
    rw [same.members, ← valid.members_eq has hasPeer samePrefix]
    exact several)
  have isEntry : owedEntry mark.context mark.call = some (object.context.key
      (.gathered (object.context.count .collective) rank), part) := by
    rw [owedEntry, owed, ← counts, isRank]
    simp [KeyValueContext.key, same.keyPrefix, samePrefix]
  have puts := reachable.entered hasPeer
  rw [Object.ledger] at found
  by_cases returned : place < peer.marks.length
  · rw [List.getElem?_append_left returned] at found
    obtain ⟨record, posted, rfl⟩ := Object.record_of_mark found
    exact .inl ⟨part, reachable.stored
      (puts.past record (List.mem_of_getElem? posted) theirPart _ isEntry)⟩
  · rw [List.getElem?_append_right (Nat.le_of_not_lt returned), List.getElem?_map] at found
    obtain ⟨running', isRunning, equal⟩ := Option.map_eq_some_iff.mp found
    have current : peer.current = some running' := by
      simpa using List.mem_of_getElem? isRunning
    subst equal
    rcases puts.running running' current theirPart _ isEntry with ⟨next, isPut⟩ | already
    · exact .inr ⟨running', _, _, next, current, isPut⟩
    · exact .inl ⟨part, reachable.stored already⟩

theorem System.Reachable.gathersProceed (reachable : System.Reachable undefinedColor size system)
    (order : system.SameOrder) : system.GathersProceed := by
  intro process object running has busy isPart
  obtain ⟨turns, bound, within⟩ := (reachable.confined has).running running busy
  refine ⟨⟨turns, bound, within.weaken le_rfl (fun _ _ => trivial) fun _ _ => trivial⟩, ?_⟩
  cases isAction : running.action with
  | done result => exact .inl ⟨result, rfl⟩
  | put key value next => exact .inr (.inl ⟨_, _, .put⟩)
  | get key next =>
    refine .inr ?_
    by_cases present : ∃ value, system.store key = some value
    · obtain ⟨value, isStored⟩ := present
      exact .inl ⟨_, _, .get isStored⟩
    rw [isAction] at within
    obtain _ | turns := turns
    · exact within.elim
    obtain ⟨accepted, slot, touches, isKey⟩ := within.1
    have gathers : object.context.members.length ≠ 1 ∧ ∃ rank < object.context.members.length,
        slot = .gathered (object.context.count .collective) (rank : Nat) := by
      cases isCall : running.call <;> rw [isCall] at isPart touches <;>
        first | exact touches | cases isPart
    obtain ⟨several, rank, inside, rfl⟩ := gathers
    refine .inr ⟨rank, inside, fun peer isPeer => ?_⟩
    by_cases entered : peer.collectives.length ≤ object.returned.length
    · exact .inl entered
    · rcases reachable.part_put order has busy accepted isPart several isPeer (by omega)
        with ⟨part, isStored⟩ | isPut
      · exact absurd ⟨part, isKey ▸ isStored⟩ present
      · exact .inr isPut

/-- No member returns from a barrier before every member has entered as many. -/
def System.BarriersHold (system : System) : Prop :=
  ∀ process object, system.Has process object → ∀ (n : Nat) (record : Record),
    object.returned[n]? = some record → record.call = .barrier → record.outcome = .ok .nothing →
      ∀ rank < object.context.members.length, ∃ peer, system.Peer object rank peer ∧
        ((object.returned.take (n + 1)).map Record.call).count .barrier ≤
          peer.collectives.count .barrier

/-- The returned collective calls come first. -/
theorem Object.returned_prefix (object : Object) :
    object.returned.map Record.call <+: object.collectives := by
  have front : object.returned.map Record.call = (object.past.map Record.invocation).filterMap
      (Invocation.chosen fun call => call.collective.map fun _ => call) := by
    rw [Object.returned, ← List.filterMap_eq_filter, List.map_filterMap, List.filterMap_map]
    congr 1
    funext record
    simp only [Function.comp, Invocation.chosen, Record.invocation]
    by_cases accepted : record.call.Accepted record.context
    · cases isKind : record.call.collective <;> simp [accepted, Option.guard, isKind]
    · simp [accepted, Option.guard]
  rw [front, Object.collectives, Object.calls, List.filterMap_append]
  exact List.prefix_append _ _

/-- Barriers are told by their kind. -/
theorem count_barrier (calls : List Call) :
    calls.count .barrier = (calls.map Call.collective).count (some .barrier) := by
  rw [List.count, List.count, List.countP_map]
  congr 1
  funext call
  cases call <;> rfl

theorem System.Valid.barriersHold (valid : system.Valid system.Stored undefinedColor size)
    (order : system.SameOrder) : system.BarriersHold := by
  intro process object has n record found isCall isOk rank bound
  obtain ⟨peer, isPeer, entered⟩ := valid.barriersMatch order process object has n record found
    isCall isOk rank bound
  have ⟨_, ⟨process', _, hasPeer⟩, lineage⟩ := isPeer
  refine ⟨peer, isPeer, ?_⟩
  obtain ⟨rest, whole⟩ := object.returned_prefix
  have inReturned := (List.getElem?_eq_some_iff.mp found).1
  have inPeer := (List.getElem?_eq_some_iff.mp entered).1
  have inObject : object.returned.length ≤ object.collectives.length := by
    rw [← whole, List.length_append, List.length_map]
    omega
  have front : (object.returned.take (n + 1)).map Record.call =
      object.collectives.take (n + 1) := by
    rw [List.map_take, ← whole, List.take_append_of_le_length (by rw [List.length_map]; omega)]
  have kinds : (object.collectives.take (n + 1)).map Call.collective =
      (peer.collectives.take (n + 1)).map Call.collective := by
    rw [List.map_take, List.map_take]
    apply take_eq_of_prefix_or_prefix (order _ _ _ _ has hasPeer lineage.symm)
    · simp only [List.length_map]
      omega
    · simp only [List.length_map]
      omega
  rw [front, count_barrier, kinds, ← count_barrier]
  exact (List.take_sublist _ _).count_le _

theorem System.Valid.ranksTranslate (valid : system.Valid system.Stored undefinedColor size) :
    system.RanksTranslate := by
  intro process object process' other has has' ranks isRank
  refine ⟨_, translateRanksToOtherCtx_ok isRank, List.length_map .., fun i rank position at_i at_i' => ?_⟩
  have bound : rank.toNat < object.context.members.length := by
    have range := isRank rank (List.mem_of_getElem? at_i)
    rw [KeyValueContext.IsRank] at range
    omega
  have isMember : object.context.member rank = object.context.members[rank.toNat] :=
    getElem!_pos object.context.members _ bound
  rw [List.getElem?_map, at_i, Option.map_some, Option.some.injEq, isMember] at at_i'
  refine ⟨_, List.getElem?_eq_getElem bound, ?_⟩
  by_cases inside : object.context.members[rank.toNat] ∈ other.context.members
  · rw [if_pos inside]
    obtain ⟨place, isPlace, found⟩ := position_of_mem inside
    refine ⟨place, at_i'.symm.trans isPlace, fun place' => ⟨fun found' => ?_, fun same => same ▸ found⟩⟩
    have inRange := (List.getElem?_eq_some_iff.mp found').1
    exact (List.getElem?_inj inRange (valid.objects _ _ has').distinct).mp (found'.trans found.symm)
  · rw [if_neg inside, ← at_i']
    exact position_of_not_mem inside

/-- Splits make one group of every color, contexts stay independent, barriers hold, ranks
translate by process, and calls that gather proceed, in every run of any number of processes that
keeps the order of collectives. -/
theorem process_groups (reachable : System.Reachable undefinedColor size system)
    (order : system.SameOrder) : system.SplitsMatch undefinedColor ∧ system.ContextsMatch ∧
      system.Independent undefinedColor ∧ system.BarriersHold ∧ system.RanksTranslate ∧
      system.GathersProceed := by
  have valid : system.Valid system.Stored undefinedColor size := reachable.valid fun _ member => member
  exact ⟨reachable.splitsMatch order, valid.contextsMatch order, reachable.independent order,
    valid.barriersHold order, valid.ranksTranslate, reachable.gathersProceed order⟩

end Systems

/-- Two of three processes split into a context of reversed ranks and meet in its barrier. -/
def regroup : List (Nat × Nat × Move) :=
  [(0, 0, .call (.split 4 1)), (0, 0, .act), (1, 0, .call (.split 4 0)), (1, 0, .act),
    (2, 0, .call (.split (-1) 0)), (2, 0, .act), (2, 0, .act), (2, 0, .act), (2, 0, .act),
    (2, 0, .finish), (0, 0, .act), (0, 0, .act), (0, 0, .act), (0, 0, .finish),
    (1, 0, .act), (1, 0, .act), (1, 0, .act), (1, 0, .finish),
    (1, 1, .call .barrier), (1, 1, .act), (1, 1, .act), (0, 1, .call .barrier), (0, 1, .act),
    (1, 1, .act), (1, 1, .finish)]

theorem process_groups_regroup : ∃ system, (System.start 3).run (-1) regroup = some system ∧
    system.SplitsMatch (-1) ∧ system.ContextsMatch ∧ system.Independent (-1) ∧
      system.BarriersHold ∧ system.RanksTranslate ∧ system.GathersProceed := by
  have checked : ((System.start 3).run (-1) regroup).any
      (fun system => decide (system.SameOrderBelow 3)) = true := by decide +kernel
  obtain ⟨system, ran, order⟩ := (Option.any_eq_true _ _).mp checked
  have reachable := System.reachable_of_run .start ran
  exact ⟨system, ran, process_groups reachable (reachable.sameOrder (of_decide_eq_true order))⟩

end Libtt.KeyValue

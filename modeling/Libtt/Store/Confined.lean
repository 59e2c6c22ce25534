import Libtt.Store.GroupLineage

/-!
# Contexts keep apart

A call puts and gets entries of its own context only, and at most one more than there are members.
-/
namespace Libtt.KeyValue

open Libtt.Foundation Operation

/-- The key of one of a context's slots. -/
def KeyValueContext.Owns (context : KeyValueContext) (key : String) : Prop :=
  ∃ slot, key = context.key slot

/-- The slots that a call puts or gets. -/
def Call.Touches (context : KeyValueContext) (slot : Slot) : Call → Prop
  | .send _ rank tag =>
    slot = .message context.rank rank tag (context.count (.send context.rank rank tag))
  | .ssend _ rank tag =>
    slot = .message context.rank rank tag (context.count (.send context.rank rank tag)) ∨
      slot = .ack context.rank rank tag (context.count (.send context.rank rank tag))
  | .recv _ rank tag =>
    slot = .message rank context.rank tag (context.count (.recv rank context.rank tag)) ∨
      slot = .ack rank context.rank tag (context.count (.recv rank context.rank tag))
  | .snoopIncomingMsgSize rank tag =>
    slot = .message rank context.rank tag (context.count (.recv rank context.rank tag))
  | .allGather _ _ | .barrier | .split _ _ => context.members.length ≠ 1 ∧
    ∃ rank < context.members.length, slot = .gathered (context.count .collective) (rank : Nat)
  | .broadcast _ root => slot = .broadcast (context.count .collective) root
  | .irecv _ _ _ | .createSubContext _ | .duplicate => False

/-- The keys that an accepted call puts or gets under. -/
def Call.Uses (context : KeyValueContext) (call : Call) (key : String) : Prop :=
  call.Accepted context ∧ ∃ slot, call.Touches context slot ∧ key = context.key slot

/-- The task of a returned `irecv` uses its context's keys and takes two steps. -/
def Confined (context : KeyValueContext) (outcome : Except String Result) : Prop :=
  ∀ task, outcome = .ok (.request task) → task.Within context.Owns (fun _ => True) 2

section Calls

variable {undefinedColor : Int32} {context : KeyValueContext} {turns : Nat}

/-- No part of a result starts a task, apart from `irecv`'s. -/
theorem within_result {α : Type} {operation : Operation α} {wrap : α → Result}
    {keys : String → Prop} (plain : ∀ result task, wrap result ≠ .request task)
    (within : (operation context).Within keys (fun _ => True) turns) :
    ((operation >>= fun result => pure (wrap result)) context).Within keys
      (fun result : Except String Result × KeyValueContext => Confined context result.1) turns := by
  apply within.bind 0
  rintro ⟨_ | result, after⟩ _ <;> simp [Confined, plain]

/-- The loop of `all_gather` gets one entry a member. -/
theorem gatherLoop_within (key : String) (size : Nat) (ranks : List Nat) (recv : Bytes) :
    ((ranks.foldlM (gatherPart key size) recv : Operation Bytes) context).Within
      (fun name => ∃ rank ∈ ranks, name = key ++ toString rank) (fun _ => True) ranks.length := by
  induction ranks generalizing recv with
  | nil => simp
  | cons rank ranks ih =>
    simp only [List.foldlM_cons, gatherPart, bind_apply, get_apply, Action.bind_get,
      Action.bind_done, ofExcept_apply, List.length_cons, Action.within_get]
    refine ⟨⟨rank, by simp, rfl⟩, fun value => ?_⟩
    cases copy value size with
    | error what => simp
    | ok part =>
      exact (ih (recv ++ part)).weaken le_rfl
        (fun name ⟨other, member, same⟩ => ⟨other, by simp [member], same⟩) fun _ => id

/-- The keys of a gather. -/
def KeyValueContext.Gathers (context : KeyValueContext) (key : String) : Prop :=
  context.members.length ≠ 1 ∧ ∃ rank < context.members.length,
    key = context.key (.gathered (context.count .collective) (rank : Nat))

theorem allGather_within (buffer : Bytes) (recvSize : Nat) :
    (allGather buffer recvSize context).Within context.Gathers (fun _ => True)
      (context.members.length + 1) := by
  simp only [allGather, bind_apply, this_apply, Action.bind_done, check_apply]
  by_cases fits : recvSize = buffer.length * context.members.length
  case neg => simp [fits]
  simp only [if_pos fits]
  by_cases single : context.members.length = 1
  · simp [single]
  · rw [if_neg single, bind_apply, ← collective_text, next_eq]
    simp only [bind_apply, this_apply, Action.bind_done, put_apply, Action.bind_put, advance_rank,
      collective_text, gathered_key, Action.within_put]
    have bound := (List.getElem?_eq_some_iff.mp context.ranked).1
    refine ⟨⟨single, context.rank, bound, rfl⟩, ?_⟩
    refine (gatherLoop_within _ _ _ _).weaken (by simp) ?_ fun _ => id
    rintro name ⟨rank, member, same⟩
    exact ⟨single, rank, by simpa using member, same.trans (gathered_key context _ rank)⟩

/-- `create_sub_context` does nothing with the store. -/
theorem createSubContext_within (ranks : List Int) :
    (createSubContext ranks context).Within (fun _ => False) (fun _ => True) 0 := by
  have loop (ranks : List Int) (group : List Nat × String) (context : KeyValueContext) :
      ((ranks.foldlM addRank group : Operation _) context).Within (fun _ => False)
        (fun _ => True) 0 := by
    induction ranks generalizing group with
    | nil => simp
    | cons rank ranks ih =>
      simp only [List.foldlM_cons, bind_apply, addRank]
      by_cases valid : context.IsRank rank
      · simp only [validateRank_ok valid, Action.bind_done, this_apply, check_apply]
        by_cases fresh : context.member rank ∉ group.1
        · simpa [fresh] using ih _
        · simp [fresh]
      · simp [validateRank_error valid]
  apply (loop ranks ([], "group") context).bind 0
  rintro ⟨_ | ⟨members, group⟩, after⟩ _
  · simp
  · simp only [bind_apply, this_apply, Action.bind_done]
    by_cases member : after.globalRank ∈ members
    · simp only [if_pos member, next, bind_apply, this_apply, number_apply, Action.bind_done,
        if_true, pure_apply, ofExcept_apply]
      cases makeContext members after.globalRank _ <;> simp
    · simp [member]

theorem split_within (color key : Int32) :
    (split undefinedColor color key context).Within context.Gathers (fun _ => True)
      (context.members.length + 1) := by
  apply (allGather_within _ _).bind 0
  rintro ⟨_ | values, after⟩ _
  · simp
  · by_cases undefined : color = undefinedColor
    · simp [undefined]
    · simp only [if_neg undefined]
      exact (createSubContext_within _).weaken le_rfl (fun _ => False.elim) fun _ => id

/-- The task of an `irecv` gets its message and acknowledges it. -/
theorem receiveTask_within (source tag : Int) (sequence size : Nat) :
    (receiveTask (context.key (.message source context.rank tag sequence)) size).Within
      context.Owns (fun _ => True) 2 := by
  rw [receiveTask, Action.within_get]
  refine ⟨⟨_, rfl⟩, fun value => ?_⟩
  cases copy value size with
  | error what => simp
  | ok buffer =>
    simp only [Action.within_put, Action.within_done, and_true]
    exact ⟨_, ack_key _ _ _ _ _⟩

/-- Every call uses its own slots and takes at most one step more than there are members. -/
theorem run_within (call : Call) : (call.run undefinedColor context).Within
    (call.Uses context)
    (fun result : Except String Result × KeyValueContext => Confined context result.1)
    (context.members.length + 1) := by
  have bound := (List.getElem?_eq_some_iff.mp context.ranked).1
  by_cases accepted : call.Accepted context
  case neg =>
    obtain ⟨what, threw⟩ := @run_rejected undefinedColor _ _ accepted
    simp [threw, Confined]
  cases call with
  | send buffer rank tag =>
    simp only [Call.run, send, bind_apply, this_apply, Action.bind_done,
      messageKey_send context.isRank_rank accepted, put_apply, Action.bind_put, pure_apply,
      Action.within_put, Action.within_done]
    exact ⟨⟨accepted, _, rfl, rfl⟩, by simp [Confined]⟩
  | ssend buffer rank tag =>
    obtain ⟨others, equal⟩ : ∃ others, context.members.length = others + 1 :=
      Nat.exists_eq_succ_of_ne_zero (by omega)
    simp only [Call.run, ssend, bind_apply, this_apply, Action.bind_done, equal,
      messageKey_send context.isRank_rank accepted, put_apply, Action.bind_put, pure_apply,
      get_apply, Action.bind_get, Action.within_put, Action.within_get, Action.within_done]
    exact ⟨⟨accepted, _, .inl rfl, rfl⟩, ⟨accepted, _, .inr rfl, ack_key _ _ _ _ _⟩, by simp [Confined]⟩
  | recv size rank tag =>
    obtain ⟨others, equal⟩ : ∃ others, context.members.length = others + 1 :=
      Nat.exists_eq_succ_of_ne_zero (by omega)
    simp only [Call.run, recv, bind_apply, this_apply, Action.bind_done, equal,
      messageKey_recv accepted context.isRank_rank, if_true, get_apply, Action.bind_get,
      ofExcept_apply, Action.within_get]
    refine ⟨⟨accepted, _, .inl rfl, rfl⟩, fun value => ?_⟩
    cases copy value size with
    | error what => simp [Confined]
    | ok buffer =>
      exact ⟨⟨accepted, _, .inr rfl, ack_key _ _ _ _ _⟩, by simp [Confined]⟩
  | irecv size rank tag =>
    simp only [Call.run, irecv, bind_apply, this_apply, check_apply, accepted.1, if_true,
      Action.bind_done, messageKey_recv accepted.2 context.isRank_rank, pure_apply,
      Action.within_done]
    intro task isTask
    cases isTask
    exact receiveTask_within _ _ _ _
  | snoopIncomingMsgSize rank tag =>
    simp only [Call.run, snoopIncomingMsgSize, bind_apply, this_apply, Action.bind_done,
      messageKey_recv accepted context.isRank_rank, Bool.false_eq_true, if_false, get_apply,
      Action.bind_get, pure_apply, Action.within_get, Action.within_done]
    exact ⟨⟨accepted, _, rfl, rfl⟩, by simp [Confined]⟩
  | allGather buffer recvSize =>
    refine (within_result (by simp) (allGather_within buffer recvSize)).weaken le_rfl ?_ fun _ => id
    rintro key ⟨several, rank, inside, same⟩
    exact ⟨accepted, _, ⟨several, rank, inside, rfl⟩, same⟩
  | barrier =>
    have gathers : (barrier context).Within context.Gathers (fun _ => True)
        (context.members.length + 1) := by
      apply (allGather_within _ _).bind 0
      rintro ⟨_ | _, after⟩ _ <;> simp
    have whole := @within_result context _ _ _ (fun _ => .nothing) _ (by simp) gathers
    refine whole.weaken le_rfl ?_ fun _ => id
    rintro key ⟨several, rank, inside, same⟩
    exact ⟨accepted, _, ⟨several, rank, inside, rfl⟩, same⟩
  | broadcast buffer root =>
    simp only [Call.run, broadcast, bind_apply, validateRank_ok accepted, this_apply, Action.bind_done]
    by_cases single : context.members.length = 1
    · simp [single, Confined]
    · simp only [single, if_false, bind_apply, ← collective_text, next_eq, Action.bind_done,
        this_apply]
      simp only [collective_text, broadcast_key]
      by_cases isRoot : (context.rank : Int) = root
      · rw [if_pos (show ((context.advance _).rank : Int) = root from isRoot)]
        exact ⟨⟨accepted, _, rfl, rfl⟩, by simp [Confined]⟩
      · rw [if_neg (show ¬((context.advance _).rank : Int) = root from isRoot)]
        simp only [bind_apply, get_apply, Action.bind_get, Action.bind_done, ofExcept_apply,
          Action.within_get]
        refine ⟨⟨accepted, _, rfl, rfl⟩, fun value => ?_⟩
        cases copy value buffer.length <;> simp [Confined]
  | createSubContext ranks =>
    exact (within_result (by simp) (createSubContext_within ranks)).weaken (Nat.zero_le _)
      (fun _ => False.elim) fun _ => id
  | duplicate =>
    simp only [Call.run, duplicate, bind_apply, this_apply, Action.bind_done, ← duplicate_text, next_eq,
      ofExcept_apply]
    cases makeContext context.members context.globalRank _ <;> simp [Confined]
  | split color key =>
    refine (within_result (by simp) (split_within color key)).weaken le_rfl ?_ fun _ => id
    rintro key ⟨several, rank, inside, same⟩
    exact ⟨accepted, _, ⟨several, rank, inside, rfl⟩, same⟩

end Calls

/-- What an object still has to do is under its context's keys. -/
structure Object.Confined (object : Object) : Prop where
  running : ∀ running, object.current = some running →
    ∃ turns ≤ object.context.members.length + 1, running.action.Within
      (running.call.Uses object.context)
      (fun result : Except String Result × KeyValueContext =>
        KeyValue.Confined object.context result.1) turns
  tasks : ∀ record ∈ object.past, KeyValue.Confined object.context record.outcome

theorem owns_of_uses {context : KeyValueContext} {call : Call} {key : String}
    (uses : call.Uses context key) : context.Owns key := by
  obtain ⟨_, slot, _, same⟩ := uses
  exact ⟨slot, same⟩

/-- The keys are those of the prefix. -/
theorem KeyValueContext.Same.owns {first second : KeyValueContext} (same : first.Same second) :
    first.Owns = second.Owns := by
  funext key
  simp only [KeyValueContext.Owns, KeyValueContext.key, same.keyPrefix]

section Steps

variable {stored : String → Bytes → Prop} {undefinedColor : Int32} {object object' : Object}
  {store : String → Option Bytes} {entry : Option (String × Bytes)} {child : Option Object}

/-- Every step of an object leaves it with its own keys. -/
theorem Object.Step.confined (valid : object.Valid stored undefinedColor)
    (confined : object.Confined)
    (step : object.Step undefinedColor store entry object' child) : object'.Confined := by
  cases step with
  | call call idle =>
    refine ⟨fun running isRunning => ?_, confined.tasks⟩
    cases isRunning
    exact ⟨_, le_rfl, run_within call⟩
  | act busy step =>
    refine ⟨fun running isRunning => ?_, confined.tasks⟩
    cases isRunning
    obtain ⟨turns, bound, within⟩ := confined.running _ busy
    obtain ⟨_, fewer, less, rest⟩ := within.step step
    exact ⟨fewer, Nat.le_trans (Nat.le_of_lt less) bound, rest⟩
  | @task place record task entry task' posted request step =>
    refine ⟨confined.running, fun other member => ?_⟩
    rcases List.mem_or_eq_of_mem_set member with old | rfl
    · exact confined.tasks other old
    · have within := confined.tasks record (List.mem_of_getElem? posted) task request
      obtain ⟨_, fewer, less, rest⟩ := within.step step
      intro other isTask
      cases isTask
      exact rest.weaken (Nat.le_of_lt less) (fun _ => id) fun _ => id
  | @finish call outcome context busy =>
    obtain ⟨_, advances⟩ := valid.finish busy
    have owns : context.Owns = object.context.Owns := by
      rw [advances]
      exact (same_advance _ _).owns
    have keeps (outcome : Except String Result) (inside : KeyValue.Confined object.context outcome) :
        KeyValue.Confined context outcome := by
      rw [KeyValue.Confined, owns]
      exact inside
    refine ⟨by simp, fun record member => ?_⟩
    rcases List.mem_append.mp member with old | new
    · exact keeps _ (confined.tasks record old)
    · rw [List.mem_singleton.mp new]
      obtain ⟨turns, _, within⟩ := confined.running _ busy
      exact keeps _ ((Action.within_done (outcome, context)).mp within)

/-- A step puts under the object's own keys. -/
theorem Object.Step.puts_own (confined : object.Confined)
    (step : object.Step undefinedColor store entry object' child) {put : String × Bytes}
    (isEntry : entry = some put) : object.context.Owns put.1 := by
  cases step with
  | call | finish => cases isEntry
  | act busy step =>
    obtain ⟨_, _, within⟩ := confined.running _ busy
    exact owns_of_uses ((within.step step).1 put isEntry)
  | task posted request step =>
    exact ((confined.tasks _ (List.mem_of_getElem? posted) _ request).step step).1 put isEntry

/-- A step depends on the object's own keys only. -/
theorem Object.Step.reads_own (confined : object.Confined)
    (step : object.Step undefinedColor store entry object' child) {store' : String → Option Bytes}
    (agree : ∀ key, object.context.Owns key → store' key = store key) :
    object.Step undefinedColor store' entry object' child := by
  cases step with
  | call call idle => exact .call call idle
  | act busy step =>
    obtain ⟨_, _, within⟩ := confined.running _ busy
    exact .act busy (within.step_congr (fun key uses => agree key (owns_of_uses uses)) step)
  | task posted request step =>
    have within := confined.tasks _ (List.mem_of_getElem? posted) _ request
    exact .task posted request (within.step_congr agree step)
  | finish busy => exact .finish busy

end Steps

section Systems

variable {undefinedColor : Int32} {size : Nat} {system : System}

/-- Every object of a reachable system keeps to its keys. -/
theorem System.Reachable.confined (reachable : System.Reachable undefinedColor size system)
    {process : Nat} {object : Object} (has : system.Has process object) : object.Confined := by
  induction reachable generalizing process object with
  | start =>
    obtain ⟨context, _, rfl, _⟩ := System.start_has has
    exact ⟨by simp, by simp⟩
  | @step system system' reachable taken ih =>
    have valid : system.Valid system.Stored undefinedColor size := reachable.valid fun _ member => member
    obtain @⟨process', place, stepped, object', entry, child, chosen, step⟩ := taken
    have hasStepped : system.Has process' stepped := List.mem_of_getElem? chosen
    rcases System.after_has has with ⟨_, rfl⟩ | ⟨_, rfl⟩ | old
    · exact step.confined (valid.objects _ _ hasStepped) (ih hasStepped)
    · obtain ⟨call, isChild, _⟩ := step.child
      rw [isChild]
      exact ⟨by simp [Object.child], by simp [Object.child]⟩
    · exact ih old

/-- A step of an object depends on and changes no entry of a context of another lineage. -/
def System.Independent (undefinedColor : Int32) (system : System) : Prop :=
  ∀ process object, system.Has process object → ∀ entry object' child,
    object.Step undefinedColor system.store entry object' child →
      (∀ store, (∀ key, object.context.Owns key → store key = system.store key) →
        object.Step undefinedColor store entry object' child) ∧
      ∀ process' other, system.Has process' other → other.lineage ≠ object.lineage → ∀ key,
        other.context.Owns key →
          ¬object.context.Owns key ∧ putEntry system.store entry key = system.store key

theorem System.Reachable.independent (reachable : System.Reachable undefinedColor size system)
    (order : system.SameOrder) : system.Independent undefinedColor := by
  have valid : system.Valid system.Stored undefinedColor size := reachable.valid fun _ member => member
  intro process object has entry object' child step
  refine ⟨fun store agree => step.reads_own (reachable.confined has) agree, ?_⟩
  intro process' other hasOther different key owned
  have apart : ¬object.context.Owns key := by
    rintro ⟨slot, same⟩
    obtain ⟨slot', same'⟩ := owned
    obtain ⟨path, located⟩ := (valid.objects _ _ has).located
    obtain ⟨path', located'⟩ := (valid.objects _ _ hasOther).located
    rw [key_eq (.refl _) located] at same
    rw [key_eq (.refl _) located', same] at same'
    have paths := (keyText_injective same').1
    refine different ((valid.level order _ _ _ _ _ hasOther has rfl).mpr ?_)
    rw [located, located', paths]
  refine ⟨apart, ?_⟩
  cases entry with
  | none => rfl
  | some put =>
    have own := step.puts_own (reachable.confined has) rfl
    have other : key ≠ put.1 := by
      rintro rfl
      exact apart own
    exact Function.update_of_ne other _ _

end Systems

end Libtt.KeyValue

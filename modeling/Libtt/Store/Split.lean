import Libtt.Foundation.StableOrder
import Libtt.Store.Confined
import Libtt.Store.Coordination

/-!
# Groups

A `split` gives the members of one color a context of their own, ordered by key and old rank. Every
member works its group out for itself from the gathered colors and keys, so the groups agree
because the gathers do. The rank of a process in one context is looked up in another by
`translate_ranks_to_other_ctx`.
-/
namespace Libtt.KeyValue

open Libtt.Foundation Operation

section Translation

variable {context target : KeyValueContext}

theorem position_of_mem {process : Nat} (member : process ∈ target.members) :
    ∃ place : Nat, target.position process = place ∧ target.members[place]? = some process :=
  ⟨_, if_pos member, List.getElem?_idxOf member⟩

theorem position_of_not_mem {process : Nat} (outside : process ∉ target.members) :
    target.position process = -1 := if_neg outside

/-- The loop looks every member up. -/
theorem translateRank_ok {ranks : List Int} (valid : ∀ rank ∈ ranks, context.IsRank rank)
    (translated : List Int) :
    (ranks.foldlM (translateRank target) translated : Operation _) context =
      .done (.ok (translated ++ ranks.map fun rank => target.position (context.member rank)),
        context) := by
  induction ranks generalizing translated with
  | nil => simp
  | cons rank ranks ih =>
    have rest := ih (fun other member => valid other (by simp [member]))
      (translated ++ [target.position (context.member rank)])
    simp only [List.foldlM_cons, translateRank, bind_apply, validateRank_ok (valid rank (by simp)),
      Action.bind_done, this_apply, pure_apply]
    exact rest.trans (by simp)

theorem translateRanksToOtherCtx_ok {ranks : List Int}
    (valid : ∀ rank ∈ ranks, context.IsRank rank) :
    translateRanksToOtherCtx ranks (some target) ranks.length context =
      .done (.ok (ranks.map fun rank => target.position (context.member rank)), context) := by
  simp only [translateRanksToOtherCtx, bind_apply, check_apply, if_true, Action.bind_done]
  exact (translateRank_ok valid []).trans (by simp)

end Translation

/-- A translated rank is where the same process stands in the other context, or -1. -/
def System.RanksTranslate (system : System) : Prop :=
  ∀ process object process' other, system.Has process object → system.Has process' other →
    ∀ ranks : List Int, (∀ rank ∈ ranks, object.context.IsRank rank) → ∃ translated,
      translateRanksToOtherCtx ranks (some other.context) ranks.length object.context =
        .done (.ok translated, object.context) ∧ translated.length = ranks.length ∧
      ∀ (i : Nat) rank position, ranks[i]? = some rank → translated[i]? = some position →
        ∃ member, object.context.members[rank.toNat]? = some member ∧
          (if member ∈ other.context.members then
            ∃ place : Nat, position = place ∧ ∀ place', other.context.members[place']? = some member ↔
              place' = place
          else position = -1)

/-- A smaller key, or an equal one and a smaller rank. -/
def Earlier (choices : Nat → Int32 × Int32) (first second : Nat) : Prop :=
  (choices first).2 < (choices second).2 ∨ (choices first).2 = (choices second).2 ∧ first < second

/-- The ranks with a color, by key and rank. -/
structure IsGroup (choices : Nat → Int32 × Int32) (size : Nat) (color : Int32)
    (ranks : List Nat) : Prop where
  mem : ∀ rank, rank ∈ ranks ↔ rank < size ∧ (choices rank).1 = color
  sorted : ranks.Pairwise (Earlier choices)

theorem breaksTies_earlier (choices : Nat → Int32 × Int32) :
    BreaksTies (fun first second => (choices first).2 ≤ (choices second).2) (Earlier choices) where
  tie first second related before := by
    simp only [Earlier, Int32.le_iff_toInt_le, Int32.lt_iff_toInt_lt, ← Int32.toInt_inj] at *
    omega
  apart first second unrelated := by
    simp only [Earlier, Int32.le_iff_toInt_le, Int32.lt_iff_toInt_lt, ← Int32.toInt_inj] at *
    omega
  trans first second third before after := by
    simp only [Earlier, Int32.lt_iff_toInt_lt, ← Int32.toInt_inj] at *
    omega

/-- `split` puts the ranks of its color in this order. -/
theorem splitRanks_isGroup (values : Bytes) (size : Nat) (color : Int32) :
    ∃ ranks : List Nat, splitRanks values size color = ranks.map Int.ofNat ∧
      IsGroup (pairAt values) size color ranks := by
  refine ⟨_, rfl, fun rank => ?_, ?_⟩
  · simp only [List.mem_insertionSort, List.mem_filter, List.mem_range, decide_eq_true_eq]
  · exact insertionSort_pairwise (breaksTies_earlier (pairAt values))
      (List.pairwise_lt_range.filter _)

/-- One object has the context that another's call at a place made. -/
def Object.MadeAt (parent : Object) (place : Nat) (mark : Mark) (child : KeyValueContext)
    (object : Object) : Prop :=
  child.Same object.context ∧ object.lineage = (parent.number place, mark.call.color) :: parent.lineage

section Systems

variable {stored : String → Bytes → Prop} {undefinedColor : Int32} {size : Nat} {system : System}
  {object object' : Object} {store : String → Option Bytes} {entry : Option (String × Bytes)}
  {child : Option Object}

/-- The history after a step. -/
theorem Object.Step.marks (step : object.Step undefinedColor store entry object' child) :
    (object'.marks = object.marks ∧ child = none) ∨ ∃ call, object'.marks =
      object.marks ++ [⟨object.context, call, child.map fun made => made.context⟩] := by
  cases step with
  | call call idle => exact .inl ⟨rfl, rfl⟩
  | act busy step => exact .inl ⟨rfl, rfl⟩
  | @task place record task entry task' posted request step =>
    exact .inl ⟨map_mark_set posted (by simp [Record.mark, created, request]), rfl⟩
  | @finish call outcome context busy =>
    refine .inr ⟨call, ?_⟩
    cases isCreated : created outcome <;>
      simp [Object.marks, Record.mark, isCreated, Object.child]

/-- Every made context has its object. -/
theorem System.Reachable.made (reachable : System.Reachable undefinedColor size system)
    {process : Nat} {object : Object} (has : system.Has process object) {place : Nat} {mark : Mark}
    {child : KeyValueContext} (found : object.marks[place]? = some mark)
    (isChild : mark.child = some child) :
    ∃ made, system.Has process made ∧ object.MadeAt place mark child made := by
  induction reachable generalizing process object place mark child with
  | start =>
    obtain ⟨context, _, rfl, _⟩ := System.start_has has
    simp [Object.marks] at found
  | @step system system' reachable taken ih =>
    have valid : system.Valid system.Stored undefinedColor size := reachable.valid fun _ member => member
    obtain @⟨process', index, stepped, object', entry, child', chosen, step⟩ := taken
    have sound := fun key value isPresent => valid.present key value isPresent
    have hasStepped : system.Has process' stepped := List.mem_of_getElem? chosen
    have grown := step.extends sound (valid.objects _ _ hasStepped)
    -- What was made before is still there.
    have keeps {process : Nat} {older newer : Object} (old : system.Has process older)
        (further : older.Extends system.Stored newer) {place : Nat} {mark : Mark}
        {child : KeyValueContext} (found : older.marks[place]? = some mark)
        (isChild : mark.child = some child) :
        ∃ made, (system.after process' index object' entry child').Has process made ∧
          newer.MadeAt place mark child made := by
      obtain ⟨made, isMade, same, lineage⟩ := ih old found isChild
      obtain ⟨made', isMade', grown'⟩ := System.has_after entry child' chosen grown isMade
      obtain ⟨rest, equal⟩ := further.marks
      have bound := (List.getElem?_eq_some_iff.mp found).1
      refine ⟨made', isMade', same.trans grown'.same.symm, ?_⟩
      rw [grown'.lineage, lineage, further.lineage, Object.number, Object.number, ← equal,
        List.take_append_of_le_length (Nat.le_of_lt bound)]
    rcases System.after_has has with ⟨rfl, rfl⟩ | ⟨rfl, rfl⟩ | old
    · rcases step.marks with ⟨same, _⟩ | ⟨call, longer⟩
      · exact keeps hasStepped grown (same ▸ found) isChild
      · by_cases before : place < stepped.marks.length
        · rw [longer, List.getElem?_append_left before] at found
          exact keeps hasStepped grown found isChild
        · have bound := (List.getElem?_eq_some_iff.mp found).1
          have last : place = stepped.marks.length := by
            simp only [longer, List.length_append, List.length_singleton] at bound
            omega
          subst last
          have isNew : mark = ⟨stepped.context, call, child'.map fun made => made.context⟩ := by
            simpa [longer] using found.symm
          subst isNew
          obtain ⟨new, rfl, rfl⟩ := Option.map_eq_some_iff.mp isChild
          obtain ⟨call', equal, marks⟩ := step.child
          have calls : call' = call := by
            rw [marks] at longer
            simpa using longer
          refine ⟨new, System.after_has_child, .refl _, ?_⟩
          rw [equal, Object.child, Object.number, marks, List.take_left, ← Object.returned_length,
            grown.lineage, calls]
    · obtain ⟨call, isNew, _⟩ := step.child
      rw [isNew] at found
      simp [Object.marks, Object.child] at found
    · exact keeps old (.refl _) found isChild

/-- A `split` never throws. It returns null under the undefined color, and otherwise the context of
the members that passed its color to the same call, by key and old rank. -/
def System.SplitsMatch (undefinedColor : Int32) (system : System) : Prop :=
  ∀ process object, system.Has process object → ∀ (n : Nat) (record : Record) color key,
    object.returned[n]? = some record → record.call = .split color key →
      ∃ choices : Nat → Int32 × Int32,
        (∀ rank < object.context.members.length, ∃ peer, system.Peer object rank peer ∧
          peer.collectives[n]? = some (.split (choices rank).1 (choices rank).2)) ∧
        choices object.context.rank = (color, key) ∧
        if color = undefinedColor then record.outcome = .ok (.context none)
        else ∃ child made ranks, record.outcome = .ok (.context (some child)) ∧
          system.Has process made ∧ made.lineage = (n, some color) :: object.lineage ∧
          child.Same made.context ∧ IsGroup choices object.context.members.length color ranks ∧
          child.members = ranks.map (fun rank => object.context.members[rank]!) ∧
          child.members.Nodup ∧ child.members[child.rank]? = some process

/-- The values a `split` gathered. -/
theorem System.Valid.split_gathered (valid : system.Valid system.Stored undefinedColor size)
    (order : system.SameOrder) {process : Nat} {object : Object}
    (has : system.Has process object) {place : Nat} {record : Record}
    (posted : object.past[place]? = some record) {color key : Int32}
    (isCall : record.call = .split color key) :
    ∃ parts, Gathered system.Stored record.context (pairBytes color key) parts ∧
      ((color = undefinedColor ∧ record.outcome = .ok (.context none)) ∨ (color ≠ undefinedColor ∧
        SubContext record.context (splitRanks parts.flatten record.context.members.length color)
          record.outcome)) := by
  have isRecord := (valid.objects _ _ has).records record (List.mem_of_getElem? posted)
  have accepted : record.call.Accepted record.context := by rw [isCall]; trivial
  rw [Record.Valid, if_pos accepted, isCall] at isRecord
  rcases isRecord with ⟨what, _, rank, part, bound, stored, misfit⟩ | gathered
  · -- A part of another size would be a peer's part of another kind of call.
    have found := marks_of_past posted
    have isMark : record.mark.call = .split color key := isCall
    obtain ⟨peer, mark, isSame⟩ := valid.stored_part order has (valid.level order _) found accepted
      (by rw [isMark]; rfl) rank stored
    have kind := isSame.kind
    rw [isMark] at kind
    have isPart := isSame.isPart
    cases isOther : mark.call <;> rw [isOther] at kind <;> cases kind
    rw [isOther] at isPart
    cases isPart
    simp [pairBytes, intBytes] at misfit
  · exact gathered

theorem System.Reachable.splitsMatch (reachable : System.Reachable undefinedColor size system)
    (order : system.SameOrder) : system.SplitsMatch undefinedColor := by
  have valid : system.Valid system.Stored undefinedColor size := reachable.valid fun _ member => member
  intro process object has n record color key found isCall
  obtain ⟨place, posted, accepted, _, rfl⟩ := Object.place_of_returned found
  have objectValid := valid.objects _ _ has
  have isMark := marks_of_past posted
  have at_place := Object.ledger_of_marks isMark
  have same : record.context.Same object.context := objectValid.at_mark at_place
  obtain ⟨parts, gathered, outcome⟩ := valid.split_gathered order has posted isCall
  have isPart : record.mark.call.part = some (pairBytes color key) := by
    rw [record.mark_call, isCall]
    rfl
  have peers (rank : Nat) (part : Bytes) (at_rank : parts[rank]? = some part) :
      ∃ peer color' key', part = pairBytes color' key' ∧ system.Peer object rank peer ∧
        peer.collectives[object.number place]? = some (.split color' key') := by
    obtain ⟨peer, mark, isSame⟩ := valid.gathered_part order has (valid.level order _) isMark
      accepted isPart gathered at_rank
    have kind := isSame.kind
    rw [record.mark_call, isCall] at kind
    have isTheirs := isSame.isPart
    cases isOther : mark.call <;> rw [isOther] at kind <;> cases kind
    rw [isOther] at isTheirs
    cases isTheirs
    exact ⟨peer, _, _, rfl, isSame.isPeer, isOther ▸ Object.collectives_number isSame.found⟩
  have sized : ∀ part ∈ parts, part.length = 8 := by
    intro part member
    obtain ⟨rank, at_rank⟩ := List.mem_iff_getElem?.mp member
    obtain ⟨_, _, _, rfl, _⟩ := peers rank part at_rank
    simp [pairBytes, intBytes]
  refine ⟨pairAt parts.flatten, fun rank bound => ?_, ?_, ?_⟩
  · have inside : rank < parts.length := by rw [gathered.1, same.members]; exact bound
    have at_rank := List.getElem?_eq_getElem inside
    obtain ⟨peer, color', key', equal, isPeer, called⟩ := peers rank _ at_rank
    rw [equal] at at_rank
    rw [pairAt_flatten sized at_rank]
    exact ⟨peer, isPeer, called⟩
  · exact pairAt_flatten sized
      (valid.own_part order has (valid.level order _) isMark accepted isPart gathered)
  · rcases outcome with ⟨undefined, isNull⟩ | ⟨defined, sub⟩
    · rw [if_pos undefined]
      exact isNull
    rw [if_neg defined]
    obtain ⟨ranks, isRanks, isGroup⟩ :=
      splitRanks_isGroup parts.flatten record.context.members.length color
    have mapped : (splitRanks parts.flatten record.context.members.length color).map
        record.context.member = ranks.map fun rank => object.context.members[rank]! := by
      rw [isRanks, List.map_map, ← same.members]
      rfl
    rcases sub with ⟨absent, _⟩ | ⟨_, child, isChild, members, made⟩
    · -- The caller's own rank has the color.
      refine absurd ?_ absent
      have own : (object.context.rank : Int) ∈
          splitRanks parts.flatten record.context.members.length color := by
        have bound := (List.getElem?_eq_some_iff.mp object.context.ranked).1
        refine mem_splitRanks.mpr ⟨object.context.rank, rfl, same.members ▸ bound, ?_⟩
        rw [pairAt_flatten sized
          (valid.own_part order has (valid.level order _) isMark accepted isPart gathered)]
      refine List.mem_map.mpr ⟨_, own, ?_⟩
      have value := (List.getElem?_eq_some_iff.mp record.context.ranked).2
      have bound := (List.getElem?_eq_some_iff.mp record.context.ranked).1
      rw [KeyValueContext.member, ← same.rank, Int.toNat_natCast, getElem!_pos record.context.members _ bound,
        value]
    · have isCreated : record.mark.child = some child := by simp [Record.mark, isChild, created]
      obtain ⟨new, hasNew, isSame, lineage⟩ := reachable.made has isMark isCreated
      obtain ⟨branch, makes⟩ := objectValid.child isMark isCreated
      refine ⟨child, new, ranks, isChild, hasNew, ?_, isSame, same.members ▸ isGroup,
        members.trans mapped, makes.distinct, ?_⟩
      · rw [lineage, record.mark_call, isCall]
        rfl
      · rw [← valid.ranks process object has, ← makes.globalRank]
        exact child.ranked

end Systems

end Libtt.KeyValue

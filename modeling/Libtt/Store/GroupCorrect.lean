import Libtt.Store.ObjectCorrect

/-!
# Keys of a running system

An entry in the store comes from one call of one object: the key spells the path of the object's
context, the rank of its process among the members and the number of the call.
-/
namespace Libtt.KeyValue

open Libtt.Foundation

variable {process process' : Nat} {object object' : Object}

/-- The members of the context at a path. -/
def membersAt (size : Nat) (path : Path) : List Nat :=
  path.foldl Branch.members (List.range size)

theorem membersAt_child (size : Nat) (path : Path) (branch : Branch) :
    membersAt size (path ++ [branch]) = branch.members (membersAt size path) := by
  simp [membersAt]

/-- The collective calls among returned ones. -/
def collectiveMarks (marks : List Mark) : List Mark :=
  marks.filterMap fun mark => (mark.invocation.chosen Call.collective).map fun _ => mark

theorem Object.returned_length (object : Object) :
    object.returned.length = (collectiveMarks object.marks).length := by
  simp only [returned, collectiveMarks, marks, List.filterMap_map]
  rw [← List.filterMap_eq_filter, ← List.length_map (f := Record.mark), List.map_filterMap]
  congr 2
  funext record
  have same : record.mark.invocation = record.invocation := rfl
  cases isChosen : record.invocation.chosen Call.collective <;>
    simp [Option.guard, same, isChosen]

/-- One object made another: the call, its place among the collectives and its color. -/
def Object.Made (parent object : Object) : Prop :=
  ∃ place mark child, parent.marks[place]? = some mark ∧ mark.child = some child ∧
    child.Same object.context ∧
    object.lineage = ((collectiveMarks (parent.marks.take place)).length, mark.call.color) ::
      parent.lineage

section Valid

variable (stored : String → Bytes → Prop) (undefinedColor : Int32) (size : Nat)

/-- A call of an object that owes an entry. -/
structure System.Owner (system : System) (process : Nat) (object : Object) (place : Nat)
    (context : KeyValueContext) (call : Call) (entry : String × Bytes) : Prop where
  has : system.Has process object
  found : object.calls[place]? = some (context, call)
  owed : owedEntry context call = some entry

/-- The invariant of a system. -/
structure System.Valid (system : System) : Prop where
  objects : ∀ process object, system.Has process object → object.Valid stored undefinedColor
  ranks : ∀ process object, system.Has process object → object.context.globalRank = process
  members : ∀ process object, system.Has process object → ∀ path : Path,
    object.context.keyPrefix = path.text → object.context.members = membersAt size path
  prefixes : ∀ process,
    ((system.processes process).map fun object => object.context.keyPrefix).Nodup
  parents : ∀ process object, system.Has process object →
    (object.lineage = [] ∧ object.context.keyPrefix = Path.text []) ∨
      ∃ parent, system.Has process parent ∧ parent.Made object
  wrote : ∀ entry ∈ system.puts, ∃ process object place context call,
    system.Owner process object place context call entry ∧ object.Settled stored place
  present : ∀ key value, system.store key = some value → (key, value) ∈ system.puts
  distinct : (system.puts.map Prod.fst).Nodup

end Valid

variable {stored : String → Bytes → Prop} {undefinedColor : Int32} {size : Nat} {system : System}

/-- A process has one object of a prefix. -/
theorem System.Valid.object_unique (valid : system.Valid stored undefinedColor size)
    (has : system.Has process object) (has' : system.Has process object')
    (same : object.context.keyPrefix = object'.context.keyPrefix) : object = object' :=
  List.inj_on_of_nodup_map (valid.prefixes process) has has' same

/-- The key of a slot of an object that found itself so. -/
theorem key_eq {context context' : KeyValueContext} {path : Path} (same : context.Same context')
    (located : context'.keyPrefix = path.text) (slot : Slot) :
    context.key slot = keyText path slot := by
  rw [KeyValueContext.key, same.keyPrefix, located, keyText_eq]

/-- A key determines the slot, the process, the object and the call that owes it. -/
theorem System.Valid.owner_unique (valid : system.Valid stored undefinedColor size)
    {place place' : Nat} {context context' : KeyValueContext} {call call' : Call} {key : String}
    {value value' : Bytes} (owner : system.Owner process object place context call (key, value))
    (owner' : system.Owner process' object' place' context' call' (key, value')) :
    process = process' ∧ object = object' ∧ place = place' := by
  have objectValid := valid.objects process object owner.has
  have objectValid' := valid.objects process' object' owner'.has
  obtain ⟨path, located⟩ := objectValid.located
  obtain ⟨path', located'⟩ := objectValid'.located
  obtain ⟨⟨slot, bytes⟩, owed, entry⟩ := Option.map_eq_some_iff.mp owner.owed
  obtain ⟨⟨slot', bytes'⟩, owed', entry'⟩ := Option.map_eq_some_iff.mp owner'.owed
  have same := (objectValid.at_call owner.found).1
  have same' := (objectValid'.at_call owner'.found).1
  have keys : keyText path slot = keyText path' slot' := by
    rw [← key_eq same located, ← key_eq same' located', (Prod.mk.inj entry).1, (Prod.mk.inj entry').1]
  obtain ⟨rfl, rfl⟩ := keyText_injective keys
  -- The slot names the rank of its writer, and the path the members.
  have ranks : (context.rank : Int) = context'.rank := by
    rw [← (owes_slot owed).2.1, ← (owes_slot owed').2.1]
  have members : context.members = context'.members := by
    rw [same.members, same'.members, valid.members _ _ owner.has path located,
      valid.members _ _ owner'.has path located']
  have processes : process = process' := by
    have member := context.ranked
    have member' := context'.ranked
    rw [members, show context.rank = context'.rank by omega, member'] at member
    rw [← valid.ranks _ _ owner.has, ← valid.ranks _ _ owner'.has, ← same.globalRank,
      ← same'.globalRank]
    exact (Option.some.inj member).symm
  subst processes
  have objects := valid.object_unique owner.has owner'.has (located.trans located'.symm)
  subst objects
  exact ⟨rfl, rfl, objectValid.owes_unique owner.found owner'.found owed owed'⟩

theorem System.start_has (has : (System.start size).Has process object) :
    ∃ context, process < size ∧
      object = ⟨[], context, [], none⟩ ∧ context.members = List.range size ∧
      context.globalRank = process ∧ context.keyPrefix = Path.text [] ∧
      ∀ channel, context.count channel = 0 := by
  by_cases inside : 0 < size ∧ process < size
  · obtain ⟨context, made, members, globalRank, isPrefix, fresh⟩ := makeContext_ok "libtt/control"
      (List.mem_range.mpr inside.2)
    simp only [System.Has, System.start, makeKeyValueContext, if_pos inside, made] at has
    exact ⟨context, inside.2, List.mem_singleton.mp has, members, globalRank, isPrefix, fresh⟩
  · simp only [System.Has, System.start, makeKeyValueContext, if_neg inside] at has
    cases has

theorem System.start_valid : (System.start size).Valid stored undefinedColor size where
  objects process object has := by
    obtain ⟨context, _, rfl, members, _, isPrefix, fresh⟩ := System.start_has has
    refine ⟨⟨[], isPrefix⟩, ?_, by simp [Object.marks], ?_, by simp [Object.marks], by simp, by simp⟩
    · rw [members]
      exact List.nodup_range
    · exact fun channel => fresh channel
  ranks process object has := by
    obtain ⟨context, _, rfl, _, globalRank, _⟩ := System.start_has has
    exact globalRank
  members process object has path located := by
    obtain ⟨context, _, rfl, members, _, isPrefix, _⟩ := System.start_has has
    have root : path = [] := Path.text_injective (located.symm.trans isPrefix)
    rw [members, root]
    rfl
  prefixes process := by
    simp only [System.start]
    split <;> simp
  parents process object has := by
    obtain ⟨context, _, rfl, _, _, isPrefix, _⟩ := System.start_has has
    exact .inl ⟨rfl, isPrefix⟩
  wrote entry member := by cases member
  present key value present := by cases present
  distinct := List.nodup_nil

theorem Object.Extends.refl (object : Object) : object.Extends stored object :=
  ⟨rfl, .refl _, List.prefix_refl _, List.prefix_refl _, fun _ _ settled => settled⟩

/-- A call of an object stays where it is. -/
theorem Object.Extends.found (extends' : object.Extends stored object') {place : Nat}
    {invocation : Invocation} (found : object.calls[place]? = some invocation) :
    object'.calls[place]? = some invocation := by
  obtain ⟨rest, equal⟩ := extends'.calls
  rw [← equal, List.getElem?_append_left (List.getElem?_eq_some_iff.mp found).1, found]

/-- An object goes on having made what it made. -/
theorem Object.Made.extends {parent parent' : Object} (made : parent.Made object)
    (grown : parent.Extends stored parent') (grown' : object.Extends stored object') :
    parent'.Made object' := by
  obtain ⟨place, mark, child, found, isChild, same, lineage⟩ := made
  obtain ⟨rest, equal⟩ := grown.marks
  have bound := (List.getElem?_eq_some_iff.mp found).1
  refine ⟨place, mark, child, ?_, isChild, same.trans grown'.same.symm, ?_⟩
  · rw [← equal, List.getElem?_append_left bound, found]
  · rw [grown'.lineage, lineage, grown.lineage, ← equal,
      List.take_append_of_le_length (Nat.le_of_lt bound)]

/-- An object that a step makes, and the call that made it. -/
theorem Object.Step.child {child : Object} {store : String → Option Bytes}
    {entry : Option (String × Bytes)}
    (step : object.Step undefinedColor store entry object' (some child)) :
    ∃ call, child = object.child call child.context ∧
      object'.marks = object.marks ++ [⟨object.context, call, some child.context⟩] := by
  generalize isChild : some child = child' at step
  cases step with
  | call | act | task => cases isChild
  | @finish call outcome context busy =>
    obtain ⟨made, isMade, equal⟩ := Option.map_eq_some_iff.mp isChild.symm
    subst equal
    exact ⟨call, rfl, by simp [Object.marks, Record.mark, isMade, Object.child]⟩

section Step

variable {process place : Nat} {object object' : Object} {entry : Option (String × Bytes)}
  {child : Option Object}

/-- The system after a step. -/
abbrev System.after (system : System) (process place : Nat) (object' : Object)
    (entry : Option (String × Bytes)) (child : Option Object) : System where
  store := putEntry system.store entry
  puts := system.puts ++ entry.toList
  processes := Function.update system.processes process
    ((system.processes process).set place object' ++ child.toList)

/-- The objects after a step. -/
theorem System.after_has {other : Object}
    (has : (system.after process place object' entry child).Has process' other) :
    (process' = process ∧ other = object') ∨ (process' = process ∧ child = some other) ∨
      system.Has process' other := by
  by_cases here : process' = process
  · subst here
    simp only [Has, Function.update_self, List.mem_append, Option.mem_toList] at has
    rcases has with inside | new
    · rcases List.mem_or_eq_of_mem_set inside with old | equal
      · exact .inr (.inr old)
      · exact .inl ⟨rfl, equal⟩
    · exact .inr (.inl ⟨rfl, new⟩)
  · simp only [Has, Function.update_of_ne here] at has
    exact .inr (.inr has)

/-- The object of a step is there afterwards. -/
theorem System.after_has_self (chosen : (system.processes process)[place]? = some object) :
    (system.after process place object' entry child).Has process object' := by
  have bound := (List.getElem?_eq_some_iff.mp chosen).1
  simp only [Has, Function.update_self, List.mem_append]
  exact .inl (List.mem_set bound object')

/-- So is its new object. -/
theorem System.after_has_child {new : Object} :
    (system.after process place object' entry (some new)).Has process new := by
  simp [Has]

variable (entry child) in
/-- No object goes. -/
theorem System.has_after (chosen : (system.processes process)[place]? = some object)
    (grown : object.Extends stored object') {other : Object} (has : system.Has process' other) :
    ∃ other',
      (system.after process place object' entry child).Has process' other' ∧
        other.Extends stored other' := by
  by_cases here : process' = process
  · subst here
    obtain ⟨place', found⟩ := List.mem_iff_getElem?.mp has
    by_cases same : place = place'
    · subst same
      have equal : object = other := Option.some.inj (chosen.symm.trans found)
      exact ⟨object', System.after_has_self chosen, equal ▸ grown⟩
    · refine ⟨other, ?_, .refl other⟩
      simp only [Has, Function.update_self, List.mem_append]
      exact .inl (List.mem_of_getElem? ((List.getElem?_set_ne same).trans found))
  · refine ⟨other, ?_, .refl other⟩
    simpa only [Has, after, Function.update_of_ne here] using has

section

variable (valid : system.Valid stored undefinedColor size)
  (sound : ∀ key value, system.store key = some value → stored key value)
  (chosen : (system.processes process)[place]? = some object)
include valid sound chosen

section

variable {new : Object} (step : object.Step undefinedColor system.store entry object' (some new))
include step

/-- The object that a step makes: its call, its number and its own invariant. -/
theorem System.Valid.new_object :
    object'.Made new ∧ new.Valid stored undefinedColor ∧ ∃ mark branch,
      object'.marks[object.marks.length]? = some mark ∧ mark.child = some new.context ∧
      object'.Makes object.marks.length mark branch new.context := by
  have has : system.Has process object := List.mem_of_getElem? chosen
  have valid' := Object.Step.valid sound (valid.objects process object has) step
  have grown := Object.Step.extends sound (valid.objects process object has) step
  obtain ⟨call, equal, marks⟩ := step.child
  have found : object'.marks[object.marks.length]? =
      some ⟨object.context, call, some new.context⟩ := by rw [marks]; simp
  obtain ⟨branch, makes⟩ := valid'.child found rfl
  refine ⟨⟨_, _, new.context, found, rfl, .refl _, ?_⟩, ?_, _, branch, found, rfl, makes⟩
  · rw [equal, Object.child, grown.lineage, marks, List.take_left, Object.returned_length]
  · obtain ⟨path, located⟩ := valid'.located
    rw [equal]
    refine ⟨⟨path ++ [branch], ?_⟩, makes.distinct, by simp [Object.marks, Object.child], ?_,
      by simp [Object.marks, Object.child], by simp [Object.child], by simp [Object.child]⟩
    · rw [Path.text_child, ← located]
      exact makes.keyPrefix
    · exact fun channel => makes.fresh channel

/-- A step makes no second object of a prefix. -/
theorem System.Valid.new_prefix {other : Object} (has : system.Has process other) :
    other.context.keyPrefix ≠ new.context.keyPrefix := by
  intro same
  have hasObject : system.Has process object := List.mem_of_getElem? chosen
  have valid' := Object.Step.valid sound (valid.objects process object hasObject) step
  have grown := Object.Step.extends sound (valid.objects process object hasObject) step
  obtain ⟨_, _, mark, branch, found, isChild, makes⟩ := valid.new_object sound chosen step
  obtain ⟨path, located⟩ := valid'.located
  have text : new.context.keyPrefix = Path.text (path ++ [branch]) := by
    rw [makes.keyPrefix, located, Path.text_child]
  rcases valid.parents process other has with ⟨_, root⟩ | ⟨parent, hasParent, made⟩
  · have paths := Path.text_injective (root.symm.trans (same.trans text))
    simp at paths
  · obtain ⟨place', mark', child', found', isChild', sameChild, _⟩ := made
    have parentValid := valid.objects process parent hasParent
    obtain ⟨path', located'⟩ := parentValid.located
    obtain ⟨branch', makes'⟩ := parentValid.child found' isChild'
    have text' : other.context.keyPrefix = Path.text (path' ++ [branch']) := by
      rw [← sameChild.keyPrefix, makes'.keyPrefix, located', Path.text_child]
    have paths := Path.text_injective (text'.symm.trans (same.trans text))
    have parts := List.append_inj' paths rfl
    have parents := valid.object_unique hasParent hasObject (by
      rw [located', ← grown.same.keyPrefix, located, parts.1])
    subst parents
    -- The maker is the object itself, whose earlier calls made other prefixes.
    obtain ⟨rest, equal⟩ := grown.marks
    have bound := (List.getElem?_eq_some_iff.mp found').1
    have found'' : object'.marks[place']? = some mark' := by
      rw [← equal, List.getElem?_append_left bound, found']
    have places := valid'.child_unique found'' found isChild' isChild
      (by rw [sameChild.keyPrefix, same])
    omega

end

/-- Every step keeps the invariant. -/
theorem System.Valid.step (step : object.Step undefinedColor system.store entry object' child) :
    (system.after process place object' entry child).Valid stored undefinedColor size := by
  have has : system.Has process object := List.mem_of_getElem? chosen
  have objectValid := valid.objects process object has
  have valid' := Object.Step.valid sound objectValid step
  have grown := Object.Step.extends sound objectValid step
  have members' : ∀ path : Path, object'.context.keyPrefix = path.text →
      object'.context.members = membersAt size path := fun path located =>
    grown.same.members.trans
      (valid.members process object has path (grown.same.keyPrefix.symm.trans located))
  have ranks' : object'.context.globalRank = process :=
    grown.same.globalRank.trans (valid.ranks process object has)
  constructor
  case objects =>
    intro process' other has'
    rcases System.after_has has' with ⟨_, rfl⟩ | ⟨_, rfl⟩ | old
    · exact valid'
    · exact (valid.new_object sound chosen step).2.1
    · exact valid.objects process' other old
  case ranks =>
    intro process' other has'
    rcases System.after_has has' with ⟨rfl, rfl⟩ | ⟨rfl, rfl⟩ | old
    · exact ranks'
    · obtain ⟨_, _, mark, branch, _, _, makes⟩ := valid.new_object sound chosen step
      exact makes.globalRank.trans ranks'
    · exact valid.ranks process' other old
  case members =>
    intro process' other has' path located
    rcases System.after_has has' with ⟨rfl, rfl⟩ | ⟨rfl, rfl⟩ | old
    · exact members' path located
    · obtain ⟨_, _, mark, branch, _, _, makes⟩ := valid.new_object sound chosen step
      obtain ⟨path', located'⟩ := valid'.located
      have paths : path = path' ++ [branch] := Path.text_injective (by
        rw [← located, makes.keyPrefix, located', Path.text_child])
      rw [makes.members, members' path' located', paths, membersAt_child]
    · exact valid.members process' other old path located
  case prefixes =>
    intro process'
    by_cases here : process' = process
    case neg => simpa only [Function.update_of_ne here] using valid.prefixes process'
    subst here
    have bound := (List.getElem?_eq_some_iff.mp chosen).1
    have value := (List.getElem?_eq_some_iff.mp chosen).2
    have kept : ((system.processes process').set place object').map
        (fun object => object.context.keyPrefix) =
        (system.processes process').map fun object => object.context.keyPrefix := by
      rw [List.map_set, grown.same.keyPrefix]
      conv_rhs => rw [← @List.set_getElem_self _ ((system.processes process').map fun object =>
        object.context.keyPrefix) _ (by simpa using bound)]
      simp [value]
    simp only [Function.update_self, List.map_append, kept]
    cases child with
    | none => simpa using valid.prefixes process'
    | some new =>
      refine List.nodup_append.mpr ⟨valid.prefixes process', by simp, ?_⟩
      intro text inside text' single same
      obtain ⟨other, isOther, rfl⟩ := List.mem_map.mp inside
      have isNew : text' = new.context.keyPrefix := by simpa using single
      exact valid.new_prefix sound chosen step isOther (same.trans isNew)
  case parents =>
    intro process' other has'
    have keeps {process' : Nat} {other other' : Object} (old : system.Has process' other)
        (extends' : other.Extends stored other') :
        (other'.lineage = [] ∧ other'.context.keyPrefix = Path.text []) ∨
          ∃ parent, (system.after process place object' entry child).Has process' parent ∧
            parent.Made other' := by
      rcases valid.parents process' other old with ⟨lineage, root⟩ | ⟨parent, hasParent, made⟩
      · exact .inl ⟨extends'.lineage.trans lineage, extends'.same.keyPrefix.trans root⟩
      · obtain ⟨parent', hasParent', grownParent⟩ :=
          System.has_after entry child chosen grown hasParent
        exact .inr ⟨parent', hasParent', made.extends grownParent extends'⟩
    rcases System.after_has has' with ⟨rfl, rfl⟩ | ⟨rfl, rfl⟩ | old
    · exact keeps has grown
    · exact .inr ⟨object', System.after_has_self chosen, (valid.new_object sound chosen step).1⟩
    · exact keeps old (.refl other)
  case wrote =>
    intro entry' member
    rcases List.mem_append.mp member with old | new
    · obtain ⟨process', other, place', context, call, owner, settled⟩ := valid.wrote entry' old
      obtain ⟨other', has', grown'⟩ :=
        System.has_after entry child chosen grown owner.has
      exact ⟨process', other', place', context, call, ⟨has', grown'.found owner.found, owner.owed⟩,
        grown'.settled place' (List.getElem?_eq_some_iff.mp owner.found).1 settled⟩
    · rw [Option.mem_toList.mp new] at step
      obtain ⟨place', context, call, found, owed, _, settled⟩ := step.entry objectValid
      exact ⟨process, object', place', context, call,
        ⟨System.after_has_self chosen, grown.found found, owed⟩, settled⟩
  case present =>
    intro key value isPresent
    cases entry with
    | none => exact List.mem_append_left _ (valid.present key value isPresent)
    | some entry =>
      by_cases same : key = entry.1
      · subst same
        have equal : entry.2 = value := by simpa [putEntry] using isPresent
        subst equal
        simp
      · have isOld : system.store key = some value := by
          simpa [putEntry, Function.update_of_ne same] using isPresent
        exact List.mem_append_left _ (valid.present key value isOld)
  case distinct =>
    cases entry with
    | none => simpa using valid.distinct
    | some entry =>
      rw [List.map_append, List.nodup_append]
      refine ⟨valid.distinct, by simp, ?_⟩
      intro key inside key' single same
      obtain ⟨entry', old, rfl⟩ := List.mem_map.mp inside
      have isKey : key' = entry.1 := by simpa using single
      obtain ⟨place', context, call, found, owed, unsettled, _⟩ := step.entry objectValid
      obtain ⟨process'', other, place'', context', call', owner, settled⟩ := valid.wrote entry' old
      have owner' : system.Owner process object place' context call (entry'.1, entry.2) :=
        ⟨has, found, by rw [owed, same, isKey]⟩
      obtain ⟨_, rfl, rfl⟩ := valid.owner_unique owner owner'
      exact unsettled settled

end

end Step

/-- The invariant of every reachable system, for anything that is true of its puts. -/
theorem System.Reachable.valid (reachable : System.Reachable undefinedColor size system)
    (sound : ∀ entry ∈ system.puts, stored entry.1 entry.2) :
    system.Valid stored undefinedColor size := by
  induction reachable with
  | start => exact System.start_valid
  | @step system system' reachable taken ih =>
    obtain ⟨chosen, step⟩ := taken
    have earlier : ∀ entry ∈ system.puts, stored entry.1 entry.2 := fun entry member =>
      sound entry (List.mem_append_left _ member)
    have valid := ih earlier
    exact valid.step (fun key value present => earlier _ (valid.present key value present)) chosen
      step

end Libtt.KeyValue

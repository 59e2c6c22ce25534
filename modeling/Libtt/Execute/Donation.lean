import Mathlib.Data.List.Nodup
import Mathlib.Data.List.Pairwise
import Libtt.Foundation.Loop

/-!
# Buffer donation

An execution checks its input buffers, runs, and marks the buffers it was given as donations
deleted (`loaded_executable_instance.cc` after all patches to it). The check and the deletions
run over a set of argument positions, visited in any order; a buffer may stand in several
positions and on several devices.
-/
namespace Libtt.Execute

open Libtt.Foundation

/-- The values of `tt_pjrt_status` that an execution returns. -/
inductive Status
  | success
  | internal
  | invalidArgument
  deriving DecidableEq, Repr

/-- The attributes of an argument of `main` that donate it. -/
structure ArgAttrs where
  /-- Whether `tf.aliasing_output` is an integer attribute. -/
  aliasingOutput : Bool
  /-- `jax.buffer_donor`, where it is a boolean attribute. -/
  bufferDonor : Option Bool
  deriving DecidableEq, Repr

def ArgAttrs.donates (attrs : ArgAttrs) : Bool :=
  attrs.aliasingOutput || attrs.bufferDonor = some true

/-- `collectDonatableInputIndices`, where the module may have no `main`. -/
def collectDonatableInputIndices (main : Option (List ArgAttrs)) : List Nat :=
  match main with
  | none => []
  | some arguments =>
    (List.range arguments.length).filter fun i => arguments[i]?.any ArgAttrs.donates

/-- The fields of `PJRT_ExecuteOptions` that donation reads. -/
structure ExecuteOptions where
  structSize : Nat
  nonDonatableInputIndices : List Int
  deriving DecidableEq, Repr

/-- `PJRT_STRUCT_SIZE(PJRT_ExecuteOptions, num_non_donatable_input_indices)`. -/
structure OptionsLayout where
  nonDonatableSize : Nat

/-- `PJRT_LoadedExecutable_Execute_Args`. The lists are raw arrays, so that every index has some
buffer. -/
structure ExecuteArgs (β : Type) where
  options : Option ExecuteOptions
  numDevices : Nat
  numArgs : Nat
  argumentLists : Nat → Nat → β

/-- The order in which an unordered set of indices is visited. -/
structure HashOrder where
  visit : List Nat → List Nat
  perm (indices : List Nat) : (visit indices).Perm indices

section Model

variable (layout : OptionsLayout) (order : HashOrder)

/-- The indices of an unordered set after `erase` of each listed index that is not negative. -/
def eraseListed (donated : List Nat) (listed : List Int) : List Nat :=
  listed.foldl (fun donated index => if index ≥ 0 then donated.erase index.toNat else donated)
    donated

/-- The donated indices that `validateInputBuffers` computes. -/
def effectiveDonations (candidates : List Nat) (options : Option ExecuteOptions) : List Nat :=
  let donated := candidates.foldl (fun donated index => donated.insert index) []
  match options with
  | none => donated
  | some options =>
    if options.structSize ≥ layout.nonDonatableSize then
      eraseListed donated options.nonDonatableInputIndices
    else donated

variable {β : Type} [DecidableEq β] (args : ExecuteArgs β)

/-- The buffers of the donated positions of a device, which have to differ. -/
def insertDonated (device : Nat) : List Nat → List β → Except String (List β)
  | [], buffers => .ok buffers
  | index :: indices, buffers =>
    let buffer := args.argumentLists device index
    if buffer ∈ buffers then
      .error s!"Input buffer {index} on device {device} is donated twice"
    else insertDonated device indices (buffer :: buffers)

/-- The check of the inputs of a device, one after another. -/
def checkInputs (deleted : β → Bool) (donated : List Nat) (buffers : List β) (device : Nat) :
    List Nat → Except String Unit
  | [] => .ok ()
  | index :: indices =>
    let buffer := args.argumentLists device index
    if deleted buffer then
      .error s!"Input buffer {index} on device {device} was already deleted"
    else if buffer ∈ buffers ∧ index ∉ donated then
      .error (s!"Input buffer {index} on device {device} is used in conflicting donated and "
        ++ "non-donated positions")
    else checkInputs deleted donated buffers device indices

/-- The check of the devices, one after another. -/
def checkDevices (deleted : β → Bool) (donated : List Nat) : List Nat → Except String Unit
  | [] => .ok ()
  | device :: devices => do
    let buffers ← insertDonated args device (order.visit donated) []
    checkInputs args deleted donated buffers device (List.range args.numArgs)
    checkDevices deleted donated devices

/-- `validateInputBuffers`, with the message it logs where it fails. -/
def validateInputBuffers (candidates : List Nat) (deleted : β → Bool) :
    Except String (List Nat) := do
  let donated := effectiveDonations layout candidates args.options
  checkDevices order args deleted donated (List.range args.numDevices)
  return donated

/-- `deleteData`. -/
def deleteData (deleted : β → Bool) (buffer : β) : β → Bool := Function.update deleted buffer true

/-- `invalidateDonatedInputs`. -/
def invalidateDonatedInputs (donated : List Nat) (deleted : β → Bool) : β → Bool :=
  (order.visit donated).foldl (fun deleted index =>
    if index ≥ args.numArgs then deleted
    else (List.range args.numDevices).foldl
      (fun deleted device => deleteData deleted (args.argumentLists device index)) deleted) deleted

/-- Which buffers have their data deleted, beside the rest of the runtime. -/
structure World (ω β : Type) where
  deleted : β → Bool
  runtime : ω

/-- A loaded executable. -/
structure LoadedExecutable (ω β : Type) where
  main : Option (List ArgAttrs)
  /-- How many devices it was compiled for. -/
  numDevices : Nat
  /-- What an execution does once its inputs are valid: it opens the mesh, lays the inputs out,
  submits the program and fills the output lists in, or throws. -/
  run : ExecuteArgs β → ω → Except String Status × ω

variable {ω : Type} (executable : LoadedExecutable ω β)

/-- `execute`. -/
def LoadedExecutable.execute (world : World ω β) : Except String Status × World ω β :=
  if args.numDevices ≠ executable.numDevices then (.ok .internal, world)
  else
    match validateInputBuffers layout order args (collectDonatableInputIndices executable.main)
        world.deleted with
    | .error _ => (.ok .invalidArgument, world)
    | .ok donated =>
      match executable.run args world.runtime with
      | (.ok .success, runtime) =>
        (.ok .success, ⟨invalidateDonatedInputs order args donated world.deleted, runtime⟩)
      | (result, runtime) => (result, { world with runtime := runtime })

/-- The argument is marked as donated. -/
def LoadedExecutable.Marked (index : Nat) : Prop :=
  ∃ arguments ∈ executable.main, ∃ attrs ∈ arguments[index]?, attrs.donates

/-- The options list the position as one that may not be donated. -/
def ExecuteArgs.NonDonatable (index : Nat) : Prop :=
  ∃ options ∈ args.options, options.structSize ≥ layout.nonDonatableSize ∧
    (index : Int) ∈ options.nonDonatableInputIndices

/-- A position of the execution whose buffers are donated. -/
def Donated (index : Nat) : Prop :=
  index < args.numArgs ∧ executable.Marked index ∧ ¬args.NonDonatable layout index

omit [DecidableEq β] in
theorem mem_collectDonatableInputIndices {index : Nat} :
    index ∈ collectDonatableInputIndices executable.main ↔ executable.Marked index := by
  unfold LoadedExecutable.Marked collectDonatableInputIndices
  cases executable.main with
  | none => simp
  | some arguments =>
    simp only [List.mem_filter, List.mem_range, Option.any_eq_true, Option.mem_def,
      Option.some.injEq, exists_eq_left']
    constructor
    · rintro ⟨_, attrs, found, donates⟩
      exact ⟨attrs, found, donates⟩
    · rintro ⟨attrs, found, donates⟩
      exact ⟨(List.getElem?_eq_some_iff.mp found).1, attrs, found, donates⟩

theorem foldl_insert {donated : List Nat} (nodup : donated.Nodup) (candidates : List Nat) :
    (candidates.foldl (fun donated index => donated.insert index) donated).Nodup ∧
      ∀ index, index ∈ candidates.foldl (fun donated index => donated.insert index) donated ↔
        index ∈ candidates ∨ index ∈ donated := by
  induction candidates generalizing donated with
  | nil => exact ⟨nodup, by simp⟩
  | cons first candidates ih =>
    obtain ⟨nodup', mem⟩ := ih nodup.insert
    refine ⟨nodup', fun index => ?_⟩
    rw [List.foldl_cons, mem, List.mem_insert_iff, List.mem_cons]
    tauto

theorem eraseListed_spec {donated : List Nat} (nodup : donated.Nodup) (listed : List Int) :
    (eraseListed donated listed).Nodup ∧
      ∀ index : Nat, index ∈ eraseListed donated listed ↔
        index ∈ donated ∧ (index : Int) ∉ listed := by
  induction listed generalizing donated with
  | nil => exact ⟨nodup, by simp [eraseListed]⟩
  | cons first listed ih =>
    by_cases negative : first ≥ 0
    · have step : eraseListed donated (first :: listed) =
          eraseListed (donated.erase first.toNat) listed := by
        rw [eraseListed, List.foldl_cons, if_pos negative, eraseListed]
      obtain ⟨nodup', mem⟩ := ih (nodup.erase first.toNat)
      refine ⟨step ▸ nodup', fun index => ?_⟩
      have same : index ≠ first.toNat ↔ (index : Int) ≠ first := by omega
      rw [step, mem, nodup.mem_erase_iff, List.mem_cons, same]
      tauto
    · have step : eraseListed donated (first :: listed) = eraseListed donated listed := by
        rw [eraseListed, List.foldl_cons, if_neg negative, eraseListed]
      obtain ⟨nodup', mem⟩ := ih nodup
      refine ⟨step ▸ nodup', fun index => ?_⟩
      have different : (index : Int) ≠ first := by omega
      rw [step, mem, List.mem_cons]
      tauto

omit [DecidableEq β] in
/-- The donated indices are the marked positions that the options do not exclude. -/
theorem mem_effectiveDonations {index : Nat} :
    index ∈ effectiveDonations layout (collectDonatableInputIndices executable.main)
        args.options ↔
      executable.Marked index ∧ ¬args.NonDonatable layout index := by
  obtain ⟨nodup, mem⟩ :=
    foldl_insert List.nodup_nil (collectDonatableInputIndices executable.main)
  have marked := (mem index).trans
    ((or_iff_left List.not_mem_nil).trans (mem_collectDonatableInputIndices executable))
  simp only [effectiveDonations, ExecuteArgs.NonDonatable]
  cases args.options with
  | none => exact marked.trans (by simp)
  | some options =>
    simp only [Option.mem_def, Option.some.injEq, exists_eq_left']
    by_cases wide : options.structSize ≥ layout.nonDonatableSize
    · have mem' := (eraseListed_spec nodup options.nonDonatableInputIndices).2
      simp only [wide, true_and]
      exact (mem' index).trans (and_congr_left' marked)
    · simp only [wide, false_and, not_false_eq_true, and_true]
      exact marked

/-- The donated buffers of a device are collected where they differ. -/
theorem insertDonated_ok {device : Nat} {indices : List Nat} {buffers collected : List β}
    (isOk : insertDonated args device indices buffers = .ok collected) :
    (indices.Pairwise fun first second =>
        args.argumentLists device first ≠ args.argumentLists device second) ∧
      (∀ index ∈ indices, args.argumentLists device index ∉ buffers) ∧
      ∀ buffer, buffer ∈ collected ↔
        buffer ∈ buffers ∨ ∃ index ∈ indices, args.argumentLists device index = buffer := by
  induction indices generalizing buffers with
  | nil =>
    cases isOk
    exact ⟨.nil, nofun, by simp⟩
  | cons first indices ih =>
    rw [insertDonated] at isOk
    split at isOk
    · cases isOk
    · rename_i new
      obtain ⟨distinct, apart, mem⟩ := ih isOk
      refine ⟨.cons (fun index member same => ?_) distinct, fun index member => ?_,
        fun buffer => ?_⟩
      · exact apart index member (same ▸ List.mem_cons_self)
      · rcases List.mem_cons.mp member with equal | member
        · exact equal ▸ new
        · exact fun old => apart index member (List.mem_cons_of_mem _ old)
      · rw [mem, List.mem_cons, List.exists_mem_cons_iff, eq_comm]
        tauto

theorem checkInputs_ok {deleted : β → Bool} {donated indices : List Nat} {buffers : List β}
    {device : Nat} :
    checkInputs args deleted donated buffers device indices = .ok () ↔
      ∀ index ∈ indices, deleted (args.argumentLists device index) = false ∧
        (args.argumentLists device index ∈ buffers → index ∈ donated) := by
  induction indices with
  | nil => exact ⟨fun _ => nofun, fun _ => rfl⟩
  | cons first indices ih =>
    rw [checkInputs, List.forall_mem_cons]
    split
    · simp_all
    · split
      · simp_all
      · rw [ih]
        simp_all

theorem checkDevices_ok {deleted : β → Bool} {donated devices : List Nat}
    (isOk : checkDevices order args deleted donated devices = .ok ()) {device : Nat}
    (member : device ∈ devices) :
    (∀ index < args.numArgs, deleted (args.argumentLists device index) = false) ∧
      ∀ index ∈ donated, ∀ other < args.numArgs, other ≠ index →
        args.argumentLists device index ≠ args.argumentLists device other := by
  induction devices with
  | nil => cases member
  | cons first devices ih =>
    obtain ⟨buffers, inserted, isOk⟩ := bind_eq_ok.mp isOk
    obtain ⟨_, checked, isOk⟩ := bind_eq_ok.mp isOk
    rcases List.mem_cons.mp member with equal | member
    · subst equal
      have perm := order.perm donated
      obtain ⟨distinct, _, mem⟩ := insertDonated_ok args inserted
      have inputs := (checkInputs_ok args).mp checked
      refine ⟨fun index small => (inputs index (List.mem_range.mpr small)).1, ?_⟩
      intro index isDonated other small different same
      have isBuffer : args.argumentLists device other ∈ buffers :=
        (mem _).mpr (.inr ⟨index, perm.mem_iff.mpr isDonated, same⟩)
      have isDonated' := (inputs other (List.mem_range.mpr small)).2 isBuffer
      have symmetric : Std.Symm fun first second =>
          args.argumentLists device first ≠ args.argumentLists device second :=
        ⟨fun _ _ unequal => unequal.symm⟩
      exact distinct.forall (perm.mem_iff.mpr isDonated) (perm.mem_iff.mpr isDonated')
        different.symm same
    · exact ih isOk member

theorem foldl_deleteData (deleted : β → Bool) (buffers : List β) (buffer : β) :
    buffers.foldl deleteData deleted buffer = true ↔ deleted buffer = true ∨ buffer ∈ buffers := by
  induction buffers generalizing deleted with
  | nil => simp
  | cons first buffers ih =>
    rw [List.foldl_cons, ih, deleteData, List.mem_cons]
    by_cases same : buffer = first
    · simp [same]
    · simp [same]

/-- What is deleted after the donations: what was, and the buffers in donated positions. -/
theorem invalidateDonatedInputs_spec (donated : List Nat) (deleted : β → Bool) (buffer : β) :
    invalidateDonatedInputs order args donated deleted buffer = true ↔ deleted buffer = true ∨
      ∃ index ∈ donated, index < args.numArgs ∧
        ∃ device < args.numDevices, args.argumentLists device index = buffer := by
  have visited (indices : List Nat) : indices.foldl (fun deleted index =>
      if index ≥ args.numArgs then deleted
      else (List.range args.numDevices).foldl
        (fun deleted device => deleteData deleted (args.argumentLists device index)) deleted)
      deleted buffer = true ↔ deleted buffer = true ∨ ∃ index ∈ indices, index < args.numArgs ∧
        ∃ device < args.numDevices, args.argumentLists device index = buffer := by
    induction indices generalizing deleted with
    | nil => simp
    | cons first indices ih =>
      rw [List.foldl_cons, ih, List.exists_mem_cons_iff]
      by_cases small : first < args.numArgs
      · have devices := foldl_deleteData deleted
          ((List.range args.numDevices).map fun device => args.argumentLists device first) buffer
        rw [List.foldl_map] at devices
        rw [if_neg (Nat.not_le_of_lt small), devices]
        simp only [List.mem_map, List.mem_range, small, true_and]
        exact or_assoc
      · rw [if_pos (Nat.le_of_not_lt small)]
        simp [small]
  rw [invalidateDonatedInputs, visited]
  simp only [(order.perm donated).mem_iff]

/-- A failed execution deletes nothing, and a successful one deletes what it validated. -/
theorem execute_deleted (world : World ω β) :
    let result := executable.execute layout order args world
    (result.1 ≠ .ok .success → result.2.deleted = world.deleted) ∧
      (result.1 = .ok .success → ∃ donated,
        validateInputBuffers layout order args (collectDonatableInputIndices executable.main)
          world.deleted = .ok donated ∧
        result.2.deleted = invalidateDonatedInputs order args donated world.deleted) := by
  simp only [LoadedExecutable.execute]
  split
  · exact ⟨fun _ => rfl, nofun⟩
  · split
    · exact ⟨fun _ => rfl, nofun⟩
    · rename_i donated valid
      split
      · exact ⟨fun failed => absurd rfl failed, fun _ => ⟨donated, valid, rfl⟩⟩
      · rename_i result runtime failed ran
        exact ⟨fun _ => rfl, fun isOk => absurd isOk failed⟩

/-- Donation is all or nothing: validation succeeds only where no input is deleted and no donated
buffer stands in another position of its device, a successful execution newly deletes the buffers
in donated positions and no others, and an execution that fails deletes nothing. -/
theorem donation_all_or_nothing (world : World ω β) :
    let candidates := collectDonatableInputIndices executable.main
    let result := executable.execute layout order args world
    ((validateInputBuffers layout order args candidates world.deleted).isOk →
      ∀ device < args.numDevices,
        (∀ index < args.numArgs, world.deleted (args.argumentLists device index) = false) ∧
        ∀ index, Donated layout args executable index → ∀ other < args.numArgs, other ≠ index →
          args.argumentLists device index ≠ args.argumentLists device other) ∧
      (result.1 = .ok .success → ∀ buffer,
        (world.deleted buffer = true → result.2.deleted buffer = true) ∧
        (result.2.deleted buffer = true ∧ world.deleted buffer = false ↔
          ∃ index, Donated layout args executable index ∧
            ∃ device < args.numDevices, args.argumentLists device index = buffer)) ∧
      (result.1 ≠ .ok .success → result.2.deleted = world.deleted) := by
  intro candidates result
  have mem {index : Nat} := @mem_effectiveDonations layout _ args _ executable index
  have valid {donated : List Nat} (isOk : validateInputBuffers layout order args candidates
      world.deleted = .ok donated) :
      donated = effectiveDonations layout candidates args.options ∧
        ∀ device < args.numDevices,
          (∀ index < args.numArgs, world.deleted (args.argumentLists device index) = false) ∧
          ∀ index ∈ donated, ∀ other < args.numArgs, other ≠ index →
            args.argumentLists device index ≠ args.argumentLists device other := by
    obtain ⟨_, checked, equal⟩ := bind_eq_ok.mp isOk
    cases equal
    exact ⟨rfl, fun device small =>
      checkDevices_ok order args checked (List.mem_range.mpr small)⟩
  refine ⟨fun isOk device small => ?_, fun isOk buffer => ?_, ?_⟩
  · obtain ⟨donated, isOk⟩ := isOk_iff.mp isOk
    obtain ⟨equal, each⟩ := valid isOk
    obtain ⟨live, apart⟩ := each device small
    exact ⟨live, fun index isDonated => apart index (equal ▸ mem.mpr isDonated.2)⟩
  · obtain ⟨donated, isValid, deleted⟩ :=
      (execute_deleted layout order args executable world).2 isOk
    obtain ⟨equal, each⟩ := valid isValid
    have spec := invalidateDonatedInputs_spec order args donated world.deleted buffer
    rw [← deleted] at spec
    refine ⟨fun was => spec.mpr (.inl was), ?_⟩
    constructor
    · rintro ⟨after, before⟩
      rcases spec.mp after with was | ⟨index, member, small, position⟩
      · rw [before] at was
        cases was
      · exact ⟨index, ⟨small, mem.mp (equal ▸ member)⟩, position⟩
    · rintro ⟨index, ⟨small, isDonated⟩, device, isDevice, rfl⟩
      refine ⟨spec.mpr (.inr ⟨index, equal ▸ mem.mpr isDonated, small, device, isDevice,
        rfl⟩), ?_⟩
      exact (each device isDevice).1 index small
  · exact (execute_deleted layout order args executable world).1

/-- A call of `execute`. -/
structure Execution (ω β : Type) where
  executable : LoadedExecutable ω β
  args : ExecuteArgs β

/-- The buffer stands in a position of the execution. -/
def Execution.Uses (execution : Execution ω β) (buffer : β) : Prop :=
  ∃ device < execution.args.numDevices, ∃ index < execution.args.numArgs,
    execution.args.argumentLists device index = buffer

/-- The buffer stands in a donated position of the execution. -/
def Execution.Donates (execution : Execution ω β) (buffer : β) : Prop :=
  ∃ device < execution.args.numDevices, ∃ index,
    Donated layout execution.args execution.executable index ∧
      execution.args.argumentLists device index = buffer

/-- The executions that succeed when they are called one after another. -/
def successes (world : World ω β) : List (Execution ω β) → List (Execution ω β)
  | [] => []
  | execution :: executions =>
    match execution.executable.execute layout order execution.args world with
    | (.ok .success, world) => execution :: successes world executions
    | (_, world) => successes world executions

/-- A successful execution used live buffers, and the donated ones are deleted then. -/
theorem execute_success {world after : World ω β}
    (isOk : executable.execute layout order args world = (.ok .success, after)) :
    (∀ buffer, (Execution.mk executable args).Uses buffer → world.deleted buffer = false) ∧
      (∀ buffer, (Execution.mk executable args).Donates layout buffer →
        after.deleted buffer = true) := by
  obtain ⟨donated, valid, deleted⟩ :=
    (execute_deleted layout order args executable world).2 (by rw [isOk])
  rw [isOk] at deleted
  obtain ⟨_, checked, equal⟩ := bind_eq_ok.mp valid
  cases equal
  constructor
  · rintro buffer ⟨device, isDevice, index, isIndex, rfl⟩
    exact (checkDevices_ok order args checked (List.mem_range.mpr isDevice)).1 index isIndex
  · rintro buffer ⟨device, isDevice, index, ⟨isIndex, isDonated⟩, same⟩
    rw [deleted, invalidateDonatedInputs_spec]
    exact .inr ⟨index, (mem_effectiveDonations layout args executable).mpr isDonated, isIndex,
      device, isDevice, same⟩

/-- No execution brings a buffer back. -/
theorem execute_keeps_deleted {world after : World ω β} {result : Except String Status}
    (executed : executable.execute layout order args world = (result, after)) {buffer : β}
    (was : world.deleted buffer = true) : after.deleted buffer = true := by
  have spec := execute_deleted layout order args executable world
  simp only [executed] at spec
  by_cases isOk : result = .ok .success
  · obtain ⟨donated, -, deleted⟩ := spec.2 isOk
    rw [deleted, invalidateDonatedInputs_spec]
    exact .inl was
  · rw [spec.1 isOk]
    exact was

/-- Of executions called one after another on shared buffers, with any executables, arguments and
outcomes, one that succeeds uses no buffer that was deleted before or that an earlier successful
one was donated. -/
theorem donated_buffers_are_never_reused (executions : List (Execution ω β)) (world : World ω β) :
    (∀ execution ∈ successes layout order world executions, ∀ buffer,
      execution.Uses buffer → world.deleted buffer = false) ∧
    (successes layout order world executions).Pairwise fun earlier later =>
      ∀ buffer, earlier.Donates layout buffer → ¬later.Uses buffer := by
  induction executions generalizing world with
  | nil => exact ⟨fun _ member => (List.not_mem_nil member).elim, .nil⟩
  | cons first executions ih =>
    have live {result after} (executed : first.executable.execute layout order first.args world =
        (result, after)) : ∀ execution ∈ successes layout order after executions, ∀ buffer,
          execution.Uses buffer → world.deleted buffer = false := by
      intro execution member buffer uses
      by_contra gone
      have deleted := execute_keeps_deleted layout order first.args first.executable executed
        (by simpa using gone)
      rw [(ih after).1 execution member buffer uses] at deleted
      cases deleted
    rw [successes]
    split
    · rename_i after isOk
      obtain ⟨used, donated⟩ := execute_success layout order first.args first.executable isOk
      refine ⟨List.forall_mem_cons.mpr ⟨used, live isOk⟩, .cons ?_ (ih after).2⟩
      intro later member buffer donates uses
      have deleted := donated buffer donates
      rw [(ih after).1 later member buffer uses] at deleted
      cases deleted
    · rename_i after _ executed
      exact ⟨live executed, (ih after).2⟩

end Model

end Libtt.Execute

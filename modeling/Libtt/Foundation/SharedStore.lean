import Mathlib.Logic.Relation
import Libtt.Foundation.Interaction

/-!
# Programs side by side on one store

Each participant runs its own program, and the programs take steps against one store in any order.
-/
namespace Libtt.Foundation

/-- The store and what each participant still has to do. -/
structure SharedStore (Participant Key Value α : Type) where
  store : Key → Option Value
  program : Participant → Action Key Value α

namespace Action

variable {Key Value α : Type}

/-- The weakest precondition of `post` for a program that puts only `stored` entries. -/
def Keeps (stored : Key → Value → Prop) (post : α → Prop) : Action Key Value α → Prop
  | done result => post result
  | put key value next => stored key value ∧ next.Keeps stored post
  | get key next => ∀ value, stored key value → (next value).Keeps stored post

variable {stored : Key → Value → Prop} {post : α → Prop} {action next : Action Key Value α}

/-- The result, where the program has ended. -/
def result? : Action Key Value α → Option α
  | done result => some result
  | put _ _ _ | get _ _ => none

theorem eq_done_of_result? {result : α} (ended : action.result? = some result) :
    action = done result := by
  cases action with
  | done other => rw [Option.some.inj ended]
  | put key value next => cases ended
  | get key next => cases ended

/-- A weaker postcondition. -/
theorem Keeps.weaken {middle : α → Prop} (keeps : action.Keeps stored middle)
    (implies : ∀ result, middle result → post result) : action.Keeps stored post := by
  induction action with
  | done result => exact implies result keeps
  | put key value next ih => exact ⟨keeps.1, ih keeps.2⟩
  | get key next ih => exact fun value isStored => ih value (keeps value isStored)

/-- A step keeps the precondition, and the entry that it puts satisfies the fact. -/
theorem Keeps.step {store : Key → Option Value} {entry : Option (Key × Value)}
    (sound : ∀ key value, store key = some value → stored key value)
    (keeps : action.Keeps stored post) (step : action.Step store entry next) :
    (∀ key value, entry = some (key, value) → stored key value) ∧ next.Keeps stored post := by
  cases step with
  | put =>
    constructor
    · rintro key value ⟨⟩
      exact keeps.1
    · exact keeps.2
  | get present =>
    constructor
    · rintro key value ⟨⟩
    · exact keeps _ (sound _ _ present)

end Action

namespace SharedStore

variable {Participant Key Value α : Type} [DecidableEq Participant] [DecidableEq Key]

/-- The store after a put. -/
def putEntry (store : Key → Option Value) : Option (Key × Value) → Key → Option Value
  | none => store
  | some entry => Function.update store entry.1 (some entry.2)

/-- One step of one participant. -/
inductive Step (system : SharedStore Participant Key Value α) :
    SharedStore Participant Key Value α → Prop where
  | step (participant : Participant) {entry : Option (Key × Value)} {next : Action Key Value α}
      (taken : (system.program participant).Step system.store entry next) :
      Step system
        ⟨putEntry system.store entry, Function.update system.program participant next⟩

/-- No entries yet. -/
def start (program : Participant → Action Key Value α) : SharedStore Participant Key Value α :=
  ⟨fun _ => none, program⟩

/-- What some programs reach in any order of steps. -/
def Reachable (program : Participant → Action Key Value α)
    (system : SharedStore Participant Key Value α) : Prop :=
  Relation.ReflTransGen Step (start program) system

/-- The entries satisfy a fact, and the programs do their part. -/
structure Keeps (stored : Key → Value → Prop) (post : Participant → α → Prop)
    (system : SharedStore Participant Key Value α) : Prop where
  entries : ∀ key value, system.store key = some value → stored key value
  programs : ∀ participant, (system.program participant).Keeps stored (post participant)

variable {stored : Key → Value → Prop} {post : Participant → α → Prop}
  {system next : SharedStore Participant Key Value α}

theorem Keeps.step (keeps : system.Keeps stored post) (step : system.Step next) :
    next.Keeps stored post := by
  cases step with
  | step participant taken =>
    obtain ⟨puts, continues⟩ := (keeps.programs participant).step keeps.entries taken
    constructor
    · intro key value present
      rename_i entry _
      cases entry with
      | none => exact keeps.entries key value present
      | some entry =>
        dsimp only [putEntry] at present
        by_cases same : key = entry.1
        · rw [same, Function.update_self] at present
          rw [same, ← Option.some.inj present]
          exact puts entry.1 entry.2 rfl
        · rw [Function.update_of_ne same] at present
          exact keeps.entries key value present
    · intro other
      dsimp only
      by_cases same : other = participant
      · rw [same, Function.update_self]
        exact continues
      · rw [Function.update_of_ne same]
        exact keeps.programs other

/-- Along every run. -/
theorem Reachable.keeps {program : Participant → Action Key Value α}
    (starts : ∀ participant, (program participant).Keeps stored (post participant))
    (reachable : Reachable program system) : system.Keeps stored post := by
  induction reachable with
  | refl =>
    constructor
    · intro key value present
      cases present
    · exact starts
  | tail _ step ih => exact ih.step step

/-- One step of a participant, if it can take it. -/
def advance (system : SharedStore Participant Key Value α) (participant : Participant) :
    Option (SharedStore Participant Key Value α) :=
  ((system.program participant).advance system.store).map fun (entry, next) =>
    ⟨putEntry system.store entry, Function.update system.program participant next⟩

/-- Participants that take steps in turn. -/
def run (system : SharedStore Participant Key Value α) :
    List Participant → Option (SharedStore Participant Key Value α)
  | [] => some system
  | participant :: turns => (system.advance participant).bind fun next => next.run turns

theorem step_of_advance {participant : Participant}
    (taken : system.advance participant = some next) : system.Step next := by
  obtain ⟨⟨entry, action⟩, advanced, rfl⟩ := Option.map_eq_some_iff.mp taken
  exact .step participant (Action.step_of_advance advanced)

/-- What is computed is reached. -/
theorem reaches_of_run {turns : List Participant} (ran : system.run turns = some next) :
    Relation.ReflTransGen Step system next := by
  induction turns generalizing system with
  | nil =>
    cases ran
    exact .refl
  | cons participant turns ih =>
    obtain ⟨middle, taken, rest⟩ := Option.bind_eq_some_iff.mp ran
    exact (Relation.ReflTransGen.single (step_of_advance taken)).trans (ih rest)

end SharedStore

end Libtt.Foundation

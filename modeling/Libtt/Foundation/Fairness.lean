import Mathlib.Data.Finset.Card

/-!
# Systems of actions, and their fair runs

A system takes one action at a time, where the action is possible. An invariant holds in every
reachable state.
-/
namespace Libtt.Foundation

variable {σ α τ : Type} {step : σ → α → Option σ}

/-- The states that actions lead to. -/
inductive Reaches (step : σ → α → Option σ) (start : σ) : σ → Prop where
  | here : Reaches step start start
  | step {state next : σ} (before : Reaches step start state) (action : α)
      (taken : step state action = some next) : Reaches step start next

/-- What every action keeps. -/
def Keeps (step : σ → α → Option σ) (invariant : σ → Prop) : Prop :=
  ∀ state action next, invariant state → step state action = some next → invariant next

theorem Reaches.holds {invariant : σ → Prop} {start state : σ} (kept : Keeps step invariant)
    (initially : invariant start) (reached : Reaches step start state) : invariant state := by
  induction reached with
  | here => exact initially
  | step _ action taken ih => exact kept _ action _ ih taken

/-- The action is possible. -/
def Enabled (step : σ → α → Option σ) (state : σ) (action : α) : Prop :=
  (step state action).isSome

/-- What one turn of an endless run does: an action, or nothing. -/
def Turn (step : σ → α → Option σ) (state : σ) : Option α → σ → Prop
  | none, next => next = state
  | some action, next => step state action = some next

/-- An endless run. -/
structure Run (step : σ → α → Option σ) where
  state : Nat → σ
  taken : Nat → Option α
  turn : ∀ time, Turn step (state time) (taken time) (state (time + 1))

namespace Run

variable {invariant : σ → Prop} {run : Run step} {action : α}

/-- An action that stays possible is taken. -/
def Fair (run : Run step) (action : α) : Prop :=
  ∀ time, (∀ later ≥ time, Enabled step (run.state later) action) →
    ∃ later ≥ time, run.taken later = some action

theorem next_of_taken {time : Nat} (taken : run.taken time = some action) :
    step (run.state time) action = some (run.state (time + 1)) := by
  have turn := run.turn time
  rw [taken] at turn
  exact turn

theorem next_of_rest {time : Nat} (rests : run.taken time = none) :
    run.state (time + 1) = run.state time := by
  have turn := run.turn time
  rw [rests] at turn
  exact turn

/-- A property of states that the actions keep from one turn to the next. -/
theorem kept_by_turn {holds : σ → Prop} {time : Nat} (now : holds (run.state time))
    (kept : ∀ action, run.taken time = some action →
      step (run.state time) action = some (run.state (time + 1)) → holds (run.state (time + 1))) :
    holds (run.state (time + 1)) := by
  cases taken : run.taken time with
  | none =>
    rw [next_of_rest taken]
    exact now
  | some action => exact kept action taken (next_of_taken taken)

/-- An invariant, from any time on. -/
theorem holds_from (kept : Keeps step invariant) {time later : Nat} (order : time ≤ later)
    (now : invariant (run.state time)) : invariant (run.state later) := by
  induction later, order using Nat.le_induction with
  | base => exact now
  | succ later order ih =>
    exact kept_by_turn ih fun action _ next => kept _ action _ ih next

theorem reaches (run : Run step) {time later : Nat} (order : time ≤ later) :
    Reaches step (run.state time) (run.state later) := by
  induction later, order using Nat.le_induction with
  | base => exact .here
  | succ later order ih =>
    exact kept_by_turn ih fun action _ next => ih.step action next

/-- An action that is possible while its task is urged is taken while it is. -/
theorem eventually_taken {urged : σ → Prop} (kept : Keeps step invariant)
    (possible : ∀ state, invariant state → urged state → Enabled step state action)
    (persists : ∀ state other next, invariant state → urged state → other ≠ action →
      step state other = some next → urged next)
    (fair : run.Fair action) {time : Nat} (valid : invariant (run.state time))
    (now : urged (run.state time)) :
    ∃ later ≥ time, urged (run.state later) ∧ run.taken later = some action := by
  by_contra never
  have stays : ∀ later ≥ time, urged (run.state later) := by
    intro later order
    induction later, order using Nat.le_induction with
    | base => exact now
    | succ later order ih =>
      refine kept_by_turn ih fun other taken next => ?_
      have different : other ≠ action := by
        rintro rfl
        exact never ⟨later, order, ih, taken⟩
      exact persists _ other _ (holds_from kept order valid) ih different next
  have taken := fair time fun later order =>
    possible _ (holds_from kept order valid) (stays later order)
  obtain ⟨later, order, taken⟩ := taken
  exact never ⟨later, order, stays later order, taken⟩

/-- The state after a list of actions, where an action that is not possible changes nothing. -/
def after (step : σ → α → Option σ) (state : σ) (actions : List α) : σ :=
  actions.foldl (fun state action => (step state action).getD state) state

/-- Every action of the list is possible in its turn. -/
def Plays (step : σ → α → Option σ) : σ → List α → Prop
  | _, [] => True
  | state, action :: rest => (step state action).isSome ∧
      Plays step ((step state action).getD state) rest

instance (step : σ → α → Option σ) : ∀ state actions, Decidable (Plays step state actions)
  | _, [] => inferInstanceAs (Decidable True)
  | state, action :: rest =>
    have := instDecidablePlays step ((step state action).getD state) rest
    inferInstanceAs (Decidable (_ ∧ _))

theorem Plays.next {state : σ} {actions : List α} (plays : Plays step state actions) {time : Nat}
    {action : α} (turn : actions[time]? = some action) :
    step (after step state (actions.take time)) action =
      some (after step state (actions.take (time + 1))) := by
  induction actions generalizing state time with
  | nil => cases turn
  | cons first rest ih =>
    cases time with
    | zero =>
      cases turn
      obtain ⟨next, taken⟩ := Option.isSome_iff_exists.mp plays.1
      simp [after, taken]
    | succ time => exact ih plays.2 turn

/-- The run that plays a list of actions and then rests. -/
def scheduled (state : σ) (actions : List α) (plays : Plays step state actions) : Run step where
  state time := after step state (actions.take time)
  taken time := actions[time]?
  turn time := by
    cases turn : actions[time]? with
    | none =>
      have short := List.getElem?_eq_none_iff.mp turn
      change after step state (actions.take (time + 1)) = after step state (actions.take time)
      rw [List.take_of_length_le short, List.take_of_length_le (Nat.le_succ_of_le short)]
    | some action => exact plays.next turn

/-- A schedule is fair to an action that is not possible at its end. -/
theorem scheduled_fair {state : σ} {actions : List α} (plays : Plays step state actions)
    (ended : (step (after step state actions) action).isNone) :
    (scheduled state actions plays).Fair action := by
  intro time stays
  have enabled := stays (max time actions.length) (Nat.le_max_left _ _)
  change (step (after step state (actions.take _)) action).isSome at enabled
  rw [List.take_of_length_le (Nat.le_max_right _ _), Option.isSome_iff_ne_none] at enabled
  exact absurd (Option.isNone_iff_eq_none.mp ended) enabled

end Run

/-- Tasks that bring a goal about. Each belongs to an action; `done` tasks stay done, an urged
task is possible until its action is taken, which does it, and while the goal is not reached
some task that is not done is urged. -/
structure Progress (step : σ → α → Option σ) (invariant goal : σ → Prop) (tasks : Finset τ)
    (action : τ → α) (done urged : σ → τ → Prop) : Prop where
  kept : Keeps step invariant
  lasting : ∀ state taken next, invariant state → step state taken = some next →
    ∀ task, done state task → done next task
  possible : ∀ state task, invariant state → urged state task → Enabled step state (action task)
  persists : ∀ state task other next, invariant state → urged state task → other ≠ action task →
    step state other = some next → urged next task
  completes : ∀ state task next, invariant state → urged state task →
    step state (action task) = some next → done next task
  urges : ∀ state, invariant state → ¬goal state → ∃ task ∈ tasks, ¬done state task ∧
    urged state task

namespace Progress

open Classical

variable {invariant goal : σ → Prop} {tasks : Finset τ} {action : τ → α} {done urged : σ → τ → Prop}

/-- Done tasks stay done along a run. -/
theorem lasting_from (progress : Progress step invariant goal tasks action done urged)
    {run : Run step} {time later : Nat} (order : time ≤ later)
    (valid : invariant (run.state time)) {task : τ} (already : done (run.state time) task) :
    done (run.state later) task := by
  have both : Keeps step fun state => invariant state ∧ done state task := by
    intro state taken next holds steps
    exact ⟨progress.kept _ _ _ holds.1 steps, progress.lasting _ _ _ holds.1 steps _ holds.2⟩
  exact (Run.holds_from both order ⟨valid, already⟩).2

/-- A run that is fair to the tasks' actions gets to the goal. -/
theorem eventually (progress : Progress step invariant goal tasks action done urged)
    {run : Run step} (fair : ∀ task ∈ tasks, run.Fair (action task)) {time : Nat}
    (valid : invariant (run.state time)) : ∃ later ≥ time, goal (run.state later) := by
  -- By induction on how many tasks are not done.
  generalize size : (tasks.filter fun task => ¬done (run.state time) task).card = remaining
  induction remaining using Nat.strong_induction_on generalizing time with
  | _ remaining ih =>
  by_cases reached : goal (run.state time)
  case pos => exact ⟨time, le_refl time, reached⟩
  obtain ⟨task, member, undone, now⟩ := progress.urges _ valid reached
  obtain ⟨later, order, urgent, taken⟩ := Run.eventually_taken progress.kept (fun state => progress.possible state task)
    (fun state => progress.persists state task) (fair task member) valid now
  have validLater : invariant (run.state later) := Run.holds_from progress.kept order valid
  have completed : done (run.state (later + 1)) task :=
    progress.completes _ _ _ validLater urgent (Run.next_of_taken taken)
  have validNext : invariant (run.state (later + 1)) :=
    progress.kept _ _ _ validLater (Run.next_of_taken taken)
  have fewer : (tasks.filter fun task => ¬done (run.state (later + 1)) task).card < remaining := by
    rw [← size]
    apply Finset.card_lt_card
    refine ⟨fun other isOther => ?_, fun back => ?_⟩
    · rw [Finset.mem_filter] at isOther ⊢
      exact ⟨isOther.1, fun already => isOther.2
        (progress.lasting_from (Nat.le_succ_of_le order) valid already)⟩
    · have absent := back (Finset.mem_filter.mpr ⟨member, undone⟩)
      exact (Finset.mem_filter.mp absent).2 completed
  obtain ⟨last, after, atGoal⟩ := ih _ fewer validNext rfl
  exact ⟨last, by omega, atGoal⟩

end Progress

end Libtt.Foundation

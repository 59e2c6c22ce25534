import Mathlib.Order.Lattice

/-!
# Partial steps, repeated

A step that can fail is run a given number of times, or for as long as a test holds.
-/

namespace Libtt.Foundation

variable {σ τ : Type}
variable {step : σ → Option σ} {state last : σ}

/-- Run a step `count` times. -/
def repeated (step : σ → Option σ) : Nat → σ → Option σ
  | 0, state => some state
  | count + 1, state => (step state).bind (repeated step count)

/-- A counted loop, from what holds before turn `i` to what holds before turn `i + 1`. -/
theorem foldl_range_induct (holds : Nat → σ → Prop) {step : σ → Nat → σ} (count : Nat)
    (start : holds 0 state)
    (turn : ∀ i < count, ∀ state, holds i state → holds (i + 1) (step state i)) :
    holds count ((List.range count).foldl step state) := by
  induction count with
  | zero => exact start
  | succ count ih =>
    rw [List.range_succ, List.foldl_append]
    exact turn count (Nat.lt_succ_self count) _ (ih fun i less => turn i (Nat.lt_succ_of_lt less))

/-- Run a step while a test holds; none when the fuel is used up or either fails. -/
def loop (test : σ → Option Bool) (step : σ → Option σ) : Nat → σ → Option σ
  | 0, _ => none
  | fuel + 1, state =>
    match test state with
    | none => none
    | some false => some state
    | some true => (step state).bind (loop test step fuel)

@[simp] theorem repeated_zero (step : σ → Option σ) (state : σ) :
    repeated step 0 state = some state := rfl

/-- Steps in two rounds. -/
theorem repeated_add (step : σ → Option σ) (first second : Nat) (state : σ) :
    repeated step (first + second) state =
      (repeated step first state).bind (repeated step second) := by
  induction first generalizing state with
  | zero => simp
  | succ first ih =>
    rw [Nat.succ_add, repeated, repeated, Option.bind_assoc]
    congr 1
    funext next
    exact ih next

/-- One more step, at the end. -/
theorem repeated_succ (step : σ → Option σ) (count : Nat) (state : σ) :
    repeated step (count + 1) state = (repeated step count state).bind step := by
  rw [repeated_add]
  congr 1
  funext next
  rw [repeated]
  cases step next <;> rfl

/-- A run of steps has a run of fewer in front of it. -/
theorem repeated_prefix {count fewer : Nat} (run : repeated step count state = some last)
    (less : fewer ≤ count) :
    ∃ middle, repeated step fewer state = some middle := by
  obtain ⟨more, rfl⟩ := Nat.exists_eq_add_of_le less
  rw [repeated_add] at run
  cases middle : repeated step fewer state with
  | none => simp [middle] at run
  | some state => exact ⟨state, rfl⟩

/-- What a step preserves, a run of steps does. -/
theorem repeated_invariant (invariant : σ → Prop)
    (preserved : ∀ state next, invariant state → step state = some next → invariant next)
    {count : Nat} (initially : invariant state) (run : repeated step count state = some last) :
    invariant last := by
  induction count generalizing state with
  | zero =>
    rw [repeated_zero, Option.some.injEq] at run
    exact run ▸ initially
  | succ count ih =>
    rw [repeated, Option.bind_eq_some_iff] at run
    obtain ⟨next, isNext, run⟩ := run
    exact ih (preserved _ _ initially isNext) run

/-- A step that follows another on embedded states follows whole runs of it. -/
theorem repeated_embed {step : σ → Option σ} {other : τ → Option τ} {embed : σ → τ}
    (invariant : σ → Prop)
    (preserved : ∀ state next, invariant state → step state = some next → invariant next)
    (follows : ∀ state next, invariant state → step state = some next →
      other (embed state) = some (embed next))
    {count : Nat} {state last : σ} (initially : invariant state)
    (run : repeated step count state = some last) :
    repeated other count (embed state) = some (embed last) := by
  induction count generalizing state with
  | zero =>
    rw [repeated_zero, Option.some.injEq] at run
    rw [run, repeated_zero]
  | succ count ih =>
    rw [repeated, Option.bind_eq_some_iff] at run
    obtain ⟨next, isNext, run⟩ := run
    rw [repeated, follows state next initially isNext]
    exact ih (preserved _ _ initially isNext) run

/-- A loop whose test and step are those of another, embedded, is that loop, embedded. -/
theorem loop_embed {test : σ → Option Bool} {otherTest : τ → Option Bool} {other : τ → Option τ}
    {embed : σ → τ} (invariant : σ → Prop)
    (preserved : ∀ state next, invariant state → step state = some next → invariant next)
    (tests : ∀ state, invariant state → otherTest (embed state) = test state)
    (follows : ∀ state, invariant state → other (embed state) = (step state).map embed) (fuel : Nat)
    (initially : invariant state) :
    loop otherTest other fuel (embed state) = (loop test step fuel state).map embed := by
  induction fuel generalizing state with
  | zero => rfl
  | succ fuel ih =>
    rw [loop, loop, tests state initially, follows state initially]
    cases test state with
    | none => rfl
    | some holds =>
      cases holds with
      | false => rfl
      | true =>
        cases isNext : step state with
        | none => rfl
        | some next => exact ih (preserved state next initially isNext)

/-- A loop that ended took some number of steps, each after its test held. -/
theorem loop_eq_some {test : σ → Option Bool} {fuel : Nat}
    (run : loop test step fuel state = some last) :
    ∃ count, repeated step count state = some last ∧ test last = some false ∧
      ∀ fewer < count, ∃ middle, repeated step fewer state = some middle ∧
        test middle = some true := by
  induction fuel generalizing state with
  | zero => simp [loop] at run
  | succ fuel ih =>
    rw [loop] at run
    split at run
    · contradiction
    · rename_i fails
      obtain rfl := Option.some.inj run
      exact ⟨0, rfl, fails, fun fewer less => absurd less (Nat.not_lt_zero _)⟩
    · rename_i holds
      rw [Option.bind_eq_some_iff] at run
      obtain ⟨next, isNext, run⟩ := run
      obtain ⟨count, isLast, fails, before⟩ := ih run
      refine ⟨count + 1, by rw [repeated, isNext]; exact isLast, fails, ?_⟩
      intro fewer less
      cases fewer with
      | zero => exact ⟨state, rfl, holds⟩
      | succ fewer =>
        obtain ⟨middle, isMiddle, holds⟩ := before fewer (by omega)
        exact ⟨middle, by rw [repeated, isNext]; exact isMiddle, holds⟩

end Libtt.Foundation

/-! ## Fallible computations -/
namespace Libtt.Foundation

variable {ε α β : Type}

/-- A sequence succeeds where both its parts do. -/
theorem bind_eq_ok {first : Except ε α} {next : α → Except ε β} {result : β} :
    (first >>= next) = .ok result ↔ ∃ value, first = .ok value ∧ next value = .ok result := by
  cases first with
  | error what => exact ⟨nofun, fun ⟨_, isOk, _⟩ => nomatch isOk⟩
  | ok value => exact ⟨fun isOk => ⟨value, rfl, isOk⟩, fun ⟨_, isOk, next⟩ => by cases isOk; exact next⟩

theorem isOk_iff {outcome : Except ε α} : outcome.isOk = true ↔ ∃ value, outcome = .ok value := by
  cases outcome with
  | error what => exact ⟨nofun, fun ⟨_, isOk⟩ => nomatch isOk⟩
  | ok value => exact ⟨fun _ => ⟨value, rfl⟩, fun _ => rfl⟩

end Libtt.Foundation

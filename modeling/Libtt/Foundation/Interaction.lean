import Mathlib.Logic.Function.Basic

/-!
# Programs that use a shared store

A program puts values under keys and waits for keys to be present. What it still has to do is an
`Action`: a tree that ends, puts or gets, and continues. Several programs take steps against one
store in any order, so a value that a program gets is known only by what is true of every value
ever stored under its key.
-/
namespace Libtt.Foundation

/-- What a program still has to do with the store. -/
inductive Action (Key Value α : Type) where
  | done (result : α)
  | put (key : Key) (value : Value) (next : Action Key Value α)
  | get (key : Key) (next : Value → Action Key Value α)

namespace Action

variable {Key Value α β : Type}

/-- Continue with the result. -/
def bind : Action Key Value α → (α → Action Key Value β) → Action Key Value β
  | done result, next => next result
  | put key value rest, next => put key value (rest.bind next)
  | get key rest, next => get key fun value => (rest value).bind next

/-- One step against a store, with the entry it puts. -/
inductive Step (store : Key → Option Value) :
    Action Key Value α → Option (Key × Value) → Action Key Value α → Prop where
  | put {key value next} : Step store (put key value next) (some (key, value)) next
  | get {key value next} (present : store key = some value) :
      Step store (get key next) none (next value)

/-- The step that an action can take, if its store allows one. -/
def advance (store : Key → Option Value) :
    Action Key Value α → Option (Option (Key × Value) × Action Key Value α)
  | done _ => none
  | put key value next => some (some (key, value), next)
  | get key next => (store key).map fun value => (none, next value)

/-- The weakest precondition of `post` when stored values satisfy `stored`, and an entry is owed. -/
def Meets (stored : Key → Value → Prop) (post : α → Prop) :
    Option (Key × Value) → Action Key Value α → Prop
  | _, done result => post result
  | owed, put key value next => owed = some (key, value) ∧ next.Meets stored post none
  | owed, get key next => ∀ value, stored key value → (next value).Meets stored post owed

/-- The program uses `keys` only, and ends within `turns` steps as the postcondition says. -/
def Within (keys : Key → Prop) (post : α → Prop) : Nat → Action Key Value α → Prop
  | _, done result => post result
  | 0, put _ _ _ | 0, get _ _ => False
  | turns + 1, put key _ next => keys key ∧ next.Within keys post turns
  | turns + 1, get key next => keys key ∧ ∀ value, (next value).Within keys post turns

/-- The program puts nothing more. -/
def Silent (stored : Key → Value → Prop) (action : Action Key Value α) : Prop :=
  action.Meets stored (fun _ => True) none

variable {stored : Key → Value → Prop} {post middle : α → Prop} {owed : Option (Key × Value)}
  {action next : Action Key Value α}

@[simp] theorem bind_done (result : α) (rest : α → Action Key Value β) :
    (done result).bind rest = rest result := rfl

@[simp] theorem bind_put (key : Key) (value : Value) (body : Action Key Value α)
    (rest : α → Action Key Value β) :
    (put key value body).bind rest = put key value (body.bind rest) := rfl

@[simp] theorem bind_get (key : Key) (body : Value → Action Key Value α)
    (rest : α → Action Key Value β) :
    (get key body).bind rest = get key fun value => (body value).bind rest := rfl

theorem bind_assoc {γ : Type} (action : Action Key Value α) (first : α → Action Key Value β)
    (second : β → Action Key Value γ) :
    (action.bind first).bind second = action.bind fun result => (first result).bind second := by
  induction action with
  | done result => rfl
  | put key value body ih => rw [bind_put, bind_put, bind_put, ih]
  | get key body ih =>
    simp only [bind_get]
    congr 1
    funext value
    exact ih value

@[simp] theorem meets_done (result : α) :
    (done result : Action Key Value α).Meets stored post owed ↔ post result := by
  cases owed <;> rfl

@[simp] theorem meets_put (key : Key) (value : Value) :
    (put key value next).Meets stored post owed ↔
      owed = some (key, value) ∧ next.Meets stored post none := by
  cases owed <;> rfl

@[simp] theorem meets_get (key : Key) (body : Value → Action Key Value α) :
    (get key body).Meets stored post owed ↔
      ∀ value, stored key value → (body value).Meets stored post owed := by
  cases owed <;> rfl

/-- The computed step is one. -/
theorem step_of_advance {store : Key → Option Value} {entry : Option (Key × Value)}
    (taken : action.advance store = some (entry, next)) : action.Step store entry next := by
  cases action with
  | done result => cases taken
  | put key value rest =>
    cases taken
    exact .put
  | get key rest =>
    obtain ⟨value, present, equal⟩ := Option.map_eq_some_iff.mp taken
    cases equal
    exact .get present

/-- A stronger postcondition. -/
theorem Meets.weaken (met : action.Meets stored middle owed)
    (implies : ∀ result, middle result → post result) : action.Meets stored post owed := by
  induction action generalizing owed with
  | done result => exact (meets_done result).mpr (implies result ((meets_done result).mp met))
  | put key value rest ih =>
    have parts := (meets_put key value).mp met
    exact (meets_put key value).mpr ⟨parts.1, ih parts.2⟩
  | get key rest ih =>
    have branches := (meets_get key rest).mp met
    exact (meets_get key rest).mpr fun value isStored => ih value (branches value isStored)

/-- A continuation that owes nothing runs after a program that may owe an entry. -/
theorem Meets.bind {rest : α → Action Key Value β} {last : β → Prop}
    (met : action.Meets stored middle owed)
    (continues : ∀ result owed, middle result → (rest result).Meets stored last owed) :
    (action.bind rest).Meets stored last owed := by
  induction action generalizing owed with
  | done result => exact continues result owed ((meets_done result).mp met)
  | put key value body ih =>
    have parts := (meets_put key value).mp met
    exact (meets_put key value).mpr ⟨parts.1, ih parts.2⟩
  | get key body ih =>
    have branches := (meets_get key body).mp met
    exact (meets_get key _).mpr fun value isStored => ih value (branches value isStored)

/-- A program that owes nothing is silent. -/
theorem Meets.silent (met : action.Meets stored post none) : action.Silent stored :=
  met.weaken fun _ _ => trivial

/-- A program about to put is not silent. -/
theorem not_silent_put (key : Key) (value : Value) : ¬(put key value next).Silent stored := by
  intro silent
  have owes := ((meets_put key value).mp silent).1
  simp at owes

/-- A step that puts an entry puts the owed one, and nothing is owed afterwards. -/
theorem Meets.step_put {store : Key → Option Value} {entry : Key × Value}
    (met : action.Meets stored post owed) (step : action.Step store (some entry) next) :
    owed = some entry ∧ ¬action.Silent stored ∧ next.Meets stored post none := by
  cases step with
  | put =>
    have parts := (meets_put _ _).mp met
    exact ⟨parts.1, not_silent_put _ _, parts.2⟩

/-- A step that gets a stored value keeps the precondition. -/
theorem Meets.step_get {store : Key → Option Value}
    (sound : ∀ key value, store key = some value → stored key value)
    (met : action.Meets stored post owed) (step : action.Step store none next) :
    next.Meets stored post owed := by
  cases step with
  | get present => exact (meets_get _ _).mp met _ (sound _ _ present)

section Within

variable {keys : Key → Prop} {turns : Nat}

@[simp] theorem within_done (result : α) :
    (done result : Action Key Value α).Within keys post turns ↔ post result := by
  cases turns <;> rfl

@[simp] theorem within_put (key : Key) (value : Value) :
    (put key value next).Within keys post (turns + 1) ↔ keys key ∧ next.Within keys post turns :=
  Iff.rfl

@[simp] theorem within_get (key : Key) (body : Value → Action Key Value α) :
    (get key body).Within keys post (turns + 1) ↔
      keys key ∧ ∀ value, (body value).Within keys post turns := Iff.rfl

/-- More steps, more keys and a weaker postcondition. -/
theorem Within.weaken {keys' : Key → Prop} {turns' : Nat} (within : action.Within keys middle turns)
    (later : turns ≤ turns') (wider : ∀ key, keys key → keys' key)
    (implies : ∀ result, middle result → post result) : action.Within keys' post turns' := by
  induction action generalizing turns turns' with
  | done result => exact (within_done result).mpr (implies result ((within_done result).mp within))
  | put key value rest ih =>
    obtain _ | turns := turns
    · exact within.elim
    obtain _ | turns' := turns'
    · omega
    exact ⟨wider key within.1, ih within.2 (by omega)⟩
  | get key rest ih =>
    obtain _ | turns := turns
    · exact within.elim
    obtain _ | turns' := turns'
    · omega
    exact ⟨wider key within.1, fun value => ih value (within.2 value) (by omega)⟩

/-- The steps of a program and of its continuation. -/
theorem Within.bind {rest : α → Action Key Value β} {last : β → Prop}
    (within : action.Within keys middle turns) (more : Nat)
    (continues : ∀ result, middle result → (rest result).Within keys last more) :
    (action.bind rest).Within keys last (turns + more) := by
  induction action generalizing turns with
  | done result =>
    exact (continues result ((within_done result).mp within)).weaken (by omega) (fun _ => id)
      fun _ => id
  | put key value body ih =>
    obtain _ | turns := turns
    · exact within.elim
    rw [bind_put, show turns + 1 + more = turns + more + 1 by omega]
    exact ⟨within.1, ih within.2⟩
  | get key body ih =>
    obtain _ | turns := turns
    · exact within.elim
    rw [bind_get, show turns + 1 + more = turns + more + 1 by omega]
    exact ⟨within.1, fun value => ih value (within.2 value)⟩

/-- A step puts under one of the keys and leaves fewer steps. -/
theorem Within.step {store : Key → Option Value} {entry : Option (Key × Value)}
    (within : action.Within keys post turns) (step : action.Step store entry next) :
    (∀ put, entry = some put → keys put.1) ∧ ∃ fewer < turns, next.Within keys post fewer := by
  cases step with
  | put =>
    obtain _ | turns := turns
    · exact within.elim
    exact ⟨fun put equal => by cases equal; exact within.1, turns, by omega, within.2⟩
  | get present =>
    obtain _ | turns := turns
    · exact within.elim
    exact ⟨fun put equal => by (cases equal), turns, by omega, within.2 _⟩

/-- A step depends on what the store has under the keys only. -/
theorem Within.step_congr {store store' : Key → Option Value} {entry : Option (Key × Value)}
    (within : action.Within keys post turns) (agree : ∀ key, keys key → store' key = store key)
    (step : action.Step store entry next) : action.Step store' entry next := by
  cases step with
  | put => exact .put
  | get present =>
    obtain _ | turns := turns
    · exact within.elim
    exact .get ((agree _ within.1).trans present)

end Within

end Action

end Libtt.Foundation

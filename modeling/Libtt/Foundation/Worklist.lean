import Libtt.Foundation.Loop
import Mathlib.Data.List.Dedup
import Mathlib.Data.List.Perm.Subperm

/-!
# Worklists

Nodes wait on a stack; each is processed once, and processing may change a state and push further
nodes.
-/
namespace Libtt.Foundation

variable {Node State : Type} [DecidableEq Node]

/-- The nodes to process, the next one first, and those that were processed. -/
structure Worklist (Node State : Type) where
  pending : List Node
  processed : List Node
  state : State

namespace Worklist

/-- Take the next node, and process it unless it was before; none at the end or when it fails. -/
def step (process : Node → State → Option (State × List Node)) (work : Worklist Node State) :
    Option (Worklist Node State) :=
  match work.pending with
  | [] => none
  | node :: pending =>
    if node ∈ work.processed then some { work with pending := pending }
    else (process node work.state).map fun (state, pushed) =>
      ⟨pushed.reverse ++ pending, node :: work.processed, state⟩

variable {process : Node → State → Option (State × List Node)}
  {work next last : Worklist Node State}

theorem step_before {node : Node} {pending processed : List Node} {state : State}
    (before : node ∈ processed) :
    step process ⟨node :: pending, processed, state⟩ = some ⟨pending, processed, state⟩ :=
  if_pos before

theorem step_fresh {node : Node} {pending processed : List Node} {state : State}
    (fresh : node ∉ processed) : step process ⟨node :: pending, processed, state⟩ =
      (process node state).map fun (state, pushed) =>
        ⟨pushed.reverse ++ pending, node :: processed, state⟩ :=
  if_neg fresh

/-- The two ways of a step. -/
theorem step_cases (taken : step process work = some next) :
    ∃ node pending, work.pending = node :: pending ∧
      (node ∈ work.processed ∧ next = { work with pending := pending } ∨
        node ∉ work.processed ∧ ∃ state pushed, process node work.state = some (state, pushed) ∧
          next = ⟨pushed.reverse ++ pending, node :: work.processed, state⟩) := by
  unfold step at taken
  split at taken
  · contradiction
  · rename_i node pending isPending
    refine ⟨node, pending, isPending, ?_⟩
    split at taken
    · rename_i before
      exact .inl ⟨before, (Option.some.inj taken).symm⟩
    · rename_i fresh
      obtain ⟨⟨state, pushed⟩, processes, same⟩ := Option.map_eq_some_iff.mp taken
      exact .inr ⟨fresh, state, pushed, processes, same.symm⟩

/-- What holds of a state and the processed nodes, and what one processed node leads to. -/
structure Explores (process : Node → State → Option (State × List Node))
    (invariant : State → List Node → Prop) (leads : Node → Node → Prop) : Prop where
  keeps : ∀ node state processed state' pushed, invariant state processed → node ∉ processed →
    process node state = some (state', pushed) → invariant state' (node :: processed)
  pushes : ∀ node state processed state' pushed, invariant state processed → node ∉ processed →
    process node state = some (state', pushed) → ∀ other, leads node other → other ∈ pushed

/-- Nodes are processed once, and what processed nodes lead to is processed or waits. -/
structure Explored (invariant : State → List Node → Prop) (leads : Node → Node → Prop)
    (roots : List Node) (work : Worklist Node State) : Prop where
  holds : invariant work.state work.processed
  once : work.processed.Nodup
  roots : ∀ node ∈ roots, node ∈ work.processed ∨ node ∈ work.pending
  led : ∀ node ∈ work.processed, ∀ other, leads node other →
    other ∈ work.processed ∨ other ∈ work.pending

variable {invariant : State → List Node → Prop} {leads : Node → Node → Prop} {roots : List Node}

theorem Explored.step (explores : Explores process invariant leads)
    (explored : Explored invariant leads roots work) (taken : step process work = some next) :
    Explored invariant leads roots next := by
  obtain ⟨node, pending, isPending, ⟨before, rfl⟩ | ⟨fresh, state, pushed, processes, rfl⟩⟩ :=
    step_cases taken
  · have kept {other : Node} (waits : other ∈ work.processed ∨ other ∈ work.pending) :
        other ∈ work.processed ∨ other ∈ pending := by
      rw [isPending, List.mem_cons] at waits
      rcases waits with done | rfl | later
      · exact .inl done
      · exact .inl before
      · exact .inr later
    exact ⟨explored.holds, explored.once, fun other isRoot => kept (explored.roots other isRoot),
      fun other done target leading => kept (explored.led other done target leading)⟩
  · have kept {other : Node} (waits : other ∈ work.processed ∨ other ∈ work.pending) :
        other ∈ node :: work.processed ∨ other ∈ pushed.reverse ++ pending := by
      rw [isPending, List.mem_cons] at waits
      rcases waits with done | rfl | later
      · exact .inl (List.mem_cons_of_mem _ done)
      · exact .inl List.mem_cons_self
      · exact .inr (List.mem_append_right _ later)
    constructor
    · exact explores.keeps _ _ _ _ _ explored.holds fresh processes
    · exact List.nodup_cons.mpr ⟨fresh, explored.once⟩
    · exact fun other isRoot => kept (explored.roots other isRoot)
    · intro other done target leading
      rcases List.mem_cons.mp done with rfl | earlier
      · have isPushed := explores.pushes _ _ _ _ _ explored.holds fresh processes target leading
        exact .inr (List.mem_append_left _ (List.mem_reverse.mpr isPushed))
      · exact kept (explored.led other earlier target leading)

omit [DecidableEq Node] in
/-- At the end every node that the roots lead to is processed. -/
theorem Explored.reached (explored : Explored invariant leads roots work)
    (finished : work.pending = []) {root node : Node} (isRoot : root ∈ roots)
    (reached : Relation.ReflTransGen leads root node) : node ∈ work.processed := by
  have done {other : Node} (waits : other ∈ work.processed ∨ other ∈ work.pending) :
      other ∈ work.processed := by
    rw [finished] at waits
    exact waits.resolve_right List.not_mem_nil
  induction reached with
  | refl => exact done (explored.roots root isRoot)
  | tail _ leading ih => exact done (explored.led _ ih _ leading)

/-- A run ends when everything that is pushed is among finitely many nodes. -/
theorem exists_last {holds : State → Prop} (within : List Node)
    (keeps : ∀ node state state' pushed, holds state →
      process node state = some (state', pushed) → holds state' ∧ pushed ⊆ within)
    (initially : holds work.state) (once : work.processed.Nodup)
    (processed : work.processed ⊆ within) (pending : work.pending ⊆ within) :
    ∃ count last, repeated (step process) count work = some last ∧ step process last = none := by
  -- by the number of nodes that are left, and then by the length of the stack
  induction left : within.length - work.processed.length using Nat.strong_induction_on
    generalizing work with
  | _ left ih =>
    obtain ⟨waiting, done, state⟩ := work
    dsimp only at initially once processed pending left
    induction waiting with
    | nil => exact ⟨0, _, rfl, rfl⟩
    | cons node waiting waitingIh =>
      obtain ⟨isWithin, waitingWithin⟩ := List.cons_subset.mp pending
      by_cases before : node ∈ done
      · obtain ⟨count, last, run, ended⟩ := waitingIh waitingWithin
        refine ⟨count + 1, last, ?_, ended⟩
        rw [repeated, step_before before]
        exact run
      · cases processes : process node state with
        | none =>
          refine ⟨0, _, rfl, ?_⟩
          rw [step_fresh before, processes]
          rfl
        | some result =>
          obtain ⟨state', pushed⟩ := result
          obtain ⟨still, isPushed⟩ := keeps _ _ _ _ initially processes
          have nowOnce : (node :: done).Nodup := List.nodup_cons.mpr ⟨before, once⟩
          have nowWithin : node :: done ⊆ within := List.cons_subset.mpr ⟨isWithin, processed⟩
          have fits := (List.subperm_of_subset nowOnce nowWithin).length_le
          have nowPending : pushed.reverse ++ waiting ⊆ within :=
            List.append_subset.mpr ⟨fun other member => isPushed (List.mem_reverse.mp member),
              waitingWithin⟩
          rw [List.length_cons] at fits
          obtain ⟨count, last, run, ended⟩ := @ih (within.length - (node :: done).length)
            (by rw [List.length_cons]; omega) ⟨pushed.reverse ++ waiting, node :: done, state'⟩
            still nowOnce nowWithin nowPending rfl
          refine ⟨count + 1, last, ?_, ended⟩
          rw [repeated, step_fresh before, processes]
          exact run

end Worklist

end Libtt.Foundation

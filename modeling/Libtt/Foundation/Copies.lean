import Mathlib.Data.List.Induction
import Mathlib.Data.List.Perm.Basic

/-!
# Copies in any order

Copies of single cells complete in any order before a barrier. A cell that no copy is for keeps what
it has.
-/
namespace Libtt.Foundation

variable {Address Byte : Type} [DecidableEq Address]

structure Copy (Address : Type) where
  target : Address
  source : Address
  deriving DecidableEq, Repr

def Copy.run (memory : Address → Byte) (copy : Copy Address) : Address → Byte :=
  Function.update memory copy.target (memory copy.source)

/-- Copies of consecutive cells. -/
def transfer (count : Nat) (target source : Nat → Address) : List (Copy Address) :=
  (List.range count).map fun i => ⟨target i, source i⟩

omit [DecidableEq Address] in
theorem mem_transfer {count : Nat} {target source : Nat → Address} {copy : Copy Address} :
    copy ∈ transfer count target source ↔ ∃ i < count, copy = ⟨target i, source i⟩ := by
  simp only [transfer, List.mem_map, List.mem_range, eq_comm]

/-- What a barrier waits for: each copy has completed, in whichever order. -/
def Completes (copies : List (Copy Address)) (before after : Address → Byte) : Prop :=
  ∃ order : List (Copy Address), order.Perm copies ∧ after = order.foldl Copy.run before

theorem Completes.inOrder (copies : List (Copy Address)) (before : Address → Byte) :
    Completes copies before (copies.foldl Copy.run before) :=
  ⟨copies, .refl copies, rfl⟩

variable {copies : List (Copy Address)} {before after : Address → Byte}

theorem foldl_other {address : Address} (other : ∀ copy ∈ copies, copy.target ≠ address) :
    copies.foldl Copy.run before address = before address := by
  induction copies generalizing before with
  | nil => rfl
  | cons first rest ih =>
    rw [List.foldl_cons, ih fun copy member => other copy (List.mem_cons_of_mem _ member)]
    exact Function.update_of_ne (other first List.mem_cons_self).symm _ _

/-- No other cell is written. -/
theorem Completes.other (completes : Completes copies before after) {address : Address}
    (other : ∀ copy ∈ copies, copy.target ≠ address) : after address = before address := by
  obtain ⟨order, perm, rfl⟩ := completes
  exact foldl_other fun copy member => other copy (perm.mem_iff.mp member)

theorem foldl_copied {copy : Copy Address} (member : copy ∈ copies)
    (single : ∀ other ∈ copies, other.target = copy.target → other.source = copy.source)
    (kept : ∀ other ∈ copies, other.target ≠ copy.source) :
    copies.foldl Copy.run before copy.target = before copy.source := by
  induction copies using List.reverseRecOn with
  | nil => contradiction
  | append_singleton rest last ih =>
    have keptRest : ∀ other ∈ rest, other.target ≠ copy.source :=
      fun other isOther => kept other (List.mem_append_left _ isOther)
    rw [List.foldl_append, List.foldl_cons, List.foldl_nil, Copy.run]
    by_cases same : last.target = copy.target
    · -- The last copy is from the same cell, which still has what it had.
      rw [← same, Function.update_self,
        single last (List.mem_append_right _ (List.mem_singleton_self last)) same]
      exact foldl_other keptRest
    · rw [Function.update_of_ne (Ne.symm same)]
      cases List.mem_append.mp member with
      | inl earlier =>
        exact ih earlier (fun other isOther => single other (List.mem_append_left _ isOther)) keptRest
      | inr isLast =>
        rw [List.mem_singleton.mp isLast] at same
        exact absurd rfl same

/-- A cell that is written has what the source of its copies had. -/
theorem Completes.copied (completes : Completes copies before after) {copy : Copy Address}
    (member : copy ∈ copies)
    (single : ∀ other ∈ copies, other.target = copy.target → other.source = copy.source)
    (kept : ∀ other ∈ copies, other.target ≠ copy.source) :
    after copy.target = before copy.source := by
  obtain ⟨order, perm, rfl⟩ := completes
  apply foldl_copied (perm.mem_iff.mpr member)
  · exact fun other isOther => single other (perm.mem_iff.mp isOther)
  · exact fun other isOther => kept other (perm.mem_iff.mp isOther)

theorem Completes.eq_source (completes : Completes copies before after) {target source : Address}
    (member : ⟨target, source⟩ ∈ copies)
    (single : ∀ other ∈ copies, other.target = target → other.source = source)
    (kept : ∀ other ∈ copies, other.target ≠ source) : after target = before source :=
  completes.copied member single kept

end Libtt.Foundation

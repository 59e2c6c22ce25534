import Mathlib.Order.Lattice
import Mathlib.Tactic.Common

/-!
# The first best of some ranks

Of places with ranks, the one of the highest rank that comes first.
-/
namespace Libtt.Foundation

variable {Rank : Type} [LinearOrder Rank] {rank : Nat → Rank} {count size place other : Nat}

/-- The place has the highest rank, and those before it have lower ones. -/
structure IsFirstBest (rank : Nat → Rank) (count place : Nat) : Prop where
  inside : place < count
  highest : ∀ other < count, rank other ≤ rank place
  first : ∀ other < count, rank other = rank place → place ≤ other

theorem IsFirstBest.unique (isBest : IsFirstBest rank count place)
    (isOther : IsFirstBest rank count other) : place = other := by
  have same : rank place = rank other :=
    le_antisymm (isOther.highest place isBest.inside) (isBest.highest other isOther.inside)
  exact Nat.le_antisymm (isBest.first other isOther.inside same.symm)
    (isOther.first place isBest.inside same)

theorem IsFirstBest.congr {ranks : Nat → Rank} (isBest : IsFirstBest rank count place)
    (same : ∀ other < count, ranks other = rank other) : IsFirstBest ranks count place where
  inside := isBest.inside
  highest other inside := by
    rw [same other inside, same place isBest.inside]
    exact isBest.highest other inside
  first other inside equal := by
    rw [same other inside, same place isBest.inside] at equal
    exact isBest.first other inside equal

/-- The first best of the blocks' first bests is the first best of all. -/
theorem IsFirstBest.blocks {winners : Nat → Nat} {blocks block : Nat}
    (within : ∀ block < blocks, IsFirstBest (fun place => rank (block * size + place)) size
      (winners block))
    (among : IsFirstBest (fun block => rank (block * size + winners block)) blocks block) :
    IsFirstBest rank (blocks * size) (block * size + winners block) := by
  have own := within block among.inside
  have parts : ∀ other < blocks * size, other / size < blocks ∧ other % size < size ∧
      other / size * size + other % size = other := by
    intro other inside
    have positive : 0 < size := Nat.zero_lt_of_lt own.inside
    exact ⟨Nat.div_lt_of_lt_mul (Nat.mul_comm blocks size ▸ inside), Nat.mod_lt _ positive,
      Nat.div_add_mod' other size⟩
  have below : ∀ other < blocks * size, rank other ≤
      rank (other / size * size + winners (other / size)) := by
    intro other inside
    obtain ⟨isBlock, isPlace, sum⟩ := parts other inside
    have highest := (within _ isBlock).highest _ isPlace
    rwa [sum] at highest
  refine ⟨?_, fun other inside => ?_, fun other inside equal => ?_⟩
  · calc
      block * size + winners block < block * size + size := Nat.add_lt_add_left own.inside _
      _ = (block + 1) * size := (Nat.succ_mul block size).symm
      _ ≤ blocks * size := Nat.mul_le_mul_right size among.inside
  · exact le_trans (below other inside) (among.highest _ (parts other inside).1)
  · obtain ⟨isBlock, isPlace, sum⟩ := parts other inside
    -- its block's winner is as good as all, so no earlier block has one
    have blockRank : rank (other / size * size + winners (other / size)) =
        rank (block * size + winners block) :=
      le_antisymm (among.highest _ isBlock) (equal ▸ below other inside)
    have before : block ≤ other / size := among.first _ isBlock blockRank
    rcases Nat.lt_or_eq_of_le before with earlier | same
    · calc
        block * size + winners block ≤ block * size + size :=
          Nat.add_le_add_left (Nat.le_of_lt own.inside) _
        _ = (block + 1) * size := (Nat.succ_mul block size).symm
        _ ≤ other / size * size := Nat.mul_le_mul_right size earlier
        _ ≤ other := Nat.div_mul_le_self other size
    · rw [← sum, ← same]
      refine Nat.add_le_add_left (own.first _ isPlace ?_) _
      rw [same, sum]
      exact equal.trans (by rw [same])

end Libtt.Foundation

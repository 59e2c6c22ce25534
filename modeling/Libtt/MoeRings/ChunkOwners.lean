import Libtt.Foundation.Loop
import Libtt.Foundation.RoundRobin

/-!
# Owners of the chunks of a mixture of experts

`rings::ChunkOwners`: every core derives from the experts' counts of chunks which of the replicated
rings owns each chunk, and the drain feeds the chunks in order into as many halves as
`chunk_halves` says. Counters are of 32 bits.
-/
namespace Libtt.MoeRings

open Libtt.Foundation

/-- A `uint32_t`. -/
def word (number : Nat) : Nat := number % 2 ^ 32

/-- `ChunkOwners<R>`, whose `load` has an entry for each ring. -/
structure ChunkOwners where
  load : Nat → Nat
  prevOwner : Nat
  firstOwner : Nat
  split : Bool

namespace ChunkOwners

/-- No expert yet. -/
def initial (rings : Nat) : ChunkOwners := ⟨fun _ => 0, rings, 0, false⟩

/-- `load[ring] += chunks`. -/
def addLoad (load : Nat → Nat) (ring chunks : Nat) : Nat → Nat :=
  Function.update load ring (word (load ring + chunks))

/-- The ring with the least load that is not the previous owner; all rings if there is none. -/
def leastLoaded (rings : Nat) (load : Nat → Nat) (prevOwner : Nat) : Nat :=
  (List.range rings).foldl (fun best ring =>
    if ring = prevOwner then best
    else if best = rings ∨ load ring < load best then ring else best) rings

def beginExpert (rings : Nat) (owners : ChunkOwners) (chunks : Nat) : ChunkOwners :=
  if chunks = 0 then { owners with split := false }
  else if rings ≤ chunks then
    let firstOwner := if owners.prevOwner = rings then 0 else word (owners.prevOwner + 1) % rings
    let shared := (List.range rings).foldl (fun load ring => addLoad load ring (chunks / rings))
      owners.load
    let load := (List.range (chunks % rings)).foldl (fun load c =>
      addLoad load (word (firstOwner + c) % rings) 1) shared
    ⟨load, word (firstOwner + chunks - 1) % rings, firstOwner, true⟩
  else
    let best := leastLoaded rings owners.load owners.prevOwner
    let best := if best = rings then 0 else best
    ⟨addLoad owners.load best chunks, best, best, false⟩

def owner (rings : Nat) (owners : ChunkOwners) (chunk : Nat) : Nat :=
  if owners.split then word (owners.firstOwner + chunk) % rings else owners.firstOwner

/-- The owners of the chunks of the expert that has begun. -/
def ofExpert (rings : Nat) (owners : ChunkOwners) (chunks : Nat) : List Nat :=
  (List.range chunks).map (owners.owner rings)

end ChunkOwners

open ChunkOwners

/-- The table after some experts. -/
def afterExperts (rings : Nat) (counts : List Nat) : ChunkOwners :=
  counts.foldl (beginExpert rings) (initial rings)

/-- The owners of all chunks in feed order. -/
def feedFrom (rings : Nat) (owners : ChunkOwners) : List Nat → List Nat
  | [] => []
  | chunks :: counts =>
    let owners := beginExpert rings owners chunks
    owners.ofExpert rings chunks ++ feedFrom rings owners counts

def feed (rings : Nat) (counts : List Nat) : List Nat := feedFrom rings (initial rings) counts

def chunkHalves (rings : Nat) : Nat := if rings < 2 then 2 else rings + 1

/-- How many chunks were fed, and which of them were credited. -/
structure FeedState where
  fed : Nat
  credited : Nat → Bool

/-- The drain feeds a chunk when its half is free: it starts empty, and is freed by the credit for
the chunk before. The ring that owns a chunk credits it at some time after it was fed. -/
inductive FeedStep (halves total : Nat) : FeedState → FeedState → Prop
  | feed {state : FeedState} (left : state.fed < total)
    (free : halves ≤ state.fed → state.credited (state.fed - halves) = true) :
    FeedStep halves total state { state with fed := state.fed + 1 }
  | credit {state : FeedState} {chunk : Nat} (isFed : chunk < state.fed) :
    FeedStep halves total state
      { state with credited := Function.update state.credited chunk true }

def Fed (halves total : Nat) (state : FeedState) : Prop :=
  Relation.ReflTransGen (FeedStep halves total) ⟨0, fun _ => false⟩ state

/-- Every half holds a chunk that is not credited. -/
def FeedState.Occupied (state : FeedState) (halves : Nat) : Prop :=
  ∀ half < halves, ∃ chunk < state.fed, chunk % halves = half ∧ state.credited chunk = false

/-- Before a chunk is fed, the one that its half held is credited. -/
theorem Fed.credited {halves total : Nat} {state : FeedState} (run : Fed halves total state) :
    state.fed ≤ total ∧ ∀ chunk, chunk + halves < state.fed → state.credited chunk = true := by
  induction run with
  | refl => exact ⟨Nat.zero_le _, nofun⟩
  | tail _ step ih =>
    cases step with
    | feed left free =>
      refine ⟨left, fun chunk less => ?_⟩
      rcases Nat.lt_or_eq_of_le (Nat.le_of_lt_succ less) with earlier | now
      · exact ih.2 chunk earlier
      · have isChunk := free (by omega)
        rwa [← now, Nat.add_sub_cancel] at isChunk
    | @credit chunk isFed =>
      refine ⟨ih.1, fun other less => ?_⟩
      by_cases same : other = chunk
      · rw [same]
        exact Function.update_self ..
      · exact (Function.update_of_ne same ..).trans (ih.2 other less)

/-- When every half is occupied, it is by the last chunks that were fed. -/
theorem Fed.last_uncredited {halves total : Nat} {state : FeedState} (run : Fed halves total state)
    (occupied : state.Occupied halves) : halves ≤ state.fed ∧
      ∀ chunk, state.fed ≤ chunk + halves → chunk < state.fed → state.credited chunk = false := by
  have credited := run.credited.2
  constructor
  · by_contra few
    obtain ⟨chunk, isFed, isHalf, -⟩ := occupied state.fed (Nat.lt_of_not_le few)
    rw [Nat.mod_eq_of_lt (by omega)] at isHalf
    omega
  · intro chunk isLast isFed
    have positive : 0 < halves := by omega
    obtain ⟨other, otherFed, sameHalf, waits⟩ := occupied (chunk % halves) (Nat.mod_lt _ positive)
    have otherLast : state.fed ≤ other + halves := by
      by_contra earlier
      rw [credited other (Nat.lt_of_not_le earlier)] at waits
      contradiction
    -- Two of the last chunks in one half are the same.
    have same : other = chunk := Nat.ModEq.eq_of_abs_lt sameHalf (abs_lt.mpr (by omega))
    rwa [← same]

end Libtt.MoeRings

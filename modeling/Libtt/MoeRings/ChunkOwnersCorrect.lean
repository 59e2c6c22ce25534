import Libtt.MoeRings.ChunkOwners

/-!
# Balance of the chunk owners

After every expert the table counts what the rings own, and no ring owns a full round of consecutive
chunks.
-/
namespace Libtt.MoeRings

open Libtt.Foundation ChunkOwners

variable {rings : Nat}
variable {chunks : Nat} {owners : ChunkOwners} {counts : List Nat}

theorem word_eq {number : Nat} (fits : number < 2 ^ 32) : word number = number :=
  Nat.mod_eq_of_lt fits

theorem foldl_addLoad {amount ring : Nat} (places : List Nat) (load : Nat → Nat)
    (fits : load ring + amount * places.count ring < 2 ^ 32) :
    places.foldl (fun load place => addLoad load place amount) load ring =
      load ring + amount * places.count ring := by
  induction places generalizing load with
  | nil => simp
  | cons place places ih =>
    rw [List.foldl_cons]
    by_cases same : place = ring
    · subst same
      rw [List.count_cons_self, Nat.mul_succ] at fits ⊢
      have added : addLoad load place amount place = load place + amount := by
        rw [addLoad, Function.update_self, word_eq (by omega)]
      rw [ih _ (by omega), added]
      omega
    · have kept : addLoad load place amount ring = load ring :=
        Function.update_of_ne (Ne.symm same) _ _
      rw [List.count_cons_of_ne same] at fits ⊢
      rw [ih _ (by rwa [kept]), kept]

/-- The loads of an expert that is split: the same to every ring, and the rest in turn. -/
theorem load_split {first ring : Nat} {load : Nat → Nat} (isRing : ring < rings)
    (inFirst : first + chunks < 2 ^ 32) (fits : load ring + chunks < 2 ^ 32) :
    (List.range (chunks % rings)).foldl
      (fun load c => addLoad load (word (first + c) % rings) 1)
      ((List.range rings).foldl (fun load ring => addLoad load ring (chunks / rings)) load) ring =
    load ring + (turns rings first chunks).count ring := by
  have once : (List.range rings).count ring = 1 :=
    List.count_eq_one_of_mem List.nodup_range (List.mem_range.mpr isRing)
  have few : (turns rings first chunks).count ring ≤ chunks :=
    List.count_le_length.trans (by simp [turns])
  have inTurn : ∀ load : Nat → Nat, (List.range (chunks % rings)).foldl
      (fun load c => addLoad load (word (first + c) % rings) 1) load =
        (turns rings first (chunks % rings)).foldl (fun load ring => addLoad load ring 1) load := by
    intro load
    rw [turns, List.foldl_map]
    refine List.foldl_ext _ _ load fun load c isRest => ?_
    have less := (List.mem_range.mp isRest).trans_le (Nat.mod_le chunks rings)
    rw [word_eq (by omega)]
  have rounds := count_turns first chunks isRing
  rw [inTurn]
  have shared : (List.range rings).foldl (fun load ring => addLoad load ring (chunks / rings)) load
      ring = load ring + chunks / rings * (List.range rings).count ring :=
    foldl_addLoad _ load (by rw [once]; omega)
  rw [foldl_addLoad _ _ (by rw [shared, once]; omega), shared, once, rounds]
  omega

/-- The least loaded ring is not the previous owner; there is none only without other rings. -/
theorem leastLoaded_spec (load : Nat → Nat) (prevOwner : Nat) :
    (leastLoaded rings load prevOwner < rings ∧ leastLoaded rings load prevOwner ≠ prevOwner) ∨
      leastLoaded rings load prevOwner = rings ∧ ∀ ring < rings, ring = prevOwner := by
  refine foldl_range_induct (fun seen best => (best < rings ∧ best ≠ prevOwner) ∨
    best = rings ∧ ∀ ring < seen, ring = prevOwner) rings (.inr ⟨rfl, nofun⟩) ?_
  intro ring isRing best seen
  split
  · rename_i isPrev
    rcases seen with found | ⟨none', all⟩
    · exact .inl found
    · exact .inr ⟨none', fun other less => (Nat.lt_succ_iff_lt_or_eq.mp less).elim (all other)
        (·.trans isPrev)⟩
  · rename_i notPrev
    split
    · exact .inl ⟨isRing, notPrev⟩
    · rename_i notLess
      exact .inl (seen.resolve_right fun none' => notLess (.inl none'.1))

/-- An expert with fewer chunks than rings goes whole to another ring than the last. -/
theorem beginExpert_small (positive : 0 < chunks) (small : chunks < rings) :
    ∃ best < rings, best ≠ owners.prevOwner ∧
      beginExpert rings owners chunks = ⟨addLoad owners.load best chunks, best, best, false⟩ := by
  have found : leastLoaded rings owners.load owners.prevOwner < rings ∧
      leastLoaded rings owners.load owners.prevOwner ≠ owners.prevOwner := by
    rcases leastLoaded_spec owners.load owners.prevOwner with found | alone
    · exact found
    · have zero := alone.2 0 (by omega)
      have one := alone.2 1 (by omega)
      omega
  refine ⟨_, found.1, found.2, ?_⟩
  rw [beginExpert, if_neg positive.ne', if_neg (Nat.not_le.mpr small)]
  dsimp only
  rw [if_neg found.1.ne]

/-- A larger expert goes round all rings, and starts with another ring than the last. -/
theorem beginExpert_split (positive : 0 < rings) (prev : owners.prevOwner ≤ rings)
    (large : rings ≤ chunks) (fits : ∀ ring < rings, owners.load ring + chunks + rings ≤ 2 ^ 32) :
    ∃ load, ∃ first < rings,
      beginExpert rings owners chunks = ⟨load, (first + chunks - 1) % rings, first, true⟩ ∧
      (owners.prevOwner = rings ∨ (2 ≤ rings → first ≠ owners.prevOwner)) ∧
      ∀ ring < rings, load ring = owners.load ring + (turns rings first chunks).count ring := by
  have inWord := fits 0 positive
  have isFirst : ∃ first < rings,
      first = (if owners.prevOwner = rings then 0 else word (owners.prevOwner + 1) % rings) ∧
      (owners.prevOwner = rings ∨ (2 ≤ rings → first ≠ owners.prevOwner)) := by
    by_cases start : owners.prevOwner = rings
    · exact ⟨0, positive, (if_pos start).symm, .inl start⟩
    · refine ⟨_, Nat.mod_lt _ positive, (if_neg start).symm, .inr fun several same => ?_⟩
      rw [word_eq (by omega)] at same
      apply succ_mod_ne several owners.prevOwner
      rw [same, Nat.mod_eq_of_lt (by omega)]
  obtain ⟨first, below, isFirst, apart⟩ := isFirst
  have begun : beginExpert rings owners chunks = _ :=
    (if_neg (by omega : chunks ≠ 0)).trans (if_pos large)
  dsimp only at begun
  rw [← isFirst, Nat.add_sub_assoc (by omega), word_eq (by omega), ← Nat.add_sub_assoc (by omega)]
    at begun
  refine ⟨_, first, below, begun, apart, fun ring isRing => ?_⟩
  have ringFits := fits ring isRing
  exact load_split isRing (by omega) (by omega)

theorem ofExpert_split (load : Nat → Nat) (prevOwner : Nat) {first : Nat} (below : first < rings)
    (fits : rings + chunks ≤ 2 ^ 32) :
    (⟨load, prevOwner, first, true⟩ : ChunkOwners).ofExpert rings chunks =
      turns rings first chunks := by
  refine List.map_congr_left fun chunk isChunk => ?_
  rw [List.mem_range] at isChunk
  exact congrArg (· % rings) (word_eq (by omega : first + chunk < 2 ^ 32))

theorem ofExpert_whole (load : Nat → Nat) (prevOwner ring chunks : Nat) :
    (⟨load, prevOwner, ring, false⟩ : ChunkOwners).ofExpert rings chunks =
      List.replicate chunks ring := by
  rw [ofExpert, List.eq_replicate_iff]
  exact ⟨by rw [List.length_map, List.length_range], List.forall_mem_map.mpr fun _ _ => rfl⟩

/-- What holds of the table and the owners of all chunks fed before. -/
structure Dealt (rings : Nat) (owners : ChunkOwners) (fed : List Nat) : Prop where
  below : ∀ ring ∈ fed, ring < rings
  load : ∀ ring < rings, owners.load ring = fed.count ring
  prevOwner : owners.prevOwner ≤ rings
  last : fed.getLast? = if owners.prevOwner = rings then none else some owners.prevOwner
  noRun : 2 ≤ rings → NoRun rings fed

theorem Dealt.initial (rings : Nat) : Dealt rings (initial rings) [] :=
  ⟨nofun, fun _ _ => rfl, le_rfl, (if_pos rfl).symm, fun several => .of_short (by
    rw [List.length_nil]; omega)⟩

/-- The owners of an expert's chunks, and what they are appended to. -/
theorem Dealt.append {after : ChunkOwners} {fed expert : List Nat} (dealt : Dealt rings owners fed)
    (below : ∀ ring ∈ expert, ring < rings)
    (load : ∀ ring < rings, after.load ring = owners.load ring + expert.count ring)
    (prevOwner : after.prevOwner < rings) (last : expert.getLast? = some after.prevOwner)
    (noRun : 2 ≤ rings → NoRun rings expert)
    (apart : owners.prevOwner = rings ∨ (2 ≤ rings → expert.head? ≠ some owners.prevOwner)) :
    Dealt rings after (fed ++ expert) := by
  refine ⟨fun ring member => ?_, fun ring isRing => ?_, prevOwner.le, ?_, fun several => ?_⟩
  · exact (List.mem_append.mp member).elim (dealt.below ring) (below ring)
  · rw [load ring isRing, dealt.load ring isRing, List.count_append]
  · rw [List.getLast?_append, last, if_neg prevOwner.ne, Option.some_or]
  · refine (dealt.noRun several).append (noRun several) fun last isEnd next isNext same => ?_
    rw [dealt.last] at isEnd
    split at isEnd
    · contradiction
    · rename_i begun
      rw [← same, ← Option.some_inj.mp isEnd] at isNext
      exact (apart.resolve_left begun) several isNext

theorem Dealt.beginExpert {fed : List Nat} (dealt : Dealt rings owners fed) (positive : 0 < rings)
    (fits : fed.length + chunks + rings ≤ 2 ^ 32) :
    Dealt rings (beginExpert rings owners chunks)
      (fed ++ (ChunkOwners.beginExpert rings owners chunks).ofExpert rings chunks) := by
  have loaded : ∀ ring < rings, owners.load ring + chunks + rings ≤ 2 ^ 32 := by
    intro ring isRing
    have few := (dealt.load ring isRing).trans_le List.count_le_length
    omega
  rcases Nat.eq_zero_or_pos chunks with rfl | some'
  · rw [ChunkOwners.beginExpert, if_pos rfl, ofExpert, List.range_zero, List.map_nil,
      List.append_nil]
    exact ⟨dealt.below, dealt.load, dealt.prevOwner, dealt.last, dealt.noRun⟩
  by_cases large : rings ≤ chunks
  · obtain ⟨load, first, below, begun, apart, counts⟩ :=
      beginExpert_split positive dealt.prevOwner large loaded
    have all := ofExpert_split load ((first + chunks - 1) % rings) below
      (by omega : rings + chunks ≤ 2 ^ 32)
    rw [begun, all]
    refine dealt.append (fun ring => mem_turns_lt positive) counts (Nat.mod_lt _ positive)
      (getLast?_turns some') (.turns · _ _) (apart.imp_right fun other several => ?_)
    rw [head?_turns some', Nat.mod_eq_of_lt below]
    exact fun same => other several (Option.some_inj.mp same)
  · have small := Nat.lt_of_not_le large
    obtain ⟨best, isRing, notPrev, begun⟩ := beginExpert_small some' small
    rw [begun, ofExpert_whole]
    refine dealt.append (fun ring member => ?_) (fun ring isRing => ?_) isRing ?_ (fun _ => ?_)
      (.inr fun _ isHead => ?_)
    · exact (List.eq_of_mem_replicate member).trans_lt isRing
    · have few := loaded ring isRing
      by_cases same : best = ring
      · subst same
        rw [List.count_replicate_self]
        exact (Function.update_self ..).trans (word_eq (by omega))
      · rw [List.count_eq_zero_of_not_mem fun member => same (List.eq_of_mem_replicate member).symm]
        exact Function.update_of_ne (Ne.symm same) _ _
    · rw [List.getLast?_replicate, if_neg some'.ne']
    · exact .of_short (by rwa [List.length_replicate])
    · rw [List.head?_replicate, if_neg some'.ne'] at isHead
      exact notPrev (Option.some_inj.mp isHead)

theorem length_feedFrom (owners : ChunkOwners) (counts : List Nat) :
    (feedFrom rings owners counts).length = counts.sum := by
  induction counts generalizing owners with
  | nil => rfl
  | cons chunks counts ih =>
    rw [feedFrom, List.length_append, ih, ofExpert, List.length_map, List.length_range,
      List.sum_cons]

theorem length_feed (counts : List Nat) : (feed rings counts).length = counts.sum :=
  length_feedFrom _ counts

theorem Dealt.run (positive : 0 < rings) {fed : List Nat} (dealt : Dealt rings owners fed)
    (fits : fed.length + counts.sum + rings ≤ 2 ^ 32) :
    Dealt rings (counts.foldl (ChunkOwners.beginExpert rings) owners)
      (fed ++ feedFrom rings owners counts) := by
  induction counts generalizing owners fed with
  | nil => rwa [feedFrom, List.append_nil]
  | cons chunks counts ih =>
    rw [List.sum_cons] at fits
    rw [List.foldl_cons, feedFrom, ← List.append_assoc]
    apply ih (dealt.beginExpert positive (by omega))
    rw [List.length_append, ofExpert, List.length_map, List.length_range]
    omega

theorem dealt_feed (positive : 0 < rings) (fits : counts.sum + rings ≤ 2 ^ 32) :
    Dealt rings (afterExperts rings counts) (feed rings counts) :=
  (Dealt.initial rings).run positive (by rwa [List.length_nil, Nat.zero_add])

theorem sum_le_of_prefix {earlier : List Nat} (isPrefix : earlier <+: counts) :
    earlier.sum ≤ counts.sum := by
  obtain ⟨later, rfl⟩ := isPrefix
  rw [List.sum_append]
  exact Nat.le_add_right _ _

/-- The table counts what the rings own, and no ring can hold up the feed alone. -/
structure Balanced (rings : Nat) (counts : List Nat) : Prop where
  below : ∀ ring ∈ feed rings counts, ring < rings
  load : ∀ earlier, earlier <+: counts → ∀ ring < rings,
    (afterExperts rings earlier).load ring = (feed rings earlier).count ring
  noRun : 2 ≤ rings → NoRun rings (feed rings counts)
  whole : ∀ earlier chunks, earlier ++ [chunks] <+: counts → chunks < rings →
    ∃ ring, ∀ chunk < chunks, (afterExperts rings (earlier ++ [chunks])).owner rings chunk = ring
  even : ∀ earlier chunks, earlier ++ [chunks] <+: counts → rings ≤ chunks →
    ∀ ring < rings, ∀ other < rings,
      ((afterExperts rings (earlier ++ [chunks])).ofExpert rings chunks).count ring ≤
        ((afterExperts rings (earlier ++ [chunks])).ofExpert rings chunks).count other + 1
  waits : 2 ≤ rings → ∀ state, Fed (chunkHalves rings) (feed rings counts).length state →
    state.Occupied (chunkHalves rings) → ∀ ring, ∃ chunk < state.fed,
      state.credited chunk = false ∧ (feed rings counts)[chunk]? ≠ some ring

/-- The rings are balanced as long as all chunks fit the counters. -/
theorem chunk_owners_balanced (counts : List Nat) (positive : 0 < rings)
    (fits : counts.sum + rings ≤ 2 ^ 32) : Balanced rings counts := by
  have dealt := dealt_feed positive fits
  -- Any expert starts from a table that is right.
  have before : ∀ earlier chunks, earlier ++ [chunks] <+: counts →
      Dealt rings (afterExperts rings earlier) (feed rings earlier) ∧
      earlier.sum + chunks + rings ≤ 2 ^ 32 ∧ afterExperts rings (earlier ++ [chunks]) =
        ChunkOwners.beginExpert rings (afterExperts rings earlier) chunks := by
    intro earlier chunks isPrefix
    have less := sum_le_of_prefix isPrefix
    rw [List.sum_append, List.sum_singleton] at less
    exact ⟨dealt_feed positive (by omega), by omega, List.foldl_append⟩
  refine ⟨dealt.below, fun earlier isPrefix => ?_, dealt.noRun, fun earlier chunks isPrefix small => ?_,
    fun earlier chunks isPrefix large ring isRing other isOther => ?_,
    fun several state run occupied ring => ?_⟩
  · have less := sum_le_of_prefix isPrefix
    exact (dealt_feed positive (by omega)).load
  · obtain ⟨-, -, begun⟩ := before earlier chunks isPrefix
    rcases Nat.eq_zero_or_pos chunks with rfl | some'
    · exact ⟨0, nofun⟩
    · obtain ⟨best, -, -, isBegun⟩ := beginExpert_small some' small
      rw [begun, isBegun]
      exact ⟨best, fun _ _ => rfl⟩
  · obtain ⟨table, inWord, begun⟩ := before earlier chunks isPrefix
    have all : (feed rings earlier).length ≤ earlier.sum := by
      rw [length_feed]
    obtain ⟨load, first, below, isBegun, -⟩ := beginExpert_split positive table.prevOwner large
      fun ring isRing => by
        have few := (table.load ring isRing).trans_le List.count_le_length
        omega
    rw [begun, isBegun, ofExpert_split _ _ below (by omega), count_turns _ _ isRing,
      count_turns _ _ isOther]
    have once := List.nodup_iff_count_le_one.mp
      (turns_nodup first (Nat.mod_lt chunks positive).le) ring
    omega
  · -- The last `rings` of the chunks that were fed are all uncredited.
    have wait := run.last_uncredited occupied
    rw [chunkHalves, if_neg (Nat.not_lt.mpr several)] at wait
    have fed := run.credited.1
    obtain ⟨i, less, isOther⟩ := dealt.noRun several (state.fed - rings) (by omega) ring
    exact ⟨_, by omega, wait.2 _ (by omega) (by omega), isOther⟩

theorem chunk_owners_balanced_two : Balanced 2 [3, 1, 0, 5] :=
  chunk_owners_balanced [3, 1, 0, 5] (by decide) (by decide)

theorem eq_zero_of_mem_feedFrom :
    ∀ ring ∈ feedFrom 1 owners counts, ring = 0 := by
  induction counts generalizing owners with
  | nil => exact nofun
  | cons chunks counts ih =>
    intro ring member
    rcases List.mem_append.mp member with now | later
    · obtain ⟨chunk, isChunk, rfl⟩ := List.mem_map.mp now
      have some' : 1 ≤ chunks := Nat.one_le_of_lt (List.mem_range.mp isChunk)
      rw [ChunkOwners.beginExpert, if_neg (by omega), if_pos some', owner, if_pos rfl, Nat.mod_one]
    · exact ih ring later

/-- With 2³² chunks the one ring's load is 0. -/
theorem load_wraps : ¬ ∀ rings counts, 0 < rings → ∀ ring < rings,
    (afterExperts rings counts).load ring = (feed rings counts).count ring := by
  intro all
  have same := all 1 [4294967295, 1] Nat.one_pos 0 Nat.one_pos
  rw [feed, List.count_eq_length.mpr fun ring member => (eq_zero_of_mem_feedFrom ring member).symm,
    length_feedFrom] at same
  exact absurd same (by decide)

end Libtt.MoeRings

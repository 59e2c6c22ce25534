import Libtt.AllReduce.Scratch
import Mathlib.Tactic.Ring

/-!
# Direct all-reduce: the sums

A byte of what is sent of a tile stands at one place in the tile, one in the circular buffer, one in
each slot and one in the sums.
-/
namespace Libtt.AllReduce

open Libtt.Foundation

variable {second t rank link byte : Nat} {copy : Copy Cell} {program : Program}

/-- A number is its quotient and its rest. -/
theorem place_inj {size first rest more : Nat} (less : rest < size) (lessMore : more < size)
    (same : first * size + rest = second * size + more) : first = second ∧ rest = more := by
  have positive : 0 < size := Nat.zero_lt_of_lt less
  rw [Nat.mul_comm, Nat.mul_comm second] at same
  have quotients := congrArg (· / size) same
  simp only [Nat.mul_add_div positive, Nat.div_eq_of_lt less, Nat.div_eq_of_lt lessMore,
    Nat.add_zero] at quotients
  rw [quotients] at same
  exact ⟨quotients, Nat.add_left_cancel same⟩

namespace LinkSplit

/-- A page is of one link. -/
theorem page_inj (links : LinkSplit) {first u : Nat} (ofFirst : t < links.total first)
    (ofSecond : u < links.total second) (same : links.start first + t = links.start second + u) :
    first = second ∧ t = u := by
  unfold total at ofFirst ofSecond
  rcases lt_trichotomy first second with less | rfl | more
  · have before : links.start (first + 1) ≤ links.start second := links.monotone less
    omega
  · exact ⟨rfl, Nat.add_left_cancel same⟩
  · have before : links.start (second + 1) ≤ links.start first := links.monotone more
    omega

/-- Every page is of a link. -/
theorem exists_link (links : LinkSplit) {page : Nat} (less : page < links.start links.numLinks) :
    ∃ link < links.numLinks, ∃ t < links.total link, links.start link + t = page := by
  unfold total
  generalize links.numLinks = count at less ⊢
  induction count with
  | zero => exact absurd less (by rw [links.start_zero]; exact Nat.not_lt_zero _)
  | succ count ih =>
    by_cases earlier : page < links.start count
    · obtain ⟨link, isLink, inside⟩ := ih earlier
      exact ⟨link, Nat.lt_succ_of_lt isLink, inside⟩
    · exact ⟨count, Nat.lt_succ_self _, page - links.start count, by omega, by omega⟩

end LinkSplit

namespace Program

/-- The place in the page of a byte of what is sent of a tile. -/
def pageOffset (program : Program) (byte : Nat) : Nat :=
  match program.packedTileBytes with
  | some packed =>
    byte / packedFaceBytes packed * tileFaceBytes + byte % packedFaceBytes packed
  | none => byte

/-- Two faces, one behind the other, are the bytes of a packed tile. -/
theorem mem_faces {copies : Nat → Nat → Copy Cell} {half face : Nat} (positive : 0 < half) :
    copy ∈ (List.range half).map (fun i => copies (2 * t * half + i) i) ++
        (List.range half).map (fun i => copies ((2 * t + 1) * half + i) (face + i)) ↔
      ∃ byte < 2 * half,
        copy = copies (t * (2 * half) + byte) (byte / half * face + byte % half) := by
  have first : 2 * t * half = t * (2 * half) := by ring
  have second : (2 * t + 1) * half = t * (2 * half) + half := by ring
  rw [first, second]
  simp only [List.mem_append, List.mem_map, List.mem_range]
  constructor
  · rintro (⟨i, less, rfl⟩ | ⟨i, less, rfl⟩)
    · refine ⟨i, by omega, ?_⟩
      rw [Nat.div_eq_of_lt less, Nat.mod_eq_of_lt less, Nat.zero_mul, Nat.zero_add]
    · refine ⟨half + i, by omega, ?_⟩
      rw [Nat.add_div_left _ positive, Nat.div_eq_of_lt less, Nat.add_mod_left,
        Nat.mod_eq_of_lt less, Nat.add_assoc, Nat.one_mul]
  · rintro ⟨byte, less, rfl⟩
    by_cases upper : byte < half
    · refine .inl ⟨byte, upper, ?_⟩
      rw [Nat.div_eq_of_lt upper, Nat.mod_eq_of_lt upper, Nat.zero_mul, Nat.zero_add]
    · obtain ⟨i, rfl⟩ := Nat.exists_eq_add_of_le (Nat.le_of_not_lt upper)
      have inside : i < half := by omega
      refine .inr ⟨i, inside, ?_⟩
      rw [Nat.add_div_left _ positive, Nat.div_eq_of_lt inside, Nat.add_mod_left,
        Nat.mod_eq_of_lt inside, Nat.add_assoc, Nat.one_mul]

/-- The copies of each tile, packed or whole, are those of the bytes that are sent of it. -/
theorem mem_tileCopies (program : Program) (copies : Nat → Nat → Copy Cell) :
    copy ∈ (match program.packedTileBytes with
        | some packed =>
          (List.range (packedFaceBytes packed)).map
              (fun i => copies (2 * t * packedFaceBytes packed + i) i) ++
            (List.range (packedFaceBytes packed)).map
              (fun i => copies ((2 * t + 1) * packedFaceBytes packed + i) (tileFaceBytes + i))
        | none => (List.range tileBytes).map fun i => copies (t * tileBytes + i) i) ↔
      ∃ byte < program.payloadBytesPerTile,
        copy = copies (t * program.payloadBytesPerTile + byte) (program.pageOffset byte) := by
  unfold payloadBytesPerTile pageOffset
  cases isPacked : program.packedTileBytes with
  | none =>
    simp only [Option.getD_none, List.mem_map, List.mem_range, eq_comm]
  | some packed =>
    obtain ⟨half, rfl, some, -⟩ := program.packed_faces packed isPacked
    have isHalf : packedFaceBytes (2 * (2 * half)) = 2 * half :=
      Nat.mul_div_cancel_left _ (by decide)
    simp only [Option.getD_some, isHalf]
    exact mem_faces (by omega)

theorem mem_dramReader :
    copy ∈ program.dramReader rank link ↔
      ∃ t < program.links.total link, ∃ byte < program.payloadBytesPerTile,
        copy = ⟨.staged rank link (t * program.payloadBytesPerTile + byte),
          .input rank (program.links.start link + t) (program.pageOffset byte)⟩ := by
  simp only [dramReader, List.mem_flatMap, List.mem_range]
  refine exists_congr fun t => and_congr_right fun _ => ?_
  exact program.mem_tileCopies (fun packed page =>
    ⟨.staged rank link packed, .input rank (program.links.start link + t) page⟩)

theorem mem_dramWriter {core : Nat × Nat} {start : Nat} :
    copy ∈ program.dramWriter core start ↔
      ∃ t < program.numPages, ∃ byte < program.payloadBytesPerTile,
        copy = ⟨.output (start + t) (program.pageOffset byte),
          .reduced core (t * program.payloadBytesPerTile + byte)⟩ := by
  simp only [dramWriter, List.mem_flatMap, List.mem_range]
  refine exists_congr fun t => and_congr_right fun _ => ?_
  exact program.mem_tileCopies (fun packed page =>
    ⟨.output (start + t) page, .reduced core packed⟩)

end Program

/-- The tiles of the packets, counted on from the start of a core's slice, are in order those that
are left, on the cores and at the places in their slots that this says. -/
theorem WriterArgs.packetsFrom_tiles (args : WriterArgs) {fuel tilesRead shardTileId : Nat}
    (coreId base : Nat) (inside : shardTileId < args.numTilesPerCore)
    (enough : args.numTilesToRead ≤ tilesRead + fuel)
    (counters : coreId * args.numTilesPerCore + shardTileId = base + tilesRead) :
    (∀ packet ∈ args.packetsFrom fuel tilesRead shardTileId coreId, ∀ j < packet.tiles,
      packet.tilesRead + j < args.numTilesToRead ∧
      packet.coreId = (base + (packet.tilesRead + j)) / args.numTilesPerCore ∧
      packet.shardTileId + j = (base + (packet.tilesRead + j)) % args.numTilesPerCore) ∧
    (∀ t, tilesRead ≤ t → t < args.numTilesToRead →
      ∃ packet ∈ args.packetsFrom fuel tilesRead shardTileId coreId,
        ∃ j < packet.tiles, packet.tilesRead + j = t) := by
  induction fuel generalizing tilesRead shardTileId coreId with
  | zero => exact ⟨by simp [packetsFrom], fun t from' less => by omega⟩
  | succ fuel ih =>
    have holds : 0 < args.tilesPerPacket := args.packetHoldsTile
    rw [packetsFrom]
    split
    case isFalse none => exact ⟨by simp, fun t from' less => by omega⟩
    case isTrue left =>
      set tiles := min (args.numTilesToRead - tilesRead)
        (min (args.numTilesPerCore - shardTileId) args.tilesPerPacket) with isTiles
      have next :
          (if args.numTilesPerCore ≤ shardTileId + tiles then coreId + 1 else coreId) *
              args.numTilesPerCore +
            (if args.numTilesPerCore ≤ shardTileId + tiles then 0 else shardTileId + tiles) =
            base + (tilesRead + tiles) := by
        split
        · rw [Nat.add_mul, Nat.one_mul]
          omega
        · omega
      have rest := ih _ (by split <;> omega) (by omega) next
      refine ⟨fun packet member j less => ?_, fun t from' less => ?_⟩
      · cases List.mem_cons.mp member with
        | inl isFirst =>
          subst isFirst
          change j < tiles at less
          have place : base + (tilesRead + j) =
              shardTileId + j + args.numTilesPerCore * coreId := by
            rw [Nat.mul_comm]
            omega
          have within : shardTileId + j < args.numTilesPerCore := by omega
          refine ⟨show tilesRead + j < _ by omega, ?_, ?_⟩
          · change coreId = _
            rw [place, Nat.add_mul_div_left _ _ (by omega), Nat.div_eq_of_lt within, Nat.zero_add]
          · change shardTileId + j = _
            rw [place, Nat.add_mul_mod_self_left, Nat.mod_eq_of_lt within]
        | inr later => exact rest.1 packet later j less
      · by_cases now : t < tilesRead + tiles
        · exact ⟨_, List.mem_cons_self, t - tilesRead, show t - tilesRead < tiles by omega,
            show tilesRead + (t - tilesRead) = t by omega⟩
        · obtain ⟨packet, member, isTile⟩ := rest.2 t (by omega) less
          exact ⟨packet, List.mem_cons_of_mem _ member, isTile⟩

namespace Program

/-- A tile's bytes go to the slot of the rank on the core that its page belongs to. -/
theorem mem_workerWriter :
    copy ∈ program.workerWriter rank link ↔
      ∃ t < program.links.total link, ∃ byte < program.payloadBytesPerTile,
        copy = ⟨.scratch (program.core ((program.links.start link + t) / program.numPages))
            (program.slotStart rank + ((program.links.start link + t) % program.numPages *
              program.payloadBytesPerTile + byte)),
          .staged rank link (t * program.payloadBytesPerTile + byte)⟩ := by
  obtain ⟨placed, covered⟩ := (program.writerArgs link).packetsFrom_tiles 0
    (program.links.start link % program.numPages) (program.writerArgs link).startsInside
    (Nat.le_add_left _ 0) (by rw [Nat.zero_mul, Nat.zero_add]; rfl)
  have onCore (t : Nat) : (program.links.start link + t) / program.numPages =
      program.links.start link / program.numPages +
        (program.links.start link % program.numPages + t) / program.numPages := by
    nth_rewrite 1 [← Nat.div_add_mod (program.links.start link) program.numPages]
    rw [Nat.add_assoc, Nat.mul_add_div program.numPages_pos]
  have inSlot (t : Nat) : (program.links.start link + t) % program.numPages =
      (program.links.start link % program.numPages + t) % program.numPages :=
    (Nat.mod_add_mod _ _ _).symm
  have bytes (tiles i : Nat) : (tiles + i / program.payloadBytesPerTile) *
      program.payloadBytesPerTile + i % program.payloadBytesPerTile =
        tiles * program.payloadBytesPerTile + i := by
    rw [Nat.add_mul, Nat.add_assoc, Nat.div_add_mod']
  simp only [workerWriter, List.mem_flatMap, mem_transfer]
  constructor
  · rintro ⟨packet, member, i, less, rfl⟩
    -- Byte i of the packet is a byte of its tile i / payload.
    have tile := Nat.div_lt_of_lt_mul (by rwa [Nat.mul_comm] at less)
    obtain ⟨within, isCore, isPlace⟩ := placed packet member _ tile
    refine ⟨_, within, i % program.payloadBytesPerTile, Nat.mod_lt _ program.payload_pos, ?_⟩
    rw [onCore, inSlot]
    change packet.coreId = (_ % program.numPages + _) / program.numPages at isCore
    change packet.shardTileId + _ = (_ % program.numPages + _) % program.numPages at isPlace
    rw [← isCore, ← isPlace, bytes packet.shardTileId, bytes packet.tilesRead, Nat.add_assoc]
  · rintro ⟨t, less, byte, inside, rfl⟩
    obtain ⟨packet, member, j, isTile, rfl⟩ := covered t (Nat.zero_le _) less
    obtain ⟨-, isCore, isPlace⟩ := placed packet member j isTile
    change packet.coreId = (_ % program.numPages + _) / program.numPages at isCore
    change packet.shardTileId + _ = (_ % program.numPages + _) % program.numPages at isPlace
    refine ⟨packet, member, j * program.payloadBytesPerTile + byte, ?_, ?_⟩
    · calc
        j * program.payloadBytesPerTile + byte < (j + 1) * program.payloadBytesPerTile := by
          rw [Nat.add_mul, Nat.one_mul]
          exact Nat.add_lt_add_left inside _
        _ ≤ packet.tiles * program.payloadBytesPerTile := Nat.mul_le_mul_right _ isTile
    · rw [onCore, inSlot, ← isCore, ← isPlace]
      simp only [Nat.add_mul, Nat.add_assoc]

theorem mem_onLinks {kernel : Nat → Nat → List (Copy Cell)} :
    copy ∈ program.onLinks kernel ↔
      ∃ rank < program.ringSize, ∃ link < program.links.numLinks, copy ∈ kernel rank link := by
  simp only [onLinks, List.mem_flatMap, List.mem_range]

/-- The pages of a link are those of the width. -/
theorem page_lt (program : Program) (isLink : link < program.links.numLinks)
    (inside : t < program.links.total link) :
    program.links.start link + t < program.cores.length * program.numPages := by
  rw [← program.covers]
  have after := program.links.monotone (Nat.succ_le_of_lt isLink)
  unfold LinkSplit.total at inside
  change program.links.start (link + 1) ≤ _ at after
  omega

theorem core_inj (program : Program) {first : Nat} (isFirst : first < program.cores.length)
    (isSecond : second < program.cores.length) (same : program.core first = program.core second) :
    first = second := by
  unfold core at same
  rw [List.getD_eq_getElem _ _ isFirst, List.getD_eq_getElem _ _ isSecond] at same
  exact (program.cores_nodup.getElem_inj_iff).mp same

theorem inSlot_lt (program : Program) (less : t < program.numPages)
    (inside : byte < program.payloadBytesPerTile) :
    t * program.payloadBytesPerTile + byte < program.numPages * tileBytes := by
  calc
    t * program.payloadBytesPerTile + byte < (t + 1) * program.payloadBytesPerTile := by
      rw [Nat.add_mul, Nat.one_mul]
      exact Nat.add_lt_add_left inside _
    _ ≤ program.numPages * tileBytes := Nat.mul_le_mul less program.payload_le

/-- A byte of a slot is of one rank, one tile and one place. -/
theorem slot_inj (program : Program) {rank rank' t t' byte byte' : Nat}
    (less : t < program.numPages) (less' : t' < program.numPages)
    (inside : byte < program.payloadBytesPerTile)
    (inside' : byte' < program.payloadBytesPerTile)
    (same : program.slotStart rank + (t * program.payloadBytesPerTile + byte) =
      program.slotStart rank' + (t' * program.payloadBytesPerTile + byte')) :
    rank = rank' ∧ t = t' ∧ byte = byte' := by
  unfold slotStart at same
  rw [Nat.mul_assoc, Nat.mul_assoc] at same
  obtain ⟨isRank, places⟩ := place_inj (program.inSlot_lt less inside)
    (program.inSlot_lt less' inside') same
  exact ⟨isRank, place_inj inside inside' places⟩

variable {Byte : Type} {program : Program} {before staged arrived : Cell → Byte}

/-- The readers have put the bytes of each tile where the writers send them from. -/
theorem staged_eq (reads : Completes program.reads before staged) (isRank : rank < program.ringSize)
    (isLink : link < program.links.numLinks) (isTile : t < program.links.total link)
    (inside : byte < program.payloadBytesPerTile) :
    staged (.staged rank link (t * program.payloadBytesPerTile + byte)) =
      before (.input rank (program.links.start link + t) (program.pageOffset byte)) := by
  refine reads.eq_source ?_ ?_ ?_
  · exact mem_onLinks.mpr ⟨rank, isRank, link, isLink,
      mem_dramReader.mpr ⟨t, isTile, byte, inside, rfl⟩⟩
  · intro other member same
    obtain ⟨_, -, _, -, ofLink⟩ := mem_onLinks.mp member
    obtain ⟨u, -, place, within, rfl⟩ := mem_dramReader.mp ofLink
    obtain ⟨rfl, rfl, places⟩ := Cell.staged.inj same
    obtain ⟨rfl, rfl⟩ := place_inj within inside places
    rfl
  · intro other member
    obtain ⟨_, -, _, -, ofLink⟩ := mem_onLinks.mp member
    obtain ⟨_, -, _, -, rfl⟩ := mem_dramReader.mp ofLink
    exact nofun

/-- Every slot has the bytes of its rank's tiles, one tile behind the other. -/
theorem arrived_eq (reads : Completes program.reads before staged)
    (sends : Completes program.sends staged arrived) {index : Nat}
    (isRank : rank < program.ringSize) (isCore : index < program.cores.length)
    (isTile : t < program.numPages) (inside : byte < program.payloadBytesPerTile) :
    arrived (.scratch (program.core index)
        (program.slotStart rank + (t * program.payloadBytesPerTile + byte))) =
      before (.input rank (index * program.numPages + t) (program.pageOffset byte)) := by
  have isPage : index * program.numPages + t < program.links.start program.links.numLinks := by
    rw [program.covers]
    calc
      index * program.numPages + t < (index + 1) * program.numPages := by
        rw [Nat.add_mul, Nat.one_mul]
        exact Nat.add_lt_add_left isTile _
      _ ≤ program.cores.length * program.numPages := Nat.mul_le_mul_right _ isCore
  obtain ⟨link, isLink, u, ofLink, isSame⟩ := program.links.exists_link isPage
  have onCore : (program.links.start link + u) / program.numPages = index := by
    rw [isSame, Nat.mul_comm, Nat.mul_add_div program.numPages_pos, Nat.div_eq_of_lt isTile,
      Nat.add_zero]
  have inSlot : (program.links.start link + u) % program.numPages = t := by
    rw [isSame, Nat.mul_add_mod_self_right, Nat.mod_eq_of_lt isTile]
  rw [← isSame, ← staged_eq reads isRank isLink ofLink inside]
  refine sends.eq_source ?_ ?_ ?_
  · refine mem_onLinks.mpr ⟨rank, isRank, link, isLink,
      mem_workerWriter.mpr ⟨u, ofLink, byte, inside, ?_⟩⟩
    rw [onCore, inSlot]
  · intro other member same
    obtain ⟨rank', -, link', isLink', ofOther⟩ := mem_onLinks.mp member
    obtain ⟨u', ofLink', byte', inside', rfl⟩ := mem_workerWriter.mp ofOther
    have isPage' := program.page_lt isLink' ofLink'
    obtain ⟨sameCore, sameSlot⟩ := Cell.scratch.inj same
    have isIndex := program.core_inj (Nat.div_lt_of_lt_mul (by rwa [Nat.mul_comm])) isCore sameCore
    obtain ⟨rfl, sameTile, rfl⟩ := program.slot_inj (Nat.mod_lt _ program.numPages_pos) isTile
      inside' inside sameSlot
    -- So the page is the same, and with it the link.
    have samePage : program.links.start link' + u' = program.links.start link + u := by
      rw [← Nat.div_add_mod (program.links.start link' + u') program.numPages, isIndex, sameTile,
        isSame, Nat.mul_comm]
    obtain ⟨rfl, rfl⟩ := program.links.page_inj ofLink' ofLink samePage
    rfl
  · intro other member
    obtain ⟨_, -, _, -, ofOther⟩ := mem_onLinks.mp member
    obtain ⟨_, -, _, -, rfl⟩ := mem_workerWriter.mp ofOther
    exact nofun

end Program

section

variable {Byte Dst : Type} (addition : Addition Byte Dst) (program : Program) (in0 out : Nat → Byte)

/-- An element starts at an even address, and is within one page. -/
theorem element_packTile {address : Nat} (even : 2 ∣ address) (page : Nat)
    (tile : Nat → Byte × Byte) :
    element (packTile out page tile) address =
      if address / tileBytes = page then tile (address % tileBytes / 2)
      else element out address := by
  obtain ⟨half, rfl⟩ := even
  have samePage : (2 * half + 1) / tileBytes = 2 * half / tileBytes := by
    unfold tileBytes tileHeight tileWidth
    omega
  have sameElement : (2 * half + 1) % tileBytes / 2 = 2 * half % tileBytes / 2 := by
    unfold tileBytes tileHeight tileWidth
    omega
  have first : 2 * half % 2 = 0 := by omega
  have second : (2 * half + 1) % 2 ≠ 0 := by omega
  simp only [element, packTile, samePage, sameElement, first, second, if_true, if_false]
  split <;> rfl

/-- What the slots add up to at an address. -/
def slotSum (address : Nat) : Byte × Byte :=
  addition.sum program.ringSize fun block => element in0 (program.slotStart block + address)

/-- The first pages have the sums, and the others what they had. -/
def SumsUpTo (pages : Nat) (sums : Nat → Byte) : Prop :=
  ∀ address, 2 ∣ address → element sums address =
    if address / tileBytes < pages then slotSum addition program in0 address
    else element out address

variable {addition program in0 out}

/-- One more page. -/
theorem SumsUpTo.packTile {pages : Nat} {sums : Nat → Byte}
    (upTo : SumsUpTo addition program in0 out pages sums) :
    SumsUpTo addition program in0 out (pages + 1) (packTile sums pages fun e =>
      addition.sum program.ringSize fun block =>
        element in0 ((block * program.numPages + pages) * tileBytes + 2 * e)) := by
  intro address even
  rw [element_packTile _ even, upTo address even]
  by_cases isPage : address / tileBytes = pages
  · have place (block : Nat) : (block * program.numPages + pages) * tileBytes +
        2 * (address % tileBytes / 2) = program.slotStart block + address := by
      have split := Nat.div_add_mod address tileBytes
      have halves : 2 * (address % tileBytes / 2) = address % tileBytes := by
        unfold tileBytes tileHeight tileWidth
        omega
      rw [halves, Nat.add_mul, ← isPage, Nat.mul_comm (address / tileBytes), Nat.add_assoc, split]
      rfl
    simp only [isPage, if_true, place, Nat.lt_succ_self]
    rfl
  · have either : address / tileBytes < pages + 1 ↔ address / tileBytes < pages := by omega
    simp only [isPage, if_false, either]

theorem SumsUpTo.turn {state : (Nat → Byte) × Nat}
    (upTo : SumsUpTo addition program in0 out state.2 state.1) :
    SumsUpTo addition program in0 out (reductionTurn addition program in0 state).2
      (reductionTurn addition program in0 state).1 := by
  apply foldl_range_induct (fun i sums => SumsUpTo addition program in0 out (state.2 + i) sums)
  · exact upTo
  · intro i _ sums upTo
    exact upTo.packTile

variable (addition program in0 out) in
/-- The turns get to every page that is to be reduced, and no further. -/
theorem reduction_upTo :
    SumsUpTo addition program in0 out program.reduceTiles (reduction addition program in0 out) := by
  have turns : ∀ count, ((List.range count).foldl
      (fun state _ => reductionTurn addition program in0 state) (out, 0)).2 =
        min (count * program.maxDstTiles) program.reduceTiles ∧
      SumsUpTo addition program in0 out
        ((List.range count).foldl (fun state _ => reductionTurn addition program in0 state)
          (out, 0)).2
        ((List.range count).foldl (fun state _ => reductionTurn addition program in0 state)
          (out, 0)).1 := by
    intro count
    apply foldl_range_induct (fun turns (state : (Nat → Byte) × Nat) =>
      state.2 = min (turns * program.maxDstTiles) program.reduceTiles ∧
        SumsUpTo addition program in0 out state.2 state.1)
    · refine ⟨by simp, fun address _ => ?_⟩
      rw [if_neg (Nat.not_lt_zero _)]
    · intro i _ state invariant
      refine ⟨?_, invariant.2.turn⟩
      rw [Nat.add_mul, Nat.one_mul]
      change state.2 + min program.maxDstTiles (program.reduceTiles - state.2) = _
      omega
  obtain ⟨count, upTo⟩ :=
    turns ((program.reduceTiles + program.maxDstTiles - 1) / program.maxDstTiles)
  have enough : program.reduceTiles ≤
      (program.reduceTiles + program.maxDstTiles - 1) / program.maxDstTiles * program.maxDstTiles :=
    (roundUp_spec _ program.maxDst_pos).2.1
  rw [Nat.min_eq_right enough] at count
  rw [count] at upTo
  exact upTo

end

theorem mem_outputStarts {numPages start : Nat} {cores : List (Nat × Nat)}
    {share : (Nat × Nat) × Nat} :
    share ∈ outputStarts numPages start cores ↔
      ∃ index < cores.length, share = (cores.getD index (0, 0), start + index * numPages) := by
  induction cores generalizing start with
  | nil => exact ⟨nofun, nofun⟩
  | cons core cores ih =>
    rw [outputStarts, List.mem_cons, ih]
    constructor
    · rintro (rfl | ⟨index, less, rfl⟩)
      · exact ⟨0, Nat.zero_lt_succ _, by simp⟩
      · refine ⟨index + 1, Nat.succ_lt_succ less, ?_⟩
        rw [List.getD_cons_succ, Nat.add_mul, Nat.one_mul, Nat.add_assoc,
          Nat.add_comm numPages]
    · rintro ⟨index, less, rfl⟩
      cases index with
      | zero => exact .inl (by simp)
      | succ index =>
        refine .inr ⟨index, Nat.lt_of_succ_lt_succ less, ?_⟩
        rw [List.getD_cons_succ, Nat.add_mul, Nat.one_mul, Nat.add_assoc,
          Nat.add_comm numPages]

namespace Program

theorem mem_writes :
    copy ∈ program.writes ↔ ∃ index < program.cores.length, ∃ t < program.numPages,
      ∃ byte < program.payloadBytesPerTile,
        copy = ⟨.output (index * program.numPages + t) (program.pageOffset byte),
          .reduced (program.core index) (t * program.payloadBytesPerTile + byte)⟩ := by
  simp only [writes, List.mem_flatMap, mem_dramWriter]
  constructor
  · rintro ⟨share, isShare, t, isTile, byte, inside, rfl⟩
    obtain ⟨index, isCore, rfl⟩ := mem_outputStarts.mp isShare
    refine ⟨index, isCore, t, isTile, byte, inside, ?_⟩
    rw [Nat.zero_add]
    rfl
  · rintro ⟨index, isCore, t, isTile, byte, inside, rfl⟩
    refine ⟨_, mem_outputStarts.mpr ⟨index, isCore, rfl⟩, t, isTile, byte, inside, ?_⟩
    rw [Nat.zero_add]
    rfl

theorem pageOffset_inj (program : Program) {other : Nat}
    (same : program.pageOffset byte = program.pageOffset other) : byte = other := by
  unfold pageOffset at same
  cases isPacked : program.packedTileBytes with
  | none =>
    rw [isPacked] at same
    exact same
  | some packed =>
    rw [isPacked] at same
    obtain ⟨half, rfl, some, small⟩ := program.packed_faces packed isPacked
    have isHalf : packedFaceBytes (2 * (2 * half)) = 2 * half :=
      Nat.mul_div_cancel_left _ (by decide)
    simp only [isHalf] at same
    have positive : 0 < 2 * half := by omega
    have places := place_inj ((Nat.mod_lt byte positive).trans_le small)
      ((Nat.mod_lt other positive).trans_le small) same
    rw [← Nat.div_add_mod byte (2 * half), ← Nat.div_add_mod other (2 * half), places.1, places.2]

variable {Byte Dst : Type} {addition : Addition Byte Dst} {program : Program}
  {before arrived after : Cell → Byte}

theorem written_eq (writes : Completes program.writes (reduceAll addition program arrived) after)
    {index : Nat} (isCore : index < program.cores.length) (isTile : t < program.numPages)
    (inside : byte < program.payloadBytesPerTile) :
    after (.output (index * program.numPages + t) (program.pageOffset byte)) =
      reduction addition program (fun address => arrived (.scratch (program.core index) address))
        (fun address => arrived (.reduced (program.core index) address))
        (t * program.payloadBytesPerTile + byte) := by
  have isMember : program.core index ∈ program.cores := by
    unfold core
    rw [List.getD_eq_getElem _ _ isCore]
    exact List.getElem_mem isCore
  have isReduced : reduction addition program
      (fun address => arrived (.scratch (program.core index) address))
      (fun address => arrived (.reduced (program.core index) address))
      (t * program.payloadBytesPerTile + byte) = reduceAll addition program arrived
        (.reduced (program.core index) (t * program.payloadBytesPerTile + byte)) := by
    rw [reduceAll, if_pos isMember]
  rw [isReduced]
  refine writes.eq_source ?_ ?_ ?_
  · exact mem_writes.mpr ⟨index, isCore, t, isTile, byte, inside, rfl⟩
  · intro other member same
    obtain ⟨index', -, t', isTile', byte', -, rfl⟩ := mem_writes.mp member
    obtain ⟨samePage, sameOffset⟩ := Cell.output.inj same
    obtain ⟨rfl, rfl⟩ := place_inj isTile' isTile samePage
    rw [program.pageOffset_inj sameOffset]
  · intro other member
    obtain ⟨_, -, _, -, _, -, rfl⟩ := mem_writes.mp member
    exact nofun

end Program

theorem Addition.sum_congr {Byte Dst : Type} (addition : Addition Byte Dst) {numBlocks : Nat}
    {first second : Nat → Byte × Byte} (even : numBlocks % 2 = 0)
    (same : ∀ block < numBlocks, first block = second block) :
    addition.sum numBlocks first = addition.sum numBlocks second := by
  unfold sum
  congr 1
  apply List.foldl_ext
  intro dst pair isPair
  rw [List.mem_range] at isPair
  rw [same _ (by omega), same _ (by omega)]

namespace Program

variable {Byte Dst : Type} {addition : Addition Byte Dst} {program : Program}
  {before after : Cell → Byte}

/-- The payload of a slot is within the pages that are reduced. -/
theorem payload_reduced (program : Program) (isTile : t < program.numPages)
    (inside : byte < program.payloadBytesPerTile) :
    (t * program.payloadBytesPerTile + byte) / tileBytes < program.reduceTiles := by
  have less : t * program.payloadBytesPerTile + byte <
      program.numPages * program.payloadBytesPerTile := by
    calc
      t * program.payloadBytesPerTile + byte < (t + 1) * program.payloadBytesPerTile := by
        rw [Nat.add_mul, Nat.one_mul]
        exact Nat.add_lt_add_left inside _
      _ ≤ program.numPages * program.payloadBytesPerTile := Nat.mul_le_mul_right _ isTile
  apply Nat.div_lt_of_lt_mul
  rw [Nat.mul_comm tileBytes]
  apply less.trans_le
  unfold payloadBytesPerTile reduceTiles
  cases program.packedTileBytes with
  | none => exact le_refl _
  | some packed =>
    exact (roundUp_spec (program.numPages * packed) (by decide : 0 < tileBytes)).2.1

/-- What stands at even places of what is sent, and behind them, is added up over the ranks. -/
theorem Runs.sums (runs : program.Runs addition before after) (even : program.ringSize % 2 = 0)
    {index : Nat} (isCore : index < program.cores.length) (isTile : t < program.numPages)
    (isElement : 2 ∣ byte) (inside : byte + 1 < program.payloadBytesPerTile) :
    (after (.output (index * program.numPages + t) (program.pageOffset byte)),
        after (.output (index * program.numPages + t) (program.pageOffset (byte + 1)))) =
      addition.sum program.ringSize fun rank =>
        (before (.input rank (index * program.numPages + t) (program.pageOffset byte)),
          before (.input rank (index * program.numPages + t) (program.pageOffset (byte + 1)))) := by
  obtain ⟨staged, arrived, reads, sends, writes⟩ := runs
  have first : byte < program.payloadBytesPerTile := Nat.lt_of_succ_lt inside
  have payloadEven : 2 ∣ program.payloadBytesPerTile := by
    unfold payloadBytesPerTile
    cases isPacked : program.packedTileBytes with
    | none => exact show 2 ∣ tileBytes by decide
    | some packed =>
      obtain ⟨half, rfl, -⟩ := program.packed_faces packed isPacked
      exact Nat.dvd_mul_right 2 _
  have address : 2 ∣ t * program.payloadBytesPerTile + byte :=
    (Nat.dvd_add_right (Dvd.dvd.mul_left payloadEven t)).mpr isElement
  rw [written_eq writes isCore isTile first, written_eq writes isCore isTile inside]
  have reduced := reduction_upTo addition program
    (fun address => arrived (.scratch (program.core index) address))
    (fun address => arrived (.reduced (program.core index) address)) _ address
  rw [if_pos (program.payload_reduced isTile first)] at reduced
  refine reduced.trans (addition.sum_congr even fun rank isRank => ?_)
  have second := arrived_eq reads sends isRank isCore isTile inside
  rw [← Nat.add_assoc, ← Nat.add_assoc] at second
  rw [element, arrived_eq reads sends isRank isCore isTile first, ← Nat.add_assoc, second]

end Program

end Libtt.AllReduce

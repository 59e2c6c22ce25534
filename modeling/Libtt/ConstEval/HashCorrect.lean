import Libtt.ConstEval.Hash
import Mathlib.Data.List.Perm.Basic
import Mathlib.Data.List.Sort
import Mathlib.Tactic.Ring

/-!
# The const-eval hash is order-free and sound

The keys solve one equation for each operation, which the order of the operations is no part of, and
where producers stand before consumers the equations have one solution.
-/
namespace Libtt.ConstEval

open Libtt.Foundation

variable {Name Attribute Ty : Type} {print : Printing Name Attribute Ty}
  {sha256 : Text → List UInt8} {hashFuncOp : FuncOp Name Attribute Ty → Text}
  {op other : Operation Name Attribute Ty} {ops block block' : List (Operation Name Attribute Ty)}
  {keys key key' : Nat → Text} {before : List Nat}

theorem space_not_mem_number (number : Nat) : ' ' ∉ (toString number).toList := by
  intro member
  have letters := isNumeral_nat number ' ' member
  exact absurd letters (by decide)

theorem number_injective {first second : Nat}
    (same : (toString first).toList = (toString second).toList) : first = second :=
  toString_nat_injective (String.toList_inj.mp same)

theorem IsOperandText.plain {text : Text} (isOperand : IsOperandText text) : ' ' ∉ text := by
  rcases isOperand with ⟨number, rfl⟩ | ⟨bytes, number, rfl⟩
  · simp only [List.mem_append, not_or]
    exact ⟨by decide, space_not_mem_number number⟩
  · simp only [List.mem_append, List.mem_cons, not_or]
    exact ⟨not_mem_toHex (by decide) bytes, by decide, space_not_mem_number number⟩

/-- Result types, then operands, behind spaces. -/
theorem types_operands_inj {types others : List Ty} {operands pieces : List Text}
    (areOperands : ∀ text ∈ operands, IsOperandText text)
    (areOperandsToo : ∀ text ∈ pieces, IsOperandText text)
    (same : spaced (types.map print.type) ++ spaced operands =
      spaced (others.map print.type) ++ spaced pieces) :
    types = others ∧ operands = pieces := by
  induction types generalizing others with
  | nil =>
    cases others with
    | nil =>
      exact ⟨rfl, spaced_injective (fun text member => (areOperands text member).plain)
        (fun text member => (areOperandsToo text member).plain) same⟩
    | cons other others =>
      cases operands with
      | nil => cases same
      | cons operand operands =>
        simp only [List.map_nil, List.map_cons, spaced_nil, spaced_cons, List.nil_append,
          List.cons_append, List.append_assoc, List.cons.injEq, true_and] at same
        refine absurd same.symm ?_
        exact print.type_apart other operand _ _ (areOperands operand List.mem_cons_self)
          (ends_append_spaced _ _) (ends_spaced _)
  | cons type types ih =>
    cases others with
    | nil =>
      cases pieces with
      | nil => cases same
      | cons piece pieces =>
        simp only [List.map_nil, List.map_cons, spaced_nil, spaced_cons, List.nil_append,
          List.cons_append, List.append_assoc, List.cons.injEq, true_and] at same
        refine absurd same ?_
        exact print.type_apart type piece _ _ (areOperandsToo piece List.mem_cons_self)
          (ends_append_spaced _ _) (ends_spaced _)
    | cons other others =>
      simp only [List.map_cons, spaced_cons, List.cons_append, List.append_assoc,
        List.cons.injEq, true_and] at same
      have first := print.type_read type other _ _ (ends_append_spaced _ _)
        (ends_append_spaced _ _) same
      have rest := ih first.2
      exact ⟨by rw [first.1, rest.1], rest.2⟩

/-- The attributes that may be missing, before a space or the end. -/
theorem properties_inj {first second : Option Attribute} {rest more : Text} (ends : Ends rest)
    (endsMore : Ends more)
    (same : first.elim [] print.attr ++ rest = second.elim [] print.attr ++ more) :
    first = second ∧ rest = more := by
  have opens : ∀ own rest more, Ends rest → print.attr own ++ more ≠ rest := by
    intro own rest more restEnds equal
    obtain ⟨inside, opening⟩ := print.attr_opens own
    rw [opening, List.cons_append] at equal
    rcases restEnds with rfl | ⟨tail, rfl⟩
    · cases equal
    · exact absurd (List.cons.inj equal).1 (by decide)
  cases first with
  | none =>
    cases second with
    | none => exact ⟨rfl, same⟩
    | some own => exact absurd same.symm (opens own rest more ends)
  | some own =>
    cases second with
    | none => exact absurd same (opens own more rest endsMore)
    | some other =>
      have parts := print.attr_read own other rest more same
      exact ⟨by rw [parts.1], parts.2⟩

/-- The text of a key says what the operation is and what its operands are. -/
theorem text_inj {operands pieces : List Text} (areOperands : ∀ text ∈ operands, IsOperandText text)
    (areOperandsToo : ∀ text ∈ pieces, IsOperandText text)
    (same : headText print op ++ spaced operands = headText print other ++ spaced pieces) :
    op.name = other.name ∧ op.rawDictionaryAttrs = other.rawDictionaryAttrs ∧
      op.propertiesAsAttribute = other.propertiesAsAttribute ∧
        op.resultTypes = other.resultTypes ∧ operands = pieces := by
  simp only [headText, List.append_assoc] at same
  obtain ⟨inside, opening⟩ := print.attr_opens op.rawDictionaryAttrs
  obtain ⟨inside', opening'⟩ := print.attr_opens other.rawDictionaryAttrs
  have names := same
  rw [opening, opening', List.cons_append, List.cons_append] at names
  have isName := (separator_inj (print.name_plain _) (print.name_plain _) names).1
  rw [isName] at same
  have attrs := print.attr_read _ _ _ _ (List.append_cancel_left same)
  have properties := properties_inj (ends_append_spaced _ _) (ends_append_spaced _ _) attrs.2
  have types := types_operands_inj areOperands areOperandsToo properties.2
  exact ⟨print.name_injective isName, attrs.1, properties.1, types.1, types.2⟩

/-- An operand in the text, with a key for every producer. -/
def keyedText (key : Nat → Text) : Value → Text
  | .blockArgument argNumber => "arg".toList ++ (toString argNumber).toList
  | .opResult definingOp resultNumber => key definingOp ++ '#' :: (toString resultNumber).toList

/-- The text that an operation's key hashes. -/
def opText (print : Printing Name Attribute Ty) (key : Nat → Text)
    (op : Operation Name Attribute Ty) : Text :=
  headText print op ++ spaced (op.operands.map (keyedText key))

/-- The keys of the operations are the digests of their texts. -/
def Keyed (print : Printing Name Attribute Ty) (sha256 : Text → List UInt8) (key : Nat → Text)
    (ops : List (Operation Name Attribute Ty)) : Prop :=
  ∀ op ∈ ops, key op.id = sha sha256 (opText print key op)

theorem keyedText_congr {value : Value}
    (same : ∀ definingOp resultNumber, value = .opResult definingOp resultNumber →
      key definingOp = key' definingOp) : keyedText key value = keyedText key' value := by
  cases value with
  | blockArgument argNumber => rfl
  | opResult definingOp resultNumber =>
    rw [keyedText, keyedText, same definingOp resultNumber rfl]

theorem opText_congr (same : ∀ definingOp resultNumber,
    Value.opResult definingOp resultNumber ∈ op.operands → key definingOp = key' definingOp) :
    opText print key op = opText print key' op := by
  have operands : op.operands.map (keyedText key) = op.operands.map (keyedText key') :=
    List.map_congr_left fun value member => keyedText_congr fun definingOp resultNumber equal =>
      same definingOp resultNumber (equal ▸ member)
  rw [opText, opText, operands]

/-- Where producers stand before consumers, the keys have one solution. -/
theorem Keyed.unique (ordered : Ordered before ops) (keyed : Keyed print sha256 key ops)
    (keyed' : Keyed print sha256 key' ops) (agree : ∀ id ∈ before, key id = key' id) :
    ∀ op ∈ ops, key op.id = key' op.id := by
  induction ops generalizing before with
  | nil => exact nofun
  | cons first rest ih =>
    have head : key first.id = key' first.id := by
      rw [keyed first List.mem_cons_self, keyed' first List.mem_cons_self,
        opText_congr fun definingOp resultNumber member =>
          agree definingOp (ordered.1 definingOp resultNumber member)]
    have tail := ih ordered.2 (fun op member => keyed op (List.mem_cons_of_mem _ member))
      (fun op member => keyed' op (List.mem_cons_of_mem _ member)) fun id member => by
        rcases List.mem_cons.mp member with rfl | earlier
        · exact head
        · exact agree id earlier
    intro op member
    rcases List.mem_cons.mp member with rfl | later
    · exact head
    · exact tail op later

theorem mapM_eq_some {α β : Type} {f : α → Option β} {g : α → β} {values : List α}
    (each : ∀ value ∈ values, f value = some (g value)) :
    values.mapM f = some (values.map g) := by
  induction values with
  | nil => rfl
  | cons value values ih =>
    rw [List.mapM_cons, each value List.mem_cons_self,
      ih fun other member => each other (List.mem_cons_of_mem _ member)]
    rfl

/-- The loop over the operations computes the solution. -/
theorem opKeys_eq (known : Nat → Option Text) (ordered : Ordered before ops)
    (has : ∀ id ∈ before, (known id).isSome) (distinct : (ops.map Operation.id).Nodup)
    (apart : ∀ op ∈ ops, op.id ∉ before) (noRegions : ∀ op ∈ ops, op.numRegions = 0)
    (noWrites : ∀ op ∈ ops, op.mightWrite = false) :
    ∃ key, (∀ id ∈ before, known id = some (key id)) ∧
      opKeys print sha256 known ops = some (ops.map fun op => key op.id) ∧
        Keyed print sha256 key ops := by
  induction ops generalizing before known with
  | nil =>
    refine ⟨fun id => (known id).getD [], fun id member => ?_, rfl, nofun⟩
    obtain ⟨text, isText⟩ := Option.isSome_iff_exists.mp (has id member)
    simp [isText]
  | cons first rest ih =>
    let start := fun id => (known id).getD []
    have isStart : ∀ id ∈ before, known id = some (start id) := by
      intro id member
      obtain ⟨text, isText⟩ := Option.isSome_iff_exists.mp (has id member)
      simp [start, isText]
    have operands : first.operands.mapM (operandText known) =
        some (first.operands.map (keyedText start)) := by
      refine mapM_eq_some fun value member => ?_
      cases value with
      | blockArgument argNumber => rfl
      | opResult definingOp resultNumber =>
        rw [operandText, isStart definingOp (ordered.1 definingOp resultNumber member)]
        rfl
    have firstKey : opKey print sha256 known first = some (sha sha256 (opText print start first)) := by
      rw [opKey, if_neg (by simp [noRegions first, noWrites first]), operands]
      rfl
    obtain ⟨distinctHead, distinctRest⟩ := List.nodup_cons.mp distinct
    obtain ⟨key, same, result, keyed⟩ := ih
      (Function.update known first.id (some (sha sha256 (opText print start first))))
      ordered.2 (fun id member => by
        rcases List.mem_cons.mp member with rfl | earlier
        · simp
        · by_cases isFirst : id = first.id
          · subst isFirst
            simp
          · rw [Function.update_of_ne isFirst]
            exact has id earlier) distinctRest (fun op member isBefore => by
        rcases List.mem_cons.mp isBefore with isFirst | earlier
        · exact distinctHead (isFirst ▸ List.mem_map_of_mem member)
        · exact apart op (List.mem_cons_of_mem _ member) earlier)
      (fun op member => noRegions op (List.mem_cons_of_mem _ member))
      (fun op member => noWrites op (List.mem_cons_of_mem _ member))
    have own : key first.id = sha sha256 (opText print start first) := by
      have updated := same first.id List.mem_cons_self
      rw [Function.update_self] at updated
      exact (Option.some.inj updated).symm
    have earlier : ∀ id ∈ before, known id = some (key id) := by
      intro id member
      have different : id ≠ first.id := by
        rintro rfl
        exact apart first List.mem_cons_self member
      rw [← same id (List.mem_cons_of_mem _ member), Function.update_of_ne different]
    refine ⟨key, earlier, ?_, fun op member => ?_⟩
    · rw [opKeys, firstKey, Option.bind_some, result, Option.map_some, List.map_cons, own]
    · rcases List.mem_cons.mp member with rfl | later
      · rw [own, opText_congr fun definingOp resultNumber isOperand => ?_]
        have isBefore := ordered.1 definingOp resultNumber isOperand
        exact Option.some.inj ((isStart definingOp isBefore).symm.trans (earlier definingOp isBefore))
      · exact keyed op later

/-- The keys of a block whose order matters to nothing. -/
theorem OrderFree.exists_keys (free : OrderFree block) (print : Printing Name Attribute Ty)
    (sha256 : Text → List UInt8) : ∃ key, Keyed print sha256 key block ∧
      opKeys print sha256 (fun _ => none) block = some (block.map fun op => key op.id) := by
  have solution : ∃ key, _ ∧ opKeys print sha256 (fun _ => none) block =
      some (block.map fun op => key op.id) ∧ Keyed print sha256 key block :=
    opKeys_eq _ free.ordered nofun free.distinct nofun free.noRegions free.noWrites
  obtain ⟨key, _, result, keyed⟩ := solution
  exact ⟨key, keyed, result⟩

theorem mergeSort_eq_of_perm {first second : List Text} (perm : first.Perm second) :
    first.mergeSort (· ≤ ·) = second.mergeSort (· ≤ ·) := by
  have permuted := ((List.mergeSort_perm first (· ≤ ·)).trans perm).trans
    (List.mergeSort_perm second (· ≤ ·)).symm
  exact permuted.eq_of_pairwise (fun _ _ _ _ => le_antisymm)
    (List.pairwise_mergeSort' _ first) (List.pairwise_mergeSort' _ second)

/-- A block in another order, producers before consumers, has the same keys. -/
theorem OrderFree.keys_perm (free : OrderFree block) (perm : block.Perm block')
    (keyed : Keyed print sha256 key block)
    (keyed' : Keyed print sha256 key' block') :
    (block.map fun op => key op.id).Perm (block'.map fun op => key' op.id) := by
  have same := Keyed.unique free.ordered keyed (fun op member => keyed' op (perm.mem_iff.mp member))
    (fun _ member => absurd member List.not_mem_nil)
  rw [List.map_congr_left same]
  exact perm.map _

theorem OrderFree.reorder (free : OrderFree block) (perm : block.Perm block')
    (ordered : Ordered [] block') : OrderFree block' where
  distinct := ((perm.map Operation.id).nodup_iff).mp free.distinct
  ordered := ordered
  noRegions op member := free.noRegions op (perm.mem_iff.mpr member)
  noWrites op member := free.noWrites op (perm.mem_iff.mpr member)

theorem mapM_isSome {α β : Type} {f : α → Option β} {values : List α} {results : List β}
    (all : values.mapM f = some results) : ∀ value ∈ values, (f value).isSome := by
  induction values generalizing results with
  | nil => exact nofun
  | cons first rest ih =>
    rw [List.mapM_cons, Option.bind_eq_bind, Option.bind_eq_some_iff] at all
    obtain ⟨result, isFirst, all⟩ := all
    rw [Option.bind_eq_bind, Option.bind_eq_some_iff] at all
    obtain ⟨others, areRest, _⟩ := all
    intro value member
    rcases List.mem_cons.mp member with rfl | later
    · rw [isFirst, Option.isSome_some]
    · exact ih areRest value later

/-- An operation that has a key: no regions, no writes, and only operands whose producers have. -/
theorem opKey_eq_some {known : Nat → Option Text} {text : Text}
    (hasKey : opKey print sha256 known op = some text) :
    op.numRegions = 0 ∧ op.mightWrite = false ∧ ∀ definingOp resultNumber,
      Value.opResult definingOp resultNumber ∈ op.operands → (known definingOp).isSome := by
  unfold opKey at hasKey
  split at hasKey
  · cases hasKey
  · next plain =>
    simp only [not_or, not_not, Bool.not_eq_true] at plain
    obtain ⟨operands, areOperands, _⟩ := Option.map_eq_some_iff.mp hasKey
    refine ⟨plain.1, plain.2, fun definingOp resultNumber member => ?_⟩
    have isSome := mapM_isSome areOperands _ member
    rwa [operandText, Option.isSome_map] at isSome

/-- What keeps the exact hash: regions, a write, or a value from elsewhere. -/
def Exact (block : List (Operation Name Attribute Ty)) (op : Operation Name Attribute Ty) : Prop :=
  op.numRegions ≠ 0 ∨ op.mightWrite = true ∨ ∃ definingOp resultNumber,
    Value.opResult definingOp resultNumber ∈ op.operands ∧ definingOp ∉ block.map Operation.id

theorem opKeys_eq_some {known : Nat → Option Text} {texts : List Text}
    (hasKeys : opKeys print sha256 known ops = some texts) : ∀ op ∈ ops,
      op.numRegions = 0 ∧ op.mightWrite = false ∧ ∀ definingOp resultNumber,
        Value.opResult definingOp resultNumber ∈ op.operands →
          (known definingOp).isSome ∨ definingOp ∈ ops.map Operation.id := by
  induction ops generalizing known texts with
  | nil => exact nofun
  | cons first rest ih =>
    obtain ⟨text, isFirst, hasRest⟩ := Option.bind_eq_some_iff.mp hasKeys
    obtain ⟨others, areRest, _⟩ := Option.map_eq_some_iff.mp hasRest
    have plain := opKey_eq_some isFirst
    intro op member
    rcases List.mem_cons.mp member with rfl | later
    · exact ⟨plain.1, plain.2.1, fun definingOp resultNumber operand =>
        .inl (plain.2.2 definingOp resultNumber operand)⟩
    · have tail := ih areRest op later
      refine ⟨tail.1, tail.2.1, fun definingOp resultNumber operand => ?_⟩
      rcases tail.2.2 definingOp resultNumber operand with known' | inRest
      · by_cases isFirst : definingOp = first.id
        · exact .inr (isFirst ▸ List.mem_cons_self)
        · rw [Function.update_of_ne isFirst] at known'
          exact .inl known'
      · exact .inr (List.mem_cons_of_mem _ inRest)

theorem opKeys_eq_none (member : op ∈ block) (exact : Exact block op) :
    opKeys print sha256 (fun _ => none) block = none := by
  by_contra isSome
  obtain ⟨texts, hasKeys⟩ := Option.ne_none_iff_exists'.mp isSome
  have plain := opKeys_eq_some hasKeys op member
  rcases exact with regions | writes | ⟨definingOp, resultNumber, operand, elsewhere⟩
  · exact regions plain.1
  · rw [plain.2.1] at writes
    cases writes
  · rcases plain.2.2 definingOp resultNumber operand with known | inside
    · cases known
    · exact elsewhere inside

theorem Ordered.producer_mem (ordered : Ordered before ops) (member : op ∈ ops)
    {definingOp resultNumber : Nat} (operand : Value.opResult definingOp resultNumber ∈ op.operands) :
    definingOp ∈ before ∨ definingOp ∈ ops.map Operation.id := by
  induction ops generalizing before with
  | nil => cases member
  | cons first rest ih =>
    rcases List.mem_cons.mp member with rfl | later
    · exact .inl (ordered.1 definingOp resultNumber operand)
    · rcases ih ordered.2 later with isBefore | inRest
      · rcases List.mem_cons.mp isBefore with rfl | earlier
        · exact .inr List.mem_cons_self
        · exact .inl earlier
      · exact .inr (List.mem_cons_of_mem _ inRest)

theorem OrderFree.producer (free : OrderFree block) (member : op ∈ block)
    {definingOp resultNumber : Nat} (operand : Value.opResult definingOp resultNumber ∈ op.operands) :
    ∃ producer ∈ block, producer.id = definingOp :=
  List.mem_map.mp ((free.ordered.producer_mem member operand).resolve_left List.not_mem_nil)

/-- Where every producer has its digest for a key, the operands are operand texts. -/
theorem OrderFree.isOperandText (free : OrderFree block) (keyed : Keyed print sha256 key block)
    (member : op ∈ block) : ∀ text ∈ op.operands.map (keyedText key), IsOperandText text := by
  intro text isText
  obtain ⟨value, isOperand, rfl⟩ := List.mem_map.mp isText
  cases value with
  | blockArgument argNumber => exact .inl ⟨argNumber, rfl⟩
  | opResult definingOp resultNumber =>
    obtain ⟨producer, inBlock, rfl⟩ := free.producer member isOperand
    exact .inr ⟨_, resultNumber, by rw [keyedText, keyed producer inBlock, sha]⟩

/-- Equal keys come from equal operations, with equal operand texts. -/
theorem key_inj (injective : Function.Injective sha256) (free : OrderFree block)
    (free' : OrderFree block') (keyed : Keyed print sha256 key block)
    (keyed' : Keyed print sha256 key' block') (member : op ∈ block) (member' : other ∈ block')
    (same : key op.id = key' other.id) :
    op.name = other.name ∧ op.rawDictionaryAttrs = other.rawDictionaryAttrs ∧
      op.propertiesAsAttribute = other.propertiesAsAttribute ∧
        op.resultTypes = other.resultTypes ∧
          op.operands.map (keyedText key) = other.operands.map (keyedText key') := by
  rw [keyed op member, keyed' other member'] at same
  exact text_inj (free.isOperandText keyed member) (free'.isOperandText keyed' member')
    (injective (toHex_injective same))

/-- Two operands that mean the same: one argument, or one result of producers with equal keys. -/
inductive SameOperand (key key' : Nat → Text) : Value → Value → Prop where
  | argument (argNumber : Nat) :
    SameOperand key key' (.blockArgument argNumber) (.blockArgument argNumber)
  | result {definingOp definingOp' : Nat} (resultNumber : Nat)
    (same : key definingOp = key' definingOp') :
    SameOperand key key' (.opResult definingOp resultNumber) (.opResult definingOp' resultNumber)

theorem letter_mem_argument : 'r' ∈ "arg".toList := by decide

theorem letter_not_mem_result (bytes : List UInt8) (number : Nat) :
    'r' ∉ toHex bytes ++ '#' :: (toString number).toList := by
  simp only [List.mem_append, List.mem_cons, not_or]
  refine ⟨not_mem_toHex (by decide) bytes, by decide, fun member => ?_⟩
  exact absurd (isNumeral_nat number 'r' member) (by decide)

theorem sameOperand_of_text {value value' : Value}
    (digest : ∀ definingOp resultNumber, value = .opResult definingOp resultNumber →
      ∃ bytes, key definingOp = toHex bytes)
    (digest' : ∀ definingOp resultNumber, value' = .opResult definingOp resultNumber →
      ∃ bytes, key' definingOp = toHex bytes)
    (same : keyedText key value = keyedText key' value') : SameOperand key key' value value' := by
  cases value with
  | blockArgument argNumber =>
    cases value' with
    | blockArgument argNumber' =>
      rw [number_injective (List.append_cancel_left same)]
      exact .argument argNumber'
    | opResult definingOp' resultNumber' =>
      obtain ⟨bytes, isDigest⟩ := digest' definingOp' resultNumber' rfl
      rw [keyedText, keyedText, isDigest] at same
      exact absurd (same ▸ List.mem_append_left _ letter_mem_argument)
        (letter_not_mem_result bytes _)
  | opResult definingOp resultNumber =>
    obtain ⟨bytes, isDigest⟩ := digest definingOp resultNumber rfl
    cases value' with
    | blockArgument argNumber' =>
      rw [keyedText, keyedText, isDigest] at same
      exact absurd (same ▸ List.mem_append_left _ letter_mem_argument)
        (letter_not_mem_result bytes _)
    | opResult definingOp' resultNumber' =>
      obtain ⟨bytes', isDigest'⟩ := digest' definingOp' resultNumber' rfl
      rw [keyedText, keyedText, isDigest, isDigest'] at same
      have parts := separator_inj (not_mem_toHex (by decide) bytes)
        (not_mem_toHex (by decide) bytes') same
      rw [number_injective parts.2]
      exact .result resultNumber' (by rw [isDigest, isDigest', parts.1])

theorem OrderFree.digest (free : OrderFree block) (keyed : Keyed print sha256 key block)
    (member : op ∈ block) {value : Value} (operand : value ∈ op.operands)
    (definingOp resultNumber : Nat) (isResult : value = .opResult definingOp resultNumber) :
    ∃ bytes, key definingOp = toHex bytes := by
  obtain ⟨producer, inBlock, rfl⟩ := free.producer member (isResult ▸ operand)
  exact ⟨_, keyed producer inBlock⟩

/-- Equal operand texts, one by one. -/
theorem sameOperands (free : OrderFree block) (free' : OrderFree block')
    (keyed : Keyed print sha256 key block) (keyed' : Keyed print sha256 key' block')
    (member : op ∈ block) (member' : other ∈ block')
    (same : op.operands.map (keyedText key) = other.operands.map (keyedText key')) :
    List.Forall₂ (fun value value' => SameOperand key key' value value' ∧
      value ∈ op.operands ∧ value' ∈ other.operands) op.operands other.operands := by
  have texts : List.Forall₂ (fun value value' => keyedText key value = keyedText key' value')
      op.operands other.operands := by
    rwa [← List.forall₂_eq_eq_eq, List.forall₂_map_left_iff, List.forall₂_map_right_iff] at same
  have members := List.forall₂_iff_zip.mp texts
  refine List.forall₂_iff_zip.mpr ⟨members.1, fun inZip => ?_⟩
  obtain ⟨inOwn, inOther⟩ := List.of_mem_zip inZip
  exact ⟨sameOperand_of_text (free.digest keyed member inOwn)
    (free'.digest keyed' member' inOther) (members.2 inZip), inOwn, inOther⟩

section

variable {Data : Type} [Inhabited Data] {interpret : Interpretation Name Attribute Ty Data}
  {arguments : List Data} {results results' : Nat → List Data}

/-- The results of the operations follow from the results of their producers. -/
def Solves (interpret : Interpretation Name Attribute Ty Data) (arguments : List Data)
    (results : Nat → List Data) (ops : List (Operation Name Attribute Ty)) : Prop :=
  ∀ op ∈ ops, results op.id = resultsOf interpret arguments results op

theorem resultsOf_congr (same : ∀ definingOp resultNumber,
    Value.opResult definingOp resultNumber ∈ op.operands →
      results definingOp = results' definingOp) :
    resultsOf interpret arguments results op = resultsOf interpret arguments results' op := by
  have operands : op.operands.map (operandValue arguments results) =
      op.operands.map (operandValue arguments results') := by
    refine List.map_congr_left fun value member => ?_
    cases value with
    | blockArgument argNumber => rfl
    | opResult definingOp resultNumber =>
      rw [operandValue, operandValue, same definingOp resultNumber member]
  rw [resultsOf, resultsOf, operands]

/-- An operation leaves the results of the others as they are. -/
theorem run_of_not_mem {id : Nat} (elsewhere : id ∉ ops.map Operation.id) :
    run interpret arguments results ops id = results id := by
  induction ops generalizing results with
  | nil => rfl
  | cons first rest ih =>
    rw [List.map_cons, List.mem_cons, not_or] at elsewhere
    exact (ih elsewhere.2).trans (Function.update_of_ne elsewhere.1 _ _)

theorem run_solves (results : Nat → List Data) (ordered : Ordered before ops) (distinct : (ops.map Operation.id).Nodup)
    (apart : ∀ id ∈ before, id ∉ ops.map Operation.id) :
    Solves interpret arguments (run interpret arguments results ops) ops := by
  induction ops generalizing before results with
  | nil => exact nofun
  | cons first rest ih =>
    obtain ⟨distinctHead, distinctRest⟩ := List.nodup_cons.mp distinct
    have tail := ih (Function.update results first.id
      (resultsOf interpret arguments results first)) ordered.2 distinctRest fun id member inRest => by
        rcases List.mem_cons.mp member with rfl | earlier
        · exact distinctHead inRest
        · exact apart id earlier (List.mem_cons_of_mem _ inRest)
    intro op member
    rcases List.mem_cons.mp member with rfl | later
    · have own : run interpret arguments results (op :: rest) op.id =
          resultsOf interpret arguments results op :=
        (run_of_not_mem distinctHead).trans (Function.update_self _ _ _)
      rw [own]
      exact resultsOf_congr fun definingOp resultNumber operand =>
        (run_of_not_mem (apart definingOp (ordered.1 definingOp resultNumber operand))).symm
    · exact tail op later

/-- Operands that mean the same have the same values, where equal keys have equal results. -/
theorem operandValues_eq (arguments : List Data) (results results' : Nat → List Data)
    (same : List.Forall₂ (fun value value' => SameOperand key key' value value' ∧
      value ∈ op.operands ∧ value' ∈ other.operands) op.operands other.operands)
    (agree : ∀ definingOp definingOp' resultNumber,
      Value.opResult definingOp resultNumber ∈ op.operands →
        Value.opResult definingOp' resultNumber ∈ other.operands →
          key definingOp = key' definingOp' → results definingOp = results' definingOp') :
    op.operands.map (operandValue arguments results) =
      other.operands.map (operandValue arguments results') := by
  rw [← List.forall₂_eq_eq_eq, List.forall₂_map_left_iff, List.forall₂_map_right_iff]
  refine same.imp fun value value' ⟨sameValue, isOwn, isOther⟩ => ?_
  cases sameValue with
  | argument argNumber => rfl
  | result resultNumber sameKey =>
    rw [operandValue, operandValue, agree _ _ resultNumber isOwn isOther sameKey]

/-- Equal keys have equal results: by induction along the order of the first block. -/
theorem results_eq (injective : Function.Injective sha256) (free : OrderFree block)
    (free' : OrderFree block') (keyed : Keyed print sha256 key block)
    (keyed' : Keyed print sha256 key' block') (solves : Solves interpret arguments results block)
    (solves' : Solves interpret arguments results' block') (ordered : Ordered before ops)
    (inBlock : ∀ op ∈ ops, op ∈ block)
    (agree : ∀ id ∈ before, ∀ other ∈ block', key id = key' other.id →
      results id = results' other.id) :
    ∀ op ∈ ops, ∀ other ∈ block', key op.id = key' other.id →
      results op.id = results' other.id := by
  induction ops generalizing before with
  | nil => exact nofun
  | cons first rest ih =>
    have head : ∀ other ∈ block', key first.id = key' other.id →
        results first.id = results' other.id := by
      intro other member' same
      have member := inBlock first List.mem_cons_self
      have parts := key_inj injective free free' keyed keyed' member member' same
      have operands := operandValues_eq arguments results results' (sameOperands free free' keyed
        keyed' member member' parts.2.2.2.2) fun definingOp definingOp' resultNumber isOwn isOther sameKey => by
          obtain ⟨producer, inOther, rfl⟩ := free'.producer member' isOther
          exact agree definingOp (ordered.1 definingOp resultNumber isOwn) producer inOther sameKey
      rw [solves first member, solves' other member', resultsOf, resultsOf, parts.1, parts.2.1,
        parts.2.2.1, parts.2.2.2.1, operands]
    have tail := ih ordered.2 (fun op member => inBlock op (List.mem_cons_of_mem _ member))
      fun id member other isOther => by
        rcases List.mem_cons.mp member with rfl | earlier
        · exact head other isOther
        · exact agree id earlier other isOther
    intro op member
    rcases List.mem_cons.mp member with rfl | later
    · exact head
    · exact tail op later

theorem OrderFree.run_solves (free : OrderFree block) :
    Solves interpret arguments (run interpret arguments (fun _ => []) block) block :=
  ConstEval.run_solves _ free.ordered free.distinct nofun

section

variable (injective : Function.Injective sha256) (free : OrderFree block) (free' : OrderFree block')
  (keyed : Keyed print sha256 key block) (keyed' : Keyed print sha256 key' block')
include injective free free' keyed keyed'

theorem OrderFree.results_eq (member : op ∈ block) (member' : other ∈ block')
    (same : key op.id = key' other.id) :
    run interpret arguments (fun _ => []) block op.id =
      run interpret arguments (fun _ => []) block' other.id :=
  ConstEval.results_eq injective free free' keyed keyed' free.run_solves free'.run_solves
    free.ordered (fun _ inBlock => inBlock) nofun op member other member' same

/-- Functions whose operations have the same keys return the same. -/
theorem returned_eq {return' : Name} (returns : Returns return' block)
    (returns' : Returns return' block')
    (same : ∀ text, text ∈ block.map (fun op => key op.id) ↔
      text ∈ block'.map (fun op => key' op.id)) :
    returned interpret arguments block = returned interpret arguments block' := by
  obtain ⟨ops, last, rfl, isReturn, _⟩ := returns
  obtain ⟨ops', last', rfl, _, notReturn⟩ := returns'
  have member : last ∈ ops ++ [last] := by simp
  obtain ⟨other, member', sameKey⟩ := List.mem_map.mp
    ((same (key last.id)).mp (List.mem_map_of_mem member))
  have parts := key_inj injective free free' keyed keyed' member member' sameKey.symm
  -- only the end of the other function has the name
  have isLast : other = last' := by
    rcases List.mem_append.mp member' with inside | atEnd
    · exact absurd (parts.1.symm.trans isReturn) (notReturn other inside)
    · exact List.mem_singleton.mp atEnd
  subst isLast
  have operands := operandValues_eq arguments
    (run interpret arguments (fun _ => []) (ops ++ [last]))
    (run interpret arguments (fun _ => []) (ops' ++ [other]))
    (sameOperands free free' keyed keyed' member member' parts.2.2.2.2)
    fun definingOp definingOp' resultNumber isOwn isOther sameKey => by
      obtain ⟨producer, inOwn, rfl⟩ := free.producer member isOwn
      obtain ⟨producer', inOther, rfl⟩ := free'.producer member' isOther
      exact free.results_eq injective free' keyed keyed' inOwn inOther sameKey
  rw [returned, returned, List.getLast?_concat, List.getLast?_concat, Option.map_some,
    Option.map_some, operands]

end

end

theorem space_not_mem_sha (text : Text) : ' ' ∉ sha sha256 text := not_mem_toHex (by decide) _

theorem hash_eq
    (result : opKeys print sha256 (fun _ => none) block = some (block.map fun op => key op.id))
    (functionType : Ty) :
    hashConstEvalFuncOp print sha256 hashFuncOp ⟨functionType, [block]⟩ =
      sha sha256 (print.type functionType ++
        spaced ((block.map fun op => key op.id).mergeSort (· ≤ ·))) := by
  rw [hashConstEvalFuncOp]
  simp only [result]

/-- Equal hashes come from equal function types and equal keys. -/
theorem keys_of_hash (injective : Function.Injective sha256)
    (keyed : Keyed print sha256 key block) (keyed' : Keyed print sha256 key' block')
    {functionType functionType' : Ty}
    (same : sha sha256 (print.type functionType ++
        spaced ((block.map fun op => key op.id).mergeSort (· ≤ ·))) =
      sha sha256 (print.type functionType' ++
        spaced ((block'.map fun op => key' op.id).mergeSort (· ≤ ·)))) (text : Text) :
    text ∈ block.map (fun op => key op.id) ↔ text ∈ block'.map (fun op => key' op.id) := by
  have plain : ∀ {ops : List (Operation Name Attribute Ty)} {keys : Nat → Text},
      Keyed print sha256 keys ops →
        ∀ word ∈ (ops.map fun op => keys op.id).mergeSort (· ≤ ·), ' ' ∉ word := by
    intro ops keys solution word member
    rw [List.mem_mergeSort] at member
    obtain ⟨op, inOps, rfl⟩ := List.mem_map.mp member
    rw [solution op inOps]
    exact space_not_mem_sha _
  have letters := print.type_read _ _ _ _ (ends_spaced _) (ends_spaced _)
    (injective (toHex_injective same))
  have sorted := spaced_injective (plain keyed) (plain keyed') letters.2
  calc text ∈ block.map (fun op => key op.id)
    _ ↔ text ∈ (block.map fun op => key op.id).mergeSort (· ≤ ·) := List.mem_mergeSort.symm
    _ ↔ text ∈ (block'.map fun op => key' op.id).mergeSort (· ≤ ·) := by rw [sorted]
    _ ↔ text ∈ block'.map (fun op => key' op.id) := List.mem_mergeSort

/-- The three parts of the contract: the order of the operations does not count, equal hashes
return equal results, and what the order could matter to keeps the exact hash. -/
theorem const_eval_hash (print : Printing Name Attribute Ty) (sha256 : Text → List UInt8)
    (hashFuncOp : FuncOp Name Attribute Ty → Text) (injective : Function.Injective sha256) :
    (∀ functionType block block', OrderFree block → block.Perm block' → Ordered [] block' →
      hashConstEvalFuncOp print sha256 hashFuncOp ⟨functionType, [block]⟩ =
        hashConstEvalFuncOp print sha256 hashFuncOp ⟨functionType, [block']⟩) ∧
    (∀ return' functionType functionType' block block', OrderFree block → OrderFree block' →
      Returns return' block → Returns return' block' →
      hashConstEvalFuncOp print sha256 hashFuncOp ⟨functionType, [block]⟩ =
        hashConstEvalFuncOp print sha256 hashFuncOp ⟨functionType', [block']⟩ →
      ∀ (Data : Type) [Inhabited Data] (interpret : Interpretation Name Attribute Ty Data)
        (arguments : List Data),
        returned interpret arguments block = returned interpret arguments block') ∧
    (∀ functionType block, ∀ op ∈ block, Exact block op →
      hashConstEvalFuncOp print sha256 hashFuncOp ⟨functionType, [block]⟩ =
        hashFuncOp ⟨functionType, [block]⟩) := by
  refine ⟨fun functionType block block' free perm ordered => ?_, ?_,
    fun functionType block op member exact => ?_⟩
  · obtain ⟨key, keyed, result⟩ := free.exists_keys print sha256
    obtain ⟨key', keyed', result'⟩ := (free.reorder perm ordered).exists_keys print sha256
    rw [hash_eq result, hash_eq result', mergeSort_eq_of_perm (free.keys_perm perm keyed keyed')]
  · intro return' functionType functionType' block block' free free' returns returns' same Data
      inhabited interpret arguments
    obtain ⟨key, keyed, result⟩ := free.exists_keys print sha256
    obtain ⟨key', keyed', result'⟩ := free'.exists_keys print sha256
    rw [hash_eq result, hash_eq result'] at same
    exact returned_eq injective free free' keyed keyed' returns returns'
      (keys_of_hash injective keyed keyed' same)
  · rw [hashConstEvalFuncOp]
    simp only [opKeys_eq_none member exact]

/-- Bytes that determine the text, never 32 of them. -/
def longBytes (text : Text) : List UInt8 :=
  (text.flatMap fun letter => [UInt8.ofNat (letter.toNat / 65536),
    UInt8.ofNat (letter.toNat / 256), UInt8.ofNat letter.toNat, 0]) ++ [0]

theorem letter_bytes_injective {first second : Char}
    (high : UInt8.ofNat (first.toNat / 65536) = UInt8.ofNat (second.toNat / 65536))
    (middle : UInt8.ofNat (first.toNat / 256) = UInt8.ofNat (second.toNat / 256))
    (low : UInt8.ofNat first.toNat = UInt8.ofNat second.toNat) : first = second := by
  have bound : ∀ letter : Char, letter.toNat < 16777216 := fun letter => by
    rcases letter.valid with small | large
    · exact lt_trans small (by decide)
    · exact lt_trans large.2 (by decide)
  have highNat := congrArg UInt8.toNat high
  have middleNat := congrArg UInt8.toNat middle
  have lowNat := congrArg UInt8.toNat low
  simp only [UInt8.toNat_ofNat'] at highNat middleNat lowNat
  have := bound first
  have := bound second
  exact Char.toNat_inj.mp (by omega)

theorem longBytes_injective : Function.Injective longBytes := by
  intro first second same
  have letters := List.append_cancel_right same
  clear same
  induction first generalizing second with
  | nil =>
    cases second with
    | nil => rfl
    | cons letter second => cases letters
  | cons letter first ih =>
    cases second with
    | nil => cases letters
    | cons other second =>
      simp only [List.flatMap_cons, List.cons_append, List.nil_append, List.cons.injEq,
        true_and] at letters
      rw [letter_bytes_injective letters.1 letters.2.1 letters.2.2.1, ih letters.2.2.2]

theorem length_longBytes (text : Text) : (longBytes text).length = 4 * text.length + 1 := by
  simp [longBytes, List.length_flatMap, Nat.mul_comm]

/-- A digest of 32 bytes, from its number. -/
def digestBytes (number : Nat) : List UInt8 :=
  (List.range 32).reverse.map fun place => UInt8.ofNat (number / 256 ^ place)

/-- The texts of the example and their SHA-256 digests. -/
def recorded : List (Text × Nat) :=
  [("ttnn.zeros{} i32".toList,
    0xe828841e78071522a9297d200f76794a59d7eab6a853d4ba52119a9e36e29593),
    ("ttnn.ones{} i32".toList,
      0x663ac17f048c71d886f9902b002b0bedc9290bd75a26c77d40086285d786a844),
    (("func.return{} e828841e78071522a9297d200f76794a59d7eab6a853d4ba52119a9e36e29593#0 " ++
      "663ac17f048c71d886f9902b002b0bedc9290bd75a26c77d40086285d786a844#0").toList,
      0x451add8b58545be791f662d4995bec6315b716f464edf07f8be257ed9bb8bb6a),
    (("() -> (i32, i32) 451add8b58545be791f662d4995bec6315b716f464edf07f8be257ed9bb8bb6a " ++
      "663ac17f048c71d886f9902b002b0bedc9290bd75a26c77d40086285d786a844 " ++
      "e828841e78071522a9297d200f76794a59d7eab6a853d4ba52119a9e36e29593").toList,
      0x78a49c54ba6c471cab28d29784d994910a3f584c5dad21d20c66aa7af684bbca)]

def recordedSHA256 (text : Text) : List UInt8 :=
  ((recorded.lookup text).map digestBytes).getD (longBytes text)

theorem recorded_distinct : (recorded.map fun entry => digestBytes entry.2).Nodup := by
  decide +kernel

theorem length_digestBytes (number : Nat) : (digestBytes number).length = 32 := by
  simp [digestBytes]

theorem digestBytes_ne_longBytes (number : Nat) (text : Text) :
    digestBytes number ≠ longBytes text := by
  intro same
  have lengths := congrArg List.length same
  rw [length_digestBytes, length_longBytes] at lengths
  omega

theorem mem_of_lookup {text : Text} {number : Nat}
    (found : recorded.lookup text = some number) : (text, number) ∈ recorded := by
  obtain ⟨before, after, isSplit, _⟩ := List.lookup_eq_some_iff.mp found
  rw [isSplit]
  exact List.mem_append_right _ List.mem_cons_self

theorem recordedSHA256_injective : Function.Injective recordedSHA256 := by
  intro first second same
  unfold recordedSHA256 at same
  cases isFirst : recorded.lookup first with
  | none =>
    cases isSecond : recorded.lookup second with
    | none => exact longBytes_injective (by simpa [isFirst, isSecond] using same)
    | some number =>
      rw [isFirst, isSecond] at same
      exact absurd same.symm (digestBytes_ne_longBytes number first)
  | some number =>
    cases isSecond : recorded.lookup second with
    | none =>
      rw [isFirst, isSecond] at same
      exact absurd same (digestBytes_ne_longBytes number second)
    | some other =>
      rw [isFirst, isSecond] at same
      have entries := List.inj_on_of_nodup_map recorded_distinct (mem_of_lookup isFirst)
        (mem_of_lookup isSecond) same
      exact congrArg Prod.fst entries

theorem IsOperandText.head_mem {text : Text} (isOperand : IsOperandText text) (rest : Text) :
    ∃ letter more, text ++ rest = letter :: more ∧ letter ∈ '#' :: hexDigits := by
  rcases isOperand with ⟨number, rfl⟩ | ⟨bytes, number, rfl⟩
  · exact ⟨'a', _, rfl, by decide⟩
  · cases isHex : toHex bytes with
    | nil => exact ⟨'#', _, rfl, List.mem_cons_self⟩
    | cons letter letters =>
      have inside : letter ∈ toHex bytes := isHex ▸ List.mem_cons_self
      exact ⟨letter, _, rfl, List.mem_cons_of_mem _ (mem_toHex inside)⟩

/-- The names of the example. -/
def exampleNames : Fin 4 → Text
  | 0 => "ttnn.zeros".toList
  | 1 => "ttnn.ones".toList
  | 2 => "ttnn.update_cache".toList
  | 3 => "func.return".toList

/-- The type of the operations' results, and that of the function. -/
def exampleTypes : Bool → Text
  | false => "i32".toList
  | true => "() -> (i32, i32)".toList

def examplePrinting : Printing (Fin 4) Unit Bool where
  name := exampleNames
  attr _ := "{}".toList
  type := exampleTypes
  name_injective := by
    have distinct : ∀ own other, exampleNames own = exampleNames other → own = other := by decide
    exact fun own other => distinct own other
  name_plain := by decide
  attr_opens _ := ⟨['}'], rfl⟩
  attr_read _ _ _ _ same := ⟨rfl, List.append_cancel_left same⟩
  type_read := by
    intro own other rest more _ _ same
    cases own <;> cases other
    · exact ⟨rfl, List.append_cancel_left same⟩
    · exact absurd (List.cons.inj same).1 (by decide)
    · exact absurd (List.cons.inj same).1 (by decide)
    · exact ⟨rfl, List.append_cancel_left same⟩
  type_apart := by
    intro own operand rest more isOperand _ _ same
    obtain ⟨letter, letters, isText, isLetter⟩ := isOperand.head_mem more
    rw [isText] at same
    cases own
    · exact absurd ((List.cons.inj same).1 ▸ isLetter) (by decide)
    · exact absurd ((List.cons.inj same).1 ▸ isLetter) (by decide)

/-- The numerals of the names. -/
local instance namesNeZero : NeZero 4 := ⟨by decide⟩

def exampleOp (id : Nat) (name : Fin 4) (operands : List Value) (mightWrite : Bool) :
    Operation (Fin 4) Unit Bool :=
  ⟨id, name, (), none, if name = 3 then [] else [false], operands, 0, mightWrite⟩

/-- Two constants and the return, the constants in one order. -/
def exampleBlock : List (Operation (Fin 4) Unit Bool) :=
  [exampleOp 10 0 [] false, exampleOp 20 1 [] false,
    exampleOp 30 3 [.opResult 10 0, .opResult 20 0] false]

/-- The same operations, the constants in the other order. -/
def exampleReordered : List (Operation (Fin 4) Unit Bool) :=
  [exampleOp 20 1 [] false, exampleOp 10 0 [] false,
    exampleOp 30 3 [.opResult 10 0, .opResult 20 0] false]

theorem exampleBlock_ordered : Ordered [] exampleBlock := by
  simp [Ordered, exampleBlock, exampleOp]
  omega

theorem exampleReordered_ordered : Ordered [] exampleReordered := by
  simp [Ordered, exampleReordered, exampleOp]
  omega

theorem exampleBlock_orderFree : OrderFree exampleBlock where
  distinct := by decide
  ordered := exampleBlock_ordered
  noRegions := by decide
  noWrites := by decide

theorem exampleBlock_perm : exampleBlock.Perm exampleReordered := List.Perm.swap _ _ _

theorem exampleBlock_returns : Returns 3 exampleBlock :=
  ⟨[exampleOp 10 0 [] false, exampleOp 20 1 [] false], _, rfl, rfl, by decide⟩

theorem exampleReordered_returns : Returns 3 exampleReordered :=
  ⟨[exampleOp 20 1 [] false, exampleOp 10 0 [] false], _, rfl, rfl, by decide⟩

/-- The constants in either order have one hash and return the same; a cache update keeps the
exact hash. -/
theorem const_eval_hash_constants :
    hashConstEvalFuncOp examplePrinting recordedSHA256 (fun _ => []) ⟨true, [exampleBlock]⟩ =
      hashConstEvalFuncOp examplePrinting recordedSHA256 (fun _ => []) ⟨true, [exampleReordered]⟩ ∧
    (∀ (interpret : Interpretation (Fin 4) Unit Bool Int) (arguments : List Int),
      returned interpret arguments exampleBlock = returned interpret arguments exampleReordered) ∧
    hashConstEvalFuncOp examplePrinting recordedSHA256 (fun _ => ['x'])
      ⟨true, [[exampleOp 10 2 [.blockArgument 0] true]]⟩ = ['x'] := by
  have contract := const_eval_hash examplePrinting recordedSHA256 (fun _ => [])
    recordedSHA256_injective
  have same := contract.1 true exampleBlock exampleReordered exampleBlock_orderFree
    exampleBlock_perm exampleReordered_ordered
  exact ⟨same, contract.2.1 3 true true exampleBlock exampleReordered exampleBlock_orderFree
    (exampleBlock_orderFree.reorder exampleBlock_perm exampleReordered_ordered)
    exampleBlock_returns exampleReordered_returns same Int,
    (const_eval_hash examplePrinting recordedSHA256 (fun _ => ['x'])
      recordedSHA256_injective).2.2 true _ _ List.mem_cons_self (.inr (.inl rfl))⟩

end Libtt.ConstEval

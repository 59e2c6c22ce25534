import Libtt.TraceHoist.Runs

/-!
# Every program is partitioned

One function's partition keeps it a program: its captured operations are in one maximal run each,
and its values are defined before they are read.
-/
namespace Libtt.TraceHoist

open Libtt.Foundation

variable {m : Module} {upstream : Upstream}

/-- A loop that a trace replays a fixed number of times: its body is device work that could be
captured on its own, device handles and const-eval loads. -/
def CountedLoop (m : Module) (op : Op) : Prop :=
  ∃ (bodyProgram : Symbol) (initial limit step : Int) (f : Func) (body : Block),
    op.kind = .whileLoopOp bodyProgram none (some (.constant initial)) (some (.constant limit))
      (some (.constant step)) ∧
    m.lookup bodyProgram = some f ∧ f.blocks = [body] ∧
    ∀ inner ∈ body.operations, shouldHoistOp inner = true ∨ isHandleOrLoad inner = true

theorem countedLoop_of_capturable {op : Op} (captured : isCapturable m op = true) :
    shouldHoistOp op = true ∨ CountedLoop m op := by
  rw [isCapturable, Bool.or_eq_true] at captured
  refine captured.imp_right fun isLoop => ?_
  unfold isCapturableCountedLoop at isLoop
  split at isLoop
  · rename_i bodyProgram initial limit step isKind
    split at isLoop
    · rename_i visibility isForwardDevice arguments body isBody
      rw [Bool.and_eq_true, List.all_eq_true] at isLoop
      refine ⟨bodyProgram, initial, limit, step, _, body, isKind, isBody, rfl, ?_⟩
      intro inner member
      simpa using isLoop.2 inner member
    · contradiction
  · contradiction

/-- An operation that the partition of a function leaves in its place among the others. -/
def staysInOrder (op : Op) : Bool := !isIndependentOp op && op.kind ≠ .adamWOp

/-- What the partition of a function keeps. -/
structure Hoisted.Preserves (m : Module) (arguments : List Value) (block : Block)
    (hoisted : Hoisted) : Prop where
  /-- The operations are all there, and none is independent behind a captured one. -/
  perm : hoisted.moved.Perm block.operations
  movedUp : hoisted.moved.Pairwise fun first second =>
    isCapturable m first = true → isIndependentOp second = false
  order : hoisted.moved.filter staysInOrder = block.operations.filter staysInOrder
  /-- The runs have the captured operations and no others. -/
  captured : hoisted.runs.flatten = hoisted.moved.filter (isCapturable m)
  maximal : ∀ run ∈ hoisted.runs, MaximalRun (isCapturable m) hoisted.moved run
  loops : ∀ run ∈ hoisted.runs, ∀ op ∈ run, shouldHoistOp op = true ∨ CountedLoop m op
  traces : Replaced hoisted.runs hoisted.moved hoisted.block.operations
  wellFormed : hoisted.block.WellFormed arguments

/-- Well-formed code is well formed when the optimizer's updates are sunk. -/
theorem sunk_wellFormed (documented : upstream.Documented) {arguments : List Value} {block : Block}
    (wellFormed : block.WellFormed arguments) :
    Block.WellFormed arguments ⟨upstream.sinkAdamWOpsToEnd block.operations, block.terminator⟩ := by
  have perm := (documented.sink_perm block.operations).append_right [block.terminator]
  constructor
  · exact ((perm.map Op.id).nodup_iff).mpr wellFormed.identities
  · exact (((perm.flatMap_right Op.results).append_left arguments).nodup_iff).mpr wellFormed.once
  · exact documented.sink_defined arguments block wellFormed

theorem sunk_independent (documented : upstream.Documented) {arguments : List Value}
    {block : Block} (independent : block.IndependentOnly arguments) :
    Block.IndependentOnly arguments
      ⟨upstream.sinkAdamWOpsToEnd block.operations, block.terminator⟩ := by
  have same {op : Op} := (documented.sink_perm block.operations).mem_iff (a := op)
  intro op member isIndependent value isOperand
  rcases independent op (same.mp member) isIndependent value isOperand with
    isArgument | ⟨earlier, isEarlier, rest⟩
  · exact .inl isArgument
  · exact .inr ⟨earlier, same.mpr isEarlier, rest⟩

/-- The parts of a successful partition. -/
theorem processFuncOp_spec {f : Func} {hoisted : Hoisted}
    (processed : processFuncOp upstream m f = some hoisted) :
    ∃ block, f.blocks = [block] ∧
      hoisted.moved = moveIndependentOps m (upstream.sinkAdamWOpsToEnd block.operations) ∧
      hoisted.runs = (hoisted.moved.foldl (groupOp m) ⟨[], [], []⟩).allRuns ∧
      hoisted.callees = (hoisted.moved.foldl (groupOp m) ⟨[], [], []⟩).callees ∧
      hoisted.runs.foldlM (performHoistTransform upstream) ⟨hoisted.moved, block.terminator⟩ =
        some hoisted.block ∧
      (if hoisted.runs ≠ [] ∧ f.visibility = .isPublic then
        upstream.mergeToLayoutOpsWithFuncArgs { f with blocks := [hoisted.block] }
        else some { f with blocks := [hoisted.block] }) = some hoisted.function := by
  unfold processFuncOp at processed
  split at processed
  · rename_i block isBlock
    obtain ⟨hoistedBlock, performed, merges⟩ := Option.bind_eq_some_iff.mp processed
    obtain ⟨function, isFunction, rfl⟩ := Option.map_eq_some_iff.mp merges
    exact ⟨block, isBlock, rfl, rfl, rfl, performed, isFunction⟩
  · contradiction

theorem processFuncOp_preserves (documented : upstream.Documented) {f : Func} {block : Block}
    {hoisted : Hoisted} (isBlock : f.blocks = [block])
    (wellFormed : block.WellFormed f.arguments) (independent : block.IndependentOnly f.arguments)
    (processed : processFuncOp upstream m f = some hoisted) :
    hoisted.Preserves m f.arguments block := by
  obtain ⟨_, sameBlock, isMoved, isRuns, -, performed, -⟩ := processFuncOp_spec processed
  rw [isBlock] at sameBlock
  obtain rfl := (List.cons.inj sameBlock).1
  have sunk := sunk_wellFormed documented wellFormed
  have sunkIndependent := sunk_independent documented independent
  have sunkOnce : (upstream.sinkAdamWOpsToEnd block.operations).Nodup := by
    have identities := sunk.identities
    rw [Block.code, List.map_append] at identities
    exact List.Nodup.of_map _ (List.nodup_append.mp identities).1
  have movedUp := movedUp_moveIndependentOps m sunkOnce
  have defined := defined_moveIndependentOps m sunk sunkIndependent
  rw [← isMoved] at movedUp defined
  obtain ⟨before, grouped⟩ := exists_grouped m hoisted.moved
  have groups := grouped.allRuns
  rw [← isRuns] at groups
  have perm := movedUp.perm.append_right [block.terminator]
  have identities := ((perm.map Op.id).nodup_iff).mpr sunk.identities
  have once := (((perm.flatMap_right Op.results).append_left f.arguments).nodup_iff).mpr sunk.once
  rw [← List.append_nil hoisted.moved] at performed
  obtain ⟨replaced, result⟩ := @hoist_groups m upstream _ _ documented f.arguments groups []
    block.terminator _ (by rwa [List.append_nil]) (by rw [List.append_nil]; exact movedUp.late)
    (by rwa [List.append_nil]) performed
  have isReplaced := result.isBlock
  rw [List.append_nil] at isReplaced
  constructor
  · exact movedUp.perm.trans (documented.sink_perm _)
  · exact movedUp.late
  · have stays (operations : List Op) : operations.filter staysInOrder =
        (operations.filter fun op => !isIndependentOp op).filter fun op => op.kind ≠ .adamWOp := by
      rw [List.filter_filter]
      apply List.filter_congr
      intro op _
      exact Bool.and_comm _ _
    have swapped (operations : List Op) : operations.filter staysInOrder =
        (operations.filter fun op => op.kind ≠ .adamWOp).filter fun op => !isIndependentOp op := by
      rw [List.filter_filter]
      rfl
    rw [stays, movedUp.order, ← stays, swapped, documented.sink_order, ← swapped]
  · exact groups.captured
  · exact groups.maximal
  · intro run isRun op member
    have captured : op ∈ hoisted.runs.flatten := List.mem_flatten.mpr ⟨run, isRun, member⟩
    rw [groups.captured] at captured
    exact countedLoop_of_capturable (List.mem_filter.mp captured).2
  · rw [isReplaced]
    exact result.traces
  · rw [isReplaced]
    constructor
    · rw [Block.code, List.map_append]
      rw [List.map_append] at identities
      exact identities.sublist (result.identities.append (List.Sublist.refl _))
    · rw [Block.code, List.flatMap_append]
      rw [List.flatMap_append] at once
      exact once.sublist
        ((List.Sublist.refl _).append (result.results.append (List.Sublist.refl _)))
    · have last := result.defined
      rwa [List.append_nil] at last

end Libtt.TraceHoist

/-! ## The worklist of programs -/
namespace Libtt.TraceHoist

open Libtt.Foundation

variable {m current : Module} {upstream : Upstream}

theorem lookup_update (m : Module) (symbol name : Symbol) (f : Func) :
    (m.update symbol f).lookup name =
      if name = symbol then (m.lookup name).map fun _ => f else m.lookup name := by
  obtain ⟨functions⟩ := m
  unfold Module.lookup Module.update
  induction functions with
  | nil => simp
  | cons entry rest ih =>
    obtain ⟨other, old⟩ := entry
    rw [List.map_cons, List.lookup_cons, List.lookup_cons, ih]
    by_cases same : name = other
    · subst same
      by_cases updated : name = symbol <;> simp [updated]
    · have apart : (name == other) = false := beq_eq_false_iff_ne.mpr same
      simp [apart]

theorem names_update (m : Module) (symbol : Symbol) (f : Func) :
    (m.update symbol f).functions.map Prod.fst = m.functions.map Prod.fst := by
  simp [Module.update, Function.comp_def]

theorem mem_names_of_lookup {symbol : Symbol} (found : (m.lookup symbol).isSome = true) :
    symbol ∈ m.functions.map Prod.fst := by
  obtain ⟨f, isFunction⟩ := Option.isSome_iff_exists.mp found
  obtain ⟨before, after, isFunctions, -⟩ := List.lookup_eq_some_iff.mp isFunction
  rw [isFunctions]
  simp

/-- A function as it was but for the order of its operations, or one with traces. -/
def Weaker (f f' : Func) : Prop :=
  ∀ block', f'.blocks = [block'] →
    (∃ op ∈ block'.operations, op.kind = .captureOrExecuteTraceOp) ∨
      ∃ block, f.blocks = [block] ∧ block'.operations.Perm block.operations

theorem Weaker.refl (f : Func) : Weaker f f :=
  fun block' isBlock => .inr ⟨block', isBlock, List.Perm.refl _⟩

/-- A run leaves its trace. -/
theorem Replaced.exists_trace {runs : List (List Op)} {operations replaced : List Op}
    (replaces : Replaced runs operations replaced) (nonempty : runs ≠ []) :
    ∃ op ∈ replaced, op.kind = .captureOrExecuteTraceOp := by
  induction replaces with
  | nil => exact absurd rfl nonempty
  | kept rest ih =>
    obtain ⟨op, member, isTrace⟩ := ih nonempty
    exact ⟨op, List.mem_append_left _ member, isTrace⟩
  | trace rest isTrace ih => exact ⟨_, List.mem_append_right _ (by simp), isTrace⟩

theorem Weaker.of_processed (documented : upstream.Documented) {f : Func} {block : Block}
    {hoisted : Hoisted} (isBlock : f.blocks = [block])
    (preserves : hoisted.Preserves current f.arguments block)
    (processed : processFuncOp upstream current f = some hoisted) : Weaker f hoisted.function := by
  obtain ⟨_, sameBlock, -, -, -, performed, merged⟩ := processFuncOp_spec processed
  by_cases noRuns : hoisted.runs = []
  · rw [if_neg (by simp [noRuns])] at merged
    rw [noRuns] at performed
    have isHoisted := Option.some.inj performed
    rw [← Option.some.inj merged, ← isHoisted]
    intro block' same
    obtain rfl := (List.cons.inj same).1
    exact .inr ⟨block, isBlock, preserves.perm⟩
  · have traces := preserves.traces.exists_trace noRuns
    split at merged
    · obtain ⟨mergedBlock, isMerged, still⟩ := documented.merge _ _ hoisted.block rfl merged traces
      intro block' same
      rw [isMerged] at same
      obtain rfl := (List.cons.inj same).1
      exact .inl still
    · rw [← Option.some.inj merged]
      intro block' same
      obtain rfl := (List.cons.inj same).1
      exact .inl traces

/-- A module whose functions are those of another, or weaker. -/
structure Weakened (m current : Module) : Prop where
  found : ∀ symbol, (current.lookup symbol).isSome = (m.lookup symbol).isSome
  weaker : ∀ symbol f', current.lookup symbol = some f' →
    ∃ f, m.lookup symbol = some f ∧ Weaker f f'

/-- A loop over a weaker body is capturable only where it was. -/
theorem Weakened.capturable (weakened : Weakened m current) {op : Op}
    (captured : isCapturable current op = true) : isCapturable m op = true := by
  unfold isCapturable at captured ⊢
  rw [Bool.or_eq_true] at captured ⊢
  refine captured.imp_right fun isLoop => ?_
  unfold isCapturableCountedLoop at isLoop ⊢
  split at isLoop
  · rename_i bodyProgram _ _ _ isKind
    split at isLoop
    · rename_i visibility isForwardDevice arguments body isBody
      obtain ⟨f, isFunction, weaker⟩ := weakened.weaker _ _ isBody
      simp only [Bool.and_eq_true] at isLoop
      rcases weaker body rfl with ⟨op, member, isTrace⟩ | ⟨block, isBlock, perm⟩
      · have straight := List.all_eq_true.mp isLoop.2 op member
        simp [shouldHoistOp, isHandleOrLoad, isTrace] at straight
      · obtain ⟨visibility', isForwardDevice', arguments', blocks⟩ := f
        subst isBlock
        simp only [isFunction, isLoop.1, Bool.and_eq_true, and_true, true_and]
        rw [List.all_eq_true]
        intro inner member
        exact List.all_eq_true.mp isLoop.2 inner (perm.mem_iff.mpr member)
    · contradiction
  · contradiction

/-- Functions of one block are in SSA form, and independent operations read nothing else. -/
def Module.WellFormed (m : Module) : Prop :=
  ∀ symbol f block, m.lookup symbol = some f → f.blocks = [block] →
    block.WellFormed f.arguments ∧ block.IndependentOnly f.arguments

/-- One program runs another outside its traces. -/
def RunsEagerly (m : Module) (symbol callee : Symbol) : Prop :=
  ∃ f block, m.lookup symbol = some f ∧ f.blocks = [block] ∧
    ∃ op ∈ block.operations, isCapturable m op = false ∧ callee ∈ collectEagerCallees m op

/-- What the pass did to a function of the module. -/
def Partitions (m : Module) (partition : Symbol × Module × Hoisted) : Prop :=
  ∃ f block, m.lookup partition.1 = some f ∧ f.blocks = [block] ∧
    partition.2.2.Preserves partition.2.1 f.arguments block ∧
    ∀ op, isCapturable partition.2.1 op = true → isCapturable m op = true

/-- What holds of the module so far, and of what was partitioned. -/
structure Pass.Valid (m : Module) (pass : Pass) (processed : List Symbol) : Prop where
  untouched : ∀ symbol ∉ processed, pass.current.lookup symbol = m.lookup symbol
  weakened : Weakened m pass.current
  processed : pass.partitions.map Prod.fst = processed
  partitions : ∀ partition ∈ pass.partitions, Partitions m partition

theorem valid_start (m : Module) : Pass.Valid m ⟨m, []⟩ [] where
  untouched _ _ := rfl
  weakened := ⟨fun _ => rfl, fun _ f' found => ⟨f', found, Weaker.refl f'⟩⟩
  processed := rfl
  partitions _ member := absurd member List.not_mem_nil

/-- The parts of a turn. -/
theorem processSymbol_spec {symbol : Symbol} {pass pass' : Pass} {pushed : List Symbol}
    (processed : processSymbol upstream symbol pass = some (pass', pushed)) :
    ∃ f hoisted, pass.current.lookup symbol = some f ∧
      processFuncOp upstream pass.current f = some hoisted ∧
      pass' = ⟨pass.current.update symbol hoisted.function,
        (symbol, pass.current, hoisted) :: pass.partitions⟩ ∧ pushed = hoisted.callees := by
  obtain ⟨f, found, rest⟩ := Option.bind_eq_some_iff.mp processed
  obtain ⟨hoisted, isHoisted, same⟩ := Option.map_eq_some_iff.mp rest
  obtain ⟨rfl, rfl⟩ := Prod.mk.inj same
  exact ⟨f, hoisted, found, isHoisted, rfl, rfl⟩

theorem Pass.Valid.turn (documented : upstream.Documented) (wellFormed : m.WellFormed)
    {symbol : Symbol} {pass pass' : Pass} {processed pushed : List Symbol}
    (valid : pass.Valid m processed) (fresh : symbol ∉ processed)
    (turn : processSymbol upstream symbol pass = some (pass', pushed)) :
    pass'.Valid m (symbol :: processed) ∧
      ∀ callee, RunsEagerly m symbol callee → callee ∈ pushed := by
  obtain ⟨f, hoisted, found, isHoisted, rfl, rfl⟩ := processSymbol_spec turn
  have original := (valid.untouched symbol fresh).symm.trans found
  obtain ⟨block, isBlock, isMoved, -, isCallees, -, -⟩ := processFuncOp_spec isHoisted
  obtain ⟨blockWellFormed, independent⟩ := wellFormed symbol f block original isBlock
  have preserves :=
    processFuncOp_preserves documented isBlock blockWellFormed independent isHoisted
  constructor
  · constructor
    · intro other isFresh
      obtain ⟨apart, otherFresh⟩ := not_or.mp (mt List.mem_cons.mpr isFresh)
      rw [lookup_update, if_neg apart]
      exact valid.untouched other otherFresh
    · constructor
      · intro other
        rw [lookup_update, ← valid.weakened.found other]
        split <;> simp
      · intro other f' isFound
        rw [lookup_update] at isFound
        split at isFound
        · rename_i same
          subst same
          rw [found] at isFound
          rw [← Option.some.inj isFound]
          exact ⟨f, original, Weaker.of_processed documented isBlock preserves isHoisted⟩
        · exact valid.weakened.weaker other f' isFound
    · rw [List.map_cons, valid.processed]
    · intro partition member
      rcases List.mem_cons.mp member with rfl | earlier
      · exact ⟨f, block, original, isBlock, preserves, fun op => valid.weakened.capturable⟩
      · exact valid.partitions partition earlier
  · rintro callee ⟨f', block', isFunction, isBlock', op, member, isEager, isCallee⟩
    rw [original] at isFunction
    obtain rfl := Option.some.inj isFunction
    rw [isBlock] at isBlock'
    obtain rfl := (List.cons.inj isBlock').1
    obtain ⟨before, grouped⟩ := exists_grouped pass.current hoisted.moved
    have stillEager : isCapturable pass.current op = false := by
      by_contra captured
      rw [valid.weakened.capturable (by simpa using captured)] at isEager
      exact absurd isEager (by decide)
    have queued := grouped.callees op (preserves.perm.mem_iff.mpr member) stillEager
    rw [← isCallees] at queued
    apply queued
    simpa only [collectEagerCallees, valid.weakened.found] using isCallee

/-- Queued programs are functions of the module. -/
theorem callees_found (m : Module) (operations : List Op) :
    ∀ callee ∈ (operations.foldl (groupOp m) ⟨[], [], []⟩).callees,
      (m.lookup callee).isSome = true := by
  induction operations using List.reverseRecOn with
  | nil => simp
  | append_singleton operations op ih =>
    rw [List.foldl_append, List.foldl_cons, List.foldl_nil, groupOp]
    split
    · exact ih
    · intro callee member
      rcases List.mem_append.mp member with earlier | isCallee
      · exact ih callee earlier
      · exact (List.mem_filter.mp isCallee).2

/-- Every run ends: only functions of the module are queued. -/
theorem exists_last_step (upstream : Upstream) (m : Module) :
    ∃ count last, repeated (step upstream) count (start m) = some last ∧
      step upstream last = none := by
  let holds (pass : Pass) : Prop :=
    pass.current.functions.map Prod.fst = m.functions.map Prod.fst
  apply @Worklist.exists_last _ _ _ (processSymbol upstream) (start m) holds
    (m.functions.map Prod.fst)
  · intro symbol pass pass' pushed names turn
    obtain ⟨f, hoisted, -, isHoisted, rfl, rfl⟩ := processSymbol_spec turn
    obtain ⟨block, -, -, -, isCallees, -, -⟩ := processFuncOp_spec isHoisted
    constructor
    · exact (names_update _ _ _).trans names
    · intro callee member
      rw [isCallees] at member
      have isName := mem_names_of_lookup (callees_found _ _ callee member)
      rwa [names] at isName
  · rfl
  · exact List.nodup_nil
  · exact List.nil_subset _
  · intro entry member
    have isEntry := List.mem_reverse.mp member
    exact (List.filter_sublist.map Prod.fst).subset isEntry

/-- Partitioning the functions into traces preserves the program. Every run of the pass ends. In it
each function is partitioned at most once, by a partition that preserves it, and when the worklist
is empty every program that an entry function runs outside the traces is partitioned. -/
theorem partition_preserves (upstream : Upstream) (documented : upstream.Documented) (m : Module)
    (wellFormed : m.WellFormed) :
    (∃ count last, repeated (step upstream) count (start m) = some last ∧
      step upstream last = none) ∧
    ∀ count last, repeated (step upstream) count (start m) = some last →
      (last.state.partitions.map Prod.fst).Nodup ∧
      (∀ partition ∈ last.state.partitions, Partitions m partition) ∧
      (last.pending = [] → ∀ entry ∈ entries m, ∀ symbol,
        Relation.ReflTransGen (RunsEagerly m) entry symbol →
          symbol ∈ last.state.partitions.map Prod.fst) := by
  constructor
  · exact exists_last_step upstream m
  · intro count last run
    have explores : Worklist.Explores (processSymbol upstream) (fun pass => pass.Valid m)
        (RunsEagerly m) :=
      ⟨fun _ _ _ _ _ valid fresh turn => (valid.turn documented wellFormed fresh turn).1,
        fun _ _ _ _ _ valid fresh turn => (valid.turn documented wellFormed fresh turn).2⟩
    have initially : Worklist.Explored (fun pass => pass.Valid m) (RunsEagerly m) (entries m)
        (start m) :=
      ⟨valid_start m, List.nodup_nil, fun _ isEntry => .inr (List.mem_reverse.mpr isEntry),
        fun _ member => absurd member List.not_mem_nil⟩
    have explored := repeated_invariant _ (fun _ _ => Worklist.Explored.step explores) initially run
    have processed := explored.holds.processed
    refine ⟨?_, explored.holds.partitions, ?_⟩
    · rw [processed]
      exact explored.once
    · intro finished entry isEntry symbol reached
      rw [processed]
      exact explored.reached finished isEntry reached

/-- An update whose result nothing reads before the return. -/
def isSunk (operations : List Op) (op : Op) : Bool :=
  op.kind = .adamWOp ∧ operations.all fun other => other.operands.all fun value =>
    value ∉ op.results

/-- The updates behind everything else, the first device handle, and conversions that stay. -/
def sinking : Upstream where
  sinkAdamWOpsToEnd operations :=
    operations.filter (fun op => !isSunk operations op) ++
      operations.filter fun op => !!isSunk operations op
  device block := ((block.operations.find? fun op => op.kind = .getDeviceOp).map Op.results).getD []
  rejects _ _ := false
  mergeToLayoutOpsWithFuncArgs := some

theorem sinking_documented : sinking.Documented where
  sink_perm operations := List.filter_append_perm _ operations
  sink_order operations := by
    have isUpdate {op : Op} (kept : op.kind ≠ .adamWOp) : isSunk operations op = false := by
      simp [isSunk, kept]
    rw [sinking, List.filter_append, List.filter_filter, List.filter_filter]
    have none : (operations.filter fun op =>
        decide (op.kind ≠ .adamWOp) && !!isSunk operations op) = [] := by
      apply List.filter_eq_nil_iff.mpr
      intro op _
      by_cases kept : op.kind ≠ .adamWOp
      · simp [isUpdate kept]
      · simp [kept]
    rw [none, List.append_nil]
    apply List.filter_congr
    intro op _
    by_cases kept : op.kind ≠ .adamWOp
    · simp [kept, isUpdate kept]
    · simp [kept]
  sink_defined arguments block wellFormed := by
    obtain ⟨defined, last⟩ := defined_append.mp wellFormed.defined
    have once := wellFormed.once
    rw [Block.code, List.flatMap_append, ← List.append_assoc] at once
    have perm := List.filter_append_perm (fun op => !isSunk block.operations op) block.operations
    refine defined_append.mpr ⟨?_, last.mono ?_⟩
    · apply @defined_partition _ _ _ _ _ [] _ _ defined (List.nodup_append.mp once).1
      intro op member _ value isOperand
      by_cases isResult : value ∈ block.operations.flatMap Op.results
      · obtain ⟨earlier, isEarlier, result⟩ := List.mem_flatMap.mp isResult
        refine .inr ⟨earlier, isEarlier, ?_, result⟩
        rw [Bool.not_eq_true', isSunk, decide_eq_false_iff_not]
        rintro ⟨-, unread⟩
        have notRead := List.all_eq_true.mp (List.all_eq_true.mp unread op member) value isOperand
        exact absurd result (by simpa using notRead)
      · exact .inl (defined.outside member isOperand isResult)
    · intro value member
      rw [List.mem_append] at member ⊢
      exact member.imp_right fun result => (perm.symm.flatMap_right Op.results).subset result
  device block value member := by
    cases found : block.operations.find? fun op => op.kind = .getDeviceOp with
    | none => simp [sinking, found] at member
    | some op =>
      refine ⟨op, List.mem_of_find?_eq_some found, by simpa using List.find?_some found, ?_⟩
      simpa [sinking, found] using member
  merge f f' block isBlock merged traces := by
    obtain rfl := Option.some.inj merged
    exact ⟨block, isBlock, traces⟩

def deviceTensor (name : Nat) : Value := ⟨name, .tensor true⟩

/-- An update, a device handle and a call between work, and a counted loop. -/
def trainStep : Func where
  visibility := .isPublic
  isForwardDevice := true
  arguments := [deviceTensor 0]
  blocks := [{
    operations := [
      ⟨0, .operation "ttnn" false, 0, [deviceTensor 0], [deviceTensor 1]⟩,
      ⟨1, .adamWOp, 0, [deviceTensor 1], []⟩,
      ⟨2, .getDeviceOp, 0, [], [⟨2, .other⟩]⟩,
      ⟨3, .callOp "loss", 0, [deviceTensor 1], [deviceTensor 3]⟩,
      ⟨4, .whileLoopOp "body" none (some (.constant 0)) (some (.constant 8)) (some (.constant 1)),
        0, [deviceTensor 3], [deviceTensor 4]⟩]
    terminator := ⟨5, .returnOp, 0, [deviceTensor 4], []⟩ }]

/-- A private program of one operation. -/
def oneOperation : Func where
  visibility := .isPrivate
  isForwardDevice := true
  arguments := [deviceTensor 0]
  blocks := [{
    operations := [⟨0, .operation "ttnn" false, 0, [deviceTensor 0], [deviceTensor 1]⟩]
    terminator := ⟨1, .returnOp, 0, [deviceTensor 1], []⟩ }]

def training : Module := ⟨[("main", trainStep), ("loss", oneOperation), ("body", oneOperation)]⟩

theorem training_wellFormed : training.WellFormed := by
  intro symbol f block found isBlock
  obtain ⟨before, after, isFunctions, -⟩ := List.lookup_eq_some_iff.mp found
  have member : (symbol, f) ∈ training.functions := by
    rw [isFunctions]
    simp
  simp only [training, List.mem_cons, Prod.mk.injEq, List.not_mem_nil, or_false] at member
  rcases member with ⟨-, rfl⟩ | ⟨-, rfl⟩ | ⟨-, rfl⟩ <;> obtain rfl := (List.cons.inj isBlock).1
  · refine ⟨⟨by decide, by decide, ?_⟩, ?_⟩
    · simp [Block.code, Defined, trainStep]
    · simp [Block.IndependentOnly, isIndependentOp, isHandleOrLoad]
  · refine ⟨⟨by decide, by decide, ?_⟩, ?_⟩
    · simp [Block.code, Defined, oneOperation]
    · simp [Block.IndependentOnly, isIndependentOp, isHandleOrLoad]
  · refine ⟨⟨by decide, by decide, ?_⟩, ?_⟩
    · simp [Block.code, Defined, oneOperation]
    · simp [Block.IndependentOnly, isIndependentOp, isHandleOrLoad]

/-- The pass ends on the training step, and has partitioned it and the loss. -/
theorem partition_preserves_training : sinking.Documented ∧ training.WellFormed ∧
    (∃ count last, repeated (step sinking) count (start training) = some last ∧
      step sinking last = none) ∧
    ∃ last, repeated (step sinking) 2 (start training) = some last ∧ last.pending = [] ∧
      ∀ partition ∈ last.state.partitions, Partitions training partition := by
  have preserves := partition_preserves sinking sinking_documented training training_wellFormed
  refine ⟨sinking_documented, training_wellFormed, preserves.1, _, rfl, by decide, ?_⟩
  exact (preserves.2 2 _ rfl).2.1

/-- The update comes before a loop in the training step, and after it in what the pass leaves. -/
theorem update_sunk : ∃ block hoisted, trainStep.blocks = [block] ∧
    processFuncOp sinking training trainStep = some hoisted ∧
    hoisted.moved.filter (fun op => !isIndependentOp op) ≠
      block.operations.filter fun op => !isIndependentOp op :=
  ⟨_, _, rfl, rfl, by decide⟩

end Libtt.TraceHoist

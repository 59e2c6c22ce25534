import Mathlib.Data.List.Induction
import Libtt.TraceHoist.Programs

/-!
# Maximal runs

The independent operations after the first capturable one are moved up to it, in their order.
-/
namespace Libtt.TraceHoist

open Libtt.Foundation

variable {operations before after : List Op} {arguments : List Value} {terminator : Op}

/-- The operations with the terminator. -/
def Block.code (block : Block) : List Op := block.operations ++ [block.terminator]

/-- SSA form: an operation is in one place, and a value is defined once and before it is read. -/
structure Block.WellFormed (arguments : List Value) (block : Block) : Prop where
  identities : (block.code.map Op.id).Nodup
  once : (arguments ++ block.code.flatMap Op.results).Nodup
  defined : Defined Op.operands Op.results arguments block.code

/-- Independent operations read the arguments and one another's results only. -/
def Block.IndependentOnly (arguments : List Value) (block : Block) : Prop :=
  ∀ op ∈ block.operations, isIndependentOp op → ∀ value ∈ op.operands,
    value ∈ arguments ∨
      ∃ earlier ∈ block.operations, isIndependentOp earlier ∧ value ∈ earlier.results

/-- What the pass relies on. The optimizer's updates are sunk to the end of well-formed code, the
handle of a trace is a device handle of the block, and the fold keeps the traces. -/
structure Upstream.Documented (upstream : Upstream) : Prop where
  sink_perm (operations : List Op) : (upstream.sinkAdamWOpsToEnd operations).Perm operations
  sink_order (operations : List Op) :
    (upstream.sinkAdamWOpsToEnd operations).filter (fun op => op.kind ≠ .adamWOp) =
      operations.filter fun op => op.kind ≠ .adamWOp
  sink_defined (arguments : List Value) (block : Block) : block.WellFormed arguments →
    Defined Op.operands Op.results arguments
      (upstream.sinkAdamWOpsToEnd block.operations ++ [block.terminator])
  device (block : Block) : ∀ value ∈ upstream.device block,
    ∃ op ∈ block.operations, op.kind = .getDeviceOp ∧ value ∈ op.results
  merge (f f' : Func) (block : Block) : f.blocks = [block] →
    upstream.mergeToLayoutOpsWithFuncArgs f = some f' →
      (∃ op ∈ block.operations, op.kind = .captureOrExecuteTraceOp) →
        ∃ block', f'.blocks = [block'] ∧
          ∃ op ∈ block'.operations, op.kind = .captureOrExecuteTraceOp

variable {m : Module} {upstream : Upstream}

/-- An operation is not both captured and moved. -/
theorem not_independent_of_capturable {op : Op} (captured : isCapturable m op = true) :
    isIndependentOp op = false := by
  unfold isCapturable shouldHoistOp isCapturableCountedLoop at captured
  unfold isIndependentOp isHandleOrLoad
  cases isKind : op.kind <;> simp_all

theorem scan_before (eager : ∀ op ∈ operations, isCapturable m op = false) :
    operations.foldl (scanOp m) ⟨none, []⟩ = ⟨none, []⟩ := by
  induction operations with
  | nil => rfl
  | cons op rest ih =>
    have first : scanOp m ⟨none, []⟩ op = ⟨none, []⟩ :=
      if_neg (by rw [eager op (by simp)]; exact Bool.false_ne_true)
    rw [List.foldl_cons, first]
    exact ih fun later member => eager later (by simp [member])

theorem scan_after (first : Op) (independentOps operations : List Op) :
    operations.foldl (scanOp m) ⟨some first, independentOps⟩ =
      ⟨some first, independentOps ++ operations.filter isIndependentOp⟩ := by
  induction operations generalizing independentOps with
  | nil => simp
  | cons op rest ih =>
    rw [List.foldl_cons]
    by_cases independent : isIndependentOp op
    · have next : scanOp m ⟨some first, independentOps⟩ op =
          ⟨some first, independentOps ++ [op]⟩ := if_pos independent
      rw [next, ih, List.filter_cons_of_pos independent, List.append_assoc]
      rfl
    · have next : scanOp m ⟨some first, independentOps⟩ op = ⟨some first, independentOps⟩ :=
        if_neg independent
      rw [next, ih, List.filter_cons_of_neg independent]

/-- Nothing happens behind an operation, or to others. -/
theorem flatMap_unchanged {operations : List Op} {change : Op → List Op}
    (unchanged : ∀ op ∈ operations, change op = [op]) : operations.flatMap change = operations := by
  rw [List.flatMap_congr unchanged, List.flatMap_singleton']

theorem moveBefore_eq {first op : Op} (member : op ∈ after)
    (once : (before ++ first :: after).Nodup) :
    moveBefore first (before ++ first :: after) op = before ++ [op] ++ first :: after.erase op := by
  obtain ⟨-, afterOnce, apart⟩ := List.nodup_append.mp once
  obtain ⟨firstFresh, -⟩ := List.nodup_cons.mp afterOnce
  have notBefore : op ∉ before := fun isBefore => apart op isBefore op (by simp [member]) rfl
  have notFirst : first ≠ op := fun same => firstFresh (same ▸ member)
  have keeps {operations : List Op} (fresh : first ∉ operations) :
      (operations.flatMap fun other => if other = first then [op, other] else [other]) =
        operations :=
    flatMap_unchanged fun other isOther => if_neg fun same : other = first =>
      fresh (same ▸ isOther)
  rw [moveBefore, List.erase_append_right _ notBefore,
    List.erase_cons_tail (by simpa using notFirst), List.flatMap_append, List.flatMap_cons, if_pos rfl,
    keeps fun isBefore => apart first isBefore first (by simp) rfl,
    keeps fun isAfter => firstFresh (List.mem_of_mem_erase isAfter)]
  simp

theorem moveBefore_all {first : Op} {chosen : List Op} (members : chosen ⊆ after)
    (chosenOnce : chosen.Nodup) (once : (before ++ first :: after).Nodup) :
    chosen.foldl (moveBefore first) (before ++ first :: after) =
      before ++ chosen ++ first :: after.filter fun op => op ∉ chosen := by
  induction chosen generalizing before after with
  | nil => simp
  | cons op chosen ih =>
    obtain ⟨isAfter, chosenAfter⟩ := List.cons_subset.mp members
    obtain ⟨fresh, restOnce⟩ := List.nodup_cons.mp chosenOnce
    have afterOnce : after.Nodup := (List.nodup_cons.mp (List.nodup_append.mp once).2.1).2
    have moved : (before ++ [op] ++ first :: after.erase op).Nodup := by
      have same : (before ++ [op] ++ first :: after.erase op).Perm (before ++ first :: after) := by
        rw [List.append_assoc]
        apply List.Perm.append_left
        exact (List.Perm.swap _ _ _).trans ((List.perm_cons_erase isAfter).symm.cons first)
      exact same.nodup_iff.mpr once
    rw [List.foldl_cons, moveBefore_eq isAfter once, ih _ restOnce moved,
      List.Nodup.erase_eq_filter afterOnce, List.filter_filter]
    · simp only [List.append_assoc, List.singleton_append, List.mem_cons, not_or]
      congr 4
      funext other
      rw [Bool.eq_iff_iff]
      simp [and_comm]
    · intro other isChosen
      rw [List.Nodup.mem_erase_iff afterOnce]
      exact ⟨fun same => fresh (same ▸ isChosen), chosenAfter isChosen⟩

/-- The independent operations behind the first capturable one come first there. -/
theorem moveIndependentOps_eq (m : Module) (once : operations.Nodup) :
    ∃ before after, operations = before ++ after ∧ (∀ op ∈ before, isCapturable m op = false) ∧
      moveIndependentOps m operations = before ++ after.filter isIndependentOp ++
        after.filter fun op => !isIndependentOp op := by
  cases found : operations.find? (isCapturable m) with
  | none =>
    have eager : ∀ op ∈ operations, isCapturable m op = false := by
      simpa [List.find?_eq_none] using found
    refine ⟨operations, [], by simp, eager, ?_⟩
    rw [moveIndependentOps, scan_before eager]
    simp
  | some first =>
    obtain ⟨isFirst, before, after, rfl, eager⟩ := List.find?_eq_some_iff_append.mp found
    have eager' : ∀ op ∈ before, isCapturable m op = false := by simpa using eager
    have scanned : (before ++ first :: after).foldl (scanOp m) ⟨none, []⟩ =
        ⟨some first, after.filter isIndependentOp⟩ := by
      rw [List.foldl_append, scan_before eager', List.foldl_cons]
      have next : scanOp m ⟨none, []⟩ first = ⟨some first, []⟩ := if_pos isFirst
      rw [next, scan_after, List.nil_append]
    have independent := not_independent_of_capturable isFirst
    have afterOnce : after.Nodup := (List.nodup_cons.mp (List.nodup_append.mp once).2.1).2
    refine ⟨before, first :: after, rfl, eager', ?_⟩
    rw [moveIndependentOps, scanned]
    dsimp only
    rw [moveBefore_all (List.filter_subset_self _) (afterOnce.filter _) once,
      List.filter_cons_of_neg (by simp [independent]),
      List.filter_cons_of_pos (by simp [independent])]
    congr 2
    apply List.filter_congr
    intro op member
    simp [member]

/-- What the move leaves. -/
structure MovedUp (m : Module) (operations moved : List Op) : Prop where
  perm : moved.Perm operations
  order : moved.filter (fun op => !isIndependentOp op) =
    operations.filter fun op => !isIndependentOp op
  late : moved.Pairwise fun first second =>
    isCapturable m first = true → isIndependentOp second = false

theorem movedUp_moveIndependentOps (m : Module) (once : operations.Nodup) :
    MovedUp m operations (moveIndependentOps m operations) := by
  obtain ⟨before, after, rfl, eager, isMoved⟩ := moveIndependentOps_eq m once
  rw [isMoved]
  constructor
  · rw [List.append_assoc]
    exact (List.filter_append_perm isIndependentOp after).append_left before
  · rw [List.filter_append, List.filter_append, List.filter_filter, List.filter_filter,
      List.filter_append]
    simp
  · rw [List.append_assoc]
    have independentFirst {first : Op} (isFirst : first ∈ after.filter isIndependentOp) :
        isCapturable m first ≠ true := by
      intro captured
      have independent := (List.mem_filter.mp isFirst).2
      rw [not_independent_of_capturable captured] at independent
      exact Bool.false_ne_true independent
    have eagerFirst {first : Op} (isFirst : first ∈ before) : isCapturable m first ≠ true := by
      rw [eager first isFirst]
      exact Bool.false_ne_true
    refine List.pairwise_append.mpr ⟨?_, List.pairwise_append.mpr ⟨?_, ?_, ?_⟩, ?_⟩
    · exact List.pairwise_of_forall_mem_list fun first isFirst _ _ captured =>
        absurd captured (eagerFirst isFirst)
    · exact List.pairwise_of_forall_mem_list fun first isFirst _ _ captured =>
        absurd captured (independentFirst isFirst)
    · apply List.pairwise_of_forall_mem_list
      intro first _ second isSecond _
      simpa using (List.mem_filter.mp isSecond).2
    · intro first isFirst _ _ captured
      exact absurd captured (independentFirst isFirst)
    · intro first isFirst _ _ captured
      exact absurd captured (eagerFirst isFirst)

/-- The moved code is well formed. -/
theorem defined_moveIndependentOps (m : Module)
    (wellFormed : Block.WellFormed arguments ⟨operations, terminator⟩)
    (independent : Block.IndependentOnly arguments ⟨operations, terminator⟩) :
    Defined Op.operands Op.results arguments (moveIndependentOps m operations ++ [terminator]) := by
  have once : operations.Nodup := by
    have identities := wellFormed.identities
    rw [Block.code, List.map_append] at identities
    exact List.Nodup.of_map _ (List.nodup_append.mp identities).1
  obtain ⟨defined, last⟩ := defined_append.mp wellFormed.defined
  have valuesOnce := wellFormed.once
  rw [Block.code, List.flatMap_append, ← List.append_assoc] at valuesOnce
  have perm := (movedUp_moveIndependentOps m once).perm
  obtain ⟨before, after, rfl, -, isMoved⟩ := moveIndependentOps_eq m once
  refine defined_append.mpr ⟨?_, last.mono ?_⟩
  · rw [isMoved]
    apply defined_partition defined (List.nodup_append.mp valuesOnce).1
    intro op member isIndependent value isOperand
    exact independent op (List.mem_append_right _ member) isIndependent value isOperand
  · intro value member
    rw [List.mem_append] at member ⊢
    exact member.imp_right fun result => (perm.symm.flatMap_right Op.results).subset result

/-- The runs of some operations: the captured ones, and no two of them touch. -/
inductive Groups (captures : Op → Bool) : List (List Op) → List Op → Prop
  | nil : Groups captures [] []
  | eager {runs operations op} (groups : Groups captures runs operations)
      (isEager : captures op = false) : Groups captures runs (operations ++ [op])
  | run {runs operations run} (groups : Groups captures runs operations)
      (apart : ∀ last ∈ operations.getLast?, captures last = false) (nonempty : run ≠ [])
      (captured : ∀ op ∈ run, captures op = true) :
      Groups captures (runs ++ [run]) (operations ++ run)

/-- A run of captured operations, with none next to it. -/
def MaximalRun (captures : Op → Bool) (operations run : List Op) : Prop :=
  ∃ before after, operations = before ++ run ++ after ∧ run ≠ [] ∧
    (∀ op ∈ run, captures op = true) ∧ (∀ last ∈ before.getLast?, captures last = false) ∧
    ∀ next ∈ after.head?, captures next = false

variable {captures : Op → Bool} {runs : List (List Op)} {operations : List Op}

theorem Groups.captured (groups : Groups captures runs operations) :
    runs.flatten = operations.filter captures := by
  induction groups with
  | nil => rfl
  | eager groups isEager ih => rw [ih, List.filter_append]; simp [isEager]
  | run groups apart nonempty captured ih =>
    rw [List.flatten_append, ih, List.filter_append, List.filter_eq_self.mpr captured]
    simp

theorem Groups.maximal (groups : Groups captures runs operations) :
    ∀ run ∈ runs, MaximalRun captures operations run := by
  induction groups with
  | nil => simp
  | @eager runs operations op groups isEager ih =>
    intro run member
    obtain ⟨before, after, rfl, nonempty, captured, left, right⟩ := ih run member
    refine ⟨before, after ++ [op], by simp, nonempty, captured, left, ?_⟩
    cases after with
    | nil => simpa using isEager
    | cons next after => simpa using right
  | @run runs operations added groups apart nonempty captured ih =>
    intro run member
    rcases List.mem_append.mp member with earlier | isAdded
    · obtain ⟨before, after, rfl, runNonempty, runCaptured, left, right⟩ := ih run earlier
      refine ⟨before, after ++ added, by simp, runNonempty, runCaptured, left, ?_⟩
      cases after with
      | nil =>
        -- The run would touch the one that is added.
        have isLast := List.getLast?_eq_some_getLast runNonempty
        have eager := apart (run.getLast runNonempty) (by simp [isLast])
        rw [runCaptured _ (List.getLast_mem runNonempty)] at eager
        exact absurd eager (by decide)
      | cons next after => simpa using right
    · obtain rfl := List.mem_singleton.mp isAdded
      exact ⟨operations, [], by simp, nonempty, captured, apart, by simp⟩

/-- After some operations, the run that is not ended is behind the others. -/
structure Grouped (m : Module) (operations : List Op) (grouping : Grouping)
    (before : List Op) : Prop where
  split : operations = before ++ grouping.run
  groups : Groups (isCapturable m) grouping.runs before
  apart : ∀ last ∈ before.getLast?, isCapturable m last = false
  captured : ∀ op ∈ grouping.run, isCapturable m op = true
  callees : ∀ op ∈ operations, isCapturable m op = false →
    collectEagerCallees m op ⊆ grouping.callees

theorem Grouped.allRuns {grouping : Grouping} (grouped : Grouped m operations grouping before) :
    Groups (isCapturable m) grouping.allRuns operations := by
  have split := grouped.split
  rw [split, Grouping.allRuns]
  split
  · rename_i isEmpty
    rw [List.isEmpty_iff.mp isEmpty, List.append_nil]
    exact grouped.groups
  · rename_i nonempty
    exact .run grouped.groups grouped.apart (by simpa using nonempty) grouped.captured

theorem exists_grouped (m : Module) (operations : List Op) :
    ∃ before, Grouped m operations (operations.foldl (groupOp m) ⟨[], [], []⟩) before := by
  induction operations using List.reverseRecOn with
  | nil => exact ⟨[], rfl, .nil, by simp, by simp, by simp⟩
  | append_singleton operations op ih =>
    obtain ⟨before, grouped⟩ := ih
    rw [List.foldl_append]
    set grouping := operations.foldl (groupOp m) ⟨[], [], []⟩
    by_cases isCaptured : isCapturable m op = true
    · have next : groupOp m grouping op = { grouping with run := grouping.run ++ [op] } :=
        if_pos isCaptured
      refine ⟨before, ?_⟩
      rw [List.foldl_cons, List.foldl_nil, next]
      refine ⟨?_, grouped.groups, grouped.apart, ?_, ?_⟩
      · rw [← List.append_assoc, ← grouped.split]
      · intro other member
        rcases List.mem_append.mp member with earlier | isOp
        · exact grouped.captured other earlier
        · exact List.mem_singleton.mp isOp ▸ isCaptured
      · intro other member isEager
        rcases List.mem_append.mp member with earlier | isOp
        · exact grouped.callees other earlier isEager
        · rw [List.mem_singleton.mp isOp, isCaptured] at isEager
          exact absurd isEager (by decide)
    · have next : groupOp m grouping op =
          ⟨grouping.allRuns, [], grouping.callees ++ collectEagerCallees m op⟩ := if_neg isCaptured
      have isEager : isCapturable m op = false := by simpa using isCaptured
      refine ⟨operations ++ [op], ?_⟩
      rw [List.foldl_cons, List.foldl_nil, next]
      refine ⟨(List.append_nil _).symm, .eager grouped.allRuns isEager, ?_, by simp, ?_⟩
      · simpa using isEager
      · intro other member otherEager
        rcases List.mem_append.mp member with earlier | isOp
        · exact List.subset_append_of_subset_left _ (grouped.callees other earlier otherEager)
        · rw [List.mem_singleton.mp isOp]
          exact List.subset_append_right _ _

/-- Runs replaced by one trace operation each. -/
inductive Replaced : List (List Op) → List Op → List Op → Prop
  | nil : Replaced [] [] []
  | kept {runs operations replaced op} (rest : Replaced runs operations replaced) :
      Replaced runs (operations ++ [op]) (replaced ++ [op])
  | trace {runs operations replaced run op} (rest : Replaced runs operations replaced)
      (isTrace : op.kind = .captureOrExecuteTraceOp) :
      Replaced (runs ++ [run]) (operations ++ run) (replaced ++ [op])

/-- The transform replaces a run where it is. -/
theorem performHoistTransform_eq {before run after : List Op} {first terminator : Op}
    {block : Block} (once : (before ++ (first :: run) ++ after).Nodup)
    (performed : performHoistTransform upstream
      ⟨before ++ (first :: run) ++ after, terminator⟩ (first :: run) = some block) :
    block = ⟨before ++ traceOp upstream ⟨before ++ (first :: run) ++ after, terminator⟩ first
      (first :: run) :: after, terminator⟩ := by
  unfold performHoistTransform at performed
  dsimp only at performed
  split at performed
  · contradiction
  rw [← Option.some.inj performed]
  congr 1
  obtain ⟨beforeOnce, afterOnce, apart⟩ := List.nodup_append.mp once
  obtain ⟨-, runOnce, beforeApart⟩ := List.nodup_append.mp beforeOnce
  have outside {operations : List Op} (fresh : ∀ op ∈ operations, op ∉ first :: run)
      (trace : Op) : (operations.flatMap fun op =>
        if op = first then [trace] else if op ∈ first :: run then [] else [op]) = operations := by
    apply flatMap_unchanged
    intro op member
    have notRun := fresh op member
    rw [if_neg fun same => notRun (by simp [same]), if_neg notRun]
  have inside (trace : Op) : (run.flatMap fun op =>
      if op = first then [trace] else if op ∈ first :: run then [] else [op]) = [] := by
    apply List.flatMap_eq_nil_iff.mpr
    intro op member
    have notFirst : op ≠ first := fun same => (List.nodup_cons.mp runOnce).1 (same ▸ member)
    rw [if_neg notFirst, if_pos (List.mem_cons_of_mem _ member)]
  rw [List.flatMap_append, List.flatMap_append, List.flatMap_cons, if_pos rfl, inside,
    outside fun op member isRun => beforeApart op member op isRun rfl,
    outside fun op member isRun => apart op (by simp [isRun]) op member rfl]
  simp

/-- What hoisting the runs of some operations leaves, with what comes behind them. -/
structure HoistedRuns (arguments : List Value) (runs : List (List Op))
    (operations after : List Op) (terminator : Op) (block : Block) (replaced : List Op) :
    Prop where
  isBlock : block = ⟨replaced ++ after, terminator⟩
  traces : Replaced runs operations replaced
  identities : (replaced.map Op.id).Sublist (operations.map Op.id)
  results : (replaced.flatMap Op.results).Sublist (operations.flatMap Op.results)
  defined : Defined Op.operands Op.results arguments (replaced ++ after ++ [terminator])

theorem hoist_run (documented : upstream.Documented) {run replaced : List Op} {before block : Block}
    (nonempty : run ≠ [])
    (identities : ((operations ++ (run ++ after) ++ [terminator]).map Op.id).Nodup)
    (handles : ∀ op ∈ run ++ after, isIndependentOp op = false)
    (hoisted : HoistedRuns arguments runs operations (run ++ after) terminator before replaced)
    (performed : performHoistTransform upstream before run = some block) :
    ∃ replaced', HoistedRuns arguments (runs ++ [run]) (operations ++ run) after terminator block
      replaced' := by
  obtain ⟨first, rest, rfl⟩ := List.exists_cons_of_ne_nil nonempty
  have ids : ((replaced ++ (first :: rest) ++ after ++ [terminator]).map Op.id).Nodup := by
    have sublist : ((replaced ++ (first :: rest) ++ after ++ [terminator]).map Op.id).Sublist
        ((operations ++ (first :: rest ++ after) ++ [terminator]).map Op.id) := by
      simp only [List.map_append, List.append_assoc]
      exact hoisted.identities.append (List.Sublist.refl _)
    exact identities.sublist sublist
  have once := List.Nodup.of_map _ ids
  obtain ⟨opsOnce, -, terminatorApart⟩ := List.nodup_append.mp once
  rw [hoisted.isBlock, ← List.append_assoc] at performed
  have isBlock := performHoistTransform_eq opsOnce performed
  set trace := traceOp upstream ⟨replaced ++ first :: rest ++ after, terminator⟩ first
    (first :: rest)
  have defined := hoisted.defined
  rw [← List.append_assoc, List.append_assoc _ after] at defined
  refine ⟨replaced ++ [trace], ?_, .trace hoisted.traces rfl, ?_, ?_, ?_⟩
  · rw [isBlock, List.append_assoc]
    rfl
  · rw [List.map_append, List.map_append, List.map_cons, List.map_cons]
    exact hoisted.identities.append ((List.nil_sublist _).cons_cons _)
  · rw [List.flatMap_append, List.flatMap_append]
    apply hoisted.results.append
    rw [List.flatMap_singleton]
    exact List.filter_sublist
  · rw [List.append_assoc, List.append_assoc]
    apply defined_replace defined
    · intro value isOperand
      rcases List.mem_append.mp isOperand with isDevice | isInput
      · -- A device handle is before the runs.
        obtain ⟨op, member, isHandle, isResult⟩ := documented.device _ value isDevice
        have independent : isIndependentOp op = true := by
          simp [isIndependentOp, isHandleOrLoad, isHandle]
        rw [List.append_assoc, List.mem_append] at member
        rcases member with isBefore | isLate
        · exact List.mem_append_right _ (List.mem_flatMap.mpr ⟨op, isBefore, isResult⟩)
        · rw [handles op isLate] at independent
          exact absurd independent (by decide)
      · obtain ⟨isRead, isOutside⟩ := List.mem_filter.mp isInput
        obtain ⟨op, member, reads⟩ := List.mem_flatMap.mp isRead
        obtain ⟨-, runDefined⟩ := defined_append.mp (defined_append.mp defined).1
        exact runDefined.outside member reads (by simpa using isOutside)
    · intro op member value isOperand isResult
      apply List.mem_filter.mpr
      refine ⟨isResult, List.any_eq_true.mpr ⟨op, ?_, ?_⟩⟩
      · simp only [List.mem_append] at member ⊢
        tauto
      · have notRun : op ∉ first :: rest := by
          intro isRun
          rcases List.mem_append.mp member with isAfter | isTerminator
          · exact (List.nodup_append.mp opsOnce).2.2 op (by simp [isRun]) op isAfter rfl
          · exact terminatorApart op (List.mem_append_left _ (List.mem_append_right _ isRun)) op
              isTerminator rfl
        simp [notRun, isOperand]

/-- Hoisting the runs one after another. -/
theorem hoist_groups (documented : upstream.Documented) {arguments : List Value}
    (groups : Groups (isCapturable m) runs operations) {after : List Op} {terminator : Op}
    {block : Block}
    (identities : ((operations ++ after ++ [terminator]).map Op.id).Nodup)
    (late : (operations ++ after).Pairwise fun first second =>
      isCapturable m first = true → isIndependentOp second = false)
    (defined : Defined Op.operands Op.results arguments (operations ++ after ++ [terminator]))
    (performed : runs.foldlM (performHoistTransform upstream) ⟨operations ++ after, terminator⟩ =
      some block) :
    ∃ replaced, HoistedRuns arguments runs operations after terminator block replaced := by
  induction groups generalizing after block with
  | nil =>
    obtain rfl := Option.some.inj performed
    exact ⟨[], rfl, .nil, List.Sublist.refl _, List.Sublist.refl _, defined⟩
  | @eager runs operations op groups isEager ih =>
    rw [List.append_assoc] at late performed
    rw [List.append_assoc operations] at identities defined
    obtain ⟨replaced, hoisted⟩ := ih identities late defined performed
    refine ⟨replaced ++ [op], ?_, .kept hoisted.traces, ?_, ?_, ?_⟩
    · rw [hoisted.isBlock, List.append_assoc]
    · rw [List.map_append, List.map_append]
      exact hoisted.identities.append (List.Sublist.refl _)
    · rw [List.flatMap_append, List.flatMap_append]
      exact hoisted.results.append (List.Sublist.refl _)
    · rw [List.append_assoc replaced]
      exact hoisted.defined
  | @run runs operations run groups apart nonempty captured ih =>
    rw [List.append_assoc] at late performed
    rw [List.append_assoc operations] at identities defined
    rw [List.foldlM_append] at performed
    obtain ⟨before, isBefore, last⟩ := Option.bind_eq_some_iff.mp performed
    obtain ⟨replaced, hoisted⟩ := ih identities late defined isBefore
    obtain ⟨_, performedRun, same⟩ := Option.bind_eq_some_iff.mp last
    obtain rfl := Option.some.inj same
    apply hoist_run documented nonempty identities _ hoisted performedRun
    intro op member
    rcases List.mem_append.mp member with isRun | isAfter
    · exact not_independent_of_capturable (captured op isRun)
    · have head := List.head_mem nonempty
      have behind := (List.pairwise_append.mp (List.pairwise_append.mp late).2.1).2.2
      exact behind _ head op isAfter (captured _ head)

end Libtt.TraceHoist

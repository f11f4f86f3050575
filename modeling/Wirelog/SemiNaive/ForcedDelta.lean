import Wirelog.Plan.HeadGroups
import Wirelog.SemiNaive.BaseSkip

/-!
# Plans with an empty forced delta

An operator can be told to read only the rows that the last pass added. Before a plan runs, the
engine looks for such an operator whose added rows do not exist or are none, and skips the plan
when it finds one (`hasEmptyForcedDelta`). This is right when the operator then reads no rows and
when every later operator works on what it leaves: nothing comes from nothing
(`evalRelationOps_silent`).

The test and the operators do not look in the same places. The test also asks semijoins, which
read the whole relation whatever they were told. While rows are retracted it asks for the removed
rows, where a join prefers the added ones, and so does a scan in the pass for the right sides.
`emptyForcedDelta_sound_iff` says for every session which relations may be forced (`TestAgrees`),
for the plans that read one table and work on it and those that lay alternatives together. Skipping
such a plan then changes nothing (`storeResult_of_skipped`).

The leapfrog join and the fused copies leave a table of their own on the stack, about which nothing
is assumed. An exchange hands the rows of the top of the stack to the workers; the column that a
relation may prescribe for its distribution only decides which worker gets a row.
-/

set_option autoImplicit false

namespace Wirelog.SemiNaive

open Wirelog.IR Wirelog.Plan List
open Wirelog.Columnar (Row ColumnType Cell)

/-! ## Relation plans with all operators -/

inductive RelationOp where
  | step (op : StepOp)
  /-- `WL_PLAN_OP_LFTJ` and `WL_PLAN_OP_K_FUSION`: a table of its own. -/
  | own (result : Session → Except EvalError Table)
  /-- `WL_PLAN_OP_EXCHANGE`. -/
  | exchange (numWorkers : Nat) (keyCols : List Nat)

/-- The stack, the cache of join results, and the rows handed to the workers. -/
structure RelationState where
  stack : List Entry
  cache : MatCache
  sent : List Row

/-- `col_op_exchange`; the coordinator may have no buffers for this worker. -/
def colOpExchange (buffers : Bool) (numWorkers : Nat) (keyCols : List Nat)
    (state : RelationState) : Except EvalError RelationState :=
  if numWorkers ≤ 1 then .ok state
  else match state.stack with
    | [] => .error .einval
    | top :: rest =>
      if top.table.types = [] then .ok { state with stack := rest }
      else if keyCols = [] ∨ (∃ key ∈ keyCols, top.table.types.length ≤ key) ∨ !buffers then
        .error .einval
      else .ok { state with stack := rest, sent := state.sent ++ top.table.rows }

/-- The operators that work on rows. -/
def stepsOf (plan : List RelationOp) : List StepOp :=
  plan.filterMap fun op => match op with
    | .step op => some op
    | _ => none

/-- The next operator, if it works on rows. -/
def nextStep : List RelationOp → List StepOp
  | .step op :: _ => [op]
  | _ => []

section Evaluation

variable (machine : Machine) (sess : Session) (policy : CachePolicy) (buffers : Bool)

variable (plan : List RelationOp)

/-- Evaluate one operator of a plan, or skip its scan. -/
def relationStep (op : RelationOp) (rest : List RelationOp) (state : RelationState) :
    Except EvalError RelationState :=
  match op with
  | .step op => match baseSkip sess (stepsOf plan) op (nextStep rest) with
      | some entry => .ok { state with stack := entry :: state.stack }
      | none => (stepCached machine sess policy op state.stack state.cache).map fun done =>
        { state with stack := done.1, cache := done.2 }
  | .own result => (result sess).map fun table =>
    { state with stack := ⟨table, false, none⟩ :: state.stack }
  | .exchange numWorkers keyCols => colOpExchange buffers numWorkers keyCols state

/-- Evaluate operators of a plan one after the other. -/
def evalRelationOps : List RelationOp → RelationState → Except EvalError RelationState
  | [], state => .ok state
  | op :: rest, state => (relationStep machine sess policy buffers plan op rest state).bind
      (evalRelationOps rest)

/-- `col_eval_relation_plan` with all operators. -/
def evalRelationPlan (cache : MatCache) : Except EvalError RelationState :=
  evalRelationOps machine sess policy buffers plan plan ⟨[], cache, []⟩

/-- What a plan yields: the rows on top of the stack, and those handed to the workers. -/
def yieldedRows : Except EvalError RelationState → List Row
  | .ok state => (state.stack.head?.elim [] fun entry => entry.table.rows) ++ state.sent
  | .error _ => []

end Evaluation

/-! ## The test -/

/-- The relation that a scan or a join is about. -/
def scannedOrJoined : PlanOp → Option String
  | .variable rel => rel
  | .join rel _ _ _ => rel
  | _ => none

/-- The relation that a semijoin is about. -/
def semijoined : PlanOp → Option String
  | .semijoin rel _ _ _ _ => some rel
  | _ => none

section Test

variable {sess : Session} {op : StepOp} {rel : String}

theorem forcedRelation_eq_some_iff {planOp : PlanOp} :
    forcedRelation planOp = some rel ↔
      scannedOrJoined planOp = some rel ∨ semijoined planOp = some rel := by
  cases planOp <;> simp [forcedRelation, scannedOrJoined, semijoined]

theorem lacksForcedDelta_iff :
    lacksForcedDelta sess op ↔ op.deltaMode = .forceDelta ∧
      ∃ rel, forcedRelation op.op = some rel ∧ lacksDelta sess rel := by
  unfold lacksForcedDelta
  cases forced : forcedRelation op.op with
  | none => simp
  | some rel =>
    simp

/-- A positive answer comes from an operator of the plan. -/
theorem exists_lacking_of_hasEmptyForcedDelta {plan : List StepOp}
    (answer : hasEmptyForcedDelta sess plan) :
    sess.pastSeed ∧ ∃ op ∈ plan, lacksForcedDelta sess op := by
  simp only [hasEmptyForcedDelta, Bool.and_eq_true, any_eq_true] at answer
  obtain ⟨⟨past, -⟩, op, found, lacks⟩ := answer
  exact ⟨past, op, (takeWhile_sublist _).subset found, lacks⟩

/-- Without a retraction the test looks at the added rows. -/
theorem lacksDelta_of_not_retracting (apart : sess.retracting = false) :
    lacksDelta sess rel = noneAdded sess rel := by
  simp [lacksDelta, apart]

/-- A forced scan reads nothing where the test and the added rows agree. -/
theorem scanDelta_lacking (lacks : lacksDelta sess rel) (none : noneAdded sess rel) :
    ∀ found ∈ scanDelta sess rel, found.2.rows = [] := by
  intro found member
  unfold scanDelta at member
  split_ifs at member with left
  · have retracting : sess.retracting = true := by
      simp only [Bool.and_eq_true] at left
      exact left.1
    obtain ⟨name, named, member⟩ := Option.bind_eq_some_iff.mp member
    obtain ⟨table, held, rfl⟩ := Option.map_eq_some_iff.mp member
    simpa [lacksDelta, retracting, named, held] using lacks
  · obtain ⟨table, held, rfl⟩ := Option.map_eq_some_iff.mp member
    simpa [noneAdded, held] using none

theorem forcedRight_lacking (past : sess.pastSeed) (lacks : lacksDelta sess rel)
    (none : noneAdded sess rel) : forcedRight sess rel = .exhausted := by
  unfold forcedRight
  cases held : sess.delta rel with
  | some rows =>
    have empty : rows.rows = [] := by simpa [noneAdded, held] using none
    simp [empty, past]
  | none =>
    by_cases retracting : sess.retracting = true
    · cases named : retractionName rel with
      | none => simp [retracting, past]
      | some name =>
        cases removed : sess.rels name with
        | none => simp [retracting, removed, past]
        | some rows =>
          have empty : rows.rows = [] := by
            simpa [lacksDelta, retracting, named, removed] using lacks
          simp [retracting, removed, empty, past]
    · simp [retracting, past]

end Test

/-! ## Nothing comes from nothing -/

/-- Every table on the stack is without rows and was computed for an operator, and nothing was
handed to the workers. -/
structure Silent (state : RelationState) : Prop where
  stack : ∀ entry ∈ state.stack, entry.table.rows = [] ∧ entry.source = none
  sent : state.sent = []

/-- Whether an operator adds a table to the stack. -/
def RelationOp.pushes : RelationOp → Bool
  | .step op => match op.op with
      | .variable _ => true
      | _ => false
  | .own _ => true
  | .exchange _ _ => false

section Silence

variable {machine : Machine} {sess : Session} {policy : CachePolicy} {buffers : Bool}
  {op : StepOp} {cache : MatCache}

theorem Silent.yieldedRows {state : RelationState} (silent : Silent state) :
    yieldedRows (.ok state) = [] := by
  change (state.stack.head?.elim [] fun entry => entry.table.rows) ++ state.sent = []
  rw [silent.sent, append_nil]
  cases found : state.stack.head? with
  | none => rfl
  | some entry => exact (silent.stack entry (mem_of_mem_head? found)).1

theorem joinEntry_silent {rel : Option String} {leftKeys rightKeys : List Nat}
    {rightFilter : Option PlanExpr} {left after : Entry} (empty : left.table.rows = [])
    (ran : joinEntry machine sess op rel leftKeys rightKeys rightFilter left = .ok after) :
    after.table.rows = [] := by
  unfold joinEntry at ran
  split at ran
  · cases ran
    exact projectJoin_empty_rows _ _
  split at ran
  · cases ran
    exact projectJoin_empty_rows _ _
  split at ran
  · cases ran
    exact projectJoin_empty_rows _ _
  · obtain ⟨table, joined, rfl⟩ := map_eq_ok_iff.mp ran
    exact (rowOp_joinRows ..).rows_nil joined empty
  · obtain ⟨table, joined, rfl⟩ := map_eq_ok_iff.mp ran
    exact (rowOp_joinRows ..).rows_nil joined empty

/-- A reduction of no rows has no groups. -/
def ReducesNothing (machine : Machine) : Prop :=
  ∀ fn groupBy expr operand index table result, table.rows = [] →
    machine.reduce fn groupBy expr operand index table = .ok result → result.rows = []

theorem reducesNothing_reducingMachine (outside : Outside) (countDouble : Nat → Cell) :
    ReducesNothing (reducingMachine outside countDouble) :=
  fun _ _ _ _ _ _ _ empty ran => colOpReduce_rows_nil ran empty

/-- An operator makes nothing of a table without rows. -/
theorem replaceTop_silent (reduces : ReducesNothing machine) {top after : Entry}
    (empty : top.table.rows = []) (unsourced : top.source = none)
    (ran : replaceTop machine sess op top = .ok after) :
    after.table.rows = [] ∧ after.source = none := by
  constructor
  · by_cases rowwise : isRowwise op.op
    · rw [replaceTop_of_rowwise rowwise] at ran
      obtain ⟨shape, rowOp⟩ := exists_rowOp_unaryOp machine sess.rels rowwise
      obtain ⟨table, applied, rfl⟩ := map_eq_ok_iff.mp ran
      exact rowOp.rows_nil applied empty
    · obtain ⟨planOp, mode, materialized, projection⟩ := op
      cases planOp with
      | join rel leftKeys rightKeys rightFilter => exact joinEntry_silent empty ran
      | reduce fn groupBy expr operand index =>
        obtain ⟨table, applied, rfl⟩ := map_eq_ok_iff.mp ran
        exact reduces _ _ _ _ _ _ _ empty applied
      | «variable» rel => cases ran
      | concat => cases ran
      | _ => exact absurd rfl rowwise
  · rcases replaceTop_source ran with computed | ⟨-, handed⟩
    · exact computed
    · exact handed.trans unsourced

/-- What an operator that is no scan does to a stack. -/
theorem stepCached_cases {stack : List Entry} {done : List Entry × MatCache}
    (scanless : (RelationOp.step op).pushes = false)
    (ran : stepCached machine sess policy op stack cache = .ok done) :
    (∃ top rest entry, stack = top :: rest ∧
        replaceTopCached machine sess policy op top cache = .ok (entry, done.2) ∧
        done.1 = entry :: rest) ∨
      (∃ second first rest table, stack = second :: first :: rest ∧
        opConcat first.table second.table = .ok table ∧
        done = (⟨table, false, none⟩ :: rest, cache)) ∨
      stack.length ≤ 1 ∧ op.op = .concat ∧ done = (stack, cache) := by
  obtain ⟨planOp, mode, materialized, projection⟩ := op
  cases planOp with
  | «variable» rel => cases scanless
  | concat =>
    obtain ⟨after, stepped, rfl⟩ := map_eq_ok_iff.mp ran
    match stack, stepped with
    | [], stepped =>
      cases stepped
      exact .inr (.inr ⟨by simp, rfl, rfl⟩)
    | [_], stepped =>
      cases stepped
      exact .inr (.inr ⟨by simp, rfl, rfl⟩)
    | second :: first :: rest, stepped =>
      obtain ⟨table, laid, rfl⟩ := map_eq_ok_iff.mp stepped
      exact .inr (.inl ⟨second, first, rest, table, rfl, laid, rfl⟩)
  | _ =>
    cases stack with
    | nil => cases ran
    | cons top rest =>
      simp only [stepCached] at ran
      obtain ⟨⟨entry, kept⟩, replaced, rfl⟩ := map_eq_ok_iff.mp ran
      exact .inl ⟨top, rest, entry, rfl, replaced, rfl⟩

/-- Only scans are skipped, and no forced ones. -/
theorem relationStep_step {plan rest : List RelationOp} {state : RelationState}
    (kept : (RelationOp.step op).pushes = false ∨ op.deltaMode ≠ .auto) :
    relationStep machine sess policy buffers plan (.step op) rest state =
      (stepCached machine sess policy op state.stack state.cache).map fun done =>
        { state with stack := done.1, cache := done.2 } := by
  have unskipped : baseSkip sess (stepsOf plan) op (nextStep rest) = none := by
    cases skipped : baseSkip sess (stepsOf plan) op (nextStep rest) with
    | none => rfl
    | some entry =>
      obtain ⟨rel, full, scan, auto, -⟩ := eq_of_baseSkip skipped
      rcases kept with scanless | forced
      · simp [RelationOp.pushes, scan] at scanless
      · exact absurd auto forced
  rw [relationStep, unskipped]

/-- An exchange leaves everything, or hands on rows of the table that it takes from the stack. -/
theorem colOpExchange_cases {numWorkers : Nat} {keyCols : List Nat} {state after : RelationState}
    (ran : colOpExchange buffers numWorkers keyCols state = .ok after) :
    after = state ∨ ∃ top below sent, state.stack = top :: below ∧ sent ⊆ top.table.rows ∧
      after = ⟨below, state.cache, state.sent ++ sent⟩ := by
  unfold colOpExchange at ran
  split_ifs at ran
  · exact .inl (Except.ok.inj ran).symm
  cases stacked : state.stack with
  | nil => simp [stacked] at ran
  | cons top below =>
    simp only [stacked] at ran
    split_ifs at ran
    · cases ran
      exact .inr ⟨top, below, [], rfl, nil_subset _, by rw [append_nil]⟩
    · cases ran
      exact .inr ⟨top, below, _, rfl, List.Subset.refl _, rfl⟩

/-- A silent state stays silent until a table is added to it. -/
theorem relationStep_silent (reduces : ReducesNothing machine) {plan rest : List RelationOp}
    {relOp : RelationOp} {state after : RelationState} (pushless : relOp.pushes = false)
    (silent : Silent state)
    (ran : relationStep machine sess policy buffers plan relOp rest state = .ok after) :
    Silent after := by
  cases relOp with
  | own result => cases pushless
  | exchange numWorkers keyCols =>
    rcases colOpExchange_cases ran with rfl | ⟨top, below, sent, stacked, handed, rfl⟩
    · exact silent
    rw [(silent.stack top (stacked ▸ mem_cons_self)).1, subset_nil] at handed
    exact ⟨fun entry member => silent.stack entry (stacked ▸ mem_cons_of_mem _ member),
      by simp [silent.sent, handed]⟩
  | step op =>
    rw [relationStep_step (.inl pushless)] at ran
    obtain ⟨done, stepped, rfl⟩ := map_eq_ok_iff.mp ran
    rcases stepCached_cases pushless stepped with
      ⟨top, below, entry, stacked, replaced, same⟩ |
      ⟨second, first, below, table, stacked, laid, rfl⟩ | ⟨-, -, rfl⟩
    · obtain ⟨empty, unsourced⟩ := silent.stack top (stacked ▸ mem_cons_self)
      rw [replaceTopCached_eq (.inl unsourced)] at replaced
      obtain ⟨entry', applied, pair⟩ := map_eq_ok_iff.mp replaced
      obtain ⟨rfl, -⟩ := Prod.mk.inj pair
      refine ⟨fun other member => ?_, silent.sent⟩
      change other ∈ done.1 at member
      rw [same] at member
      rcases mem_cons.mp member with rfl | lower
      · exact replaceTop_silent reduces empty unsourced applied
      · exact silent.stack other (stacked ▸ mem_cons_of_mem _ lower)
    · refine ⟨fun other member => ?_, silent.sent⟩
      rcases mem_cons.mp member with rfl | lower
      · refine ⟨eq_nil_iff_forall_not_mem.mpr fun row inside => ?_, rfl⟩
        have firstEmpty := (silent.stack first (by simp [stacked])).1
        have secondEmpty := (silent.stack second (by simp [stacked])).1
        have found := ((opConcat_spec laid).2.2 row).mp inside
        simp [firstEmpty, secondEmpty] at found
      · exact silent.stack other (by simp [stacked, lower])
    · exact silent

/-- **Nothing comes from a silent state** as long as no table is added to it. -/
theorem evalRelationOps_silent (reduces : ReducesNothing machine) {plan ops : List RelationOp}
    {state : RelationState} (pushless : ∀ op ∈ ops, op.pushes = false) (silent : Silent state) :
    yieldedRows (evalRelationOps machine sess policy buffers plan ops state) = [] := by
  induction ops generalizing state with
  | nil => exact silent.yieldedRows
  | cons op rest ih =>
    rw [evalRelationOps]
    cases ran : relationStep machine sess policy buffers plan op rest state with
    | error e => rfl
    | ok after =>
      exact ih (fun other member => pushless other (mem_cons_of_mem _ member))
        (relationStep_silent reduces (pushless op mem_cons_self) silent ran)

end Silence

/-! ## Operators whose delta is empty -/

/-- An operator whose delta the test finds empty reads no rows: a relation that a scan or a join is
forced to read has no added rows, and the one that a semijoin is forced to read no rows at all. -/
def ReadsNothing (sess : Session) (op : StepOp) : Prop :=
  (∀ rel ∈ scannedOrJoined op.op, (sess.rels rel).isSome → noneAdded sess rel) ∧
    ∀ rel ∈ semijoined op.op, ∃ right, sess.rels rel = some right ∧ right.rows = []

section Lacking

variable {machine : Machine} {sess : Session} {policy : CachePolicy} {buffers : Bool}
  {op : StepOp} {cache : MatCache} {rel : String}

/-- A forced scan of a relation without added rows is empty. -/
theorem colOpVariable_lacking (past : sess.pastSeed) (lacks : lacksDelta sess rel)
    (unadded : (sess.rels rel).isSome → noneAdded sess rel) {entry : Entry}
    (ran : colOpVariable sess .forceDelta (some rel) = .ok entry) :
    entry.table.rows = [] ∧ entry.source = none := by
  cases held : sess.rels rel with
  | none => simp [colOpVariable, held] at ran
  | some full =>
    have empty := scanDelta_lacking lacks (unadded (by simp [held]))
    cases found : scanDelta sess rel with
    | none =>
      simp [colOpVariable, held, found, past] at ran
      exact ran ▸ ⟨rfl, rfl⟩
    | some delta =>
      have rows : delta.2.rows = [] := empty delta found
      simp [colOpVariable, held, found, past, rows] at ran
      exact ran ▸ ⟨rfl, rfl⟩

/-- A forced join of a relation without added rows is empty, and no result of it is kept. -/
theorem joinCached_lacking (machine : Machine) (policy : CachePolicy) (op : StepOp)
    (cache : MatCache) (past : sess.pastSeed) (lacks : lacksDelta sess rel)
    (unadded : (sess.rels rel).isSome → noneAdded sess rel) (forced : op.deltaMode = .forceDelta)
    (leftKeys rightKeys : List Nat) (rightFilter : Option PlanExpr) (left : Entry) :
    ∃ types, joinEntry machine sess op (some rel) leftKeys rightKeys rightFilter left =
        .ok ⟨projectJoin op.projection (.empty types), false, none⟩ ∧
      joinCached machine sess policy op rel leftKeys rightKeys rightFilter left cache =
        .ok (⟨projectJoin op.projection (.empty types), false, none⟩, cache) := by
  cases held : sess.rels rel with
  | none =>
    exact ⟨left.table.types, by simp [joinEntry, held], by simp [joinCached, joinEntry, held]; rfl⟩
  | some right =>
    have choice : rightChoice sess op.deltaMode rel right left.isDelta = .exhausted := by
      rw [forced]
      simp [rightChoice, forcedRight_lacking past lacks (unadded (by simp [held]))]
    exact ⟨left.table.types ++ right.types, by simp [joinEntry, held, choice],
      by simp [joinCached, joinEntry, held, choice]; rfl⟩

theorem opSemijoin_lacking {right : Table} (held : sess.rels rel = some right)
    (empty : right.rows = []) {leftKeys rightKeys indices : List Nat}
    {rightFilter : Option PlanExpr} {left result : Table}
    (ran : opSemijoin machine sess.rels rel leftKeys rightKeys rightFilter indices left =
      .ok result) : result.rows = [] := by
  simp only [opSemijoin, held] at ran
  split_ifs at ran with compatible projected
  · cases ran
    simp [Table.filter, empty]
  · cases ran
    simp [Table.filter, Table.project, empty]

/-- **An operator whose delta the test finds empty leaves a table without rows**, when it reads
nothing. -/
theorem stepCached_lacking (past : sess.pastSeed) (lacks : lacksForcedDelta sess op)
    (nothing : ReadsNothing sess op) {stack : List Entry} {done : List Entry × MatCache}
    (short : stack.length ≤ 1) (first : (RelationOp.step op).pushes → stack = [])
    (ran : stepCached machine sess policy op stack cache = .ok done) :
    ∃ entry, done.1 = [entry] ∧ entry.table.rows = [] ∧ entry.source = none := by
  obtain ⟨forced, rel, named, lacks⟩ := lacksForcedDelta_iff.mp lacks
  obtain ⟨reads, semijoins⟩ := nothing
  obtain ⟨planOp, mode, materialized, projection⟩ := op
  obtain rfl : mode = .forceDelta := forced
  have shapes : stack = [] ∨ ∃ top, stack = [top] := by
    rw [← length_eq_zero_iff, ← length_eq_one_iff]
    omega
  cases planOp with
  | «variable» other =>
    obtain rfl : other = some rel := named
    obtain rfl := first rfl
    obtain ⟨after, stepped, rfl⟩ := map_eq_ok_iff.mp ran
    obtain ⟨entry, scanned, rfl⟩ := map_eq_ok_iff.mp stepped
    exact ⟨entry, rfl, colOpVariable_lacking past lacks (reads rel rfl) scanned⟩
  | join other leftKeys rightKeys rightFilter =>
    obtain rfl : other = some rel := named
    rcases shapes with rfl | ⟨top, rfl⟩
    · cases ran
    simp only [stepCached, replaceTopCached, replaceTop] at ran
    obtain ⟨⟨entry, kept⟩, replaced, rfl⟩ := map_eq_ok_iff.mp ran
    obtain ⟨types, plain, cached⟩ := joinCached_lacking machine policy
      ⟨.join (some rel) leftKeys rightKeys rightFilter, .forceDelta, materialized, projection⟩
      cache past lacks (reads rel rfl) rfl leftKeys rightKeys rightFilter top
    refine ⟨entry, rfl, ?_⟩
    split_ifs at replaced
    · rw [cached] at replaced
      cases replaced
      exact ⟨projectJoin_empty_rows _ _, rfl⟩
    · rw [plain] at replaced
      cases replaced
      exact ⟨projectJoin_empty_rows _ _, rfl⟩
  | semijoin other leftKeys rightKeys rightFilter indices =>
    obtain rfl : other = rel := Option.some.inj named
    obtain ⟨right, held, empty⟩ := semijoins other rfl
    rcases shapes with rfl | ⟨top, rfl⟩
    · cases ran
    simp only [stepCached, replaceTopCached, replaceTop] at ran
    obtain ⟨⟨entry, kept⟩, replaced, rfl⟩ := map_eq_ok_iff.mp ran
    obtain ⟨entry', applied, pair⟩ := map_eq_ok_iff.mp replaced
    obtain ⟨rfl, -⟩ := Prod.mk.inj pair
    obtain ⟨table, joined, rfl⟩ := map_eq_ok_iff.mp applied
    exact ⟨_, rfl, opSemijoin_lacking held empty joined, by simp [handsOn, held]⟩
  | _ => cases named

end Lacking

/-! ## Chains -/

/-- The first operator adds a table to the stack, and every other one works on it. -/
def isChain : List RelationOp → Bool
  | [] => false
  | first :: rest => first.pushes && rest.all fun op => !op.pushes

/-- At most one table is on the stack, and nothing was handed to the workers before. -/
structure Single (state : RelationState) : Prop where
  short : state.stack.length ≤ 1
  unsent : state.stack ≠ [] → state.sent = []

section Chains

variable {machine : Machine} {sess : Session} {policy : CachePolicy} {buffers : Bool}
  {plan rest : List RelationOp} {relOp : RelationOp} {state after : RelationState}

/-- The first operator of a chain leaves one table. -/
theorem relationStep_first {cache : MatCache} (pushes : relOp.pushes = true)
    (ran : relationStep machine sess policy buffers plan relOp rest ⟨[], cache, []⟩ = .ok after) :
    Single after := by
  cases relOp with
  | exchange numWorkers keyCols => cases pushes
  | own result =>
    obtain ⟨table, -, rfl⟩ := map_eq_ok_iff.mp ran
    exact ⟨le_rfl, fun _ => rfl⟩
  | step op =>
    rw [relationStep] at ran
    cases skipped : baseSkip sess (stepsOf plan) op (nextStep rest) with
    | some entry =>
      rw [skipped] at ran
      cases ran
      exact ⟨le_rfl, fun _ => rfl⟩
    | none =>
      rw [skipped] at ran
      obtain ⟨done, stepped, rfl⟩ := map_eq_ok_iff.mp ran
      obtain ⟨planOp, mode, materialized, projection⟩ := op
      cases planOp with
      | «variable» rel =>
        obtain ⟨stack, pushed, rfl⟩ := map_eq_ok_iff.mp stepped
        obtain ⟨entry, -, rfl⟩ := map_eq_ok_iff.mp pushed
        exact ⟨le_rfl, fun _ => rfl⟩
      | _ => cases pushes

theorem relationStep_single (pushless : relOp.pushes = false) (single : Single state)
    (ran : relationStep machine sess policy buffers plan relOp rest state = .ok after) :
    Single after := by
  cases relOp with
  | own result => cases pushless
  | exchange numWorkers keyCols =>
    rcases colOpExchange_cases ran with rfl | ⟨top, below, sent, stacked, -, rfl⟩
    · exact single
    have short := single.short
    obtain rfl : below = [] := by simpa [stacked] using short
    exact ⟨Nat.zero_le _, fun stacked => absurd rfl stacked⟩
  | step op =>
    rw [relationStep_step (.inl pushless)] at ran
    obtain ⟨done, stepped, rfl⟩ := map_eq_ok_iff.mp ran
    have short := single.short
    rcases stepCached_cases pushless stepped with
      ⟨top, below, entry, stacked, -, same⟩ | ⟨second, first, below, table, stacked, -, -⟩ |
      ⟨-, -, rfl⟩
    · obtain rfl : below = [] := by simpa [stacked] using short
      exact ⟨by simp [same], fun _ => single.unsent (by simp [stacked])⟩
    · simp [stacked] at short
    · exact single

theorem relationStep_lacking (past : sess.pastSeed) {op : StepOp}
    (lacks : lacksForcedDelta sess op) (nothing : ReadsNothing sess op) (single : Single state)
    (first : (RelationOp.step op).pushes → state = ⟨[], state.cache, []⟩)
    (ran : relationStep machine sess policy buffers plan (.step op) rest state = .ok after) :
    Silent after := by
  have forced := (lacksForcedDelta_iff.mp lacks).1
  rw [relationStep_step (.inr (by simp [forced]))] at ran
  obtain ⟨done, stepped, rfl⟩ := map_eq_ok_iff.mp ran
  obtain ⟨entry, same, empty, unsourced⟩ := stepCached_lacking past lacks nothing single.short
    (fun pushes => congrArg RelationState.stack (first pushes)) stepped
  refine ⟨fun other member => ?_, ?_⟩
  · change other ∈ done.1 at member
    rw [same, mem_singleton] at member
    exact member ▸ ⟨empty, unsourced⟩
  · by_cases pushes : (RelationOp.step op).pushes
    · exact congrArg RelationState.sent (first pushes)
    refine single.unsent fun bare => ?_
    -- an operator that is no scan fails on an empty stack
    rcases stepCached_cases (by simpa using pushes) stepped with
      ⟨top, below, _, stacked, -⟩ | ⟨_, _, _, _, stacked, -⟩ | ⟨-, -, rfl⟩
    · simp [stacked] at bare
    · simp [stacked] at bare
    · simp [bare] at same

/-- **A chain with an operator that reads nothing yields nothing.** -/
theorem evalRelationPlan_lacking (reduces : ReducesNothing machine) (past : sess.pastSeed)
    (chain : isChain plan) {op : StepOp} (member : op ∈ stepsOf plan)
    (lacks : lacksForcedDelta sess op) (nothing : ReadsNothing sess op) (cache : MatCache) :
    yieldedRows (evalRelationPlan machine sess policy buffers plan cache) = [] := by
  have later (whole ops : List RelationOp) (state : RelationState)
      (pushless : ∀ op ∈ ops, op.pushes = false) (single : Single state)
      (member : .step op ∈ ops) :
      yieldedRows (evalRelationOps machine sess policy buffers whole ops state) = [] := by
    induction ops generalizing state with
    | nil => cases member
    | cons head rest ih =>
      have restless : ∀ op ∈ rest, op.pushes = false :=
        fun op inside => pushless op (mem_cons_of_mem _ inside)
      have headless := pushless head mem_cons_self
      rw [evalRelationOps]
      cases ran : relationStep machine sess policy buffers whole head rest state with
      | error e => rfl
      | ok after =>
        rcases mem_cons.mp member with rfl | inRest
        · exact evalRelationOps_silent reduces restless
            (relationStep_lacking past lacks nothing single (by simp [headless]) ran)
        · exact ih after restless (relationStep_single headless single ran) inRest
  have inPlan : .step op ∈ plan := by
    obtain ⟨found, inside, same⟩ := mem_filterMap.mp member
    cases found with
    | step other => exact Option.some.inj same ▸ inside
    | own result => cases same
    | exchange numWorkers keyCols => cases same
  cases plan with
  | nil => cases chain
  | cons head rest =>
    simp only [isChain, Bool.and_eq_true, all_eq_true, Bool.not_eq_true'] at chain
    rw [evalRelationPlan, evalRelationOps]
    cases ran : relationStep machine sess policy buffers (head :: rest) head rest
        ⟨[], cache, []⟩ with
    | error e => rfl
    | ok after =>
      rcases mem_cons.mp inPlan with rfl | inRest
      · exact evalRelationOps_silent reduces chain.2
          (relationStep_lacking past lacks nothing ⟨Nat.zero_le _, fun _ => rfl⟩ (fun _ => rfl) ran)
      · exact later _ rest after chain.2 (relationStep_first chain.1 ran) inRest

end Chains

/-! ## When the test is right -/

/-- The relations that the scans, the joins and the semijoins of a plan are forced to read. -/
def ForcesOnly (names semis : String → Prop) (plan : List RelationOp) : Prop :=
  ∀ op ∈ stepsOf plan, op.deltaMode = .forceDelta →
    (∀ rel ∈ scannedOrJoined op.op, names rel) ∧ ∀ rel ∈ semijoined op.op, semis rel

/-- Where the test finds a delta empty, the operators find no rows. -/
structure TestAgrees (sess : Session) (names semis : String → Prop) : Prop where
  added : ∀ rel, names rel → (sess.rels rel).isSome → lacksDelta sess rel → noneAdded sess rel
  emptied : sess.pastSeed → ∀ rel, semis rel → lacksDelta sess rel →
    ∃ right, sess.rels rel = some right ∧ right.rows = []

section Soundness

variable {sess : Session} {names semis : String → Prop} {rel : String}

/-- Agreement is needed for the operators of a plan only. -/
theorem TestAgrees.readsNothing (agrees : TestAgrees sess names semis) (past : sess.pastSeed)
    {plan : List RelationOp} (forces : ForcesOnly names semis plan) {op : StepOp}
    (member : op ∈ stepsOf plan) (lacks : lacksForcedDelta sess op) : ReadsNothing sess op := by
  obtain ⟨forced, rel, named, lacks⟩ := lacksForcedDelta_iff.mp lacks
  obtain ⟨scans, semijoins⟩ := forces op member forced
  refine ⟨fun other found held => ?_, fun other found => ?_⟩
  · have same := named.symm.trans (forcedRelation_eq_some_iff.mpr (.inl found))
    cases same
    exact agrees.added rel (scans rel found) held lacks
  · have same := named.symm.trans (forcedRelation_eq_some_iff.mpr (.inr found))
    cases same
    exact agrees.emptied past rel (semijoins rel found) lacks

/-- Only a retraction makes the test look elsewhere. -/
theorem retracting_of_disagreement (lacks : lacksDelta sess rel)
    (added : noneAdded sess rel = false) : sess.retracting = true ∧ sess.pastSeed = true := by
  have retracting : sess.retracting = true := by
    by_contra apart
    rw [lacksDelta_of_not_retracting (by simpa using apart), added] at lacks
    cases lacks
  refine ⟨retracting, ?_⟩
  simp only [Session.retracting, Bool.and_eq_true] at retracting
  simp [Session.pastSeed, retracting.1]

/-- The test answers yes for a plan that ends with an operator without delta. -/
theorem hasEmptyForcedDelta_concat (past : sess.pastSeed) (before : List StepOp) {op : StepOp}
    (calm : ∀ other ∈ before, other.deltaMode ≠ .forceDelta ∧ isConcat other = false)
    (single : isConcat op = false) (lacks : lacksForcedDelta sess op) :
    hasEmptyForcedDelta sess (before ++ [op]) := by
  have short : ∀ other ∈ before ++ [op], (!nameTooLong sess other) = true := by
    intro other member
    rcases mem_append.mp member with earlier | last
    · simp [nameTooLong, (calm other earlier).1]
    obtain rfl := mem_singleton.mp last
    obtain ⟨-, rel, named, lacking⟩ := lacksForcedDelta_iff.mp lacks
    by_cases retracting : sess.retracting = true
    · cases fits : retractionName rel with
      | none => simp [lacksDelta, retracting, fits] at lacking
      | some name => simp [nameTooLong, named, fits]
    · simp [nameTooLong, retracting]
  have whole : (before ++ [op]).takeWhile (fun other => !nameTooLong sess other) =
      before ++ [op] := takeWhile_eq_self_iff.mpr short
  have concatless : (before ++ [op]).any isConcat = false := by
    rw [any_eq_false]
    intro other member
    rcases mem_append.mp member with earlier | last
    · simp [(calm other earlier).2]
    · simp [mem_singleton.mp last, single]
  rw [hasEmptyForcedDelta, whole, concatless, past]
  simp [lacks]

/-- The added rows of a relation, joined with what a forced join reads of it. -/
def forcedJoinPlan (rel : String) : List RelationOp :=
  [.step { op := .variable (some (deltaName rel)), deltaMode := .forceFull },
    .step { op := .join (some rel) [] [] none, deltaMode := .forceDelta }]

/-- A table of one row, and a forced semijoin with a relation. -/
def forcedSemijoinPlan (rel : String) : List RelationOp :=
  [.own fun _ => .ok (.untyped 1 [⟨[0]⟩] (by simp)),
    .step { op := .semijoin rel [] [] none [], deltaMode := .forceDelta }]

/-- A forced join reads the added rows, whatever was removed. -/
theorem forcedJoinPlan_yields (machine : Machine) (policy : CachePolicy) (buffers : Bool)
    (cache : MatCache) {delta right : Table} (held : sess.rels rel = some right)
    (found : sess.delta rel = some delta) (filled : delta.rows ≠ []) :
    yieldedRows (evalRelationPlan machine sess policy buffers (forcedJoinPlan rel) cache) ≠ [] := by
  have scanned : colOpVariable sess .forceFull (some (deltaName rel)) =
      .ok (fullScan (deltaName rel) delta) := by
    simp [colOpVariable, show sess.rels (deltaName rel) = some delta from found]
  have choice : rightChoice sess .forceDelta rel right false = .delta (deltaName rel) delta := by
    simp [rightChoice, forcedRight, found, filled]
  obtain ⟨row, rows, cons⟩ := exists_cons_of_ne_nil filled
  obtain ⟨table, joined, yields⟩ : ∃ table, joinRows machine delta [] [] none [] delta = .ok table ∧
      table.rows ≠ [] := by
    refine ⟨_, rfl, ne_nil_of_mem (a := ⟨row.cells ++ row.cells⟩) ?_⟩
    have inside : row ∈ delta.rows := by simp [cons]
    simp only [projectJoin, if_pos, mem_flatMap, mem_map, mem_filter]
    refine ⟨row, inside, row, ⟨mem_filter.mpr ⟨inside, rfl⟩, rfl⟩, rfl⟩
  have entry : joinEntry machine sess
      { op := .join (some rel) [] [] none, deltaMode := .forceDelta } (some rel) [] [] none
      (fullScan (deltaName rel) delta) = .ok ⟨table, true, none⟩ := by
    simp only [joinEntry, held, fullScan, choice, joined]
    rfl
  have run : evalRelationPlan machine sess policy buffers (forcedJoinPlan rel) cache =
      .ok ⟨[⟨table, true, none⟩], cache, []⟩ := by
    rw [evalRelationPlan, forcedJoinPlan, evalRelationOps, relationStep_step (.inr (by simp))]
    simp only [stepCached, stepOp, scanned, Except.map, Except.bind, evalRelationOps]
    rw [relationStep_step (.inl rfl)]
    simp only [stepCached, replaceTopCached, keepsResult, replaceTop, entry]
    rfl
  rw [run]
  simpa [yieldedRows] using yields

theorem forcedSemijoinPlan_yields (machine : Machine) (policy : CachePolicy) (buffers : Bool)
    (cache : MatCache) (filled : ∀ right, sess.rels rel = some right → right.rows ≠ []) :
    yieldedRows (evalRelationPlan machine sess policy buffers (forcedSemijoinPlan rel) cache) ≠
      [] := by
  have kept : ∃ entry, unaryEntry machine sess.rels (.semijoin rel [] [] none [])
      ⟨.untyped 1 [⟨[0]⟩] (by simp), false, none⟩ = .ok entry ∧ entry.table.rows ≠ [] := by
    cases held : sess.rels rel with
    | none =>
      refine ⟨_, by simp only [unaryEntry, unaryOp, opSemijoin, held, Except.map]; rfl, ?_⟩
      simp [Table.untyped]
    | some right =>
      obtain ⟨row, rows, cons⟩ := exists_cons_of_ne_nil (filled right held)
      refine ⟨_, by simp only [unaryEntry, unaryOp, opSemijoin, held, Except.map]; rfl, ?_⟩
      simp [Table.untyped, Table.filter, cons, passesRight, keysMatch, keyPairs, resolveKeys]
  obtain ⟨entry, applied, yields⟩ := kept
  have run : evalRelationPlan machine sess policy buffers (forcedSemijoinPlan rel) cache =
      .ok ⟨[entry], cache, []⟩ := by
    simp only [evalRelationPlan, forcedSemijoinPlan, evalRelationOps, relationStep, stepCached,
      replaceTopCached, replaceTop, Except.map, Except.bind, applied]
    rfl
  rw [run]
  simpa [yieldedRows] using yields

/-- **After a positive answer a plan yields nothing**, where the test agrees with the operators.
The test never answers yes for a plan with a `CONCAT`. -/
theorem evalRelationPlan_skipped {machine : Machine} {policy : CachePolicy} {buffers : Bool}
    {plan : List RelationOp} (reduces : ReducesNothing machine)
    (agrees : TestAgrees sess names semis) (forces : ForcesOnly names semis plan)
    (shape : isChain plan ∨ (stepsOf plan).any isConcat)
    (answer : hasEmptyForcedDelta sess (stepsOf plan)) (cache : MatCache) :
    yieldedRows (evalRelationPlan machine sess policy buffers plan cache) = [] := by
  obtain ⟨past, op, member, lacks⟩ := exists_lacking_of_hasEmptyForcedDelta answer
  rcases shape with chain | concat
  · exact evalRelationPlan_lacking reduces past chain member lacks
      (agrees.readsNothing past forces member lacks) cache
  · simp [hasEmptyForcedDelta, concat] at answer

end Soundness

/-- **After a positive answer of `has_empty_forced_delta` the plans that force certain relations
yield nothing exactly when the test agrees with the operators on these relations.** -/
theorem emptyForcedDelta_sound_iff (outside : Outside) (countDouble : Nat → Cell) (sess : Session)
    (names semis : String → Prop) :
    (∀ plan, isChain plan ∨ (stepsOf plan).any isConcat → ForcesOnly names semis plan →
        hasEmptyForcedDelta sess (stepsOf plan) → ∀ policy buffers cache,
          yieldedRows (evalRelationPlan (reducingMachine outside countDouble) sess policy buffers
            plan cache) = []) ↔
      TestAgrees sess names semis := by
  constructor
  · intro sound
    refine ⟨fun rel named held lacks => ?_, fun past rel named lacks => ?_⟩
    · -- otherwise a forced join of the added rows with themselves yields rows
      by_contra added
      obtain ⟨retracting, past⟩ := retracting_of_disagreement lacks (by simpa using added)
      obtain ⟨delta, found, filled⟩ : ∃ delta, sess.delta rel = some delta ∧ delta.rows ≠ [] := by
        cases found : sess.delta rel with
        | none => simp [noneAdded, found] at added
        | some delta => exact ⟨delta, rfl, by simpa [noneAdded, found] using added⟩
      obtain ⟨right, held⟩ := Option.isSome_iff_exists.mp held
      refine forcedJoinPlan_yields (reducingMachine outside countDouble) plainSetting.policy false
        [] held found filled
        (sound (forcedJoinPlan rel) (.inl rfl) ?_ ?_ plainSetting.policy false [])
      · intro op member forced
        rcases mem_cons.mp member with rfl | member
        · cases forced
        obtain rfl := mem_singleton.mp member
        exact ⟨fun other same => Option.some.inj same ▸ named, fun other same => by cases same⟩
      · refine hasEmptyForcedDelta_concat past [_] ?_ rfl
          (lacksForcedDelta_iff.mpr ⟨rfl, rel, rfl, lacks⟩)
        intro other member
        obtain rfl := mem_singleton.mp member
        exact ⟨by simp, rfl⟩
    · -- otherwise a forced semijoin lets a row pass
      by_contra filled
      refine forcedSemijoinPlan_yields (reducingMachine outside countDouble) plainSetting.policy
        false [] (fun right held empty => filled ⟨right, held, empty⟩)
        (sound (forcedSemijoinPlan rel) (.inl rfl) ?_ ?_ plainSetting.policy false [])
      · intro op member forced
        obtain rfl := mem_singleton.mp member
        exact ⟨fun other same => (by cases same), fun other same => Option.some.inj same ▸ named⟩
      · exact hasEmptyForcedDelta_concat past [] (by simp) rfl
          (lacksForcedDelta_iff.mpr ⟨rfl, rel, rfl, lacks⟩)
  · intro agrees plan shape forces answer policy buffers cache
    exact evalRelationPlan_skipped (reducesNothing_reducingMachine outside countDouble) agrees
      forces shape answer cache

/-! ## What is skipped -/

section Skipped

variable {machine : Machine} {sess : Session} {policy : CachePolicy} {plan : List StepOp}
  {names semis : String → Prop}

@[simp] theorem stepsOf_map : stepsOf (plan.map .step) = plan := by
  simp [stepsOf, filterMap_map]

/-- A plan without other operators is evaluated as before. -/
theorem evalRelationOps_steps (ops : List StepOp) (state : RelationState) :
    evalRelationOps machine sess policy false (plan.map .step) (ops.map .step) state =
      (evalSteps machine sess policy (baseSkip sess plan) ops state.stack state.cache).map
        fun done => { state with stack := done.1, cache := done.2 } := by
  induction ops generalizing state with
  | nil => rfl
  | cons op rest ih =>
    have next : baseSkip sess plan op (nextStep (rest.map .step)) = baseSkip sess plan op rest := by
      cases rest <;> rfl
    rw [map_cons, evalRelationOps, relationStep, stepsOf_map, next]
    cases skipped : baseSkip sess plan op rest with
    | some entry =>
      rw [evalSteps_cons_skip skipped]
      exact ih _
    | none =>
      rw [evalSteps_cons skipped]
      cases stepCached machine sess policy op state.stack state.cache with
      | error e => rfl
      | ok done => exact ih _

variable (reduces : ReducesNothing machine) (agrees : TestAgrees sess names semis)
  (forces : ForcesOnly names semis (plan.map .step))
  (shape : isChain (plan.map .step) ∨ plan.any isConcat) (answer : hasEmptyForcedDelta sess plan)

include reduces agrees forces shape answer

/-- A fused copy that is skipped would leave a table without rows. -/
theorem rows_of_skipped {cache cache' : MatCache} {stack : List Entry}
    (ran : colEvalRelationPlan machine sess policy plan cache = .ok (stack, cache')) :
    ∀ entry ∈ stack.head?, entry.table.rows = [] := by
  have none := @evalRelationPlan_skipped sess names semis machine policy false _ reduces agrees
    forces (by rwa [stepsOf_map]) (by rwa [stepsOf_map]) cache
  rw [evalRelationPlan, evalRelationOps_steps] at none
  rw [colEvalRelationPlan] at ran
  simp only [ran, Except.map, yieldedRows, append_nil] at none
  intro entry top
  rwa [Option.mem_def.mp top] at none

/-- **Skipping a rule loses nothing**: its evaluation would leave the session as it is. -/
theorem storeResult_of_skipped {isolated : Bool} {result : Option Table}
    (ran : evalRelation machine sess policy isolated (.ops plan) = .ok result) (name : String) :
    storeResult sess name result = .ok sess := by
  obtain ⟨⟨stack, cache⟩, evaluated, rfl⟩ := map_eq_ok_iff.mp ran
  have empty := rows_of_skipped reduces agrees forces shape answer evaluated
  cases top : stack.head? with
  | none => rfl
  | some entry => exact if_pos (empty entry top)

end Skipped

/-- The second pass of a stratum, in which nothing was added to `f`. -/
def semijoinSession : Session where
  rels := fun rel =>
    if rel = "e" ∨ rel = "f" then some (.untyped 1 [⟨[1]⟩] oneCell_width) else none
  currentIteration := 1

/-- The first pass of a retraction, in which rows were added to `f` and none removed. -/
def retractionSession : Session where
  rels := fun rel =>
    if rel = "e" ∨ rel = "f" ∨ rel = "$d$f" then some (.untyped 1 [⟨[1]⟩] oneCell_width)
    else none
  retractionSeeded := true

/-- **Rows that the test skips**: a semijoin reads the whole relation, and a join reads the added
rows of a relation from which nothing was removed. -/
theorem forcedDelta_skips_rows :
    (∃ plan : List StepOp,
      plan = [{ op := .variable (some "e") },
        { op := .semijoin "f" [0] [0] none [], deltaMode := .forceDelta }] ∧
      hasEmptyForcedDelta semijoinSession plan = true ∧
      topRows (colEvalRelationPlan countingMachine semijoinSession plainSetting.policy plan []) =
        some [⟨[1]⟩]) ∧
    ∃ plan : List StepOp,
      plan = [{ op := .variable (some "e"), deltaMode := .forceFull },
        { op := .join (some "f") [0] [0] none, deltaMode := .forceDelta }] ∧
      hasEmptyForcedDelta retractionSession plan = true ∧
      topRows (colEvalRelationPlan countingMachine retractionSession plainSetting.policy plan []) =
        some [⟨[1, 1]⟩] :=
  ⟨⟨_, rfl, rfl, rfl⟩, _, rfl, rfl, rfl⟩

end Wirelog.SemiNaive

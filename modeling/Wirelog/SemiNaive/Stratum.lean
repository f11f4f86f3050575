import Wirelog.SemiNaive.Session

/-!
# Evaluation of a recursive stratum

The relations of a recursive stratum are evaluated pass after pass. In each pass the plans of the
relations run one after the other and their rows are appended; then every relation is
consolidated, and the rows that are new become its delta for the next pass. The evaluation stops
when a pass adds nothing.

The plan of a relation whose rules read the stratum in two or more places is a set of copies,
one for each of these places (`RelationPlan.kFusion`). The copies share a cache of join results,
whose entries are found by the relations on the two sides of a join and by nothing else. Which
entries the cache gives up is left open (`CachePolicy`).

The passes are counted by their effective iteration: eight of them make one outer iteration, and
there are 4096 of these. The counters of earlier evaluations may skip a pass or a relation
(`Frontier`). Aggregates that are made canonical after the last pass are not modelled here.
-/

set_option autoImplicit false

namespace Wirelog.SemiNaive

open Wirelog.IR Wirelog.Plan List Function
open Wirelog.Columnar (Row ColumnType)

/-! ## The cache of join results -/

/-- The two relations have one identity. -/
def sameSource (first second : Source) : Bool :=
  decide (first.rel = second.rel) && match first.filter, second.filter with
    | none, none => true
    | some expr, some expr' => sameExpr expr expr'
    | _, _ => false

/-- A join result and the relations it was computed from. -/
structure CacheEntry where
  left : Source
  right : Source
  result : Table

/-- `col_mat_cache_t`. -/
abbrev MatCache := List CacheEntry

/-- `col_mat_cache_lookup_pin`: a relation that was computed for one operator has an identity of
its own, and no entry. -/
def MatCache.lookup (cache : MatCache) (left right : Option Source) : Option Table :=
  match left, right with
  | some left, some right =>
    (cache.find? fun entry => sameSource entry.left left && sameSource entry.right right).map
      (·.result)
  | _, _ => none

/-- What becomes of the cache when a result is stored: some entries may go, and nothing else
comes in. -/
structure CachePolicy where
  store : MatCache → CacheEntry → MatCache
  within : ∀ cache entry kept, kept ∈ store cache entry → kept = entry ∨ kept ∈ cache

/-- The identity of the rows on the right of a join. Filtered deltas are computed each time. -/
def rightSource (rel : String) (rightFilter : Option PlanExpr) : RightChoice → Option Source
  | .full => some ⟨rel, rightFilter⟩
  | .delta name _ => match rightFilter with
      | none => some ⟨name, none⟩
      | some _ => none
  | .exhausted => none

/-- Store a result under the relations it was computed from. -/
def CachePolicy.keep (policy : CachePolicy) (cache : MatCache) (left right : Option Source)
    (result : Table) : MatCache :=
  match left, right with
  | some left, some right => policy.store cache ⟨left, right, result⟩
  | _, _ => cache

variable (machine : Machine) (sess : Session) (policy : CachePolicy) (op : StepOp)

/-- `wl_columnar_join_op` of a join whose result is kept. -/
def joinCached (rel : String) (leftKeys rightKeys : List Nat) (rightFilter : Option PlanExpr)
    (left : Entry) (cache : MatCache) : Except EvalError (Entry × MatCache) :=
  let computed := joinEntry machine sess op (some rel) leftKeys rightKeys rightFilter left
  match sess.rels rel with
  | none => computed.map (·, cache)
  | some right => match rightChoice sess op.deltaMode rel right left.isDelta with
      | .exhausted => computed.map (·, cache)
      | .full =>
        let source := rightSource rel rightFilter .full
        match cache.lookup left.source source with
        | some table => .ok (⟨table, left.isDelta, none⟩, cache)
        | none => computed.map fun entry =>
          (entry, policy.keep cache left.source source entry.table)
      | .delta name rows =>
        let source := rightSource rel rightFilter (.delta name rows)
        match cache.lookup left.source source with
        | some table => .ok (⟨table, true, none⟩, cache)
        | none => computed.map fun entry =>
          (entry, policy.keep cache left.source source entry.table)

/-- Whether the result of a join is kept. Results with fewer columns are not. -/
def keepsResult : Bool :=
  op.materialized && decide (op.projection = []) && match op.op with
    | .join _ _ _ _ => true
    | _ => false

/-- The operators that replace the entry on top of the stack, with the cache. -/
def replaceTopCached (top : Entry) (cache : MatCache) : Except EvalError (Entry × MatCache) :=
  match op.op with
  | .join (some rel) leftKeys rightKeys rightFilter =>
    if keepsResult op then
      joinCached machine sess policy op rel leftKeys rightKeys rightFilter top cache
    else (replaceTop machine sess op top).map (·, cache)
  | _ => (replaceTop machine sess op top).map (·, cache)

/-- Evaluate one operator, with the cache. -/
def stepCached (stack : List Entry) (cache : MatCache) : Except EvalError (List Entry × MatCache) :=
  match op.op with
  | .variable _ | .concat => (stepOp machine sess op stack).map (·, cache)
  | _ => match stack with
      | [] => .error .einval
      | top :: rest => (replaceTopCached machine sess policy op top cache).map fun done =>
        (done.1 :: rest, done.2)

/-- Evaluate operators one after the other, with the tables that stand for skipped scans. -/
def evalSteps (skip : StepOp → List StepOp → Option Entry) :
    List StepOp → List Entry → MatCache → Except EvalError (List Entry × MatCache)
  | [], stack, cache => .ok (stack, cache)
  | op :: rest, stack, cache => match skip op rest with
      | some entry => evalSteps skip rest (entry :: stack) cache
      | none => (stepCached machine sess policy op stack cache).bind fun done =>
        evalSteps skip rest done.1 done.2

variable (plan : List StepOp)

def colEvalRelationPlan (cache : MatCache) : Except EvalError (List Entry × MatCache) :=
  evalSteps machine sess policy (baseSkip sess plan) plan [] cache

/-- The same plan without the base-case skip. -/
def evalUnskipped (cache : MatCache) : Except EvalError (List Entry × MatCache) :=
  evalSteps machine sess policy noSkip plan [] cache

section

variable {machine : Machine} {sess : Session} {policy : CachePolicy}
  {skip : StepOp → List StepOp → Option Entry} {op : StepOp} {rest : List StepOp}
  {stack : List Entry} {cache : MatCache}

theorem evalSteps_cons_skip {entry : Entry} (skipped : skip op rest = some entry) :
    evalSteps machine sess policy skip (op :: rest) stack cache =
      evalSteps machine sess policy skip rest (entry :: stack) cache := by
  simp [evalSteps, skipped]

theorem evalSteps_cons (run : skip op rest = none) :
    evalSteps machine sess policy skip (op :: rest) stack cache =
      (stepCached machine sess policy op stack cache).bind fun done =>
        evalSteps machine sess policy skip rest done.1 done.2 := by
  simp [evalSteps, run]

/-- A table that was computed for one operator has no entry in the cache. -/
theorem joinCached_unsourced {rel : String} {leftKeys rightKeys : List Nat}
    {rightFilter : Option PlanExpr} {left : Entry} (unsourced : left.source = none) :
    joinCached machine sess policy op rel leftKeys rightKeys rightFilter left cache =
      (joinEntry machine sess op (some rel) leftKeys rightKeys rightFilter left).map
        (·, cache) := by
  simp only [joinCached, unsourced, MatCache.lookup, CachePolicy.keep]
  split
  · rfl
  · split <;> rfl

theorem replaceTopCached_eq {top : Entry} (apart : top.source = none ∨ keepsResult op = false) :
    replaceTopCached machine sess policy op top cache =
      (replaceTop machine sess op top).map (·, cache) := by
  unfold replaceTopCached
  split
  · next rel leftKeys rightKeys rightFilter isJoin =>
    split_ifs with kept
    · have unsourced : top.source = none := apart.resolve_right (by simp [kept])
      simp [joinCached_unsourced unsourced, replaceTop, isJoin]
    · rfl
  · rfl

end

/-! ## Plans of relations -/

/-- The plan of a relation: its operators, or one list of operators for each place where its
rules read the stratum (`WL_PLAN_OP_K_FUSION`). -/
inductive RelationPlan where
  | ops (plan : List StepOp)
  | kFusion (copies : List (List StepOp))

/-- The relation whose added rows an operator may be told to read. -/
def forcedRelation : PlanOp → Option String
  | .variable rel => rel
  | .join rel _ _ _ => rel
  | .semijoin rel _ _ _ _ => some rel
  | _ => none

def noneAdded (rel : String) : Bool := (sess.delta rel).all fun delta => delta.rows = []

/-- Whether the delta that the test looks at does not exist or is empty. -/
def lacksDelta (rel : String) : Bool :=
  if sess.retracting then
    match retractionName rel with
    | none => false
    | some name => (sess.rels name).all fun delta => delta.rows = []
  else noneAdded sess rel

/-- Whether the delta that a forced operator reads does not exist or is empty. -/
def lacksForcedDelta : Bool :=
  decide (op.deltaMode = .forceDelta) && (forcedRelation op.op).any (lacksDelta sess)

/-- The operators of which the first name that does not fit the buffer ends the search. -/
def nameTooLong : Bool :=
  decide (op.deltaMode = .forceDelta) && sess.retracting &&
    match forcedRelation op.op with
    | none => false
    | some rel => (retractionName rel).isNone

/-- Whether an operator joins the rows of two alternatives. -/
def isConcat : Bool :=
  match op.op with
  | .concat => true
  | _ => false

def hasEmptyForcedDelta : Bool :=
  sess.pastSeed && !plan.any isConcat &&
    (plan.takeWhile fun op => !nameTooLong sess op).any (lacksForcedDelta sess)

/-- `col_rel_merge_k`: every row of the tables once. Tables of different types are refused. The
order of the rows is left open. -/
def mergeK : List Table → Option Table
  | [] => none
  | first :: rest =>
    if same : ∀ table ∈ rest, table.types = first.types then
      some
        { types := first.types
          rows := ((first :: rest).flatMap (·.rows)).dedup
          width := by
            intro row member
            obtain ⟨table, inTables, found⟩ := mem_flatMap.mp (mem_dedup.mp member)
            rcases mem_cons.mp inTables with rfl | inRest
            · exact table.width row found
            rw [← same table inRest]
            exact table.width row found
          canonical := by
            intro row member
            obtain ⟨table, inTables, found⟩ := mem_flatMap.mp (mem_dedup.mp member)
            rcases mem_cons.mp inTables with rfl | inRest
            · exact table.canonical row found
            rw [← same table inRest]
            exact table.canonical row found }
    else none

def evalCopy (copy : List StepOp) (cache : MatCache) : Except EvalError (Option Table × MatCache) :=
  if hasEmptyForcedDelta sess copy then .ok (none, cache)
  else (colEvalRelationPlan machine sess policy copy cache).bind fun done =>
    match done.1 with
      | [] => .error .einval
      | entry :: _ => .ok (some entry.table, done.2)

variable (isolated : Bool)

/-- Evaluate the copies one after the other. Copies that run on workers (`isolated`) have a
cache of their own. -/
def evalCopies : List (List StepOp) → MatCache → Except EvalError (List Table)
  | [], _ => .ok []
  | copy :: rest, cache =>
    (evalCopy machine sess policy copy cache).bind fun done =>
      (evalCopies rest (if isolated then cache else done.2)).map (done.1.toList ++ ·)

def colOpKFusion (copies : List (List StepOp)) : Except EvalError Table :=
  (evalCopies machine sess policy isolated copies []).bind fun results =>
    if results = [] then .ok (.empty [])
    else match mergeK results with
      | some merged => .ok merged
      | none => .error .enomem

/-- The rows that the plan of a relation yields, if it leaves a table on the stack. -/
def evalRelation : RelationPlan → Except EvalError (Option Table)
  | .ops plan => (colEvalRelationPlan machine sess policy plan []).map fun done =>
    done.1.head?.map (·.table)
  | .kFusion copies => (colOpKFusion machine sess policy isolated copies).map some

/-! ## Strata -/

/-- `wl_plan_relation_t`. -/
structure StratumRel where
  name : String
  plan : RelationPlan

variable (name : String)

def makeDeltaName : String := "$d$" ++ name

/-- The relations of a recursive stratum: each has one plan, and none is named like the delta of
another. -/
structure Stratum where
  relations : List StratumRel
  distinct : (relations.map (·.name)).Nodup
  plainNames : ∀ rel ∈ relations, ∀ other ∈ relations, rel.name ≠ makeDeltaName other.name

/-- How far an earlier evaluation came, and in which epoch. -/
structure Frontier where
  outerEpoch : Nat
  iteration : Nat

/-- Whether a frontier says that an iteration is behind (`epoch_should_skip_iteration` and
`epoch_should_skip_rule`). -/
def Frontier.skips (frontier : Frontier) (outerEpoch effIter : Nat) : Bool :=
  decide (outerEpoch = frontier.outerEpoch) && decide (frontier.iteration < effIter)

/-- What the evaluation of a stratum takes from its surroundings. -/
structure Setting where
  machine : Machine
  policy : CachePolicy
  isolated : Bool
  outerEpoch : Nat
  frontier : Frontier
  ruleFrontier : Nat → Frontier

/-- The rows of a relation after an append (`col_rel_append_all`): a relation without columns
takes those of the rows. -/
def appendAll (target result : Table) : Except EvalError Table :=
  opConcat (if target.types = [] ∧ target.rows = [] then .empty result.types else target) result

variable (table : Table)

/-- Write a relation of the session. -/
def Session.setRel : Session :=
  { sess with rels := update sess.rels name (some table) }

@[simp] theorem Session.setRel_rels_self :
    (sess.setRel name table).rels name = some table := update_self ..

theorem Session.setRel_rels_of_ne {name other : String} (table : Table) (differs : other ≠ name) :
    (sess.setRel name table).rels other = sess.rels other :=
  update_of_ne differs _ _

def storeResult : Option Table → Except EvalError Session
  | none => .ok sess
  | some result =>
    if result.rows = [] then .ok sess
    else match sess.rels name with
      | none => .ok (sess.setRel name result)
      | some target => (appendAll target result).map (sess.setRel name)

/-- `has_empty_forced_delta` of the plan of a relation. A fused plan shows none of the operators
of its copies. -/
def planEmpty : RelationPlan → Bool
  | .ops plan => hasEmptyForcedDelta sess plan
  | .kFusion _ => false

variable (setting : Setting)

/-- Evaluate the plan of one relation and append its rows. -/
def evalRule (index : Nat) (rel : StratumRel) (sess : Session) : Except EvalError Session :=
  if (setting.ruleFrontier index).skips setting.outerEpoch sess.currentIteration ||
      planEmpty sess rel.plan then .ok sess
  else (evalRelation setting.machine sess setting.policy setting.isolated rel.plan).bind
    (storeResult sess rel.name)

/-- Evaluate the plans of relations one after the other, from an index on. -/
def evalRules : Nat → List StratumRel → Session → Except EvalError Session
  | _, [], sess => .ok sess
  | index, rel :: rest, sess =>
    (evalRule setting index rel sess).bind (evalRules (index + 1) rest)

/-- Hand the deltas of the last pass to the session. -/
def registerDeltas (rels : Database) : List (StratumRel × Option Table) → Database
  | [] => rels
  | (_, none) :: rest => registerDeltas rels rest
  | (rel, some delta) :: rest =>
    registerDeltas (update rels (makeDeltaName rel.name) (some delta)) rest

/-- Take the deltas out of the session. -/
def removeDeltas (rels : Database) : List StratumRel → Database
  | [] => rels
  | rel :: rest => removeDeltas (update rels (makeDeltaName rel.name) none) rest

/-- The rows that are new after the first `old` ones. -/
def freshRows (old : Nat) : List Row :=
  (table.rows.drop old).dedup.filter fun row => row ∉ table.rows.take old

/-- `col_op_consolidate_incremental_delta`: the old rows and the new ones, and the new ones alone.
The order of the rows is left open. -/
def consolidateDelta (old : Nat) : Table × Table :=
  ({ types := table.types
     rows := table.rows.take old ++ freshRows table old
     width := by
       intro row member
       refine table.width row ?_
       rcases mem_append.mp member with member | member
       · exact mem_of_mem_take member
       · exact mem_of_mem_drop (mem_dedup.mp (mem_filter.mp member).1)
     canonical := by
       intro row member
       refine table.canonical row ?_
       rcases mem_append.mp member with member | member
       · exact mem_of_mem_take member
       · exact mem_of_mem_drop (mem_dedup.mp (mem_filter.mp member).1) },
   { types := table.types
     rows := freshRows table old
     width := fun row member => table.width row
       (mem_of_mem_drop (mem_dedup.mp (mem_filter.mp member).1))
     canonical := fun row member => table.canonical row
       (mem_of_mem_drop (mem_dedup.mp (mem_filter.mp member).1)) })

def snapshotCounts (rels : Database) (relations : List StratumRel) : List Nat :=
  relations.map fun rel => ((rels rel.name).map (·.rows.length)).getD 0

/-- The delta of a relation that grew, if any of its rows are new. -/
def pendingDelta (old : Nat) : Option Table :=
  if freshRows table old = [] then none else some (consolidateDelta table old).2

/-- Consolidate the relations that grew, and collect their deltas. -/
def consolidateAll (rels : Database) :
    List (StratumRel × Nat) → Database × List (Option Table)
  | [] => (rels, [])
  | (rel, old) :: rest => match rels rel.name with
      | none => ((consolidateAll rels rest).1, none :: (consolidateAll rels rest).2)
      | some table =>
        if table.rows.length ≤ old then
          ((consolidateAll rels rest).1, none :: (consolidateAll rels rest).2)
        else
          let after := consolidateAll
            (update rels rel.name (some (consolidateDelta table old).1)) rest
          (after.1, pendingDelta table old :: after.2)

/-- The session and the deltas that the next pass will read. -/
structure LoopState where
  sess : Session
  pending : List (Option Table)

/-- How a pass ends. -/
inductive Outcome where
  /-- No delta, or no plan that reads one: the next outer iteration is tried. -/
  | retry
  | converged
  | progressed
  deriving DecidableEq, Repr

def deltasEmpty (relations : List StratumRel) : Bool :=
  relations.all fun rel => (sess.rels (makeDeltaName rel.name)).all fun delta => delta.rows = []

def rulesEmpty (relations : List StratumRel) : Bool :=
  relations.all fun rel => planEmpty sess rel.plan

variable (stratum : Stratum)

/-- The session in which the plans of a pass run: the deltas of the last pass are in it. -/
def openPass (effIter : Nat) (state : LoopState) : Session :=
  { state.sess with
    rels := registerDeltas state.sess.rels (stratum.relations.zip state.pending)
    currentIteration := effIter }

/-- What is left of a pass once the plans have run. -/
def closePass (opened done : Session) : LoopState :=
  let removed := removeDeltas done.rels stratum.relations
  let after := consolidateAll removed
    (stratum.relations.zip (snapshotCounts opened.rels stratum.relations))
  ⟨{ done with rels := after.1 }, after.2⟩

/-- One pass of `col_eval_stratum`. -/
def subPass (effIter : Nat) (state : LoopState) : Except EvalError (LoopState × Outcome) :=
  let opened := openPass stratum effIter state
  let waiting : LoopState := ⟨opened, stratum.relations.map fun _ => none⟩
  if 0 < effIter ∧ (deltasEmpty opened stratum.relations ∨ rulesEmpty opened stratum.relations) then
    .ok (waiting, .retry)
  else (evalRules setting 0 stratum.relations opened).map fun done =>
    let closed := closePass stratum opened done
    (closed, if closed.pending.all Option.isNone then .converged else .progressed)

/-- `MAX_ITERATIONS` times `EVAL_STRIDE`. -/
def passLimit : Nat := 4096 * 8

/-- One step of the loop over the passes: the iteration and the state that follow, or the end. -/
def loopStep (effIter : Nat) (state : LoopState) : Except EvalError (Option Nat × LoopState) :=
  if passLimit ≤ effIter then .ok (none, state)
  else if setting.frontier.skips setting.outerEpoch effIter then .ok (some (effIter + 1), state)
  else (subPass setting stratum effIter state).map fun (after, outcome) => match outcome with
    | .retry => (some ((effIter / 8 + 1) * 8), after)
    | .converged => (none, after)
    | .progressed => (some (effIter + 1), after)

/-- The relations that a stratum computes exist from the start, without rows. -/
def preregister (rels : Database) : List StratumRel → Database
  | [] => rels
  | rel :: rest =>
    preregister (match rels rel.name with
      | some _ => rels
      | none => update rels rel.name (some (.empty []))) rest

/-- The state before the first pass. -/
def startState (sess : Session) : LoopState :=
  ⟨{ sess with rels := preregister sess.rels stratum.relations },
    stratum.relations.map fun _ => none⟩

/-- The loop of `col_eval_stratum`, with a bound on the number of steps. -/
def runLoop : Nat → Nat → LoopState → Except EvalError LoopState
  | 0, _, state => .ok state
  | fuel + 1, effIter, state => (loopStep setting stratum effIter state).bind fun next =>
    match next with
    | (none, after) => .ok after
    | (some effIter, after) => runLoop fuel effIter after

/-- `col_eval_stratum` of a recursive stratum: the relations of the session afterwards. -/
def colEvalStratum (sess : Session) : Except EvalError Database :=
  (runLoop setting stratum (passLimit + 1) 0 (startState stratum sess)).map fun state =>
    removeDeltas state.sess.rels stratum.relations

/-- The iterations and states that the evaluation of a stratum comes through. -/
inductive Reached (setting : Setting) (stratum : Stratum) (sess : Session) :
    Nat → LoopState → Prop where
  | start : Reached setting stratum sess 0 (startState stratum sess)
  | step {effIter next : Nat} {state after : LoopState} :
      Reached setting stratum sess effIter state →
      loopStep setting stratum effIter state = .ok (some next, after) →
      Reached setting stratum sess next after

end Wirelog.SemiNaive

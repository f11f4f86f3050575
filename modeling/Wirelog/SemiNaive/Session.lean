import Wirelog.Foundations.ByteFields
import Wirelog.Plan.Eval

/-!
# Operators inside a recursive stratum

While a recursive stratum is evaluated, the session holds for some relations the rows that the
last pass added, as a relation of its own under the name `$d$` and the relation's name. A scan
and the right side of a join then choose between the whole relation and these rows: by the mode
of the operator, by the sizes of the two, and by whether the left side is made of added rows
already. A retraction keeps the removed rows under `$r$` in the same way.

A scan of a relation that does not change is skipped after the first pass: an empty table stands
for it (`baseSkip`). The choice is made from the operator that follows the scan and from the
names on the right of the plan's joins.

Not modelled here: the limit on the size of a join and the back-pressure of the memory ledger,
and allocations that fail.
-/

set_option autoImplicit false

namespace Wirelog.SemiNaive

open Wirelog.IR Wirelog.Plan
open Wirelog.Columnar (Row ColumnType)
open Wirelog.Foundations (printed)

/-! ## Operators and sessions -/

/-- `wl_delta_mode_t`. -/
inductive DeltaMode where
  | auto | forceDelta | forceFull | forceEmpty | forceEmptyAfterSeed
  deriving DecidableEq, Repr

/-- An operator with the hints of the rewrites of a plan: which rows it reads, whether the result
of a join is kept, and the columns that a join keeps (all of them, without a projection). -/
structure StepOp where
  op : PlanOp
  deltaMode : DeltaMode := .auto
  materialized : Bool := false
  projection : List Nat := []

/-- What the operators read of a session. -/
structure Session where
  rels : Database
  currentIteration : Nat := 0
  deltaSeeded : Bool := false
  retractionSeeded : Bool := false
  retractionRightPass : Bool := false
  tddSubpassActive : Bool := false
  tddOutboundOnlyActive : Bool := false

/-- The name of the rows added to a relation, in a buffer of 256 bytes. -/
def deltaName (rel : String) : String := printed 256 ("$d$" ++ rel)

/-- `retraction_rel_name`: a name that does not fit is refused. -/
def retractionName (rel : String) : Option String :=
  if 256 ≤ ("$r$" ++ rel).length then none else some ("$r$" ++ rel)

namespace Session

variable (sess : Session)

/-- The rows added to a relation, if the session holds any. -/
def delta (rel : String) : Option Table := sess.rels (deltaName rel)

/-- The rows removed from a relation, if the session holds any. -/
def retraction (rel : String) : Option Table :=
  (retractionName rel).bind sess.rels

/-- Only the rows that reach other workers are of interest, and the seed is behind. -/
def outboundOnly : Bool :=
  sess.tddOutboundOnlyActive && decide (0 < sess.currentIteration)

/-- A pass that retracts rows, at its first iteration. -/
def retracting : Bool :=
  sess.retractionSeeded && decide (sess.currentIteration = 0)

/-- A forced delta that does not exist is empty, and not the whole relation. -/
def pastSeed : Bool :=
  decide (0 < sess.currentIteration) || sess.deltaSeeded || sess.retractionSeeded

/-- Whether the automatic mode reads added rows in place of the whole relation. -/
def prefersDelta (delta full : Table) : Bool :=
  decide (0 < delta.rows.length ∧ delta.rows.length < full.rows.length) ||
    (decide (0 < delta.rows.length) && sess.tddSubpassActive) || sess.outboundOnly

end Session

/-! ## Entries of the evaluation stack -/

mutual

/-- The byte code of two expressions is the same. -/
def sameExpr : PlanExpr → PlanExpr → Bool
  | .var tag column, .var tag' column' => tag = tag' && column = column'
  | .constInt value, .constInt value' => value = value'
  | .constFloat bits, .constFloat bits' => bits = bits'
  | .constStr value, .constStr value' => value = value'
  | .bool value, .bool value' => value = value'
  | .call op args, .call op' args' => op = op' && sameExprs args args'
  | _, _ => false

/-- The byte code of two lists of expressions is the same. -/
def sameExprs : List PlanExpr → List PlanExpr → Bool
  | [], [] => true
  | expr :: rest, expr' :: rest' => sameExpr expr expr' && sameExprs rest rest'
  | _, _ => false

end

/-- What identifies a relation that outlives an operator: its name in the session, and the
condition under which its rows are kept in the cache of filtered relations. -/
structure Source where
  rel : String
  filter : Option PlanExpr := none

/-- `eval_entry_t`: a table, whether it is made of added rows, and the relation of the session
that it is, when it was not computed. -/
structure Entry where
  table : Table
  isDelta : Bool := false
  source : Option Source := none

/-! ## Scans -/

variable (sess : Session)

def scanDelta (rel : String) : Option (String × Table) :=
  if sess.retracting && !sess.retractionRightPass then
    (retractionName rel).bind fun name => (sess.rels name).map (name, ·)
  else (sess.delta rel).map (deltaName rel, ·)

/-- A scan that yields no rows. -/
def emptyScan (full : Table) (isDelta : Bool) : Entry := ⟨.empty full.types, isDelta, none⟩

/-- A scan of the whole relation. -/
def fullScan (rel : String) (full : Table) : Entry := ⟨full, false, some ⟨rel, none⟩⟩

def colOpVariable (mode : DeltaMode) (rel : Option String) : Except EvalError Entry :=
  match rel with
  | none => .error .enoent
  | some rel => match sess.rels rel with
      | none => .error .enoent
      | some full =>
        if mode = .forceEmpty ∨ (mode = .forceEmptyAfterSeed ∧ sess.outboundOnly) then
          .ok (emptyScan full false)
        else if mode = .forceFull then .ok (fullScan rel full)
        else if mode = .forceDelta then
          match scanDelta sess rel with
          | some (name, delta) =>
            if delta.rows ≠ [] then .ok ⟨delta, true, some ⟨name, none⟩⟩
            else if sess.pastSeed then .ok (emptyScan full true)
            else .ok (fullScan rel full)
          | none =>
            if sess.pastSeed then .ok (emptyScan full true) else .ok (fullScan rel full)
        else match scanDelta sess rel with
          | some (name, delta) =>
            if sess.prefersDelta delta full then .ok ⟨delta, true, some ⟨name, none⟩⟩
            else .ok (fullScan rel full)
          | none => .ok (fullScan rel full)

/-! ## Joins -/

/-- What a join reads in place of the relation on its right. -/
inductive RightChoice where
  | full
  /-- The rows of another relation, added to or removed from the right one. -/
  | delta (name : String) (rows : Table)
  /-- Added rows were asked for, and there are none. -/
  | exhausted

def forcedRight (rel : String) : RightChoice :=
  let found := match sess.delta rel with
    | some rows => some (deltaName rel, rows)
    | none => if sess.retracting then
        (retractionName rel).bind fun name => (sess.rels name).map (name, ·) else none
  match found with
  | some (name, rows) =>
    if rows.rows ≠ [] then .delta name rows
    else if sess.pastSeed then .exhausted else .full
  | none => if sess.pastSeed then .exhausted else .full

/-- The choice of the automatic mode. -/
def autoRight (rel : String) (right : Table) : RightChoice :=
  match sess.delta rel with
  | some rows => if sess.prefersDelta rows right then .delta (deltaName rel) rows else .full
  | none => .full

def retractedRight (rel : String) : RightChoice :=
  if sess.retractionRightPass && decide (sess.currentIteration = 0) then
    match (retractionName rel).bind fun name => (sess.rels name).map (name, ·) with
    | some (name, rows) => if rows.rows ≠ [] then .delta name rows else .full
    | none => .full
  else .full

/-- The right side of a join (`wl_columnar_join_op`). -/
def rightChoice (mode : DeltaMode) (rel : String) (right : Table) (leftIsDelta : Bool) :
    RightChoice :=
  let choice := match mode with
    | .forceDelta => forcedRight sess rel
    | .forceFull => .full
    | _ => if !leftIsDelta || sess.outboundOnly then autoRight sess rel right else .full
  match choice with
  | .full => retractedRight sess rel
  | choice => choice

/-- The columns that a join keeps. -/
def projectJoin (projection : List Nat) (table : Table) : Table :=
  if projection = [] then table else table.project projection

variable (machine : Machine)

/-- The rows of a join with the rows that were chosen for its right side. -/
def joinRows (right : Table) (leftKeys rightKeys : List Nat) (rightFilter : Option PlanExpr)
    (projection : List Nat) (left : Table) : Except EvalError Table :=
  (opJoin machine (fun _ => some right) (some "") leftKeys rightKeys rightFilter left).map
    (projectJoin projection)

/-- Whether a join's result counts as made of added rows: a projection forgets it. -/
def joinFlag (projection : List Nat) (leftIsDelta rightIsDelta : Bool) : Bool :=
  decide (projection = []) && (leftIsDelta || rightIsDelta)

/-- `wl_columnar_join_op`, without the cache of results. -/
def joinEntry (sess : Session) (op : StepOp) (rel : Option String) (leftKeys rightKeys : List Nat)
    (rightFilter : Option PlanExpr) (left : Entry) : Except EvalError Entry :=
  match rel with
  | none => .ok ⟨projectJoin op.projection (.empty left.table.types), false, none⟩
  | some rel => match sess.rels rel with
      | none => .ok ⟨projectJoin op.projection (.empty left.table.types), false, none⟩
      | some right => match rightChoice sess op.deltaMode rel right left.isDelta with
          | .exhausted =>
            .ok ⟨projectJoin op.projection (.empty (left.table.types ++ right.types)), false, none⟩
          | .full =>
            (joinRows machine right leftKeys rightKeys rightFilter op.projection left.table).map
              (⟨·, joinFlag op.projection left.isDelta false, none⟩)
          | .delta _ rows =>
            (joinRows machine rows leftKeys rightKeys rightFilter op.projection left.table).map
              (⟨·, joinFlag op.projection left.isDelta true, none⟩)

/-! ## The other operators -/

/-- The operators that replace the table on top of the stack and read whole relations only. -/
def unaryOp (db : Database) : PlanOp → Table → Except EvalError Table
  | .map indices exprs => opMap machine indices exprs
  | .filter expr => opFilter machine expr
  | .antijoin rel leftKeys rightKeys rightFilter =>
    opAntijoin machine db rel leftKeys rightKeys rightFilter
  | .semijoin rel leftKeys rightKeys rightFilter indices =>
    opSemijoin machine db rel leftKeys rightKeys rightFilter indices
  | .reduce fn groupBy expr operand aggregateIndex =>
    machine.reduce fn groupBy expr operand aggregateIndex
  | .consolidate => fun table => .ok (opConsolidate table)
  | .variable _ | .join _ _ _ _ | .concat => fun _ => .error .einval

/-- Whether an operator hands on the very relation it was given: a join-like operator whose
relation does not exist, and the removal of duplicates from at most one row. -/
def handsOn (db : Database) (op : PlanOp) (table : Table) : Bool :=
  match op with
  | .antijoin rel _ _ _ | .semijoin rel _ _ _ _ => (db rel).isNone
  | .consolidate => table.rows.length ≤ 1
  | _ => false

/-- Apply an operator to an entry. The result does not count as made of added rows. -/
def unaryEntry (db : Database) (op : PlanOp) (entry : Entry) : Except EvalError Entry :=
  (unaryOp machine db op entry.table).map fun table =>
    ⟨table, false, if handsOn db op entry.table then entry.source else none⟩

def replaceTop (sess : Session) (op : StepOp) (top : Entry) : Except EvalError Entry :=
  match op.op with
  | .join rel leftKeys rightKeys rightFilter =>
    joinEntry machine sess op rel leftKeys rightKeys rightFilter top
  | other => unaryEntry machine sess.rels other top

/-- Evaluate one operator. -/
def stepOp (sess : Session) (op : StepOp) (stack : List Entry) : Except EvalError (List Entry) :=
  match op.op with
  | .variable rel => (colOpVariable sess op.deltaMode rel).map (· :: stack)
  | .concat => match stack with
      | second :: first :: rest =>
        (opConcat first.table second.table).map (⟨·, false, none⟩ :: rest)
      | _ => .ok stack
  | _ => match stack with
      | [] => .error .einval
      | top :: rest => (replaceTop machine sess op top).map (· :: rest)

/-! ## Plans -/

def rightRelation : PlanOp → Option String
  | .join rel _ _ _ => rel
  | .antijoin rel _ _ _ => some rel
  | .semijoin rel _ _ _ _ => some rel
  | _ => none

def nextIsJoin : List StepOp → Bool
  | [] => false
  | op :: _ => match op.op with
      | .join _ _ _ _ | .antijoin _ _ _ _ | .semijoin _ _ _ _ _ => true
      | _ => false

def usedInJoin (plan : List StepOp) (rel : String) : Bool :=
  plan.any fun op => rightRelation op.op = some rel

/-- The base-case skip of `col_eval_relation_plan`: the empty table that stands for a scan, when
the scan is skipped. -/
def baseSkip (plan : List StepOp) (op : StepOp) (rest : List StepOp) : Option Entry :=
  match op.op with
  | .variable (some rel) =>
    if 0 < sess.currentIteration ∧ op.deltaMode = .auto ∧ nextIsJoin rest = false ∧
        (sess.delta rel).all (fun delta => delta.rows = []) ∧ usedInJoin plan rel = false then
      (sess.rels rel).map fun full => ⟨.empty full.types, false, none⟩
    else none
  | _ => none

/-- No scan is skipped. -/
def noSkip : StepOp → List StepOp → Option Entry := fun _ _ => none

/-- What stands for a skipped scan. -/
theorem eq_of_baseSkip {sess : Session} {plan rest : List StepOp} {op : StepOp} {entry : Entry}
    (skipped : baseSkip sess plan op rest = some entry) :
    ∃ rel full, op.op = .variable (some rel) ∧ op.deltaMode = .auto ∧ sess.rels rel = some full ∧
      entry = ⟨.empty full.types, false, none⟩ := by
  unfold baseSkip at skipped
  split at skipped
  · next rel scan =>
    split_ifs at skipped with conditions
    obtain ⟨full, found, rfl⟩ := Option.map_eq_some_iff.mp skipped
    exact ⟨rel, full, scan, conditions.2.1, found, rfl⟩
  · cases skipped

theorem baseSkip_first {sess : Session} (first : sess.currentIteration = 0)
    (plan : List StepOp) : baseSkip sess plan = noSkip := by
  funext op rest
  unfold baseSkip
  split
  · simp [first, noSkip]
  · rfl

end Wirelog.SemiNaive

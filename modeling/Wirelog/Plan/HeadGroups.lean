import Wirelog.Plan.ExprMeaning
import Wirelog.Plan.ReduceExact

/-!
# Heads with an aggregate

A rule whose head has an aggregate is planned as a reduction of its body. The other terms of the
head should be evaluated on each row of the body, rows with the same values make a group, and the
aggregate ranges over the values of its operand in the group (`HeadRight`).

`convert_rule` does not evaluate these terms. It replaces each by a column of the body: by the
column that has its name, or else by the column at the position that the term has in the head. A
constant, an expression, or a term that happens to have the name of a column is then not what the
rows are grouped by. A count, moreover, starts with the value of its column when its operand is a
float.

A head is right for all bodies whose rows are taken from some set exactly when the rule has a
positive atom and each of the rows is read as the head says: its terms are variables of the body or
happen to have the values of the columns that are taken for them, the operand keeps its value, and
a count of floats starts with a one (`HeadContext.Reads`, `aggregateHead_right_iff`).
-/

set_option autoImplicit false

namespace Wirelog.Plan

open Wirelog.IR Wirelog.Columnar Wirelog.Foundations List

/-! ## The machine with its reductions -/

variable (outside : Outside) (countDouble : Nat → Cell)

/-- What reductions take from outside. -/
def reduceEnvOf : ReduceEnv where
  evaluate expr row := evalExpr (interpreterMachine outside) row expr
  strings id := (outside.reverse id).map stringBytes
  addDoubles := outside.arithFloat .add
  divDoubles := outside.arithFloat .div
  countDouble := countDouble

/-- The interpreter with `col_op_reduce` for its reductions. -/
def reducingMachine : Machine :=
  { interpreterMachine outside with
    reduce := fun fn groupBy expr operand aggregateIndex =>
      colOpReduce (reduceEnvOf outside countDouble) ⟨fn, groupBy, expr, operand, aggregateIndex⟩ }

def ReduceOp.planOp (op : ReduceOp) : PlanOp :=
  .reduce op.fn op.groupBy op.expr op.operand op.aggregateIndex

/-! ## What a head says -/

/-- The value of a term of the head on a row of the body, where each of its variables is bound. -/
def termValue (snapshot : Option Snapshot) (layout : Layout) (row : Row) : AstNode → Option Cell
  | .variable name => (lookupName layout.names name).map (cellAt row)
  | term => (convertExpr term).bind fun expr =>
    if ∀ name ∈ expr.vars, (lookupName layout.names name).isSome then
      (exprValue outside snapshot layout row false expr).bind fun result =>
        result.toOption.map fun value => value.cell
    else none

def headTerms (rule : RuleNode) : List (AstNode × Nat) :=
  rule.headArgs.zipIdx.filter (!·.1.isAggregate)

def aggregatePosition (rule : RuleNode) : Nat := rule.headArgs.findIdx (·.isAggregate)

/-- What an aggregate head is evaluated on: the outside, the extensions and the columns of the
body; its terms, and the function and the operands of its aggregate. -/
structure HeadContext where
  outside : Outside
  snapshot : Option Snapshot
  layout : Layout
  rule : RuleNode
  fn : AggFn
  args : List AstNode

namespace HeadContext

variable (context : HeadContext)

/-- The value of a term. -/
def value (row : Row) : AstNode → Option Cell :=
  termValue context.outside context.snapshot context.layout row

/-- The value of an expression that is planned. -/
def exprMeaning (row : Row) : IrExpr → Meaning TypedValue :=
  exprValue context.outside context.snapshot context.layout row false

def key (row : Row) : List Cell :=
  (headTerms context.rule).map fun term => (context.value row term.1).getD 0

def operand? (row : Row) : Option Cell := context.args.head?.bind (context.value row)

def operand (row : Row) : Cell := (context.operand? row).getD 0

/-- What the rows of the body contribute: the values of the terms, and of the operand. -/
def items (rows : List Row) : List (List Cell × Cell) :=
  rows.map fun row => (context.key row, context.operand row)

/-- The operand as it is planned, with a position for each variable. -/
def planned : Option IrExpr :=
  (context.args.head?.bind convertExpr).map (rewriteExprVarsToColumns context.layout.names)

/-- What the values of the operand are aggregated as. -/
def operandType : ColType := (context.planned.map (exprResultType context.layout)).getD .unknown

/-- The aggregate of the head. The columns that are grouped by do not matter to it. -/
def aggregator : ReduceOp := ⟨context.fn, [], none, context.operandType, none⟩

/-- A row on which the terms of the head have values and, unless it is only counted, the operand
has one, which the interpreter can compute. -/
structure Evaluates (row : Row) : Prop where
  terms : ∀ term ∈ headTerms context.rule, (context.value row term.1).isSome
  operand : context.fn ≠ .count →
    ∃ value, context.operand? row = some value ∧ context.aggregator.Valid value
  planned : context.fn ≠ .count → ∀ expr ∈ context.planned,
    (context.exprMeaning row expr).isSome ∧
      partsWithin context.outside context.snapshot context.layout row expr 0

end HeadContext

/-- The aggregate of the values of a group: a count is their number, and the other aggregates take
them in one after another. -/
def aggregateOf (env : ReduceEnv) (op : ReduceOp) (cells : List Cell) :
    Except EvalError (Option Cell) :=
  if op.fn = .count then .ok (if cells = [] then none else some (BitVec.ofNat 64 cells.length))
  else (groupState (aggStart op) (aggStep env op) cells).map (Option.map AggState.cell)

def rowKey (rule : RuleNode) (row : Row) : List Cell := row.cells.eraseIdx (aggregatePosition rule)

/-- **What an aggregate head should give**: one row for each combination of values of its terms,
with these values and the aggregate of the group in the order of the head, or the error of a
group. -/
def HeadRight (env : ReduceEnv) (op : ReduceOp) (rule : RuleNode)
    (items : List (List Cell × Cell)) : Except EvalError Table → Prop
  | .ok out =>
    out.types.length = rule.headArgs.length ∧ (out.rows.map (rowKey rule)).Nodup ∧
      (∀ key, key ∈ out.rows.map (rowKey rule) ↔ key ∈ items.map Prod.fst) ∧
      ∀ row ∈ out.rows, aggregateOf env op (valuesOf items (rowKey rule row)) =
        .ok (some (cellAt row (aggregatePosition rule)))
  | .error e => ∃ key, aggregateOf env op (valuesOf items key) = .error e

/-- What the operators of a head leave on top of the stack, after a body that leaves a table; a
rule without positive atoms has no operators for its body. -/
def headTable (machine : Machine) (db : Database) (op : ReduceOp) (form : RuleForm)
    (body : Table) : Except EvalError Table :=
  (evalOps machine db [op.planOp, .consolidate] (if form.scans = [] then [] else [body])).bind
    fun stack => match stack with
      | [] => .error .einval
      | table :: _ => .ok table

/-- The column that is taken for a term that is no variable of the body: the one at its position
in the head. An extension with the name of a variable is taken for the variable, and a column that
does not exist for the first one. -/
def HeadContext.standIn (context : HeadContext) (width : Nat) (term : AstNode × Nat) : Nat :=
  let column := match term.1 with
    | .extensionCall name _ => (lookupName context.layout.names name).getD term.2
    | _ => term.2
  if column < width then column else 0

/-- A term is a variable of the body, or happens to have the value of the column that is taken for
it. -/
def HeadContext.ReadsTerm (context : HeadContext) (width : Nat) (row : Row)
    (term : AstNode × Nat) : Prop :=
  (∃ name, term.1 = .variable name ∧ some name ∈ context.layout.names) ∨
    context.value row term.1 = some (cellAt row (context.standIn width term))

/-- Values that differ at most in the sign of a zero. -/
def ReduceOp.SameValue (op : ReduceOp) (v w : Cell) : Prop :=
  storedCell (some op.aggregateType) v = storedCell (some op.aggregateType) w

/-- **A row is read as the head says** when its terms are, the operand has the same value with
positions for its variables, and a count of floats starts with a one. -/
structure HeadContext.Reads (context : HeadContext) (types : List ColumnType) (row : Row) :
    Prop where
  terms : ∀ term ∈ headTerms context.rule, context.ReadsTerm types.length row term
  operand : context.fn ≠ .count → ∃ value,
    context.planned.bind (context.exprMeaning row) = some (.ok value) ∧
      context.aggregator.SameValue value.cell (context.operand row)
  floatCount : context.fn = .count → context.operandType = .float →
    (headTerms context.rule).length < types.length →
      cellAt row (headTerms context.rule).length = 1

/-- What the operator makes of a row: the group columns hold the values of the terms, the operator
reads the value of the operand, and a count of floats reads a one. -/
structure Aligned (env : ReduceEnv) (op : ReduceOp) (context : HeadContext)
    (types : List ColumnType) (row : Row) : Prop where
  terms : op.groupKey types row = context.key row
  operand : op.fn ≠ .count → ∃ value, op.value env types.length row = .ok value ∧
    op.SameValue value (context.operand row)
  floatCount : op.fn = .count → op.operand = .float → op.value env types.length row = .ok 1

/-- Doubles are added and divided without telling the two zeros apart. -/
structure ReduceEnv.ZeroBlind (env : ReduceEnv) : Prop where
  add : ∀ a a' b b', storedCell (some .float) a = storedCell (some .float) a' →
    storedCell (some .float) b = storedCell (some .float) b' →
      storedCell (some .float) (env.addDoubles a b) =
        storedCell (some .float) (env.addDoubles a' b')
  div : ∀ a a' b, storedCell (some .float) a = storedCell (some .float) a' →
    storedCell (some .float) (env.divDoubles a b) = storedCell (some .float) (env.divDoubles a' b)

/-! ## The two zeros -/

section Zeros

variable {a b c : Cell}

theorem floatBitsValid_of_zero (zero : floatBitsZero a = true) : floatBitsValid a = true := by
  have cleared : a &&& 0x7fffffffffffffff#64 = 0#64 := by simpa [floatBitsZero] using zero
  have exponent : a &&& 0x7ff0000000000000#64 = 0#64 := by
    have split : (0x7ff0000000000000#64 : Cell) = 0x7fffffffffffffff#64 &&& 0x7ff0000000000000#64 :=
      by decide
    rw [split, ← BitVec.and_assoc, cleared, BitVec.zero_and]
  simp [floatBitsValid, exponent]

/-- Storing a double does not change whether it is finite. -/
theorem floatBitsValid_stored (a : Cell) :
    floatBitsValid (storedCell (some .float) a) = floatBitsValid a := by
  unfold storedCell
  split_ifs with zero
  · rw [floatBitsValid_of_zero zero.2]
    rfl
  · rfl

theorem floatBitsValid_congr (same : storedCell (some .float) a = storedCell (some .float) b) :
    floatBitsValid a = floatBitsValid b := by
  rw [← floatBitsValid_stored a, same, floatBitsValid_stored]

/-- The two zeros compare alike. -/
theorem floatCompareBits_stored (a b : Cell) :
    floatCompareBits (storedCell (some .float) a) b = floatCompareBits a b := by
  unfold storedCell
  split_ifs with isZero
  · have valid := floatBitsValid_of_zero isZero.2
    have zero : floatBitsValid 0 = true ∧ floatBitsZero 0 = true ∧ (floatKey 0).toNat = 2 ^ 63 := by
      decide
    -- the keys of the zeros are neighbours, and no other double has one of them
    have keyA := (floatBitsZero_iff a).mp isZero.2
    have keyB := floatBitsZero_iff b
    simp only [floatCompareBits, valid, isZero.2, zero, BitVec.lt_def, gt_iff_lt, Bool.not_true,
      Bool.false_or, Bool.true_and]
    split_ifs <;> grind
  · rfl

theorem floatCompareBits_congr (same : storedCell (some .float) a = storedCell (some .float) b)
    (c : Cell) : floatCompareBits a c = floatCompareBits b c := by
  rw [← floatCompareBits_stored a, same, floatCompareBits_stored]

end Zeros

/-! ## The aggregate of a group -/

section Aggregates

variable {env : ReduceEnv} {op : ReduceOp}

/-- States with the same aggregate, and sums that differ at most in the sign of a zero. -/
def SameState (s t : AggState) : Prop :=
  s.cell = t.cell ∧ storedCell (some .float) s.sum = storedCell (some .float) t.sum ∧
    s.count = t.count

theorem ReduceOp.settle_congr (float : op.operand = .float) {v w : Cell} (same : op.SameValue v w)
    (cur : Cell) : op.settle cur v = op.settle cur w := by
  have type : op.aggregateType = .float := if_pos float
  rw [ReduceOp.SameValue, type] at same
  have finite : cellFinite (some .float) v = cellFinite (some .float) w := by
    simp [cellFinite, floatBitsValid_congr same]
  rw [ReduceOp.settle, ReduceOp.settle, type, same, finite]

/-- Without floats values are the same only when they are equal. -/
theorem ReduceOp.SameValue.eq (scalar : op.operand ≠ .float) {v w : Cell}
    (same : op.SameValue v w) : v = w := by
  have type : op.aggregateType = .int64 := if_neg scalar
  rwa [ReduceOp.SameValue, type, storedCell_int64, storedCell_int64] at same

theorem aggStart_same {v w : Cell} (same : op.SameValue v w) :
    SameState (aggStart op v) (aggStart op w) := by
  unfold aggStart firstAggregate
  by_cases float : op.operand = .float
  · have type : op.aggregateType = .float := if_pos float
    rw [if_pos float, if_pos float, if_pos float, if_pos float]
    exact ⟨same, type ▸ same, rfl⟩
  · rw [same.eq float]
    exact ⟨rfl, rfl, rfl⟩

section

variable (zeros : env.ZeroBlind) (noCount : op.fn ≠ .count)

include zeros noCount

theorem floatStep_same (float : op.operand = .float) {s t : AggState} {v w : Cell}
    (states : SameState s t) (same : op.SameValue v w) :
    Agree SameState (aggStep env op s v) (aggStep env op t w) := by
  have type : op.aggregateType = .float := if_pos float
  have values : storedCell (some .float) v = storedCell (some .float) w := type ▸ same
  obtain ⟨cells, sums, counts⟩ := states
  have added := zeros.add _ _ _ _ sums values
  have addedSame : op.SameValue (env.addDoubles s.sum v) (env.addDoubles t.sum w) := by
    rw [ReduceOp.SameValue, type]
    exact added
  unfold aggStep
  rw [if_pos float, if_pos float]
  cases fn : op.fn with
  | count => exact absurd fn noCount
  | sum =>
    simp only [floatStep, floatBitsValid_congr added]
    split_ifs with finite
    · refine ⟨?_, added, counts⟩
      change op.settle s.cell _ = op.settle t.cell _
      rw [cells, op.settle_congr float addedSame]
    · exact rfl
  | min | max =>
    simp only [floatStep, cells, floatCompareBits_congr values]
    refine ⟨?_, sums, counts⟩
    change op.settle t.cell _ = op.settle t.cell _
    split_ifs with better
    · exact op.settle_congr float same t.cell
    · rfl
  | avg =>
    simp only [floatStep, floatBitsValid_congr added, counts]
    split_ifs with finite
    · refine ⟨?_, added, rfl⟩
      have divided : op.SameValue (env.divDoubles (env.addDoubles s.sum v)
          (env.countDouble (t.count + 1))) (env.divDoubles (env.addDoubles t.sum w)
            (env.countDouble (t.count + 1))) := by
        rw [ReduceOp.SameValue, type]
        exact zeros.div _ _ _ added
      change op.settle s.cell _ = op.settle t.cell _
      rw [cells, op.settle_congr float divided]
    · exact rfl

/-- A further value leads to the same state. -/
theorem aggStep_same {s t : AggState} {v w : Cell} (states : SameState s t)
    (same : op.SameValue v w) : Agree SameState (aggStep env op s v) (aggStep env op t w) := by
  by_cases float : op.operand = .float
  · exact floatStep_same zeros noCount float states same
  obtain ⟨cells, sums, counts⟩ := states
  rw [same.eq float, aggStep, aggStep, if_neg float, if_neg float, cells]
  cases scalarStep env op t.cell w with
  | ok next => exact ⟨rfl, sums, counts⟩
  | error e => exact rfl

/-- Values that differ at most in the sign of a zero lead to the same state. -/
theorem aggState_same {values others : List Cell}
    (pairs : List.Forall₂ op.SameValue values others) :
    Agree (Option.Rel SameState) (groupState (aggStart op) (aggStep env op) values)
      (groupState (aggStart op) (aggStep env op) others) := by
  apply groupState_agree _ _ pairs
  · intro v w same
    exact aggStart_same same
  · intro s t v w states same
    exact aggStep_same zeros noCount states same

end

/-- States that agree have the same aggregate. -/
theorem map_cell_of_agree {x y : Except EvalError (Option AggState)}
    (agree : Agree (Option.Rel SameState) x y) :
    x.map (Option.map AggState.cell) = y.map (Option.map AggState.cell) := by
  cases x with
  | ok x =>
    cases y with
    | ok y =>
      cases agree with
      | none => rfl
      | some same => exact congrArg (Except.ok ∘ some) same.1
    | error e => exact agree.elim
  | error e =>
    cases y with
    | ok y => exact agree.elim
    | error e' => exact congrArg Except.error agree

/-- A number of rows is a finite double other than zero. -/
theorem float_of_small {n : Nat} (positive : 0 < n) (small : n < 2 ^ 52) :
    floatBitsValid (BitVec.ofNat 64 n) = true ∧ floatBitsZero (BitVec.ofNat 64 n) = false := by
  have number : (BitVec.ofNat 64 n).toNat = n := by
    rw [BitVec.toNat_ofNat]
    omega
  constructor
  · by_contra infinite
    have exponent : BitVec.ofNat 64 n &&& 0x7ff0000000000000#64 = 0x7ff0000000000000#64 := by
      simpa [floatBitsValid] using infinite
    have bits := congrArg BitVec.toNat exponent
    rw [BitVec.toNat_and, number] at bits
    have bound : n &&& (0x7ff0000000000000#64 : Cell).toNat ≤ n := Nat.and_le_left
    have large : 2 ^ 52 ≤ (0x7ff0000000000000#64 : Cell).toNat := by decide
    omega
  · rw [Bool.eq_false_iff, Ne, floatBitsZero_iff, toNat_floatKey, number]
    split_ifs <;> omega

theorem groupState_floatCount (count : op.fn = .count) (float : op.operand = .float)
    {cells : List Cell} (ones : ∀ cell ∈ cells, cell = 1) (few : cells.length ≤ 2 ^ 30) :
    groupState (aggStart op) (aggStep env op) cells =
      .ok (if cells = [] then none else some ⟨BitVec.ofNat 64 cells.length, 1, 1⟩) := by
  have type : op.aggregateType = .float := if_pos float
  induction cells using List.reverseRecOn with
  | nil => rfl
  | append_singleton cells cell ih =>
    rw [length_append, length_singleton] at few
    have one : cell = 1 := ones cell (by simp)
    subst one
    rw [groupState_concat, ih (fun other member => ones other (mem_append_left _ member))
      (by omega)]
    by_cases empty : cells = []
    · subst empty
      simp only [if_true, Except.bind, addValue, aggStart, if_pos float, firstAggregate, type]
      rfl
    obtain ⟨valid, nonzero⟩ := float_of_small (Nat.succ_pos cells.length) (by omega)
    have next : BitVec.ofNat 64 cells.length + 1 = BitVec.ofNat 64 (cells.length + 1) :=
      (BitVec.ofNat_add ..).symm
    have finite : cellFinite (some .float) (BitVec.ofNat 64 (cells.length + 1)) = true := by
      simp [cellFinite, valid]
    have stored : storedCell (some .float) (BitVec.ofNat 64 (cells.length + 1)) =
        BitVec.ofNat 64 (cells.length + 1) :=
      storedCell_eq_self fun _ zero => by simp [nonzero] at zero
    have settled : op.settle (BitVec.ofNat 64 cells.length) (BitVec.ofNat 64 cells.length + 1) =
        BitVec.ofNat 64 (cells.length + 1) := by
      rw [ReduceOp.settle, type, next, if_pos finite, stored]
    rw [if_neg empty]
    change (aggStep env op ⟨BitVec.ofNat 64 cells.length, 1, 1⟩ 1).map some = _
    rw [aggStep, if_pos float, count]
    change Except.ok (some (AggState.mk (op.settle _ _) 1 1)) = _
    rw [settled]
    simp

/-- **Counts** are right when a count of floats reads ones. -/
theorem groupState_counts (count : op.fn = .count) {cells : List Cell}
    (ones : op.operand = .float → ∀ cell ∈ cells, cell = 1) (few : cells.length ≤ 2 ^ 30) :
    (groupState (aggStart op) (aggStep env op) cells).map (Option.map AggState.cell) =
      .ok (if cells = [] then none else some (BitVec.ofNat 64 cells.length)) := by
  by_cases float : op.operand = .float
  · rw [groupState_floatCount count float (ones float) few]
    split_ifs <;> rfl
  have agree := groupState_scalar env float cells
  rw [groupState_count env count float] at agree
  cases state : groupState (aggStart op) (aggStep env op) cells with
  | error e => rw [state] at agree; exact agree.elim
  | ok found =>
    rw [state] at agree
    split_ifs at agree ⊢ with empty
    · cases agree
      rfl
    · cases agree with
      | some same => exact congrArg (Except.ok ∘ some) same

/-- The aggregate of at most one value exists. -/
theorem aggregateOf_single (env : ReduceEnv) (op : ReduceOp) (value : Cell) :
    aggregateOf env op [value] =
      .ok (some (if op.fn = .count then 1 else (aggStart op value).cell)) := by
  unfold aggregateOf
  by_cases count : op.fn = .count
  · rw [if_pos count, if_pos count]
    rfl
  · rw [if_neg count, if_neg count]
    rfl

end Aggregates

/-! ## Rows that are aligned -/

section Aligned

variable {env : ReduceEnv} {op : ReduceOp} {context : HeadContext}

/-- The operator that a head is planned as: it has a group column for each term, the position of
the aggregate, its function, and its operand with positions for variables. -/
structure ReducesHead (op : ReduceOp) (context : HeadContext) : Prop where
  position : op.index = aggregatePosition context.rule
  width : op.groupBy.length + 1 = context.rule.headArgs.length
  fn : op.fn = context.fn
  operand : op.operand = context.operandType
  groupBy : op.groupBy = (headTerms context.rule).map fun term =>
    groupByIndex context.layout.names term.1 term.2
  expr : context.planned.mapM (serializeExpr context.snapshot context.layout false) = some op.expr

/-- An aggregate is the same whatever columns are grouped by. -/
theorem ReducesHead.aggregateOf (head : ReducesHead op context) :
    aggregateOf env op = Plan.aggregateOf env context.aggregator := by
  obtain ⟨-, -, fn, operand, -, -⟩ := head
  cases op
  cases fn
  cases operand
  rfl

theorem ReducesHead.sameValue (head : ReducesHead op context) :
    op.SameValue = context.aggregator.SameValue := by
  unfold ReduceOp.SameValue ReduceOp.aggregateType
  rw [head.operand]
  rfl

theorem ReducesHead.headRight_iff (head : ReducesHead op context) {rule : RuleNode}
    {items : List (List Cell × Cell)} {result : Except EvalError Table} :
    HeadRight env op rule items result ↔ HeadRight env context.aggregator rule items result := by
  cases result <;> simp only [HeadRight, head.aggregateOf]

def ReduceOp.read (env : ReduceEnv) (op : ReduceOp) (ncols : Nat) (row : Row) : Cell :=
  (op.value env ncols row).toOption.getD 0

/-- A count evaluates nothing. -/
theorem ReduceOp.value_count (count : op.fn = .count) (ncols : Nat) (row : Row) :
    op.value env ncols row = .ok (ReduceOp.value.unevaluated op ncols row) := by
  unfold ReduceOp.value
  cases op.expr with
  | none => rfl
  | some expr => exact if_pos count

section

variable {types : List ColumnType} {row : Row} (aligned : Aligned env op context types row)

include aligned

theorem Aligned.valued : op.value env types.length row = .ok (op.read env types.length row) := by
  have found : ∃ value, op.value env types.length row = .ok value := by
    by_cases count : op.fn = .count
    · exact ⟨_, op.value_count count types.length row⟩
    obtain ⟨value, read, -⟩ := aligned.operand count
    exact ⟨value, read⟩
  obtain ⟨value, read⟩ := found
  rw [ReduceOp.read, read]
  rfl

/-- Next to another aggregate than a count, an aligned row contributes its operand. -/
theorem Aligned.sameValue (noCount : op.fn ≠ .count) :
    op.SameValue (op.read env types.length row) (context.operand row) := by
  obtain ⟨value, read, same⟩ := aligned.operand noCount
  rw [ReduceOp.read, read]
  exact same

theorem Aligned.read_one (count : op.fn = .count) (float : op.operand = .float) :
    op.read env types.length row = 1 := by
  rw [ReduceOp.read, aligned.floatCount count float]
  rfl

theorem Aligned.finite (head : ReducesHead op context) (evaluates : context.Evaluates row) :
    op.Valid (op.read env types.length row) := by
  intro float
  by_cases count : op.fn = .count
  · rw [aligned.read_one count float]
    rfl
  obtain ⟨value, found, valid⟩ := evaluates.operand (head.fn ▸ count)
  have same := aligned.sameValue count
  have type : op.aggregateType = .float := if_pos float
  rw [ReduceOp.SameValue, type, HeadContext.operand, found, Option.getD_some] at same
  rw [floatBitsValid_congr same]
  exact valid (head.operand.symm.trans float)

end

section

variable {types : List ColumnType} {rows : List Row}
  (aligned : ∀ row ∈ rows, Aligned env op context types row)

include aligned

theorem items_aligned : op.items types (op.read env types.length) rows =
    rows.map fun row => (context.key row, op.read env types.length row) :=
  map_congr_left fun row member => by rw [(aligned row member).terms]

theorem aggregateOf_map (zeros : env.ZeroBlind) (few : rows.length ≤ 2 ^ 30) :
    aggregateOf env op (rows.map context.operand) =
      (groupState (aggStart op) (aggStep env op) (rows.map (op.read env types.length))).map
        (Option.map AggState.cell) := by
  rw [aggregateOf]
  by_cases count : op.fn = .count
  · have ones : op.operand = .float → ∀ cell ∈ rows.map (op.read env types.length), cell = 1 := by
      intro float cell member
      obtain ⟨row, present, rfl⟩ := mem_map.mp member
      exact (aligned row present).read_one count float
    rw [if_pos count, groupState_counts count ones (by rwa [length_map])]
    simp
  · rw [if_neg count]
    have pairs : List.Forall₂ op.SameValue (rows.map (op.read env types.length))
        (rows.map context.operand) := by
      rw [forall₂_map_left_iff, forall₂_map_right_iff, forall₂_same]
      exact fun row member => (aligned row member).sameValue count
    exact (map_cell_of_agree (aggState_same zeros count pairs)).symm

/-- Aligned rows have the aggregates that the operator computes. -/
theorem aggregateOf_aligned (zeros : env.ZeroBlind) (few : rows.length ≤ 2 ^ 30)
    (key : List Cell) :
    aggregateOf env op (valuesOf (context.items rows) key) =
      (groupState (aggStart op) (aggStep env op)
        (valuesOf (op.items types (op.read env types.length) rows) key)).map
          (Option.map AggState.cell) := by
  rw [items_aligned aligned, HeadContext.items, valuesOf_map, valuesOf_map]
  exact aggregateOf_map (fun row member => aligned row (mem_of_mem_filter member)) zeros
    ((length_filter_le _ _).trans few)

end

/-- **A body of aligned rows is reduced as the head says.** -/
theorem headRight_of_aligned (head : ReducesHead op context) (zeros : env.ZeroBlind)
    {body : Table} (few : body.rows.length ≤ 2 ^ 30)
    (evaluates : ∀ row ∈ body.rows, context.Evaluates row)
    (aligned : ∀ row ∈ body.rows, Aligned env op context body.types row) :
    HeadRight env op context.rule (context.items body.rows) (colOpReduce env op body) := by
  rcases colOpReduce_spec (fun row member => (aligned row member).valued)
      (fun row member => (aligned row member).finite head (evaluates row member)) few with
    ⟨g, done, grouped⟩ | ⟨e, key, failed, refused⟩
  · rw [done]
    have outputKeys : g.output.rows.map (rowKey context.rule) = (g.entries op).map Prod.fst := by
      rw [g.keys_entries, ReduceTable.output, map_map]
      refine map_congr_left fun group _ => ?_
      rw [Function.comp_apply, rowKey, ← head.position]
      rfl
    refine ⟨?_, outputKeys ▸ grouped.distinct, fun key => ?_, fun row member => ?_⟩
    · exact (op.length_columnTypes body.types).trans head.width
    · rw [outputKeys, grouped.keys key, items_aligned aligned, HeadContext.items, map_map, map_map]
      rfl
    · obtain ⟨group, present, rfl⟩ := mem_map.mp member
      have state : groupState (aggStart op) (aggStep env op)
          (valuesOf (op.items body.types (op.read env body.types.length) body.rows)
            (op.keyOf group)) = .ok (some ⟨group.row.cell op.index, group.sum, group.count⟩) :=
        grouped.states (op.entry group) (mem_map_of_mem present)
      have key : rowKey context.rule group.row.1 = op.keyOf group := by
        rw [rowKey, ← head.position]
        rfl
      rw [aggregateOf_aligned aligned zeros few, key, state, ← head.position]
      rfl
  · rw [failed]
    refine ⟨key, ?_⟩
    rw [aggregateOf_aligned aligned zeros few, refused]
    rfl

/-! ## Bodies of one row -/

def oneRow (types : List ColumnType) (row : Row) (width : row.cells.length = types.length)
    (canonical : FloatCanonical types row) : Table where
  types := types
  rows := [row]
  width := by simpa using width
  canonical := by simpa using canonical

section OneRow

variable {types : List ColumnType} {row : Row} {width : row.cells.length = types.length}
  {canonical : FloatCanonical types row}

/-- The aggregates of one row exist. -/
theorem aggregateOf_oneRow (env : ReduceEnv) (op : ReduceOp) (context : HeadContext) (row : Row)
    (key : List Cell) :
    ∃ found, aggregateOf env op (valuesOf (context.items [row]) key) = .ok found := by
  by_cases same : context.key row = key
  · have values : valuesOf (context.items [row]) key = [context.operand row] := by
      simp [HeadContext.items, valuesOf, same]
    rw [values, aggregateOf_single]
    exact ⟨_, rfl⟩
  · have nothing : valuesOf (context.items [row]) key = [] := by
      simp [HeadContext.items, valuesOf, same]
    rw [nothing, aggregateOf]
    split_ifs <;> exact ⟨_, rfl⟩

theorem not_headRight_error (e : EvalError) :
    ¬ HeadRight env op context.rule (context.items [row]) (.error e) := by
  rintro ⟨key, failed⟩
  obtain ⟨found, defined⟩ := aggregateOf_oneRow env op context row key
  rw [failed] at defined
  cases defined

/-- What the loop does with one row is what the operator does. -/
theorem colOpReduce_oneRow :
    colOpReduce env op (oneRow types row width canonical) =
      (reduceRow env op types (reduceCapacity 1) ⟨fun _ => none, []⟩ row).map
        ReduceTable.output := by
  have large : ¬ reduceCapacity 1 < max 1 1 * 2 := by decide
  have loop : colOpReduce env op (oneRow types row width canonical) =
      (reduceRows env op types (reduceCapacity 1) [row]).map ReduceTable.output := by
    rw [colOpReduce]
    exact if_neg large
  rw [loop, reduceRows, foldlM_cons]
  cases reduceRow env op types (reduceCapacity 1) ⟨fun _ => none, []⟩ row with
  | ok g => rfl
  | error e => rfl

/-- The operator reads a finite value in a row that it reduces as the head says. -/
theorem value_of_headRight
    (right : HeadRight env op context.rule (context.items [row])
      ((colOpReduce env op (oneRow types row width canonical)).map opConsolidate)) :
    ∃ value, op.value env types.length row = .ok value ∧ op.Valid value := by
  rw [colOpReduce_oneRow] at right
  unfold reduceRow at right
  cases read : op.value env types.length row with
  | error e =>
    rw [read] at right
    exact absurd right (not_headRight_error e)
  | ok value =>
    refine ⟨value, rfl, fun float => ?_⟩
    by_contra infinite
    have refused : op.operand = .float ∧ floatBitsValid value = false :=
      ⟨float, by simpa using infinite⟩
    rw [read] at right
    change HeadRight _ _ _ _ (Except.map _ (Except.map _ (if _ then _ else _))) at right
    rw [if_pos refused] at right
    exact not_headRight_error _ right

/-- **A row that is reduced as the head says is aligned.** -/
theorem aligned_of_headRight (head : ReducesHead op context)
    (right : HeadRight env op context.rule (context.items [row])
      ((colOpReduce env op (oneRow types row width canonical)).map opConsolidate)) :
    Aligned env op context types row := by
  obtain ⟨value, read, valid⟩ := value_of_headRight right
  have single : (oneRow types row width canonical).rows = [row] := rfl
  have valued : ∀ other ∈ (oneRow types row width canonical).rows,
      op.value env (oneRow types row width canonical).types.length other = .ok value := by
    intro other member
    rw [single, mem_singleton] at member
    exact member ▸ read
  have own : valuesOf [(op.groupKey types row, value)] (op.groupKey types row) = [value] := by
    simp [valuesOf]
  have few : (oneRow types row width canonical).rows.length ≤ 2 ^ 30 := by
    rw [single, length_singleton]
    decide
  rcases @colOpReduce_spec env op (oneRow types row width canonical) (fun _ => value) valued
      (fun _ _ => valid) few with ⟨g, done, grouped⟩ | ⟨e, key, failed, -⟩
  · -- the only group
    have items : op.items types (fun _ => value) [row] = [(op.groupKey types row, value)] := rfl
    change Grouped _ _ (op.items types (fun _ => value) [row]) _ at grouped
    rw [items] at grouped
    obtain ⟨entry, listed, key⟩ := mem_map.mp ((grouped.keys (op.groupKey types row)).mpr (by simp))
    obtain ⟨group, kept, rfl⟩ := mem_map.mp listed
    have state := grouped.states _ listed
    rw [key, own] at state
    have cell : group.row.cell op.index = (aggStart op value).cell :=
      congrArg AggState.cell (Option.some.inj (Except.ok.inj state)).symm
    rw [done] at right
    obtain ⟨-, -, keys, aggregates⟩ := right
    have output : group.row.1 ∈ (opConsolidate g.output).rows :=
      mem_dedup.mpr (mem_map_of_mem kept)
    have rowKeyed : rowKey context.rule group.row.1 = op.groupKey types row := by
      rw [rowKey, ← head.position]
      exact key
    have terms : op.groupKey types row = context.key row := by
      have listed := (keys _).mp (mem_map_of_mem output)
      rw [rowKeyed] at listed
      simpa [HeadContext.items] using listed
    have aggregate := aggregates _ output
    have values : valuesOf (context.items [row]) (context.key row) = [context.operand row] := by
      simp [HeadContext.items, valuesOf]
    rw [rowKeyed, terms, values, aggregateOf_single, ← head.position] at aggregate
    have shown : (if op.fn = .count then 1 else (aggStart op (context.operand row)).cell) =
        (aggStart op value).cell :=
      (Option.some.inj (Except.ok.inj aggregate)).trans cell
    have start (v : Cell) (noCount : op.fn ≠ .count) :
        (aggStart op v).cell = storedCell (some op.aggregateType) v := by
      unfold aggStart firstAggregate
      by_cases float : op.operand = .float
      · rw [if_pos float, if_pos float]
      · rw [if_neg float, if_neg float, if_neg noCount]
    refine ⟨terms, fun noCount => ⟨value, read, ?_⟩, fun count float => ?_⟩
    · rw [if_neg noCount, start _ noCount, start _ noCount] at shown
      exact shown.symm
    · have type : op.aggregateType = .float := if_pos float
      rw [if_pos count, aggStart, if_pos float, firstAggregate, if_pos float, type] at shown
      change 1 = storedCell (some .float) value at shown
      unfold storedCell at shown
      split_ifs at shown with zero
      · exact absurd shown (by decide)
      · rw [read, ← shown]
  · rw [failed] at right
    exact absurd right (not_headRight_error e)

end OneRow

end Aligned

/-! ## Accepted rules -/

section Accepted

variable {prog : Program} {snapshot : Option Snapshot} {rule : RuleNode} {form : RuleForm}
  {fn : AggFn} {args : List AstNode}

theorem countP_isAggregate_le (formed : ruleForm prog rule = .ok form) :
    rule.headArgs.countP (·.isAggregate) ≤ 1 := by
  by_contra several
  unfold ruleForm at formed
  by_cases arity : validateHeadArity prog rule
  · simp [arity, not_le.mp several, bind, Except.bind, throw, throwThe,
      MonadExceptOf.throw] at formed
  · simp [arity, bind, Except.bind, throw, throwThe, MonadExceptOf.throw] at formed

theorem exists_isAggregate (aggregate : headAggregate rule = some (fn, args)) :
    ∃ arg ∈ rule.headArgs, arg.isAggregate = true := by
  obtain ⟨arg, member, parts⟩ := exists_of_findSome?_eq_some aggregate
  cases arg <;> simp_all [aggregateParts]
  exact ⟨_, member, rfl⟩

/-- The terms beside the aggregate are one less than the arguments. -/
theorem length_headTerms (formed : ruleForm prog rule = .ok form)
    (aggregate : headAggregate rule = some (fn, args)) :
    (headTerms rule).length + 1 = rule.headArgs.length := by
  have one : rule.headArgs.countP (·.isAggregate) = 1 := by
    have some : 0 < rule.headArgs.countP (·.isAggregate) :=
      countP_pos_iff.mpr (exists_isAggregate aggregate)
    have few := countP_isAggregate_le formed
    omega
  have listed : rule.headArgs.zipIdx.countP (·.1.isAggregate) = 1 := by
    rw [← one]
    conv_rhs => rw [← zipIdx_map_fst 0 rule.headArgs]
    rw [countP_map]
    rfl
  have parts : rule.headArgs.zipIdx.length = rule.headArgs.zipIdx.countP (·.1.isAggregate) +
      rule.headArgs.zipIdx.countP (fun arg => decide ¬ arg.1.isAggregate = true) :=
    length_eq_countP_add_countP _
  simp only [Bool.not_eq_true, Bool.decide_eq_false] at parts
  rw [listed, length_zipIdx] at parts
  rw [headTerms, ← countP_eq_length_filter]
  omega

theorem head?_of_convertFirst {exprs : List IrExpr} (converted : convertFirst args = some exprs) :
    exprs.head? = args.head?.bind convertExpr := by
  cases args with
  | nil =>
    cases converted
    rfl
  | cons arg rest =>
    obtain ⟨expr, found, rfl⟩ := Option.map_eq_some_iff.mp converted
    exact found.symm

/-- **The head of an accepted rule is reduced by the operator of its terms and its aggregate.** -/
theorem headOp_reduces (formed : ruleForm prog rule = .ok form)
    (aggregate : headAggregate rule = some (fn, args)) {last : PlanOp}
    (planned : headOp snapshot rule form = some last) :
    ∃ op : ReduceOp, last = op.planOp ∧
      ReducesHead op ⟨outside, snapshot, scansLayout form.scans, rule, fn, args⟩ := by
  rw [headOp, aggregate] at planned
  obtain ⟨exprs, converted, reduced⟩ := Option.bind_eq_some_iff.mp planned
  have operand := head?_of_convertFirst converted
  simp only [reduceOp] at reduced
  split_ifs at reduced
  obtain ⟨code, coded, rfl⟩ := Option.map_eq_some_iff.mp reduced
  have width := length_headTerms formed aggregate
  refine ⟨⟨_, _, code, _, _⟩, rfl, ?_, ?_, rfl, ?_, rfl, ?_⟩
  · have inside : aggregatePosition rule < rule.headArgs.length :=
      findIdx_lt_length_of_exists (exists_isAggregate aggregate)
    refine if_pos ?_
    rw [length_map, ← headTerms, width]
    exact inside
  · rw [length_map, ← headTerms, width]
  · rw [operand]
    rfl
  · rw [operand] at coded
    exact coded

theorem headTable_eq (db : Database) (op : ReduceOp) (form : RuleForm) (body : Table) :
    headTable (reducingMachine outside countDouble) db op form body =
      if form.scans = [] then .error .einval
      else (colOpReduce (reduceEnvOf outside countDouble) op body).map opConsolidate := by
  unfold headTable
  by_cases empty : form.scans = []
  · rw [if_pos empty, if_pos empty]
    rfl
  rw [if_neg empty, if_neg empty]
  change ((((colOpReduce (reduceEnvOf outside countDouble) op body).map (· :: [])).bind
    (evalOps _ db [.consolidate])).bind _) = _
  cases colOpReduce (reduceEnvOf outside countDouble) op body with
  | ok out => rfl
  | error e => rfl

/-- The cell that stands for a term is its value for a variable of the body, and else only by
accident. -/
theorem cellAt_groupByIndex_iff {context : HeadContext} {width : Nat} {row : Row}
    (columns : width = context.layout.length) {term : AstNode × Nat} {value : Cell}
    (evaluated : context.value row term.1 = some value) :
    let column := groupByIndex context.layout.names term.1 term.2
    cellAt row (if column < width then column else 0) = value ↔
      context.ReadsTerm width row term := by
  obtain ⟨node, position⟩ := term
  rw [HeadContext.ReadsTerm, evaluated]
  by_cases named : ∃ name, node = .variable name
  · obtain ⟨name, rfl⟩ := named
    obtain ⟨column, found, rfl⟩ := Option.map_eq_some_iff.mp evaluated
    have bound : some name ∈ context.layout.names := lookupName_isSome.mp (by rw [found]; rfl)
    have inside : column < width := by
      rw [columns]
      simpa [Layout.names] using (List.findIdx?_eq_some_iff_getElem.mp found).1
    have index : groupByIndex context.layout.names (.variable name) position = column := by
      change (lookupName context.layout.names name).getD position = column
      rw [found]
      rfl
    simp only [index, if_pos inside, true_iff]
    exact .inl ⟨name, rfl, bound⟩
  · have taken : (let column := groupByIndex context.layout.names node position
        if column < width then column else 0) = context.standIn width (node, position) := by
      cases node <;> first | rfl | exact absurd ⟨_, rfl⟩ named | cases evaluated
    simp only at taken
    simp only [taken, Option.some.injEq]
    constructor
    · exact fun same => .inr same.symm
    · rintro (⟨name, same, -⟩ | same)
      · exact absurd ⟨name, same⟩ named
      · exact same.symm

/-- The operator groups by the values of the terms exactly when they are read as the head says. -/
theorem ReducesHead.terms_iff {op : ReduceOp} {context : HeadContext} {types : List ColumnType}
    {row : Row} (head : ReducesHead op context) (width : row.cells.length = types.length)
    (canonical : FloatCanonical types row) (columns : types.length = context.layout.length)
    (evaluates : context.Evaluates row) :
    op.groupKey types row = context.key row ↔
      ∀ term ∈ headTerms context.rule, context.ReadsTerm types.length row term := by
  rw [← op.groupCells_eq width canonical, ReduceOp.groupCells, head.groupBy, map_map,
    HeadContext.key, map_inj_left]
  refine forall₂_congr fun term member => ?_
  obtain ⟨value, evaluated⟩ := Option.isSome_iff_exists.mp (evaluates.terms term member)
  rw [Function.comp_apply, evaluated, Option.getD_some]
  exact cellAt_groupByIndex_iff columns evaluated

/-- An operand that has a value is planned. -/
theorem HeadContext.exists_planned {context : HeadContext} {row : Row} {value : Cell}
    (found : context.operand? row = some value) : ∃ expr, context.planned = some expr := by
  obtain ⟨node, first, evaluated⟩ := Option.bind_eq_some_iff.mp found
  have converted : ∃ expr, convertExpr node = some expr := by
    unfold HeadContext.value termValue at evaluated
    split at evaluated
    · exact ⟨_, rfl⟩
    · obtain ⟨expr, converted, -⟩ := Option.bind_eq_some_iff.mp evaluated
      exact ⟨expr, converted⟩
  obtain ⟨expr, converted⟩ := converted
  refine ⟨rewriteExprVarsToColumns context.layout.names expr, ?_⟩
  rw [HeadContext.planned, first, Option.bind_some, converted]
  rfl

section Reads

variable {op : ReduceOp} {context : HeadContext} {types : List ColumnType} {row : Row}
  (head : ReducesHead op context) (evaluates : context.Evaluates row)

include head evaluates

/-- What the operator reads for another aggregate than a count. -/
theorem ReducesHead.value_eq (columns : context.layout.length ≤ 2 ^ 32)
    (noCount : context.fn ≠ .count) :
    ∃ result, context.planned.bind (context.exprMeaning row) = some result ∧
      op.value (reduceEnvOf context.outside countDouble) types.length row =
        (result.map fun value => value.cell).mapError fun _ => .erange := by
  obtain ⟨value, found, -⟩ := evaluates.operand noCount
  obtain ⟨expr, planned⟩ := HeadContext.exists_planned found
  obtain ⟨documented, within⟩ := evaluates.planned noCount expr planned
  obtain ⟨result, documented⟩ := Option.isSome_iff_exists.mp documented
  have coded := head.expr
  rw [planned] at coded
  obtain ⟨code, serialized, same⟩ := Option.map_eq_some_iff.mp coded
  refine ⟨result, by rw [planned]; exact documented, ?_⟩
  rw [ReduceOp.value, ← same, ← evalExpr_eq_exprValue columns serialized documented within]
  exact if_neg (head.fn ▸ noCount)

/-- **The operator makes of a row what the head says exactly when the row is read so.** -/
theorem ReducesHead.aligned_iff (width : row.cells.length = types.length)
    (canonical : FloatCanonical types row) (columns : types.length = context.layout.length)
    (few : context.layout.length ≤ 2 ^ 32) :
    Aligned (reduceEnvOf context.outside countDouble) op context types row ↔
      context.Reads types row := by
  have groups := head.terms_iff width canonical columns evaluates
  have operand (noCount : context.fn ≠ .count) :
      (∃ value, op.value (reduceEnvOf context.outside countDouble) types.length row = .ok value ∧
        op.SameValue value (context.operand row)) ↔
      ∃ value, context.planned.bind (context.exprMeaning row) = some (.ok value) ∧
        context.aggregator.SameValue value.cell (context.operand row) := by
    obtain ⟨result, documented, read⟩ :=
      @ReducesHead.value_eq countDouble op context types row head evaluates few noCount
    rw [documented, read, head.sameValue]
    cases result with
    | error failure => simp [Except.map, Except.mapError]
    | ok value => simp [Except.map, Except.mapError]
  have counted (count : context.fn = .count) :
      op.value (reduceEnvOf context.outside countDouble) types.length row = .ok 1 ↔
        ((headTerms context.rule).length < types.length →
          cellAt row (headTerms context.rule).length = 1) := by
    have terms : op.groupBy.length = (headTerms context.rule).length := by
      rw [head.groupBy, length_map]
    rw [op.value_count (head.fn.trans count), ReduceOp.value.unevaluated, terms, Except.ok.injEq]
    by_cases inside : (headTerms context.rule).length < types.length <;> simp [inside]
  constructor
  · rintro ⟨terms, read, ones⟩
    exact ⟨groups.mp terms, fun noCount => (operand noCount).mp (read (head.fn ▸ noCount)),
      fun count float => (counted count).mp (ones (head.fn.trans count) (head.operand.trans float))⟩
  · rintro ⟨terms, read, ones⟩
    exact ⟨groups.mpr terms,
      fun noCount => (operand (head.fn ▸ noCount)).mpr (read (head.fn ▸ noCount)),
      fun count float =>
        (counted (head.fn ▸ count)).mpr (ones (head.fn ▸ count) (head.operand ▸ float))⟩

end Reads

/-- Removing duplicates from a right result changes nothing. -/
theorem HeadRight.consolidate {env : ReduceEnv} {op : ReduceOp}
    {items : List (List Cell × Cell)} {result : Except EvalError Table}
    (right : HeadRight env op rule items result) :
    HeadRight env op rule items (result.map opConsolidate) := by
  cases result with
  | error e => exact right
  | ok out =>
    have same : out.rows.dedup = out.rows := right.2.1.of_map.dedup
    change HeadRight env op rule items (.ok (opConsolidate out))
    simpa [HeadRight, opConsolidate, same] using right

end Accepted

/-! ## Two heads -/

/-- A program with relations of one and of two integer columns. -/
def countingProgram : Program :=
  ⟨[⟨"e", true, [{ type := .int64 }, { type := .int64 }]⟩, ⟨"n", true, [{ type := .int64 }]⟩,
    ⟨"p", true, [{ type := .int64 }, { type := .int64 }]⟩], fun _ => none⟩

/-- The machine without strings and floats. -/
def countingMachine : Machine := reducingMachine plainOutside fun _ => 0

/-- `p(x, count(y)) :- e(x, y).` -/
def degreeRule : RuleNode :=
  ⟨"p", [.variable "x", .aggregate .count [.variable "y"]],
    [.atom "e" [.variable "x", .variable "y"]]⟩

/-- What the head of `degreeRule` is evaluated on. -/
def degreeContext : HeadContext :=
  ⟨plainOutside, none, [(some "x", .scalar), (some "y", .scalar)], degreeRule, .count,
    [.variable "y"]⟩

/-- The operator of `degreeRule`. -/
def degreeOp : ReduceOp := ⟨.count, [0], some (.var .plain 1), .scalar, some 1⟩

/-- `p(1, count(x)) :- n(x).` -/
def constantRule : RuleNode :=
  ⟨"p", [.integer 1, .aggregate .count [.variable "x"]], [.atom "n" [.variable "x"]]⟩

/-- The numbers five and six. -/
def numbers : Database := fun name =>
  if name = "n" then some (.untyped 1 [⟨[5]⟩, ⟨[6]⟩] (by simp)) else none

/-- What the head of `constantRule` is evaluated on. -/
def constantContext : HeadContext :=
  ⟨plainOutside, none, [(some "x", .scalar)], constantRule, .count, [.variable "x"]⟩

end Wirelog.Plan

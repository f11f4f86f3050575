import Wirelog.Foundations.Traversal
import Wirelog.Plan.Generate

/-!
# Evaluation of plans

The operators of a plan work on a stack of tables: a table has typed columns and rows of
64-bit cells. Expressions run on a stack of their own, of 64 entries, where a push beyond the
last entry is lost and an operation that finds too few operands takes zeros for them.

The operations on cells that this development says nothing about (arithmetic, digests, string
functions, callbacks of extensions) and the aggregates are parameters of the evaluation. This
is the evaluation of a relation outside a recursive stratum: no operator reads a delta.
-/

set_option autoImplicit false

namespace Wirelog.Plan

open Wirelog.IR Wirelog.Columnar Wirelog.Foundations List

/-! ## Tables -/

variable (left right : List ColumnType)

def sameFloats : Bool :=
  left.map (fun type => decide (type = .float)) = right.map fun type => decide (type = .float)

/-- A relation as the operators see it: the types of its columns, and rows that have a cell
for each column and canonical floats. -/
structure Table where
  types : List ColumnType
  rows : List Row
  width : ∀ row ∈ rows, row.cells.length = types.length
  canonical : ∀ row ∈ rows, FloatCanonical types row

/-- The contents of the relations of a session, by name. -/
abbrev Database := String → Option Table

/-- The cell of a column, zero beyond the last one. -/
def cellAt (row : Row) (column : Nat) : Cell := row.cells.getD column 0

variable (types : List ColumnType)

/-- The type of a column, 64-bit integers beyond the last one. -/
def typeOf (column : Nat) : ColumnType := types.getD column .int64

namespace Table

def filter (table : Table) (test : Row → Bool) : Table where
  types := table.types
  rows := table.rows.filter test
  width := fun row member => table.width row (mem_of_mem_filter member)
  canonical := fun row member => table.canonical row (mem_of_mem_filter member)

/-- A table without rows. -/
def empty : Table := ⟨types, [], by simp, by simp⟩

/-- Rows without recorded types, each with `count` cells. -/
def untyped (count : Nat) (rows : List Row) (width : ∀ row ∈ rows, row.cells.length = count) :
    Table where
  types := List.replicate count .int64
  rows := rows
  width := by simpa using width
  canonical := by
    intro row _ i float
    rw [List.getElem?_replicate] at float
    split_ifs at float
    cases float

end Table

theorem floatCanonical_append {left right : List ColumnType} {row next : Row}
    (width : row.cells.length = left.length) (here : FloatCanonical left row)
    (there : FloatCanonical right next) :
    FloatCanonical (left ++ right) ⟨row.cells ++ next.cells⟩ := by
  intro i float cell found
  rw [List.getElem?_append] at float found
  split_ifs at float found with inLeft inRow inRow
  · exact here i float cell found
  · omega
  · omega
  · exact there _ float cell (width ▸ found)

theorem floatCanonical_of_sameFloats {left right : List ColumnType} {row : Row}
    (same : sameFloats left right) (canonical : FloatCanonical right row) :
    FloatCanonical left row := by
  intro i float cell found
  refine canonical i ?_ cell found
  simp only [sameFloats, decide_eq_true_eq] at same
  have positions := congrArg (·[i]?) same
  simp only [List.getElem?_map, float, Option.map_some] at positions
  cases type : right[i]? with
  | none => simp [type] at positions
  | some other => simpa [type, eq_comm] using positions

/-! ## Expressions -/

/-- What the expression stack records about a value. -/
inductive ValueKind where
  | int64
  | bool
  | string (text : String)

/-- An entry of the expression stack. -/
structure Value where
  cell : Cell
  kind : ValueKind := .int64

/-- A truth value as an entry of the expression stack. -/
def Value.ofBool (b : Bool) : Value := ⟨if b then 1 else 0, .int64⟩

/-- Why an expression has no value. A failed extension call ends the evaluation of the plan,
every other failure only rejects the row in a filter. -/
inductive ExprError where
  | malformed
  | extension
  deriving DecidableEq, Repr

/-- The error codes of operators. -/
inductive EvalError where
  | einval
  | enoent
  | erange
  | enomem
  | extension
  deriving DecidableEq, Repr

/-- What the evaluation takes from outside: the intern table, the operations on cells, and the
aggregates. -/
structure Machine where
  intern : String → Cell
  reverse : Cell → Option String
  apply : PlanOpcode → List Value → Except ExprError Value
  reduce : AggFn → List Nat → Option PlanExpr → ColType → Option Nat → Table →
    Except EvalError Table

/-- Comparisons of cells as signed integers. -/
def cmpCells : CmpOp → Cell → Cell → Bool
  | .eq, a, b => a = b
  | .neq, a, b => a ≠ b
  | .lt, a, b => a.toInt < b.toInt
  | .gt, a, b => b.toInt < a.toInt
  | .lte, a, b => a.toInt ≤ b.toInt
  | .gte, a, b => b.toInt ≤ a.toInt

/-- Comparisons of cells as finite doubles. -/
def cmpFloats : CmpOp → Cell → Cell → Bool
  | .eq, a, b => floatCompareBits a b = 0
  | .neq, a, b => floatCompareBits a b ≠ 0
  | .lt, a, b => floatCompareBits a b < 0
  | .gt, a, b => 0 < floatCompareBits a b
  | .lte, a, b => floatCompareBits a b ≤ 0
  | .gte, a, b => 0 ≤ floatCompareBits a b

variable (machine : Machine)

/-- The operations, on as many operands as they take. -/
def applyOp : PlanOpcode → List Value → Except ExprError Value
  | .cmp op, [a, b] => .ok (.ofBool (cmpCells op a.cell b.cell))
  | .cmpFloat op, [a, b] =>
    if floatBitsValid a.cell ∧ floatBitsValid b.cell then
      .ok (.ofBool (cmpFloats op a.cell b.cell))
    else .error .malformed
  | .arith .band, [a, b] => .ok ⟨a.cell &&& b.cell, .int64⟩
  | op, operands => machine.apply op operands

/-- How many operands an operation takes off the stack. -/
def arithArity : ArithOp → Nat
  | .uuid4 => 0
  | .bnot | .hash | .crc32Eth | .crc32Cast | .md5 | .sha1 | .sha256 | .sha512 => 1
  | .add | .sub | .mul | .div | .mod | .band | .bor | .bxor | .shl | .shr | .hmacSha256
  | .uuid5 => 2

/-- How many operands a string function takes off the stack. -/
def strFnArity : StrFn → Nat
  | .strlen | .strOrd | .toUpper | .toLower | .trim | .toString | .toNumber => 1
  | .cat | .contains | .strPrefix | .strSuffix | .uuid5Rfc => 2
  | .substr | .strReplace => 3

/-- How many operands an opcode takes off the stack. An extension call says it itself. -/
def PlanOpcode.arity (count : Nat) : PlanOpcode → Nat
  | .arith op | .arithFloat op | .digest op _ _ => arithArity op
  | .cmp _ | .cmpStr _ | .cmpFloat _ => 2
  | .strFn fn => strFnArity fn
  | .extensionCall _ _ => count
  | .agg _ => 0

/-- `expr_push`: the stack has 64 entries. The top of the stack is the head of the list. -/
def exprPush (stack : List Value) (value : Value) : List Value :=
  if stack.length < 64 then value :: stack else stack

/-- `expr_pop`, several times: the operands in the order they were pushed. -/
def exprPop (count : Nat) (stack : List Value) : List Value :=
  ((List.range count).map fun i => stack.getD i ⟨0, .int64⟩).reverse

/-- Run one operation. Aggregates do nothing here, and the average is no operation at all. -/
def runOpcode (op : PlanOpcode) (count : Nat) (stack : List Value) :
    Except ExprError (List Value) :=
  match op with
  | .agg .avg => .error .malformed
  | .agg _ => .ok stack
  | op =>
    (applyOp machine op (exprPop (op.arity count) stack)).map
      (exprPush (stack.drop (op.arity count)))

def loadVar (row : Row) : VarTag → Nat → Except ExprError Value
  | .plain, column => .ok ⟨cellAt row column, .int64⟩
  | .float, column =>
    if column < row.cells.length ∧ floatBitsValid (cellAt row column) then
      .ok ⟨cellAt row column, .int64⟩
    else .error .malformed
  | .string, column =>
    if column < row.cells.length then
      match machine.reverse (cellAt row column) with
      | some text => .ok ⟨cellAt row column, .string text⟩
      | none => .error .malformed
    else .error .malformed

mutual

/-- `wl_columnar_expr_eval_run_ctx`: run the byte code of an expression on a stack. -/
def runExpr (machine : Machine) (row : Row) : PlanExpr → List Value →
    Except ExprError (List Value)
  | .var tag column, stack => (loadVar machine row tag column).map (exprPush stack)
  | .constInt value, stack => .ok (exprPush stack ⟨value, .int64⟩)
  | .constFloat bits, stack =>
    if floatBitsValid bits then .ok (exprPush stack ⟨bits, .int64⟩) else .error .malformed
  | .constStr value, stack => .ok (exprPush stack ⟨machine.intern value, .string value⟩)
  | .bool value, stack => .ok (exprPush stack ⟨if value then 1 else 0, .bool⟩)
  | .call op args, stack =>
    (runExprs machine row args stack).bind (runOpcode machine op args.length)

/-- Run the operands of an expression. -/
def runExprs (machine : Machine) (row : Row) : List PlanExpr → List Value →
    Except ExprError (List Value)
  | [], stack => .ok stack
  | expr :: rest, stack => (runExpr machine row expr stack).bind (runExprs machine row rest)

end

/-- The value of an expression: what is on top of the stack in the end. -/
def evalExpr (row : Row) (expr : PlanExpr) : Except ExprError Cell :=
  (runExpr machine row expr []).map fun stack => (stack.headD ⟨0, .int64⟩).cell

/-- Whether a row passes a filter; a row on which the expression fails does not. -/
def passes (expr : PlanExpr) (row : Row) : Bool :=
  match evalExpr machine row expr with
  | .ok cell => cell ≠ 0
  | .error _ => false

/-- A comparison of a column with a constant or another column, as `filter_is_simple_cmp`
recognizes it, whose first column does not exist. -/
def comparesMissingColumn (row : Row) : PlanExpr → Bool
  | .call (.cmp _) [.var .plain column, .constInt _]
  | .call (.cmp _) [.var .plain column, .var .plain _] => row.cells.length ≤ column
  | _ => false

/-- Whether a row passes the filter of a right input (`fill_filtered_rel`). -/
def passesRight (expr : Option PlanExpr) (row : Row) : Bool :=
  match expr with
  | none => true
  | some expr => !comparesMissingColumn row expr && passes machine expr row

/-! ## Operators -/

/-- `wl_columnar_value_equal`: cells of different types are never equal. -/
def valueEqual (leftType rightType : ColumnType) (left right : Cell) : Bool :=
  if leftType ≠ rightType then false
  else if leftType = .float then floatCompareBits left right = 0
  else left = right

/-- The columns of a key that exist; a key that does not is column zero
(`col_op_resolve_key`). -/
def resolveKeys (keys : List Nat) : List Nat :=
  keys.map fun key => if key < types.length then key else 0

/-- `col_join_keys_match_rel`. -/
def keysMatch (keys : List (Nat × Nat)) (row other : Row) : Bool :=
  keys.all fun (l, r) =>
    valueEqual (typeOf left l) (typeOf right r) (cellAt row l) (cellAt other r)

/-- `col_join_key_types_compatible`. -/
def keyTypesCompatible (keys : List (Nat × Nat)) : Bool :=
  keys.all fun (l, r) => (typeOf left l = .float) = (typeOf right r = .float)

/-- The key columns of the two sides of a join. -/
def keyPairs (left right : Table) (leftKeys rightKeys : List Nat) : List (Nat × Nat) :=
  (resolveKeys left.types leftKeys).zip (resolveKeys right.types rightKeys)

variable (db : Database)

/-- `col_op_join` without deltas: a relation that does not exist has no rows. -/
def opJoin (rel : Option String) (leftKeys rightKeys : List Nat) (rightFilter : Option PlanExpr)
    (left : Table) : Except EvalError Table :=
  match rel.bind db with
  | none => .ok (.empty left.types)
  | some table =>
    let right := table.filter (passesRight machine rightFilter)
    let keys := keyPairs left right leftKeys rightKeys
    if keyTypesCompatible left.types right.types keys then
      .ok { types := left.types ++ right.types
            rows := left.rows.flatMap fun row =>
              (right.rows.filter (keysMatch left.types right.types keys row)).map
                fun other => ⟨row.cells ++ other.cells⟩
            width := by
              intro joined member
              simp only [mem_flatMap, mem_map, mem_filter] at member
              obtain ⟨row, inLeft, other, ⟨inRight, -⟩, rfl⟩ := member
              simp [left.width row inLeft, right.width other inRight]
            canonical := by
              intro joined member
              simp only [mem_flatMap, mem_map, mem_filter] at member
              obtain ⟨row, inLeft, other, ⟨inRight, -⟩, rfl⟩ := member
              exact floatCanonical_append (left.width row inLeft) (left.canonical row inLeft)
                (right.canonical other inRight) }
    else .error .einval

/-- `col_op_antijoin`: a relation that does not exist removes nothing. -/
def opAntijoin (rel : String) (leftKeys rightKeys : List Nat) (rightFilter : Option PlanExpr)
    (left : Table) : Except EvalError Table :=
  match db rel with
  | none => .ok left
  | some table =>
    let right := table.filter (passesRight machine rightFilter)
    let keys := keyPairs left right leftKeys rightKeys
    if keyTypesCompatible left.types right.types keys then
      .ok (left.filter fun row => !right.rows.any (keysMatch left.types right.types keys row))
    else .error .einval

variable (indices : List Nat)

/-- The cells of a row at some columns, zero for a column that does not exist. -/
def projectRow (row : Row) : Row := ⟨indices.map (cellAt row)⟩

def Table.project (table : Table) : Table where
  types := indices.map (typeOf table.types)
  rows := table.rows.map (projectRow indices)
  width := by
    intro row member
    obtain ⟨source, -, rfl⟩ := mem_map.mp member
    simp [projectRow]
  canonical := by
    intro row member i float cell found
    obtain ⟨source, inTable, rfl⟩ := mem_map.mp member
    simp only [projectRow, List.getElem?_map, Option.map_eq_some_iff] at float found
    obtain ⟨index, atI, float⟩ := float
    obtain ⟨same, atI', rfl⟩ := found
    cases atI.symm.trans atI'
    -- a column that does not exist has no float type, so this one exists
    have typed : table.types[index]? = some .float := by
      simp only [typeOf, getD_eq_getElem?_getD] at float
      cases type : table.types[index]? with
      | none => simp [type] at float
      | some other => simpa [type] using float
    have bound : index < source.cells.length := by
      rw [table.width source inTable]
      exact (List.getElem?_eq_some_iff.mp typed).1
    refine table.canonical source inTable index typed _ ?_
    simp [cellAt, List.getElem?_eq_getElem bound]

/-- `col_op_semijoin`. -/
def opSemijoin (rel : String) (leftKeys rightKeys : List Nat) (rightFilter : Option PlanExpr)
    (indices : List Nat) (left : Table) : Except EvalError Table :=
  match db rel with
  | none => .ok left
  | some table =>
    let right := table.filter (passesRight machine rightFilter)
    let keys := keyPairs left right leftKeys rightKeys
    if keyTypesCompatible left.types right.types keys then
      let kept := left.filter fun row =>
        right.rows.any (keysMatch left.types right.types keys row)
      .ok (if indices = [] then kept else kept.project indices)
    else .error .einval

/-- `wl_columnar_filter_op`. -/
def opFilter (expr : Option PlanExpr) (table : Table) : Except EvalError Table :=
  match expr with
  | none => .ok table
  | some expr =>
    if table.rows.any fun row => evalExpr machine row expr = .error .extension then
      .error .extension
    else .ok (table.filter (passes machine expr))

/-- A cell of a mapped row, from the expression of its column or from the column it copies. -/
def mapCell (row : Row) : Option PlanExpr × Nat → Except ExprError Cell
  | (some expr, _) => evalExpr machine row expr
  | (none, c) => .ok (cellAt row (indices.getD c c))

variable (exprs : Option (List (Option PlanExpr)))

def mapRow (row : Row) : Except EvalError Row :=
  match exprs with
  | none => .ok (projectRow indices row)
  | some exprs =>
    match exprs.zipIdx.mapM (mapCell machine indices row) with
    | .ok cells => .ok ⟨cells⟩
    | .error .malformed => .error .erange
    | .error .extension => .error .extension

def mapWidth : Nat :=
  (exprs.map List.length).getD indices.length

theorem mapRow_width {machine : Machine} {indices : List Nat}
    {exprs : Option (List (Option PlanExpr))} {row mapped : Row}
    (found : mapRow machine indices exprs row = .ok mapped) :
    mapped.cells.length = mapWidth indices exprs := by
  cases exprs with
  | none =>
    cases found
    simp [projectRow, mapWidth]
  | some exprs =>
    simp only [mapRow] at found
    split at found
    · next cells evaluated =>
      cases found
      simpa [mapWidth] using (mapM_eq_ok_iff.mp evaluated).length_eq.symm
    · cases found
    · cases found

/-- `col_op_map`. The columns of the result have no recorded types. -/
def opMap (table : Table) : Except EvalError Table :=
  match mapped : table.rows.mapM (mapRow machine indices exprs) with
  | .error failure => .error failure
  | .ok rows => .ok (.untyped (mapWidth indices exprs) rows fun row member => by
    obtain ⟨source, -, found⟩ := mem_of_mapM_eq_ok mapped member
    exact mapRow_width found)

/-- `col_op_concat` of two tables. A second table without rows only has to be as wide as the
first one. -/
def opConcat (first second : Table) : Except EvalError Table :=
  if first.types.length = second.types.length ∧ second.rows = [] then .ok first
  else if same : sameFloats first.types second.types then
    .ok { types := first.types
          rows := first.rows ++ second.rows
          width := by
            have lengths : first.types.length = second.types.length := by
              simp only [sameFloats, decide_eq_true_eq] at same
              simpa using congrArg List.length same
            intro row member
            rcases mem_append.mp member with member | member
            · exact first.width row member
            rw [lengths]
            exact second.width row member
          canonical := by
            intro row member
            rcases mem_append.mp member with member | member
            · exact first.canonical row member
            · exact floatCanonical_of_sameFloats same (second.canonical row member) }
  else .error .einval

/-- `col_op_consolidate`: every row once. The order of the rows is left open. -/
def opConsolidate (table : Table) : Table where
  types := table.types
  rows := table.rows.dedup
  width := fun row member => table.width row (mem_dedup.mp member)
  canonical := fun row member => table.canonical row (mem_dedup.mp member)

/-! ## Plans -/

def onTop (op : Table → Except EvalError Table) : List Table → Except EvalError (List Table)
  | [] => .error .einval
  | table :: stack => (op table).map (· :: stack)

/-- Evaluate one operator. -/
def evalOp (op : PlanOp) (stack : List Table) : Except EvalError (List Table) :=
  match op with
  | .variable rel => match rel.bind db with
      | none => .error .enoent
      | some table => .ok (table :: stack)
  | .map indices exprs => onTop (opMap machine indices exprs) stack
  | .filter expr => onTop (opFilter machine expr) stack
  | .join rel leftKeys rightKeys rightFilter =>
    onTop (opJoin machine db rel leftKeys rightKeys rightFilter) stack
  | .antijoin rel leftKeys rightKeys rightFilter =>
    onTop (opAntijoin machine db rel leftKeys rightKeys rightFilter) stack
  | .semijoin rel leftKeys rightKeys rightFilter indices =>
    onTop (opSemijoin machine db rel leftKeys rightKeys rightFilter indices) stack
  | .reduce fn groupBy expr operand aggregateIndex =>
    onTop (machine.reduce fn groupBy expr operand aggregateIndex) stack
  | .concat => match stack with
      | second :: first :: rest => (opConcat first second).map (· :: rest)
      | _ => .ok stack
  | .consolidate => onTop (fun table => .ok (opConsolidate table)) stack

/-- Evaluate operators one after the other. -/
def evalOps (ops : List PlanOp) (stack : List Table) : Except EvalError (List Table) :=
  ops.foldlM (fun stack op => evalOp machine db op stack) stack

/-- Evaluate a plan: the table that is left on top of the stack. -/
def evalPlan (ops : List PlanOp) : Except EvalError Table :=
  (evalOps machine db ops []).bind fun stack => match stack with
    | [] => .error .einval
    | table :: _ => .ok table

@[simp] theorem evalOps_cons (op : PlanOp) (ops : List PlanOp) (stack : List Table) :
    evalOps machine db (op :: ops) stack =
      (evalOp machine db op stack).bind (evalOps machine db ops) := rfl

theorem evalOps_append (ops later : List PlanOp) (stack : List Table) :
    evalOps machine db (ops ++ later) stack =
      (evalOps machine db ops stack).bind (evalOps machine db later) := by
  rw [evalOps, foldlM_append]
  rfl

/-- An evaluation without operations on cells. -/
def plainMachine : Machine :=
  ⟨fun _ => 0, fun _ => none, fun _ _ => .error .malformed, fun _ _ _ _ _ _ => .error .einval⟩

end Wirelog.Plan

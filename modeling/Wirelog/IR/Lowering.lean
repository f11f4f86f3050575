import Wirelog.IR.Ast

/-!
# Lowering of rules

A rule becomes a tree of relational operators in five steps: a scan for each positive atom,
wrapped in filters for repeated variables and constants; left-deep joins of the scans on the
variables they share; filters for the conditions; antijoins for the negated atoms; and a
projection or an aggregate for the head. Every step works on the list of the variables that
the columns of the tree so far hold, `none` for a column no variable names.

Positions are written into expressions as the names `col0`, `col1`, …, next to the names of
the rule's own variables.
-/

set_option autoImplicit false

namespace Wirelog.IR

open Wirelog.Columnar (Cell ColumnType)

/-! ## Declarations -/

/-- `wirelog_compound_kind_t`. -/
inductive CompoundKind where
  | none | inline | side
  deriving DecidableEq, Repr

/-- `wirelog_column_t`, with the declared types of the slots of an inline compound. -/
structure Column where
  type : ColumnType
  compoundKind : CompoundKind := .none
  compoundFunctorId : Nat := 0
  compoundArity : Nat := 0
  slotTypes : List (Option ColumnType) := []

/-- `wl_ir_relation_info_t`. -/
structure RelationInfo where
  name : String
  hasDecl : Bool := true
  columns : List Column

/-- What lowering reads of a program: its relations and its intern table. -/
structure Program where
  relations : List RelationInfo
  intern : String → Option Nat

variable (prog : Program)

def findRelationInfo (name : String) : Option RelationInfo :=
  prog.relations.find? (·.name = name)

/-- The declared columns of a relation, none for a relation that is not known. -/
def relationColumns (name : String) : List Column :=
  ((findRelationInfo prog name).map (·.columns)).getD []

def compoundArgMatchesDecl (arg : AstNode) (col : Column) : Bool :=
  match arg with
  | .compoundTerm _ args => col.compoundKind ≠ .none ∧ args.length = col.compoundArity
  | _ => false

/-- `compound_arg_functor_matches`: intern ids are compared as 32-bit numbers. -/
def compoundArgFunctorMatches (arg : AstNode) (col : Column) : Bool :=
  compoundArgMatchesDecl arg col &&
    match arg.nodeName.bind prog.intern with
    | some id => id % 2 ^ 32 = col.compoundFunctorId
    | none => false

variable (columns : List Column)

def declaredColtype (logicalIdx : Nat) : ColType :=
  match columns[logicalIdx]? with
  | none => .unknown
  | some col => if col.compoundKind = .none then .ofColumnType col.type else .unknown

def declaredInlineSlotColtype (logicalIdx slotIdx : Nat) : ColType :=
  match columns[logicalIdx]? with
  | none => .unknown
  | some col =>
    if slotIdx < 4 then ((col.slotTypes[slotIdx]?.join).map .ofColumnType).getD .unknown
    else .unknown

/-- `wl_ir_relation_physical_width`: an inline compound takes a column for each argument. -/
def relationPhysicalWidth : Nat :=
  (columns.map fun col => if col.compoundKind = .inline then col.compoundArity else 1).sum

def atomPhysicalColumnCount (args : List AstNode) : Nat :=
  args.length + ((args.zip columns).map fun (arg, col) =>
    if col.compoundKind = .inline ∧ compoundArgFunctorMatches prog arg col ∧
        0 < col.compoundArity then col.compoundArity - 1 else 0).sum

variable (rule : RuleNode)

/-- `validate_head_arities`, for one rule. -/
def validateHeadArity : Bool :=
  match findRelationInfo prog rule.headName with
  | none => true
  | some rel => !rel.hasDecl || atomPhysicalColumnCount prog rel.columns rule.headArgs =
      relationPhysicalWidth rel.columns

/-! ## Expressions -/

mutual

/-- `convert_expr`. Wildcards, compound terms and atoms have no expression. -/
def convertExpr : AstNode → Option IrExpr
  | .variable name => some (.var name)
  | .integer value => some (.constInt value)
  | .float bits => some (.constFloat bits)
  | .string value => some (.constStr value)
  | .boolean value => some (.bool value)
  | .binaryExpr op args => (convertExprs args).map (.arith op)
  | .comparison op args => (convertFirstTwo args).map (.cmp op)
  | .aggregate fn args => (convertFirst args).map (.agg fn)
  | .strFunction fn args => (convertExprs args).map (.strFn fn)
  | .extensionCall name args => (convertExprs args).map (.extensionCall name)
  | .wildcard | .compoundTerm _ _ | .atom _ _ | .negation _ => none

/-- All children, each of which has to be an expression. -/
def convertExprs : List AstNode → Option (List IrExpr)
  | [] => some []
  | node :: rest => do
      let expr ← convertExpr node
      let exprs ← convertExprs rest
      return expr :: exprs

/-- The two operands of a comparison. -/
def convertFirstTwo : List AstNode → Option (List IrExpr)
  | left :: right :: _ => do
      let leftExpr ← convertExpr left
      let rightExpr ← convertExpr right
      return [leftExpr, rightExpr]
  | _ => some []

/-- The operand of an aggregate. -/
def convertFirst : List AstNode → Option (List IrExpr)
  | node :: _ => (convertExpr node).map ([·])
  | [] => some []

end

/-- The position of the first column that a variable names. -/
def lookupName (names : List (Option String)) (name : String) : Option Nat :=
  names.findIdx? (· = some name)

/-- The name of a position, `col%u`. -/
def colName (i : Nat) : String := "col" ++ toString i

mutual

def rewriteExprVarsToColumns (vars : List (Option String)) : IrExpr → IrExpr
  | .var name => match lookupName vars name with
      | some i => .var (colName i)
      | none => .var name
  | .constInt value => .constInt value
  | .constFloat bits => .constFloat bits
  | .constStr value => .constStr value
  | .bool value => .bool value
  | .arith op args => .arith op (rewriteExprsVarsToColumns vars args)
  | .cmp op args => .cmp op (rewriteExprsVarsToColumns vars args)
  | .agg fn args => .agg fn (rewriteExprsVarsToColumns vars args)
  | .strFn fn args => .strFn fn (rewriteExprsVarsToColumns vars args)
  | .extensionCall name args => .extensionCall name (rewriteExprsVarsToColumns vars args)

/-- The rewriting of several expressions. -/
def rewriteExprsVarsToColumns (vars : List (Option String)) : List IrExpr → List IrExpr
  | [] => []
  | expr :: rest => rewriteExprVarsToColumns vars expr :: rewriteExprsVarsToColumns vars rest

end

/-- `wl_ir_program_constant_expr`. -/
def constantExpr : AstNode → Option IrExpr
  | .integer value => some (.constInt value)
  | .float bits => some (.constFloat bits)
  | .string value => some (.constStr value)
  | _ => none

/-! ## Filters around a scan -/

def wrapFilter (child : IrNode) (expr : IrExpr) : IrNode :=
  .mk { type := .filter, filterExpr := some expr } [child]

/-- Wrap a node in several filters, the first of them innermost. -/
def wrapFilters (child : IrNode) (exprs : List IrExpr) : IrNode :=
  exprs.foldl wrapFilter child

/-- The condition of `wrap_column_cmp_filter`. -/
def columnCmp (leftCol : Nat) (rightExpr : IrExpr) : IrExpr :=
  .cmp .eq [.var (colName leftCol), rightExpr]

/-- The conditions of `wrap_duplicate_var_filters`, for every pair of columns with one name. -/
def duplicateVarFilters (names : List (Option String)) : List IrExpr :=
  (List.range names.length).flatMap fun i => (List.range names.length).filterMap fun j =>
    if i < j ∧ names[i]?.join ≠ none ∧ names[i]? = names[j]? then
      some (columnCmp i (.var (colName j)))
    else none

/-- The conditions for the constants among the arguments, the first of which is in column
`first`. -/
def constantFilters (first : Nat) (args : List AstNode) : List IrExpr :=
  (args.zipIdx first).filterMap fun (arg, i) => (constantExpr arg).map (columnCmp i)

/-! ## Scans of atoms -/

/-- `side_compound_binding_t`: a compound pattern that is matched in a side relation, and the
made-up variable that holds its handle. -/
structure SideBinding where
  functor : String
  args : List AstNode
  handleVar : String

/-- A scan with the filters around it, innermost first, and its side compounds. -/
structure AtomScan where
  op : IrOp
  filters : List IrExpr
  sideBindings : List SideBinding := []

def AtomScan.names (scan : AtomScan) : List (Option String) := scan.op.columnNames

def AtomScan.node (scan : AtomScan) : IrNode := wrapFilters (.mk scan.op []) scan.filters

/-- `make_side_handle_var`. The source tells atoms apart by address, the model by their
position in the body. No identifier starts with the character the name starts with. -/
def makeSideHandleVar (position colIdx : Nat) : String :=
  "$compound_handle_" ++ toString position ++ "_" ++ toString colIdx

/-- `make_side_relation_name`: the name has to fit a buffer of 96 bytes. -/
def makeSideRelationName (functor : String) (arity : Nat) : Option String :=
  let name := "__compound_" ++ functor ++ "_" ++ toString arity
  if arity = 0 ∨ 96 ≤ name.utf8ByteSize then none else some name

/-- A physical column of a scan: the argument it comes from, its variable and its type. -/
structure Slot where
  arg : AstNode
  name : Option String
  type : ColType
  sideBinding : Option SideBinding := none

/-- The columns of one argument. A matching inline compound has a column for each of its
arguments; every other argument has one. -/
def argSlots (position i : Nat) (arg : AstNode) : List Slot :=
  match arg with
  | .variable name => [⟨arg, some name, declaredColtype columns i, none⟩]
  | .compoundTerm functor args =>
    match columns[i]? with
    | none => [⟨arg, none, declaredColtype columns i, none⟩]
    | some col =>
      if col.compoundKind = .inline ∧ compoundArgFunctorMatches prog arg col then
        args.zipIdx.map fun (child, c) =>
          ⟨child, child.variableName, declaredInlineSlotColtype columns i c, none⟩
      else if col.compoundKind = .side ∧ compoundArgFunctorMatches prog arg col then
        let handle := makeSideHandleVar position i
        [⟨arg, some handle, .scalar, some ⟨functor, args, handle⟩⟩]
      else [⟨arg, none, declaredColtype columns i, none⟩]
  | _ => [⟨arg, none, declaredColtype columns i, none⟩]

def atomSlots (position : Nat) (args : List AstNode) : List Slot :=
  args.zipIdx.flatMap fun (arg, i) => argSlots prog columns position i arg

def isCompoundPattern (arg : AstNode) (col : Column) : Bool :=
  match arg with
  | .compoundTerm _ _ => col.compoundKind ≠ .none
  | _ => false

/-- `compound_mismatch`: some compound pattern does not fit the compound it is matched with. -/
def compoundMismatch (args : List AstNode) : Bool :=
  (args.zip columns).any fun (arg, col) =>
    isCompoundPattern arg col && !compoundArgFunctorMatches prog arg col

/-- The kind of the scan: the first compound pattern before a mismatch annotates it. -/
def scanType : List (AstNode × Column) → NodeType
  | [] => .scan
  | (arg, col) :: rest =>
    if ¬ isCompoundPattern arg col then scanType rest
    else if ¬ compoundArgFunctorMatches prog arg col then .scan
    else if col.compoundKind = .inline then
      if col.compoundArity = 0 then scanType rest else .compoundInline
    else .compoundSide

def buildAtomScan (position : Nat) (name : String) (args : List AstNode) : AtomScan :=
  let columns := relationColumns prog name
  let slots := atomSlots prog columns position args
  let names := slots.map (·.name)
  { op := { type := scanType prog (args.zip columns), relationName := some name,
            columnNames := names, columnTypes := slots.map (·.type) }
    filters := (if compoundMismatch prog columns args then [.bool false] else []) ++
      duplicateVarFilters names ++ constantFilters 0 (slots.map (·.arg))
    sideBindings := slots.filterMap (·.sideBinding) }

def isCompoundTerm : AstNode → Bool
  | .compoundTerm _ _ => true
  | _ => false

/-- `build_side_compound_scan`: a scan of the side relation of a compound, with the handle in
its first column. A pattern inside the pattern never matches. -/
def buildSideCompoundScan (binding : SideBinding) : Option AtomScan :=
  (makeSideRelationName binding.functor binding.args.length).map fun name =>
    let names := some binding.handleVar :: binding.args.map (·.variableName)
    { op := { type := .scan, relationName := some name, columnNames := names,
              columnTypes := .scalar :: binding.args.map fun _ => .unknown }
      filters := duplicateVarFilters names ++ constantFilters 1 binding.args ++
        (if binding.args.any isCompoundTerm then [.bool false] else []) }

/-! ## Pushing equalities with constants into the scans -/

/-- `wl_ir_program_extract_var_const_eq`. -/
def extractVarConstEq : AstNode → Option (String × IrExpr)
  | .comparison .eq (left :: right :: _) =>
    match left.variableName, constantExpr right with
    | some name, some constant => some (name, constant)
    | _, _ => match right.variableName, constantExpr left with
        | some name, some constant => some (name, constant)
        | _, _ => none
  | _ => none

/-- `wl_ir_program_push_constant_filter_to_scan`: the filters that a literal of the body puts
around a scan. -/
def pushedFilters (names : List (Option String)) (literal : AstNode) : List IrExpr :=
  match extractVarConstEq literal with
  | none => []
  | some (name, constant) => names.zipIdx.filterMap fun (column, i) =>
    if column = some name then some (columnCmp i constant) else none

/-- `wl_ir_program_push_constant_filters`, for one scan. -/
def pushConstantFilters (body : List AstNode) (scan : AtomScan) : AtomScan :=
  { scan with filters := scan.filters ++ body.flatMap (pushedFilters scan.names) }

/-! ## Joins -/

/-- A tree, with the variables that its columns hold. -/
structure Body where
  node : IrNode
  vars : List (Option String)

/-- `setup_join_keys`: each variable of the left side that also names a column on the right,
once. -/
def setupJoinKeys (left right : List (Option String)) : List String :=
  left.zipIdx.filterMap fun (name, i) =>
    if name ∈ left.take i then none else if name ∈ right then name else none

/-- Combine a tree and a scan on the variables they share. -/
def combine (type : NodeType) (current : Body) (scan : AtomScan) : IrNode :=
  let keys := setupJoinKeys current.vars scan.names
  .mk { type := type, joinLeftKeys := keys, joinRightKeys := keys } [current.node, scan.node]

def joinScan (current : Body) (scan : AtomScan) : Body :=
  ⟨combine .join current scan, current.vars ++ scan.names⟩

/-- Why a rule is not lowered. -/
inductive LowerError where
  | headArity
  | multipleAggregates (count : Nat)
  | extensionBeforeScan (call : String)
  | sideCompound (functor : String)
  | conversion
  | negatedExtension (call : String)
  | negatedSideCompound (rel : String)
  | unsafeVariable (variableName rel : String)
  deriving DecidableEq, Repr

/-- One round of `attach_side_compound_joins`. -/
def attachSideCompound (current : Body) (binding : SideBinding) : Except LowerError Body :=
  match buildSideCompoundScan binding with
  | none => .error (.sideCompound binding.functor)
  | some scan =>
    if setupJoinKeys current.vars scan.names = [] then .error (.sideCompound binding.functor)
    else .ok (joinScan current scan)

def attachSideCompoundJoins (current : Body) (bindings : List SideBinding) :
    Except LowerError Body :=
  bindings.foldlM attachSideCompound current

/-- The second step: the left-deep join of the scans, each followed by its side compounds. -/
def joinScans : List AtomScan → Except LowerError (Option Body)
  | [] => .ok none
  | first :: rest => do
      let current ← attachSideCompoundJoins ⟨first.node, first.names⟩ first.sideBindings
      let joined ← rest.foldlM
        (fun body scan => attachSideCompoundJoins (joinScan body scan) scan.sideBindings) current
      return some joined

/-! ## Single rules -/

/-- The first step: a scan for each positive atom. An extension call has to come after one. -/
def collectScans : Nat → Bool → List AstNode → Except LowerError (List AtomScan)
  | _, _, [] => .ok []
  | position, scanned, .extensionCall name _ :: rest =>
    if scanned then collectScans (position + 1) scanned rest
    else .error (.extensionBeforeScan name)
  | position, _, .atom name args :: rest => do
      let scans ← collectScans (position + 1) true rest
      return buildAtomScan prog position name args :: scans
  | position, scanned, _ :: rest => collectScans (position + 1) scanned rest

/-- The third step for one literal: the filter it becomes, if any. -/
def conditionFilter : AstNode → Except LowerError (List IrExpr)
  | .boolean value => .ok (if value then [] else [.bool false])
  | .comparison op args => match convertExpr (.comparison op args) with
      | some expr => .ok [expr]
      | none => .error .conversion
  | .strFunction fn args => match convertExpr (.strFunction fn args) with
      | some expr => .ok [expr]
      | none => .error .conversion
  | .extensionCall name args => match convertExpr (.extensionCall name args) with
      | some expr => .ok [expr]
      | none => .error .conversion
  | _ => .ok []

/-- The third step. Without a positive atom there is nothing to filter, and the conditions are
passed over. -/
def addFilters (body : List AstNode) : Option Body → Except LowerError (Option Body)
  | none => .ok none
  | some current => do
      let exprs ← body.mapM conditionFilter
      return some ⟨wrapFilters current.node exprs.flatten, current.vars⟩

def atomHasDeclaredSideCompoundPattern (name : String) (args : List AstNode) : Bool :=
  (args.zip (relationColumns prog name)).any fun (arg, col) =>
    isCompoundTerm arg && col.compoundKind = .side

/-- The first variable of a scan that the tree so far has no column for. -/
def unboundName (bound : List (Option String)) (names : List (Option String)) :
    Option String :=
  (names.find? fun name => name ≠ none ∧ name ∉ bound).join

/-- What the fourth step makes of a literal. -/
inductive NegatedLiteral where
  | call (name : String)
  | atom (name : String) (args : List AstNode)
  | other

def negatedLiteral : AstNode → NegatedLiteral
  | .negation (.extensionCall name _ :: _) => .call name
  | .negation (.atom name args :: _) => .atom name args
  | _ => .other

variable (current : Option Body)

/-- The fourth step for one literal. Without a positive atom negated atoms are passed over. -/
def addAntijoin (literal : AstNode × Nat) : Except LowerError (Option Body) :=
  match negatedLiteral literal.1 with
  | .call name => .error (.negatedExtension name)
  | .atom name args =>
    match current with
    | none => .ok none
    | some body =>
      if atomHasDeclaredSideCompoundPattern prog name args then
        .error (.negatedSideCompound name)
      else
        let scan := buildAtomScan prog literal.2 name args
        match unboundName body.vars scan.names with
        | some variableName => .error (.unsafeVariable variableName name)
        | none => .ok (some ⟨combine .antijoin body scan, body.vars⟩)
  | .other => .ok current

/-- The column of a head argument next to an aggregate. An argument that is not the name of a
column stands for the column at its own position. -/
def groupByIndex (vars : List (Option String)) (arg : AstNode) (i : Nat) : Nat :=
  ((arg.nodeName.bind (lookupName vars)).getD i)

/-- The fifth step for a head with an aggregate. -/
def aggregateRoot (fn : AggFn) (args : List AstNode) : Except LowerError IrNode :=
  let vars := (current.map (·.vars)).getD []
  match convertFirst args with
  | none => .error .conversion
  | some exprs => .ok (.mk
      { type := .aggregate, relationName := some rule.headName, columnNames := vars,
        aggFn := fn, aggExpr := exprs.head?.map (rewriteExprVarsToColumns vars),
        groupByIndices := (rule.headArgs.zipIdx.filter (!·.1.isAggregate)).map
          fun (arg, i) => groupByIndex vars arg i,
        aggregateIndex := some (rule.headArgs.findIdx (·.isAggregate)) }
      (current.map (·.node)).toList)

/-- The fifth step for a head without an aggregate. -/
def projectRoot : Except LowerError IrNode :=
  match convertExprs rule.headArgs with
  | none => .error .conversion
  | some exprs => .ok (.mk
      { type := .project, relationName := some rule.headName,
        projectCount := rule.headArgs.length,
        projectExprs := if exprs.isEmpty then none else some exprs }
      (current.map (·.node)).toList)

/-- The function and the operands of an aggregate. -/
def aggregateParts : AstNode → Option (AggFn × List AstNode)
  | .aggregate fn args => some (fn, args)
  | _ => none

def headAggregate : Option (AggFn × List AstNode) :=
  rule.headArgs.findSome? aggregateParts

/-- The fifth step. -/
def lowerHead : Except LowerError IrNode :=
  match headAggregate rule with
  | some (fn, args) => aggregateRoot rule current fn args
  | none => projectRoot rule current

/-- `convert_rule`, after `validate_head_arities`. -/
def convertRule : Except LowerError IrNode := do
  if !validateHeadArity prog rule then throw .headArity
  let aggregates := rule.headArgs.countP (·.isAggregate)
  if 1 < aggregates then throw (.multipleAggregates aggregates)
  let scans ← collectScans prog 0 false rule.body
  let joined ← joinScans (scans.map (pushConstantFilters rule.body))
  let filtered ← addFilters rule.body joined
  let current ← rule.body.zipIdx.foldlM (addAntijoin prog) filtered
  lowerHead rule current

end Wirelog.IR

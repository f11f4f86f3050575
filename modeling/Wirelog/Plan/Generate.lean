import Wirelog.IR.Lowering

/-!
# Plan generation

An operator tree becomes a list of operators for a stack machine. Expressions are resolved
against the layout of the columns they are evaluated over: a variable becomes the position of
the first column it names. A name that no column has is emitted as it is, and the evaluator
reads a position from the digits after `col`, or position zero.

The byte code of an expression is kept as a tree, with the position the evaluator reads at
each variable.
-/

set_option autoImplicit false

namespace Wirelog.Plan

open Wirelog.IR
open Wirelog.Columnar (Cell)

/-! ## Names of positions -/

/-- The number that a run of decimal digits stands for. -/
def digitsValue (digits : List Char) : Nat :=
  digits.foldl (fun value digit => 10 * value + (digit.toNat - '0'.toNat)) 0

/-- The position that a name spells out: `col` and then digits only. -/
def positionalIndex (name : String) : Option Nat :=
  match name.toList with
  | 'c' :: 'o' :: 'l' :: digits =>
    if digits ≠ [] ∧ digits.all Char.isDigit then some (digitsValue digits) else none
  | _ => none

/-- What fits the 16-bit length of a name or a string in the byte code. -/
def truncate16 (s : String) : String := String.ofList (s.toList.take (s.length % 2 ^ 16))

/-- The column that the evaluator reads for an emitted name: it copies 15 characters after
`col` and reads the digits at their start as a 32-bit number. Every other name is column
zero. -/
def varColumn (name : String) : Nat :=
  match name.toList with
  | 'c' :: 'o' :: 'l' :: rest => digitsValue ((rest.take 15).takeWhile Char.isDigit) % 2 ^ 32
  | _ => 0

/-! ## Layouts -/

/-- The columns of an intermediate result: the variable each one holds, if any, and its
type. -/
abbrev Layout := List (Option String × ColType)

variable (layout : Layout)

def Layout.names : List (Option String) := layout.map (·.1)

/-- `col_ctx_type_at`. -/
def Layout.typeAt (idx : Nat) : ColType :=
  (layout[idx]?.map (·.2)).getD .unknown

/-- `col_ctx_lookup_type`. -/
def Layout.lookupType (name : String) : ColType :=
  match lookupName layout.names name with
  | some c => layout.typeAt c
  | none => match positionalIndex name with
      | some idx => layout.typeAt idx
      | none => .unknown

/-- The column read for a variable. -/
def Layout.column (name : String) : Nat :=
  match lookupName layout.names name with
  | some c => c
  | none => varColumn (truncate16 name)

def scanLayout (op : IrOp) : Layout :=
  op.columnNames.zipIdx.map fun (name, i) => (name, op.columnTypes.getD i .unknown)

mutual

def collectOutputColumns : IrNode → Option Layout
  | .mk op children => match op.type with
      | .scan | .compoundInline | .compoundSide => some (scanLayout op)
      | .antijoin => collectFirst children
      | .semijoin => do
          let left ← collectFirst children
          return match op.projectIndices with
            | some indices =>
              if 0 < op.projectCount then indices.map fun idx => left.getD idx (none, .unknown)
              else left
            | none => left
      | .join => collectJoin children
      | .project =>
        if op.projectExprs.isNone ∧ op.columnNames ≠ [] then do
          let child ← collectFirst children
          return op.columnNames.zipIdx.map fun (name, i) =>
            (name, match op.projectIndices.bind (·[i]?) with
              | some idx => child.typeAt idx
              | none => (name.map child.lookupType).getD .unknown)
        else collectFirst children
      | .filter | .flatmap | .aggregate | .union => collectFirst children

def collectFirst : List IrNode → Option Layout
  | [] => none
  | child :: _ => collectOutputColumns child

/-- The columns of a join: those of the left child, then those of the right one. -/
def collectJoin : List IrNode → Option Layout
  | [] => none
  | [left] => collectOutputColumns left
  | left :: right :: _ => do
      let leftLayout ← collectOutputColumns left
      let rightLayout ← collectOutputColumns right
      return leftLayout ++ rightLayout

end

/-! ## Operations of the byte code -/

/-- The operations that the byte code applies to the values of their operands. -/
inductive PlanOpcode where
  | arith (op : ArithOp)
  | arithFloat (op : ArithOp)
  /-- A digest, with the operands whose string is digested and not its id. -/
  | digest (op : ArithOp) (first second : Bool)
  | cmp (op : CmpOp)
  | cmpStr (op : CmpOp)
  | cmpFloat (op : CmpOp)
  | agg (fn : AggFn)
  | strFn (fn : StrFn)
  | extensionCall (name : String) (abi : Option (Nat × Nat))
  deriving DecidableEq, Repr

/-- How a variable is loaded. -/
inductive VarTag where
  | plain | string | float
  deriving DecidableEq, Repr

inductive PlanExpr where
  | var (tag : VarTag) (column : Nat)
  | constInt (value : Cell)
  | constFloat (bits : Cell)
  | constStr (value : String)
  | bool (value : Bool)
  | call (op : PlanOpcode) (args : List PlanExpr)

def arithOpIsDigest : ArithOp → Bool
  | .hash | .crc32Eth | .crc32Cast | .md5 | .sha1 | .sha256 | .sha512 | .hmacSha256 | .uuid5 =>
    true
  | _ => false

/-- The digests of two operands. -/
def arithOpIsBinaryDigest : ArithOp → Bool
  | .hmacSha256 | .uuid5 => true
  | _ => false

/-- `arith_to_tag`, where `none` is the tag zero. -/
def arithToTag (op : ArithOp) (t0 t1 : ColType) : Option PlanOpcode :=
  if arithOpIsDigest op then
    some (.digest op (t0 = .string) (arithOpIsBinaryDigest op && t1 = .string))
  else if t0 = .float ∧ t1 = .float then
    match op with
    | .add | .sub | .mul | .div => some (.arithFloat op)
    | _ => none
  else some (.arith op)

/-- `cmp_to_tag`, with the float comparisons that `serialize_expr` picks before it. -/
def cmpToTag (op : CmpOp) (lhs rhs : ColType) : PlanOpcode :=
  if lhs = .float ∧ rhs = .float then .cmpFloat op
  else if (op ≠ .eq ∧ op ≠ .neq) ∧ lhs = .string ∧ rhs = .string then .cmpStr op
  else .cmp op

def strFnReturnsString : StrFn → Bool
  | .cat | .substr | .toUpper | .toLower | .strReplace | .trim | .toString | .uuid5Rfc => true
  | .strlen | .contains | .strPrefix | .strSuffix | .strOrd | .toNumber => false

/-! ## Expressions -/

/-- What a snapshot of the extensions says about one of them. -/
structure ExtensionDescriptor where
  addonAbiIdentity : Nat
  addonAbiVersion : Nat

/-- `wirelog_extension_snapshot_t`. -/
abbrev Snapshot := String → Option ExtensionDescriptor

mutual

def exprResultType (layout : Layout) : IrExpr → ColType
  | .var name => layout.lookupType name
  | .constStr _ => .string
  | .constInt _ | .bool _ | .cmp _ _ | .agg _ _ | .extensionCall _ _ => .scalar
  | .constFloat _ => .float
  | .arith _ args => if args ≠ [] ∧ allFloat layout args then .float else .scalar
  | .strFn fn _ => if strFnReturnsString fn then .string else .scalar

/-- Whether every operand is a float. -/
def allFloat (layout : Layout) : List IrExpr → Bool
  | [] => true
  | expr :: rest => exprResultType layout expr = .float && allFloat layout rest

end

/-- The type of the operand at a position, unknown for one that does not exist. -/
def operandType (args : List IrExpr) (i : Nat) : ColType :=
  (args[i]?.map (exprResultType layout)).getD .unknown

/-- How a variable of a type is loaded. -/
def varTag (extensionArg : Bool) (type : ColType) : VarTag :=
  if type = .float then .float else if extensionArg ∧ type = .string then .string else .plain

variable (snapshot : Option Snapshot)

/-- The opcode of an extension call. With a snapshot the extension has to be in it, with
complete data about its interface or none. -/
def extensionOpcode (name : String) : Option PlanOpcode :=
  match snapshot with
  | none => some (.extensionCall name none)
  | some find => match find name with
      | none => none
      | some found =>
        if (found.addonAbiIdentity = 0) ≠ (found.addonAbiVersion = 0) then none
        else if found.addonAbiIdentity = 0 then some (.extensionCall name none)
        else some (.extensionCall name (some (found.addonAbiIdentity, found.addonAbiVersion)))

/-- How byte code is written down: as a tree, or as bytes. -/
structure ExprWriter (Code : Type) where
  var : VarTag → String → Code
  constInt : Cell → Code
  constFloat : Cell → Code
  constStr : String → Code
  bool : Bool → Code
  call : PlanOpcode → List Code → Code

mutual

/-- `serialize_expr`. -/
def writeExpr {Code : Type} (writer : ExprWriter Code) (snapshot : Option Snapshot)
    (layout : Layout) (extensionArg : Bool) : IrExpr → Option Code
  | .var name => some (writer.var (varTag extensionArg (layout.lookupType name)) name)
  | .constInt value => some (writer.constInt value)
  | .constFloat bits => some (writer.constFloat bits)
  | .constStr value => some (writer.constStr value)
  | .bool value => some (writer.bool value)
  | .extensionCall name args =>
    if 2 ^ 16 ≤ name.length then none else do
      let operands ← writeExprs writer snapshot layout true args
      let op ← extensionOpcode snapshot name
      return writer.call op operands
  | .arith op args =>
    let t0 := operandType layout args 0
    let t1 := operandType layout args 1
    if (t0 = .float) ≠ (t1 = .float) then none else do
      let operands ← writeExprs writer snapshot layout false args
      let tag ← arithToTag op t0 t1
      return writer.call tag operands
  | .cmp op args =>
    let lhs := operandType layout args 0
    let rhs := operandType layout args 1
    if (lhs = .float) ≠ (rhs = .float) then none else do
      let operands ← writeExprs writer snapshot layout false args
      return writer.call (cmpToTag op lhs rhs) operands
  | .agg fn args => do
      let operands ← writeExprs writer snapshot layout false args
      return writer.call (.agg fn) operands
  | .strFn fn args => do
      let operands ← writeExprs writer snapshot layout false args
      return writer.call (.strFn fn) operands

def writeExprs {Code : Type} (writer : ExprWriter Code) (snapshot : Option Snapshot)
    (layout : Layout) (extensionArg : Bool) : List IrExpr → Option (List Code)
  | [] => some []
  | expr :: rest => do
      let operand ← writeExpr writer snapshot layout extensionArg expr
      let operands ← writeExprs writer snapshot layout extensionArg rest
      return operand :: operands

end

/-- Byte code as a tree. -/
abbrev treeWriter (layout : Layout) : ExprWriter PlanExpr where
  var tag name := .var tag (layout.column name)
  constInt := .constInt
  constFloat := .constFloat
  constStr value := .constStr (truncate16 value)
  bool := .bool
  call := .call

def serializeExpr (snapshot : Option Snapshot) (layout : Layout) :
    Bool → IrExpr → Option PlanExpr :=
  writeExpr (treeWriter layout) snapshot layout

def serializeExprs (snapshot : Option Snapshot) (layout : Layout) :
    Bool → List IrExpr → Option (List PlanExpr) :=
  writeExprs (treeWriter layout) snapshot layout

mutual

def exprContainsExtensionCall : IrExpr → Bool
  | .extensionCall _ _ => true
  | .arith _ args | .cmp _ args | .agg _ args | .strFn _ args => anyExtensionCall args
  | .var _ | .constInt _ | .constFloat _ | .constStr _ | .bool _ => false

def anyExtensionCall : List IrExpr → Bool
  | [] => false
  | expr :: rest => exprContainsExtensionCall expr || anyExtensionCall rest

end

def exprIsDirectExtensionCall : IrExpr → Bool
  | .extensionCall _ args => !anyExtensionCall args
  | _ => false

/-- An extension call is evaluated only on its own, never inside another expression. -/
def extensionCallsDirect (expr : IrExpr) : Bool :=
  !exprContainsExtensionCall expr || exprIsDirectExtensionCall expr

/-! ## Operators -/

/-- `wl_plan_op_t`, as rules use it. -/
inductive PlanOp where
  | variable (rel : Option String)
  /-- A column without an expression is copied. -/
  | map (indices : List Nat) (exprs : Option (List (Option PlanExpr)))
  | filter (expr : Option PlanExpr)
  | join (right : Option String) (leftKeys rightKeys : List Nat) (rightFilter : Option PlanExpr)
  | antijoin (right : String) (leftKeys rightKeys : List Nat) (rightFilter : Option PlanExpr)
  | semijoin (right : String) (leftKeys rightKeys : List Nat) (rightFilter : Option PlanExpr)
      (indices : List Nat)
  | reduce (fn : AggFn) (groupBy : List Nat) (expr : Option PlanExpr) (operand : ColType)
      (aggregateIndex : Option Nat)
  | concat
  | consolidate

/-- `resolve_key_to_colN`: a key is the name of a column, or spells out a position that
exists. -/
def resolveKeyToColN (key : String) : Option Nat :=
  match lookupName layout.names key with
  | some c => some c
  | none => (positionalIndex key).filter (· < layout.length)

/-- `resolve_keys_to_colN`: without keys the layout does not matter. -/
def resolveKeysToColN (layout : Option Layout) (keys : List String) : Option (List Nat) :=
  if keys = [] then some []
  else layout.bind fun columns => keys.mapM (resolveKeyToColN columns)

/-- `resolve_project_indices`: the column of each expression that is a variable, and its own
position for the others. -/
def resolveProjectIndices (exprs : List IrExpr) : List Nat :=
  exprs.zipIdx.map fun (expr, i) => match expr with
    | .var name => (lookupName layout.names name).getD i
    | _ => i

mutual

/-- The traversal of `unwrap_filters_collect`: the conditions of the filters at the top,
outermost first, and the node below them. -/
def unwrapFilters : IrNode → List IrExpr × IrNode
  | .mk op children =>
    if op.type = .filter then unwrapFilter op children else ([], .mk op children)

def unwrapFilter (op : IrOp) : List IrNode → List IrExpr × IrNode
  | [] => ([], .mk op [])
  | child :: _ => (op.filterExpr.toList ++ (unwrapFilters child).1, (unwrapFilters child).2)

end

/-- The conjunction of the filters of a right input, by bitwise and. -/
def combineFilters : List PlanExpr → Option PlanExpr
  | [] => none
  | first :: rest =>
    some (rest.foldl (fun combined expr => .call (.arith .band) [combined, expr]) first)

/-- `unwrap_filters_collect`: the node below the filters and their conjunction. At most 32
filters are kept, and all of them are dropped when one has no byte code. An extension call
is refused. -/
def unwrapFiltersCollect (node : IrNode) : Option (IrNode × Option PlanExpr) :=
  let base := (unwrapFilters node).2
  let exprs := (unwrapFilters node).1.take 32
  if anyExtensionCall exprs then none
  else some (base, (serializeExprs none ((collectOutputColumns base).getD []) false exprs).bind
    combineFilters)

def nodeRelation : IrNode → Option String
  | .mk op _ => op.relationName

/-- The right input of a join-like operator: a relation and a filter on it. -/
def rightInput (node : IrNode) : Option (String × Option PlanExpr) := do
  let (base, rightFilter) ← unwrapFiltersCollect node
  let rel ← nodeRelation base
  return (rel, rightFilter)

/-- The layout of a node's first child, as the keys of a join see it. -/
def firstLayout (children : List IrNode) : Option Layout :=
  children.head?.bind collectOutputColumns

/-- The layout of a node's first child, as expressions see it. -/
def exprLayout (children : List IrNode) : Layout := (firstLayout children).getD []

/-- The keys of a join-like operator, on both sides. -/
def resolveJoinKeys (op : IrOp) (children : List IrNode) : Option (List Nat × List Nat) := do
  let leftKeys ← resolveKeysToColN (firstLayout children) op.joinLeftKeys
  let rightKeys ← resolveKeysToColN (children[1]?.bind collectOutputColumns) op.joinRightKeys
  return (leftKeys, rightKeys)

/-- The operator of a projection. -/
def translateProject (op : IrOp) (children : List IrNode) : Option PlanOp := do
  let indices := match op.projectIndices, op.projectExprs with
    | some indices, _ => indices
    | none, some exprs => match firstLayout children with
        | some layout => resolveProjectIndices layout exprs
        | none => List.range op.projectCount
    | none, none => List.range op.projectCount
  match op.projectExprs with
  | none => return .map indices none
  | some exprs =>
    let planned ← serializeExprs snapshot (exprLayout children) false exprs
    return .map indices (some (planned.map some))

def translateFilter (expr : Option IrExpr) (children : List IrNode) : Option PlanOp :=
  match expr with
  | none => some (.filter none)
  | some expr =>
    if extensionCallsDirect expr then
      (serializeExpr snapshot (exprLayout children) false expr).map (.filter ∘ some)
    else none

/-- The layout that an aggregate's expression is resolved against: its own column names, with
the types of the columns below it. -/
def aggregateLayout (op : IrOp) (children : List IrNode) : Layout :=
  let child := exprLayout children
  if op.columnNames = [] then child
  else op.columnNames.zipIdx.map fun (name, i) =>
    (name, if i < child.length then child.typeAt i else (name.map child.lookupType).getD .unknown)

/-- The operator of an aggregate. An average needs a float. -/
def translateAggregate (op : IrOp) (children : List IrNode) : Option PlanOp :=
  let layout := aggregateLayout op children
  let operand := (op.aggExpr.map (exprResultType layout)).getD .unknown
  if op.aggFn = .avg ∧ operand ≠ .float then none
  else if (op.aggExpr.map exprContainsExtensionCall).getD false then none
  else (op.aggExpr.mapM (serializeExpr snapshot layout false)).map fun planned =>
    .reduce op.aggFn op.groupByIndices planned operand op.aggregateIndex

/-- The operators of a combined filter and projection. -/
def translateFlatmap (op : IrOp) (children : List IrNode) : Option (List PlanOp) :=
  let exprs := if op.projectCount = 0 then none else op.projectExprs
  if (op.filterExpr.map exprContainsExtensionCall).getD false ∨
      anyExtensionCall (exprs.getD []) then none
  else do
    let filters ← op.filterExpr.mapM fun expr => translateFilter snapshot (some expr) children
    let planned ← exprs.mapM (serializeExprs snapshot (exprLayout children) false)
    let map := if op.projectCount = 0 then []
      else [.map (op.projectIndices.getD (List.range op.projectCount))
        (planned.map (·.map some))]
    return filters.toList ++ map

/-- The operators that follow those of the children. -/
def translateOp (op : IrOp) (children : List IrNode) : Option (List PlanOp) :=
  match op.type with
  | .scan | .compoundInline | .compoundSide => some [.variable op.relationName]
  | .project => (translateProject snapshot op children).map ([·])
  | .filter => (translateFilter snapshot op.filterExpr children).map ([·])
  | .join => do
      let right ← children[1]?.mapM rightInput
      let (leftKeys, rightKeys) ← resolveJoinKeys op children
      return [.join (right.map (·.1)) leftKeys rightKeys (right.bind (·.2))]
  | .antijoin => do
      let (rel, rightFilter) ← children[1]?.bind rightInput
      let (leftKeys, rightKeys) ← resolveJoinKeys op children
      return [.antijoin rel leftKeys rightKeys rightFilter]
  | .semijoin => do
      let (rel, rightFilter) ← children[1]?.bind rightInput
      let (leftKeys, rightKeys) ← resolveJoinKeys op children
      return [.semijoin rel leftKeys rightKeys rightFilter (op.projectIndices.getD [])]
  | .aggregate => (translateAggregate snapshot op children).map ([·])
  | .union => some []
  | .flatmap => translateFlatmap snapshot op children

mutual

/-- `translate_ir_node`: the operators of the children first. -/
def translateIrNode (snapshot : Option Snapshot) : IrNode → Option (List PlanOp)
  | .mk op children => do
      let below ← match op.type with
        | .scan | .compoundInline | .compoundSide => some []
        | .union => translateUnion snapshot children
        | _ => translateFirst snapshot children
      let own ← translateOp snapshot op children
      return below ++ own

def translateFirst (snapshot : Option Snapshot) : List IrNode → Option (List PlanOp)
  | [] => some []
  | child :: _ => translateIrNode snapshot child

/-- The operators of the children of a union, and one that removes duplicates. -/
def translateUnion (snapshot : Option Snapshot) : List IrNode → Option (List PlanOp)
  | [] => some []
  | child :: rest => do
      let first ← translateIrNode snapshot child
      let others ← translateUnionRest snapshot rest
      return first ++ others ++ [.consolidate]

/-- The operators of the children of a union after the first. -/
def translateUnionRest (snapshot : Option Snapshot) : List IrNode → Option (List PlanOp)
  | [] => some []
  | child :: rest => do
      let next ← translateIrNode snapshot child
      let others ← translateUnionRest snapshot rest
      return next ++ [.concat] ++ others

end

mutual

def validateExtensionPlanContext : IrNode → Bool
  | .mk op children =>
    (match op.type with
      | .filter => (op.filterExpr.map extensionCallsDirect).getD true
      | .flatmap => !(op.filterExpr.map exprContainsExtensionCall).getD false
      | .aggregate => !(op.aggExpr.map exprContainsExtensionCall).getD false
      | .project => (op.projectExprs.getD []).all extensionCallsDirect
      | .join | .antijoin | .semijoin =>
        !(children[1]?.map fun right => anyExtensionCall (unwrapFilters right).1).getD false
      | .scan | .union | .compoundInline | .compoundSide => true) &&
    validateChildren children

def validateChildren : List IrNode → Bool
  | [] => true
  | child :: rest => validateExtensionPlanContext child && validateChildren rest

end

/-- The plan of a relation with this operator tree: its operators, and the removal of
duplicates at the end. -/
def generatePlan (root : IrNode) : Option (List PlanOp) :=
  if validateExtensionPlanContext root then do
    let ops ← translateIrNode snapshot root
    return match ops.getLast? with
      | some .consolidate => ops
      | _ => ops ++ [.consolidate]
  else none

/-- The plan of the relation that one rule defines. -/
def planRule (prog : Program) (snapshot : Option Snapshot) (rule : RuleNode) :
    Option (List PlanOp) :=
  match convertRule prog rule with
  | .error _ => none
  | .ok root => generatePlan snapshot root

end Wirelog.Plan

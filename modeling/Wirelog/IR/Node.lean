import Wirelog.Columnar.RowOrder

/-!
# The intermediate representation of rules

A rule is kept as a tree of relational operators. A node has a kind and the data of all
kinds side by side, of which each kind uses its own; expressions refer to columns by the
names of variables, or by the names `col0`, `col1`, … that lowering makes up for positions.
-/

set_option autoImplicit false

namespace Wirelog.IR

open Wirelog.Columnar (Cell ColumnType)

/-! ## Operators of expressions -/

/-- `wirelog_arith_op_t`. -/
inductive ArithOp where
  | add | sub | mul | div | mod
  | band | bor | bxor | bnot | shl | shr
  | hash | crc32Eth | crc32Cast | md5 | sha1 | sha256 | sha512 | hmacSha256 | uuid4 | uuid5
  deriving DecidableEq, Repr

/-- `wirelog_cmp_op_t`. -/
inductive CmpOp where
  | eq | neq | lt | gt | lte | gte
  deriving DecidableEq, Repr

/-- `wirelog_agg_fn_t`. -/
inductive AggFn where
  | count | sum | min | max | avg
  deriving DecidableEq, Repr

/-- `wirelog_str_fn_t`. -/
inductive StrFn where
  | strlen | cat | substr | contains | strPrefix | strSuffix | strOrd | toUpper | toLower
  | strReplace | trim | toString | toNumber | uuid5Rfc
  deriving DecidableEq, Repr

/-- `wl_ir_coltype_t`: the value domain of a column, as far as expressions care. -/
inductive ColType where
  | unknown | scalar | string | float
  deriving DecidableEq, Repr

/-- `wl_ir_coltype_from_column_type`. -/
def ColType.ofColumnType : ColumnType → ColType
  | .string => .string
  | .int32 | .int64 | .uint32 | .uint64 | .bool => .scalar
  | .float => .float

/-! ## Expressions -/

/-- `wl_ir_expr_t`. -/
inductive IrExpr where
  | var (name : String)
  | constInt (value : Cell)
  | constFloat (bits : Cell)
  | constStr (value : String)
  | bool (value : Bool)
  | arith (op : ArithOp) (args : List IrExpr)
  | cmp (op : CmpOp) (args : List IrExpr)
  | agg (fn : AggFn) (args : List IrExpr)
  | strFn (fn : StrFn) (args : List IrExpr)
  | extensionCall (name : String) (args : List IrExpr)

/-- Induction over expressions: a property of the leaves that passes from the operands of an
expression to the expression holds of every expression. -/
theorem IrExpr.induction {motive : IrExpr → Prop}
    (var : ∀ name, motive (.var name))
    (constInt : ∀ value, motive (.constInt value))
    (constFloat : ∀ bits, motive (.constFloat bits))
    (constStr : ∀ value, motive (.constStr value))
    (bool : ∀ value, motive (.bool value))
    (arith : ∀ op args, (∀ arg ∈ args, motive arg) → motive (.arith op args))
    (cmp : ∀ op args, (∀ arg ∈ args, motive arg) → motive (.cmp op args))
    (agg : ∀ fn args, (∀ arg ∈ args, motive arg) → motive (.agg fn args))
    (strFn : ∀ fn args, (∀ arg ∈ args, motive arg) → motive (.strFn fn args))
    (extensionCall : ∀ name args, (∀ arg ∈ args, motive arg) → motive (.extensionCall name args))
    (expr : IrExpr) : motive expr :=
  @IrExpr.rec motive (fun args => ∀ arg ∈ args, motive arg) var constInt constFloat constStr
    bool arith cmp agg strFn extensionCall (fun _ member => absurd member List.not_mem_nil)
    (fun _ _ first rest _ member => (List.mem_cons.mp member).elim (fun same => same ▸ first)
      (rest _))
    expr

namespace IrExpr

mutual

/-- The variables of an expression. -/
def vars : IrExpr → List String
  | .var name => [name]
  | .constInt _ | .constFloat _ | .constStr _ | .bool _ => []
  | .arith _ args | .cmp _ args | .agg _ args | .strFn _ args | .extensionCall _ args =>
    varsList args

/-- The variables of several expressions. -/
def varsList : List IrExpr → List String
  | [] => []
  | expr :: rest => vars expr ++ varsList rest

end

end IrExpr

/-! ## Operator trees -/

/-- The kinds of operators. -/
inductive NodeType where
  | scan
  | project
  | filter
  | join
  | flatmap
  | aggregate
  | antijoin
  | union
  | semijoin
  | compoundInline
  | compoundSide
  deriving DecidableEq, Repr

/-- The data of a node apart from its children. An array that is not allocated is an empty
list, except where the passes tell the two apart. -/
structure IrOp where
  type : NodeType
  relationName : Option String := none
  /-- The variables of a scan's columns, or of the columns below an aggregate. -/
  columnNames : List (Option String) := []
  columnTypes : List ColType := []
  projectIndices : Option (List Nat) := none
  projectCount : Nat := 0
  projectExprs : Option (List IrExpr) := none
  filterExpr : Option IrExpr := none
  joinLeftKeys : List String := []
  joinRightKeys : List String := []
  aggFn : AggFn := .count
  aggExpr : Option IrExpr := none
  groupByIndices : List Nat := []
  aggregateIndex : Option Nat := none

/-- A node of a rule's operator tree. -/
inductive IrNode where
  | mk (op : IrOp) (children : List IrNode)

/-- Induction over operator trees: a property that passes from the children of a node to
the node holds of every tree. -/
theorem IrNode.induction {motive : IrNode → Prop}
    (step : ∀ op children, (∀ child ∈ children, motive child) → motive (.mk op children))
    (node : IrNode) : motive node :=
  @IrNode.rec motive (fun children => ∀ child ∈ children, motive child) step
    (fun _ member => absurd member List.not_mem_nil)
    (fun _ _ first rest _ member => (List.mem_cons.mp member).elim (fun same => same ▸ first)
      (rest _))
    node

/-- A rule: the relation of its head, if it has one, and its operator tree. -/
structure IrRule where
  headRelation : Option String
  irRoot : Option IrNode

/-- A program: the names of its relations and its rules. -/
structure IrProgram where
  relations : List String
  rules : List IrRule

end Wirelog.IR

import Wirelog.IR.Node

/-!
# Syntax trees of rules

The parser hands rules to the lowering pass as syntax trees. A rule has a head, whose
arguments are expressions or one aggregate each, and a body of atoms, negated atoms,
comparisons, Boolean literals, string predicates and calls of scalar extensions. An argument
of an atom is a variable, a constant, a wildcard or a compound pattern.
-/

set_option autoImplicit false

namespace Wirelog.IR

open Wirelog.Columnar (Cell)

/-- `wl_parser_ast_node_t`, the kinds that occur inside rules. -/
inductive AstNode where
  | variable (name : String)
  | integer (value : Cell)
  | float (bits : Cell)
  | string (value : String)
  | wildcard
  | boolean (value : Bool)
  | compoundTerm (functor : String) (args : List AstNode)
  | binaryExpr (op : ArithOp) (args : List AstNode)
  | comparison (op : CmpOp) (args : List AstNode)
  | aggregate (fn : AggFn) (args : List AstNode)
  | strFunction (fn : StrFn) (args : List AstNode)
  | extensionCall (name : String) (args : List AstNode)
  | atom (name : String) (args : List AstNode)
  | negation (args : List AstNode)

/-- A rule: the relation and the arguments of its head, and its body. -/
structure RuleNode where
  headName : String
  headArgs : List AstNode
  body : List AstNode

namespace AstNode

def variableName : AstNode → Option String
  | .variable name => some name
  | _ => none

/-- The `name` field of a node: relations, variables, functors and extensions have one. -/
def nodeName : AstNode → Option String
  | .variable name | .compoundTerm name _ | .extensionCall name _ | .atom name _ => some name
  | _ => none

/-- `node->type == WL_PARSER_AST_NODE_AGGREGATE`. -/
def isAggregate : AstNode → Bool
  | .aggregate _ _ => true
  | _ => false

/-! ## Variables -/

mutual

/-- The variables of a tree, from left to right. -/
def vars : AstNode → List String
  | .variable name => [name]
  | .compoundTerm _ args | .binaryExpr _ args | .comparison _ args | .aggregate _ args
  | .strFunction _ args | .extensionCall _ args | .atom _ args | .negation args =>
    varsList args
  | .integer _ | .float _ | .string _ | .wildcard | .boolean _ => []

/-- The variables of several trees. -/
def varsList : List AstNode → List String
  | [] => []
  | node :: rest => vars node ++ varsList rest

end

@[simp] theorem varsList_eq (nodes : List AstNode) : varsList nodes = nodes.flatMap vars := by
  induction nodes with
  | nil => rfl
  | cons node rest ih => simp [varsList, ih]

end AstNode

namespace RuleNode

def vars (rule : RuleNode) : List String :=
  AstNode.varsList rule.headArgs ++ AstNode.varsList rule.body

end RuleNode

end Wirelog.IR

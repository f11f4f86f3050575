import Wirelog.Plan.RulePlan

/-!
# Unbound variables

A rule is safe when every variable of its head, of its comparisons and of its negated atoms
is bound by a positive atom. Only the columns of negated atoms are checked for this. A
variable of the head or of a comparison that no column holds is emitted under its own name,
which the evaluator reads as column zero, and a compound pattern in a negated atom at a
column that is no compound passes as a wildcard.

`isSome_planRule_iff` lists the checks a rule has to pass to get a plan, and
`planRule_safe_iff` says that every rule with a plan is safe exactly when no rule passes
them with an unbound variable.
-/

set_option autoImplicit false

namespace Wirelog.Plan

open Wirelog.IR Wirelog.Foundations List

variable {prog : Program} {snapshot : Option Snapshot} {rule : RuleNode} {name rel : String}
  {layout : Layout} {args : List AstNode}

/-! ## Variables that are bound -/

/-- An identifier of the grammar starts with a letter or an underscore, and goes on with
letters, digits and underscores. -/
def IsIdentifier (name : String) : Prop :=
  ∃ first rest, name.toList = first :: rest ∧ (first.isAlpha ∨ first = '_') ∧
    ∀ c ∈ rest, c.isAlphanum ∨ c = '_'

/-- An argument binds a variable that it is, or that is an argument of a compound pattern it
is, when the pattern fits the declaration of its column. -/
inductive ArgBinds (prog : Program) (col : Option Column) (name : String) : AstNode → Prop
  | direct : ArgBinds prog col name (.variable name)
  | pattern {functor : String} {args : List AstNode} {column : Column} :
      col = some column → compoundArgFunctorMatches prog (.compoundTerm functor args) column →
      .variable name ∈ args → ArgBinds prog col name (.compoundTerm functor args)

/-- An atom binds the variables that its arguments bind. -/
def AtomBinds (prog : Program) (rel : String) (args : List AstNode) (name : String) : Prop :=
  ∃ (i : Nat) (arg : AstNode), args[i]? = some arg ∧
    ArgBinds prog (relationColumns prog rel)[i]? name arg

def Bound (prog : Program) (rule : RuleNode) (name : String) : Prop :=
  ∃ rel args, .atom rel args ∈ rule.body ∧ AtomBinds prog rel args name

/-- Every variable of the head and of a comparison is bound by a positive atom. -/
structure TermsBound (prog : Program) (rule : RuleNode) : Prop where
  head : ∀ arg ∈ rule.headArgs, ∀ name ∈ arg.vars, Bound prog rule name
  comparisons : ∀ op args, .comparison op args ∈ rule.body →
    ∀ name ∈ (AstNode.comparison op args).vars, Bound prog rule name

/-- Every variable of the head, of a comparison and of a negated atom is bound by a positive
atom. -/
structure Safe (prog : Program) (rule : RuleNode) : Prop extends TermsBound prog rule where
  negated : ∀ rel args rest, .negation (.atom rel args :: rest) ∈ rule.body →
    ∀ name ∈ (AstNode.atom rel args).vars, Bound prog rule name

/-! ## Expressions that have byte code -/

mutual

/-- Whether an expression has byte code: operands are floats together or not at all, floats
know only the four basic operations, and extensions are in the snapshot. -/
def fits (snapshot : Option Snapshot) (layout : Layout) : IrExpr → Bool
  | .var _ | .constInt _ | .constFloat _ | .constStr _ | .bool _ => true
  | .extensionCall name args =>
    name.length < 2 ^ 16 && fitsAll snapshot layout args && (extensionOpcode snapshot name).isSome
  | .arith op args =>
    ((operandType layout args 0 = .float) = (operandType layout args 1 = .float)) &&
      fitsAll snapshot layout args &&
      (arithToTag op (operandType layout args 0) (operandType layout args 1)).isSome
  | .cmp _ args =>
    ((operandType layout args 0 = .float) = (operandType layout args 1 = .float)) &&
      fitsAll snapshot layout args
  | .agg _ args | .strFn _ args => fitsAll snapshot layout args

/-- Whether every expression has byte code. -/
def fitsAll (snapshot : Option Snapshot) (layout : Layout) : List IrExpr → Bool
  | [] => true
  | expr :: rest => fits snapshot layout expr && fitsAll snapshot layout rest

end

variable {exprs : List IrExpr}

theorem fitsAll_eq_true_iff :
    fitsAll snapshot layout exprs ↔ ∀ expr ∈ exprs, fits snapshot layout expr := by
  induction exprs with
  | nil => simp [fitsAll]
  | cons expr rest ih => simp [fitsAll, ih]

section Writers

variable {Code : Type} {writer : ExprWriter Code}

theorem writeExprs_eq_mapM (extensionArg : Bool) (exprs : List IrExpr) :
    writeExprs writer snapshot layout extensionArg exprs =
      exprs.mapM (writeExpr writer snapshot layout extensionArg) := by
  induction exprs with
  | nil => rfl
  | cons expr rest ih => simp [writeExprs, ih]

theorem isSome_writeExprs_of {extensionArg : Bool}
    (each : ∀ expr ∈ exprs,
      (writeExpr writer snapshot layout extensionArg expr).isSome = fits snapshot layout expr) :
    (writeExprs writer snapshot layout extensionArg exprs).isSome =
      fitsAll snapshot layout exprs := by
  rw [Bool.eq_iff_iff, writeExprs_eq_mapM, isSome_mapM_iff, fitsAll_eq_true_iff]
  exact forall₂_congr fun expr member => by rw [each expr member]

/-- An expression is serialized when it has byte code. -/
theorem isSome_writeExpr (expr : IrExpr) :
    ∀ extensionArg, (writeExpr writer snapshot layout extensionArg expr).isSome =
      fits snapshot layout expr := by
  induction expr using IrExpr.induction with
  | var name | constInt value | constFloat bits | constStr value | bool value =>
    exact fun _ => rfl
  | arith op args ih =>
    intro extensionArg
    have operands := isSome_writeExprs_of fun arg member => ih arg member false
    rw [writeExpr, fits, ← operands]
    split_ifs with mixed
    · simp [mixed]
    have agree := not_not.mp mixed
    cases writeExprs writer snapshot layout false args <;>
      cases arithToTag op (operandType layout args 0) (operandType layout args 1) <;>
      simp [agree]
  | cmp op args ih =>
    intro extensionArg
    have operands := isSome_writeExprs_of fun arg member => ih arg member false
    rw [writeExpr, fits, ← operands]
    split_ifs with mixed
    · simp [mixed]
    have agree := not_not.mp mixed
    cases writeExprs writer snapshot layout false args <;> simp [agree]
  | agg fn args ih | strFn fn args ih =>
    intro extensionArg
    rw [writeExpr, fits, ← isSome_writeExprs_of fun arg member => ih arg member false]
    cases writeExprs writer snapshot layout false args <;> rfl
  | extensionCall name args ih =>
    intro extensionArg
    rw [writeExpr, fits, ← isSome_writeExprs_of fun arg member => ih arg member true]
    split_ifs with long
    · have refused : decide (name.length < 2 ^ 16) = false :=
        decide_eq_false (Nat.not_lt.mpr long)
      rw [refused, Bool.false_and, Bool.false_and, Option.isSome_none]
    · have short : decide (name.length < 2 ^ 16) = true :=
        decide_eq_true (Nat.lt_of_not_le long)
      rw [short]
      cases writeExprs writer snapshot layout true args <;> cases extensionOpcode snapshot name <;>
        rfl

end Writers

theorem isSome_serializeExpr (snapshot : Option Snapshot) (layout : Layout) (expr : IrExpr)
    (extensionArg : Bool) :
    (serializeExpr snapshot layout extensionArg expr).isSome = fits snapshot layout expr :=
  isSome_writeExpr expr extensionArg

theorem isSome_serializeExprs (snapshot : Option Snapshot) (layout : Layout)
    (extensionArg : Bool) (exprs : List IrExpr) :
    (serializeExprs snapshot layout extensionArg exprs).isSome = fitsAll snapshot layout exprs :=
  isSome_writeExprs_of fun expr _ => isSome_writeExpr expr extensionArg

theorem isSome_filterOps_iff :
    (filterOps snapshot layout exprs).isSome ↔
      ∀ expr ∈ exprs, extensionCallsDirect expr ∧ fits snapshot layout expr := by
  rw [filterOps, isSome_mapM_iff]
  refine forall₂_congr fun expr _ => ?_
  rw [filterOp]
  split_ifs with direct
  · simp [direct, isSome_serializeExpr]
  · simp [direct]

/-! ## The columns that hold a variable -/

theorem IsIdentifier.ne_handle (identifier : IsIdentifier name)
    (position colIdx : Nat) : name ≠ makeSideHandleVar position colIdx := by
  obtain ⟨first, rest, spelled, start, -⟩ := identifier
  intro same
  have dollar : (makeSideHandleVar position colIdx).toList.head? = some '$' := by
    unfold makeSideHandleVar
    simp
  rw [← same, spelled, List.head?_cons, Option.some.injEq] at dollar
  subst dollar
  revert start
  decide

theorem variableName_eq_some_iff {node : AstNode} :
    node.variableName = some name ↔ node = .variable name := by
  cases node <;> simp [AstNode.variableName]

theorem argBinds_variable_iff {col : Option Column} {other : String} :
    ArgBinds prog col name (.variable other) ↔ other = name :=
  ⟨fun binds => by cases binds; rfl, fun same => same ▸ .direct⟩

/-- A compound pattern binds its variables when it fits the declaration of its column. -/
theorem argBinds_compoundTerm_iff {col : Option Column} {functor : String} :
    ArgBinds prog col name (.compoundTerm functor args) ↔
      ∃ column, col = some column ∧
        compoundArgFunctorMatches prog (.compoundTerm functor args) column ∧
        .variable name ∈ args := by
  constructor
  · rintro (_ | ⟨found, fitting, member⟩)
    exact ⟨_, found, fitting, member⟩
  · rintro ⟨column, found, fitting, member⟩
    exact .pattern found fitting member

theorem compoundKind_of_matches {arg : AstNode} {column : Column}
    (fitting : compoundArgFunctorMatches prog arg column) :
    column.compoundKind = .inline ∨ column.compoundKind = .side := by
  simp only [compoundArgFunctorMatches, Bool.and_eq_true] at fitting
  have declared := fitting.1
  cases arg <;> simp only [compoundArgMatchesDecl, Bool.false_eq_true] at declared
  cases kind : column.compoundKind <;> simp_all

/-- A variable is in the columns of an argument, or in those of its side compound, when the
argument binds it. -/
theorem mem_argSlots_iff {columns : List Column} (position : Nat) {i : Nat}
    {arg : AstNode} (identifier : IsIdentifier name) :
    (∃ slot ∈ argSlots prog columns position i arg, slot.name = some name ∨
        ∃ binding, slot.sideBinding = some binding ∧ .variable name ∈ binding.args) ↔
      ArgBinds prog columns[i]? name arg := by
  cases arg with
  | «variable» other =>
    simp [argSlots, argBinds_variable_iff]
  | compoundTerm functor args =>
    rw [argBinds_compoundTerm_iff]
    cases found : columns[i]? with
    | none => simp [argSlots, found]
    | some column =>
      simp only [argSlots, found, Option.some.injEq, exists_eq_left']
      split_ifs with inline side
      · -- an inline compound has a column for each argument
        have fitting := inline.2
        simp only [fitting, true_and, mem_map, Prod.exists]
        constructor
        · rintro ⟨slot, ⟨child, c, inArgs, rfl⟩, named | ⟨binding, absent, -⟩⟩
          · rw [← variableName_eq_some_iff.mp named]
            exact mem_of_getElem? (mem_zipIdx_iff_getElem?.mp inArgs)
          · cases absent
        · intro member
          obtain ⟨c, atC⟩ := List.getElem?_of_mem member
          exact ⟨_, ⟨_, c, mem_zipIdx_iff_getElem?.mpr atC, rfl⟩, .inl rfl⟩
      · -- a side compound is matched in its own relation, and the column holds its handle
        have noHandle := identifier.ne_handle position i
        simp [side.2, Ne.symm noHandle]
      · have unfit : ¬ compoundArgFunctorMatches prog (.compoundTerm functor args) column :=
          fun fitting => (compoundKind_of_matches fitting).elim
            (fun kind => inline ⟨kind, fitting⟩) (fun kind => side ⟨kind, fitting⟩)
        simp [unfit]
  | _ =>
    simp only [argSlots, mem_singleton, exists_eq_left, reduceCtorEq, false_and,
      exists_false, or_false, false_iff]
    intro binds
    cases binds

theorem mem_atomSlots_iff {columns : List Column} {position : Nat} {slot : Slot} :
    slot ∈ atomSlots prog columns position args ↔
      ∃ (i : Nat) (arg : AstNode), args[i]? = some arg ∧
        slot ∈ argSlots prog columns position i arg := by
  simp only [atomSlots, mem_flatMap, Prod.exists, mem_zipIdx_iff_getElem?]
  exact exists_comm

/-- The columns of the side relation of a compound. -/
def sideColumns (binding : SideBinding) : Layout :=
  (some binding.handleVar, .scalar) :: binding.args.map fun arg => (arg.variableName, .unknown)

def atomColumns (scan : AtomScan) : Layout :=
  scanColumns scan ++ scan.sideBindings.flatMap sideColumns

def ruleLayout (prog : Program) (rule : RuleNode) : Layout :=
  (ruleScans prog rule).flatMap atomColumns

theorem names_atomColumns (scan : AtomScan) :
    (atomColumns scan).names = scan.names ++ scan.sideBindings.flatMap fun binding =>
      some binding.handleVar :: binding.args.map (·.variableName) := by
  have own := names_scanColumns scan
  simp only [Layout.names] at own
  simp [atomColumns, Layout.names, own, sideColumns, map_flatMap, Function.comp_def]

/-- **An atom's columns hold the variables that the atom binds.** -/
theorem mem_atomColumns_iff (body : List AstNode) (position : Nat)
    (identifier : IsIdentifier name) :
    some name ∈ (atomColumns
        (pushConstantFilters body (buildAtomScan prog position rel args))).names ↔
      AtomBinds prog rel args name := by
  rw [names_atomColumns]
  simp only [AtomBinds, ← mem_argSlots_iff position identifier, AtomScan.names,
    pushConstantFilters, buildAtomScan, mem_append, mem_map, mem_flatMap,
    mem_filterMap, mem_cons, Option.some.injEq, variableName_eq_some_iff]
  constructor
  · rintro (⟨slot, inSlots, named⟩ | ⟨binding, ⟨slot, inSlots, side⟩, inSide⟩)
    · obtain ⟨i, arg, found, inArg⟩ := mem_atomSlots_iff.mp inSlots
      exact ⟨i, arg, found, slot, inArg, .inl named⟩
    · obtain ⟨i, arg, found, inArg⟩ := mem_atomSlots_iff.mp inSlots
      refine ⟨i, arg, found, slot, inArg, ?_⟩
      rcases inSide with handle | ⟨child, inArgs, rfl⟩
      · exact .inl (handle ▸ argSlots_handle inArg side)
      · exact .inr ⟨binding, side, inArgs⟩
  · rintro ⟨i, arg, found, slot, inArg, named | ⟨binding, side, inArgs⟩⟩
    · exact .inl ⟨slot, mem_atomSlots_iff.mpr ⟨i, arg, found, inArg⟩, named⟩
    · exact .inr ⟨binding, ⟨slot, mem_atomSlots_iff.mpr ⟨i, arg, found, inArg⟩, side⟩,
        .inr ⟨_, inArgs, rfl⟩⟩

theorem mem_positiveAtoms_iff (first : Nat) {body : List AstNode} :
    (∃ position, (position, rel, args) ∈ positiveAtoms first body) ↔ .atom rel args ∈ body := by
  fun_induction positiveAtoms first body with
  | case1 => simp
  | case2 position name others rest ih =>
    simp only [mem_cons, exists_or, ih, Prod.mk.injEq, AstNode.atom.injEq]
    simp
  | case3 position node rest notAtom ih =>
    have differs : AstNode.atom rel args ≠ node := fun same => notAtom rel args same.symm
    simp [ih, differs]

/-- **The columns of a rule's joined scans hold the variables its positive atoms bind.** -/
theorem mem_ruleLayout_iff (identifier : IsIdentifier name) :
    some name ∈ (ruleLayout prog rule).names ↔ Bound prog rule name := by
  have columns : some name ∈ (ruleLayout prog rule).names ↔
      ∃ scan ∈ ruleScans prog rule, some name ∈ (atomColumns scan).names := by
    simp [ruleLayout, Layout.names, map_flatMap]
  rw [columns]
  simp only [ruleScans, atomScans, map_map, mem_map, Function.comp_apply, Bound,
    ← mem_positiveAtoms_iff 0]
  constructor
  · rintro ⟨-, ⟨⟨position, rel, args⟩, member, rfl⟩, holds⟩
    exact ⟨rel, args, ⟨position, member⟩, (mem_atomColumns_iff _ _ identifier).mp holds⟩
  · rintro ⟨rel, args, ⟨position, member⟩, binds⟩
    exact ⟨_, ⟨_, member, rfl⟩, (mem_atomColumns_iff _ _ identifier).mpr binds⟩

/-! ## The layout of a form -/

theorem scanColumns_sideScan {binding : SideBinding} {scan : AtomScan}
    (found : sideScan binding = .ok scan) : scanColumns scan = sideColumns binding := by
  unfold sideScan at found
  cases built : buildSideCompoundScan binding with
  | none => simp [built] at found
  | some side =>
    simp only [built, Except.ok.injEq] at found
    subst found
    simp only [buildSideCompoundScan, Option.map_eq_some_iff] at built
    obtain ⟨name, -, rfl⟩ := built
    simp only [scanColumns, scanLayout, sideColumns]
    apply ext_getElem
    · simp
    · intro i bound bound'
      cases i with
      | zero => simp
      | succ n =>
        have inside : n < binding.args.length := by simpa using bound'
        simp [Nat.add_comm 1 n, inside]

theorem scanColumns_sideScans {bindings : List SideBinding} {scans : List AtomScan}
    (found : bindings.mapM sideScan = .ok scans) :
    scans.flatMap scanColumns = bindings.flatMap sideColumns := by
  have related := mapM_eq_ok_iff.mp found
  clear found
  induction related with
  | nil => rfl
  | cons built _ ih => simp [scanColumns_sideScan built, ih]

/-- The scans of a form have the columns of the rule. -/
theorem scansLayout_eq_ruleLayout {scans : List (List AtomScan)}
    (found : (ruleScans prog rule).mapM scanWithSides = .ok scans) :
    scansLayout scans.flatten = ruleLayout prog rule := by
  have related := mapM_eq_ok_iff.mp found
  unfold ruleLayout
  generalize ruleScans prog rule = sources at related
  clear found
  induction related with
  | nil => rfl
  | @cons source group sources groups here _ ih =>
    obtain ⟨sides, sidesFound, same⟩ := bind_eq_ok_iff.mp here
    cases same
    simp only [scansLayout] at ih
    simp [scansLayout, atomColumns, scanColumns_sideScans sidesFound, ih]

/-! ## The checks a rule has to pass -/

def HasAtom (rule : RuleNode) : Prop := ∃ rel args, .atom rel args ∈ rule.body

/-- A condition is an expression with byte code, and an extension call only as a whole. -/
def ConditionFits (snapshot : Option Snapshot) (layout : Layout) (literal : AstNode) : Prop :=
  match literal with
  | .comparison _ _ | .strFunction _ _ | .extensionCall _ _ =>
    ∃ expr, convertExpr literal = some expr ∧ extensionCallsDirect expr ∧ fits snapshot layout expr
  | _ => True

/-- A negated literal is no extension call, and next to a positive atom it has no side
compound pattern and only columns whose variables are in the layout. -/
def NegationFits (prog : Program) (rule : RuleNode) (layout : Layout)
    (literal : AstNode × Nat) : Prop :=
  match negatedLiteral literal.1 with
  | .call _ => False
  | .other => True
  | .atom rel args => HasAtom rule →
      ¬ atomHasDeclaredSideCompoundPattern prog rel args ∧
      ∀ name, some name ∈ (buildAtomScan prog literal.2 rel args).names → some name ∈ layout.names

/-- The operand of an aggregate has byte code and no extension call, and an average is over
a float. -/
def AggregateFits (snapshot : Option Snapshot) (layout : Layout) (fn : AggFn)
    (operand : Option IrExpr) : Prop :=
  let expr := operand.map (rewriteExprVarsToColumns layout.names)
  (fn = .avg → (expr.map (exprResultType layout)).getD .unknown = .float) ∧
    ∀ e ∈ expr, exprContainsExtensionCall e = false ∧ fits snapshot layout e

/-- The arguments of a head are expressions with byte code. -/
def HeadFits (snapshot : Option Snapshot) (rule : RuleNode) (layout : Layout) : Prop :=
  match headAggregate rule with
  | some (fn, args) => ∃ exprs, convertFirst args = some exprs ∧
      AggregateFits snapshot layout fn exprs.head?
  | none => ∃ exprs, convertExprs rule.headArgs = some exprs ∧
      ∀ expr ∈ exprs, extensionCallsDirect expr ∧ fits snapshot layout expr

/-- The checks of lowering and of plan generation. -/
structure PassesChecks (prog : Program) (snapshot : Option Snapshot) (rule : RuleNode) :
    Prop where
  headArity : validateHeadArity prog rule
  oneAggregate : rule.headArgs.countP (·.isAggregate) ≤ 1
  callsFollow : callsFollowAtoms false rule.body
  sideRelations : ∀ scan ∈ ruleScans prog rule, ∀ binding ∈ scan.sideBindings,
    (makeSideRelationName binding.functor binding.args.length).isSome
  conditions : HasAtom rule → ∀ literal ∈ rule.body,
    ConditionFits snapshot (ruleLayout prog rule) literal
  negations : ∀ literal ∈ rule.body.zipIdx,
    NegationFits prog rule (ruleLayout prog rule) literal
  scanFilters : ∀ scan ∈ (ruleScans prog rule).head?, ∀ expr ∈ scan.filters,
    fits snapshot (scanColumns scan) expr
  head : HeadFits snapshot rule (ruleLayout prog rule)

theorem positiveAtoms_ne_nil_iff :
    positiveAtoms 0 rule.body ≠ [] ↔ HasAtom rule := by
  constructor
  · intro present
    obtain ⟨⟨position, rel, args⟩, member⟩ := exists_mem_of_ne_nil _ present
    exact ⟨rel, args, (mem_positiveAtoms_iff 0).mp ⟨position, member⟩⟩
  · rintro ⟨rel, args, member⟩
    obtain ⟨position, found⟩ := (mem_positiveAtoms_iff 0).mpr member
    exact ne_nil_of_mem found

theorem exists_scanWithSides_iff {scan : AtomScan} :
    (∃ group, scanWithSides scan = .ok group) ↔ ∀ binding ∈ scan.sideBindings,
      (makeSideRelationName binding.functor binding.args.length).isSome := by
  have each : ∀ binding : SideBinding, (∃ side, sideScan binding = .ok side) ↔
      (makeSideRelationName binding.functor binding.args.length).isSome := by
    intro binding
    unfold sideScan buildSideCompoundScan
    cases makeSideRelationName binding.functor binding.args.length <;> simp
  rw [← forall₂_congr fun binding _ => each binding, ← exists_mapM_eq_ok_iff]
  constructor
  · rintro ⟨group, found⟩
    obtain ⟨sides, sidesFound, -⟩ := bind_eq_ok_iff.mp found
    exact ⟨sides, sidesFound⟩
  · rintro ⟨sides, sidesFound⟩
    exact ⟨_, bind_eq_ok_iff.mpr ⟨sides, sidesFound, rfl⟩⟩

theorem exists_condition_iff {node : AstNode} :
    (∃ expr, convertExpr node = some expr ∧ extensionCallsDirect expr ∧
      fits snapshot layout expr) ↔
      ∃ exprs, (match convertExpr node with
        | some expr => Except.ok [expr]
        | none => .error LowerError.conversion) = .ok exprs ∧
        ∀ expr ∈ exprs, extensionCallsDirect expr ∧ fits snapshot layout expr := by
  cases convertExpr node <;> simp

theorem conditionFits_iff {literal : AstNode} :
    ConditionFits snapshot layout literal ↔
      ∃ exprs, conditionFilter literal = .ok exprs ∧
        ∀ expr ∈ exprs, extensionCallsDirect expr ∧ fits snapshot layout expr := by
  cases literal with
  | comparison op args | strFunction fn args | extensionCall name args =>
    exact exists_condition_iff
  | boolean value => cases value <;>
      simp [ConditionFits, conditionFilter, extensionCallsDirect, exprContainsExtensionCall, fits]
  | _ => simp [ConditionFits, conditionFilter]

theorem negationFits_iff {literal : AstNode × Nat} :
    NegationFits prog rule layout literal ↔
      ∃ scans, negatedScan prog (positiveAtoms 0 rule.body ≠ []) layout.names literal =
        .ok scans := by
  simp only [negatedScan_eq_ok_iff, NegationFits, decide_eq_true_eq]
  cases negatedLiteral literal.1 with
  | call name | other => simp
  | atom rel args =>
    by_cases present : HasAtom rule
    · simp [present, positiveAtoms_ne_nil_iff]
    · simp [present, positiveAtoms_ne_nil_iff]

theorem isSome_reduceOp_iff {fn : AggFn} {operand : Option IrExpr} :
    (reduceOp snapshot rule layout fn operand).isSome ↔
      AggregateFits snapshot layout fn operand := by
  simp only [reduceOp, AggregateFits]
  generalize operand.map (rewriteExprVarsToColumns layout.names) = rewritten
  split_ifs with average extension
  · simp [average.1, average.2]
  · cases rewritten with
    | none => simp at extension
    | some expr => simp_all
  have float : fn = .avg → (rewritten.map (exprResultType layout)).getD .unknown = .float :=
    fun avg => by
      by_contra other
      exact average ⟨avg, other⟩
  cases rewritten with
  | none => simpa using float
  | some expr =>
    have planned := isSome_serializeExpr snapshot layout expr false
    cases serialized : serializeExpr snapshot layout false expr <;> simp_all

theorem isSome_headOp_iff {form : RuleForm} :
    (headOp snapshot rule form).isSome ↔ HeadFits snapshot rule (scansLayout form.scans) := by
  unfold headOp HeadFits
  cases headAggregate rule with
  | some aggregate =>
    obtain ⟨fn, args⟩ := aggregate
    simp only
    cases convertFirst args <;> simp [isSome_reduceOp_iff]
  | none =>
    simp only
    cases convertExprs rule.headArgs with
    | none => simp
    | some exprs =>
      have planned := isSome_serializeExprs snapshot (scansLayout form.scans) false exprs
      simp only [Option.bind_some, Option.some.injEq, exists_eq_left', forall_and, projectOp, mapOp]
      by_cases direct : exprs.all extensionCallsDirect
      · have directs : ∀ expr ∈ exprs, extensionCallsDirect expr :=
          fun expr member => all_eq_true.mp direct expr member
        rw [if_pos direct]
        by_cases empty : exprs = []
        · simp [empty]
        rw [if_neg empty, Option.isSome_map, planned, fitsAll_eq_true_iff]
        exact ⟨fun fitting => ⟨directs, fitting⟩, fun both => both.2⟩
      · rw [if_neg direct]
        exact ⟨fun absent => absurd absent (by simp),
          fun both => absurd (all_eq_true.mpr both.1) direct⟩

/-- The operators of a body exist when the filters of its first scan and its conditions have
byte code. -/
theorem isSome_bodyOps_iff {form : RuleForm} (relations : FormScans form) :
    (bodyOps snapshot form).isSome ↔
      (∀ scan ∈ form.scans.head?, ∀ expr ∈ scan.filters, fits snapshot (scanColumns scan) expr) ∧
      (form.scans ≠ [] → ∀ expr ∈ form.conditions,
        extensionCallsDirect expr ∧ fits snapshot (scansLayout form.scans) expr) := by
  obtain ⟨scans, conditions, negations⟩ := form
  cases scans with
  | nil => simp [bodyOps]
  | cons first rest =>
    have plain : ∀ expr ∈ first.filters, extensionCallsDirect expr := by
      have none := (relations.scans first (by simp)).plain
      simp only [anyExtensionCall_eq_any, any_eq_false] at none
      intro expr member
      simp [extensionCallsDirect, none expr member]
    have both : (bodyOps snapshot ⟨first :: rest, conditions, negations⟩).isSome ↔
        (filterOps snapshot (scanColumns first) first.filters).isSome ∧
          (filterOps snapshot (scansLayout (first :: rest)) conditions).isSome := by
      simp only [bodyOps]
      cases filterOps snapshot (scanColumns first) first.filters <;>
        cases filterOps snapshot (scansLayout (first :: rest)) conditions <;> simp
    rw [both, isSome_filterOps_iff, isSome_filterOps_iff]
    simp only [List.head?_cons, Option.mem_def, Option.some.injEq, forall_eq', ne_eq,
      cons_ne_nil, not_false_eq_true, true_imp_iff]
    exact and_congr_left fun _ =>
      ⟨fun each expr member => (each expr member).2,
        fun each expr member => ⟨plain expr member, each expr member⟩⟩

theorem isSome_planRule_iff_form :
    (planRule prog snapshot rule).isSome ↔ ∃ form, ruleForm prog rule = .ok form ∧
      (bodyOps snapshot form).isSome ∧ (headOp snapshot rule form).isSome := by
  rw [planRule_eq]
  cases ruleForm prog rule with
  | error failure => simp [Except.toOption]
  | ok form =>
    simp only [Except.toOption, Option.bind_some, Except.ok.injEq, exists_eq_left']
    cases bodyOps snapshot form <;> cases headOp snapshot rule form <;> simp

theorem names_scansLayout (scans : List AtomScan) :
    (scansLayout scans).names = scanVars scans := by
  induction scans with
  | nil => rfl
  | cons scan rest ih =>
    have own := names_scanColumns scan
    simp only [Layout.names, scansLayout, scanVars] at ih own ⊢
    simp [ih, own]

theorem head?_scanWithSides {scans : List AtomScan} {groups : List (List AtomScan)}
    (found : scans.mapM scanWithSides = .ok groups) : groups.flatten.head? = scans.head? := by
  cases scans with
  | nil => cases found; rfl
  | cons scan rest =>
    obtain ⟨group, here, others, -, rfl⟩ := mapM_cons_eq_ok_iff.mp found
    obtain ⟨sides, -, same⟩ := bind_eq_ok_iff.mp here
    cases same
    rfl

theorem flatten_scanWithSides_ne_nil_iff {groups : List (List AtomScan)}
    (found : (ruleScans prog rule).mapM scanWithSides = .ok groups) :
    groups.flatten ≠ [] ↔ HasAtom rule := by
  rw [← positiveAtoms_ne_nil_iff]
  have same := scanWithSides_flatten_eq_nil found
  simp [same, ruleScans, atomScans]

/-- The conditions of a rule with a positive atom are lowered to expressions with byte code
exactly when each of them fits. -/
theorem conditionsFit_iff :
    (HasAtom rule → ∀ literal ∈ rule.body, ConditionFits snapshot layout literal) ↔
      ∃ conditions, bodyConditions (positiveAtoms 0 rule.body ≠ []) rule.body =
          .ok conditions ∧
        (HasAtom rule → ∀ expr ∈ conditions.flatten,
          extensionCallsDirect expr ∧ fits snapshot layout expr) := by
  by_cases present : HasAtom rule
  · simp only [bodyConditions, positiveAtoms_ne_nil_iff, present, decide_true, if_true,
      true_imp_iff]
    constructor
    · intro each
      obtain ⟨conditions, found⟩ := exists_mapM_eq_ok_iff.mpr fun literal member => by
        obtain ⟨exprs, lowered, -⟩ := conditionFits_iff.mp (each literal member)
        exact ⟨exprs, lowered⟩
      refine ⟨conditions, found, fun expr inConditions => ?_⟩
      obtain ⟨group, inGroups, inGroup⟩ := mem_flatten.mp inConditions
      obtain ⟨literal, member, lowered⟩ := mem_of_mapM_eq_ok found inGroups
      obtain ⟨exprs, same, fitting⟩ := conditionFits_iff.mp (each literal member)
      rw [lowered] at same
      cases same
      exact fitting expr inGroup
    · rintro ⟨conditions, found, fitting⟩ literal member
      obtain ⟨i, bound, rfl⟩ := getElem_of_mem member
      have related := mapM_eq_ok_iff.mp found
      have inside : i < conditions.length := related.length_eq ▸ bound
      exact conditionFits_iff.mpr ⟨conditions[i], related.get bound inside, fun expr inGroup =>
        fitting expr (mem_flatten.mpr ⟨_, getElem_mem inside, inGroup⟩)⟩
  · simp [bodyConditions, positiveAtoms_ne_nil_iff, present]

/-- **A rule has a plan exactly when it passes the checks.** -/
theorem isSome_planRule_iff :
    (planRule prog snapshot rule).isSome ↔ PassesChecks prog snapshot rule := by
  rw [isSome_planRule_iff_form]
  constructor
  · rintro ⟨form, formed, bodyPlanned, headPlanned⟩
    have bodyFits := (isSome_bodyOps_iff (ruleForm_formScans formed)).mp bodyPlanned
    have headFits := isSome_headOp_iff.mp headPlanned
    obtain ⟨arity, single, follow, scans, scansFound, conditions, conditionsFound, negations,
      negationsFound, rfl⟩ := ruleForm_eq_ok_iff.mp formed
    have layout := scansLayout_eq_ruleLayout scansFound
    have names : scanVars scans.flatten = (ruleLayout prog rule).names := by
      rw [← layout, names_scansLayout]
    simp only [layout] at bodyFits headFits
    rw [names] at negationsFound
    exact
      { headArity := arity
        oneAggregate := single
        callsFollow := follow
        sideRelations := fun scan member => exists_scanWithSides_iff.mp
          (exists_mapM_eq_ok_iff.mp ⟨scans, scansFound⟩ scan member)
        conditions := conditionsFit_iff.mpr ⟨conditions, conditionsFound, fun present =>
          bodyFits.2 ((flatten_scanWithSides_ne_nil_iff scansFound).mpr present)⟩
        negations := fun literal member => negationFits_iff.mpr
          (exists_mapM_eq_ok_iff.mp ⟨negations, negationsFound⟩ literal member)
        scanFilters := head?_scanWithSides scansFound ▸ bodyFits.1
        head := headFits }
  · intro passes
    obtain ⟨scans, scansFound⟩ := exists_mapM_eq_ok_iff.mpr fun scan member =>
      exists_scanWithSides_iff.mpr (passes.sideRelations scan member)
    have layout := scansLayout_eq_ruleLayout scansFound
    have names : scanVars scans.flatten = (ruleLayout prog rule).names := by
      rw [← layout, names_scansLayout]
    obtain ⟨conditions, conditionsFound, conditionsFit⟩ :=
      conditionsFit_iff.mp passes.conditions
    obtain ⟨negations, negationsFound⟩ := exists_mapM_eq_ok_iff.mpr fun literal member =>
      negationFits_iff.mp (passes.negations literal member)
    have formed : ruleForm prog rule =
        .ok ⟨scans.flatten, conditions.flatten, negations.flatten⟩ :=
      ruleForm_eq_ok_iff.mpr ⟨passes.headArity, passes.oneAggregate, passes.callsFollow, scans,
        scansFound, conditions, conditionsFound, negations, names ▸ negationsFound, rfl⟩
    refine ⟨_, formed, (isSome_bodyOps_iff (ruleForm_formScans formed)).mpr ⟨?_, ?_⟩,
      isSome_headOp_iff.mpr (layout ▸ passes.head)⟩
    · exact head?_scanWithSides scansFound ▸ passes.scanFilters
    · intro nonempty
      simp only [layout]
      exact conditionsFit ((flatten_scanWithSides_ne_nil_iff scansFound).mp nonempty)

/-! ## Rules with a plan and an unbound variable -/

/-- What the checks leave open: the variables of the head and of the comparisons, and the
variables of a negated atom that it has no column for. -/
structure UncheckedBound (prog : Program) (rule : RuleNode) : Prop
    extends TermsBound prog rule where
  negated : ∀ rel args rest, .negation (.atom rel args :: rest) ∈ rule.body →
    ∀ name ∈ (AstNode.atom rel args).vars,
      (HasAtom rule → ¬ AtomBinds prog rel args name) → Bound prog rule name

/-- An atom without side compound patterns has no side compounds. -/
theorem sideBindings_eq_nil {position : Nat}
    (none : ¬ atomHasDeclaredSideCompoundPattern prog rel args) :
    (buildAtomScan prog position rel args).sideBindings = [] := by
  simp only [buildAtomScan, filterMap_eq_nil_iff]
  intro slot inSlots
  obtain ⟨i, arg, found, inArg⟩ := mem_atomSlots_iff.mp inSlots
  by_contra side
  apply none
  unfold argSlots at inArg
  split at inArg
  · simp_all
  · rename_i functor children
    split at inArg
    · simp_all
    rename_i column declared
    split_ifs at inArg with inline sideKind
    · simp only [mem_map] at inArg
      obtain ⟨child, -, rfl⟩ := inArg
      exact absurd rfl side
    · simp only [atomHasDeclaredSideCompoundPattern, any_eq_true]
      refine ⟨(.compoundTerm functor children, column), ?_, by simp [isCompoundTerm, sideKind.1]⟩
      exact mem_of_getElem? (List.getElem?_zip_eq_some.mpr ⟨found, declared⟩)
    · simp_all
  · simp_all

/-- The checks bind every variable that a negated atom has a column for. -/
theorem PassesChecks.negated_bound
    (passes : PassesChecks prog snapshot rule) (present : HasAtom rule) {rest : List AstNode}
    (member : .negation (.atom rel args :: rest) ∈ rule.body)
    (identifier : IsIdentifier name) (binds : AtomBinds prog rel args name) :
    Bound prog rule name := by
  obtain ⟨i, found⟩ := List.getElem?_of_mem member
  have fits := passes.negations (_, i) (mem_zipIdx_iff_getElem?.mpr found)
  obtain ⟨noSide, bound⟩ := fits present
  have named : some name ∈ (buildAtomScan prog i rel args).names := by
    have columns := (mem_atomColumns_iff [] i identifier).mpr binds
    rw [names_atomColumns] at columns
    simpa [pushConstantFilters, AtomScan.names, sideBindings_eq_nil noSide] using columns
  exact (mem_ruleLayout_iff identifier).mp (bound name named)

/-- **Every rule with a plan is safe exactly when the rules that pass the checks have the
variables bound that no check looks at.** -/
theorem planRule_safe_iff {prog : Program} {snapshot : Option Snapshot} {rule : RuleNode}
    (identifiers : ∀ name ∈ rule.vars, IsIdentifier name) :
    ((planRule prog snapshot rule).isSome → Safe prog rule) ↔
      (PassesChecks prog snapshot rule → UncheckedBound prog rule) := by
  rw [isSome_planRule_iff]
  refine forall_congr' fun passes => ⟨fun safe => ?_, fun unchecked => ?_⟩
  · exact ⟨safe.toTermsBound, fun rel args rest member name inVars _ =>
      safe.negated rel args rest member name inVars⟩
  · refine ⟨unchecked.toTermsBound, fun rel args rest member name inVars => ?_⟩
    have identifier : IsIdentifier name := by
      apply identifiers
      simp only [RuleNode.vars, AstNode.varsList_eq, mem_append, mem_flatMap]
      refine .inr ⟨_, member, ?_⟩
      simp only [AstNode.vars, AstNode.varsList_eq, flatMap_cons] at inVars ⊢
      exact mem_append_left _ inVars
    by_cases checked : HasAtom rule ∧ AtomBinds prog rel args name
    · exact passes.negated_bound checked.1 member identifier checked.2
    exact unchecked.negated rel args rest member name inVars fun present binds =>
      checked ⟨present, binds⟩

/-- A program with two relations of one integer column. -/
def unaryProgram : Program :=
  ⟨[⟨"e", true, [{ type := .int64 }]⟩, ⟨"p", true, [{ type := .int64 }]⟩], fun _ => none⟩

/-- `p(x) :- e(x).` -/
def copyRule : RuleNode := ⟨"p", [.variable "x"], [.atom "e" [.variable "x"]]⟩

/-- `p(y) :- e(x).` -/
def unboundRule : RuleNode := ⟨"p", [.variable "y"], [.atom "e" [.variable "x"]]⟩

theorem planRule_safe_iff_copyRule :
    (planRule unaryProgram none copyRule).isSome ∧ Safe unaryProgram copyRule := by
  have identifiers : ∀ name ∈ copyRule.vars, IsIdentifier name := by
    have spelled : IsIdentifier "x" := ⟨'x', [], by decide, by decide, by simp⟩
    simpa [copyRule, RuleNode.vars, AstNode.varsList, AstNode.vars] using spelled
  have bound : Bound unaryProgram copyRule "x" :=
    ⟨"e", [.variable "x"], mem_singleton_self _, 0, .variable "x", rfl, .direct⟩
  have unchecked : UncheckedBound unaryProgram copyRule := by
    refine ⟨⟨?_, ?_⟩, ?_⟩
    · intro arg inHead name inVars
      obtain rfl := mem_singleton.mp inHead
      obtain rfl := mem_singleton.mp inVars
      exact bound
    · intro op args inBody
      simp [copyRule] at inBody
    · intro rel args rest inBody
      simp [copyRule] at inBody
  have planned : (planRule unaryProgram none copyRule).isSome := rfl
  exact ⟨planned, (planRule_safe_iff identifiers).mpr (fun _ => unchecked) planned⟩

/-- The variable `y` of the head is bound by nothing, and is read from column zero. -/
theorem planRule_unboundRule :
    planRule unaryProgram none unboundRule =
        some [.variable (some "e"), .map [0] (some [some (.var .plain 0)]), .consolidate] ∧
      ¬ Safe unaryProgram unboundRule := by
  refine ⟨rfl, fun safe => ?_⟩
  obtain ⟨rel, args, member, i, arg, found, binds⟩ :=
    safe.head (.variable "y") (by simp [unboundRule]) "y" (by simp [AstNode.vars])
  simp only [unboundRule, mem_singleton, AstNode.atom.injEq] at member
  obtain ⟨rfl, rfl⟩ := member
  have inArgs := mem_of_getElem? found
  simp only [mem_singleton] at inArgs
  subst inArgs
  exact absurd (argBinds_variable_iff.mp binds) (by decide)

end Wirelog.Plan

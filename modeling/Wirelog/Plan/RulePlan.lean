import Wirelog.IR.RuleForm
import Wirelog.Plan.Generate

/-!
# The plan of a rule

The plan of a lowered rule can be read off its form: the scan of the first atom and its
filters, a join for each further scan with that scan's filters as right filter, a filter for
each condition, an antijoin for each negated scan, the operator of the head, and the removal
of duplicates. `planRule_eq` says that this is what plan generation makes of the tree.
-/

set_option autoImplicit false

namespace Wirelog.Plan

open Wirelog.IR Wirelog.Foundations List Function

/-! ## Trees of filters -/

@[simp] theorem wrapFilters_nil (node : IrNode) : wrapFilters node [] = node := rfl

@[simp] theorem wrapFilters_cons (node : IrNode) (expr : IrExpr) (exprs : List IrExpr) :
    wrapFilters node (expr :: exprs) = wrapFilters (wrapFilter node expr) exprs := rfl

variable (exprs : List IrExpr)

@[simp] theorem collectOutputColumns_wrapFilters (node : IrNode) :
    collectOutputColumns (wrapFilters node exprs) = collectOutputColumns node := by
  induction exprs generalizing node with
  | nil => rfl
  | cons expr rest ih => simp [ih, wrapFilter, collectOutputColumns, collectFirst]

@[simp] theorem validate_wrapFilters (node : IrNode) :
    validateExtensionPlanContext (wrapFilters node exprs) =
      (exprs.all extensionCallsDirect && validateExtensionPlanContext node) := by
  induction exprs generalizing node with
  | nil => simp
  | cons expr rest ih =>
    have here : validateExtensionPlanContext (wrapFilter node expr) =
        (extensionCallsDirect expr && validateExtensionPlanContext node) := by
      simp [wrapFilter, validateExtensionPlanContext, validateChildren]
    rw [wrapFilters_cons, ih, here, all_cons]
    cases extensionCallsDirect expr <;> simp

/-- The filter operator of a condition over a layout. -/
def filterOp (snapshot : Option Snapshot) (layout : Layout) (expr : IrExpr) : Option PlanOp :=
  if extensionCallsDirect expr then
    (serializeExpr snapshot layout false expr).map (.filter ∘ some)
  else none

/-- The filter operators of conditions over a layout. -/
def filterOps (snapshot : Option Snapshot) (layout : Layout) (exprs : List IrExpr) :
    Option (List PlanOp) :=
  exprs.mapM (filterOp snapshot layout)

variable (snapshot : Option Snapshot)

theorem translateIrNode_wrapFilter (node : IrNode) (expr : IrExpr) :
    translateIrNode snapshot (wrapFilter node expr) = do
      let below ← translateIrNode snapshot node
      let own ← filterOp snapshot ((collectOutputColumns node).getD []) expr
      return below ++ [own] := by
  simp only [wrapFilter, translateIrNode, translateFirst, translateOp, translateFilter,
    exprLayout, firstLayout, List.head?_cons, Option.bind_some, filterOp]
  split_ifs with direct
  · cases serializeExpr snapshot ((collectOutputColumns node).getD []) false expr <;> rfl
  · rfl

theorem translateIrNode_wrapFilters (exprs : List IrExpr) (node : IrNode) :
    translateIrNode snapshot (wrapFilters node exprs) = do
      let below ← translateIrNode snapshot node
      let filters ← filterOps snapshot ((collectOutputColumns node).getD []) exprs
      return below ++ filters := by
  induction exprs generalizing node with
  | nil => simp [filterOps]
  | cons expr rest ih =>
    have layout : collectOutputColumns (wrapFilter node expr) = collectOutputColumns node := by
      simp [wrapFilter, collectOutputColumns, collectFirst]
    rw [wrapFilters_cons, ih, layout, translateIrNode_wrapFilter]
    simp only [filterOps, mapM_cons, bind_assoc, pure_bind, append_assoc, singleton_append]

theorem unwrapFilters_wrapFilters (node : IrNode) :
    unwrapFilters (wrapFilters node exprs) =
      (exprs.reverse ++ (unwrapFilters node).1, (unwrapFilters node).2) := by
  induction exprs generalizing node with
  | nil => rfl
  | cons expr rest ih =>
    rw [wrapFilters_cons, ih]
    simp [wrapFilter, unwrapFilters, unwrapFilter]

/-! ## Scans -/

/-- The kinds of nodes that scan a relation. -/
def isScanType : NodeType → Bool
  | .scan | .compoundInline | .compoundSide => true
  | _ => false

def scanColumns (scan : AtomScan) : Layout := scanLayout scan.op

/-- The filters that lowering puts around a scan: one that no row passes, and comparisons of
a column with another column or with a constant. -/
inductive ScanFilter : IrExpr → Prop
  | never : ScanFilter (.bool false)
  | columns (i j : Nat) : ScanFilter (columnCmp i (.var (colName j)))
  | constant (i : Nat) {node : AstNode} {expr : IrExpr} :
      constantExpr node = some expr → ScanFilter (columnCmp i expr)

/-- What every scan of a lowered rule has: it scans a relation, and its filters are those
that lowering puts around a scan. -/
structure ScansRelation (scan : AtomScan) : Prop where
  type : isScanType scan.op.type
  relation : scan.op.relationName.isSome
  filters : ∀ expr ∈ scan.filters, ScanFilter expr

def scanRelation (scan : AtomScan) : String := scan.op.relationName.getD ""

variable {scan : AtomScan}

theorem ScansRelation.relationName (scans : ScansRelation scan) :
    scan.op.relationName = some (scanRelation scan) := by
  obtain ⟨name, named⟩ := Option.isSome_iff_exists.mp scans.relation
  simp [scanRelation, named]

@[simp] theorem names_scanColumns (scan : AtomScan) :
    (scanColumns scan).names = scan.names := by
  simp [Layout.names, scanColumns, scanLayout, AtomScan.names, comp_def]

theorem collectOutputColumns_scan (scans : ScansRelation scan) :
    collectOutputColumns scan.node = some (scanColumns scan) := by
  have kind := scans.type
  rw [AtomScan.node, collectOutputColumns_wrapFilters, collectOutputColumns]
  cases type : scan.op.type <;> simp_all [isScanType, scanColumns]

theorem unwrapFilters_scan (scans : ScansRelation scan) :
    unwrapFilters scan.node = (scan.filters.reverse, .mk scan.op []) := by
  have kind := scans.type
  have leaf : unwrapFilters (.mk scan.op []) = ([], .mk scan.op []) := by
    rw [unwrapFilters]
    cases type : scan.op.type <;> simp_all [isScanType]
  rw [AtomScan.node, unwrapFilters_wrapFilters, leaf, append_nil]

theorem anyExtensionCall_eq_any : anyExtensionCall exprs = exprs.any exprContainsExtensionCall := by
  induction exprs with
  | nil => rfl
  | cons expr rest ih => simp [anyExtensionCall, ih]

variable {expr : IrExpr}

theorem ScanFilter.plain (filter : ScanFilter expr) : exprContainsExtensionCall expr = false := by
  cases filter with
  | never => rfl
  | columns i j => rfl
  | @constant i node expr found =>
    cases node <;> simp only [constantExpr, Option.some.injEq, reduceCtorEq] at found <;>
      subst found <;> rfl

theorem ScansRelation.plain (scans : ScansRelation scan) :
    anyExtensionCall scan.filters = false := by
  simp only [anyExtensionCall_eq_any, any_eq_false]
  intro expr member
  simp [(scans.filters expr member).plain]

/-- The filter that a scan puts on the right side of a join: its filters, outermost first, as
far as 32 of them go. -/
def rightFilter (scan : AtomScan) : Option PlanExpr :=
  (serializeExprs none (scanColumns scan) false (scan.filters.reverse.take 32)).bind combineFilters

theorem rightInput_scan (scans : ScansRelation scan) :
    rightInput scan.node = some (scanRelation scan, rightFilter scan) := by
  have plain : anyExtensionCall (scan.filters.reverse.take 32) = false := by
    have none := scans.plain
    simp only [anyExtensionCall_eq_any, any_eq_false] at none ⊢
    exact fun expr member => none expr (mem_reverse.mp (mem_of_mem_take member))
  have layout : collectOutputColumns (.mk scan.op []) = some (scanColumns scan) := by
    simpa [AtomScan.node] using collectOutputColumns_scan scans
  simp [rightInput, unwrapFiltersCollect, unwrapFilters_scan scans, plain, layout, nodeRelation,
    scans.relationName, rightFilter]

/-! ## Joins and antijoins -/

variable {names : List (Option String)}

theorem lookupName_isSome {name : String} : (lookupName names name).isSome ↔ some name ∈ names := by
  simp [lookupName]

def keyColumn (layout : Layout) (key : String) : Nat := (lookupName layout.names key).getD 0

variable {layout : Layout}

/-- Keys that name columns are resolved to them. -/
theorem resolveKeysToColN_of_mem {keys : List String}
    (named : ∀ key ∈ keys, some key ∈ layout.names) :
    resolveKeysToColN (some layout) keys = some (keys.map (keyColumn layout)) := by
  have each : keys.mapM (resolveKeyToColN layout) = some (keys.map (keyColumn layout)) := by
    induction keys with
    | nil => rfl
    | cons key rest ih =>
      obtain ⟨c, found⟩ := Option.isSome_iff_exists.mp (lookupName_isSome.mpr (named key (by simp)))
      rw [mapM_cons, ih fun other member => named other (by simp [member])]
      simp [resolveKeyToColN, keyColumn, found]
  unfold resolveKeysToColN
  split_ifs with empty
  · simp [empty]
  · exact each

def joinKeys (left : Layout) (scan : AtomScan) : List Nat × List Nat :=
  let keys := setupJoinKeys left.names scan.names
  (keys.map (keyColumn left), keys.map (keyColumn (scanColumns scan)))

def joinOp (left : Layout) (scan : AtomScan) : PlanOp :=
  .join (some (scanRelation scan)) (joinKeys left scan).1 (joinKeys left scan).2 (rightFilter scan)

/-- The operator that subtracts a scan. -/
def antijoinOp (left : Layout) (scan : AtomScan) : PlanOp :=
  .antijoin (scanRelation scan) (joinKeys left scan).1 (joinKeys left scan).2 (rightFilter scan)

/-- A tree whose columns have this layout. -/
structure LaidOut (body : Body) (layout : Layout) : Prop where
  collect : collectOutputColumns body.node = some layout
  names : layout.names = body.vars

variable {body : Body}

section

variable (laid : LaidOut body layout) (scans : ScansRelation scan)

include laid scans

theorem resolveJoinKeys_combine {type : NodeType} :
    resolveJoinKeys
        { type := type, joinLeftKeys := setupJoinKeys body.vars scan.names,
          joinRightKeys := setupJoinKeys body.vars scan.names } [body.node, scan.node] =
      some (joinKeys layout scan) := by
  have left : ∀ key ∈ setupJoinKeys body.vars scan.names, some key ∈ layout.names :=
    fun key member => laid.names ▸ (mem_setupJoinKeys.mp member).1
  have right : ∀ key ∈ setupJoinKeys body.vars scan.names,
      some key ∈ (scanColumns scan).names :=
    fun key member => by simpa using (mem_setupJoinKeys.mp member).2
  simp [resolveJoinKeys, firstLayout, laid.collect, collectOutputColumns_scan scans,
    resolveKeysToColN_of_mem left, resolveKeysToColN_of_mem right, joinKeys, laid.names]

end

theorem validate_scan (scans : ScansRelation scan) :
    validateExtensionPlanContext scan.node = true := by
  have kind := scans.type
  have plain := scans.plain
  have leaf : validateExtensionPlanContext (.mk scan.op []) = true := by
    cases type : scan.op.type <;>
      simp_all [isScanType, validateExtensionPlanContext, validateChildren]
  rw [AtomScan.node, validate_wrapFilters, leaf, Bool.and_true]
  simp only [anyExtensionCall_eq_any, any_eq_false, all_eq_true] at plain ⊢
  intro expr member
  simp [extensionCallsDirect, plain expr member]

/-- Combining a tree with a scan leaves the check of extension calls to the tree. -/
theorem validate_combine {type : NodeType} (scans : ScansRelation scan)
    (kind : type = .join ∨ type = .antijoin) :
    validateExtensionPlanContext (combine type body scan) =
      validateExtensionPlanContext body.node := by
  have plain : anyExtensionCall scan.filters.reverse = false := by
    simpa [anyExtensionCall_eq_any] using scans.plain
  rcases kind with rfl | rfl <;>
    simp [combine, validateExtensionPlanContext, validateChildren, unwrapFilters_scan scans,
      plain, validate_scan scans]

/-! ## Bodies -/

variable (scans : List AtomScan)

def scansLayout : Layout := scans.flatMap scanColumns

def joinOps : Layout → List AtomScan → List PlanOp
  | _, [] => []
  | left, scan :: rest => joinOp left scan :: joinOps (left ++ scanColumns scan) rest

/-- What plan generation makes of a tree: its columns, its operators, and whether it passes the
check of extension calls. -/
structure Translates (snapshot : Option Snapshot) (body : Body) (layout : Layout)
    (ops : Option (List PlanOp)) (valid : Bool) : Prop extends LaidOut body layout where
  translated : translateIrNode snapshot body.node = ops
  validated : validateExtensionPlanContext body.node = valid

section Translates

variable {snapshot} {ops : Option (List PlanOp)} {valid : Bool}
  (built : Translates snapshot body layout ops valid)

include built

theorem Translates.join (scans : ScansRelation scan) :
    Translates snapshot (joinScan body scan) (layout ++ scanColumns scan)
      (ops.map (· ++ [joinOp layout scan])) valid where
  collect := by
    simp [joinScan, combine, collectOutputColumns, collectJoin, built.collect,
      collectOutputColumns_scan scans]
  names := by
    have columns := names_scanColumns scan
    have names := built.names
    simp only [Layout.names] at columns names
    simp [joinScan, Layout.names, columns, names]
  translated := by
    simp only [joinScan, combine, translateIrNode, translateFirst, translateOp,
      resolveJoinKeys_combine built.toLaidOut scans, List.getElem?_cons_succ,
      List.getElem?_cons_zero, Option.mapM_some, rightInput_scan scans, built.translated]
    cases ops <;> rfl
  validated := (validate_combine scans (.inl rfl)).trans built.validated

theorem Translates.antijoin (scans : ScansRelation scan) :
    Translates snapshot (antijoinScan body scan) layout
      (ops.map (· ++ [antijoinOp layout scan])) valid where
  collect := by
    simp [antijoinScan, combine, collectOutputColumns, collectFirst, built.collect]
  names := built.names
  translated := by
    simp only [antijoinScan, combine, translateIrNode, translateFirst, translateOp,
      resolveJoinKeys_combine built.toLaidOut scans, List.getElem?_cons_succ,
      List.getElem?_cons_zero, Option.bind_some, rightInput_scan scans, built.translated]
    cases ops <;> rfl
  validated := (validate_combine scans (.inr rfl)).trans built.validated

theorem Translates.filters (exprs : List IrExpr) :
    Translates snapshot ⟨wrapFilters body.node exprs, body.vars⟩ layout
      (ops.bind fun below => (filterOps snapshot layout exprs).map (below ++ ·))
      (exprs.all extensionCallsDirect && valid) where
  collect := by simpa using built.collect
  names := built.names
  translated := by
    rw [translateIrNode_wrapFilters, built.translated, built.collect, Option.getD_some]
    cases ops <;> cases filterOps snapshot layout exprs <;> rfl
  validated := by rw [validate_wrapFilters, built.validated]

theorem Translates.joins (relations : ∀ scan ∈ scans, ScansRelation scan) :
    Translates snapshot (scans.foldl joinScan body) (layout ++ scansLayout scans)
      (ops.map (· ++ joinOps layout scans)) valid := by
  induction scans generalizing body layout ops with
  | nil => simpa [scansLayout, joinOps] using built
  | cons scan rest ih =>
    have further := ih (built.join (relations scan (by simp)))
      fun other member => relations other (by simp [member])
    simpa [scansLayout, joinOps, comp_def] using further

theorem Translates.antijoins (relations : ∀ scan ∈ scans, ScansRelation scan) :
    Translates snapshot (scans.foldl antijoinScan body) layout
      (ops.map (· ++ scans.map (antijoinOp layout))) valid := by
  induction scans generalizing body ops with
  | nil => simpa using built
  | cons scan rest ih =>
    have further := ih (built.antijoin (relations scan (by simp)))
      fun other member => relations other (by simp [member])
    simpa [comp_def] using further

end Translates

def bodyOps (snapshot : Option Snapshot) (form : RuleForm) : Option (List PlanOp) :=
  match form.scans with
  | [] => some []
  | first :: rest => do
      let scanFilters ← filterOps snapshot (scanColumns first) first.filters
      let conditions ← filterOps snapshot (scansLayout (first :: rest)) form.conditions
      return .variable first.op.relationName :: scanFilters ++ joinOps (scanColumns first) rest ++
        conditions ++ form.negations.map (antijoinOp (scansLayout (first :: rest)))

/-- What every form of a rule has: all its scans scan relations. -/
structure FormScans (form : RuleForm) : Prop where
  scans : ∀ scan ∈ form.scans, ScansRelation scan
  negations : ∀ scan ∈ form.negations, ScansRelation scan

theorem translateIrNode_scan (scans : ScansRelation scan) :
    translateIrNode snapshot scan.node =
      (filterOps snapshot (scanColumns scan) scan.filters).map
        (.variable scan.op.relationName :: ·) := by
  have kind := scans.type
  have layout : collectOutputColumns (.mk scan.op []) = some (scanColumns scan) := by
    simpa [AtomScan.node] using collectOutputColumns_scan scans
  have leaf : translateIrNode snapshot (.mk scan.op []) =
      some [.variable scan.op.relationName] := by
    rw [translateIrNode, translateOp]
    cases type : scan.op.type <;> simp_all [isScanType]
  rw [AtomScan.node, translateIrNode_wrapFilters, leaf, layout]
  simp only [Option.getD_some]
  cases filterOps snapshot (scanColumns scan) scan.filters <;> rfl

variable {form : RuleForm}

/-- The tree of a body has the columns of its scans and becomes the operators of the body. -/
theorem translates_body (relations : FormScans form) (built : form.body = some body) :
    Translates snapshot body (scansLayout form.scans) (bodyOps snapshot form)
      (form.conditions.all extensionCallsDirect) := by
  obtain ⟨scans, conditions, negations⟩ := form
  cases scans with
  | nil => cases built
  | cons first rest =>
    have firstScan : ScansRelation first := relations.scans first (by simp)
    have scanned : Translates snapshot ⟨first.node, first.names⟩ (scanColumns first) _ true :=
      ⟨⟨collectOutputColumns_scan firstScan, names_scanColumns first⟩,
        translateIrNode_scan snapshot firstScan, validate_scan firstScan⟩
    have joined := scanned.joins rest fun scan member => relations.scans scan (by simp [member])
    cases built
    convert (joined.filters conditions).antijoins negations relations.negations using 1
    · simp [scansLayout]
    · have layout : scansLayout (first :: rest) = scanColumns first ++ scansLayout rest := rfl
      simp only [bodyOps, layout]
      cases filterOps snapshot (scanColumns first) first.filters <;>
        cases filterOps snapshot (scanColumns first ++ scansLayout rest) conditions <;> simp
    · exact (Bool.and_true _).symm

/-! ## Heads -/

def mapOp (snapshot : Option Snapshot) (form : RuleForm) (exprs : List IrExpr) : Option PlanOp :=
  if exprs = [] then some (.map [] none)
  else (serializeExprs snapshot (scansLayout form.scans) false exprs).map fun planned =>
    .map (if form.scans = [] then List.range exprs.length
      else resolveProjectIndices (scansLayout form.scans) exprs) (some (planned.map some))

/-- The operator of a head without an aggregate. -/
def projectOp (snapshot : Option Snapshot) (form : RuleForm) (exprs : List IrExpr) :
    Option PlanOp :=
  if exprs.all extensionCallsDirect then mapOp snapshot form exprs else none

def reduceOp (snapshot : Option Snapshot) (rule : RuleNode) (layout : Layout) (fn : AggFn)
    (operand : Option IrExpr) : Option PlanOp :=
  let expr := operand.map (rewriteExprVarsToColumns layout.names)
  let type := (expr.map (exprResultType layout)).getD .unknown
  if fn = .avg ∧ type ≠ .float then none
  else if (expr.map exprContainsExtensionCall).getD false then none
  else (expr.mapM (serializeExpr snapshot layout false)).map fun planned =>
    .reduce fn ((rule.headArgs.zipIdx.filter (!·.1.isAggregate)).map
      fun (arg, i) => groupByIndex layout.names arg i) planned type
      (some (rule.headArgs.findIdx (·.isAggregate)))

def headOp (snapshot : Option Snapshot) (rule : RuleNode) (form : RuleForm) : Option PlanOp :=
  match headAggregate rule with
  | some (fn, args) => (convertFirst args).bind fun exprs =>
    reduceOp snapshot rule (scansLayout form.scans) fn exprs.head?
  | none => (convertExprs rule.headArgs).bind (projectOp snapshot form)

/-- The children of the root. -/
def bodyNodes (form : RuleForm) : List IrNode := (form.body.map (·.node)).toList

theorem body_eq_none : form.body = none ↔ form.scans = [] := by
  obtain ⟨scans, conditions, negations⟩ := form
  cases scans <;> simp [RuleForm.body, joinAll]

/-- What the root sees of its children. -/
structure RootInput (snapshot : Option Snapshot) (form : RuleForm) : Prop where
  ops : translateFirst snapshot (bodyNodes form) = bodyOps snapshot form
  layout : firstLayout (bodyNodes form) =
    if form.scans = [] then none else some (scansLayout form.scans)
  exprs : exprLayout (bodyNodes form) = scansLayout form.scans
  vars : (form.body.map (·.vars)).getD [] = (scansLayout form.scans).names
  valid : ∀ ops, bodyOps snapshot form = some ops → validateChildren (bodyNodes form) = true

/-- Conditions that become filters are direct calls or have none. -/
theorem filterOps_direct {snapshot : Option Snapshot} {exprs : List IrExpr} {ops : List PlanOp}
    (planned : filterOps snapshot layout exprs = some ops) : exprs.all extensionCallsDirect := by
  induction exprs generalizing ops with
  | nil => rfl
  | cons expr rest ih =>
    simp only [filterOps, mapM_cons, do_eq_some_iff] at planned
    obtain ⟨first, firstOp, others, otherOps, -⟩ := planned
    have direct : extensionCallsDirect expr := by
      by_contra indirect
      simp [filterOp, indirect] at firstOp
    simp only [all_cons, direct, Bool.true_and]
    exact ih otherOps

theorem rootInput (relations : FormScans form) : RootInput snapshot form := by
  cases built : form.body with
  | none =>
    have empty : form.scans = [] := body_eq_none.mp built
    constructor <;>
      simp [bodyNodes, built, empty, translateFirst, bodyOps, firstLayout, exprLayout,
        scansLayout, Layout.names, validateChildren]
  | some body =>
    have present : form.scans ≠ [] := fun empty => by
      simp [body_eq_none.mpr empty] at built
    have tree := translates_body snapshot relations built
    have layout : firstLayout (bodyNodes form) = some (scansLayout form.scans) := by
      simp [bodyNodes, built, firstLayout, tree.collect]
    refine ⟨?_, ?_, ?_, ?_, ?_⟩
    · simp [bodyNodes, built, translateFirst, tree.translated]
    · rw [layout, if_neg present]
    · rw [exprLayout, layout, Option.getD_some]
    · simp [built, tree.names]
    · intro planned found
      have direct : form.conditions.all extensionCallsDirect := by
        obtain ⟨first, rest, split⟩ := exists_cons_of_ne_nil present
        simp only [bodyOps, split, do_eq_some_iff] at found
        obtain ⟨_, _, _, conditionOps, _⟩ := found
        exact filterOps_direct conditionOps
      simp [bodyNodes, built, validateChildren, tree.validated, direct]

theorem convertExprs_length {nodes : List AstNode} {exprs : List IrExpr}
    (converted : convertExprs nodes = some exprs) : exprs.length = nodes.length := by
  induction nodes generalizing exprs with
  | nil => cases converted; rfl
  | cons node rest ih =>
    simp only [convertExprs, do_eq_some_iff, pure_eq_some_iff] at converted
    obtain ⟨first, -, others, later, rfl⟩ := converted
    simp [ih later]

/-- The operators of a tree that passes the check of extension calls. -/
def translateRoot (snapshot : Option Snapshot) (root : IrNode) : Option (List PlanOp) :=
  if validateExtensionPlanContext root then translateIrNode snapshot root else none

/-- End a plan with the removal of duplicates. -/
def finishPlan (ops : List PlanOp) : List PlanOp :=
  match ops.getLast? with
  | some .consolidate => ops
  | _ => ops ++ [.consolidate]

theorem generatePlan_eq (root : IrNode) :
    generatePlan snapshot root = (translateRoot snapshot root).map finishPlan := by
  unfold generatePlan translateRoot
  split_ifs
  · cases translateIrNode snapshot root <;> rfl
  · rfl

variable {op : IrOp}

section

variable {snapshot : Option Snapshot} (input : RootInput snapshot form)

include input

/-- The operators of a root that is a projection or an aggregate. -/
theorem translateRoot_mk {own : Option PlanOp} {ownValid : Bool}
    (kind : op.type = .project ∨ op.type = .aggregate)
    (validated : validateExtensionPlanContext (.mk op (bodyNodes form)) =
      (ownValid && validateChildren (bodyNodes form)))
    (translated : translateOp snapshot op (bodyNodes form) = own.map ([·])) :
    translateRoot snapshot (.mk op (bodyNodes form)) =
      (bodyOps snapshot form).bind fun below =>
        (if ownValid then own else none).map (below ++ [·]) := by
  have whole : translateIrNode snapshot (.mk op (bodyNodes form)) =
      (bodyOps snapshot form).bind fun below => own.map (below ++ [·]) := by
    have steps : translateIrNode snapshot (.mk op (bodyNodes form)) =
        (translateFirst snapshot (bodyNodes form)).bind fun below =>
          (translateOp snapshot op (bodyNodes form)).map (below ++ ·) := by
      rcases kind with kind | kind <;> simp [translateIrNode, kind, Option.map_eq_bind]
    rw [steps, input.ops, translated]
    simp [comp_def]
  unfold translateRoot
  rw [validated, whole]
  cases below : bodyOps snapshot form with
  | none => simp
  | some ops =>
    rw [input.valid ops below]
    cases ownValid <;> simp

theorem translateRoot_project (exprs : List IrExpr) (kind : op.type = .project)
    (indices : op.projectIndices = none) (count : op.projectCount = exprs.length)
    (projected : op.projectExprs = if exprs.isEmpty then none else some exprs) :
    translateRoot snapshot (.mk op (bodyNodes form)) =
      (bodyOps snapshot form).bind fun below =>
        (projectOp snapshot form exprs).map (below ++ [·]) := by
  have validated : validateExtensionPlanContext (.mk op (bodyNodes form)) =
      (exprs.all extensionCallsDirect && validateChildren (bodyNodes form)) := by
    cases exprs <;> simp [validateExtensionPlanContext, kind, projected]
  have translated : translateOp snapshot op (bodyNodes form) =
      (mapOp snapshot form exprs).map ([·]) := by
    cases exprs with
    | nil => simp [translateOp, kind, translateProject, indices, projected, count, mapOp]
    | cons expr rest =>
      simp only [translateOp, kind, translateProject, indices, projected, count, mapOp,
        input.layout, input.exprs, isEmpty_cons, Bool.false_eq_true, if_false,
        cons_ne_nil]
      cases serializeExprs snapshot (scansLayout form.scans) false (expr :: rest) with
      | none => rfl
      | some planned => by_cases empty : form.scans = [] <;> simp [empty]
  exact translateRoot_mk input (.inl kind) validated translated

/-- An aggregate resolves its expression against the columns below it. -/
theorem aggregateLayout_eq (columns : op.columnNames = (scansLayout form.scans).names) :
    aggregateLayout op (bodyNodes form) = scansLayout form.scans := by
  unfold aggregateLayout
  rw [input.exprs, columns]
  split_ifs with empty
  · rfl
  apply ext_getElem
  · simp [Layout.names]
  · intro i bound bound'
    simp [Layout.names, Layout.typeAt, bound']

theorem translateRoot_aggregate {rule : RuleNode} {fn : AggFn} {operand : Option IrExpr}
    (kind : op.type = .aggregate) (columns : op.columnNames = (scansLayout form.scans).names)
    (function : op.aggFn = fn)
    (expression : op.aggExpr =
      operand.map (rewriteExprVarsToColumns (scansLayout form.scans).names))
    (groups : op.groupByIndices = (rule.headArgs.zipIdx.filter (!·.1.isAggregate)).map
      fun (arg, i) => groupByIndex (scansLayout form.scans).names arg i)
    (index : op.aggregateIndex = some (rule.headArgs.findIdx (·.isAggregate))) :
    translateRoot snapshot (.mk op (bodyNodes form)) =
      (bodyOps snapshot form).bind fun below =>
        (reduceOp snapshot rule (scansLayout form.scans) fn operand).map (below ++ [·]) := by
  have layout := aggregateLayout_eq input columns
  let expr := operand.map (rewriteExprVarsToColumns (scansLayout form.scans).names)
  have validated : validateExtensionPlanContext (.mk op (bodyNodes form)) =
      (!(expr.map exprContainsExtensionCall).getD false && validateChildren (bodyNodes form)) := by
    simp [validateExtensionPlanContext, kind, expression, expr]
  have translated : translateOp snapshot op (bodyNodes form) =
      (reduceOp snapshot rule (scansLayout form.scans) fn operand).map ([·]) := by
    simp only [translateOp, kind, translateAggregate, layout, expression, groups, index,
      function, reduceOp]
  have checked : (if !(expr.map exprContainsExtensionCall).getD false then
      reduceOp snapshot rule (scansLayout form.scans) fn operand else none) =
        reduceOp snapshot rule (scansLayout form.scans) fn operand := by
    simp only [reduceOp, expr]
    split_ifs <;> simp_all
  rw [translateRoot_mk input (.inr kind) validated translated, checked]

end

/-! ## The scans of a rule -/

theorem duplicateVarFilters_scanFilter (member : expr ∈ duplicateVarFilters names) :
    ScanFilter expr := by
  simp only [duplicateVarFilters, mem_flatMap, mem_filterMap] at member
  obtain ⟨i, -, j, -, chosen⟩ := member
  split_ifs at chosen
  cases chosen
  exact .columns i j

theorem constantFilters_scanFilter {first : Nat} {args : List AstNode}
    (member : expr ∈ constantFilters first args) : ScanFilter expr := by
  simp only [constantFilters, mem_filterMap, Option.map_eq_some_iff] at member
  obtain ⟨⟨arg, i⟩, -, constant, found, rfl⟩ := member
  exact .constant i found

/-- What is extracted from an equality is its constant operand. -/
theorem extractVarConstEq_constant {literal : AstNode} {name : String} {constant : IrExpr}
    (found : extractVarConstEq literal = some (name, constant)) :
    ∃ node, constantExpr node = some constant := by
  unfold extractVarConstEq at found
  split at found
  · split at found
    · rename_i onRight
      cases found
      exact ⟨_, onRight⟩
    · split at found
      · rename_i onLeft
        cases found
        exact ⟨_, onLeft⟩
      · cases found
  · cases found

theorem pushedFilters_scanFilter {literal : AstNode} (member : expr ∈ pushedFilters names literal) :
    ScanFilter expr := by
  unfold pushedFilters at member
  split at member
  · cases member
  rename_i name constant found
  simp only [mem_filterMap] at member
  obtain ⟨⟨column, i⟩, -, chosen⟩ := member
  split_ifs at chosen
  cases chosen
  obtain ⟨node, constant⟩ := extractVarConstEq_constant found
  exact .constant i constant

variable (prog : Program)

theorem scanType_isScanType (pairs : List (AstNode × Column)) :
    isScanType (scanType prog pairs) := by
  fun_induction scanType prog pairs <;> simp_all [isScanType]

theorem buildAtomScan_scansRelation (position : Nat) (name : String) (args : List AstNode) :
    ScansRelation (buildAtomScan prog position name args) where
  type := scanType_isScanType prog _
  relation := rfl
  filters := by
    simp only [buildAtomScan, mem_append]
    rintro expr ((mismatch | duplicate) | constant)
    · split_ifs at mismatch
      · rw [mem_singleton.mp mismatch]
        exact .never
      · cases mismatch
    · exact duplicateVarFilters_scanFilter duplicate
    · exact constantFilters_scanFilter constant

theorem pushConstantFilters_scansRelation {body : List AstNode} (scans : ScansRelation scan) :
    ScansRelation (pushConstantFilters body scan) where
  type := scans.type
  relation := scans.relation
  filters := by
    intro expr member
    rcases mem_append.mp member with own | pushed
    · exact scans.filters expr own
    obtain ⟨literal, -, pushed⟩ := mem_flatMap.mp pushed
    exact pushedFilters_scanFilter pushed

theorem buildSideCompoundScan_scansRelation {binding : SideBinding}
    (built : buildSideCompoundScan binding = some scan) : ScansRelation scan := by
  simp only [buildSideCompoundScan, Option.map_eq_some_iff] at built
  obtain ⟨name, -, rfl⟩ := built
  refine ⟨rfl, rfl, ?_⟩
  simp only [mem_append]
  rintro expr ((duplicate | constant) | nested)
  · exact duplicateVarFilters_scanFilter duplicate
  · exact constantFilters_scanFilter constant
  · split_ifs at nested
    · rw [mem_singleton.mp nested]
      exact .never
    · cases nested

theorem scanWithSides_scansRelation {scans : List AtomScan} (relation : ScansRelation scan)
    (found : scanWithSides scan = .ok scans) : ∀ other ∈ scans, ScansRelation other := by
  obtain ⟨sides, sidesFound, same⟩ := bind_eq_ok_iff.mp found
  cases same
  intro other member
  rcases mem_cons.mp member with rfl | member
  · exact relation
  obtain ⟨binding, -, built⟩ := mem_of_mapM_eq_ok sidesFound member
  unfold sideScan at built
  split at built
  · cases built
  rename_i side sideBuilt
  cases built
  exact buildSideCompoundScan_scansRelation sideBuilt

theorem negatedScan_scansRelation {prog : Program} {hasBody : Bool}
    {vars : List (Option String)} {literal : AstNode × Nat} {scans : List AtomScan}
    (found : negatedScan prog hasBody vars literal = .ok scans) :
    ∀ scan ∈ scans, ScansRelation scan := by
  have lowered := negatedScan_eq_ok_iff.mp found
  cases kind : negatedLiteral literal.1 with
  | call name => simp [kind] at lowered
  | other => simp_all
  | atom name args =>
    simp only [kind] at lowered
    split_ifs at lowered
    · obtain ⟨-, -, rfl⟩ := lowered
      simpa using buildAtomScan_scansRelation prog literal.2 name args
    · simp [lowered]

theorem ruleForm_formScans {prog : Program} {rule : RuleNode}
    (formed : ruleForm prog rule = .ok form) : FormScans form := by
  obtain ⟨-, -, -, scans, scansFound, conditions, -, negations, negationsFound, rfl⟩ :=
    ruleForm_eq_ok_iff.mp formed
  constructor
  · intro scan member
    obtain ⟨group, inScans, inGroup⟩ := mem_flatten.mp member
    obtain ⟨source, inSources, found⟩ := mem_of_mapM_eq_ok scansFound inScans
    simp only [ruleScans, atomScans, mem_map] at inSources
    obtain ⟨-, ⟨atom, -, rfl⟩, rfl⟩ := inSources
    exact scanWithSides_scansRelation (pushConstantFilters_scansRelation
      (buildAtomScan_scansRelation prog _ _ _)) found scan inGroup
  · intro scan member
    obtain ⟨group, inNegations, inGroup⟩ := mem_flatten.mp member
    obtain ⟨literal, -, found⟩ := mem_of_mapM_eq_ok negationsFound inNegations
    exact negatedScan_scansRelation found scan inGroup

/-- The operators of a rule, before the removal of duplicates. -/
def ruleOps (prog : Program) (snapshot : Option Snapshot) (rule : RuleNode) :
    Option (List PlanOp) :=
  (convertRule prog rule).toOption.bind (translateRoot snapshot)

/-- **The operators of a rule are those of its form.** -/
theorem ruleOps_eq (snapshot : Option Snapshot) (rule : RuleNode) :
    ruleOps prog snapshot rule = (ruleForm prog rule).toOption.bind fun form =>
      (bodyOps snapshot form).bind fun below =>
        (headOp snapshot rule form).map (below ++ [·]) := by
  rw [ruleOps, convertRule_eq]
  cases formed : ruleForm prog rule with
  | error failure => rfl
  | ok form =>
    have input := rootInput snapshot (ruleForm_formScans formed)
    simp only [bind, Except.bind, Except.toOption, Option.bind_some, lowerHead, headOp]
    cases headAggregate rule with
    | some aggregate =>
      obtain ⟨fn, args⟩ := aggregate
      cases converted : convertFirst args with
      | none => simp [aggregateRoot, converted]
      | some exprs =>
        simp only [aggregateRoot, converted, Option.bind_some]
        exact translateRoot_aggregate input rfl input.vars rfl
          (by simp [input.vars]) (by simp [input.vars]) rfl
    | none =>
      cases converted : convertExprs rule.headArgs with
      | none => simp [projectRoot, converted]
      | some exprs =>
        simp only [projectRoot, converted, Option.bind_some]
        exact translateRoot_project input exprs rfl rfl (convertExprs_length converted).symm rfl

theorem headOp_ne_consolidate (rule : RuleNode) (form : RuleForm) :
    headOp snapshot rule form ≠ some .consolidate := by
  intro found
  unfold headOp at found
  split at found
  · obtain ⟨exprs, -, reduced⟩ := Option.bind_eq_some_iff.mp found
    simp only [reduceOp] at reduced
    split_ifs at reduced
    simp at reduced
  · obtain ⟨exprs, -, projected⟩ := Option.bind_eq_some_iff.mp found
    simp only [projectOp, mapOp] at projected
    split_ifs at projected <;> simp at projected

/-- **The plan of a rule is that of its form.** -/
theorem planRule_eq (snapshot : Option Snapshot) (rule : RuleNode) :
    planRule prog snapshot rule = (ruleForm prog rule).toOption.bind fun form =>
      (bodyOps snapshot form).bind fun below =>
        (headOp snapshot rule form).map fun last => below ++ [last, .consolidate] := by
  have planned : planRule prog snapshot rule = (ruleOps prog snapshot rule).map finishPlan := by
    unfold planRule ruleOps
    cases convertRule prog rule with
    | error failure => rfl
    | ok root => exact generatePlan_eq snapshot root
  rw [planned, ruleOps_eq, Option.map_bind]
  refine Option.bind_congr fun form _ => ?_
  rw [comp_apply, Option.map_bind]
  refine Option.bind_congr fun below _ => ?_
  rw [comp_apply, Option.map_map]
  refine Option.map_congr fun last found => ?_
  have distinct := headOp_ne_consolidate snapshot rule form
  rw [Option.mem_def.mp found] at distinct
  cases last <;> simp_all [finishPlan]

end Wirelog.Plan

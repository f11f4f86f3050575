import Wirelog.Foundations.Traversal
import Wirelog.IR.Lowering

/-!
# The form of a lowered rule

Lowering interleaves the construction of the tree with its checks. Both come apart: a rule
has a form (`RuleForm`: the scans in the order they are joined, the conditions, the negated
scans), and the tree is a function of the form. `convertRule_eq` says that lowering a rule is
computing its form and building the tree, with the same errors.
-/

set_option autoImplicit false

namespace Wirelog.IR

open Wirelog.Foundations List

/-! ## Join keys -/

/-- The join keys are the variables that both sides have. -/
theorem mem_setupJoinKeys {left right : List (Option String)} {name : String} :
    name ∈ setupJoinKeys left right ↔ some name ∈ left ∧ some name ∈ right := by
  simp only [setupJoinKeys, mem_filterMap, Prod.exists, mem_zipIdx_iff_getElem?]
  constructor
  · rintro ⟨column, i, found, chosen⟩
    split_ifs at chosen with seen shared
    subst chosen
    exact ⟨mem_of_getElem? found, shared⟩
  · rintro ⟨inLeft, inRight⟩
    -- the first occurrence on the left is the one that becomes a key
    have bound : left.idxOf (some name) < left.length := idxOf_lt_length_of_mem inLeft
    refine ⟨some name, left.idxOf (some name), ?_, ?_⟩
    · rw [List.getElem?_eq_getElem bound, getElem_idxOf]
    · have first : some name ∉ left.take (left.idxOf (some name)) := by
        intro earlier
        obtain ⟨i, hi, same⟩ := mem_take_iff_getElem.mp earlier
        have before : i < left.idxOf (some name) := by omega
        have differs := not_of_lt_findIdx before
        simp [same] at differs
      rw [if_neg first, if_pos inRight]

/-- A tree and a scan with a common variable have a join key. -/
theorem setupJoinKeys_ne_nil {left right : List (Option String)} {name : String}
    (inLeft : some name ∈ left) (inRight : some name ∈ right) :
    setupJoinKeys left right ≠ [] :=
  ne_nil_of_mem (mem_setupJoinKeys.mpr ⟨inLeft, inRight⟩)

/-! ## The form of a rule -/

def sideScan (binding : SideBinding) : Except LowerError AtomScan :=
  match buildSideCompoundScan binding with
  | none => .error (.sideCompound binding.functor)
  | some scan => .ok scan

def scanWithSides (scan : AtomScan) : Except LowerError (List AtomScan) := do
  let sides ← scan.sideBindings.mapM sideScan
  return scan :: sides

def negatedScan (prog : Program) (hasBody : Bool) (vars : List (Option String))
    (literal : AstNode × Nat) : Except LowerError (List AtomScan) :=
  match negatedLiteral literal.1 with
  | .call name => .error (.negatedExtension name)
  | .atom name args =>
    if !hasBody then .ok []
    else if atomHasDeclaredSideCompoundPattern prog name args then
      .error (.negatedSideCompound name)
    else
      let scan := buildAtomScan prog literal.2 name args
      match unboundName vars scan.names with
      | some variableName => .error (.unsafeVariable variableName name)
      | none => .ok [scan]
  | .other => .ok []

/-- What a rule's body is lowered to: the scans in the order they are joined, the conditions
and the negated scans. -/
structure RuleForm where
  scans : List AtomScan
  conditions : List IrExpr
  negations : List AtomScan

/-- The variables of the columns of joined scans. -/
def scanVars (scans : List AtomScan) : List (Option String) := scans.flatMap (·.names)

/-- The conditions of a body. Without a positive atom they are passed over. -/
def bodyConditions (hasBody : Bool) (body : List AstNode) :
    Except LowerError (List (List IrExpr)) :=
  if hasBody then body.mapM conditionFilter else .ok []

def ruleForm (prog : Program) (rule : RuleNode) : Except LowerError RuleForm := do
  if !validateHeadArity prog rule then throw .headArity
  let aggregates := rule.headArgs.countP (·.isAggregate)
  if 1 < aggregates then throw (.multipleAggregates aggregates)
  let atoms ← collectScans prog 0 false rule.body
  let scans ← (atoms.map (pushConstantFilters rule.body)).mapM scanWithSides
  let conditions ← bodyConditions (atoms ≠ []) rule.body
  let negations ← rule.body.zipIdx.mapM (negatedScan prog (atoms ≠ []) (scanVars scans.flatten))
  return ⟨scans.flatten, conditions.flatten, negations.flatten⟩

def joinAll : List AtomScan → Option Body
  | [] => none
  | first :: rest => some (rest.foldl joinScan ⟨first.node, first.names⟩)

/-- Subtract a scan from a tree. -/
def antijoinScan (current : Body) (scan : AtomScan) : Body :=
  ⟨combine .antijoin current scan, current.vars⟩

def RuleForm.body (form : RuleForm) : Option Body :=
  (joinAll form.scans).map fun joined =>
    form.negations.foldl antijoinScan ⟨wrapFilters joined.node form.conditions, joined.vars⟩

/-! ## Lowering computes the form and builds the tree -/

/-- Every side compound of a scan has its handle among the scan's columns. -/
def AtomScan.HandlesNamed (scan : AtomScan) : Prop :=
  ∀ binding ∈ scan.sideBindings, some binding.handleVar ∈ scan.names

variable {prog : Program} {scans : List AtomScan}

theorem argSlots_handle {columns : List Column} {position i : Nat}
    {arg : AstNode} {slot : Slot} {binding : SideBinding}
    (member : slot ∈ argSlots prog columns position i arg)
    (side : slot.sideBinding = some binding) : slot.name = some binding.handleVar := by
  unfold argSlots at member
  split at member
  · simp_all
  · split at member
    · simp_all
    split_ifs at member
    · simp only [mem_map] at member
      obtain ⟨child, -, rfl⟩ := member
      simp at side
    · simp only [mem_singleton] at member
      subst member
      cases side
      rfl
    · simp_all
  · simp_all

theorem buildAtomScan_handlesNamed (prog : Program) (position : Nat) (name : String)
    (args : List AstNode) : (buildAtomScan prog position name args).HandlesNamed := by
  intro binding member
  simp only [buildAtomScan, mem_filterMap] at member
  obtain ⟨slot, inSlots, side⟩ := member
  have inArg := inSlots
  simp only [atomSlots, mem_flatMap] at inArg
  obtain ⟨arg, -, inArg⟩ := inArg
  simp only [AtomScan.names, buildAtomScan, mem_map]
  exact ⟨slot, inSlots, argSlots_handle inArg side⟩

/-- The scan of a side compound has its handle among its columns. -/
theorem buildSideCompoundScan_names {binding : SideBinding} {scan : AtomScan}
    (built : buildSideCompoundScan binding = some scan) :
    scan.names = some binding.handleVar :: binding.args.map (·.variableName) := by
  simp only [buildSideCompoundScan, Option.map_eq_some_iff] at built
  obtain ⟨name, -, rfl⟩ := built
  rfl

theorem attachSideCompoundJoins_eq (bindings : List SideBinding) (current : Body)
    (named : ∀ binding ∈ bindings, some binding.handleVar ∈ current.vars) :
    attachSideCompoundJoins current bindings =
      (bindings.mapM sideScan).map (·.foldl joinScan current) := by
  induction bindings generalizing current with
  | nil => rfl
  | cons binding rest ih =>
    simp only [attachSideCompoundJoins, foldlM_cons, mapM_cons]
    cases built : buildSideCompoundScan binding with
    | none => simp [attachSideCompound, sideScan, built, bind, Except.bind, Except.map]
    | some scan =>
      have handleLeft : some binding.handleVar ∈ current.vars := named binding (by simp)
      have handleRight : some binding.handleVar ∈ scan.names := by
        rw [buildSideCompoundScan_names built]
        exact mem_cons_self
      have later : ∀ other ∈ rest, some other.handleVar ∈ (joinScan current scan).vars :=
        fun other member => mem_append_left _ (named other (by simp [member]))
      have tail := ih (joinScan current scan) later
      simp only [attachSideCompoundJoins] at tail
      simp only [attachSideCompound, sideScan, built,
        if_neg (setupJoinKeys_ne_nil handleLeft handleRight), bind, Except.bind, tail]
      cases rest.mapM sideScan <;> rfl

theorem joinRest_eq (scans : List AtomScan) (current : Body)
    (named : ∀ scan ∈ scans, scan.HandlesNamed) :
    scans.foldlM
        (fun body scan => attachSideCompoundJoins (joinScan body scan) scan.sideBindings)
        current =
      (scans.mapM scanWithSides).map (·.flatten.foldl joinScan current) := by
  induction scans generalizing current with
  | nil => rfl
  | cons scan rest ih =>
    have handles : ∀ binding ∈ scan.sideBindings,
        some binding.handleVar ∈ (joinScan current scan).vars :=
      fun binding member => mem_append_right _ (named scan (by simp) binding member)
    have tail := fun body => ih body fun other member => named other (by simp [member])
    simp only [foldlM_cons, mapM_cons, attachSideCompoundJoins_eq _ _ handles, scanWithSides]
    cases scan.sideBindings.mapM sideScan with
    | error failure => rfl
    | ok sides =>
      simp only [Except.map, bind, Except.bind, tail, pure, Except.pure]
      cases rest.mapM scanWithSides <;> simp

/-- The join of the scans is the join of all scans in their order. -/
theorem joinScans_eq (scans : List AtomScan) (named : ∀ scan ∈ scans, scan.HandlesNamed) :
    joinScans scans = (scans.mapM scanWithSides).map (joinAll ·.flatten) := by
  cases scans with
  | nil => rfl
  | cons first rest =>
    have handles : ∀ binding ∈ first.sideBindings, some binding.handleVar ∈ first.names :=
      named first (by simp)
    have tail := fun body => joinRest_eq rest body fun scan member =>
      named scan (by simp [member])
    simp only [joinScans, attachSideCompoundJoins_eq first.sideBindings
      ⟨first.node, first.names⟩ handles, mapM_cons, scanWithSides]
    cases first.sideBindings.mapM sideScan with
    | error failure => rfl
    | ok sides =>
      simp only [Except.map, bind, Except.bind, tail, pure, Except.pure]
      cases rest.mapM scanWithSides <;> simp [joinAll]

theorem collectScans_handlesNamed (body : List AstNode) {position : Nat} {scanned : Bool}
    (collected : collectScans prog position scanned body = .ok scans) :
    ∀ scan ∈ scans, scan.HandlesNamed := by
  fun_induction collectScans prog position scanned body generalizing scans with
  | case1 => simp_all
  | case2 position name args rest ih => exact ih collected
  | case3 => cases collected
  | case4 position scanned name args rest ih =>
    cases later : collectScans prog (position + 1) true rest with
    | error failure => simp [later, bind, Except.bind] at collected
    | ok others =>
      simp only [later, bind, Except.bind, pure, Except.pure, Except.ok.injEq] at collected
      subst collected
      intro scan member
      rcases mem_cons.mp member with rfl | member
      · exact buildAtomScan_handlesNamed prog position name args
      · exact ih later scan member
  | case5 position scanned node rest _ _ ih => exact ih collected

/-- Filters pushed into a scan leave its columns and side compounds alone. -/
theorem pushConstantFilters_handlesNamed {body : List AstNode} {scan : AtomScan}
    (named : scan.HandlesNamed) : (pushConstantFilters body scan).HandlesNamed := named

/-- Without a positive atom the negated literals are only checked. -/
theorem addAntijoins_none (prog : Program) (vars : List (Option String))
    (literals : List (AstNode × Nat)) :
    literals.foldlM (addAntijoin prog) none =
      (literals.mapM (negatedScan prog false vars)).map fun _ => none := by
  induction literals with
  | nil => rfl
  | cons literal rest ih =>
    have here : addAntijoin prog none literal =
        (negatedScan prog false vars literal).map fun _ => none := by
      unfold addAntijoin negatedScan
      cases negatedLiteral literal.1 <;> rfl
    simp only [foldlM_cons, mapM_cons, here]
    cases negatedScan prog false vars literal with
    | error failure => rfl
    | ok scans =>
      simp only [Except.map, bind, Except.bind] at ih ⊢
      rw [ih]
      cases rest.mapM (negatedScan prog false vars) <;> rfl

/-- With a positive atom each negated scan is subtracted in turn. -/
theorem addAntijoins_some (prog : Program) (literals : List (AstNode × Nat)) (body : Body) :
    literals.foldlM (addAntijoin prog) (some body) =
      (literals.mapM (negatedScan prog true body.vars)).map
        fun scans => some (scans.flatten.foldl antijoinScan body) := by
  induction literals generalizing body with
  | nil => rfl
  | cons literal rest ih =>
    have here : addAntijoin prog (some body) literal =
        (negatedScan prog true body.vars literal).map
          fun scans => some (scans.foldl antijoinScan body) := by
      unfold addAntijoin negatedScan
      cases negatedLiteral literal.1 with
      | call name => rfl
      | other => rfl
      | atom name args =>
        simp only [Bool.not_true, Bool.false_eq_true, if_false]
        split_ifs
        · rfl
        · cases unboundName body.vars _ <;> rfl
    have sameVars (scans : List AtomScan) : (scans.foldl antijoinScan body).vars = body.vars := by
      induction scans using List.reverseRecOn with
      | nil => rfl
      | append_singleton scans scan prior => simp [antijoinScan, prior]
    simp only [foldlM_cons, mapM_cons, here]
    cases negatedScan prog true body.vars literal with
    | error failure => rfl
    | ok scans =>
      simp only [Except.map, bind, Except.bind, ih, sameVars, pure, Except.pure]
      cases rest.mapM (negatedScan prog true body.vars) <;> simp

/-- The variables of joined scans, in order. -/
theorem joinRest_vars (scans : List AtomScan) (current : Body) :
    (scans.foldl joinScan current).vars = current.vars ++ scanVars scans := by
  induction scans generalizing current with
  | nil => simp [scanVars]
  | cons scan rest ih => simp [ih, joinScan, scanVars]

/-- The tree of joined scans exists when there is a scan, with the variables of all scans. -/
theorem joinAll_vars {joined : Body}
    (found : joinAll scans = some joined) : joined.vars = scanVars scans := by
  cases scans with
  | nil => cases found
  | cons first rest =>
    cases found
    rw [joinRest_vars]
    rfl

theorem joinAll_isSome (scans : List AtomScan) : (joinAll scans).isSome = !scans.isEmpty := by
  cases scans <;> rfl

/-- Adding side compounds leaves no scan out. -/
theorem scanWithSides_flatten_eq_nil {ordered : List (List AtomScan)}
    (found : scans.mapM scanWithSides = .ok ordered) : ordered.flatten = [] ↔ scans = [] := by
  cases scans with
  | nil => cases found; simp
  | cons first rest =>
    simp only [mapM_cons, scanWithSides] at found
    cases sides : first.sideBindings.mapM sideScan with
    | error failure => simp [sides, bind, Except.bind] at found
    | ok firstSides =>
      cases later : rest.mapM scanWithSides with
      | error failure =>
        simp [sides, later, bind, Except.bind, pure, Except.pure] at found
      | ok others =>
        simp only [sides, later, bind, Except.bind, pure, Except.pure, Except.ok.injEq] at found
        subst found
        simp

/-- **Lowering a rule is computing its form and building the tree of the form.** -/
theorem convertRule_eq (prog : Program) (rule : RuleNode) :
    convertRule prog rule = ruleForm prog rule >>= fun form => lowerHead rule form.body := by
  unfold convertRule ruleForm
  by_cases arity : validateHeadArity prog rule
  · by_cases several : 1 < rule.headArgs.countP (·.isAggregate)
    · simp [arity, several, bind, Except.bind, throw, throwThe, MonadExceptOf.throw]
    simp only [arity, several, Bool.not_true, Bool.false_eq_true, if_false]
    cases collected : collectScans prog 0 false rule.body with
    | error failure => rfl
    | ok atoms =>
      have named : ∀ scan ∈ atoms.map (pushConstantFilters rule.body), scan.HandlesNamed := by
        intro scan member
        obtain ⟨atom, inAtoms, rfl⟩ := mem_map.mp member
        exact pushConstantFilters_handlesNamed
          (collectScans_handlesNamed rule.body collected atom inAtoms)
      simp only [bind, Except.bind, joinScans_eq _ named]
      cases ordered : (atoms.map (pushConstantFilters rule.body)).mapM scanWithSides with
      | error failure => rfl
      | ok scans =>
        have present : scans.flatten = [] ↔ atoms = [] := by
          simpa using scanWithSides_flatten_eq_nil ordered
        simp only [Except.map]
        cases joined : joinAll scans.flatten with
        | none =>
          have empty : atoms = [] := present.mp (by
            have absent := joinAll_isSome scans.flatten
            simpa [joined] using absent)
          simp only [empty, addFilters, addAntijoins_none prog (scanVars scans.flatten),
            bodyConditions, ne_eq, not_true_eq_false, decide_false, Bool.false_eq_true, if_false]
          cases rule.body.zipIdx.mapM (negatedScan prog false (scanVars scans.flatten)) with
          | error failure => rfl
          | ok negations =>
            simp [Except.map, pure, Except.pure, RuleForm.body, joined]
        | some body =>
          have nonempty : atoms ≠ [] := fun empty => by
            simp [present.mpr empty, joinAll] at joined
          simp only [nonempty, addFilters, bodyConditions, ne_eq, not_false_eq_true,
            decide_true, if_true, ← joinAll_vars joined]
          cases rule.body.mapM conditionFilter with
          | error failure => rfl
          | ok conditions =>
            simp only [bind, Except.bind, pure, Except.pure, addAntijoins_some]
            cases rule.body.zipIdx.mapM (negatedScan prog true body.vars) with
            | error failure => rfl
            | ok negations => simp [Except.map, RuleForm.body, joined]
  · simp [arity, bind, Except.bind, throw, throwThe, MonadExceptOf.throw]

/-! ## Rules that have a form -/

def positiveAtoms : Nat → List AstNode → List (Nat × String × List AstNode)
  | _, [] => []
  | position, .atom name args :: rest => (position, name, args) :: positiveAtoms (position + 1) rest
  | position, _ :: rest => positiveAtoms (position + 1) rest

/-- Whether every extension call of a body comes after a positive atom. -/
def callsFollowAtoms : Bool → List AstNode → Bool
  | _, [] => true
  | scanned, .extensionCall _ _ :: rest => scanned && callsFollowAtoms scanned rest
  | _, .atom _ _ :: rest => callsFollowAtoms true rest
  | scanned, _ :: rest => callsFollowAtoms scanned rest

def atomScans (prog : Program) (atoms : List (Nat × String × List AstNode)) : List AtomScan :=
  atoms.map fun (position, name, args) => buildAtomScan prog position name args

theorem collectScans_eq_ok_iff {position : Nat} {scanned : Bool} {body : List AstNode} :
    collectScans prog position scanned body = .ok scans ↔
      callsFollowAtoms scanned body ∧ scans = atomScans prog (positiveAtoms position body) := by
  fun_induction collectScans prog position scanned body generalizing scans with
  | case1 => simp [callsFollowAtoms, positiveAtoms, atomScans, eq_comm]
  | case2 position name args rest ih =>
    rw [ih, callsFollowAtoms, positiveAtoms, Bool.true_and]
    simp
  | case3 position scanned name args rest early => simp [callsFollowAtoms, early]
  | case4 position scanned name args rest ih =>
    rw [callsFollowAtoms, positiveAtoms]
    refine bind_eq_ok_iff.trans ?_
    simp only [ih, pure, Except.pure, Except.ok.injEq, atomScans, map_cons]
    constructor
    · rintro ⟨-, ⟨follows, rfl⟩, rfl⟩
      exact ⟨follows, rfl⟩
    · rintro ⟨follows, rfl⟩
      exact ⟨_, ⟨follows, rfl⟩, rfl⟩
  | case5 position scanned node rest notCall notAtom ih =>
    rw [ih]
    cases node <;> simp_all [callsFollowAtoms, positiveAtoms]

theorem unboundName_eq_none_iff {bound names : List (Option String)} :
    unboundName bound names = none ↔ ∀ name, some name ∈ names → some name ∈ bound := by
  unfold unboundName
  cases found : names.find? fun name => name ≠ none ∧ name ∉ bound with
  | none =>
    simp only [Option.join_none, true_iff]
    intro name member
    by_contra unbound
    have rejected := List.find?_eq_none.mp found (some name) member
    simp [unbound] at rejected
  | some name =>
    have chosen := List.find?_some found
    have member := mem_of_find?_eq_some found
    simp only [ne_eq, decide_eq_true_eq] at chosen
    obtain ⟨variableName, rfl⟩ := Option.ne_none_iff_exists'.mp chosen.1
    simp only [Option.join_some, reduceCtorEq, false_iff]
    exact fun bounds => chosen.2 (bounds variableName member)

theorem negatedScan_eq_ok_iff {hasBody : Bool} {vars : List (Option String)}
    {literal : AstNode × Nat} :
    negatedScan prog hasBody vars literal = .ok scans ↔
      match negatedLiteral literal.1 with
      | .call _ => False
      | .other => scans = []
      | .atom name args =>
        if hasBody then
          ¬ atomHasDeclaredSideCompoundPattern prog name args ∧
          (∀ v, some v ∈ (buildAtomScan prog literal.2 name args).names → some v ∈ vars) ∧
          scans = [buildAtomScan prog literal.2 name args]
        else scans = [] := by
  unfold negatedScan
  cases negatedLiteral literal.1 with
  | call name => simp
  | other => simp [eq_comm]
  | atom name args =>
    cases hasBody with
    | false => simp [eq_comm]
    | true =>
      simp only [Bool.not_true, Bool.false_eq_true, if_false, if_true]
      split_ifs with side
      · simp [side]
      rw [← unboundName_eq_none_iff]
      cases unboundName vars (buildAtomScan prog literal.2 name args).names <;> simp [side, eq_comm]

/-- The scans of the positive atoms of a rule, with the filters that its equalities push into
them. -/
def ruleScans (prog : Program) (rule : RuleNode) : List AtomScan :=
  (atomScans prog (positiveAtoms 0 rule.body)).map (pushConstantFilters rule.body)

/-- A rule has a form when it passes every check of lowering up to the head. -/
theorem ruleForm_eq_ok_iff {rule : RuleNode} {form : RuleForm} :
    ruleForm prog rule = .ok form ↔
      validateHeadArity prog rule ∧ rule.headArgs.countP (·.isAggregate) ≤ 1 ∧
      callsFollowAtoms false rule.body ∧
      ∃ scans, (ruleScans prog rule).mapM scanWithSides = .ok scans ∧
      ∃ conditions, bodyConditions (positiveAtoms 0 rule.body ≠ []) rule.body = .ok conditions ∧
      ∃ negations, rule.body.zipIdx.mapM (negatedScan prog (positiveAtoms 0 rule.body ≠ [])
        (scanVars scans.flatten)) = .ok negations ∧
      form = ⟨scans.flatten, conditions.flatten, negations.flatten⟩ := by
  unfold ruleForm
  by_cases arity : validateHeadArity prog rule
  · by_cases several : 1 < rule.headArgs.countP (·.isAggregate)
    · simp [arity, several, bind, Except.bind, throw, throwThe, MonadExceptOf.throw]
    have single : rule.headArgs.countP (·.isAggregate) ≤ 1 := by omega
    simp only [arity, several, single, Bool.not_true, Bool.false_eq_true, if_false, true_and]
    refine bind_eq_ok_iff.trans ?_
    simp only [collectScans_eq_ok_iff, and_assoc, exists_and_left]
    refine and_congr_right fun _ => ?_
    rw [exists_eq_left]
    have empty : atomScans prog (positiveAtoms 0 rule.body) = [] ↔
        positiveAtoms 0 rule.body = [] := by simp [atomScans]
    simp only [ne_eq, empty]
    refine bind_eq_ok_iff.trans (exists_congr fun scans => and_congr_right fun _ => ?_)
    refine bind_eq_ok_iff.trans (exists_congr fun conditions => and_congr_right fun _ => ?_)
    refine bind_eq_ok_iff.trans (exists_congr fun negations => and_congr_right fun _ => ?_)
    exact ⟨fun same => (Except.ok.inj same).symm, fun same => congrArg Except.ok same.symm⟩
  · simp [arity, bind, Except.bind, throw, throwThe, MonadExceptOf.throw]

end Wirelog.IR

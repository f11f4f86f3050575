import Wirelog.SemiNaive.Session

/-!
# Rewrites of plans

When the rules of all relations have been translated, four passes go over the plan. A scan of an
input relation that is followed by two or more joins with input relations on one key becomes a
leapfrog join. The plan of a relation whose rules read the stratum in two or more places becomes a
fusion of copies, one for each place, in which this place reads added rows and the others whole
relations. A projection after a join becomes part of the join. At the end of the plan of a
recursive relation stands an exchange, with the key columns of a join of this plan.

What a plan reads is recorded before the passes run (`recordRefs`), because a leapfrog join and a
fusion no longer show it. Each pass keeps the names of the relations and the record, and shows no
relation that the plan did not show before (`Pass.run_keeps`).
-/

set_option autoImplicit false

namespace Wirelog.SemiNaive

open Wirelog.IR Wirelog.Plan Wirelog.Foundations List

/-! ## Plans of programs -/

/-- The operators that a copy may consist of. -/
inductive InnerOp where
  | step (op : StepOp)
  /-- `wl_plan_op_lftj_t`: relations with their key columns. -/
  | lftj (inputs : List (String × Nat))

/-- `wl_plan_op_exchange_t`: the key columns of the relation, those of the input relation it is
joined with, and the name of this one when it may be distributed as well. -/
structure Exchange where
  keyCols : List Nat
  edbKeyCols : List Nat
  edbRel : Option String

/-- The operators of a relation plan. -/
inductive TopOp where
  | inner (op : InnerOp)
  | kFusion (copies : List (List InnerOp))
  | exchange (keys : Exchange)

/-- `wl_plan_relation_t`. -/
structure PlanRel where
  name : String
  ops : List TopOp

/-- `wl_plan_stratum_t`, with the relations that each plan was seen to read, if recorded. -/
structure PlanStratum where
  isRecursive : Bool
  relations : List PlanRel
  ruleRefs : Option (List (List String))

/-- `wl_plan_t`. -/
structure ExecPlan where
  strata : List PlanStratum
  edbRelations : List String

def ExecPlan.mapOps (change : PlanStratum → List TopOp → List TopOp) (plan : ExecPlan) :
    ExecPlan :=
  { plan with strata := plan.strata.map fun stratum =>
      { stratum with relations := stratum.relations.map fun rel =>
          { rel with ops := change stratum rel.ops } } }

/-! ## Leapfrog joins -/

variable (edb : List String)

/-- A join that may be part of a chain: the input relation on its right, and its keys. -/
def chainJoin : TopOp → Option (String × Nat × Nat)
  | .inner (.step op) => match op.op with
      | .join (some right) [leftKey] [rightKey] none =>
        if right ∈ edb then some (right, leftKey, rightKey) else none
      | _ => none
  | _ => none

def chainJoins : Option (Nat × Nat) → List TopOp → List (String × Nat × Nat)
  | _, [] => []
  | keys, op :: rest => match chainJoin edb op with
      | none => []
      | some join =>
        if keys.all (· = join.2) then join :: chainJoins (some join.2) rest else []

/-- `lftj_chain_len` and `build_lftj_op`: the leapfrog join for a chain at the head of a list, and
the number of joins in it. -/
def lftjAt : List TopOp → Option (TopOp × Nat)
  | .inner (.step op) :: rest => match op.op, chainJoins edb none rest with
      | .variable (some rel), (right, leftKey, rightKey) :: second :: joins =>
        if rel ∈ edb then
          some (.inner (.lftj ((rel, leftKey) :: (right, rightKey) :: (second :: joins).map
            fun join => (join.1, rightKey))), joins.length + 2)
        else none
      | _, _ => none
  | _ => none

/-- `rewrite_lftj_chains` for one relation; the operators of a chain are left out. -/
def lftjOps : Nat → List TopOp → List TopOp
  | _, [] => []
  | skip + 1, _ :: rest => lftjOps skip rest
  | 0, op :: rest => match lftjAt edb (op :: rest) with
      | some (lftj, joins) => lftj :: lftjOps joins rest
      | none => op :: lftjOps 0 rest

variable (plan : ExecPlan)

def rewriteLftjChains : ExecPlan :=
  plan.mapOps fun _ ops => lftjOps plan.edbRelations 0 ops

/-! ## Fusions of copies -/

def deltaRelation : InnerOp → Option String
  | .step op => match op.op with
      | .variable rel => rel
      | .join rel _ _ _ => rel
      | _ => none
  | .lftj _ => none

variable (idb : List String)

/-- `count_delta_positions`: whether an operator reads a relation of the stratum. -/
def isDeltaPosition (op : InnerOp) : Bool :=
  (deltaRelation op).any (· ∈ idb)

def isScan : InnerOp → Bool
  | .step op => match op.op with
      | .variable _ => true
      | _ => false
  | .lftj _ => false

def isJoin : InnerOp → Bool
  | .step op => match op.op with
      | .join _ _ _ _ => true
      | _ => false
  | .lftj _ => false

def isUnion : InnerOp → Bool
  | .step op => match op.op with
      | .concat => true
      | _ => false
  | .lftj _ => false

/-- The operators of copy `d` of `k`, after `seen` places and `joins` joins among them. -/
def annotateCopy (k d : Nat) : Nat → Nat → List InnerOp → List InnerOp
  | _, _, [] => []
  | seen, joins, .lftj inputs :: rest => .lftj inputs :: annotateCopy k d seen joins rest
  | seen, joins, .step op :: rest =>
    if isDeltaPosition idb (.step op) then
      let join := isJoin (.step op)
      .step { op with
          deltaMode := if seen = d then .forceDelta else .forceFull
          materialized := op.materialized || (join && decide (joins < k - 2)) } ::
        annotateCopy k d (seen + 1) (if join then joins + 1 else joins) rest
    else .step { op with deltaMode := .auto } :: annotateCopy k d seen joins rest

/-- The part of a copy that belongs to one rule: the depth of the stack, the scan that the part
begins with, and the modes in it. -/
structure Segment where
  depth : Nat := 0
  scan : Option Nat := none
  hasDelta : Bool := false
  hasFull : Bool := false

/-- The scan of a part without a forced delta yields nothing: at once when the part reads the
stratum, after the first pass otherwise. -/
def Segment.close (segment : Segment) : List (Nat × DeltaMode) :=
  match segment.scan with
  | none => []
  | some scan =>
    if segment.hasDelta then []
    else [(scan, if segment.hasFull then .forceEmpty else .forceEmptyAfterSeed)]

def modeOf : InnerOp → DeltaMode
  | .step op => op.deltaMode
  | .lftj _ => .auto

/-- A part after one more operator. The depth is a 32-bit counter. -/
def Segment.add (segment : Segment) (i : Nat) (op : InnerOp) : Segment :=
  { depth := if isScan op then (segment.depth + 1) % 2 ^ 32
      else if isUnion op then (segment.depth + (2 ^ 32 - 1)) % 2 ^ 32 else segment.depth
    scan := if isScan op then segment.scan.or (some i) else segment.scan
    hasDelta := segment.hasDelta || decide (modeOf op = .forceDelta)
    hasFull := segment.hasFull || decide (modeOf op = .forceFull) }

/-- The scans of a copy that yield nothing. -/
def emptyScans : Nat → Segment → List InnerOp → List (Nat × DeltaMode)
  | _, segment, [] => segment.close
  | i, segment, op :: rest =>
    if isScan op && decide (1 ≤ segment.depth) then
      segment.close ++
        emptyScans (i + 1) (Segment.add ⟨segment.depth, none, false, false⟩ i op) rest
    else emptyScans (i + 1) (segment.add i op) rest

/-- Change the mode of an operator. -/
def setMode (mode : DeltaMode) : InnerOp → InnerOp
  | .step op => .step { op with deltaMode := mode }
  | .lftj inputs => .lftj inputs

/-- Change the modes of operators at some places. -/
def setModes (modes : List (Nat × DeltaMode)) (ops : List InnerOp) : List InnerOp :=
  ops.zipIdx.map fun (op, i) => match modes.lookup i with
    | some mode => setMode mode op
    | none => op

/-- Copy `d` of `k`. Its rows are sorted and distinct in the end. -/
def fusedCopy (ops : List InnerOp) (k d : Nat) : List InnerOp :=
  let copy := annotateCopy idb k d 0 0 ops
  setModes (emptyScans 0 {} copy) copy ++ [.step { op := .consolidate }]

variable (ops : List TopOp)

/-- The operators that are neither fusions nor exchanges. -/
def innerOps : List InnerOp :=
  ops.filterMap fun op => match op with
    | .inner op => some op
    | _ => none

/-- `expand_multiway_k_fusion`, for a relation whose plan reads the stratum in two or more
places. -/
def fuseCopies : List TopOp :=
  let k := (innerOps ops).countP (isDeltaPosition idb)
  if 2 ≤ k then [.kFusion ((List.range k).map (fusedCopy idb (innerOps ops) k))] else ops

def PlanStratum.names (stratum : PlanStratum) : List String := stratum.relations.map (·.name)

def rewriteMultiwayDelta : ExecPlan :=
  plan.mapOps fun stratum ops => if stratum.isRecursive then fuseCopies stratum.names ops else ops

/-! ## Projections of joins -/

/-- `map_op_is_pure_projection`: the columns that a map keeps, when it does nothing else. -/
def pureProjection : InnerOp → Option (List Nat)
  | .step op => match op.op with
      | .map indices exprs =>
        if indices = [] then none
        else match exprs with
          | none => some indices
          | some exprs =>
            if exprs = [] ∨ (exprs.length = indices.length ∧ (exprs.zip indices).all fun pair =>
                match pair.1 with
                | none => true
                | some (.var .plain column) => column = pair.2
                | _ => false) then some indices else none
      | _ => none
  | .lftj _ => none

def composeJoinProjection (join : StepOp) (indices : List Nat) : Option StepOp :=
  let composed := if join.projection = [] then some indices
    else indices.mapM fun i => join.projection[i]?
  composed.map fun projection => { join with projection := projection, materialized := false }

/-- `rewrite_join_project_fusion_ops`, from an operator on. -/
def fuseProjections : InnerOp → List InnerOp → Option (List InnerOp)
  | op, [] => some [op]
  | .lftj inputs, next :: rest => (fuseProjections next rest).map (.lftj inputs :: ·)
  | .step op, next :: rest => match isJoin (.step op), pureProjection next with
      | true, some indices => (composeJoinProjection op indices).bind fun join =>
        fuseProjections (.step join) rest
      | _, _ => (fuseProjections next rest).map (.step op :: ·)

/-- `rewrite_join_project_fusion_ops`. -/
def fuseAll : List InnerOp → Option (List InnerOp)
  | [] => some []
  | op :: rest => fuseProjections op rest

/-- `rewrite_join_project_fusion` for one operator of a relation plan. -/
def fuseInside : TopOp → Option TopOp
  | .kFusion copies => (copies.mapM fuseAll).map .kFusion
  | op => some op

/-- `rewrite_join_project_fusion` for one relation: its own operators, and those of its copies. At
the time of this pass a plan has a fusion or other operators, and no exchange. -/
def fuseRelation : Option (List TopOp) :=
  match ops.mapM fun op => match op with
    | .inner op => some op
    | _ => none with
  | some inner => (fuseAll inner).map (·.map .inner)
  | none => ops.mapM fuseInside

def rewriteJoinProjectFusion : Option ExecPlan :=
  (plan.strata.mapM fun (stratum : PlanStratum) =>
      (stratum.relations.mapM fun (rel : PlanRel) =>
          (fuseRelation rel.ops).map fun ops => { rel with ops := ops }).map
        fun relations => { stratum with relations := relations }).map
    fun strata => { plan with strata := strata }

/-! ## Exchanges -/

/-- A join whose right side is a relation of the stratum. -/
def isIdbJoin (op : InnerOp) : Bool :=
  isJoin op && (deltaRelation op).any (· ∈ idb)

def joinKeys : InnerOp → List Nat × List Nat
  | .step op => match op.op with
      | .join _ leftKeys rightKeys _ => (leftKeys, rightKeys)
      | _ => ([], [])
  | .lftj _ => ([], [])

/-- The join whose keys an exchange takes, whether the stratum is on its right, and the operators
before it, from the last on. -/
def bestJoin (ops : List InnerOp) : Option (InnerOp × Bool × List InnerOp) :=
  match ops.reverse.dropWhile fun op => !isIdbJoin idb op with
  | join :: before => some (join, true, before)
  | [] => match ops.reverse.dropWhile fun op => !isJoin op with
      | join :: before => some (join, false, before)
      | [] => none

/-- The operators in which the join is looked for: those of the relation, or of its first copy. A
fusion stands alone in its plan. -/
def exchangeOps : List TopOp → List InnerOp
  | .kFusion (copy :: _) :: _ => copy
  | ops => innerOps ops

def namedRelation : InnerOp → Option String
  | .step op => match op.op with
      | .variable rel => rel
      | other => rightRelation other
  | .lftj _ => none

/-- The input relation that feeds the join, when the plan names it once. -/
def exchangeEdb (ops : List InnerOp) (join : InnerOp) (idbOnRight : Bool) (before : List InnerOp) :
    Option String :=
  let name := if idbOnRight then
      (before.find? fun op => isScan op && (deltaRelation op).any (· ∉ idb)).bind deltaRelation
    else deltaRelation join
  name.filter fun name => (ops.countP fun op => namedRelation op = some name) ≤ 1

/-- The exchange at the end of the plan of a recursive relation. -/
def exchangeOf : Option Exchange :=
  (bestJoin idb (exchangeOps ops)).bind fun (join, idbOnRight, before) =>
    if (joinKeys join).1 = [] then none
    else
      let keys := if idbOnRight then (joinKeys join).swap else joinKeys join
      some ⟨keys.1, keys.2, exchangeEdb idb (exchangeOps ops) join idbOnRight before⟩

def rewriteInsertExchanges : ExecPlan :=
  plan.mapOps fun stratum ops =>
    if stratum.isRecursive then ops ++ ((exchangeOf stratum.names ops).map .exchange).toList
    else ops

/-! ## What a plan reads -/

/-- `plan_op_referenced_relation`: the relation that an operator shows to read. -/
def referencedRelation : TopOp → Option String
  | .inner op => namedRelation op
  | _ => none

/-- The relations that operators show to read. -/
def shownRefs : List String := ops.filterMap referencedRelation

/-- `plan_stratum_record_refs`. -/
def recordRefs (stratum : PlanStratum) : PlanStratum :=
  if stratum.relations = [] then stratum
  else { stratum with
    ruleRefs := some (stratum.relations.map fun rel => (shownRefs rel.ops).eraseDups) }

/-- The four passes over a plan. -/
inductive Pass where
  | lftjChains | multiwayDelta | joinProjectFusion | insertExchanges
  deriving DecidableEq, Repr

/-- Run a pass. Only the projections can fail. -/
def Pass.run : Pass → ExecPlan → Option ExecPlan
  | .lftjChains, plan => some (rewriteLftjChains plan)
  | .multiwayDelta, plan => some (rewriteMultiwayDelta plan)
  | .joinProjectFusion, plan => rewriteJoinProjectFusion plan
  | .insertExchanges, plan => some (rewriteInsertExchanges plan)

def runPasses : List Pass → ExecPlan → Option ExecPlan
  | [], plan => some plan
  | pass :: rest, plan => (pass.run plan).bind (runPasses rest)

/-! ## What the passes keep -/

/-- The relations that the plan at a place shows to read. -/
def ExecPlan.shownAt (s r : Nat) : List String :=
  ((plan.strata[s]?).bind (·.relations[r]?)).elim [] fun rel => shownRefs rel.ops

/-- The relations of two plans have the same names and the same records, and the second shows no
relation that the first does not show. -/
structure Keeps (before after : ExecPlan) : Prop where
  names : after.strata.map (·.names) = before.strata.map (·.names)
  refs : after.strata.map (·.ruleRefs) = before.strata.map (·.ruleRefs)
  shown : ∀ s r, after.shownAt s r ⊆ before.shownAt s r

namespace Keeps

theorem refl : Keeps plan plan := ⟨rfl, rfl, fun _ _ => List.Subset.refl _⟩

theorem trans {first second third : ExecPlan} (lower : Keeps first second)
    (upper : Keeps second third) : Keeps first third :=
  ⟨upper.names.trans lower.names, upper.refs.trans lower.refs,
    fun s r _ member => lower.shown s r (upper.shown s r member)⟩

/-- A change of the operators keeps a plan when it shows nothing new. -/
theorem mapOps {change : PlanStratum → List TopOp → List TopOp}
    (shows : ∀ stratum ops, shownRefs (change stratum ops) ⊆ shownRefs ops) (plan : ExecPlan) :
    Keeps plan (plan.mapOps change) where
  names := by simp [ExecPlan.mapOps, PlanStratum.names, Function.comp_def]
  refs := by simp [ExecPlan.mapOps, Function.comp_def]
  shown := by
    intro s r
    simp only [ExecPlan.shownAt, ExecPlan.mapOps, List.getElem?_map]
    cases plan.strata[s]? with
    | none => exact List.Subset.refl _
    | some stratum =>
      simp only [Option.map_some, Option.bind_some, List.getElem?_map]
      cases stratum.relations[r]? with
      | none => exact List.Subset.refl _
      | some rel => exact shows stratum rel.ops

end Keeps

theorem shownRefs_cons (op : TopOp) (ops : List TopOp) :
    shownRefs (op :: ops) = (referencedRelation op).toList ++ shownRefs ops := by
  cases shown : referencedRelation op with
  | none => simp [shownRefs, shown]
  | some rel => simp [shownRefs, shown]

/-- What comes later is shown. -/
theorem shownRefs_subset_cons (op : TopOp) (ops : List TopOp) :
    shownRefs ops ⊆ shownRefs (op :: ops) := by
  rw [shownRefs_cons]
  exact subset_append_right _ _

/-- The same operator in front of less shows less. -/
theorem shownRefs_cons_subset {op op' : TopOp} {ops ops' : List TopOp}
    (same : referencedRelation op' = referencedRelation op)
    (less : shownRefs ops' ⊆ shownRefs ops) :
    shownRefs (op' :: ops') ⊆ shownRefs (op :: ops) := by
  rw [shownRefs_cons, shownRefs_cons, same]
  refine append_subset.mpr ⟨subset_append_left _ _, fun rel member => ?_⟩
  exact subset_append_right _ _ (less member)

theorem referencedRelation_lftjAt {edb : List String} {ops : List TopOp} {lftj : TopOp}
    {joins : Nat} (found : lftjAt edb ops = some (lftj, joins)) :
    referencedRelation lftj = none := by
  unfold lftjAt at found
  split at found
  · split at found
    · split_ifs at found
      cases found
      rfl
    · cases found
  · cases found

/-- Leapfrog joins in place of chains show nothing new. -/
theorem shownRefs_lftjOps (skip : Nat) (ops : List TopOp) :
    shownRefs (lftjOps edb skip ops) ⊆ shownRefs ops := by
  induction ops generalizing skip with
  | nil => cases skip <;> exact List.Subset.refl _
  | cons op rest ih =>
    have later (skip : Nat) : shownRefs (lftjOps edb skip rest) ⊆ shownRefs (op :: rest) :=
      fun _ member => shownRefs_subset_cons op rest (ih skip member)
    cases skip with
    | succ skip => exact later skip
    | zero =>
      rw [lftjOps]
      split
      · next lftj joins found =>
        rw [shownRefs_cons, referencedRelation_lftjAt found]
        exact later joins
      · exact shownRefs_cons_subset rfl (ih 0)

theorem shownRefs_fuseCopies : shownRefs (fuseCopies idb ops) ⊆ shownRefs ops := by
  simp only [fuseCopies]
  split_ifs
  · exact nil_subset _
  · exact List.Subset.refl _

theorem shownRefs_exchange (keys : Option Exchange) :
    shownRefs (ops ++ (keys.map .exchange).toList) = shownRefs ops := by
  cases keys <;> simp [shownRefs, referencedRelation]

/-- A projection that becomes part of a join shows nothing new. -/
theorem shownRefs_fuseProjections {op : InnerOp} {rest fused : List InnerOp}
    (done : fuseProjections op rest = some fused) :
    shownRefs (fused.map .inner) ⊆ shownRefs ((op :: rest).map .inner) := by
  induction rest generalizing op fused with
  | nil =>
    cases done
    exact List.Subset.refl _
  | cons next rest ih =>
    have unfused {first : InnerOp} {after : List InnerOp}
        (later : (fuseProjections next rest).map (first :: ·) = some after) :
        shownRefs (after.map .inner) ⊆ shownRefs ((first :: next :: rest).map .inner) := by
      obtain ⟨others, done, rfl⟩ := Option.map_eq_some_iff.mp later
      exact shownRefs_cons_subset rfl (ih done)
    cases op with
    | lftj inputs => exact unfused done
    | step op =>
      rw [fuseProjections] at done
      split at done
      · next indices join projection =>
        obtain ⟨composed, made, done⟩ := Option.bind_eq_some_iff.mp done
        obtain ⟨columns, -, rfl⟩ := Option.map_eq_some_iff.mp made
        refine fun rel member => ?_
        have shown := ih done member
        rw [map_cons, shownRefs_cons] at shown ⊢
        rcases mem_append.mp shown with first | later
        · exact mem_append_left _ first
        · exact mem_append_right _ (shownRefs_subset_cons _ _ later)
      · exact unfused done

theorem shownRefs_fuseRelation {ops fused : List TopOp} (done : fuseRelation ops = some fused) :
    shownRefs fused ⊆ shownRefs ops := by
  unfold fuseRelation at done
  split at done
  · next inner found =>
    obtain ⟨after, fusedAll, rfl⟩ := Option.map_eq_some_iff.mp done
    have same : inner.map .inner = ops := by
      rw [← map_id ops]
      refine map_of_mapM_eq_some found fun op after isInner => ?_
      cases op with
      | inner op => exact congrArg TopOp.inner (Option.some.inj isInner).symm
      | kFusion copies => cases isInner
      | exchange keys => cases isInner
    rw [← same]
    cases inner with
    | nil =>
      cases fusedAll
      exact List.Subset.refl _
    | cons op rest => exact shownRefs_fuseProjections fusedAll
  · have same : fused.map referencedRelation = ops.map referencedRelation := by
      refine map_of_mapM_eq_some done fun op after inside => ?_
      cases op with
      | kFusion copies =>
        obtain ⟨others, -, rfl⟩ := Option.map_eq_some_iff.mp inside
        rfl
      | inner op => exact Option.some.inj inside ▸ rfl
      | exchange keys => exact Option.some.inj inside ▸ rfl
    have shown : shownRefs fused = shownRefs ops := by
      simpa [shownRefs] using congrArg (List.filterMap id) same
    rw [shown]
    exact List.Subset.refl _

theorem rewriteJoinProjectFusion_keeps {plan after : ExecPlan}
    (ran : rewriteJoinProjectFusion plan = some after) : Keeps plan after := by
  obtain ⟨strata, traversed, rfl⟩ := Option.map_eq_some_iff.mp ran
  refine ⟨?_, ?_, fun s r => ?_⟩
  · refine map_of_mapM_eq_some traversed fun stratum changed done => ?_
    obtain ⟨relations, inside, rfl⟩ := Option.map_eq_some_iff.mp done
    refine map_of_mapM_eq_some inside fun rel fused here => ?_
    obtain ⟨ops, -, rfl⟩ := Option.map_eq_some_iff.mp here
    rfl
  · refine map_of_mapM_eq_some traversed fun stratum changed done => ?_
    obtain ⟨relations, -, rfl⟩ := Option.map_eq_some_iff.mp done
    rfl
  · simp only [ExecPlan.shownAt]
    rw [getElem?_of_mapM_eq_some traversed]
    cases plan.strata[s]? with
    | none => exact List.Subset.refl _
    | some stratum =>
      simp only [Option.bind_some]
      cases done : stratum.relations.mapM fun (rel : PlanRel) =>
          (fuseRelation rel.ops).map fun ops => { rel with ops := ops } with
      | none => exact nil_subset _
      | some relations =>
        simp only [Option.map_some, Option.bind_some]
        rw [getElem?_of_mapM_eq_some done]
        cases stratum.relations[r]? with
        | none => exact List.Subset.refl _
        | some rel =>
          simp only [Option.bind_some]
          cases fused : fuseRelation rel.ops with
          | none => exact nil_subset _
          | some ops => exact shownRefs_fuseRelation fused

/-- **A pass keeps the names and the records, and shows nothing new.** -/
theorem Pass.run_keeps {pass : Pass} {plan after : ExecPlan} (ran : pass.run plan = some after) :
    Keeps plan after := by
  cases pass with
  | lftjChains =>
    cases ran
    exact .mapOps (fun _ ops => shownRefs_lftjOps _ 0 ops) plan
  | multiwayDelta =>
    cases ran
    refine .mapOps (fun stratum ops => ?_) plan
    split_ifs
    · exact shownRefs_fuseCopies _ ops
    · exact List.Subset.refl _
  | insertExchanges =>
    cases ran
    refine .mapOps (fun stratum ops => ?_) plan
    split_ifs
    · rw [shownRefs_exchange]
      exact List.Subset.refl _
    · exact List.Subset.refl _
  | joinProjectFusion => exact rewriteJoinProjectFusion_keeps ran

theorem runPasses_keeps {passes : List Pass} {plan after : ExecPlan}
    (ran : runPasses passes plan = some after) : Keeps plan after := by
  induction passes generalizing plan with
  | nil =>
    cases ran
    exact .refl _
  | cons pass rest ih =>
    obtain ⟨next, first, later⟩ := Option.bind_eq_some_iff.mp ran
    exact (Pass.run_keeps first).trans (ih later)

end Wirelog.SemiNaive

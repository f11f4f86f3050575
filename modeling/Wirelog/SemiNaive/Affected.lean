import Wirelog.Foundations.Saturation
import Wirelog.SemiNaive.Rewrites

/-!
# What a change of a relation affects

After facts were inserted into a relation, two masks say what has to be evaluated again: one has a
bit for each stratum, the other a bit for each rule, that is for each relation of the plan in the
order of the strata. Both start with what reads the changed relation and go on to what reads a
relation that is produced there. What a rule reads is taken from its operators and from the record
made before the passes over the plan.

* `getLsbD_colComputeAffectedStrata_iff`, `getLsbD_colComputeAffectedRules_iff`: the bits are those
  of the strata and the rules that are affected through strata and rules below 64;
* `rules_runPasses`: no passes change what the rules are seen to read, so no mask changes;
* `evalPlan_congr`: what a rule gives depends on the relations that it reads;
* `canChange_affected`: a rule whose output can change is affected through rules whose output can
  change;
* `masksRight_iff`: the masks are right when 64 bits are enough, and only then.
-/

set_option autoImplicit false

namespace Wirelog.SemiNaive

open Wirelog.IR Wirelog.Plan Wirelog.Foundations List Function

/-! ## What rules read -/

/-- A rule as the masks see it: the relation it produces, and the relations it is seen to read. -/
structure RuleView where
  head : String
  reads : String → Bool

/-- `rule_references_relation`: whether the record of a rule or one of its operators names a
relation. -/
def ruleReferencesRelation (stratum : PlanStratum) (r : Nat) (rule : PlanRel) (rel : String) :
    Bool :=
  ((stratum.ruleRefs.bind (·[r]?)).any fun refs => decide (rel ∈ refs)) ||
    decide (rel ∈ shownRefs rule.ops)

def PlanStratum.rules (stratum : PlanStratum) : List RuleView :=
  stratum.relations.zipIdx.map fun (rule, r) =>
    ⟨rule.name, ruleReferencesRelation stratum r rule⟩

def stratumReferencesRelation (rules : List RuleView) (rel : String) : Bool :=
  rules.any (·.reads rel)

/-! ## Masks -/

variable (reads : Nat → String → Bool)

def seedMask (n : Nat) (inserted : String) : BitVec 64 :=
  markWhere (fun i => reads i inserted) n 0

def expandMask (produces : Nat → List String) (n i : Nat) (affected : BitVec 64) : BitVec 64 :=
  (produces i).foldl (fun affected rel => markWhere (fun j => reads j rel) n affected) affected

/-- The second pass of both masks. It ends within 64 rounds. -/
def propagateMask (produces : Nat → List String) (n : Nat) : BitVec 64 → BitVec 64 :=
  saturate (expandMask reads produces n) n 64

/-- The mask of the first `n` strata. -/
def fullMask (n : Nat) : BitVec 64 := if n = 64 then BitVec.allOnes 64 else (1#64 <<< n) - 1#64

/-- What the strata read, given their rules. -/
def strataRead (strata : List (List RuleView)) (i : Nat) (rel : String) : Bool :=
  (strata[i]?).any (stratumReferencesRelation · rel)

/-- What the strata produce, given their rules. -/
def strataProduce (strata : List (List RuleView)) (i : Nat) : List String :=
  (strata[i]?).elim [] (·.map (·.head))

def colComputeAffectedStrata (plan : ExecPlan) (inserted : String) : BitVec 64 :=
  let strata := plan.strata.map (·.rules)
  let nstrata := min plan.strata.length 64
  let affected := seedMask (strataRead strata) nstrata inserted
  if affected = fullMask nstrata then affected
  else propagateMask (strataRead strata) (strataProduce strata) nstrata affected

def rulesRead (rules : List RuleView) (i : Nat) (rel : String) : Bool :=
  (rules[i]?).any (·.reads rel)

def rulesProduce (rules : List RuleView) (i : Nat) : List String :=
  ((rules[i]?).map (·.head)).toList

/-- `col_compute_affected_rules`. The rules of all strata are numbered in order, up to 64 of
them. -/
def colComputeAffectedRules (plan : ExecPlan) (inserted : String) : BitVec 64 :=
  let rules := (plan.strata.map (·.rules)).flatten.take 64
  propagateMask (rulesRead rules) (rulesProduce rules) rules.length
    (seedMask (rulesRead rules) rules.length inserted)

/-! ## Affected indices -/

/-- What reads the changed relation, or a relation that is produced at an affected index, where
only some indices count. -/
inductive Affected (reads : Nat → String → Bool) (produces : Nat → List String)
    (among : Nat → Prop) (changed : String) : Nat → Prop
  | direct {i : Nat} (counts : among i) (read : reads i changed) :
      Affected reads produces among changed i
  | through {i j : Nat} {rel : String} (affected : Affected reads produces among changed i)
      (produced : rel ∈ produces i) (counts : among j) (read : reads j rel) :
      Affected reads produces among changed j

namespace Affected

variable {reads reads' : Nat → String → Bool} {produces produces' : Nat → List String}
  {among among' : Nat → Prop} {changed : String} {i : Nat}

theorem counts (affected : Affected reads produces among changed i) : among i := by
  cases affected with
  | direct counts _ => exact counts
  | through _ _ counts _ => exact counts

/-- Only what is read and produced at the indices that count matters, and an index that reads
nothing need not count. -/
theorem congr (weaker : ∀ i rel, among i → reads i rel → among' i)
    (sameReads : ∀ i, among i → reads' i = reads i)
    (sameProduces : ∀ i, among i → produces' i = produces i)
    (affected : Affected reads produces among changed i) :
    Affected reads' produces' among' changed i := by
  induction affected with
  | @direct i counts read => exact .direct (weaker i _ counts read) (sameReads i counts ▸ read)
  | @through i j rel before produced counts read ih =>
    refine .through ih ?_ (weaker j rel counts read) (sameReads j counts ▸ read)
    rw [sameProduces i before.counts]
    exact produced

/-- Indices from `count` on that read nothing need not count. -/
theorem below_min_iff {count limit : Nat} (bounded : ∀ i rel, reads i rel → i < count) :
    Affected reads produces (· < min count limit) changed i ↔
      Affected reads produces (· < limit) changed i := by
  refine ⟨congr (fun i _ low _ => ?_) (fun _ _ => rfl) fun _ _ => rfl,
    congr (fun i rel low read => ?_) (fun _ _ => rfl) fun _ _ => rfl⟩
  · exact lt_of_lt_of_le low (min_le_right _ _)
  · exact lt_min (bounded i rel read) low

end Affected

section Bits

variable {reads : Nat → String → Bool} {produces : Nat → List String} {n i : Nat} {changed : String}

theorem getLsbD_seedMask_iff (small : n ≤ 64) :
    (seedMask reads n changed).getLsbD i ↔ i < n ∧ reads i changed := by
  rw [seedMask, getLsbD_markWhere _ small]
  simp

/-- One more index is marked with what reads its relations. -/
theorem expands_expandMask (small : n ≤ 64) :
    Expands (expandMask reads produces n) n fun i j => ∃ rel ∈ produces i, reads j rel := by
  intro i mask j
  have fold (rels : List String) (mask : BitVec 64) :
      (rels.foldl (fun mask rel => markWhere (fun j => reads j rel) n mask) mask).getLsbD j ↔
        mask.getLsbD j ∨ (j < n ∧ ∃ rel ∈ rels, reads j rel) := by
    induction rels generalizing mask with
    | nil => simp
    | cons rel rest ih =>
      rw [foldl_cons, ih, getLsbD_markWhere _ small]
      simp only [Bool.or_eq_true, Bool.and_eq_true, decide_eq_true_eq, exists_mem_cons_iff]
      tauto
  exact fold (produces i) mask

/-- **The two passes mark what is affected.** -/
theorem getLsbD_propagateMask_iff (small : n ≤ 64) :
    (propagateMask reads produces n (seedMask reads n changed)).getLsbD i ↔
      Affected reads produces (· < n) changed i := by
  have inside (i : Nat) (set : (seedMask reads n changed).getLsbD i) : i < n :=
    ((getLsbD_seedMask_iff small).mp set).1
  rw [propagateMask, getLsbD_saturate_iff (expands_expandMask small) inside small]
  constructor
  · rintro ⟨start, set, path⟩
    induction path with
    | refl =>
      obtain ⟨below, read⟩ := (getLsbD_seedMask_iff small).mp set
      exact .direct below read
    | tail _ step ih =>
      obtain ⟨below, rel, produced, read⟩ := step
      exact .through ih produced below read
  · intro affected
    induction affected with
    | @direct i below read => exact ⟨i, (getLsbD_seedMask_iff small).mpr ⟨below, read⟩, .refl⟩
    | @through i j rel _ produced below read ih =>
      obtain ⟨start, set, path⟩ := ih
      exact ⟨start, set, path.tail ⟨below, rel, produced, read⟩⟩

theorem getLsbD_fullMask (small : n ≤ 64) : (fullMask n).getLsbD i = decide (i < n) := by
  unfold fullMask
  split_ifs with all
  · rw [all, BitVec.getLsbD_allOnes]
  have positive : 0 < 2 ^ n := Nat.two_pow_pos n
  have bound : 2 ^ n < 2 ^ 64 := Nat.pow_lt_pow_right (by omega) (by omega)
  have value : (1#64 <<< n - 1#64).toNat = 2 ^ n - 1 := by
    rw [BitVec.toNat_sub, BitVec.toNat_shiftLeft, Nat.shiftLeft_eq]
    simp only [BitVec.toNat_ofNat]
    omega
  rw [BitVec.getLsbD, value, Nat.testBit_two_pow_sub_one]

end Bits

/-! ## The masks of a plan -/

section Plans

variable {plan : ExecPlan} {changed : String} {i : Nat}

theorem lt_of_strataRead {strata : List (List RuleView)} {rel : String}
    (read : strataRead strata i rel) : i < strata.length := by
  by_contra beyond
  rw [strataRead, List.getElem?_eq_none (not_lt.mp beyond)] at read
  cases read

theorem lt_of_rulesRead {rules : List RuleView} {rel : String} (read : rulesRead rules i rel) :
    i < rules.length := by
  by_contra beyond
  rw [rulesRead, List.getElem?_eq_none (not_lt.mp beyond)] at read
  cases read

/-- **The bit of a stratum says whether it is affected through strata below 64.** -/
theorem getLsbD_colComputeAffectedStrata_iff :
    (colComputeAffectedStrata plan changed).getLsbD i ↔
      Affected (strataRead (plan.strata.map (·.rules))) (strataProduce (plan.strata.map (·.rules)))
        (· < 64) changed i := by
  have small : min plan.strata.length 64 ≤ 64 := min_le_right _ _
  rw [← Affected.below_min_iff fun _ _ => lt_of_strataRead, length_map,
    ← getLsbD_propagateMask_iff small]
  simp only [colComputeAffectedStrata]
  split_ifs with full
  · -- every stratum is marked, so nothing is left to propagate
    have below (j : Nat) : (seedMask (strataRead (plan.strata.map (·.rules)))
        (min plan.strata.length 64) changed).getLsbD j =
          decide (j < min plan.strata.length 64) := by
      rw [full, getLsbD_fullMask small]
    rw [below, getLsbD_propagateMask_iff small]
    refine ⟨fun low => ?_, fun affected => decide_eq_true affected.counts⟩
    rw [← below, getLsbD_seedMask_iff small] at low
    exact .direct low.1 low.2
  · rfl

/-- **The bit of a rule says whether it is affected through rules below 64.** -/
theorem getLsbD_colComputeAffectedRules_iff :
    (colComputeAffectedRules plan changed).getLsbD i ↔
      Affected (rulesRead (plan.strata.map (·.rules)).flatten)
        (rulesProduce (plan.strata.map (·.rules)).flatten) (· < 64) changed i := by
  set rules := (plan.strata.map (·.rules)).flatten with every
  have length : (rules.take 64).length = min rules.length 64 := by
    rw [length_take, min_comm]
  have small : min rules.length 64 ≤ 64 := min_le_right _ _
  have same (i : Nat) (low : i < min rules.length 64) : (rules.take 64)[i]? = rules[i]? :=
    List.getElem?_take_of_lt (lt_of_lt_of_le low small)
  have sameReads (i : Nat) (low : i < min rules.length 64) :
      rulesRead (rules.take 64) i = rulesRead rules i := by
    funext rel
    rw [rulesRead, rulesRead, same i low]
  have sameProduces (i : Nat) (low : i < min rules.length 64) :
      rulesProduce (rules.take 64) i = rulesProduce rules i := by
    rw [rulesProduce, rulesProduce, same i low]
  rw [← Affected.below_min_iff fun _ _ => lt_of_rulesRead, colComputeAffectedRules, ← every,
    length, getLsbD_propagateMask_iff small]
  exact ⟨.congr (fun _ _ low _ => low) (fun i low => (sameReads i low).symm)
      fun i low => (sameProduces i low).symm,
    .congr (fun _ _ low _ => low) sameReads sameProduces⟩

end Plans

/-! ## The plans that the passes start from -/

/-- A relation with the operators that its rules were translated to. -/
structure LoweredRel where
  name : String
  ops : List PlanOp

/-- A stratum before the passes. -/
structure LoweredStratum where
  isRecursive : Bool
  relations : List LoweredRel

/-- A plan before the passes. -/
structure LoweredPlan where
  strata : List LoweredStratum
  edbRelations : List String

def readRelation (op : PlanOp) : Option String := namedRelation (.step { op := op })

def LoweredRel.view (rel : LoweredRel) : RuleView :=
  ⟨rel.name, fun name => decide (name ∈ rel.ops.filterMap readRelation)⟩

variable (lowered : LoweredPlan)

def LoweredPlan.strataRules : List (List RuleView) :=
  lowered.strata.map fun stratum => stratum.relations.map (·.view)

def LoweredRel.plan (rel : LoweredRel) : PlanRel :=
  ⟨rel.name, rel.ops.map fun op => .inner (.step { op := op })⟩

def LoweredStratum.plan (stratum : LoweredStratum) : PlanStratum :=
  recordRefs ⟨stratum.isRecursive, stratum.relations.map (·.plan), none⟩

/-- The plan that the passes start from. -/
def LoweredPlan.plan (lowered : LoweredPlan) : ExecPlan :=
  ⟨lowered.strata.map (·.plan), lowered.edbRelations⟩

def ExecPlan.recordedAt (plan : ExecPlan) (s r : Nat) : List String :=
  ((plan.strata[s]?).bind fun stratum => stratum.ruleRefs.bind (·[r]?)).getD []

/-- Everything that the operators show was recorded. -/
def ShownRecorded (plan : ExecPlan) : Prop := ∀ s r, plan.shownAt s r ⊆ plan.recordedAt s r

theorem shownRefs_plan (rel : LoweredRel) :
    shownRefs rel.plan.ops = rel.ops.filterMap readRelation := by
  rw [shownRefs, LoweredRel.plan, filterMap_map]
  rfl

/-- What was recorded at a place depends on the records only. -/
theorem recordedAt_eq (plan : ExecPlan) (s r : Nat) :
    plan.recordedAt s r =
      (((plan.strata.map (·.ruleRefs))[s]?).bind fun refs => refs.bind (·[r]?)).getD [] := by
  rw [ExecPlan.recordedAt, List.getElem?_map]
  cases plan.strata[s]? <;> rfl

/-- A rule is seen to read what was recorded for it, when this is everything it shows. -/
theorem ruleReferencesRelation_eq {stratum : PlanStratum} {r : Nat} {rule : PlanRel}
    (recorded : shownRefs rule.ops ⊆ (stratum.ruleRefs.bind (·[r]?)).getD []) :
    ruleReferencesRelation stratum r rule =
      fun rel => decide (rel ∈ (stratum.ruleRefs.bind (·[r]?)).getD []) := by
  funext rel
  rw [ruleReferencesRelation]
  cases found : stratum.ruleRefs.bind (·[r]?) with
  | none =>
    rw [found] at recorded
    have nothing : shownRefs rule.ops = [] := subset_nil.mp recorded
    simp [nothing]
  | some refs =>
    rw [found] at recorded
    simp only [Option.any_some, Option.getD_some, Bool.or_eq_left_iff_imp, decide_eq_true_eq]
    exact fun shown => recorded shown

/-- The rules of a plan, when everything they show was recorded. -/
theorem ShownRecorded.rules {plan : ExecPlan} (recorded : ShownRecorded plan) (s : Nat) :
    (plan.strata.map (·.rules))[s]? = ((plan.strata.map (·.names))[s]?).map fun names =>
      names.zipIdx.map fun (name, r) => ⟨name, fun rel => decide (rel ∈ plan.recordedAt s r)⟩ := by
  rw [List.getElem?_map, List.getElem?_map]
  cases found : plan.strata[s]? with
  | none => rfl
  | some stratum =>
    refine congrArg some (ext_getElem? fun r => ?_)
    simp only [PlanStratum.rules, PlanStratum.names, List.getElem?_map, List.getElem?_zipIdx,
      Option.map_map, Nat.zero_add]
    cases here : stratum.relations[r]? with
    | none => rfl
    | some rule =>
      have shown := recorded s r
      simp only [ExecPlan.shownAt, ExecPlan.recordedAt, found, here, Option.bind_some,
        Option.elim_some] at shown
      simp [ExecPlan.recordedAt, found, ruleReferencesRelation_eq shown]

/-- Passes keep the rules of a plan, when everything they show was recorded. -/
theorem Keeps.rules {before after : ExecPlan} (keeps : Keeps before after)
    (recorded : ShownRecorded before) :
    after.strata.map (·.rules) = before.strata.map (·.rules) := by
  have sameRecords (s r : Nat) : after.recordedAt s r = before.recordedAt s r := by
    rw [recordedAt_eq, recordedAt_eq, keeps.refs]
  have recorded' : ShownRecorded after := by
    intro s r rel member
    rw [sameRecords]
    exact recorded s r (keeps.shown s r member)
  refine ext_getElem? fun s => ?_
  rw [recorded'.rules, recorded.rules, keeps.names]
  simp [sameRecords]

/-- The record of a stratum before the passes has what each of its rules reads. -/
theorem ruleRefs_plan {stratum : LoweredStratum} {r : Nat} {rel : LoweredRel}
    (here : stratum.relations[r]? = some rel) :
    stratum.plan.ruleRefs.bind (·[r]?) = some (rel.ops.filterMap readRelation).eraseDups := by
  have filled : stratum.relations ≠ [] := by
    rintro empty
    simp [empty] at here
  simp [LoweredStratum.plan, recordRefs, filled, here, shownRefs_plan]

theorem relations_plan (stratum : LoweredStratum) :
    stratum.plan.relations = stratum.relations.map (·.plan) := by
  rw [LoweredStratum.plan, recordRefs]
  split_ifs <;> rfl

/-- The plan before the passes has the rules it was made from. -/
theorem rules_plan : lowered.plan.strata.map (·.rules) = lowered.strataRules := by
  rw [LoweredPlan.plan, map_map, LoweredPlan.strataRules]
  refine map_congr_left fun stratum _ => ext_getElem? fun r => ?_
  simp only [comp_apply, PlanStratum.rules, relations_plan, List.getElem?_map,
    List.getElem?_zipIdx, Option.map_map, Nat.zero_add]
  cases here : stratum.relations[r]? with
  | none => rfl
  | some rel =>
    refine congrArg some ?_
    simp only [comp_apply, LoweredRel.view]
    congr 1
    funext name
    simp [ruleReferencesRelation, ruleRefs_plan here, shownRefs_plan]

/-- Before the passes everything is recorded. -/
theorem shownRecorded_plan : ShownRecorded lowered.plan := by
  intro s r name shown
  simp only [ExecPlan.shownAt, ExecPlan.recordedAt, LoweredPlan.plan, List.getElem?_map] at shown ⊢
  cases found : lowered.strata[s]? with
  | none => simp [found] at shown
  | some stratum =>
    simp only [found, Option.map_some, Option.bind_some, relations_plan,
      List.getElem?_map] at shown ⊢
    cases here : stratum.relations[r]? with
    | none => simp [here] at shown
    | some rel =>
      rw [ruleRefs_plan here]
      simpa [here, shownRefs_plan] using shown

/-- **No passes change what the rules are seen to read.** -/
theorem rules_runPasses {lowered : LoweredPlan} {passes : List Pass} {plan : ExecPlan}
    (ran : runPasses passes lowered.plan = some plan) :
    plan.strata.map (·.rules) = lowered.strataRules := by
  rw [(runPasses_keeps ran).rules (shownRecorded_plan lowered), rules_plan]

/-- **No passes change the masks.** -/
theorem masks_runPasses {lowered : LoweredPlan} {passes : List Pass} {plan : ExecPlan}
    (ran : runPasses passes lowered.plan = some plan) (changed : String) :
    colComputeAffectedStrata plan changed = colComputeAffectedStrata lowered.plan changed ∧
      colComputeAffectedRules plan changed = colComputeAffectedRules lowered.plan changed := by
  have same : plan.strata.map (·.rules) = lowered.plan.strata.map (·.rules) :=
    (rules_runPasses ran).trans (rules_plan lowered).symm
  have length : plan.strata.length = lowered.plan.strata.length := by
    simpa using congrArg List.length same
  rw [colComputeAffectedStrata, colComputeAffectedStrata, colComputeAffectedRules,
    colComputeAffectedRules, same, length]
  exact ⟨rfl, rfl⟩

/-! ## Outputs that can change -/

section Outputs

variable (machine : Machine) (store : Option Table → Except EvalError Table → Option Table)

variable (lowered : LoweredPlan)

/-- The rules of a plan, in the order in which they are numbered. -/
def LoweredPlan.rules : List LoweredRel :=
  lowered.strata.flatMap (·.relations)

/-- What a rule gives. -/
def outputOf (db : Database) (i : Nat) : Option (Except EvalError Table) :=
  (lowered.rules[i]?).map fun rel => evalPlan machine db rel.ops

/-- Evaluate a rule, and store what it gives with what its relation held. -/
def fireRule (db : Database) (i : Nat) : Database :=
  match lowered.rules[i]? with
  | none => db
  | some rel => update db rel.name (store (db rel.name) (evalPlan machine db rel.ops))

/-- Evaluate rules one after the other. -/
def fireRules (db : Database) (schedule : List Nat) : Database :=
  schedule.foldl (fireRule machine store lowered) db

/-- The output of a rule can change when a relation does: two databases that differ in this
relation only, and some rules evaluated in some order, lead to different outputs. -/
def CanChange (changed : String) (i : Nat) : Prop :=
  ∃ (db db' : Database) (schedule : List Nat), (∀ rel, rel ≠ changed → db rel = db' rel) ∧
    outputOf machine lowered (fireRules machine store lowered db schedule) i ≠
      outputOf machine lowered (fireRules machine store lowered db' schedule) i

variable {machine store} {db db' : Database} {lowered : LoweredPlan} {changed : String} {i : Nat}

/-- An operator reads one relation of the session. -/
theorem evalOp_congr {op : PlanOp} (same : ∀ rel, readRelation op = some rel → db rel = db' rel) :
    evalOp machine db op = evalOp machine db' op := by
  funext stack
  cases op with
  | «variable» rel =>
    cases rel with
    | none => rfl
    | some rel =>
      have here : db rel = db' rel := same rel rfl
      simp [evalOp, here]
  | join rel leftKeys rightKeys rightFilter =>
    have right : opJoin machine db rel leftKeys rightKeys rightFilter =
        opJoin machine db' rel leftKeys rightKeys rightFilter := by
      funext left
      cases rel with
      | none => rfl
      | some rel =>
        have here : db rel = db' rel := same rel rfl
        simp [opJoin, here]
    simp [evalOp, right]
  | antijoin rel leftKeys rightKeys rightFilter =>
    have right : opAntijoin machine db rel leftKeys rightKeys rightFilter =
        opAntijoin machine db' rel leftKeys rightKeys rightFilter := by
      funext left
      have here : db rel = db' rel := same rel rfl
      simp [opAntijoin, here]
    simp [evalOp, right]
  | semijoin rel leftKeys rightKeys rightFilter indices =>
    have right : opSemijoin machine db rel leftKeys rightKeys rightFilter indices =
        opSemijoin machine db' rel leftKeys rightKeys rightFilter indices := by
      funext left
      have here : db rel = db' rel := same rel rfl
      simp [opSemijoin, here]
    simp [evalOp, right]
  | _ => rfl

/-- **What a plan gives depends on the relations it reads.** -/
theorem evalPlan_congr {ops : List PlanOp}
    (same : ∀ rel ∈ ops.filterMap readRelation, db rel = db' rel) :
    evalPlan machine db ops = evalPlan machine db' ops := by
  have left (stack : List Table) :
      evalOps machine db ops stack = evalOps machine db' ops stack := by
    induction ops generalizing stack with
    | nil => rfl
    | cons op rest ih =>
      have here : evalOp machine db op = evalOp machine db' op :=
        evalOp_congr fun rel reads => same rel (mem_filterMap.mpr ⟨op, by simp, reads⟩)
      have later : evalOps machine db rest = evalOps machine db' rest := by
        funext stack
        refine ih (fun rel member => same rel ?_) stack
        obtain ⟨other, inside, reads⟩ := mem_filterMap.mp member
        exact mem_filterMap.mpr ⟨other, mem_cons_of_mem _ inside, reads⟩
      rw [evalOps_cons, evalOps_cons, here, later]
  rw [evalPlan, evalPlan, left]

/-- The rules as the masks see them. -/
theorem flatten_strataRules (lowered : LoweredPlan) :
    lowered.strataRules.flatten = lowered.rules.map (·.view) := by
  rw [LoweredPlan.strataRules, LoweredPlan.rules, List.flatMap, map_flatten, map_map]
  rfl

theorem rulesRead_iff {rel : LoweredRel} (here : lowered.rules[i]? = some rel) (name : String) :
    rulesRead lowered.strataRules.flatten i name ↔ name ∈ rel.ops.filterMap readRelation := by
  rw [rulesRead, flatten_strataRules, List.getElem?_map, here]
  exact decide_eq_true_iff

theorem mem_rulesProduce {rel : LoweredRel} (here : lowered.rules[i]? = some rel) :
    rel.name ∈ rulesProduce lowered.strataRules.flatten i := by
  rw [rulesProduce, flatten_strataRules, List.getElem?_map, here]
  exact mem_singleton.mpr rfl

abbrev AffectedIn (lowered : LoweredPlan) : (Nat → Prop) → String → Nat → Prop :=
  Affected (rulesRead lowered.strataRules.flatten) (rulesProduce lowered.strataRules.flatten)

/-- The changed relation, and the relations that affected rules produce. -/
def Tainted (lowered : LoweredPlan) (among : Nat → Prop) (changed rel : String) : Prop :=
  rel = changed ∨ ∃ i, Affected (rulesRead lowered.strataRules.flatten)
    (rulesProduce lowered.strataRules.flatten) among changed i ∧
      rel ∈ rulesProduce lowered.strataRules.flatten i

variable {among : Nat → Prop}

/-- A rule that counts and reads a tainted relation is affected. -/
theorem Tainted.affected {rel : String} (tainted : Tainted lowered among changed rel)
    (counts : among i) (read : rulesRead lowered.strataRules.flatten i rel) :
    AffectedIn lowered among changed i := by
  rcases tainted with rfl | ⟨j, before, produced⟩
  · exact .direct counts read
  · exact .through before produced counts read

/-- Two databases that differ in tainted relations only give a rule that counts and is not
affected the same output. -/
theorem outputOf_congr (counts : among i)
    (agree : ∀ rel, ¬Tainted lowered among changed rel → db rel = db' rel)
    (unaffected : ¬AffectedIn lowered among changed i) :
    outputOf machine lowered db i = outputOf machine lowered db' i := by
  rw [outputOf, outputOf]
  cases here : lowered.rules[i]? with
  | none => rfl
  | some rel =>
    refine congrArg some (evalPlan_congr fun name reads => agree name fun tainted => ?_)
    exact unaffected (tainted.affected counts ((rulesRead_iff here name).mpr reads))

/-- One rule keeps the agreement, when it is affected or gives the same output. -/
theorem fireRule_agree (agree : ∀ rel, ¬Tainted lowered among changed rel → db rel = db' rel)
    (same : AffectedIn lowered among changed i ∨
      outputOf machine lowered db i = outputOf machine lowered db' i) :
    ∀ rel, ¬Tainted lowered among changed rel →
      fireRule machine store lowered db i rel = fireRule machine store lowered db' i rel := by
  intro name clean
  rw [fireRule, fireRule]
  cases here : lowered.rules[i]? with
  | none => exact agree name clean
  | some rel =>
    by_cases head : name = rel.name
    · subst head
      rcases same with affected | output
      · exact absurd (.inr ⟨i, affected, mem_rulesProduce here⟩) clean
      simp only [outputOf, here, Option.map_some, Option.some.injEq] at output
      simp [agree _ clean, output]
    · simp [update_of_ne head, agree name clean]

/-- The databases that a schedule leads to differ in tainted relations only, when every rule that
does not count gives the same outputs. -/
theorem fireRules_agree (idle : ∀ i, ¬among i → ¬CanChange machine store lowered changed i)
    (start : ∀ rel, rel ≠ changed → db rel = db' rel) (schedule : List Nat) :
    ∀ rel, ¬Tainted lowered among changed rel →
      fireRules machine store lowered db schedule rel =
        fireRules machine store lowered db' schedule rel := by
  induction schedule using List.reverseRecOn with
  | nil => exact fun rel clean => start rel fun same => clean (.inl same)
  | append_singleton schedule i ih =>
    simp only [fireRules, foldl_append, foldl_cons, foldl_nil] at ih ⊢
    refine fireRule_agree ih ?_
    by_cases counts : among i
    · by_cases affected : AffectedIn lowered among changed i
      · exact .inl affected
      · exact .inr (outputOf_congr counts ih affected)
    · -- the outputs after the schedule so far would show a change
      refine .inr (not_not.mp fun differ => idle i counts ?_)
      exact ⟨db, db', schedule, start, differ⟩

/-- **A rule whose output can change is affected through rules whose output can change.** -/
theorem canChange_affected (all : ∀ i, CanChange machine store lowered changed i → among i)
    (changes : CanChange machine store lowered changed i) :
    AffectedIn lowered among changed i := by
  obtain ⟨db, db', schedule, start, differ⟩ := changes
  by_contra unaffected
  refine differ (outputOf_congr (all i ⟨db, db', schedule, start, differ⟩) ?_ unaffected)
  exact fireRules_agree (fun j absent change => absent (all j change)) start schedule

variable (machine store lowered changed)

/-- The masks for a change of a relation are right, whatever passes went over the plan: below 64
the bits of the strata are those of the affected ones, every rule whose output can change has its
bit, and the passes make no difference. -/
structure MasksRight : Prop where
  strata : ∀ passes plan, runPasses passes lowered.plan = some plan → ∀ i < 64,
    ((colComputeAffectedStrata plan changed).getLsbD i ↔
      Affected (strataRead lowered.strataRules) (strataProduce lowered.strataRules)
        (fun _ => True) changed i)
  rules : ∀ passes plan, runPasses passes lowered.plan = some plan → ∀ i,
    CanChange machine store lowered changed i → (colComputeAffectedRules plan changed).getLsbD i
  rewrites : ∀ passes plan, runPasses passes lowered.plan = some plan →
    colComputeAffectedStrata plan changed = colComputeAffectedStrata lowered.plan changed ∧
      colComputeAffectedRules plan changed = colComputeAffectedRules lowered.plan changed

/-- **The masks are right when 64 bits are enough, and only then**: every stratum below 64 that is
affected is affected through strata below 64, and every rule whose output can change is one of the
first 64. -/
theorem masksRight_iff :
    MasksRight machine store lowered changed ↔
      (∀ i < 64, Affected (strataRead lowered.strataRules) (strataProduce lowered.strataRules)
          (fun _ => True) changed i →
        Affected (strataRead lowered.strataRules) (strataProduce lowered.strataRules)
          (· < 64) changed i) ∧
      ∀ i, CanChange machine store lowered changed i → i < 64 := by
  constructor
  · intro right
    refine ⟨fun i low affected => ?_, fun i changes => ?_⟩
    · have set := (right.strata [] _ rfl i low).mpr affected
      rw [getLsbD_colComputeAffectedStrata_iff, rules_plan] at set
      exact set
    · exact BitVec.lt_of_getLsbD (right.rules [] _ rfl i changes)
  · rintro ⟨strata, rules⟩
    refine ⟨fun passes plan ran i low => ?_, fun passes plan ran i changes => ?_,
      fun passes plan ran => masks_runPasses ran changed⟩
    · rw [getLsbD_colComputeAffectedStrata_iff, rules_runPasses ran]
      exact ⟨.congr (fun _ _ _ _ => trivial) (fun _ _ => rfl) fun _ _ => rfl, strata i low⟩
    · rw [getLsbD_colComputeAffectedRules_iff, rules_runPasses ran]
      exact canChange_affected rules changes

end Outputs

/-! ## A plan with more than 64 rules -/

/-- A stratum that copies the relation `f`. -/
def idleStratum (i : Nat) : LoweredStratum :=
  ⟨false, [⟨String.ofList (List.replicate (i + 1) 'r'), [.variable (some "f")]⟩]⟩

/-- After 63 strata that copy `f`, the rules of `p` and `q`, which read each other; `q` reads `e`
as well. They have the numbers 63 and 64. -/
def crowdedPlan : LoweredPlan :=
  ⟨(List.range 63).map idleStratum ++ [⟨true, [⟨"p", [.variable (some "q")]⟩,
      ⟨"q", [.variable (some "e"), .variable (some "p"), .concat, .consolidate]⟩]⟩], ["e", "f"]⟩

/-- A database in which `e` holds some numbers and every other relation is empty. -/
def numbersIn (numbers : List Columnar.Cell) : Database := fun rel =>
  some (.untyped 1 (if rel = "e" then numbers.map fun n => ⟨[n]⟩ else []) (by
    split_ifs
    · simp
    · simp))

/-- The number of rows that a rule gives after some rules were evaluated, each in place of what its
relation held. -/
def crowdedRows (numbers : List Columnar.Cell) (schedule : List Nat) (i : Nat) : Option Nat :=
  (outputOf plainMachine crowdedPlan
    (fireRules plainMachine (fun _ output => output.toOption) crowdedPlan (numbersIn numbers)
      schedule) i).bind fun output => output.toOption.map (·.rows.length)

/-- A different number of rows is a change. -/
theorem canChange_crowdedPlan {i : Nat} (schedule : List Nat)
    (differ : crowdedRows [] schedule i ≠ crowdedRows [7] schedule i) :
    CanChange plainMachine (fun _ output => output.toOption) crowdedPlan "e" i := by
  refine ⟨numbersIn [], numbersIn [7], schedule, fun rel other => ?_, fun same => differ ?_⟩
  · simp [numbersIn, other]
  · rw [crowdedRows, crowdedRows, same]

/-- No rule is marked for a change of `e`, while the outputs of `p` and `q` change. -/
theorem rules_missed_beyond_64 :
    colComputeAffectedRules crowdedPlan.plan "e" = 0 ∧
      CanChange plainMachine (fun _ output => output.toOption) crowdedPlan "e" 63 ∧
      CanChange plainMachine (fun _ output => output.toOption) crowdedPlan "e" 64 ∧
      ¬MasksRight plainMachine (fun _ output => output.toOption) crowdedPlan "e" := by
  have unmarked : colComputeAffectedRules crowdedPlan.plan "e" = 0 := by decide +kernel
  have first : CanChange plainMachine (fun _ output => output.toOption) crowdedPlan "e" 63 := by
    apply canChange_crowdedPlan [64]
    decide +kernel
  have second : CanChange plainMachine (fun _ output => output.toOption) crowdedPlan "e" 64 := by
    apply canChange_crowdedPlan []
    decide +kernel
  refine ⟨unmarked, first, second, fun right => ?_⟩
  have set := right.rules [] _ rfl 63 first
  rw [unmarked] at set
  cases set

end Wirelog.SemiNaive

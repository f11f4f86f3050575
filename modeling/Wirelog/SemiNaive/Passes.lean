import Wirelog.SemiNaive.RowOps
import Wirelog.SemiNaive.Stratum

/-!
# What a pass changes

A pass of a recursive stratum writes to the relations of the stratum and to their deltas, and to
nothing else (`PassFrame.outside`). No row that a relation of the stratum holds is lost: appends
and consolidations only add rows (`Grows`). Both facts hold along the whole evaluation
(`Reached.frame`).

The rows that a plan yields are in its relation when the pass is over (`evalRules_split`,
`mem_after_evalRule`).
-/

set_option autoImplicit false

namespace Wirelog.SemiNaive

open Wirelog.IR Wirelog.Plan Wirelog.Foundations List Function
open Wirelog.Columnar (Row ColumnType)

variable {sess after : Session} {index effIter : Nat} {name : String} {rel : StratumRel}
  {relations : List StratumRel} {rels : Database} {state : LoopState}

/-! ## Growing relations -/

/-- Every row of the one table is a row of the other, which exists if the first does. -/
def Grows (before after : Option Table) : Prop :=
  ∀ table ∈ before, ∃ table' ∈ after, ∀ row ∈ table.rows, row ∈ table'.rows

namespace Grows

theorem refl (found : Option Table) : Grows found found :=
  fun table member => ⟨table, member, fun _ inTable => inTable⟩

theorem of_eq {before after : Option Table} (same : after = before) : Grows before after :=
  same ▸ refl before

theorem trans {first second third : Option Table} (lower : Grows first second)
    (upper : Grows second third) : Grows first third := by
  intro table member
  obtain ⟨table', member', rows'⟩ := lower table member
  obtain ⟨table'', member'', rows''⟩ := upper table' member'
  exact ⟨table'', member'', fun row inTable => rows'' row (rows' row inTable)⟩

end Grows

/-- The names whose relations a stratum writes. -/
def Stratum.changes (stratum : Stratum) (name : String) : Bool :=
  stratum.relations.any fun rel =>
    decide (name = rel.name) || decide (name = makeDeltaName rel.name)

variable {stratum : Stratum}

theorem Stratum.changes_eq_false_iff :
    stratum.changes name = false ↔
      ∀ rel ∈ stratum.relations, name ≠ rel.name ∧ name ≠ makeDeltaName rel.name := by
  simp [Stratum.changes]

/-! ## Plans -/

/-- Only the relations differ. -/
def SameFlags (before after : Session) : Prop := after = { before with rels := after.rels }

theorem SameFlags.refl (sess : Session) : SameFlags sess sess := rfl

theorem SameFlags.trans {first second third : Session} (lower : SameFlags first second)
    (upper : SameFlags second third) : SameFlags first third := by
  unfold SameFlags at *
  rw [upper, lower]

theorem appendAll_spec {target result whole : Table} (ran : appendAll target result = .ok whole) :
    (∀ row ∈ target.rows, row ∈ whole.rows) ∧ ∀ row ∈ result.rows, row ∈ whole.rows := by
  unfold appendAll at ran
  obtain ⟨-, -, rows⟩ := opConcat_spec ran
  split_ifs at rows with fresh
  · refine ⟨?_, fun row member => (rows row).mpr (.inr member)⟩
    rw [fresh.2]
    exact fun row member => absurd member not_mem_nil
  · exact ⟨fun row member => (rows row).mpr (.inl member),
      fun row member => (rows row).mpr (.inr member)⟩

theorem storeResult_cases {result : Option Table} (ran : storeResult sess name result = .ok after) :
    after = sess ∨ ∃ whole, after = sess.setRel name whole ∧
      Grows (sess.rels name) (some whole) := by
  cases result with
  | none => exact .inl (Except.ok.inj ran).symm
  | some result =>
    simp only [storeResult] at ran
    split_ifs at ran with noRows
    · exact .inl (Except.ok.inj ran).symm
    cases found : sess.rels name with
    | none =>
      rw [found] at ran
      exact .inr ⟨result, (Except.ok.inj ran).symm, fun table member => nomatch member⟩
    | some target =>
      rw [found] at ran
      obtain ⟨whole, joined, rfl⟩ := map_eq_ok_iff.mp ran
      refine .inr ⟨whole, rfl, fun table member => ?_⟩
      cases member
      exact ⟨whole, rfl, (appendAll_spec joined).1⟩

theorem mem_after_storeResult {result : Table}
    (ran : storeResult sess name (some result) = .ok after) {row : Row}
    (member : row ∈ result.rows) : ∃ whole ∈ after.rels name, row ∈ whole.rows := by
  simp only [storeResult, if_neg (ne_nil_of_mem member)] at ran
  cases found : sess.rels name with
  | none =>
    rw [found] at ran
    cases ran
    exact ⟨result, sess.setRel_rels_self name result, member⟩
  | some target =>
    rw [found] at ran
    obtain ⟨whole, joined, rfl⟩ := map_eq_ok_iff.mp ran
    exact ⟨whole, sess.setRel_rels_self name whole, (appendAll_spec joined).2 row member⟩

variable {setting : Setting}

section

variable (ran : evalRule setting index rel sess = .ok after)

include ran

/-- What the evaluation of one plan does to the session: it leaves it, or it writes the relation
of the plan, which grows. -/
theorem evalRule_cases :
    after = sess ∨ ∃ whole, after = sess.setRel rel.name whole ∧
      Grows (sess.rels rel.name) (some whole) := by
  unfold evalRule at ran
  split_ifs at ran with idle
  · exact .inl (Except.ok.inj ran).symm
  obtain ⟨result, -, stored⟩ := bind_eq_ok_iff.mp ran
  exact storeResult_cases stored

theorem evalRule_sameFlags : SameFlags sess after := by
  rcases evalRule_cases ran with rfl | ⟨whole, rfl, -⟩
  · exact SameFlags.refl _
  · rfl

theorem evalRule_other (other : name ≠ rel.name) : after.rels name = sess.rels name := by
  rcases evalRule_cases ran with rfl | ⟨whole, rfl, -⟩
  · rfl
  · exact sess.setRel_rels_of_ne whole other

theorem evalRule_grows (name : String) : Grows (sess.rels name) (after.rels name) := by
  by_cases other : name = rel.name
  · subst other
    rcases evalRule_cases ran with rfl | ⟨whole, rfl, grows⟩
    · exact Grows.refl _
    rw [Session.setRel_rels_self]
    exact grows
  · exact Grows.of_eq (evalRule_other ran other)

end

section Rules

variable {setting : Setting}

theorem evalRules_cons {rest : List StratumRel} :
    evalRules setting index (rel :: rest) sess =
      (evalRule setting index rel sess).bind (evalRules setting (index + 1) rest) := rfl

/-- The plans before one plan, that plan, and the plans after it. -/
theorem evalRules_split {before rest : List StratumRel}
    (evaluated : evalRules setting index (before ++ rest) sess = .ok after) :
    ∃ mid, evalRules setting index before sess = .ok mid ∧
      evalRules setting (index + before.length) rest mid = .ok after := by
  induction before generalizing index sess with
  | nil => exact ⟨sess, rfl, evaluated⟩
  | cons rel before ih =>
    simp only [cons_append, evalRules_cons, bind_eq_ok_iff, length_cons] at evaluated ⊢
    obtain ⟨first, here, later⟩ := evaluated
    obtain ⟨mid, middle, done⟩ := ih later
    exact ⟨mid, ⟨first, here, middle⟩, by rwa [Nat.add_right_comm] at done⟩

section

variable (ran : evalRules setting index relations sess = .ok after)

include ran

theorem evalRules_sameFlags : SameFlags sess after := by
  induction relations generalizing index sess with
  | nil =>
    cases ran
    exact SameFlags.refl _
  | cons rel rest ih =>
    obtain ⟨mid, here, later⟩ := bind_eq_ok_iff.mp ran
    exact (evalRule_sameFlags here).trans (ih later)

theorem evalRules_other (other : ∀ rel ∈ relations, name ≠ rel.name) :
    after.rels name = sess.rels name := by
  induction relations generalizing index sess with
  | nil =>
    cases ran
    rfl
  | cons rel rest ih =>
    obtain ⟨mid, here, later⟩ := bind_eq_ok_iff.mp ran
    rw [ih later fun rel member => other rel (mem_cons_of_mem _ member),
      evalRule_other here (other rel mem_cons_self)]

theorem evalRules_grows (name : String) : Grows (sess.rels name) (after.rels name) := by
  induction relations generalizing index sess with
  | nil =>
    cases ran
    exact Grows.refl _
  | cons rel rest ih =>
    obtain ⟨mid, here, later⟩ := bind_eq_ok_iff.mp ran
    exact (evalRule_grows here name).trans (ih later)

end

end Rules

theorem mem_after_evalRule (ran : evalRule setting index rel sess = .ok after)
    (due : (setting.ruleFrontier index).skips setting.outerEpoch sess.currentIteration = false)
    (live : planEmpty sess rel.plan = false) :
    ∃ result, evalRelation setting.machine sess setting.policy setting.isolated rel.plan =
        .ok result ∧
      ∀ table ∈ result, ∀ row ∈ table.rows, ∃ whole ∈ after.rels rel.name, row ∈ whole.rows := by
  simp only [evalRule, due, live, Bool.or_self, Bool.false_eq_true, if_false] at ran
  obtain ⟨result, evaluated, stored⟩ := bind_eq_ok_iff.mp ran
  refine ⟨result, evaluated, ?_⟩
  intro table isResult row member
  cases isResult
  exact mem_after_storeResult stored member

/-! ## Deltas and consolidation -/

theorem registerDeltas_other {deltas : List (StratumRel × Option Table)}
    (other : ∀ delta ∈ deltas, name ≠ makeDeltaName delta.1.name) :
    registerDeltas rels deltas name = rels name := by
  induction deltas generalizing rels with
  | nil => rfl
  | cons delta rest ih =>
    obtain ⟨rel, found⟩ := delta
    have later := fun delta member => other delta (mem_cons_of_mem _ member)
    cases found with
    | none => exact ih later
    | some table =>
      rw [registerDeltas, ih later]
      exact update_of_ne (other _ mem_cons_self) _ _

theorem removeDeltas_other (other : ∀ rel ∈ relations, name ≠ makeDeltaName rel.name) :
    removeDeltas rels relations name = rels name := by
  induction relations generalizing rels with
  | nil => rfl
  | cons rel rest ih =>
    rw [removeDeltas, ih fun rel member => other rel (mem_cons_of_mem _ member)]
    exact update_of_ne (other rel mem_cons_self) _ _

theorem mem_freshRows {table : Table} {old : Nat} {row : Row} :
    row ∈ freshRows table old ↔ row ∈ table.rows.drop old ∧ row ∉ table.rows.take old := by
  simp [freshRows]

/-- Consolidation changes no relation as a set of rows. -/
theorem mem_consolidateDelta {table : Table} {old : Nat} {row : Row} :
    row ∈ (consolidateDelta table old).1.rows ↔ row ∈ table.rows := by
  simp only [consolidateDelta, mem_append, mem_freshRows]
  conv_rhs => rw [← take_append_drop old table.rows, mem_append]
  by_cases seen : row ∈ table.rows.take old <;> simp [seen]

variable {counted : List (StratumRel × Nat)}

theorem consolidateAll_other (other : ∀ each ∈ counted, name ≠ each.1.name) :
    (consolidateAll rels counted).1 name = rels name := by
  induction counted generalizing rels with
  | nil => rfl
  | cons each rest ih =>
    obtain ⟨rel, old⟩ := each
    have later := fun each member => other each (mem_cons_of_mem _ member)
    simp only [consolidateAll]
    split
    · exact ih later
    split_ifs
    · exact ih later
    rw [ih later]
    exact update_of_ne (other _ mem_cons_self) _ _

theorem consolidateAll_grows (name : String) :
    Grows (rels name) ((consolidateAll rels counted).1 name) := by
  induction counted generalizing rels with
  | nil => exact Grows.refl _
  | cons each rest ih =>
    obtain ⟨rel, old⟩ := each
    simp only [consolidateAll]
    split
    · exact ih
    next table found =>
    split_ifs
    · exact ih
    refine Grows.trans ?_ ih
    by_cases same : name = rel.name
    · subst same
      rw [update_self, found]
      intro whole member
      cases member
      exact ⟨_, rfl, fun row inTable => mem_consolidateDelta.mpr inTable⟩
    · rw [update_of_ne same]
      exact Grows.refl _

/-! ## Passes -/

/-- What stays of a session while a stratum is evaluated. -/
structure PassFrame (stratum : Stratum) (before after : Session) : Prop where
  flags : after = { before with rels := after.rels, currentIteration := after.currentIteration }
  outside : ∀ name, stratum.changes name = false → after.rels name = before.rels name
  grows : ∀ rel ∈ stratum.relations, Grows (before.rels rel.name) (after.rels rel.name)

namespace PassFrame

variable {stratum : Stratum}

theorem refl (sess : Session) : PassFrame stratum sess sess :=
  ⟨rfl, fun _ _ => rfl, fun _ _ => Grows.refl _⟩

theorem trans {first second third : Session} (lower : PassFrame stratum first second)
    (upper : PassFrame stratum second third) : PassFrame stratum first third where
  flags := by
    rw [upper.flags, lower.flags]
  outside := fun name other => (upper.outside name other).trans (lower.outside name other)
  grows := fun rel member => (lower.grows rel member).trans (upper.grows rel member)

end PassFrame

section

variable {setting : Setting} {stratum : Stratum}

theorem openPass_frame (effIter : Nat) (state : LoopState) :
    PassFrame stratum state.sess (openPass stratum effIter state) where
  flags := rfl
  outside := by
    intro name other
    refine registerDeltas_other fun delta member => ?_
    exact (Stratum.changes_eq_false_iff.mp other delta.1 (of_mem_zip member).1).2
  grows := by
    intro rel member
    refine Grows.of_eq (registerDeltas_other fun delta inDeltas => ?_)
    exact stratum.plainNames rel member delta.1 (of_mem_zip inDeltas).1

theorem evalRules_frame (part : ∀ rel ∈ relations, rel ∈ stratum.relations)
    (ran : evalRules setting index relations sess = .ok after) : PassFrame stratum sess after where
  flags := by
    rw [evalRules_sameFlags ran]
  outside := by
    intro name other
    refine evalRules_other ran fun rel member => ?_
    exact (Stratum.changes_eq_false_iff.mp other rel (part rel member)).1
  grows := fun rel _ => evalRules_grows ran rel.name

theorem closePass_frame (opened done : Session) :
    PassFrame stratum done (closePass stratum opened done).sess where
  flags := rfl
  outside := by
    intro name other
    have plain := Stratum.changes_eq_false_iff.mp other
    simp only [closePass]
    rw [consolidateAll_other fun each member => (plain each.1 (of_mem_zip member).1).1,
      removeDeltas_other fun rel member => (plain rel member).2]
  grows := by
    intro rel member
    have kept : removeDeltas done.rels stratum.relations rel.name = done.rels rel.name :=
      removeDeltas_other (stratum.plainNames rel member)
    exact (Grows.of_eq kept).trans (consolidateAll_grows rel.name)

theorem subPass_frame {after : LoopState} {outcome : Outcome}
    (ran : subPass setting stratum effIter state = .ok (after, outcome)) :
    PassFrame stratum state.sess after.sess := by
  have opened : PassFrame stratum state.sess (openPass stratum effIter state) :=
    openPass_frame effIter state
  simp only [subPass] at ran
  split_ifs at ran with idle
  · cases ran
    exact opened
  obtain ⟨done, evaluated, closed⟩ := map_eq_ok_iff.mp ran
  cases closed
  exact (opened.trans (evalRules_frame (fun _ member => member) evaluated)).trans
    (closePass_frame _ _)

theorem loopStep_frame {next : Option Nat} {after : LoopState}
    (ran : loopStep setting stratum effIter state = .ok (next, after)) :
    PassFrame stratum state.sess after.sess := by
  unfold loopStep at ran
  split_ifs at ran with limit skipped
  · cases ran
    exact PassFrame.refl _
  · cases ran
    exact PassFrame.refl _
  obtain ⟨⟨passed, outcome⟩, pass, follows⟩ := map_eq_ok_iff.mp ran
  have frame := subPass_frame pass
  cases outcome <;> cases follows <;> exact frame

end

/-- A step of the loop goes on to a later iteration. -/
theorem lt_of_loopStep {next : Nat} {after : LoopState}
    (ran : loopStep setting stratum effIter state = .ok (some next, after)) : effIter < next := by
  unfold loopStep at ran
  split_ifs at ran with limit skipped
  · cases ran
  · cases ran
    exact Nat.lt_succ_self _
  obtain ⟨⟨passed, outcome⟩, pass, follows⟩ := map_eq_ok_iff.mp ran
  cases outcome
  · cases follows
    omega
  · cases follows
  · cases follows
    exact Nat.lt_succ_self _

theorem Reached.frame (reached : Reached setting stratum sess effIter state) :
    PassFrame stratum (startState stratum sess).sess state.sess := by
  induction reached with
  | start => exact PassFrame.refl _
  | step _ ran ih => exact ih.trans (loopStep_frame ran)

end Wirelog.SemiNaive

import Wirelog.SemiNaive.Passes

/-!
# The base-case skip

After the first pass of a stratum, a scan of a relation without added rows may be replaced by an
empty table. That loses nothing as long as the rows of the scan meet only relations that the
stratum does not change: then the plan derived the same rows from them in the first pass, and
they are in its relation. The condition is read off the plan by following where the rows on the
stack come from (`stepOrigins`, `SkipSafe`).

**`baseSkip_complete`**: along every evaluation of a stratum, in every pass after the first, and
for every plan whose skipped scans meet this condition, each row that the plan derives without
the skip is derived with it too, or is in the plan's relation already.

The condition is not checked by the code, which looks at the one operator after the scan
(`filteredStep_skips_join`): with a filter between a scan and a join with a relation of the
stratum, the join never sees a row after the first pass.
-/

set_option autoImplicit false

namespace Wirelog.SemiNaive

open Wirelog.IR Wirelog.Plan Wirelog.Foundations List
open Wirelog.Columnar (Row ColumnType)

variable {skipping plain after : Entry} {cache cache' firstCache firstCache' : MatCache}
  {plan : List StepOp} {planOp : PlanOp} {plains : List Entry}

/-! ## Where rows come from -/

/-- Where the rows of an entry of the stack come from: from scans that are not skipped, from
skipped ones alone (and the entry is the scan itself, or was computed), or from both. -/
inductive Origin where
  | live
  | base (scanned : Bool)
  | mixed
  deriving DecidableEq, Repr

/-- The origin of two tables laid one after the other. -/
def Origin.join : Origin → Origin → Origin
  | .live, .live => .live
  | .base _, .base _ => .base false
  | _, _ => .mixed

variable (stratum : Stratum) (sess : Session)

/-- A relation that the evaluation of a stratum does not change, and that is read as a whole in
every pass: the session has no rows added to it and none removed from it. -/
def isStatic (rel : String) : Bool :=
  !stratum.changes rel && !stratum.changes (deltaName rel) && (sess.delta rel).isNone &&
    match retractionName rel with
    | none => true
    | some name => !stratum.changes name && (sess.rels name).isNone

/-- Whether an operator treats rows that come from skipped scans alone row by row, with a relation
that does not change. A join whose result is kept must not have the scan itself on its left. -/
def keepsBase (scanned : Bool) (op : StepOp) : Bool :=
  match op.op with
  | .map _ _ | .filter _ | .consolidate => true
  | .join rel _ _ _ => !(scanned && keepsResult op) && decide (op.deltaMode ≠ .forceDelta) &&
      rel.all (isStatic stratum sess)
  | .antijoin rel _ _ _ | .semijoin rel _ _ _ _ => isStatic stratum sess rel
  | .variable _ | .reduce _ _ _ _ _ | .concat => false

/-- Whether an operator may hand on the scan itself. -/
def mayHandOn : PlanOp → Bool
  | .antijoin _ _ _ _ | .semijoin _ _ _ _ _ | .consolidate => true
  | _ => false

/-- Whether an operator treats every row on its own, whatever the types and the session. -/
def keepsMixed : PlanOp → Bool
  | .map _ _ | .filter _ | .consolidate => true
  | _ => false

/-- The origin of the entry on top of the stack once an operator has replaced it. -/
def topOrigin (op : StepOp) : Origin → Option Origin
  | .live => some .live
  | .base scanned => if keepsBase stratum sess scanned op then
      some (.base (scanned && mayHandOn op.op)) else none
  | .mixed => if keepsMixed op.op then some .mixed else none

/-- The origins of the entries of the stack after an operator, if the rows of skipped scans are
not lost to it. -/
def stepOrigins (op : StepOp) (skipped : Bool) (origins : List Origin) : Option (List Origin) :=
  match op.op with
  | .variable rel =>
    if skipped then
      if rel.all (isStatic stratum sess) then some (.base true :: origins) else none
    else some (.live :: origins)
  | .concat => match origins with
      | second :: first :: rest => some (first.join second :: rest)
      | origins => some origins
  | _ => match origins with
      | [] => none
      | top :: rest => (topOrigin stratum sess op top).map (· :: rest)

/-- The origins of the entries of the stack after the operators of a plan. -/
def planOrigins (skip : StepOp → List StepOp → Option Entry) :
    List StepOp → List Origin → Option (List Origin)
  | [], origins => some origins
  | op :: rest, origins =>
    (stepOrigins stratum sess op (skip op rest).isSome origins).bind (planOrigins skip rest)

/-- No rows of a skipped scan are lost to an operator that would derive something new from
them. -/
def SkipSafe (plan : List StepOp) : Prop :=
  (planOrigins stratum sess (baseSkip sess plan) plan []).isSome

instance (stratum : Stratum) (sess : Session) (plan : List StepOp) :
    Decidable (SkipSafe stratum sess plan) := inferInstanceAs (Decidable (_ = true))

/-- Whether a scan of a list of operators is skipped. -/
def skipsScan (skip : StepOp → List StepOp → Option Entry) : List StepOp → Bool
  | [] => false
  | op :: rest => (skip op rest).isSome || skipsScan skip rest

/-- Without a skipped scan nothing changes. -/
theorem evalSteps_of_not_skipsScan {machine : Machine} {sess : Session} {policy : CachePolicy}
    {skip : StepOp → List StepOp → Option Entry} {ops : List StepOp}
    (kept : skipsScan skip ops = false) (stack : List Entry) (cache : MatCache) :
    evalSteps machine sess policy skip ops stack cache =
      evalSteps machine sess policy noSkip ops stack cache := by
  induction ops generalizing stack cache with
  | nil => rfl
  | cons op rest ih =>
    simp only [skipsScan, Bool.or_eq_false_iff, Option.isSome_eq_false_iff,
      Option.isNone_iff_eq_none] at kept
    rw [evalSteps_cons kept.1, evalSteps_cons (by rfl)]
    exact congrArg _ (funext fun done => ih kept.2 done.1 done.2)

/-! ## Relations that do not change -/

/-- The relation is read as a whole. -/
structure Undisturbed (sess : Session) (rel : String) : Prop where
  delta : sess.delta rel = none
  retraction : sess.retraction rel = none

namespace Undisturbed

variable {sess : Session} {rel : String}

section

variable (undisturbed : Undisturbed sess rel)

include undisturbed

theorem retraction_eq :
    ((retractionName rel).bind fun name => (sess.rels name).map (name, ·)) = none := by
  have none := undisturbed.retraction
  unfold Session.retraction at none
  cases named : retractionName rel with
  | none => rfl
  | some name =>
    rw [named] at none
    simp only [Option.bind_some] at none ⊢
    rw [none]
    rfl

theorem scanDelta_eq : scanDelta sess rel = none := by
  unfold scanDelta
  split_ifs
  · exact undisturbed.retraction_eq
  rw [undisturbed.delta]
  rfl

theorem colOpVariable_auto :
    colOpVariable sess .auto (some rel) = match sess.rels rel with
      | none => .error .enoent
      | some full => .ok (fullScan rel full) := by
  cases found : sess.rels rel with
  | none => simp only [colOpVariable, found]
  | some full => simp [colOpVariable, found, undisturbed.scanDelta_eq]

theorem rightChoice_eq {mode : DeltaMode} (unforced : mode ≠ .forceDelta) (right : Table)
    (leftIsDelta : Bool) : rightChoice sess mode rel right leftIsDelta = .full := by
  have retracted : retractedRight sess rel = .full := by
    unfold retractedRight
    split_ifs
    · rw [undisturbed.retraction_eq]
    · rfl
  have auto : autoRight sess rel right = .full := by
    unfold autoRight
    rw [undisturbed.delta]
  cases mode with
  | forceDelta => exact absurd rfl unforced
  | forceFull => exact retracted
  | _ =>
    simp only [rightChoice, auto]
    split_ifs <;> exact retracted

end

end Undisturbed

/-- A session with the same relations as another outside a stratum. -/
def AgreesOutside (sess seed : Session) : Prop :=
  ∀ name, stratum.changes name = false → seed.rels name = sess.rels name

theorem AgreesOutside.refl : AgreesOutside stratum sess sess :=
  fun _ _ => rfl

section Static

variable {stratum : Stratum} {sess seed : Session} {rel : String}

theorem isStatic_iff : isStatic stratum sess rel ↔
    stratum.changes rel = false ∧ stratum.changes (deltaName rel) = false ∧
      sess.delta rel = none ∧
      ∀ name, retractionName rel = some name →
        stratum.changes name = false ∧ sess.rels name = none := by
  unfold isStatic
  cases named : retractionName rel with
  | none => simp [and_assoc]
  | some name => simp [and_assoc]

theorem isStatic_undisturbed (static : isStatic stratum sess rel)
    (agrees : AgreesOutside stratum sess seed) : Undisturbed seed rel := by
  obtain ⟨-, deltaPlain, noDelta, noRetraction⟩ := isStatic_iff.mp static
  constructor
  · exact (agrees _ deltaPlain).trans noDelta
  · unfold Session.retraction
    cases named : retractionName rel with
    | none => rfl
    | some name =>
      obtain ⟨plain, missing⟩ := noRetraction name named
      exact (agrees name plain).trans missing

theorem isStatic_rels (static : isStatic stratum sess rel)
    (agrees : AgreesOutside stratum sess seed) : seed.rels rel = sess.rels rel :=
  agrees rel (isStatic_iff.mp static).1

end Static

/-! ## Three runs side by side -/

/-- An entry of the plan without the skip, the same entry with the skip, and the entry at the same
place in the first pass. -/
inductive Aligned : Origin → Entry → Entry → Entry → Prop where
  | live (plain seed : Entry) : Aligned .live plain plain seed
  | base {scanned : Bool} {plain skipping : Entry} (empty : skipping.table.rows = [])
      (types : skipping.table.types = plain.table.types) (unsourced : skipping.source = none)
      (computed : scanned = false → plain.source = none) :
      Aligned (.base scanned) plain skipping plain
  | mixed {plain skipping seed : Entry} (within : Within skipping.table plain.table)
      (rows : ∀ row ∈ plain.table.rows, row ∈ skipping.table.rows ∨ row ∈ seed.table.rows) :
      Aligned .mixed plain skipping seed

/-- The stacks of the three runs. -/
inductive AlignedStacks : List Origin → List Entry → List Entry → List Entry → Prop where
  | nil : AlignedStacks [] [] [] []
  | cons {origin : Origin} {plain skipping seed : Entry} {origins : List Origin}
      {plains skippings seeds : List Entry} :
      Aligned origin plain skipping seed → AlignedStacks origins plains skippings seeds →
      AlignedStacks (origin :: origins) (plain :: plains) (skipping :: skippings) (seed :: seeds)

theorem Aligned.within {origin : Origin} {seed : Entry}
    (aligned : Aligned origin plain skipping seed) : Within skipping.table plain.table := by
  cases aligned with
  | live => exact Within.refl _
  | base empty types _ _ =>
    refine ⟨types, fun row member => ?_⟩
    rw [empty] at member
    exact absurd member not_mem_nil
  | mixed within _ => exact within

theorem Aligned.rows {origin : Origin} {seed : Entry}
    (aligned : Aligned origin plain skipping seed) :
    ∀ row ∈ plain.table.rows, row ∈ skipping.table.rows ∨ row ∈ seed.table.rows := by
  intro row member
  cases aligned with
  | live => exact .inl member
  | base => exact .inr member
  | mixed _ rows => exact rows row member

section Steps

variable {machine : Machine} {stratum : Stratum} {sess seed : Session} {op : StepOp}

/-- A join-like operator reads one relation of the session. -/
theorem unaryOp_congr {db db' : Database}
    (same : ∀ rel, rightRelation planOp = some rel → db rel = db' rel) :
    unaryOp machine db planOp = unaryOp machine db' planOp := by
  cases planOp with
  | antijoin rel leftKeys rightKeys rightFilter =>
    funext left
    have here : db rel = db' rel := same rel rfl
    simp [unaryOp, opAntijoin, here]
  | semijoin rel leftKeys rightKeys rightFilter indices =>
    funext left
    have here : db rel = db' rel := same rel rfl
    simp [unaryOp, opSemijoin, here]
  | _ => rfl

theorem unaryEntry_congr {db db' : Database}
    (same : ∀ rel, rightRelation planOp = some rel → db rel = db' rel) (entry : Entry) :
    unaryEntry machine db planOp entry = unaryEntry machine db' planOp entry := by
  have handed : handsOn db planOp entry.table = handsOn db' planOp entry.table := by
    cases planOp with
    | antijoin rel leftKeys rightKeys rightFilter => exact congrArg Option.isNone (same rel rfl)
    | semijoin rel leftKeys rightKeys rightFilter indices =>
      exact congrArg Option.isNone (same rel rfl)
    | _ => rfl
  unfold unaryEntry
  rw [unaryOp_congr same, handed]

theorem replaceTop_of_rowwise (rowwise : isRowwise op.op) (entry : Entry) :
    replaceTop machine sess op entry = unaryEntry machine sess.rels op.op entry := by
  obtain ⟨planOp, mode, materialized, projection⟩ := op
  cases planOp <;> first | rfl | cases rowwise

/-- What an operator is that rows of skipped scans are not lost to. -/
theorem keepsBase_cases {scanned : Bool} (keeps : keepsBase stratum sess scanned op) :
    (isRowwise op.op ∧ ∀ rel, rightRelation op.op = some rel → isStatic stratum sess rel) ∨
      ∃ rel leftKeys rightKeys rightFilter, op.op = .join rel leftKeys rightKeys rightFilter ∧
        (scanned → keepsResult op = false) ∧ op.deltaMode ≠ .forceDelta ∧
          ∀ name ∈ rel, isStatic stratum sess name := by
  unfold keepsBase at keeps
  split at keeps
  · next indices exprs isMap => simp [isMap, isRowwise, rightRelation]
  · next expr isFilter => simp [isFilter, isRowwise, rightRelation]
  · next isConsolidate => simp [isConsolidate, isRowwise, rightRelation]
  · next rel leftKeys rightKeys rightFilter isJoin =>
    refine .inr ⟨rel, leftKeys, rightKeys, rightFilter, isJoin, ?_⟩
    simp only [Bool.and_eq_true, Bool.not_eq_true', Bool.and_eq_false_iff,
      decide_eq_true_eq] at keeps
    obtain ⟨⟨apart, unforced⟩, static⟩ := keeps
    refine ⟨fun isScan => apart.resolve_left (by simp [isScan]), unforced, ?_⟩
    intro name member
    exact Option.all_eq_true _ _ |>.mp static name member
  · next rel leftKeys rightKeys rightFilter isAntijoin =>
    simpa [isAntijoin, isRowwise, rightRelation] using keeps
  · next rel leftKeys rightKeys rightFilter indices isSemijoin =>
    simpa [isSemijoin, isRowwise, rightRelation] using keeps
  all_goals cases keeps

/-- A join with a relation that does not change. -/
theorem joinEntry_undisturbed {rel : String} {leftKeys rightKeys : List Nat}
    {rightFilter : Option PlanExpr} (undisturbed : Undisturbed sess rel)
    (unforced : op.deltaMode ≠ .forceDelta) (left : Entry) :
    joinEntry machine sess op (some rel) leftKeys rightKeys rightFilter left =
      match sess.rels rel with
      | none => .ok ⟨projectJoin op.projection (.empty left.table.types), false, none⟩
      | some right =>
        (joinRows machine right leftKeys rightKeys rightFilter op.projection left.table).map
          (⟨·, joinFlag op.projection left.isDelta false, none⟩) := by
  cases found : sess.rels rel <;> simp [joinEntry, found, undisturbed.rightChoice_eq unforced]

/-- The first pass did the same to rows that come from skipped scans. -/
theorem replaceTop_seed {scanned : Bool} (keeps : keepsBase stratum sess scanned op)
    (agrees : AgreesOutside stratum sess seed) (entry : Entry) :
    replaceTop machine seed op entry = replaceTop machine sess op entry := by
  rcases keepsBase_cases keeps with
    ⟨rowwise, static⟩ | ⟨rel, leftKeys, rightKeys, rightFilter, isJoin, -, unforced, static⟩
  · rw [replaceTop_of_rowwise rowwise, replaceTop_of_rowwise rowwise]
    apply unaryEntry_congr
    intro rel reads
    exact isStatic_rels (static rel reads) agrees
  · simp only [replaceTop, isJoin]
    cases rel with
    | none => rfl
    | some rel =>
      have isStatic := static rel rfl
      rw [joinEntry_undisturbed (isStatic_undisturbed isStatic agrees) unforced,
        joinEntry_undisturbed (isStatic_undisturbed isStatic (.refl stratum sess)) unforced,
        isStatic_rels isStatic agrees]

/-- Nothing comes from the empty table that stands for a skipped scan. -/
theorem replaceTop_empty {scanned : Bool} (keeps : keepsBase stratum sess scanned op)
    {entry : Entry} (ran : replaceTop machine sess op entry = .ok after)
    (empty : skipping.table.rows = []) (types : skipping.table.types = entry.table.types) :
    ∃ skipped, replaceTop machine sess op skipping = .ok skipped ∧
      skipped.table.rows = [] ∧ skipped.table.types = after.table.types := by
  have inside : Within skipping.table entry.table :=
    ⟨types, fun row member => absurd (empty ▸ member) not_mem_nil⟩
  rcases keepsBase_cases keeps with
    ⟨rowwise, -⟩ | ⟨rel, leftKeys, rightKeys, rightFilter, isJoin, -, unforced, static⟩
  · rw [replaceTop_of_rowwise rowwise] at ran ⊢
    obtain ⟨shape, rowOp⟩ := exists_rowOp_unaryOp machine sess.rels rowwise
    obtain ⟨table, applied, rfl⟩ := map_eq_ok_iff.mp ran
    obtain ⟨lesser, lesserRan, within⟩ := rowOp.within applied inside
    exact ⟨_, map_eq_ok_iff.mpr ⟨lesser, lesserRan, rfl⟩, rowOp.rows_nil lesserRan empty,
      within.types⟩
  · simp only [replaceTop, isJoin] at ran ⊢
    cases rel with
    | none =>
      cases ran
      exact ⟨_, rfl, projectJoin_empty_rows _ _, by rw [types]⟩
    | some rel =>
      have undisturbed := isStatic_undisturbed (static rel rfl) (.refl stratum sess)
      rw [joinEntry_undisturbed undisturbed unforced] at ran ⊢
      cases found : sess.rels rel with
      | none =>
        rw [found] at ran
        cases ran
        exact ⟨_, rfl, projectJoin_empty_rows _ _, by rw [types]⟩
      | some right =>
        rw [found] at ran
        obtain ⟨table, joined, rfl⟩ := map_eq_ok_iff.mp ran
        have rowOp := rowOp_joinRows machine leftKeys rightKeys rightFilter right op.projection
        obtain ⟨lesser, lesserRan, within⟩ := rowOp.within joined inside
        exact ⟨_, map_eq_ok_iff.mpr ⟨lesser, lesserRan, rfl⟩, rowOp.rows_nil lesserRan empty,
          within.types⟩

/-- Most operators compute a table of their own. -/
theorem replaceTop_source {entry : Entry} (ran : replaceTop machine sess op entry = .ok after) :
    after.source = none ∨ (mayHandOn op.op ∧ after.source = entry.source) := by
  unfold replaceTop at ran
  split at ran
  · next rel leftKeys rightKeys rightFilter isJoin =>
    left
    unfold joinEntry at ran
    split at ran
    · cases ran
      rfl
    split at ran
    · cases ran
      rfl
    split at ran
    · cases ran
      rfl
    · obtain ⟨table, -, rfl⟩ := map_eq_ok_iff.mp ran
      rfl
    · obtain ⟨table, -, rfl⟩ := map_eq_ok_iff.mp ran
      rfl
  · next other _ =>
    obtain ⟨table, -, rfl⟩ := map_eq_ok_iff.mp ran
    by_cases handed : handsOn sess.rels op.op entry.table
    · refine .inr ⟨?_, if_pos handed⟩
      unfold handsOn at handed
      split at handed <;> first | cases handed | simp_all [mayHandOn]
    · exact .inl (if_neg handed)

/-- The operators that may follow a mixture read no relation, and look at no type. -/
theorem exists_rowOp_of_keepsMixed (machine : Machine) (keeps : keepsMixed planOp) :
    ∃ shape, (∀ db, RowOp (unaryOp machine db planOp) shape) ∧
      ∀ types types' source row, shape.image types source row → shape.image types' source row := by
  cases planOp with
  | map indices exprs =>
    exact ⟨_, fun _ => rowOp_opMap machine indices exprs, fun _ _ _ _ image => image⟩
  | filter expr =>
    refine ⟨_, fun _ => rowOp_opFilter machine expr, fun _ _ _ _ image => ?_⟩
    cases expr <;> exact image
  | consolidate => exact ⟨_, fun _ => rowOp_opConsolidate, fun _ _ _ _ image => image⟩
  | _ => cases keeps

theorem isRowwise_of_keepsMixed (keeps : keepsMixed planOp) :
    isRowwise planOp := by
  cases planOp <;> first | rfl | cases keeps

theorem keepsResult_of_rowwise (rowwise : isRowwise op.op) : keepsResult op = false := by
  obtain ⟨planOp, mode, materialized, projection⟩ := op
  cases planOp with
  | join => cases rowwise
  | _ => simp [keepsResult]

theorem replaceTop_mixed (keeps : keepsMixed op.op) {first firstAfter : Entry}
    (ran : replaceTop machine sess op plain = .ok after)
    (firstRan : replaceTop machine seed op first = .ok firstAfter)
    (within : Within skipping.table plain.table)
    (rows : ∀ row ∈ plain.table.rows, row ∈ skipping.table.rows ∨ row ∈ first.table.rows) :
    ∃ skipped, replaceTop machine sess op skipping = .ok skipped ∧
      Aligned .mixed after skipped firstAfter := by
  obtain ⟨shape, rowOp, typeFree⟩ := exists_rowOp_of_keepsMixed machine keeps
  rw [replaceTop_of_rowwise (isRowwise_of_keepsMixed keeps)] at ran firstRan ⊢
  obtain ⟨table, applied, rfl⟩ := map_eq_ok_iff.mp ran
  obtain ⟨firstTable, firstApplied, rfl⟩ := map_eq_ok_iff.mp firstRan
  obtain ⟨lesser, lesserRan, inside⟩ := (rowOp sess.rels).within applied within
  refine ⟨_, map_eq_ok_iff.mpr ⟨lesser, lesserRan, rfl⟩, .mixed inside ?_⟩
  intro row member
  obtain ⟨source, inPlain, image⟩ := ((rowOp sess.rels).rows applied row).mp member
  rcases rows source inPlain with inSkipping | inFirst
  · exact .inl (((rowOp sess.rels).rows lesserRan row).mpr
      ⟨source, inSkipping, typeFree _ _ _ _ image⟩)
  · exact .inr (((rowOp seed.rels).rows firstApplied row).mpr
      ⟨source, inFirst, typeFree _ _ _ _ image⟩)

variable {policy : CachePolicy}

/-- The entry on top of the stack is replaced in the three runs. -/
theorem replaceTopCached_aligned {origin origin' : Origin} {first firstAfter : Entry}
    (agrees : AgreesOutside stratum sess seed) (aligned : Aligned origin plain skipping first)
    (follows : topOrigin stratum sess op origin = some origin')
    (ran : replaceTopCached machine sess policy op plain cache = .ok (after, cache'))
    (firstRan : replaceTopCached machine seed policy op first firstCache =
      .ok (firstAfter, firstCache')) :
    ∃ skipped, replaceTopCached machine sess policy op skipping cache = .ok (skipped, cache') ∧
      Aligned origin' after skipped firstAfter := by
  cases aligned with
  | live =>
    cases follows
    exact ⟨after, ran, .live after firstAfter⟩
  | @base scanned _ _ empty types unsourced computed =>
    simp only [topOrigin] at follows
    split_ifs at follows with keeps
    cases follows
    -- the scan itself may have an entry in the cache, but no join that looks there is allowed
    have apart : plain.source = none ∨ keepsResult op = false := by
      rcases keepsBase_cases keeps with ⟨rowwise, -⟩ | ⟨_, _, _, _, -, notKept, -, -⟩
      · exact .inr (keepsResult_of_rowwise rowwise)
      cases scanned with
      | false => exact .inl (computed rfl)
      | true => exact .inr (notKept rfl)
    rw [replaceTopCached_eq apart] at ran firstRan
    rw [replaceTopCached_eq (.inl unsourced)]
    obtain ⟨entry, replaced, same⟩ := map_eq_ok_iff.mp ran
    cases same
    rw [replaceTop_seed keeps agrees, replaced] at firstRan
    cases firstRan
    obtain ⟨skipped, skippedRan, skippedEmpty, skippedTypes⟩ :=
      replaceTop_empty keeps replaced empty types
    refine ⟨skipped, map_eq_ok_iff.mpr ⟨skipped, skippedRan, rfl⟩,
      .base skippedEmpty skippedTypes ?_ ?_⟩
    · exact (replaceTop_source skippedRan).elim id fun handed => handed.2.trans unsourced
    · intro notScan
      rcases replaceTop_source replaced with own | ⟨mayHand, handed⟩
      · exact own
      rw [mayHand, Bool.and_true] at notScan
      exact handed.trans (computed notScan)
  | mixed within rows =>
    simp only [topOrigin] at follows
    split_ifs at follows with keeps
    cases follows
    have apart := keepsResult_of_rowwise (isRowwise_of_keepsMixed keeps)
    rw [replaceTopCached_eq (.inr apart)] at ran firstRan ⊢
    obtain ⟨entry, replaced, same⟩ := map_eq_ok_iff.mp ran
    cases same
    obtain ⟨firstEntry, firstReplaced, same⟩ := map_eq_ok_iff.mp firstRan
    cases same
    obtain ⟨skipped, skippedRan, stays⟩ := replaceTop_mixed keeps replaced firstReplaced within rows
    exact ⟨skipped, map_eq_ok_iff.mpr ⟨skipped, skippedRan, rfl⟩, stays⟩

/-- Two entries are laid one after the other in the three runs. -/
theorem opConcat_aligned {one other : Origin} {plain' skipping' first first' : Entry}
    {table firstTable : Table} (aligned : Aligned one plain skipping first)
    (aligned' : Aligned other plain' skipping' first')
    (ran : opConcat plain.table plain'.table = .ok table)
    (firstRan : opConcat first.table first'.table = .ok firstTable) :
    ∃ skipped, opConcat skipping.table skipping'.table = .ok skipped ∧
      Aligned (one.join other) ⟨table, false, none⟩ ⟨skipped, false, none⟩
        ⟨firstTable, false, none⟩ := by
  obtain ⟨skipped, skippedRan, within⟩ := opConcat_within ran aligned.within aligned'.within
  refine ⟨skipped, skippedRan, ?_⟩
  obtain ⟨-, -, rows⟩ := opConcat_spec ran
  obtain ⟨-, -, skippedRows⟩ := opConcat_spec skippedRan
  obtain ⟨-, -, firstRows⟩ := opConcat_spec firstRan
  have mixture : Aligned .mixed ⟨table, false, none⟩ ⟨skipped, false, none⟩
      ⟨firstTable, false, none⟩ := by
    refine .mixed within fun row member => ?_
    rcases (rows row).mp member with inFirst | inSecond
    · exact (aligned.rows row inFirst).imp (fun found => (skippedRows row).mpr (.inl found))
        fun found => (firstRows row).mpr (.inl found)
    · exact (aligned'.rows row inSecond).imp (fun found => (skippedRows row).mpr (.inr found))
        fun found => (firstRows row).mpr (.inr found)
  cases aligned with
  | live =>
    cases aligned' with
    | live =>
      rw [ran] at skippedRan
      cases skippedRan
      exact .live _ _
    | base => exact mixture
    | mixed => exact mixture
  | base empty types =>
    cases aligned' with
    | live => exact mixture
    | base empty' types' =>
      rw [ran] at firstRan
      cases firstRan
      refine .base (eq_nil_iff_forall_not_mem.mpr fun row member => ?_) within.types rfl
        fun _ => rfl
      rw [skippedRows, empty, empty'] at member
      exact member.elim not_mem_nil not_mem_nil
    | mixed => exact mixture
  | mixed =>
    cases aligned' <;> exact mixture

variable {skippings firsts plains' firsts' : List Entry} {origins origins' : List Origin}

section

variable (agrees : AgreesOutside stratum sess seed)
  (aligned : AlignedStacks origins plains skippings firsts)

include agrees aligned

/-- One operator in the three runs, when the scan is not skipped. -/
theorem stepCached_aligned (follows : stepOrigins stratum sess op false origins = some origins')
    (ran : stepCached machine sess policy op plains cache = .ok (plains', cache'))
    (firstRan : stepCached machine seed policy op firsts firstCache = .ok (firsts', firstCache')) :
    ∃ skippings', stepCached machine sess policy op skippings cache = .ok (skippings', cache') ∧
      AlignedStacks origins' plains' skippings' firsts' := by
  obtain ⟨planOp, mode, materialized, projection⟩ := op
  cases planOp with
  | «variable» rel =>
    cases follows
    simp only [stepCached, stepOp] at ran firstRan ⊢
    obtain ⟨stack, pushed, same⟩ := map_eq_ok_iff.mp ran
    cases same
    obtain ⟨entry, scanned, rfl⟩ := map_eq_ok_iff.mp pushed
    obtain ⟨firstStack, firstPushed, same⟩ := map_eq_ok_iff.mp firstRan
    cases same
    obtain ⟨firstEntry, -, rfl⟩ := map_eq_ok_iff.mp firstPushed
    rw [scanned]
    exact ⟨entry :: skippings, rfl, .cons (.live entry firstEntry) aligned⟩
  | concat =>
    cases aligned with
    | nil =>
      cases follows
      cases ran
      cases firstRan
      exact ⟨[], rfl, .nil⟩
    | cons top rest =>
      cases rest with
      | nil =>
        cases follows
        cases ran
        cases firstRan
        exact ⟨_, rfl, .cons top .nil⟩
      | cons below rest =>
        cases follows
        simp only [stepCached, stepOp] at ran firstRan ⊢
        obtain ⟨stack, pushed, same⟩ := map_eq_ok_iff.mp ran
        cases same
        obtain ⟨table, joined, rfl⟩ := map_eq_ok_iff.mp pushed
        obtain ⟨firstStack, firstPushed, same⟩ := map_eq_ok_iff.mp firstRan
        cases same
        obtain ⟨firstTable, firstJoined, rfl⟩ := map_eq_ok_iff.mp firstPushed
        obtain ⟨skipped, skippedRan, stays⟩ := opConcat_aligned below top joined firstJoined
        rw [skippedRan]
        exact ⟨_, rfl, .cons stays rest⟩
  | _ =>
    cases aligned with
    | nil => cases ran
    | cons top rest =>
      obtain ⟨origin, replaced, rfl⟩ := Option.map_eq_some_iff.mp follows
      simp only [stepCached] at ran firstRan ⊢
      obtain ⟨⟨after, afterCache⟩, done, same⟩ := map_eq_ok_iff.mp ran
      cases same
      obtain ⟨⟨firstAfter, firstAfterCache⟩, firstDone, same⟩ := map_eq_ok_iff.mp firstRan
      cases same
      obtain ⟨skipped, skippedRan, stays⟩ :=
        replaceTopCached_aligned agrees top replaced done firstDone
      exact ⟨_, map_eq_ok_iff.mpr ⟨_, skippedRan, rfl⟩, .cons stays rest⟩

/-- A skipped scan in the three runs. -/
theorem skipped_aligned {rest : List StepOp} {entry : Entry}
    (skips : baseSkip sess plan op rest = some entry)
    (follows : stepOrigins stratum sess op true origins = some origins')
    (ran : stepCached machine sess policy op plains cache = .ok (plains', cache'))
    (firstRan : stepCached machine seed policy op firsts firstCache = .ok (firsts', firstCache')) :
    cache' = cache ∧ AlignedStacks origins' plains' (entry :: skippings) firsts' := by
  obtain ⟨rel, full, isScan, auto, found, rfl⟩ := eq_of_baseSkip skips
  obtain ⟨planOp, mode, materialized, projection⟩ := op
  cases isScan
  cases auto
  simp only [stepOrigins, if_true, Option.all_some] at follows
  split_ifs at follows with static
  cases follows
  have here := (isStatic_undisturbed static (.refl stratum sess)).colOpVariable_auto
  have there := (isStatic_undisturbed static agrees).colOpVariable_auto
  simp only [isStatic_rels static agrees, found] at here there
  simp only [stepCached, stepOp, here] at ran
  simp only [stepCached, stepOp, there] at firstRan
  cases ran
  cases firstRan
  exact ⟨rfl, .cons (.base rfl rfl rfl (by simp)) aligned⟩

/-- **A whole plan in the three runs.** -/
theorem evalSteps_aligned {ops : List StepOp}
    (follows : planOrigins stratum sess (baseSkip sess plan) ops origins = some origins')
    (ran : evalSteps machine sess policy noSkip ops plains cache = .ok (plains', cache'))
    (firstRan : evalSteps machine seed policy noSkip ops firsts firstCache =
      .ok (firsts', firstCache')) :
    ∃ skippings', evalSteps machine sess policy (baseSkip sess plan) ops skippings cache =
        .ok (skippings', cache') ∧ AlignedStacks origins' plains' skippings' firsts' := by
  induction ops generalizing origins plains skippings firsts cache firstCache with
  | nil =>
    cases follows
    cases ran
    cases firstRan
    exact ⟨skippings, rfl, aligned⟩
  | cons op rest ih =>
    obtain ⟨between, step, later⟩ := Option.bind_eq_some_iff.mp follows
    rw [evalSteps_cons (by rfl)] at ran firstRan
    obtain ⟨⟨mid, midCache⟩, stepped, laterRan⟩ := bind_eq_ok_iff.mp ran
    obtain ⟨⟨firstMid, firstMidCache⟩, firstStepped, firstLaterRan⟩ := bind_eq_ok_iff.mp firstRan
    cases skips : baseSkip sess plan op rest with
    | some entry =>
      rw [skips] at step
      obtain ⟨rfl, stays⟩ := skipped_aligned agrees aligned skips step stepped firstStepped
      rw [evalSteps_cons_skip skips]
      exact ih stays later laterRan firstLaterRan
    | none =>
      rw [skips] at step
      obtain ⟨skipped, skippedRan, stays⟩ :=
        stepCached_aligned agrees aligned step stepped firstStepped
      rw [evalSteps_cons skips, skippedRan]
      exact ih stays later laterRan firstLaterRan

end

end Steps

/-! ## The first pass -/

def RelationPlan.alternatives : RelationPlan → List (List StepOp)
  | .ops plan => [plan]
  | .kFusion copies => copies

/-- Whether a list of operators is evaluated in the first pass, whatever deltas there are. -/
def runsFirst (plan : List StepOp) : Bool :=
  (!sess.deltaSeeded && !sess.retractionSeeded) || plan.any isConcat ||
    plan.all fun op => decide (op.deltaMode ≠ .forceDelta)

theorem hasEmptyForcedDelta_first {sess : Session}
    (runs : runsFirst sess plan) (first : sess.currentIteration = 0) :
    hasEmptyForcedDelta sess plan = false := by
  simp only [runsFirst, Bool.or_eq_true, Bool.and_eq_true, Bool.not_eq_true'] at runs
  rcases runs with (⟨notSeeded, notRetracted⟩ | concat) | unforced
  · simp [hasEmptyForcedDelta, Session.pastSeed, first, notSeeded, notRetracted]
  · simp [hasEmptyForcedDelta, concat]
  have none : (plan.takeWhile fun op => !nameTooLong sess op).any (lacksForcedDelta sess) =
      false := by
    apply any_eq_false.mpr
    intro op member
    have mode := all_eq_true.mp unforced op ((takeWhile_sublist _).mem member)
    simp [lacksForcedDelta, of_decide_eq_true mode]
  simp [hasEmptyForcedDelta, none]

theorem mem_of_mergeK {tables : List Table} {merged table : Table} {row : Row}
    (merges : mergeK tables = some merged) (isPart : table ∈ tables) (member : row ∈ table.rows) :
    row ∈ merged.rows := by
  cases tables with
  | nil => cases merges
  | cons first rest =>
    simp only [mergeK] at merges
    split_ifs at merges
    cases merges
    exact mem_dedup.mpr (mem_flatMap.mpr ⟨table, isPart, member⟩)

section Evaluation

variable {machine : Machine} {sess : Session} {policy : CachePolicy} {isolated : Bool}

theorem evalCopy_of_mem {copies : List (List StepOp)} {results : List Table}
    (ran : evalCopies machine sess policy isolated copies cache = .ok results)
    {copy : List StepOp} (member : copy ∈ copies) :
    ∃ before result after, evalCopy machine sess policy copy before = .ok (result, after) ∧
      ∀ table ∈ result, table ∈ results := by
  induction copies generalizing cache results with
  | nil => exact absurd member not_mem_nil
  | cons head rest ih =>
    obtain ⟨⟨result, after⟩, here, later⟩ := bind_eq_ok_iff.mp ran
    obtain ⟨others, othersRan, rfl⟩ := map_eq_ok_iff.mp later
    rcases mem_cons.mp member with rfl | inRest
    · refine ⟨cache, result, after, here, fun table isResult => ?_⟩
      exact mem_append_left _ (Option.mem_toList.mpr isResult)
    obtain ⟨before, result', after', ran', kept⟩ := ih othersRan inRest
    exact ⟨before, result', after', ran', fun table isResult =>
      mem_append_right _ (kept table isResult)⟩

/-- Each list of operators of a plan is evaluated, and its rows are in the result of the plan. -/
theorem evalRelation_alternative {relPlan : RelationPlan} {result : Option Table}
    (ran : evalRelation machine sess policy isolated relPlan = .ok result)
    (member : plan ∈ relPlan.alternatives) (live : hasEmptyForcedDelta sess plan = false) :
    ∃ before stack after, colEvalRelationPlan machine sess policy plan before = .ok (stack, after) ∧
      ∀ entry ∈ stack.head?, ∀ row ∈ entry.table.rows, ∃ table ∈ result, row ∈ table.rows := by
  cases relPlan with
  | ops operators =>
    obtain rfl : plan = operators := mem_singleton.mp member
    obtain ⟨⟨stack, after⟩, evaluated, rfl⟩ := map_eq_ok_iff.mp ran
    refine ⟨[], stack, after, evaluated, fun entry top row inEntry => ?_⟩
    exact ⟨entry.table, Option.mem_map_of_mem _ top, inEntry⟩
  | kFusion copies =>
    obtain ⟨fused, fusedRan, rfl⟩ := map_eq_ok_iff.mp ran
    obtain ⟨results, copiesRan, merged⟩ := bind_eq_ok_iff.mp fusedRan
    obtain ⟨before, copyResult, after, copyRan, kept⟩ := evalCopy_of_mem copiesRan member
    simp only [evalCopy, live, Bool.false_eq_true, if_false] at copyRan
    obtain ⟨⟨stack, stackCache⟩, evaluated, same⟩ := bind_eq_ok_iff.mp copyRan
    refine ⟨before, stack, stackCache, evaluated, fun entry top row inEntry => ?_⟩
    cases stack with
    | nil => cases top
    | cons head rest =>
      cases top
      cases same
      have inResults : entry.table ∈ results := kept _ rfl
      simp only [if_neg (ne_nil_of_mem inResults)] at merged
      cases whole : mergeK results with
      | none =>
        rw [whole] at merged
        cases merged
      | some table =>
        rw [whole] at merged
        cases merged
        exact ⟨_, rfl, mem_of_mergeK whole inResults inEntry⟩

end Evaluation

section Runs

variable {setting : Setting} {stratum : Stratum} {sess : Session} {effIter : Nat}
  {state : LoopState}

theorem Reached.eq_start (reached : Reached setting stratum sess 0 state) :
    state = startState stratum sess := by
  generalize zero : 0 = effIter at reached
  cases reached with
  | start => rfl
  | step _ ran =>
    have := lt_of_loopStep ran
    omega

theorem Reached.after_first (reached : Reached setting stratum sess effIter state)
    (later : 0 < effIter) :
    ∃ next after, loopStep setting stratum 0 (startState stratum sess) = .ok (some next, after) ∧
      PassFrame stratum after.sess state.sess := by
  induction reached with
  | start => exact absurd later (Nat.lt_irrefl 0)
  | @step effIter next before after earlier ran ih =>
    rcases Nat.eq_zero_or_pos effIter with rfl | positive
    · obtain rfl := earlier.eq_start
      exact ⟨next, after, ran, PassFrame.refl _⟩
    · obtain ⟨next', after', first, frame⟩ := ih positive
      exact ⟨next', after', first, frame.trans (loopStep_frame ran)⟩

/-- The first pass evaluates every plan. -/
theorem evalRules_of_first {next : Nat} {state after : LoopState}
    (ran : loopStep setting stratum 0 state = .ok (some next, after)) :
    ∃ done, evalRules setting 0 stratum.relations (openPass stratum 0 state) = .ok done ∧
      after = closePass stratum (openPass stratum 0 state) done := by
  have due : setting.frontier.skips setting.outerEpoch 0 = false := by simp [Frontier.skips]
  have inLimit : ¬ passLimit ≤ 0 := by simp [passLimit]
  simp only [loopStep, due, if_neg inLimit, Bool.false_eq_true, if_false] at ran
  obtain ⟨⟨passed, outcome⟩, pass, follows⟩ := map_eq_ok_iff.mp ran
  simp only [subPass, Nat.lt_irrefl, false_and, if_false] at pass
  obtain ⟨done, evaluated, closed⟩ := map_eq_ok_iff.mp pass
  refine ⟨done, evaluated, ?_⟩
  obtain ⟨rfl, -⟩ := Prod.mk.inj closed
  cases outcome <;> cases follows <;> rfl

/-- What the first pass derived from a plan is in the relation of the plan ever after. -/
theorem Reached.seeded (reached : Reached setting stratum sess effIter state)
    (later : 0 < effIter) {before rest : List StratumRel} {rel : StratumRel}
    (place : stratum.relations = before ++ rel :: rest) (belongs : plan ∈ rel.plan.alternatives)
    (runs : runsFirst sess plan) :
    ∃ first cache stack cache', AgreesOutside stratum state.sess first ∧
      evalUnskipped setting.machine first setting.policy plan cache = .ok (stack, cache') ∧
        ∀ entry ∈ stack.head?, ∀ row ∈ entry.table.rows,
          ∃ whole ∈ state.sess.rels rel.name, row ∈ whole.rows := by
  obtain ⟨next, after, firstStep, frame⟩ := reached.after_first later
  obtain ⟨done, evaluated, rfl⟩ := evalRules_of_first firstStep
  have opened : PassFrame stratum (startState stratum sess).sess
      (openPass stratum 0 (startState stratum sess)) := openPass_frame 0 _
  have isRel : rel ∈ stratum.relations := by simp [place]
  have part : ∀ other ∈ before, other ∈ stratum.relations := by
    intro other member
    simp [place, member]
  -- the turn of the plan in the first pass
  rw [place] at evaluated
  obtain ⟨first, firstRan, fromHere⟩ := evalRules_split evaluated
  obtain ⟨mid, here, fromMid⟩ := bind_eq_ok_iff.mp fromHere
  have firstFrame : PassFrame stratum (startState stratum sess).sess first :=
    opened.trans (evalRules_frame part firstRan)
  have atZero : first.currentIteration = 0 := by rw [evalRules_sameFlags firstRan]; rfl
  have sameRuns : runsFirst first plan := by
    have flags := firstFrame.flags
    simp only [runsFirst] at runs ⊢
    rw [flags]
    exact runs
  have live := hasEmptyForcedDelta_first sameRuns atZero
  have due : (setting.ruleFrontier (0 + before.length)).skips setting.outerEpoch
      first.currentIteration = false := by simp [Frontier.skips, atZero]
  have planLive : planEmpty first rel.plan = false := by
    cases shape : rel.plan with
    | ops operators =>
      rw [shape] at belongs
      obtain rfl : plan = operators := mem_singleton.mp belongs
      exact live
    | kFusion copies => rfl
  obtain ⟨result, resultRan, stored⟩ := mem_after_evalRule here due planLive
  obtain ⟨cache, stack, cache', planRan, inResult⟩ :=
    evalRelation_alternative resultRan belongs live
  rw [colEvalRelationPlan, baseSkip_first atZero] at planRan
  refine ⟨first, cache, stack, cache', ?_, planRan, ?_⟩
  · intro name other
    rw [firstFrame.outside name other, reached.frame.outside name other]
  · intro entry top row member
    obtain ⟨table, isResult, inTable⟩ := inResult entry top row member
    obtain ⟨stored, found, inStored⟩ := stored table isResult row inTable
    have grows : Grows (mid.rels rel.name) (state.sess.rels rel.name) :=
      (evalRules_grows fromMid rel.name).trans
        (((closePass_frame _ done).grows rel isRel).trans (frame.grows rel isRel))
    obtain ⟨whole, isWhole, kept⟩ := grows stored found
    exact ⟨whole, isWhole, kept row inStored⟩

/-- **The base-case skip loses no row when the rows of skipped scans meet only relations that
the stratum does not change.** In every pass after the first, whatever a plan derives with the
skip it derives without it, and whatever it derives without the skip is derived with it, or is in
the relation of the plan already. -/
theorem baseSkip_complete (reached : Reached setting stratum sess effIter state)
    (later : 0 < effIter) {before rest : List StratumRel} {rel : StratumRel} {plan : List StepOp}
    (place : stratum.relations = before ++ rel :: rest) (belongs : plan ∈ rel.plan.alternatives)
    {mid : Session} (turn : evalRules setting 0 before (openPass stratum effIter state) = .ok mid)
    (runs : skipsScan (baseSkip mid plan) plan → runsFirst sess plan)
    (safe : SkipSafe stratum mid plan) {cache cache' : MatCache} {plains : List Entry}
    (ran : evalUnskipped setting.machine mid setting.policy plan cache = .ok (plains, cache')) :
    ∃ skippings, colEvalRelationPlan setting.machine mid setting.policy plan cache =
        .ok (skippings, cache') ∧
      ∀ plain ∈ plains.head?, ∃ skipping ∈ skippings.head?,
        (∀ row ∈ skipping.table.rows, row ∈ plain.table.rows) ∧
          ∀ row ∈ plain.table.rows,
            row ∈ skipping.table.rows ∨ ∃ whole ∈ mid.rels rel.name, row ∈ whole.rows := by
  by_cases skips : skipsScan (baseSkip mid plan) plan
  case neg =>
    refine ⟨plains, (evalSteps_of_not_skipsScan (by simpa using skips) [] cache).trans ran, ?_⟩
    exact fun plain top => ⟨plain, top, fun _ => id, fun _ => .inl⟩
  obtain ⟨first, firstCache, firsts, firstCache', agrees, firstRan, seeded⟩ :=
    reached.seeded later place belongs (runs skips)
  have part : ∀ other ∈ before, other ∈ stratum.relations := by
    intro other member
    simp [place, member]
  have frame : PassFrame stratum state.sess mid :=
    (openPass_frame effIter state).trans (evalRules_frame part turn)
  have agreesNow : AgreesOutside stratum mid first := by
    intro name other
    rw [agrees name other, frame.outside name other]
  obtain ⟨origins, follows⟩ := Option.isSome_iff_exists.mp safe
  obtain ⟨skippings, skippingRan, aligned⟩ := evalSteps_aligned agreesNow .nil follows ran firstRan
  refine ⟨skippings, skippingRan, ?_⟩
  intro plain top
  cases aligned with
  | nil => cases top
  | cons here _ =>
    cases top
    refine ⟨_, rfl, here.within.rows, fun row member =>
      (here.rows row member).imp_right fun inFirst => ?_⟩
    obtain ⟨whole, found, inWhole⟩ := seeded _ rfl row inFirst
    obtain ⟨now, isNow, kept⟩ := frame.grows rel (by simp [place]) whole found
    exact ⟨now, isNow, kept row inWhole⟩

end Runs

/-! ## Two strata -/

/-- A setting in which the cache gives nothing up and no pass was done before. -/
def plainSetting : Setting where
  machine := plainMachine
  policy := ⟨fun cache entry => entry :: cache, fun _ _ _ member => mem_cons.mp member⟩
  isolated := false
  outerEpoch := 0
  frontier := ⟨0, 4294967295⟩
  ruleFrontier := fun _ => ⟨0, 4294967295⟩

/-- `p(x, y) :- b(x, y).` and `p(x, z) :- p(x, y), e(y, z).` -/
def closurePlan : List StepOp :=
  [{ op := .variable (some "b") }, { op := .map [0, 1] none },
    { op := .variable (some "p") },
    { op := .join (some "e") [1] [0] none, projection := [0, 3] },
    { op := .concat }, { op := .consolidate }]

def closureStratum : Stratum := ⟨[⟨"p", .ops closurePlan⟩], by decide, by decide⟩

def closureSession : Session where
  rels := fun rel =>
    if rel = "b" then some (.untyped 2 [⟨[1, 2]⟩] (by simp))
    else if rel = "e" then some (.untyped 2 [⟨[2, 3]⟩] (by simp))
    else none

/-- The second pass of the transitive closure skips the scan of `b`, and loses nothing. -/
theorem closure_skip_complete :
    ∃ state plains cache', Reached plainSetting closureStratum closureSession 1 state ∧
      SkipSafe closureStratum (openPass closureStratum 1 state) closurePlan ∧
      evalUnskipped plainMachine (openPass closureStratum 1 state) plainSetting.policy closurePlan
        [] = .ok (plains, cache') ∧
      ∃ skippings, colEvalRelationPlan plainMachine (openPass closureStratum 1 state)
          plainSetting.policy closurePlan [] = .ok (skippings, cache') ∧
        ∀ plain ∈ plains.head?, ∃ skipping ∈ skippings.head?,
          (∀ row ∈ skipping.table.rows, row ∈ plain.table.rows) ∧
            ∀ row ∈ plain.table.rows, row ∈ skipping.table.rows ∨
              ∃ whole ∈ (openPass closureStratum 1 state).rels "p", row ∈ whole.rows := by
  have place : closureStratum.relations = [] ++ ⟨"p", .ops closurePlan⟩ :: [] := rfl
  obtain ⟨state, reached, safe, plains, cache', ran⟩ :
      ∃ state, Reached plainSetting closureStratum closureSession 1 state ∧
        SkipSafe closureStratum (openPass closureStratum 1 state) closurePlan ∧
        ∃ plains cache', evalUnskipped plainMachine (openPass closureStratum 1 state)
          plainSetting.policy closurePlan [] = .ok (plains, cache') :=
    ⟨_, .step .start rfl, by rfl, _, _, rfl⟩
  exact ⟨state, plains, cache', reached, safe, ran,
    baseSkip_complete reached Nat.one_pos place mem_cons_self rfl (fun _ => rfl) safe ran⟩

/-- `p(x) :- b(x).` and `p(y) :- f(x, y, 7), p(x).` -/
def filteredPlan : List StepOp :=
  [{ op := .variable (some "b") }, { op := .map [0] none },
    { op := .variable (some "f") },
    { op := .filter (some (.call (.cmp .eq) [.var .plain 2, .constInt 7])) },
    { op := .join (some "p") [0] [0] none, projection := [1] },
    { op := .concat }, { op := .consolidate }]

def filteredStratum : Stratum := ⟨[⟨"p", .ops filteredPlan⟩], by decide, by decide⟩

theorem oneCell_width : ∀ row ∈ ([⟨[1]⟩] : List Row), row.cells.length = 1 := by simp

def filteredSession : Session where
  rels := fun rel =>
    if rel = "b" then some (.untyped 1 [⟨[1]⟩] oneCell_width)
    else if rel = "f" then some (.untyped 3 [⟨[1, 2, 7]⟩] (by simp))
    else none

/-- The rows of the table that a plan leaves on the stack. -/
def topRows (ran : Except EvalError (List Entry × MatCache)) : Option (List Row) :=
  ran.toOption.bind fun done => done.1.head?.map (·.table.rows)

/-- With a filter after the scan of `f`, the join with `p` sees no row of it after the first
pass: the second pass derives nothing in place of 2, and the evaluation ends without it. -/
theorem filteredStep_skips_join :
    ∃ state, Reached plainSetting filteredStratum filteredSession 1 state ∧
      topRows (evalUnskipped plainMachine (openPass filteredStratum 1 state) plainSetting.policy
        filteredPlan []) = some [⟨[1]⟩, ⟨[2]⟩] ∧
      topRows (colEvalRelationPlan plainMachine (openPass filteredStratum 1 state)
        plainSetting.policy filteredPlan []) = some [] ∧
      ((openPass filteredStratum 1 state).rels "p").map (·.rows) = some [⟨[1]⟩] ∧
      (colEvalStratum plainSetting filteredStratum filteredSession).toOption.map
        (fun (db : Database) => (db "p").map Table.rows) = some (some [⟨[1]⟩]) :=
  ⟨_, .step .start rfl, rfl, rfl, rfl, rfl⟩

end Wirelog.SemiNaive

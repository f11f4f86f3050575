import Wirelog.Columnar.DeltaRuns
import Wirelog.Columnar.AggregateRows

/-!
# The order of the rows of a relation over its life

A relation starts empty. Over its life in a session rows are appended to it, it is sorted,
consolidated and reduced, rows are taken away, put aside and restored, and copies of it are made
whose records are copied with the rows (`col_rel_deep_copy` and the shared views of the workers).
`Reached` says which states this leads to.

Most of these operations keep the records truthful. Some do only in certain states
(`Operation.Harmless`): removals shorten the rows and leave the records as they are, and several
functions call rows sorted that need not be. **In every run whose operations are harmless the
records are truthful in every state** (`Reached.records_truthful`). Two iterations of a recursive
stratum suffice to reach a state in which they are not (`interleaved_runs_recorded_as_sorted`).
-/

set_option autoImplicit false

namespace Wirelog.Columnar

/-- A relation: its rows, the rows put aside for a retraction (`retract_backup_columns`), and the
copy of the rows that a delta step makes before it evaluates a stratum. -/
structure TrackedRel (types : List ColumnType) where
  stored : OrderedRows types
  backup : Option (OrderedRows types)
  snapshot : Option (List (TypedRow types))
  deriving DecidableEq

/-- What happens to a relation. -/
inductive Operation (types : List ColumnType) where
  | append (rows : List (TypedRow types))
  | sort (outOfMemory : Bool)
  | consolidate (faults : ConsolidateFaults) (bounds : Option (Nat × List Nat))
  | idbConsolidate (faults : ConsolidateFaults)
  | incrementalDelta (faults : IncrementalFaults) (old : Nat)
  | compactRuns (outOfMemory : Bool)
  | canonicalize (spec : AggSpec) (intern : Cell → Option (List UInt8)) (outOfMemory : Bool)
  | remove (batch : Batch)
  | truncate (nrows : Nat)
  | reset
  | compact
  | takeSnapshot (outOfMemory : Bool)
  | restoreSnapshot
  | saveBackup
  | restoreBackup
  | subpassDedup (hash : Row → UInt64) (faults : SubpassFaults) (seen : List UInt64) (snap : Nat)
  | tddDedup (faults : DedupFaults)
  | bdxDiff (hash : Row → UInt64) (base : List (TypedRow types))
  | hashsetDiff (hash : Row → UInt64) (seen : List UInt64)

variable {types : List ColumnType}

/-- A relation that has just been created. -/
def TrackedRel.new (types : List ColumnType) : TrackedRel types := ⟨.empty types, none, none⟩

/-- The relation after an operation. When the consolidation of an owned relation fails the
relation is destroyed. -/
def Operation.apply : Operation types → TrackedRel types → Option (TrackedRel types)
  | .append rows, rel => some { rel with stored := rel.stored.append rows }
  | .sort outOfMemory, rel => some { rel with stored := radixSortInt64 outOfMemory rel.stored }
  | .consolidate faults bounds, rel =>
    match opConsolidate faults bounds rel.stored with
    | .error _ => none
    | .ok stored => some { rel with stored := stored }
  | .idbConsolidate faults, rel =>
    some { rel with stored := Columnar.idbConsolidate faults rel.stored }
  | .incrementalDelta faults old, rel =>
    some { rel with stored := (Columnar.incrementalDelta faults old rel.stored).2.1 }
  | .compactRuns outOfMemory, rel =>
    some { rel with stored := (Columnar.compactRuns outOfMemory rel.stored).getD rel.stored }
  | .canonicalize spec intern outOfMemory, rel =>
    some { rel with stored := (canonicalizeAggregates spec intern outOfMemory rel.stored).2 }
  | .remove batch, rel => some { rel with stored := rel.stored.remove batch }
  | .truncate nrows, rel => some { rel with stored := rel.stored.truncate nrows }
  | .reset, rel => some { rel with stored := .empty types }
  | .compact, rel => some { rel with stored := rel.stored.compact }
  | .takeSnapshot outOfMemory, rel =>
    some { rel with
      stored := rel.stored.detach
      snapshot := if rel.stored.rows = [] ∨ outOfMemory then none else some rel.stored.rows }
  | .restoreSnapshot, rel =>
    match rel.snapshot with
    | none => some rel
    | some rows => some { rel with stored := .oneRun rows, snapshot := none }
  | .saveBackup, rel => some { rel with stored := .empty types, backup := some rel.stored }
  | .restoreBackup, rel =>
    match rel.backup with
    | none => some rel
    | some stored => some { rel with stored := stored, backup := none }
  | .subpassDedup hash faults seen snap, rel =>
    some { rel with stored := Columnar.subpassDedup hash faults seen snap rel.stored }
  | .tddDedup faults, rel => some { rel with stored := tddDedupRel faults rel.stored }
  | .bdxDiff hash base, rel => some { rel with stored := bdxHashDiff hash base rel.stored }
  | .hashsetDiff hash seen, rel => some { rel with stored := tddHashsetDiff hash seen rel.stored }

/-- The states that relations with the given columns come to, when every operation meets the
condition. A copy takes over the rows and the records; its own backup is empty, or copied too. -/
inductive Reached (condition : Operation types → TrackedRel types → Prop) :
    TrackedRel types → Prop
  | new : Reached condition (.new types)
  | step {rel rel' : TrackedRel types} (operation : Operation types)
      (before : Reached condition rel) (allowed : condition operation rel)
      (done : operation.apply rel = some rel') : Reached condition rel'
  | view {rel : TrackedRel types} (before : Reached condition rel) :
      Reached condition ⟨rel.stored, none, none⟩
  | deepCopy {rel : TrackedRel types} (before : Reached condition rel) :
      Reached condition ⟨rel.stored, rel.backup, none⟩

/-- The states in which an operation keeps the records truthful. -/
def Operation.Harmless : Operation types → TrackedRel types → Prop
  | .sort _, rel => rel.stored.rows.Nodup
  | .consolidate faults _, _ =>
    faults.sort = false ∧ faults.merge.hash.sort = false ∧ ∀ s, faults.merge.sort s = false
  | .incrementalDelta faults old, rel =>
    rel.stored.rows.length ≤ old ∨ DeltaInOrder faults old rel.stored
  | .compactRuns _, rel => LeadOrdered rel.stored.rows
  | .canonicalize spec _ _, rel => Canonicalizable spec rel.stored
  | .remove batch, rel =>
    ∀ row ∈ rel.stored.rows.take rel.stored.covered, row.1 ∉ batch.rows
  | .truncate nrows, rel => rel.stored.covered ≤ nrows
  | .takeSnapshot _, rel => ∀ e ∈ rel.stored.runEnds, e = 0
  | .restoreSnapshot, rel => ∀ rows ∈ rel.snapshot, rows.Pairwise (· < ·)
  | .subpassDedup _ _ _ snap, rel =>
    rel.stored.rows.Pairwise (· < ·) ∧ (∀ e ∈ rel.stored.runEnds, e ≤ snap) ∧
      snap ≤ rel.stored.rows.length
  | .tddDedup faults, rel => Dedupable faults rel.stored
  | .bdxDiff _ base, rel => ∀ row ∈ rel.stored.rows.take rel.stored.covered, row ∉ base
  | .hashsetDiff hash seen, rel =>
    ∀ row ∈ rel.stored.rows.take rel.stored.covered, hash row.1 ∉ seen
  | .append _, _ | .idbConsolidate _, _ | .reset, _ | .compact, _ | .saveBackup, _
  | .restoreBackup, _ => True

/-- The records of the rows, and of the rows put aside, are truthful. -/
structure TrackedRel.Truthful (rel : TrackedRel types) : Prop where
  stored : rel.stored.Truthful
  backup : ∀ saved ∈ rel.backup, saved.Truthful

theorem TrackedRel.Truthful.step {rel rel' : TrackedRel types} (truthful : rel.Truthful)
    {operation : Operation types} (harmless : operation.Harmless rel)
    (done : operation.apply rel = some rel') : rel'.Truthful := by
  obtain ⟨stored, backup⟩ := truthful
  cases operation with
  | append rows => exact Option.some.inj done ▸ ⟨stored.append, backup⟩
  | sort outOfMemory =>
    exact Option.some.inj done ▸ ⟨stored.radixSortInt64 harmless outOfMemory, backup⟩
  | consolidate faults bounds =>
    obtain ⟨sortMemory, hashMemory, segmentMemory⟩ := harmless
    simp only [Operation.apply] at done
    split at done
    · cases done
    rename_i consolidated ok
    exact Option.some.inj done ▸
      ⟨stored.opConsolidate sortMemory hashMemory segmentMemory ok, backup⟩
  | idbConsolidate faults => exact Option.some.inj done ▸ ⟨stored.idbConsolidate faults, backup⟩
  | incrementalDelta faults old =>
    exact Option.some.inj done ▸ ⟨incrementalDelta_truthful stored harmless, backup⟩
  | compactRuns outOfMemory =>
    refine Option.some.inj done ▸ ⟨?_, backup⟩
    cases compacted : Columnar.compactRuns outOfMemory rel.stored with
    | none => exact stored
    | some merged => exact stored.compactRuns harmless compacted
  | canonicalize spec intern outOfMemory =>
    exact Option.some.inj done ▸ ⟨canonicalizeAggregates_truthful intern stored harmless, backup⟩
  | remove batch => exact Option.some.inj done ▸ ⟨stored.remove harmless, backup⟩
  | truncate nrows => exact Option.some.inj done ▸ ⟨stored.truncate harmless, backup⟩
  | reset => exact Option.some.inj done ▸ ⟨.empty, backup⟩
  | compact => exact Option.some.inj done ▸ ⟨stored.compact, backup⟩
  | takeSnapshot outOfMemory => exact Option.some.inj done ▸ ⟨stored.detach harmless, backup⟩
  | restoreSnapshot =>
    simp only [Operation.apply] at done
    split at done
    · exact Option.some.inj done ▸ ⟨stored, backup⟩
    rename_i rows kept
    exact Option.some.inj done ▸ ⟨.oneRun (harmless rows kept), backup⟩
  | saveBackup =>
    refine Option.some.inj done ▸ ⟨.empty, ?_⟩
    intro saved same
    exact Option.some.inj same ▸ stored
  | restoreBackup =>
    simp only [Operation.apply] at done
    split at done
    · exact Option.some.inj done ▸ ⟨stored, backup⟩
    rename_i saved kept
    exact Option.some.inj done ▸ ⟨backup saved kept, nofun⟩
  | subpassDedup hash faults seen snap =>
    obtain ⟨sorted, before, inside⟩ := harmless
    exact Option.some.inj done ▸ ⟨stored.subpassDedup sorted before inside, backup⟩
  | tddDedup faults => exact Option.some.inj done ▸ ⟨stored.tddDedupRel harmless, backup⟩
  | bdxDiff hash base => exact Option.some.inj done ▸ ⟨stored.bdxHashDiff harmless, backup⟩
  | hashsetDiff hash seen =>
    exact Option.some.inj done ▸ ⟨stored.tddHashsetDiff harmless, backup⟩

def integerRow (n : Nat) : TypedRow [.int64] :=
  ⟨⟨[BitVec.ofNat 64 n]⟩, rfl, by
    intro i float cell found
    match i, float with
    | 0, float => cases float
    | i + 1, float => cases float⟩

/-- **The records of a relation are truthful in every state that harmless operations lead to.** -/
theorem Reached.records_truthful {rel : TrackedRel types}
    (reached : Reached Operation.Harmless rel) : rel.Truthful := by
  induction reached with
  | new => exact ⟨.empty, nofun⟩
  | step operation _ harmless done truthful => exact truthful.step harmless done
  | view _ truthful => exact ⟨truthful.stored, nofun⟩
  | deepCopy _ truthful => exact ⟨truthful.stored, truthful.backup⟩

/-- Rows are appended and sorted, and one more row comes. -/
theorem Reached.records_truthful_sorted_then_appended :
    TrackedRel.Truthful ⟨⟨[integerRow 1, integerRow 3, integerRow 2], 2, []⟩, none, none⟩ := by
  have appended : Reached Operation.Harmless
      (⟨⟨[integerRow 3, integerRow 1], 0, []⟩, none, none⟩ : TrackedRel [.int64]) :=
    .step (.append [integerRow 3, integerRow 1]) .new trivial rfl
  have distinct : [integerRow 3, integerRow 1].Nodup := by decide
  have sorted : Reached Operation.Harmless
      (⟨⟨[integerRow 1, integerRow 3], 2, []⟩, none, none⟩ : TrackedRel [.int64]) :=
    .step (.sort false) appended distinct (by decide +kernel)
  exact Reached.records_truthful (.step (.append [integerRow 2]) sorted trivial rfl)

/-! ## Two iterations -/

/-- The rows of a first iteration: the even numbers below 32. -/
def evenRows : List (TypedRow [.int64]) := (List.range 16).map fun n => integerRow (2 * n)

/-- **A second iteration adds the row 1 behind the even numbers as a run of its own, and all rows
are called sorted.** -/
theorem interleaved_runs_recorded_as_sorted :
    ∃ rel : TrackedRel [.int64], Reached (fun _ _ => True) rel ∧
      rel.stored = ⟨evenRows ++ [integerRow 1], 17, [16, 17]⟩ ∧ ¬ rel.stored.Truthful := by
  have first : Reached (fun _ _ => True)
      (⟨⟨evenRows, 16, [16]⟩, none, none⟩ : TrackedRel [.int64]) :=
    .step (.incrementalDelta ⟨false, none, false, false⟩ 0)
      (.step (.append evenRows) .new trivial rfl) trivial (by decide +kernel)
  have appended : Reached (fun _ _ => True)
      (⟨⟨evenRows ++ [integerRow 1], 16, [16]⟩, none, none⟩ : TrackedRel [.int64]) :=
    .step (.append [integerRow 1]) first trivial rfl
  refine ⟨⟨⟨evenRows ++ [integerRow 1], 17, [16, 17]⟩, none, none⟩, ?_, rfl, ?_⟩
  · exact .step (.incrementalDelta ⟨false, none, false, false⟩ 16) appended trivial
      (by decide +kernel)
  · intro truthful
    exact absurd truthful.sorted (by decide +kernel)

end Wirelog.Columnar

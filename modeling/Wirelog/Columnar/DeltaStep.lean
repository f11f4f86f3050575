import Wirelog.Columnar.RowSort
import Wirelog.Columnar.Session

/-!
# Stepping a stratum with a delta callback

`col_stratum_step_with_delta` copies the rows of each derived relation of the stratum
aside and frees its columns, evaluates the stratum, consolidates each relation, and
compares old and new rows by binary search: a new row that is not found among the old
ones becomes a `+1` event, an old row that is not found among the new ones a `-1` event.
When anything fails, the buffered events are dropped and the copies are put back.

The evaluation of the stratum is a parameter (`StratumEval`): what is proved holds for
every contents it leaves behind, whether it succeeds or fails. Every allocation of the
step may fail (`DeltaFaults`). Whether the events of a step are right depends on the old and
the new rows and their byte order alone (`StratumComparable`), and whether a failed step is
undone on what the evaluation has left in each relation (`RowsSurvive`).
-/

set_option autoImplicit false

namespace Wirelog.Columnar

open List

/-! ## Consolidation -/

variable (types : List ColumnType)

def uniqueAfter : Row → List Row → List Row
  | _, [] => []
  | before, row :: rest =>
    if rowCmp types before row ≠ 0 then row :: uniqueAfter row rest
    else uniqueAfter row rest

/-- Keep the first of adjacent rows that compare equal. -/
def uniqueRows : List Row → List Row
  | [] => []
  | row :: rest => row :: uniqueAfter types row rest

variable (fails : Bool) (rows : List Row)

/-- `col_rel_radix_sort_int64`: a stable sort by the typed row order. When its buffers cannot be
allocated the rows stay as they are. -/
def sortRows : List Row :=
  if fails then rows else rows.insertionSort fun a b => rowCmp types a b ≤ 0

theorem uniqueAfter_subset (before : Row) (rows : List Row) :
    uniqueAfter types before rows ⊆ rows := by
  induction rows generalizing before with
  | nil => exact List.Subset.refl []
  | cons row rest ih =>
    unfold uniqueAfter
    split
    · exact cons_subset_cons row (ih row)
    · exact subset_cons_of_subset row (ih row)

theorem uniqueRows_subset : uniqueRows types rows ⊆ rows := by
  cases rows with
  | nil => exact List.Subset.refl []
  | cons row rest => exact cons_subset_cons row (uniqueAfter_subset types row rest)

theorem sortRows_subset : sortRows types fails rows ⊆ rows := by
  unfold sortRows
  split
  · exact List.Subset.refl rows
  · exact (perm_insertionSort _ rows).subset

section Unique

variable {types rows}

theorem uniqueAfter_eq_destutter {before : Row}
    (faithful : ∀ a ∈ before :: rows, ∀ b ∈ before :: rows, rowCmp types a b ≠ 0 ↔ a ≠ b) :
    before :: uniqueAfter types before rows = rows.destutter' (· ≠ ·) before := by
  induction rows generalizing before with
  | nil => rfl
  | cons row rest ih =>
    have tail := ih fun a memA b memB =>
      faithful a (mem_cons_of_mem before memA) b (mem_cons_of_mem before memB)
    have here := faithful before mem_cons_self row (mem_cons_of_mem before mem_cons_self)
    simp only [uniqueAfter, here, destutter'_cons]
    split_ifs with apart
    · rw [tail]
    · rw [← not_not.mp apart] at tail
      rw [← not_not.mp apart, tail]

/-- Where the order tells all rows apart, one of adjacent equal rows is kept. -/
theorem uniqueRows_eq_destutter
    (faithful : ∀ a ∈ rows, ∀ b ∈ rows, rowCmp types a b ≠ 0 ↔ a ≠ b) :
    uniqueRows types rows = rows.destutter (· ≠ ·) := by
  cases rows with
  | nil => rfl
  | cons row rest => exact uniqueAfter_eq_destutter faithful

/-- Rows told apart by the ranks of their cells: of the sorted rows one of equal ones is kept. -/
theorem uniqueRows_sorted
    (order : ∀ a ∈ rows, ∀ b ∈ rows,
      (rowCmp types a b ≤ 0 ↔ cellsRank types a.cells ≤ cellsRank types b.cells) ∧
        (rowCmp types a b ≠ 0 ↔ a ≠ b))
    (injective :
      ∀ a ∈ rows, ∀ b ∈ rows, cellsRank types a.cells = cellsRank types b.cells ↔ a = b) :
    (uniqueRows types (sortRows types false rows)).Nodup ∧
      ∀ row, row ∈ uniqueRows types (sortRows types false rows) ↔ row ∈ rows := by
  have perm : (sortRows types false rows).Perm rows := perm_insertionSort _ rows
  have within := perm.subset
  have sorted : (sortRows types false rows).map (cellsRank types ·.cells) =
      (rows.map (cellsRank types ·.cells)).insertionSort (· ≤ ·) :=
    map_insertionSort _ _ _ _ fun a memA b memB => (order a memA b memB).1
  have unique : ((sortRows types false rows).destutter (· ≠ ·)).map (cellsRank types ·.cells) =
      ((sortRows types false rows).map (cellsRank types ·.cells)).destutter (· ≠ ·) :=
    map_destutter fun a memA b memB => (injective a (within memA) b (within memB)).not.symm
  have ranks : (uniqueRows types (sortRows types false rows)).map (cellsRank types ·.cells) =
      Foundations.uniqueAdjacent
        ((rows.map (cellsRank types ·.cells)).insertionSort (· ≤ ·)) := by
    rw [uniqueRows_eq_destutter fun a memA b memB => (order a (within memA) b (within memB)).2,
      unique, sorted, Foundations.uniqueAdjacent_eq_destutter]
    congr
  have increasing := Foundations.uniqueAdjacent_lt
    (pairwise_insertionSort (· ≤ ·) (rows.map (cellsRank types ·.cells)))
  rw [← ranks] at increasing
  refine ⟨Nodup.of_map _ (increasing.imp ne_of_lt), fun row => ⟨fun kept =>
    within (uniqueRows_subset _ _ kept), fun member => ?_⟩⟩
  have rank : cellsRank types row.cells ∈
      (uniqueRows types (sortRows types false rows)).map (cellsRank types ·.cells) := by
    rw [ranks, Foundations.mem_uniqueAdjacent, mem_insertionSort]
    exact mem_map_of_mem member
  obtain ⟨other, kept, same⟩ := mem_map.mp rank
  have stored := within (uniqueRows_subset _ _ kept)
  rwa [← (injective other stored row member).mp same]

theorem uniqueRows_of_short (short : rows.length ≤ 1) :
    uniqueRows types (sortRows types fails rows) = rows := by
  match rows, short with
  | [], _ => cases fails <;> rfl
  | [_], _ => cases fails <;> rfl

end Unique

/-! ## The failures and the evaluation -/

/-- Which allocations of a step fail, by relation. -/
structure DeltaFaults where
  /-- The snapshot arrays. -/
  arrays : Bool
  /-- The copy of the old rows. -/
  flat : String → Bool
  /-- The working copy of a consolidation. -/
  consolidateCopy : String → Bool
  /-- The buffers of its sort. -/
  sort : String → Bool
  /-- The copy of the new rows. -/
  curFlat : String → Bool
  /-- The append of the n-th event of a relation. -/
  append : String → Nat → Bool
  /-- The columns of a relation that is put back. -/
  restore : String → Bool

/-- The derived relations of a stratum, each listed once. None bears the name of a `$d$` relation,
which the evaluation creates and removes as it goes. -/
structure StratumRelations where
  names : List String
  nodup : names.Nodup
  declared : ∀ name ∈ names, ∀ rel, name ≠ "$d$" ++ rel

/-- `col_eval_stratum` as seen by the step: it returns a code and may leave any rows, any types and
any other relations behind. It keeps the derived relations of the stratum registered, with the
width they have, and does not touch the delta events. -/
structure StratumEval (stratum : StratumRelations) where
  run : Session → Rc × Session
  keeps : ∀ s, ∀ name ∈ stratum.names, ∀ r, s.findRel name = some r →
    ∃ r', (run s).2.findRel name = some r' ∧ (r.ncols ≠ 0 → r'.ncols = r.ncols)
  keepsEvents : ∀ s, (run s).2.deltaEvents = s.deltaEvents
  keepsDelivered : ∀ s, (run s).2.delivered = s.delivered
  keepsCb : ∀ s, (run s).2.deltaCb = s.deltaCb

/-! ## The step -/

/-- The old rows of a relation, copied aside with their schema. -/
structure Snapshot where
  ncols : Nat
  columnTypes : List ColumnType
  rows : List Row
  width : ∀ row ∈ rows, row.cells.length = ncols
  canonical : ∀ row ∈ rows, FloatCanonical columnTypes row

variable (r : ColRel)

/-- `prev_data` of a relation: null without a schema or rows, and when the copy fails. -/
def ColRel.snapshot : Option Snapshot :=
  if r.ncols = 0 ∨ r.rows = [] ∨ fails then none
  else some ⟨r.ncols, r.columnTypes, r.rows, r.width, r.canonical⟩

/-- Free and detach the columns of a relation that has rows, copied or not. -/
def ColRel.detach : ColRel :=
  if r.ncols = 0 ∨ r.rows = [] then r
  else { r with
    rows := []
    allocated := false
    width := by simp
    stored := by simp
    canonical := by simp }

@[simp] theorem ColRel.detach_name : r.detach.name = r.name := by
  unfold detach
  split <;> rfl

/-- `col_idb_consolidate`: sort and keep one of equal rows. A failure inside is not reported: the
relation is then left as it is, or unsorted. -/
def ColRel.consolidate (faults : DeltaFaults) (r : ColRel) : ColRel :=
  if r.rows.length ≤ 1 ∨ faults.consolidateCopy r.name then r
  else
    r.restrict (uniqueRows r.columnTypes (sortRows r.columnTypes (faults.sort r.name) r.rows))
      fun _ member => sortRows_subset _ _ _ (uniqueRows_subset _ _ member)

variable (faults : DeltaFaults)

@[simp] theorem ColRel.consolidate_name (r : ColRel) : (r.consolidate faults).name = r.name := by
  unfold consolidate
  split <;> rfl

/-- Consolidating leaves a reordering of given rows: without the working copy, if the rows are one;
without the sort, if they are one up to adjacent equal rows; otherwise, if the given rows are
distinct and the same rows. -/
theorem ColRel.consolidate_perm_iff (r : ColRel) (old : List Row) :
    (r.consolidate faults).rows.Perm old ↔
      if faults.consolidateCopy r.name then r.rows.Perm old
      else if faults.sort r.name then (r.rows.destutter (· ≠ ·)).Perm old
      else old.Nodup ∧ ∀ row, row ∈ old ↔ row ∈ r.rows := by
  have ofRows : ∀ {a}, a ∈ r.rows → ∀ {b}, b ∈ r.rows → a.cells.length = b.cells.length :=
    fun memA _ memB => (r.width _ memA).trans (r.width _ memB).symm
  have order := fun a memA b memB =>
    @rowCmp_canonical r.columnTypes a b (ofRows memA memB) (r.canonical a memA) (r.canonical b memB)
  have injective := fun a memA b memB => (@cellsRank_inj r.columnTypes a.cells b.cells
    (r.canonical a memA) (r.canonical b memB)).trans Row.ext_iff.symm
  have rows : (r.consolidate faults).rows = if faults.consolidateCopy r.name then r.rows
      else uniqueRows r.columnTypes (sortRows r.columnTypes (faults.sort r.name) r.rows) := by
    unfold consolidate
    by_cases short : r.rows.length ≤ 1
    · simp [short, uniqueRows_of_short]
    · cases copy : faults.consolidateCopy r.name <;> simp [short, restrict]
  rw [rows]
  split_ifs with copy sort
  · rfl
  · have unsorted : sortRows r.columnTypes true r.rows = r.rows := rfl
    rw [sort, unsorted, uniqueRows_eq_destutter fun a memA b memB => (order a memA b memB).2]
  · obtain ⟨distinct, members⟩ := uniqueRows_sorted order injective
    rw [Bool.eq_false_of_not_eq_true sort]
    constructor
    · intro perm
      exact ⟨perm.nodup distinct, fun row => perm.mem_iff.symm.trans (members row)⟩
    · rintro ⟨once, same⟩
      exact (perm_ext_iff_of_nodup distinct once).mpr fun row => (members row).trans (same row).symm

/-- Put the old rows back in new columns. -/
def ColRel.restore (snap : Snapshot) : ColRel :=
  { r with
    ncols := snap.ncols
    columnTypes := snap.columnTypes
    rows := snap.rows
    allocated := true
    width := snap.width
    stored := fun _ _ => rfl
    canonical := snap.canonical }

/-- The rollback of one relation: only a relation whose columns are still null is put back. -/
def ColRel.rollback (faults : DeltaFaults) (snap : Option Snapshot) (r : ColRel) : ColRel :=
  match snap with
  | some snap => if !r.allocated && !faults.restore r.name then r.restore snap else r
  | none => r

@[simp] theorem ColRel.rollback_name (snap : Option Snapshot) (r : ColRel) :
    (r.rollback faults snap).name = r.name := by
  unfold rollback
  split
  · split <;> rfl
  · rfl

/-- The old rows the comparison works with: none when nothing was copied. -/
def snapshotRows (snap : Option Snapshot) : List Row := (snap.map Snapshot.rows).getD []

/-- The new rows the comparison works with: none for a relation without columns. -/
def ColRel.flatRows : List Row := if r.ncols = 0 then [] else r.rows

/-- The events of one relation: first the new rows that are not found among the old ones, then
the old rows that are not found among the new ones. -/
def relationEvents (name : String) (prev cur : List Row) : List DeltaEvent :=
  (cur.filter fun row => !colRowInSorted prev row).map (⟨name, ·, 1⟩) ++
    (prev.filter fun row => !colRowInSorted cur row).map (⟨name, ·, -1⟩)

/-- The comparison of one consolidated relation; `none` when an allocation fails. -/
def compareRelation (faults : DeltaFaults) (snap : Option Snapshot) (r : ColRel) :
    Option (List DeltaEvent) :=
  let events := relationEvents r.name (snapshotRows snap) r.flatRows
  if r.flatRows ≠ [] ∧ faults.curFlat r.name then none
  else if ∃ n < events.length, faults.append r.name n then none
  else some events

def Session.consolidateRel (s : Session) (faults : DeltaFaults) (name : String) : Session :=
  s.mapRel name (·.consolidate faults) (ColRel.consolidate_name faults)

variable {s' : Session} {names : List String} {r : ColRel}

@[simp] theorem Session.findRel_consolidateRel (s : Session) (faults : DeltaFaults)
    (at_ name : String) :
    (s.consolidateRel faults at_).findRel name =
      if name = at_ then (s.findRel name).map (·.consolidate faults) else s.findRel name := by
  rw [consolidateRel, Session.findRel_mapRel]
  split
  · rename_i same
    rw [same]
  · rfl

/-- Steps 3 and 4: consolidate and compare the relations one after the other, up to the first
failed allocation. -/
def compareLoop (faults : DeltaFaults) (snaps : String → Option Snapshot) :
    List String → Session → Rc × Session
  | [], s => (.ok, s)
  | name :: rest, s =>
    match s.findRel name with
    | none => compareLoop faults snaps rest s
    | some r =>
      match compareRelation faults (snaps name) (r.consolidate faults) with
      | none => (.enomem, s.consolidateRel faults name)
      | some events =>
        compareLoop faults snaps rest ((s.consolidateRel faults name).appendEvents events)

/-- The copies of the old rows, by relation. -/
def snapshots (faults : DeltaFaults) (s : Session) (name : String) : Option Snapshot :=
  (s.findRel name).bind (·.snapshot (faults.flat name))

/-- The session after step 1. -/
def detached (stratum : StratumRelations) (s : Session) : Session :=
  s.updateAll stratum.names ColRel.detach ColRel.detach_name

/-- The session after step 2, with the code of the evaluation. -/
def evaluated {stratum : StratumRelations} (eval : StratumEval stratum) (s : Session) :
    Rc × Session :=
  eval.run (detached stratum s)

/-- The end of a step that succeeds: its events are published, unless that is left to the end of the
transaction. -/
def Session.settleEvents (s : Session) : Session :=
  if s.deltaEventTransaction then s else s.publishEvents.clearEvents

/-- The end of a step that fails. -/
def Session.undoStep (s : Session) (faults : DeltaFaults) (snaps : String → Option Snapshot)
    (names : List String) : Session :=
  s.clearEvents.updateAll names (fun r => r.rollback faults (snaps r.name))
    fun _ => ColRel.rollback_name _ _ _

def colStratumStepWithDelta (faults : DeltaFaults) {stratum : StratumRelations}
    (eval : StratumEval stratum) (s : Session) : Rc × Session :=
  if faults.arrays then (.enomem, s)
  else
    let snaps := snapshots faults s
    let (rc, after) := evaluated eval s
    let (rc, after) :=
      if rc = .ok then compareLoop faults snaps stratum.names after else (rc, after)
    if rc = .ok then (rc, after.settleEvents)
    else (rc, after.undoStep faults snaps stratum.names)

/-! ## What the comparison loop does -/

/-- The comparison of a relation runs through. -/
def Passes (faults : DeltaFaults) (snaps : String → Option Snapshot) (s : Session)
    (name : String) : Prop :=
  ∀ r, s.findRel name = some r → compareRelation faults (snaps name) (r.consolidate faults) ≠ none

instance (faults : DeltaFaults) (snaps : String → Option Snapshot) (s : Session) (name : String) :
    Decidable (Passes faults snaps s name) :=
  match found : s.findRel name with
  | none => .isTrue (by simp [Passes, found])
  | some r =>
    decidable_of_iff (compareRelation faults (snaps name) (r.consolidate faults) ≠ none)
      (by simp [Passes, found])

/-- The relations that the loop consolidates: up to and including the first whose comparison
does not run through. -/
def visited (faults : DeltaFaults) (snaps : String → Option Snapshot) (s : Session) :
    List String → List String
  | [] => []
  | name :: rest =>
    name :: if Passes faults snaps s name then visited faults snaps s rest else []

/-- The events of one relation, as the loop appends them. -/
def eventsOf (faults : DeltaFaults) (snaps : String → Option Snapshot) (s : Session)
    (name : String) : List DeltaEvent :=
  match s.findRel name with
  | none => []
  | some r => relationEvents name (snapshotRows (snaps name)) (r.consolidate faults).flatRows

section CompareLoop

variable {faults : DeltaFaults} {snaps : String → Option Snapshot}

theorem compareRelation_eq {snap : Option Snapshot} {events : List DeltaEvent}
    (passed : compareRelation faults snap r = some events) :
    events = relationEvents r.name (snapshotRows snap) r.flatRows := by
  unfold compareRelation at passed
  simp only at passed
  split at passed
  · cases passed
  split at passed
  · cases passed
  · exact (Option.some.inj passed).symm

/-- Two sessions that agree on the listed relations visit the same ones. -/
theorem visited_congr {s : Session} (agree : ∀ name ∈ names, s.findRel name = s'.findRel name) :
    visited faults snaps s names = visited faults snaps s' names := by
  induction names with
  | nil => rfl
  | cons name rest ih =>
    have here : Passes faults snaps s name ↔ Passes faults snaps s' name := by
      unfold Passes
      rw [agree name mem_cons_self]
    simp [visited, here, ih fun n member => agree n (mem_cons_of_mem name member)]

theorem mem_of_mem_visited {s : Session} {name : String}
    (member : name ∈ visited faults snaps s names) : name ∈ names := by
  induction names with
  | nil => exact member
  | cons first rest ih =>
    rcases mem_cons.mp member with rfl | later
    · exact mem_cons_self
    split at later
    · exact mem_cons_of_mem first (ih later)
    · cases later

theorem flatMap_eventsOf_congr {s : Session}
    (agree : ∀ name ∈ names, s.findRel name = s'.findRel name) :
    names.flatMap (eventsOf faults snaps s) = names.flatMap (eventsOf faults snaps s') :=
  flatMap_congr fun name member => by simp [eventsOf, agree name member]

/-- What the loop leaves behind: the visited relations are consolidated and the others are
untouched, nothing is delivered, and when it runs through the events of all relations are
appended in order. -/
structure Compared (faults : DeltaFaults) (snaps : String → Option Snapshot) (names : List String)
    (s : Session) (out : Rc × Session) : Prop where
  findRel : ∀ name, out.2.findRel name =
    if name ∈ visited faults snaps s names then (s.findRel name).map (·.consolidate faults)
    else s.findRel name
  deltaCb : out.2.deltaCb = s.deltaCb
  delivered : out.2.delivered = s.delivered
  allVisited : out.1 = .ok → visited faults snaps s names = names
  events : out.1 = .ok →
    out.2.deltaEvents = s.deltaEvents ++ names.flatMap (eventsOf faults snaps s)

theorem compareLoop_compared (nodup : names.Nodup) (s : Session) :
    Compared faults snaps names s (compareLoop faults snaps names s) := by
  induction names generalizing s with
  | nil => exact ⟨fun _ => by simp [visited, compareLoop], rfl, rfl, fun _ => rfl,
      fun _ => by simp [compareLoop]⟩
  | cons name rest ih =>
    obtain ⟨fresh, nodupRest⟩ := nodup_cons.mp nodup
    simp only [compareLoop]
    cases found : s.findRel name with
    | none =>
      have passes : Passes faults snaps s name := by simp [Passes, found]
      have tail := ih nodupRest s
      refine ⟨fun n => ?_, tail.deltaCb, tail.delivered, fun ok => ?_,
        fun ok => ?_⟩
      · rw [tail.findRel n]
        by_cases same : n = name
        · subst same
          simp [visited, found]
        · simp [visited, passes, same]
      · simp [visited, passes, tail.allVisited ok]
      · simp [tail.events ok, eventsOf, found]
    | some r =>
      have named : r.name = name := Session.name_of_findRel found
      cases compared : compareRelation faults (snaps name) (r.consolidate faults) with
      | none =>
        have stops : ¬ Passes faults snaps s name := fun passes => passes r found compared
        simp only [compared]
        refine ⟨fun n => ?_, rfl, rfl, fun ok => (by cases ok), fun ok => (by cases ok)⟩
        simp [visited, stops]
      | some events =>
        have passes : Passes faults snaps s name := by
          intro r' found'
          obtain rfl : r = r' := Option.some.inj (found.symm.trans found')
          simp [compared]
        have eventsEq : events = eventsOf faults snaps s name := by
          simp [compareRelation_eq compared, eventsOf, found, ColRel.consolidate_name, named]
        have tail := ih nodupRest ((s.consolidateRel faults name).appendEvents events)
        have agree : ∀ n ∈ rest, s.findRel n =
            ((s.consolidateRel faults name).appendEvents events).findRel n := by
          intro n member
          have other : n ≠ name := fun same => fresh (same ▸ member)
          simp [other]
        have order : visited faults snaps s rest = visited faults snaps
            ((s.consolidateRel faults name).appendEvents events) rest := visited_congr agree
        simp only [compared]
        refine ⟨fun n => ?_, tail.deltaCb, tail.delivered, fun ok => ?_,
          fun ok => ?_⟩
        · rw [tail.findRel n, ← order, Session.findRel_appendEvents]
          by_cases same : n = name
          · subst same
            have unvisited : n ∉ visited faults snaps s rest := fun member =>
              fresh (mem_of_mem_visited member)
            simp [visited, unvisited]
          · simp [visited, passes, same]
        · rw [visited, if_pos passes, order, tail.allVisited ok]
        · rw [tail.events ok, ← flatMap_eventsOf_congr agree, flatMap_cons, eventsEq]
          simp [Session.appendEvents, Session.consolidateRel, Session.mapRel]

end CompareLoop

/-! ## The events of one relation -/

section RelationEvents

variable {name : String} {old prev new cur : List Row}

theorem count_map_event (rows : List Row) (row : Row) (diff diff' : Int) :
    (rows.map (DeltaEvent.mk name · diff)).count ⟨name, row, diff'⟩ =
      if diff = diff' then rows.count row else 0 := by
  split_ifs with same
  · subst same
    exact count_map_of_injective rows (DeltaEvent.mk name · diff) (fun a b => by simp) row
  · exact count_eq_zero_of_not_mem (by simp [same])

theorem count_missing (prev cur : List Row) (row : Row) :
    (cur.filter (!colRowInSorted prev ·)).count row =
      if colRowInSorted prev row then 0 else cur.count row := by
  split_ifs with found
  · exact count_eq_zero_of_not_mem (by simp [found])
  · exact count_filter (by simpa using found)

theorem count_relationEvents_plus (row : Row) :
    (relationEvents name prev cur).count ⟨name, row, 1⟩ =
      if colRowInSorted prev row then 0 else cur.count row := by
  simp [relationEvents, count_map_event, count_missing]

theorem count_relationEvents_minus (row : Row) :
    (relationEvents name prev cur).count ⟨name, row, -1⟩ =
      if colRowInSorted cur row then 0 else prev.count row := by
  simp [relationEvents, count_map_event, count_missing]

theorem of_mem_relationEvents {event : DeltaEvent} (member : event ∈ relationEvents name prev cur) :
    event.relation = name ∧ (event.diff = 1 ∨ event.diff = -1) := by
  rcases mem_append.mp member with added | dropped
  · obtain ⟨row, -, rfl⟩ := mem_map.mp added
    exact ⟨rfl, .inl rfl⟩
  · obtain ⟨row, -, rfl⟩ := mem_map.mp dropped
    exact ⟨rfl, .inr rfl⟩

/-- The events of a list are exactly the difference of the old and the new rows of a relation:
one for each row that appears, one for each row that vanishes, and no others. -/
structure DifferenceOf (events : List DeltaEvent) (name : String) (old new : List Row) :
    Prop where
  appeared : ∀ row ∈ new, row ∉ old → events.count ⟨name, row, 1⟩ = 1
  vanished : ∀ row ∈ old, row ∉ new → events.count ⟨name, row, -1⟩ = 1
  nothingElse : ∀ event ∈ events, event.relation = name →
    (event.diff = 1 ∧ event.row ∈ new ∧ event.row ∉ old) ∨
      (event.diff = -1 ∧ event.row ∈ old ∧ event.row ∉ new)

/-- When comparing works, for the rows `prev` and `cur` that stand for the old and the new ones:
rows that appear or vanish are stored once, and rows that stay are within the reach of a search
in byte order on both sides. -/
structure Comparable (old prev new cur : List Row) : Prop where
  once : ∀ row ∈ new, row ∉ old → cur.count row = 1
  onceBefore : ∀ row ∈ old, row ∉ new → prev.count row = 1
  reachedBefore : ∀ row ∈ old, row ∈ cur → WithinReach prev row
  reachedAfter : ∀ row ∈ prev, row ∈ new → WithinReach cur row

/-- One direction of the comparison: the rows of `cur` that are not found in `prev` are those that
are new, each once, exactly when new rows are stored once and the other ones are within reach. -/
theorem missing_iff {count : Row → Nat} (prevOld : prev ⊆ old) (curNew : cur ⊆ new)
    (counts : ∀ row, count row = if colRowInSorted prev row then 0 else cur.count row)
    (reach : ∀ row ∈ cur, colRowInSorted prev row = true ↔ WithinReach prev row) :
    ((∀ row ∈ new, row ∉ old → count row = 1) ∧ ∀ row, 0 < count row → row ∈ new ∧ row ∉ old) ↔
      (∀ row ∈ new, row ∉ old → cur.count row = 1) ∧
        ∀ row ∈ old, row ∈ cur → WithinReach prev row := by
  have fresh : ∀ row ∉ old, count row = cur.count row := by
    intro row absent
    rw [counts]
    split_ifs with found
    · refine (count_eq_zero_of_not_mem fun stored => ?_).symm
      exact absent (prevOld ((reach row stored).mp found).mem)
    · rfl
  refine and_congr (forall₃_congr fun row _ absent => by rw [fresh row absent])
    ⟨fun right row stood stored => ?_, fun reached row positive => ?_⟩
  · rw [← reach row stored]
    by_contra missed
    refine (right row ?_).2 stood
    rw [counts, if_neg missed]
    exact count_pos_iff.mpr stored
  · rw [counts] at positive
    split_ifs at positive with found
    · cases positive
    have stored := count_pos_iff.mp positive
    exact ⟨curNew stored, fun stood => found ((reach row stored).mpr (reached row stood stored))⟩

/-- **The events of a relation are its difference exactly when comparing works.** -/
theorem relationEvents_difference_iff (prevOld : prev ⊆ old) (curNew : cur ⊆ new)
    (width : ∀ before ∈ prev, ∀ after ∈ cur, before.cells.length = after.cells.length) :
    DifferenceOf (relationEvents name prev cur) name old new ↔ Comparable old prev new cur := by
  have plus := missing_iff prevOld curNew (@count_relationEvents_plus name prev cur)
    fun row stored => colRowInSorted_iff fun other before => width other before row stored
  have minus := missing_iff curNew prevOld (@count_relationEvents_minus name prev cur)
    fun row stored => colRowInSorted_iff fun other after => (width row stored other after).symm
  constructor
  · intro difference
    obtain ⟨once, reachedBefore⟩ := plus.mp ⟨difference.appeared, fun row positive => by
      rcases difference.nothingElse _ (count_pos_iff.mp positive) rfl with ⟨-, right⟩ | ⟨sign, -⟩
      · exact right
      · cases sign⟩
    obtain ⟨onceBefore, reachedAfter⟩ := minus.mp ⟨difference.vanished, fun row positive => by
      rcases difference.nothingElse _ (count_pos_iff.mp positive) rfl with ⟨sign, -⟩ | ⟨-, right⟩
      · cases sign
      · exact right⟩
    exact ⟨once, onceBefore, reachedBefore, fun row stood stays => reachedAfter row stays stood⟩
  · intro comparable
    obtain ⟨appeared, added⟩ := plus.mpr ⟨comparable.once, comparable.reachedBefore⟩
    obtain ⟨vanished, dropped⟩ := minus.mpr ⟨comparable.onceBefore,
      fun row stays stood => comparable.reachedAfter row stood stays⟩
    refine ⟨appeared, vanished, ?_⟩
    rintro ⟨relation, row, diff⟩ member rfl
    have positive := count_pos_iff.mpr member
    rcases (of_mem_relationEvents member).2 with rfl | rfl
    · exact .inl ⟨rfl, added row positive⟩
    · exact .inr ⟨rfl, dropped row positive⟩

end RelationEvents

/-! ## The events of a step -/

theorem snapshots_eq_some {faults : DeltaFaults} {s : Session} {name : String} {snap : Snapshot}
    (copied : snapshots faults s name = some snap) :
    ∃ r, s.findRel name = some r ∧ r.ncols ≠ 0 ∧ snap.ncols = r.ncols ∧ snap.rows = r.rows := by
  obtain ⟨r, found, snapshot⟩ := Option.bind_eq_some_iff.mp copied
  unfold ColRel.snapshot at snapshot
  split_ifs at snapshot with absent
  cases snapshot
  exact ⟨r, found, fun none => absent (.inl none), rfl, rfl⟩

theorem snapshotRows_subset (s : Session) (name : String) :
    snapshotRows (snapshots faults s name) ⊆ s.rowsOf name := by
  cases copied : snapshots faults s name with
  | none => simp [snapshotRows]
  | some snap =>
    obtain ⟨r, found, _, _, rows⟩ := snapshots_eq_some copied
    simp [snapshotRows, rows, Session.rowsOf_of_findRel found]

theorem ColRel.flatRows_subset (r : ColRel) : r.flatRows ⊆ r.rows := by
  unfold flatRows
  split
  · simp
  · exact List.Subset.refl _

@[simp] theorem ColRel.consolidate_ncols (r : ColRel) : (r.consolidate faults).ncols = r.ncols := by
  unfold consolidate
  split <;> rfl

@[simp] theorem ColRel.detach_ncols (r : ColRel) : r.detach.ncols = r.ncols := by
  unfold detach
  split <;> rfl

section Step

variable (faults : DeltaFaults) {stratum : StratumRelations} (eval : StratumEval stratum)

variable (s : Session) (name : String)

/-- A relation of the stratum is still there after the evaluation, with the width it had. -/
theorem findRel_evaluated {name : String} (member : name ∈ stratum.names)
    (found : s.findRel name = some r) :
    ∃ r', (evaluated eval s).2.findRel name = some r' ∧
      (r.ncols ≠ 0 → r'.ncols = r.ncols) := by
  have before : ∃ d, (detached stratum s).findRel name = some d ∧ d.ncols = r.ncols := by
    rw [detached, Session.findRel_updateAll, found, if_pos member]
    exact ⟨r.detach, rfl, ColRel.detach_ncols r⟩
  obtain ⟨d, foundDetached, width⟩ := before
  obtain ⟨r', found', keeps⟩ := eval.keeps _ name member d foundDetached
  exact ⟨r', found', fun initialised => (keeps (width ▸ initialised)).trans width⟩

/-- A relation once the stratum is evaluated and the relation consolidated. -/
def consolidatedRel : Option ColRel :=
  ((evaluated eval s).2.findRel name).map (·.consolidate faults)

def newRows : List Row :=
  ((consolidatedRel faults eval s name).map ColRel.rows).getD []

def newFlatRows : List Row :=
  ((consolidatedRel faults eval s name).map ColRel.flatRows).getD []

/-- The rows of a relation that has columns. -/
def Session.flatRowsOf : List Row := ((s.findRel name).map ColRel.flatRows).getD []

/-- Comparing works for every relation of the stratum: for the rows before and after the step,
where old rows that could not be copied are missing from the comparison. -/
def StratumComparable (stratum : StratumRelations) (s s' : Session) : Prop :=
  ∀ name ∈ stratum.names,
    Comparable (s.rowsOf name) (if faults.flat name then [] else s.flatRowsOf name)
      (s'.rowsOf name) (s'.flatRowsOf name)

theorem snapshotRows_snapshots :
    snapshotRows (snapshots faults s name) =
      if faults.flat name then [] else s.flatRowsOf name := by
  unfold snapshots Session.flatRowsOf
  cases s.findRel name with
  | none => simp [snapshotRows]
  | some r =>
    simp only [Option.bind_some, Option.map_some, Option.getD_some, ColRel.snapshot,
      ColRel.flatRows]
    cases faults.flat name <;> by_cases empty : r.rows = [] <;> by_cases columns : r.ncols = 0 <;>
      simp [snapshotRows, empty, columns]

theorem newFlatRows_subset :
    newFlatRows faults eval s name ⊆ newRows faults eval s name := by
  unfold newFlatRows newRows
  cases consolidatedRel faults eval s name with
  | none => simp
  | some r => exact r.flatRows_subset

theorem compared_width {name : String} (member : name ∈ stratum.names) {row row' : Row}
    (before : row ∈ snapshotRows (snapshots faults s name))
    (after : row' ∈ newFlatRows faults eval s name) :
    row.cells.length = row'.cells.length := by
  cases copied : snapshots faults s name with
  | none => simp [copied, snapshotRows] at before
  | some snap =>
    cases found : (evaluated eval s).2.findRel name with
    | none => simp [newFlatRows, consolidatedRel, found] at after
    | some r =>
      have stored : row' ∈ (r.consolidate faults).rows :=
        ColRel.flatRows_subset _ (by simpa [newFlatRows, consolidatedRel, found] using after)
      obtain ⟨old, foundOld, initialised, width, _⟩ := snapshots_eq_some copied
      obtain ⟨r', found', kept⟩ := findRel_evaluated eval s member foundOld
      obtain rfl : r = r' := Option.some.inj (found.symm.trans found')
      rw [snap.width row (by simpa [copied, snapshotRows] using before),
        (r.consolidate faults).width row' stored, ColRel.consolidate_ncols, kept initialised,
        width]

/-- A relation that is not there after the evaluation was not there before. -/
theorem snapshots_eq_none_of_missing {name : String} (member : name ∈ stratum.names)
    (missing : (evaluated eval s).2.findRel name = none) :
    snapshots faults s name = none := by
  cases found : s.findRel name with
  | none => simp [snapshots, found]
  | some r =>
    obtain ⟨r', found', _⟩ := findRel_evaluated eval s member found
    exact absurd (missing.symm.trans found') (by simp)

theorem eventsOf_eq {name : String} (member : name ∈ stratum.names) :
    eventsOf faults (snapshots faults s) (evaluated eval s).2 name =
      relationEvents name (snapshotRows (snapshots faults s name))
        (newFlatRows faults eval s name) := by
  unfold eventsOf newFlatRows consolidatedRel
  cases found : (evaluated eval s).2.findRel name with
  | none =>
    simp [snapshots_eq_none_of_missing faults eval s member found, snapshotRows, relationEvents]
  | some r => simp

/-- For one relation of the stratum, the events are the difference exactly when comparing
works. -/
theorem eventsOf_difference_iff {name : String} (member : name ∈ stratum.names) :
    DifferenceOf (eventsOf faults (snapshots faults s) (evaluated eval s).2 name) name
        (s.rowsOf name) (newRows faults eval s name) ↔
      Comparable (s.rowsOf name) (snapshotRows (snapshots faults s name))
        (newRows faults eval s name) (newFlatRows faults eval s name) := by
  rw [eventsOf_eq faults eval s member]
  exact relationEvents_difference_iff (snapshotRows_subset faults s name)
    (newFlatRows_subset faults eval s name)
    fun _ before _ after => compared_width faults eval s member before after

/-- The loop of steps 3 and 4, as the step runs it. -/
def comparedStratum : Rc × Session :=
  compareLoop faults (snapshots faults s) stratum.names (evaluated eval s).2

theorem comparedStratum_compared :
    Compared faults (snapshots faults s) stratum.names (evaluated eval s).2
      (comparedStratum faults eval s) :=
  compareLoop_compared stratum.nodup _

/-- The session when a failure shows: the evaluation has failed, or the comparison of a relation
has. -/
def failedState : Session :=
  if (evaluated eval s).1 = .ok then (comparedStratum faults eval s).2
  else (evaluated eval s).2

variable {faults eval s}

/-- What a step can do. -/
theorem step_cases {rc : Rc} (step : colStratumStepWithDelta faults eval s = (rc, s')) :
    faults.arrays = true ∧ rc = .enomem ∧ s' = s ∨
      rc = .ok ∧ (comparedStratum faults eval s).1 = .ok ∧
        s' = (comparedStratum faults eval s).2.settleEvents ∨
      rc ≠ .ok ∧ faults.arrays = false ∧
        s' = (failedState faults eval s).undoStep faults (snapshots faults s) stratum.names := by
  unfold colStratumStepWithDelta at step
  split at step
  · rename_i arrays
    cases step
    exact .inl ⟨arrays, rfl, rfl⟩
  rename_i arrays
  rw [Bool.not_eq_true] at arrays
  simp only at step
  unfold failedState
  by_cases evaluates : (evaluated eval s).1 = .ok
  · rw [if_pos evaluates] at step ⊢
    change (if (comparedStratum faults eval s).1 = .ok then _ else _) = _ at step
    split at step
    · rename_i compares
      obtain ⟨rfl, rfl⟩ := Prod.mk.inj step
      exact .inr (.inl ⟨compares, compares, rfl⟩)
    · rename_i fails
      obtain ⟨rfl, rfl⟩ := Prod.mk.inj step
      exact .inr (.inr ⟨fails, arrays, rfl⟩)
  · rw [if_neg evaluates, if_neg evaluates] at step
    obtain ⟨rfl, rfl⟩ := Prod.mk.inj step
    exact .inr (.inr ⟨evaluates, arrays, by rw [if_neg evaluates]⟩)

theorem step_ok (ok : colStratumStepWithDelta faults eval s = (.ok, s')) :
    (comparedStratum faults eval s).1 = .ok ∧
      s' = (comparedStratum faults eval s).2.settleEvents := by
  obtain ⟨-, failed, -⟩ | ⟨-, done⟩ | ⟨failed, -⟩ := step_cases ok
  · cases failed
  · exact done
  · exact absurd rfl failed

theorem findRel_step (ok : colStratumStepWithDelta faults eval s = (.ok, s')) {name : String}
    (member : name ∈ stratum.names) : s'.findRel name = consolidatedRel faults eval s name := by
  obtain ⟨compares, rfl⟩ := step_ok ok
  have compared := comparedStratum_compared faults eval s
  have found := compared.findRel name
  rw [compared.allVisited compares, if_pos member] at found
  have same : ∀ t : Session, t.settleEvents.findRel name = t.findRel name := by
    intro t
    unfold Session.settleEvents Session.publishEvents Session.clearEvents
    split
    · rfl
    · split <;> rfl
  rw [same, found, consolidatedRel]

/-- The events that a step has recorded, delivered to the callback or buffered for it. -/
def newEvents (s s' : Session) : List DeltaEvent :=
  (s'.delivered ++ s'.deltaEvents).drop (s.delivered ++ s.deltaEvents).length

theorem newEvents_step (callback : s.deltaCb = true)
    (ok : colStratumStepWithDelta faults eval s = (.ok, s')) :
    newEvents s s' = stratum.names.flatMap
      (eventsOf faults (snapshots faults s) (evaluated eval s).2) := by
  obtain ⟨compares, rfl⟩ := step_ok ok
  have compared := comparedStratum_compared faults eval s
  have cb : (comparedStratum faults eval s).2.deltaCb = true := by
    rw [compared.deltaCb, evaluated, eval.keepsCb]
    exact callback
  have events := compared.events compares
  rw [evaluated, eval.keepsEvents] at events
  have delivered := compared.delivered
  rw [evaluated, eval.keepsDelivered] at delivered
  have total : ∀ t : Session, t.deltaCb = true →
      t.settleEvents.delivered ++ t.settleEvents.deltaEvents = t.delivered ++ t.deltaEvents := by
    intro t set
    cases mode : t.deltaEventTransaction <;>
      simp [Session.settleEvents, Session.publishEvents, Session.clearEvents, set, mode]
  rw [newEvents, total _ cb, delivered, events, ← append_assoc]
  exact drop_left

theorem relation_of_mem_eventsOf {snaps : String → Option Snapshot} {name : String}
    {event : DeltaEvent} (member : event ∈ eventsOf faults snaps s name) :
    event.relation = name := by
  unfold eventsOf at member
  split at member
  · cases member
  · exact (of_mem_relationEvents member).1

/-- Among the events of distinct relations an event is counted where its relation is. -/
theorem count_flatMap_tagged {events : String → List DeltaEvent}
    (tagged : ∀ name, ∀ event ∈ events name, event.relation = name)
    (nodup : names.Nodup) {event : DeltaEvent} (member : event.relation ∈ names) :
    (names.flatMap events).count event = (events event.relation).count event := by
  induction names with
  | nil => cases member
  | cons name rest ih =>
    obtain ⟨fresh, nodupRest⟩ := nodup_cons.mp nodup
    rw [flatMap_cons, count_append]
    rcases mem_cons.mp member with same | later
    · have elsewhere : (rest.flatMap events).count event = 0 := by
        refine count_eq_zero_of_not_mem fun found => ?_
        obtain ⟨other, inRest, inEvents⟩ := mem_flatMap.mp found
        exact fresh (same ▸ tagged other event inEvents ▸ inRest)
      rw [elsewhere, same, Nat.add_zero]
    · have elsewhere : (events name).count event = 0 :=
        count_eq_zero_of_not_mem fun found => fresh (tagged name event found ▸ later)
      rw [elsewhere, ih nodupRest later, Nat.zero_add]

theorem differenceOf_congr {events events' : List DeltaEvent} {name : String} {old new : List Row}
    (counts : ∀ event : DeltaEvent, event.relation = name →
      events.count event = events'.count event) :
    DifferenceOf events name old new ↔ DifferenceOf events' name old new := by
  have one : ∀ {events events' : List DeltaEvent}, (∀ event : DeltaEvent, event.relation = name →
      events.count event = events'.count event) → DifferenceOf events name old new →
      DifferenceOf events' name old new := by
    intro events events' counts difference
    refine ⟨fun row appears fresh => ?_, fun row stood gone => ?_, fun event member here => ?_⟩
    · rw [← counts _ rfl]
      exact difference.appeared row appears fresh
    · rw [← counts _ rfl]
      exact difference.vanished row stood gone
    · refine difference.nothingElse event (count_pos_iff.mp ?_) here
      rw [counts event here]
      exact count_pos_iff.mpr member
  exact ⟨one counts, one fun event here => (counts event here).symm⟩

/-- What the events of a step are for: for every relation of the stratum they are the difference
of its old and its new rows, and they are about relations of the stratum only. -/
structure EventsExact (stratum : StratumRelations) (s s' : Session) : Prop where
  difference : ∀ name ∈ stratum.names,
    DifferenceOf (newEvents s s') name (s.rowsOf name) (s'.rowsOf name)
  relation : ∀ event ∈ newEvents s s', event.relation ∈ stratum.names

/-- **The events of a successful step are the difference of old and new rows exactly when
comparing works for these rows.** -/
theorem colStratumStepWithDelta_exact_iff (faults : DeltaFaults) (stratum : StratumRelations)
    (eval : StratumEval stratum) (s s' : Session) (callback : s.deltaCb = true)
    (ok : colStratumStepWithDelta faults eval s = (.ok, s')) :
    EventsExact stratum s s' ↔ StratumComparable faults stratum s s' := by
  have events := newEvents_step callback ok
  have tagged : ∀ name, ∀ event ∈ eventsOf faults (snapshots faults s)
      (evaluated eval s).2 name, event.relation = name := fun name event member =>
    relation_of_mem_eventsOf member
  have each : ∀ name ∈ stratum.names,
      DifferenceOf (newEvents s s') name (s.rowsOf name) (s'.rowsOf name) ↔
        Comparable (s.rowsOf name) (if faults.flat name then [] else s.flatRowsOf name)
          (s'.rowsOf name) (s'.flatRowsOf name) := by
    intro name member
    have found := findRel_step ok member
    have stored : s'.rowsOf name = newRows faults eval s name := by
      rw [Session.rowsOf, found, newRows]
    have flat : s'.flatRowsOf name = newFlatRows faults eval s name := by
      rw [Session.flatRowsOf, found, newFlatRows]
    rw [← snapshotRows_snapshots, flat, stored, ← eventsOf_difference_iff faults eval s member]
    refine differenceOf_congr fun event here => ?_
    rw [events, count_flatMap_tagged tagged stratum.nodup (here.symm ▸ member), here]
  constructor
  · intro exact_ name member
    exact (each name member).mp (exact_.difference name member)
  · intro comparable
    refine ⟨fun name member => (each name member).mpr (comparable name member), ?_⟩
    intro event member
    rw [events] at member
    obtain ⟨name, inStratum, inEvents⟩ := mem_flatMap.mp member
    exact (tagged name event inEvents) ▸ inStratum

/-! ## The rollback of a failed step -/

variable (faults eval s)

/-- A relation is consolidated by the time the failure shows. -/
def ConsolidatedByFailure (name : String) : Prop :=
  (evaluated eval s).1 = .ok ∧
    name ∈ visited faults (snapshots faults s) (evaluated eval s).2 stratum.names

instance (name : String) : Decidable (ConsolidatedByFailure faults eval s name) :=
  inferInstanceAs (Decidable (_ ∧ _))

theorem findRel_failedState (name : String) :
    (failedState faults eval s).findRel name =
      if ConsolidatedByFailure faults eval s name then
        ((evaluated eval s).2.findRel name).map (·.consolidate faults)
      else (evaluated eval s).2.findRel name := by
  unfold failedState ConsolidatedByFailure
  by_cases evaluates : (evaluated eval s).1 = .ok
  · simp only [evaluates, if_true, true_and]
    exact (comparedStratum_compared faults eval s).findRel name
  · simp [evaluates]

/-- The rows of a relation when the failure shows. -/
def standingRows (name : String) : List Row :=
  if ConsolidatedByFailure faults eval s name then newRows faults eval s name
  else (evaluated eval s).2.rowsOf name

/-- The rollback reaches a relation: its rows were copied, the evaluation has left its columns
null, and they can be allocated again. -/
def Restorable (name : String) : Prop :=
  (snapshots faults s name).isSome ∧ faults.restore name = false ∧
    ∃ r, (evaluated eval s).2.findRel name = some r ∧ r.allocated = false

/-- What the evaluation has left in a relation amounts to its old rows, by the time the failure
shows. A relation that is consolidated by then has kept one of equal rows: of all of them, or of
adjacent ones when the sort failed. -/
def LeftAsBefore (name : String) : Prop :=
  let left := (evaluated eval s).2.rowsOf name
  if ¬ ConsolidatedByFailure faults eval s name ∨ faults.consolidateCopy name then
    left.Perm (s.rowsOf name)
  else if faults.sort name then (left.destutter (· ≠ ·)).Perm (s.rowsOf name)
  else (s.rowsOf name).Nodup ∧ ∀ row, row ∈ s.rowsOf name ↔ row ∈ left

/-- The old rows of a relation survive a failed step: the rollback reaches it, or the evaluation
has left them. -/
def RowsSurvive (name : String) : Prop :=
  Restorable faults eval s name ∨ LeftAsBefore faults eval s name

theorem standingRows_perm_iff (name : String) :
    (standingRows faults eval s name).Perm (s.rowsOf name) ↔ LeftAsBefore faults eval s name := by
  unfold standingRows LeftAsBefore
  by_cases early : ConsolidatedByFailure faults eval s name
  · simp only [early, if_true, not_true_eq_false, false_or]
    cases found : (evaluated eval s).2.findRel name with
    | none =>
      have left : (evaluated eval s).2.rowsOf name = [] := by simp [Session.rowsOf, found]
      have new : newRows faults eval s name = [] := by simp [newRows, consolidatedRel, found]
      rw [left, new]
      split_ifs
      · rfl
      · rfl
      · simp only [nil_perm, not_mem_nil, iff_false, ← eq_nil_iff_forall_not_mem]
        exact ⟨fun empty => ⟨empty ▸ nodup_nil, empty⟩, fun same => same.2⟩
    | some r =>
      have left := Session.rowsOf_of_findRel found
      have new : newRows faults eval s name = (r.consolidate faults).rows := by
        simp [newRows, consolidatedRel, found]
      rw [left, new, ColRel.consolidate_perm_iff, Session.name_of_findRel found]
  · simp [early]

@[simp] theorem ColRel.consolidate_allocated (r : ColRel) :
    (r.consolidate faults).allocated = r.allocated := by
  unfold ColRel.consolidate
  split <;> rfl

/-- The relation after the rollback is the copied one, or else the one that stood. -/
theorem rollback_rows {name : String} (named : r.name = name) (snap : Option Snapshot) :
    (r.rollback faults snap).rows =
      if snap.isSome ∧ faults.restore name = false ∧ r.allocated = false then snapshotRows snap
      else r.rows := by
  subst named
  cases snap with
  | none => simp [ColRel.rollback]
  | some snap =>
    cases allocated : r.allocated <;> cases restore : faults.restore r.name <;>
      simp [ColRel.rollback, allocated, restore, ColRel.restore, snapshotRows]

variable {faults eval s}

theorem delivered_failedState : (failedState faults eval s).delivered = s.delivered := by
  have kept : (evaluated eval s).2.delivered = s.delivered := by
    rw [evaluated, eval.keepsDelivered]
    rfl
  unfold failedState
  split
  · rw [(comparedStratum_compared faults eval s).delivered, kept]
  · exact kept

/-- The rows of a relation after a failed step: the old ones where the rollback reaches, and the
standing ones elsewhere. -/
theorem rowsOf_failed (undone : s' =
      (failedState faults eval s).undoStep faults (snapshots faults s) stratum.names)
    {name : String} (member : name ∈ stratum.names) :
    (Restorable faults eval s name → s'.rowsOf name = s.rowsOf name) ∧
      (¬ Restorable faults eval s name →
        s'.rowsOf name = standingRows faults eval s name) := by
  have lookup : s'.findRel name = ((failedState faults eval s).findRel name).map
      fun r => r.rollback faults (snapshots faults s r.name) := by
    rw [undone, Session.undoStep, Session.findRel_updateAll, if_pos member]
    rfl
  rw [findRel_failedState] at lookup
  cases found : (evaluated eval s).2.findRel name with
  | none =>
    have gone : s'.rowsOf name = [] := by simp [Session.rowsOf, lookup, found]
    constructor
    · rintro ⟨_, _, r, present, _⟩
      simp [found] at present
    · intro _
      rw [gone, standingRows]
      split <;> simp [newRows, consolidatedRel, Session.rowsOf, found]
  | some r =>
    have named := Session.name_of_findRel found
    -- the relation when the failure shows, consolidated or not
    obtain ⟨q, standing, name', allocated, found'⟩ : ∃ q : ColRel,
        q.rows = standingRows faults eval s name ∧ q.name = name ∧
        q.allocated = r.allocated ∧
        s'.findRel name = some (q.rollback faults (snapshots faults s name)) := by
      by_cases early : ConsolidatedByFailure faults eval s name
      · refine ⟨r.consolidate faults, ?_, ?_, ?_, ?_⟩
        · simp [standingRows, early, newRows, consolidatedRel, found]
        · simp [named]
        · simp
        · simp [lookup, early, found, named]
      · refine ⟨r, ?_, named, rfl, ?_⟩
        · simp [standingRows, early, Session.rowsOf, found]
        · simp [lookup, early, found, named]
    have rows := Session.rowsOf_of_findRel found'
    rw [rollback_rows faults name', allocated, standing] at rows
    have reaches : Restorable faults eval s name ↔
        (snapshots faults s name).isSome ∧ faults.restore name = false ∧ r.allocated = false := by
      simp [Restorable, found]
    constructor
    · intro restorable
      rw [rows, if_pos (reaches.mp restorable)]
      obtain ⟨snap, copied⟩ := Option.isSome_iff_exists.mp restorable.1
      obtain ⟨old, foundOld, _, _, oldRows⟩ := snapshots_eq_some copied
      simp [copied, snapshotRows, oldRows, Session.rowsOf_of_findRel foundOld]
    · intro beyond
      rw [rows, if_neg fun reached => beyond (reaches.mpr reached)]

/-- What a failed step should leave: nothing delivered, and every derived relation of the stratum
with the rows it had. -/
structure Undone (stratum : StratumRelations) (s s' : Session) : Prop where
  delivered : s'.delivered = s.delivered
  rows : ∀ name ∈ stratum.names, (s'.rowsOf name).Perm (s.rowsOf name)

/-- **A failed step is undone exactly when the snapshot arrays were what failed, or the rows of
every derived relation survive.** -/
theorem colStratumStepWithDelta_undone_iff (faults : DeltaFaults) (stratum : StratumRelations)
    (eval : StratumEval stratum) (s s' : Session) (rc : Rc) (failed : rc ≠ .ok)
    (step : colStratumStepWithDelta faults eval s = (rc, s')) :
    Undone stratum s s' ↔
      faults.arrays = true ∨ ∀ name ∈ stratum.names, RowsSurvive faults eval s name := by
  obtain ⟨arrays, -, rfl⟩ | ⟨ok, -⟩ | ⟨-, arrays, after⟩ := step_cases step
  · exact iff_of_true ⟨rfl, fun name _ => List.Perm.refl _⟩ (.inl arrays)
  · exact absurd ok failed
  have rows : ∀ name ∈ stratum.names, (s'.rowsOf name).Perm (s.rowsOf name) ↔
      RowsSurvive faults eval s name := by
    intro name member
    obtain ⟨restored, stood⟩ := rowsOf_failed after member
    by_cases restorable : Restorable faults eval s name
    · exact iff_of_true (restored restorable ▸ List.Perm.refl _) (.inl restorable)
    rw [stood restorable, standingRows_perm_iff]
    exact (or_iff_right restorable).symm
  constructor
  · intro undone
    exact .inr fun name member => (rows name member).mp (undone.rows name member)
  · rintro (impossible | survive)
    · rw [arrays] at impossible
      cases impossible
    · rw [after] at rows ⊢
      exact ⟨delivered_failedState, fun name member => (rows name member).mpr (survive name member)⟩

end Step

/-! ## Concrete steps -/

/-- Replace the rows of an integer relation by rows of its width. -/
def ColRel.refill (r : ColRel) : ColRel :=
  if fits : (∀ row ∈ rows, row.cells.length = r.ncols) ∧ r.columnTypes = [] then
    { r with
      rows := rows
      allocated := true
      width := fits.1
      stored := fun _ _ => rfl
      canonical := fun row _ => fits.2 ▸ floatCanonical_nil row }
  else r

theorem ColRel.refill_schema (r : ColRel) :
    (r.refill rows).name = r.name ∧ (r.refill rows).ncols = r.ncols := by
  unfold refill
  split <;> exact ⟨rfl, rfl⟩

/-- A stratum with the relation `p` alone. -/
def onlyP : StratumRelations where
  names := ["p"]
  nodup := by decide
  declared := by
    rintro name member rel rfl
    have short := congrArg String.length (mem_singleton.mp member)
    have three : "$d$".length = 3 := by decide
    have one : "p".length = 1 := by decide
    rw [String.length_append] at short
    omega

/-- An evaluation that leaves the given rows in the relation `p` and returns the given code. -/
def leavesRows (rc : Rc) (rows : List Row) : StratumEval onlyP where
  run s := (rc, s.updateAll ["p"] (ColRel.refill rows) fun r => (r.refill_schema rows).1)
  keeps s name _ r found := by
    rw [Session.findRel_updateAll, found]
    split
    · exact ⟨r.refill rows, rfl, fun _ => (r.refill_schema rows).2⟩
    · exact ⟨r, rfl, fun _ => rfl⟩
  keepsEvents _ := rfl
  keepsDelivered _ := rfl
  keepsCb _ := rfl

/-- An evaluation that fails before it writes anything. -/
def failsAtOnce : StratumEval onlyP where
  run s := (.enomem, s)
  keeps _ _ _ r found := ⟨r, found, fun _ => rfl⟩
  keepsEvents _ := rfl
  keepsDelivered _ := rfl
  keepsCb _ := rfl

/-- No allocation of a step fails. -/
def noDeltaFaults : DeltaFaults :=
  ⟨false, fun _ => false, fun _ => false, fun _ => false, fun _ => false, fun _ _ => false,
    fun _ => false⟩

/-- A session with a delta callback and the relation `p`. -/
def sessionP (cells : List Cell) : Session := .holding (.integers "p" cells) true

/-- A step from some rows of `p`, with an evaluation that leaves others. -/
def stepP (old : List Cell) (rc : Rc) (new : List Cell) : Rc × Session :=
  colStratumStepWithDelta noDeltaFaults (leavesRows rc (integerRows new)) (sessionP old)

/-- A step that replaces the row `1` by the row `3` and keeps the row `2` delivers two events. -/
theorem step_replaces_row :
    (stepP [1, 2] .ok [2, 3]).1 = .ok ∧
      EventsExact onlyP (sessionP [1, 2]) (stepP [1, 2] .ok [2, 3]).2 := by
  refine ⟨by decide +kernel, (colStratumStepWithDelta_exact_iff noDeltaFaults onlyP
    (leavesRows .ok (integerRows [2, 3])) (sessionP [1, 2]) _ rfl
    (outcome_eq (by decide +kernel))).mpr ?_⟩
  intro name member
  obtain rfl : name = "p" := mem_singleton.mp member
  have before : (sessionP [1, 2]).flatRowsOf "p" = [⟨[1]⟩, ⟨[2]⟩] := by rfl
  have after : (stepP [1, 2] .ok [2, 3]).2.flatRowsOf "p" = [⟨[2]⟩, ⟨[3]⟩] := by decide +kernel
  have stored : (stepP [1, 2] .ok [2, 3]).2.rowsOf "p" = [⟨[2]⟩, ⟨[3]⟩] := by decide +kernel
  rw [stepP] at after stored
  rw [if_neg (by decide), before, after, stored]
  refine ⟨by decide, by decide, fun row old kept => ?_, fun row old kept => ?_⟩
  · obtain rfl : row = ⟨[2]⟩ := by revert row; decide
    exact ⟨1, rfl, by decide⟩
  · obtain rfl : row = ⟨[2]⟩ := by revert row; decide
    exact ⟨0, rfl, by decide⟩

/-- A step that recomputes the rows `1` and `256` delivers a `+1` and a `-1` event for the row
`1`, which is there before and after. -/
theorem step_reports_kept_row :
    (stepP [1, 256] .ok [1, 256]).1 = .ok ∧
      ¬ EventsExact onlyP (sessionP [1, 256]) (stepP [1, 256] .ok [1, 256]).2 := by
  refine ⟨by decide, fun exact_ => ?_⟩
  have difference := exact_.difference "p" (by decide)
  have spurious := difference.nothingElse ⟨"p", ⟨[1]⟩, 1⟩ (by decide +kernel) rfl
  exact absurd spurious (by decide)

/-- An evaluation that fails before it writes leaves the old row in place. -/
theorem failed_step_undone :
    (colStratumStepWithDelta noDeltaFaults failsAtOnce (sessionP [1])).1 = .enomem ∧
      Undone onlyP (sessionP [1])
        (colStratumStepWithDelta noDeltaFaults failsAtOnce (sessionP [1])).2 := by
  refine ⟨by decide, (colStratumStepWithDelta_undone_iff noDeltaFaults onlyP failsAtOnce
    (sessionP [1]) _ .enomem (by decide) (outcome_eq (by decide))).mpr
      (.inr fun name member => .inl ?_)⟩
  obtain rfl : name = "p" := by simpa [onlyP] using member
  exact ⟨by decide, rfl, (ColRel.integers "p" [1]).detach, by rfl, rfl⟩

/-- An evaluation that fails after it has written the row `2` leaves this row, and the old row
`1` is lost. -/
theorem failed_step_loses_row :
    (stepP [1] .enomem [2]).1 = .enomem ∧
      ¬ Undone onlyP (sessionP [1]) (stepP [1] .enomem [2]).2 := by
  refine ⟨by decide, fun undone => ?_⟩
  have rows := (undone.rows "p" (by decide)).mem_iff (a := ⟨[1]⟩)
  exact absurd rows (by decide)

end Wirelog.Columnar

import Wirelog.Columnar.Removal

/-!
# Inserting input rows into a session

`col_session_insert` appends a batch of rows to an input relation; with a delta callback set it
goes through `col_session_insert_incremental`. The first insert into a relation without columns
gives it its width. Rows are appended one after another and stay when a later one fails.

A single row is what the typed rows of the facade are made of. What the session answers to its
insertion or its removal follows from the columns, the types and the rows of the relation and from
the faults of the call (`RelView.insertRc`, `RelView.removeRc`). An insertion that goes through
appends the stored form of the row, a removal takes one occurrence out, and a call that fails leaves
the rows as they are (`colSessionInsert_view`, `colSessionRemove_view`).
-/

set_option autoImplicit false

namespace Wirelog.Columnar

open Function List

/-! ## Appending a row -/

/-- A cell that may be written: a `FLOAT` is finite. -/
def cellFinite (type : Option ColumnType) (cell : Cell) : Bool :=
  type ≠ some .float || floatBitsValid cell

/-- A cell as it is stored: a zero of a `FLOAT` column is the positive one. -/
def storedCell (type : Option ColumnType) (cell : Cell) : Cell :=
  if type = some .float ∧ floatBitsZero cell then 0 else cell

variable (types : List ColumnType)

variable (row : Row)

def rowFinite : Bool :=
  row.cells.zipIdx.all fun (cell, i) => cellFinite types[i]? cell

def storedRow : Row :=
  ⟨row.cells.mapIdx fun i cell => storedCell types[i]? cell⟩

theorem length_storedRow : (storedRow types row).cells.length = row.cells.length :=
  length_mapIdx

theorem floatCanonical_storedRow {types : List ColumnType} {row : Row}
    (finite : rowFinite types row = true) : FloatCanonical types (storedRow types row) := by
  intro i float cell stored
  simp only [storedRow, List.getElem?_mapIdx, Option.map_eq_some_iff] at stored
  obtain ⟨given, present, rfl⟩ := stored
  have valid : floatBitsValid given = true := by
    have checked := all_eq_true.mp finite (given, i) (mem_zipIdx_iff_getElem?.mpr present)
    simpa [cellFinite, float] using checked
  unfold storedCell
  split
  · exact ⟨by decide, fun _ => rfl⟩
  rename_i other
  exact ⟨valid, fun zero => absurd ⟨float, zero⟩ other⟩

/-- `col_rel_append_row`, where the memory for it may be missing. -/
def ColRel.appendRow (fails : Bool) (r : ColRel) (row : Row) : Rc × ColRel :=
  if width : row.cells.length = r.ncols then
    if finite : rowFinite r.columnTypes row = true then
      if fails then (.enomem, r)
      else
        (.ok,
          { r with
            rows := r.rows ++ [storedRow r.columnTypes row]
            allocated := r.allocated || decide (r.ncols ≠ 0)
            width := by
              intro other member
              rcases mem_append.mp member with old | new
              · exact r.width other old
              · rw [mem_singleton.mp new, length_storedRow, width]
            stored := fun _ columns => by simp [columns]
            canonical := by
              intro other member
              rcases mem_append.mp member with old | new
              · exact r.canonical other old
              rw [mem_singleton.mp new]
              exact floatCanonical_storedRow finite })
    else (.einval, r)
  -- the cells of a row of another width would be read past its end
  else (.undefined, r)

/-- Which allocations of an insert fail: those of the schema, with `ENOMEM` or in the schema
library, and those of the n-th appended row. -/
structure InsertFaults where
  schema : Bool
  arrow : Bool
  append : Nat → Bool

variable (faults : InsertFaults)

/-- `col_rel_set_schema`. Rows without cells would be read as rows of cells that were never
written. -/
def ColRel.setSchema (r : ColRel) (ncols : Nat) : Rc × ColRel :=
  if r.ncols ≠ 0 then (.ok, r)
  else if faults.schema then (.enomem, r)
  else if faults.arrow then (.einval, r)
  else if ncols = 0 then (.ok, r)
  else if empty : r.rows = [] then
    (.ok,
      { r with
        ncols := ncols
        allocated := true
        width := fun row member => by simp [empty] at member
        stored := fun _ _ => rfl })
  else (.undefined, r)

/-- The loop over the rows of an insert. -/
def ColRel.appendRows (fails : Nat → Bool) : Nat → List Row → ColRel → Rc × ColRel
  | _, [], r => (.ok, r)
  | i, row :: rest, r =>
    match r.appendRow (fails i) row with
    | (.ok, r') => r'.appendRows fails (i + 1) rest
    | failed => failed

variable (declared : Nat) (batch : Batch) (r : ColRel)

/-- What an insert does to the relation; `declared` is its width in the program, or 0. -/
def ColRel.insertRows : Rc × ColRel :=
  if r.ncols = 0 then
    if declared ≠ 0 ∧ batch.numCols ≠ declared then (.einval, r)
    else
      match r.setSchema faults batch.numCols with
      | (.ok, r') => r'.appendRows faults.append 0 batch.rows
      | failed => failed
  else if r.ncols ≠ batch.numCols then (.einval, r)
  else r.appendRows faults.append 0 batch.rows

/-! ## What an insert keeps -/

structure ColRel.SameHeader (r r' : ColRel) : Prop where
  name : r'.name = r.name
  columnTypes : r'.columnTypes = r.columnTypes

theorem ColRel.appendRow_spec (fails : Bool) (r : ColRel) (row : Row) :
    r.SameHeader (r.appendRow fails row).2 ∧
      (r.appendRow fails row).2.rows =
        if (r.appendRow fails row).1 = .ok then r.rows ++ [storedRow r.columnTypes row]
        else r.rows := by
  unfold ColRel.appendRow
  by_cases width : row.cells.length = r.ncols
  · rw [dif_pos width]
    by_cases finite : rowFinite r.columnTypes row = true
    · rw [dif_pos finite]
      cases fails with
      | true => exact ⟨⟨rfl, rfl⟩, rfl⟩
      | false => exact ⟨⟨rfl, rfl⟩, rfl⟩
    · rw [dif_neg finite]
      exact ⟨⟨rfl, rfl⟩, rfl⟩
  · rw [dif_neg width]
    exact ⟨⟨rfl, rfl⟩, rfl⟩

theorem ColRel.setSchema_spec (ncols : Nat) :
    r.SameHeader (r.setSchema faults ncols).2 ∧ (r.setSchema faults ncols).2.rows = r.rows := by
  unfold ColRel.setSchema
  split_ifs <;> exact ⟨⟨rfl, rfl⟩, rfl⟩

variable (fails : Nat → Bool)

theorem ColRel.appendRows_header (i : Nat) (rows : List Row) (r : ColRel) :
    r.SameHeader (r.appendRows fails i rows).2 := by
  induction rows generalizing i r with
  | nil => exact ⟨rfl, rfl⟩
  | cons row rest ih =>
    obtain ⟨header, _⟩ := r.appendRow_spec (fails i) row
    rw [ColRel.appendRows]
    split
    · rename_i r' appended
      rw [appended] at header
      have later := ih (i + 1) r'
      exact ⟨later.name.trans header.name, later.columnTypes.trans header.columnTypes⟩
    · exact header

theorem ColRel.insertRows_header : r.SameHeader (r.insertRows faults declared batch).2 := by
  unfold ColRel.insertRows
  split
  · split
    · exact ⟨rfl, rfl⟩
    obtain ⟨header, _⟩ := r.setSchema_spec faults batch.numCols
    split
    · rename_i r' ready
      rw [ready] at header
      have later := r'.appendRows_header faults.append 0 batch.rows
      exact ⟨later.name.trans header.name, later.columnTypes.trans header.columnTypes⟩
    · exact header
  · split
    · exact ⟨rfl, rfl⟩
    · exact r.appendRows_header faults.append 0 batch.rows

/-! ## The loop over the rows -/

/-- The row can be appended: its `FLOAT` cells are finite and there is memory for it. -/
def accepts (i : Nat) (row : Row) : Bool :=
  rowFinite types row && !fails i

/-- How many rows are appended before one is refused. -/
def acceptedCount : Nat → List Row → Nat
  | _, [] => 0
  | i, row :: rest =>
    if accepts types fails i row then acceptedCount (i + 1) rest + 1 else 0

theorem ColRel.appendRows_spec {r : ColRel} {fails : Nat → Bool} {i : Nat} (rows : List Row)
    (width : ∀ row ∈ rows, row.cells.length = r.ncols) :
    ((r.appendRows fails i rows).1 = .ok ↔
        acceptedCount r.columnTypes fails i rows = rows.length) ∧
      (r.appendRows fails i rows).2.rows = r.rows ++
        (rows.take (acceptedCount r.columnTypes fails i rows)).map (storedRow r.columnTypes) := by
  induction rows generalizing r i with
  | nil => simp [appendRows, acceptedCount]
  | cons row rest ih =>
    have here := width row mem_cons_self
    by_cases accepted : accepts r.columnTypes fails i row = true
    · obtain ⟨finite, granted⟩ : rowFinite r.columnTypes row = true ∧ fails i = false := by
        simpa [accepts] using accepted
      have appended : (r.appendRow (fails i) row).1 = .ok := by
        simp [appendRow, here, finite, granted]
      obtain ⟨header, stored⟩ := r.appendRow_spec (fails i) row
      have ncols : (r.appendRow (fails i) row).2.ncols = r.ncols := by
        simp [appendRow, here, finite, granted]
      rw [if_pos appended] at stored
      obtain ⟨ok, later⟩ := @ih (r.appendRow (fails i) row).2 (i + 1) fun row member => by
        rw [ncols]
        exact width row (mem_cons_of_mem _ member)
      rw [header.columnTypes] at ok later
      rw [appendRows, outcome_eq appended]
      simp [acceptedCount, accepted, ok, later, stored]
    · have failed : (r.appendRow (fails i) row).1 ≠ .ok ∧ (r.appendRow (fails i) row).2 = r := by
        simp only [accepts, Bool.and_eq_true, Bool.not_eq_true', not_and] at accepted
        unfold appendRow
        rw [dif_pos here]
        split_ifs with finite failing <;> simp_all
      rw [appendRows]
      split
      · rename_i ok
        exact absurd (congrArg Prod.fst ok) failed.1
      · simp [acceptedCount, accepted, failed]

def ColRel.reachesRows : Bool :=
  if r.ncols = 0 then
    (declared = 0 || batch.numCols = declared) && (r.setSchema faults batch.numCols).1 = .ok
  else r.ncols = batch.numCols

def ColRel.insertedCount : Nat :=
  if r.reachesRows faults declared batch then
    acceptedCount r.columnTypes faults.append 0 batch.rows
  else 0

theorem ColRel.setSchema_ncols {faults : InsertFaults} {r : ColRel} {ncols : Nat}
    (none : r.ncols = 0) (ok : (r.setSchema faults ncols).1 = .ok) :
    (r.setSchema faults ncols).2.ncols = ncols := by
  unfold setSchema at ok ⊢
  split_ifs at ok ⊢ <;> simp_all

theorem ColRel.insertRows_spec {faults : InsertFaults} {declared : Nat} {batch : Batch}
    {r : ColRel} (some : batch.rows ≠ []) :
    ((r.insertRows faults declared batch).1 = .ok ↔
        r.insertedCount faults declared batch = batch.rows.length) ∧
      (r.insertRows faults declared batch).2.rows = r.rows ++
        (batch.rows.take (r.insertedCount faults declared batch)).map
          (storedRow r.columnTypes) := by
  have positive : 0 ≠ batch.rows.length := fun none => some (length_eq_zero_iff.mp none.symm)
  unfold insertRows insertedCount reachesRows
  by_cases none : r.ncols = 0
  · obtain ⟨header, rows⟩ := r.setSchema_spec faults batch.numCols
    simp only [if_pos none]
    split
    · rename_i undeclared
      simp [undeclared.1, undeclared.2, positive]
    rename_i allowed
    have declares : declared = 0 ∨ batch.numCols = declared := by tauto
    split
    · rename_i r' ready
      rw [ready] at header rows
      have loop := @appendRows_spec r' faults.append 0 batch.rows fun row member => by
        have ncols := setSchema_ncols none (congrArg Prod.fst ready)
        rw [batch.width row member, ← ncols, ready]
      rw [header.columnTypes, rows] at loop
      simpa [ready, declares] using loop
    · rename_i unready
      have failed : (r.setSchema faults batch.numCols).1 ≠ .ok := fun ok =>
        unready _ (outcome_eq ok)
      simp [failed, rows, positive]
  · simp only [if_neg none]
    split
    · rename_i other
      simp [other, positive]
    rename_i same
    rw [not_not] at same
    simpa [same] using @appendRows_spec r faults.append 0 batch.rows fun row member => by
      rw [batch.width row member, same]

/-! ## The two operations of the session -/

variable (declared : String → Nat) (s : Session)

variable (relation : String)

/-- The common part of the two inserts. A batch that fails may have changed the relation. -/
def Session.insertInto (batch : Batch) : Rc × Session :=
  match s.findRel relation with
  | none => (.enoent, s)
  | some r =>
    ((r.insertRows faults (declared relation) batch).1,
      s.mapRel relation (fun r => (r.insertRows faults (declared relation) batch).2)
        fun r => (r.insertRows_header faults (declared relation) batch).name)

/-- `session_note_inserted_input`. -/
def Session.noteInsertedInput (advanceEpoch : Bool) : Session :=
  { s with
    outerEpoch := if advanceEpoch then s.outerEpoch + 1 else s.outerEpoch
    pendingInputChange := true
    snapshotStableValid := false }

def colSessionInsertIncremental (batch : Batch) : Rc × Session :=
  if batch.rows = [] then (.ok, s)
  else
    match s.insertInto faults declared relation batch with
    | (.ok, s') => (.ok, s'.noteInsertedInput true)
    | failed => failed

def colSessionInsert (batch : Batch) : Rc × Session :=
  if batch.rows = [] then (.ok, s)
  else if s.deltaCb then colSessionInsertIncremental faults declared s relation batch
  else
    match s.insertInto faults declared relation batch with
    | (.ok, s') => (.ok, s'.noteInsertedInput false)
    | failed => failed

def Session.typesOf (name : String) : List ColumnType :=
  ((s.findRel name).map ColRel.columnTypes).getD []

/-- How many rows an insert appends to a relation, if it exists. -/
def Session.insertedCount (faults : InsertFaults) (declared : String → Nat) (s : Session)
    (relation : String) (batch : Batch) : Nat :=
  ((s.findRel relation).map (·.insertedCount faults (declared relation) batch)).getD 0

section Inserting

variable {faults : InsertFaults} {declared : String → Nat} {s : Session} {relation : String}
  {batch : Batch}

/-- What both inserts do to a session, apart from the notes. -/
theorem insertInto_spec (some : batch.rows ≠ []) :
    ((s.insertInto faults declared relation batch).1 = .ok ↔
        s.insertedCount faults declared relation batch = batch.rows.length) ∧
      (s.insertInto faults declared relation batch).2.rowsOf = update s.rowsOf relation
        (s.rowsOf relation ++ (batch.rows.take
          (s.insertedCount faults declared relation batch)).map (storedRow (s.typesOf relation))) ∧
      (s.insertInto faults declared relation batch).2.typesOf = s.typesOf ∧
      (s.insertInto faults declared relation batch).2 =
        { s with rels := (s.insertInto faults declared relation batch).2.rels } := by
  unfold Session.insertInto Session.insertedCount
  cases found : s.findRel relation with
  | none =>
    have positive : 0 ≠ batch.rows.length := fun none => some (length_eq_zero_iff.mp none.symm)
    simp [positive]
  | some r =>
    have spec := @ColRel.insertRows_spec faults (declared relation) batch r some
    have header := r.insertRows_header faults (declared relation) batch
    refine ⟨spec.1, ?_, ?_, rfl⟩
    all_goals
      funext name
      by_cases same : name = relation
    · subst same
      simp [Session.rowsOf, Session.typesOf, found, spec.2]
    · simp [Session.rowsOf, same]
    · subst same
      simp [Session.typesOf, found, header.columnTypes]
    · simp [Session.typesOf, same]

/-- Both inserts note the change when it is made. -/
theorem insert_eq_noted (some : batch.rows ≠ []) (incremental : Bool) :
    ∃ advance, (if incremental then colSessionInsertIncremental faults declared s relation batch
        else colSessionInsert faults declared s relation batch) =
      ((s.insertInto faults declared relation batch).1,
        if (s.insertInto faults declared relation batch).1 = .ok then
          (s.insertInto faults declared relation batch).2.noteInsertedInput advance
        else (s.insertInto faults declared relation batch).2) := by
  refine ⟨incremental || s.deltaCb, ?_⟩
  unfold colSessionInsert colSessionInsertIncremental
  rcases s.insertInto faults declared relation batch with ⟨rc, s'⟩
  cases incremental <;> cases s.deltaCb <;> cases rc <;> simp [some]

end Inserting

/-! ## One row -/

theorem one_lt_countLimit : 1 < 2 ^ 32 := by decide

def oneRow : Batch where
  numCols := row.cells.length
  rows := [row]
  width := fun other member => by rw [mem_singleton.mp member]
  count_lt := one_lt_countLimit

/-- What the calls for single rows depend on in a relation. -/
structure RelView where
  columns : Nat
  types : List ColumnType
  rows : List Row

def ColRel.view (r : ColRel) : RelView := ⟨r.ncols, r.columnTypes, r.rows⟩

def Session.viewOf (name : String) : Option RelView := (s.findRel name).map ColRel.view

namespace RelView

variable (v : RelView)

/-- The first row gives a relation its columns. -/
def insertRow : RelView where
  columns := if v.columns = 0 then row.cells.length else v.columns
  types := v.types
  rows := v.rows ++ [storedRow v.types row]

def removeRow : RelView := { v with rows := v.rows.erase row }

def appendRc (fails : Bool) : Rc :=
  if rowFinite v.types row then if fails then .enomem else .ok else .einval

/-- The answer to an insertion of the row; `declared` is the width of the relation in the program,
or 0. -/
def insertRc (faults : InsertFaults) (declared : Nat) : Rc :=
  if v.columns = 0 then
    if declared ≠ 0 ∧ row.cells.length ≠ declared then .einval
    else if faults.schema then .enomem
    else if faults.arrow then .einval
    else if v.rows = [] then v.appendRc row (faults.append 0)
    else .undefined
  else if v.columns = row.cells.length then v.appendRc row (faults.append 0)
  else .einval

/-- The answer to a removal of the row, with a delta callback or without. -/
def removeRc (faults : RemoveFaults) (deltaCb : Bool) (relation : String) : Rc :=
  let noBuffer := row.cells.length > colStackMax ∧ faults.rowBuf
  if v.columns = 0 then .ok
  else if v.columns ≠ row.cells.length then .einval
  else if deltaCb then
    if faults.newAuto then .enomem
    else if faults.rowScratch ∧ v.rows ≠ [] then .undefined
    else if row ∈ v.rows ∧ faults.append 0 ∨ noBuffer then .enomem
    else if removalName relation = relation then .undefined
    else if faults.addRel then .enomem
    else .ok
  else if noBuffer then .enomem
  else .ok

end RelView

section OneRow

variable {row} {r : ColRel}

theorem removeLoop_oneRow (rows : List Row) : removeLoop (oneRow row) rows 0 = rows.erase row := by
  rw [removeLoop_eq_erase (oneRow row) (by decide : 1 + 1 < 2 ^ 32), drop_zero]
  by_cases stored : row ∈ rows
  · simp [oneRow, stored]
  · simp [oneRow, stored, erase_of_not_mem]

theorem ColRel.appendRows_singleton (fails : Nat → Bool) :
    r.appendRows fails 0 [row] = r.appendRow (fails 0) row := by
  unfold appendRows
  split
  · rename_i r' appended
    rw [appended, appendRows]
  · rfl

theorem ColRel.appendRow_view {fails : Bool} (width : row.cells.length = r.ncols) :
    let out := r.appendRow fails row
    out.1 = r.view.appendRc row fails ∧
      (out.1 = .ok → out.2.view = { r.view with rows := r.rows ++ [storedRow r.columnTypes row] }) ∧
      (out.1 ≠ .ok → out.2.view = r.view) := by
  unfold appendRow RelView.appendRc
  rw [dif_pos width]
  by_cases finite : rowFinite r.columnTypes row = true
  · cases fails <;> simp [finite, view]
  · simp [finite, view]

theorem colSessionRemove_rc {faults : RemoveFaults} {s : Session} {relation : String} {r : ColRel}
    (found : s.findRel relation = some r) :
    let out := colSessionRemove faults s relation (oneRow row)
    out.1 = r.view.removeRc row faults s.deltaCb relation ∧ out.2.deltaCb = s.deltaCb := by
  obtain rfl := Session.name_of_findRel found
  have recorded : collectRemoved faults.append r.rows (oneRow row).rows [] = none ↔
      row ∈ r.rows ∧ faults.append 0 = true := by
    by_cases stored : row ∈ r.rows <;> cases fails : faults.append 0 <;>
      simp [oneRow, collectRemoved, stored, fails]
  unfold colSessionRemove colSessionRemoveIncremental RelView.removeRc
  rw [show (oneRow row).numCols = row.cells.length from rfl,
    show r.view.columns = r.ncols from rfl, show r.view.rows = r.rows from rfl]
  simp only [found]
  by_cases empty : r.ncols = 0
  · simp [empty]
  by_cases width : r.ncols = row.cells.length
  · rw [if_neg empty, if_neg empty, if_neg empty, if_neg (not_not.mpr width),
      if_neg (not_not.mpr width), if_neg (not_not.mpr width)]
    cases callback : s.deltaCb with
    | false => split_ifs <;> simp_all [Session.dropRows, Session.mapRel]
    | true =>
      simp only [if_true]
      cases faults.newAuto with
      | true => simp [callback]
      | false =>
        by_cases scratch : faults.rowScratch = true ∧ r.rows ≠ []
        · simp [oneRow, scratch, callback]
        have clear : ¬ (faults.rowScratch = true ∧ (oneRow row).rows ≠ [] ∧ r.rows ≠ []) :=
          fun unclear => scratch ⟨unclear.1, unclear.2.2⟩
        rw [if_neg Bool.false_ne_true, if_neg Bool.false_ne_true, if_neg clear, if_neg scratch]
        split
        · rename_i none
          simp [recorded.mp none, callback]
        · rename_i some collected
          have stays : ¬ (row ∈ r.rows ∧ faults.append 0 = true) := by
            rw [← recorded, collected]
            simp
          simp only [stays, false_or]
          split_ifs <;> simp [callback, Session.retract, Session.mapRel, Session.addRel,
            Session.removeRel]
  · simp [empty, width]

variable (cells : row.cells ≠ [])
include cells

theorem ColRel.insertRows_view (faults : InsertFaults) (declared : Nat) :
    let out := r.insertRows faults declared (oneRow row)
    out.1 = r.view.insertRc row faults declared ∧
      (out.1 = .ok → out.2.view = r.view.insertRow row) ∧
      (out.1 ≠ .ok → ∃ columns, out.2.view = { r.view with columns := columns } ∧
        (r.ncols ≠ 0 → columns = r.ncols)) := by
  have wide : row.cells.length ≠ 0 := fun none => cells (length_eq_zero_iff.mp none)
  unfold insertRows RelView.insertRc RelView.insertRow setSchema
  rw [show (oneRow row).numCols = row.cells.length from rfl,
    show (oneRow row).rows = [row] from rfl]
  by_cases fresh : r.ncols = 0
  · have fresh' : r.view.columns = 0 := fresh
    simp only [fresh, fresh', ne_eq, not_true, if_true, if_false, wide]
    by_cases other : ¬ declared = 0 ∧ ¬ row.cells.length = declared
    · simp [other, view]
    rw [if_neg other, if_neg other]
    cases faults.schema with
    | true => simp [view]
    | false =>
      cases faults.arrow with
      | true => simp [view]
      | false =>
        by_cases empty : r.rows = []
        · -- the relation gets its columns, and then the row is appended
          have now := @appendRow_view row { r with
            ncols := row.cells.length
            allocated := true
            width := fun row member => by simp [empty] at member
            stored := fun _ _ => rfl } (faults.append 0) rfl
          simp only [appendRows_singleton, Bool.false_eq_true, if_false, dif_pos empty]
          obtain ⟨answer, stored, kept⟩ := now
          refine ⟨?_, ?_, ?_⟩
          · simpa [view, empty, RelView.appendRc] using answer
          · simpa [view] using stored
          · intro failed
            exact ⟨row.cells.length, kept failed, by simp⟩
        · simp [empty, view]
  · by_cases same : r.ncols = row.cells.length
    · have appended := @appendRow_view row r (faults.append 0) same.symm
      simp_all [view, appendRows_singleton]
    · simp [view, fresh, same]

/-- **One row is inserted, or the rows stay.** -/
theorem colSessionInsert_view {faults : InsertFaults} {declared : String → Nat} {s : Session}
    {relation : String} {v : RelView} (here : s.viewOf relation = some v) :
    let out := colSessionInsert faults declared s relation (oneRow row)
    out.1 = v.insertRc row faults (declared relation) ∧ out.2.deltaCb = s.deltaCb ∧
      (out.1 = .ok → out.2.viewOf relation = some (v.insertRow row)) ∧
      (out.1 ≠ .ok → ∃ columns, out.2.viewOf relation = some { v with columns := columns } ∧
        (v.columns ≠ 0 → columns = v.columns)) := by
  obtain ⟨r, found, rfl⟩ := Option.map_eq_some_iff.mp here
  obtain ⟨advance, out⟩ :=
    @insert_eq_noted faults declared s relation (oneRow row) (cons_ne_nil _ _) false
  simp only [Bool.false_eq_true, if_false, Session.insertInto, found] at out
  obtain ⟨answer, stored, kept⟩ := @ColRel.insertRows_view row r cells faults (declared relation)
  have after := congrArg (Option.map ColRel.view) (s.findRel_mapRel relation relation
    (fun r => (r.insertRows faults (declared relation) (oneRow row)).2)
    fun r => (r.insertRows_header faults (declared relation) (oneRow row)).name)
  rw [if_pos rfl, found, Option.map_some, Option.map_some] at after
  simp only [out]
  by_cases done : (r.insertRows faults (declared relation) (oneRow row)).1 = .ok
  · rw [if_pos done]
    refine ⟨answer, rfl, fun _ => ?_, fun failed => absurd done failed⟩
    exact after.trans (congrArg some (stored done))
  · rw [if_neg done]
    obtain ⟨columns, view, same⟩ := kept done
    refine ⟨answer, rfl, fun ok => absurd ok done, fun _ => ⟨columns, ?_, same⟩⟩
    exact after.trans (congrArg some view)

/-- **One occurrence of a row is taken out, or the relation stays.** -/
theorem colSessionRemove_view {faults : RemoveFaults} {s : Session} {relation : String}
    {v : RelView} (here : s.viewOf relation = some v) :
    let out := colSessionRemove faults s relation (oneRow row)
    out.1 = v.removeRc row faults s.deltaCb relation ∧ out.2.deltaCb = s.deltaCb ∧
      (out.1 = .ok → out.2.viewOf relation = some (v.removeRow row)) ∧
      (out.1 ≠ .ok → out.2.viewOf relation = some v) := by
  obtain ⟨r, found, rfl⟩ := Option.map_eq_some_iff.mp here
  have answered := @colSessionRemove_rc row faults s relation r found
  have outcome := colSessionRemove_outcome faults s relation (oneRow row)
  generalize colSessionRemove faults s relation (oneRow row) = out at outcome answered ⊢
  refine ⟨answered.1, answered.2, ?_⟩
  cases outcome with
  | refused failed same =>
    refine ⟨fun ok => absurd ok failed, fun _ => ?_⟩
    rw [Session.viewOf, same]
    exact here
  | uninitialised found' empty =>
    obtain rfl := Option.some.inj (found.symm.trans found')
    -- a relation without columns does not hold a row with cells
    have absent : row ∉ r.rows := by
      intro stored
      have width := r.width row stored
      rw [empty] at width
      exact cells (length_eq_zero_iff.mp width)
    refine ⟨fun _ => here.trans ?_, fun failed => absurd rfl failed⟩
    simp [RelView.removeRow, ColRel.view, erase_of_not_mem absent]
  | removed found' _ there rows header _ =>
    obtain rfl := Option.some.inj (found.symm.trans found')
    refine ⟨fun _ => ?_, fun failed => absurd rfl failed⟩
    rw [removeLoop_oneRow] at rows
    simp [Session.viewOf, there, ColRel.view, RelView.removeRow, rows, header]

end OneRow

end Wirelog.Columnar

import Wirelog.Foundations.ByteFields
import Wirelog.Columnar.Session

/-!
# Removing input rows from a session

`col_session_remove` takes a batch of rows out of an input relation; with a delta
callback set it goes through `col_session_remove_incremental`, which also records
the removed rows in the relation `$r$<name>` for the next step.

Both run the same nested loop. The inner loop looks for the first stored row equal
to the batch row and closes the gap in place (`compactOne`); it is `List.erase`
(`compactOne_eq`). When it has removed a row it assigns the batch counter the row
count of the batch, which ends the outer loop (`removeLoop_eq_erase`): one row is
removed, whatever the batch holds. Only for a batch of `2 ^ 32 - 1` rows does the
increment wrap to zero and start the batch anew, and then every stored row that the
batch names goes (`removeLoop_eq_filter`).

`removeLoop` is therefore the multiset difference only on the batches described by
`RemovalHarmless`, and `colSessionRemove_exact_iff` says that on these, and on no
others, a successful removal does what it is for.
-/

set_option autoImplicit false

namespace Wirelog.Columnar

open Foundations List

/-! ## Closing the gap in place -/

/-- `col_rel_row_move_raw`. -/
def rowMoveRaw (slots : List Row) (dst src : Nat) : List Row :=
  if dst = src then slots
  else
    match slots[src]? with
    | some row => slots.set dst row
    | none => slots

/-- The loop that moves the rows from `rest` on down to `outR`, with the count of rows
that are left to move. -/
def moveRest : Nat → List Row → Nat → Nat → List Row × Nat
  | 0, slots, outR, _ => (slots, outR)
  | left + 1, slots, outR, rest =>
    moveRest left (rowMoveRaw slots outR rest) (outR + 1) (rest + 1)

/-- The scan for the first row equal to `del`: rows before it stay (they are written back
when the output cursor lags behind), rows after it move down by one. Returns whether a row
was removed, the slots, and the new row count. -/
def scanDelete (del : Row) : Nat → List Row → Nat → Nat → Bool × List Row × Nat
  | 0, slots, outR, _ => (false, slots, outR)
  | left + 1, slots, outR, ri =>
    match slots[ri]? with
    | none => (false, slots, outR)
    | some row =>
      if row ≠ del then
        scanDelete del left (if outR ≠ ri then slots.set outR row else slots) (outR + 1) (ri + 1)
      else (true, moveRest left slots outR (ri + 1))

/-- One pass of the outer loop: whether a row was removed, and the rows that remain. -/
def compactOne (rows : List Row) (del : Row) : Bool × List Row :=
  let result := scanDelete del rows.length rows 0 0
  (result.1, result.2.1.take result.2.2)

theorem moveRest_take (left : Nat) (slots : List Row) (outR rest : Nat) (lag : outR ≤ rest)
    (bound : rest + left = slots.length) :
    (moveRest left slots outR rest).1.take (moveRest left slots outR rest).2 =
      slots.take outR ++ slots.drop rest := by
  induction left generalizing slots outR rest with
  | zero =>
    have ended : slots.drop rest = [] := drop_eq_nil_of_le (by omega)
    simp [moveRest, ended]
  | succ left ih =>
    have inside : rest < slots.length := by omega
    have moved : rowMoveRaw slots outR rest = slots.set outR slots[rest] := by
      unfold rowMoveRaw
      split
      · rename_i same
        subst same
        exact (set_getElem_self inside).symm
      · simp [inside]
    have cell : (slots.set outR slots[rest]).take (outR + 1) =
        slots.take outR ++ [slots[rest]] := by
      rw [take_add_one, take_set_of_le (le_refl outR)]
      simp [show outR < slots.length by omega]
    rw [moveRest, moved, ih _ _ _ (by omega) (by rw [length_set]; omega), cell,
      drop_set_of_lt (by omega), append_assoc, drop_eq_getElem_cons inside]
    rfl

/-- The scan leaves the rows before its cursor alone and erases the row from the rest. -/
theorem scanDelete_spec (del : Row) (left : Nat) (slots : List Row) (ri : Nat)
    (bound : ri + left = slots.length) :
    (scanDelete del left slots ri ri).1 = decide (del ∈ slots.drop ri) ∧
    (scanDelete del left slots ri ri).2.1.take (scanDelete del left slots ri ri).2.2 =
      slots.take ri ++ (slots.drop ri).erase del := by
  induction left generalizing ri with
  | zero =>
    have ended : slots.drop ri = [] := drop_eq_nil_of_le (by omega)
    simp [scanDelete, ended]
  | succ left ih =>
    have inside : ri < slots.length := by omega
    have head := drop_eq_getElem_cons inside
    by_cases same : slots[ri] = del
    · have moved := moveRest_take left slots ri (ri + 1) (by omega) (by omega)
      simp [scanDelete, inside, same, head, moved]
    obtain ⟨found, rows⟩ := ih (ri + 1) (by omega)
    have split : slots.take (ri + 1) = slots.take ri ++ [slots[ri]] :=
      (take_append_getElem inside).symm
    have scanned : scanDelete del (left + 1) slots ri ri =
        scanDelete del left slots (ri + 1) (ri + 1) := by
      simp [scanDelete, inside, same]
    rw [scanned, found, rows, split, head, erase_cons_tail (by simpa using same)]
    simp only [mem_cons, Ne.symm same, false_or, append_assoc, singleton_append, and_self]

/-- **One pass of the loop erases the first row equal to the batch row.** -/
theorem compactOne_eq (rows : List Row) (del : Row) :
    compactOne rows del = (decide (del ∈ rows), rows.erase del) := by
  obtain ⟨found, kept⟩ := scanDelete_spec del rows.length rows 0 (by omega)
  simp only [compactOne, found]
  simpa using kept

/-! ## The loop over the batch -/

/-- The batch counter of the next pass: a removal sets it to the row count of the batch,
and every pass ends with the `uint32_t` increment. -/
def nextDi (batch : Batch) (removed : Bool) (di : Nat) : Nat :=
  ((if removed then batch.rows.length else di) + 1) % 2 ^ 32

def removeLoop (batch : Batch) (rows : List Row) (di : Nat) : List Row :=
  if inBatch : di < batch.rows.length then
    let pass := compactOne rows batch.rows[di]
    removeLoop batch pass.2 (nextDi batch pass.1 di)
  else rows
termination_by (rows.length, batch.rows.length - di)
decreasing_by
  have count := batch.count_lt
  rw [compactOne_eq, Prod.lex_def]
  by_cases member : batch.rows[di] ∈ rows
  · have shorter := length_erase_of_mem member
    have := length_pos_of_mem member
    exact Or.inl (by simp only; omega)
  · have next : (di + 1) % 2 ^ 32 = di + 1 := Nat.mod_eq_of_lt (by omega)
    refine Or.inr ⟨by simp only [erase_of_not_mem member], ?_⟩
    simp only [member, decide_false, nextDi, Bool.false_eq_true, if_false, next]
    omega

theorem removeLoop_done {batch : Batch} {di : Nat} (past : batch.rows.length ≤ di)
    (rows : List Row) : removeLoop batch rows di = rows := by
  rw [removeLoop, dif_neg (by omega)]

theorem removeLoop_found {batch : Batch} {rows : List Row} {di : Nat}
    (inBatch : di < batch.rows.length) (member : batch.rows[di] ∈ rows) :
    removeLoop batch rows di =
      removeLoop batch (rows.erase batch.rows[di]) ((batch.rows.length + 1) % 2 ^ 32) := by
  rw [removeLoop, dif_pos inBatch]
  simp [compactOne_eq, member, nextDi]

theorem removeLoop_missed {batch : Batch} {rows : List Row} {di : Nat}
    (inBatch : di < batch.rows.length) (absent : batch.rows[di] ∉ rows) :
    removeLoop batch rows di = removeLoop batch rows (di + 1) := by
  have count := batch.count_lt
  have next : (di + 1) % 2 ^ 32 = di + 1 := Nat.mod_eq_of_lt (by omega)
  rw [removeLoop, dif_pos inBatch]
  simp only [compactOne_eq, absent, decide_false, nextDi, Bool.false_eq_true, if_false, next,
    erase_of_not_mem absent]

/-- The first batch row from `di` on that is stored is the only row removed. -/
theorem removeLoop_eq_erase (batch : Batch) (small : batch.rows.length + 1 < 2 ^ 32)
    (rows : List Row) (di : Nat) :
    removeLoop batch rows di =
      match (batch.rows.drop di).find? (· ∈ rows) with
      | some del => rows.erase del
      | none => rows := by
  induction left : batch.rows.length - di generalizing di with
  | zero =>
    have past : batch.rows.length ≤ di := by omega
    simp [removeLoop_done past, drop_eq_nil_of_le past]
  | succ left ih =>
    have inBatch : di < batch.rows.length := by omega
    rw [drop_eq_getElem_cons inBatch, List.find?_cons]
    by_cases member : batch.rows[di] ∈ rows
    · rw [removeLoop_found inBatch member, Nat.mod_eq_of_lt small, removeLoop_done (Nat.le_succ _)]
      simp [member]
    · rw [removeLoop_missed inBatch member, ih (di + 1) (by omega)]
      simp [member]

/-- Erasing a row that a filter drops does not show in the filtered rows. -/
theorem filter_erase_of_dropped {keep : Row → Bool} {del : Row} (dropped : keep del = false)
    (rows : List Row) : (rows.erase del).filter keep = rows.filter keep := by
  induction rows with
  | nil => rfl
  | cons row rest ih =>
    by_cases same : row = del
    · subst same
      simp [dropped]
    · rw [erase_cons_tail (by simpa using same), filter_cons, filter_cons, ih]

/-- With `2 ^ 32 - 1` batch rows each removal starts the batch anew, so that in the end no
row that the batch names is stored. -/
theorem removeLoop_eq_filter (batch : Batch) (full : batch.rows.length + 1 = 2 ^ 32)
    (rows : List Row) (di : Nat) (before : ∀ del ∈ batch.rows.take di, del ∉ rows) :
    removeLoop batch rows di = rows.filter (· ∉ batch.rows) := by
  by_cases inBatch : di < batch.rows.length
  · by_cases member : batch.rows[di] ∈ rows
    · have shorter := length_erase_of_mem member
      have := length_pos_of_mem member
      rw [removeLoop_found inBatch member, full, Nat.mod_self,
        removeLoop_eq_filter batch full _ 0 (by simp)]
      exact filter_erase_of_dropped (by simp) rows
    · rw [removeLoop_missed inBatch member]
      refine removeLoop_eq_filter batch full rows (di + 1) fun del named => ?_
      rw [← take_append_getElem inBatch, mem_append, mem_singleton] at named
      rcases named with named | rfl
      · exact before del named
      · exact member
  · have past : batch.rows.length ≤ di := by omega
    rw [removeLoop_done past]
    refine (filter_eq_self.mpr fun row stored => ?_).symm
    rw [take_of_length_le past] at before
    exact decide_eq_true fun named => before row named stored
termination_by (rows.length, batch.rows.length - di)

theorem removeLoop_sublist (batch : Batch) (rows : List Row) (di : Nat) :
    (removeLoop batch rows di).Sublist rows := by
  fun_induction removeLoop batch rows di with
  | case1 rows di inBatch pass ih =>
    have erased : pass.2 = rows.erase batch.rows[di] := by simp [pass, compactOne_eq]
    exact ih.trans (erased ▸ erase_sublist)
  | case2 rows di past => exact List.Sublist.refl rows

/-- Rows that the batch does not name keep their relative order. -/
theorem removeLoop_filter_unnamed (batch : Batch) (rows : List Row) :
    (removeLoop batch rows 0).filter (· ∉ batch.rows) = rows.filter (· ∉ batch.rows) := by
  by_cases small : batch.rows.length + 1 < 2 ^ 32
  · rw [removeLoop_eq_erase batch small]
    split
    · rename_i del found
      have named : del ∈ batch.rows := mem_of_find?_eq_some found
      exact filter_erase_of_dropped (by simpa using named) rows
    · rfl
  · have full : batch.rows.length + 1 = 2 ^ 32 := by
      have := batch.count_lt
      omega
    rw [removeLoop_eq_filter batch full rows 0 (by simp), filter_filter]
    simp

/-! ## When one erased row is the whole difference -/

section Difference

variable {rows batch : List Row} {del : Row}

theorem count_erase_eq (row : Row) :
    (rows.erase del).count row = rows.count row - if row = del then 1 else 0 := by
  by_cases same : row = del
  · subst same
    simp
  · simp [count_erase_of_ne same, same]

/-- One erased row is the multiset difference exactly when rows and batch share at most one
occurrence. -/
theorem erase_subtracts_iff (stored : del ∈ rows) (named : del ∈ batch) :
    (∀ row, (rows.erase del).count row = rows.count row - batch.count row) ↔
      ((rows : Multiset Row) ∩ (batch : Multiset Row)).card ≤ 1 := by
  have storedPos := count_pos_iff.mpr stored
  have namedPos := count_pos_iff.mpr named
  have shared : del ∈ (rows : Multiset Row) ∩ (batch : Multiset Row) := by simp [stored, named]
  constructor
  · intro exact_
    have single : (rows : Multiset Row) ∩ (batch : Multiset Row) = {del} := by
      ext row
      have here := exact_ row
      rw [count_erase_eq] at here
      simp only [Multiset.count_inter, Multiset.coe_count, Multiset.count_singleton]
      split at here
      · rename_i same
        subst same
        simp only [if_true]
        omega
      · rename_i other
        simp only [other, if_false]
        omega
    simp [single]
  · intro atMostOne row
    have single : (rows : Multiset Row) ∩ (batch : Multiset Row) = {del} := by
      obtain ⟨rest, split⟩ := Multiset.exists_cons_of_mem shared
      rw [split, Multiset.card_cons] at atMostOne
      rw [split, Multiset.card_eq_zero.mp (by omega : rest.card = 0)]
      rfl
    have here := congrArg (Multiset.count row) single
    simp only [Multiset.count_inter, Multiset.coe_count, Multiset.count_singleton] at here
    rw [count_erase_eq]
    split
    · rename_i same
      subst same
      simp only [if_true] at here
      omega
    · rename_i other
      simp only [other, if_false] at here
      omega

/-- The batch rows that are stored record one erased row exactly when they are a single one;
then the erased row is the multiset difference as well. -/
theorem erase_recorded_iff (stored : del ∈ rows) (named : del ∈ batch) :
    ((∀ row, (rows.erase del).count row = rows.count row - batch.count row) ∧
      ∀ row, (batch.filter (· ∈ rows)).count row = rows.count row - (rows.erase del).count row) ↔
      (batch.filter (· ∈ rows)).length ≤ 1 := by
  have recorded : del ∈ batch.filter (· ∈ rows) := by simp [stored, named]
  have storedPos := count_pos_iff.mpr stored
  constructor
  · rintro ⟨_, delta⟩
    have single : (batch.filter (· ∈ rows)).Perm [del] := by
      rw [perm_iff_count]
      intro row
      rw [delta row, count_erase_eq, count_singleton]
      by_cases same : row = del
      · subst same
        simp only [if_true, beq_self_eq_true]
        omega
      · simp [same, Ne.symm same]
    exact single.length_eq.le
  · intro atMostOne
    have single : batch.filter (· ∈ rows) = [del] := by
      obtain ⟨row, only⟩ := length_eq_one_iff.mp
        (le_antisymm atMostOne (length_pos_of_mem recorded))
      rw [only, mem_singleton] at recorded
      rw [only, recorded]
    have counts : ∀ row, row ∈ rows → batch.count row = if row = del then 1 else 0 := by
      intro row member
      have here := count_filter (p := (· ∈ rows)) (l := batch) (a := row) (by simpa using member)
      rw [single, count_singleton] at here
      rw [← here]
      by_cases same : row = del
      · simp [same]
      · simp [same, Ne.symm same]
    have outcome : ∀ row, (rows.erase del).count row = rows.count row - batch.count row := by
      intro row
      rw [count_erase_eq]
      by_cases member : row ∈ rows
      · rw [counts row member]
      · simp [count_eq_zero_of_not_mem member]
    refine ⟨outcome, fun row => ?_⟩
    rw [single, count_erase_eq, count_singleton]
    by_cases same : row = del
    · subst same
      simp only [if_true, beq_self_eq_true]
      omega
    · simp [same, Ne.symm same]

theorem count_filter_ite (keep : Row → Bool) (row : Row) :
    (rows.filter keep).count row = if keep row then rows.count row else 0 := by
  split
  · rename_i kept
    exact count_filter kept
  · rename_i dropped
    exact count_eq_zero_of_not_mem fun member => dropped (mem_filter.mp member).2

/-- Dropping all named rows is the multiset difference exactly when the batch names all their
occurrences. -/
theorem filter_subtracts_iff :
    (∀ row, (rows.filter (· ∉ batch)).count row = rows.count row - batch.count row) ↔
      ∀ row ∈ batch, rows.count row ≤ batch.count row := by
  constructor
  · intro exact_ row named
    have here := exact_ row
    simp only [count_filter_ite, named, not_true, decide_false, Bool.false_eq_true,
      if_false] at here
    omega
  · intro covered row
    by_cases named : row ∈ batch
    · have := covered row named
      simp only [count_filter_ite, named, not_true, decide_false, Bool.false_eq_true, if_false]
      omega
    · simp [named, count_eq_zero_of_not_mem named]

/-- The stored batch rows record the dropped rows exactly when the batch names each stored row
as often as it is stored. -/
theorem filter_recorded_iff :
    ((∀ row, (rows.filter (· ∉ batch)).count row = rows.count row - batch.count row) ∧
      ∀ row, (batch.filter (· ∈ rows)).count row =
        rows.count row - (rows.filter (· ∉ batch)).count row) ↔
      ∀ row ∈ batch, row ∈ rows → batch.count row = rows.count row := by
  rw [filter_subtracts_iff]
  constructor
  · rintro ⟨_, delta⟩ row named stored
    have here := delta row
    simpa [count_filter_ite, named, stored] using here
  · intro equal
    refine ⟨fun row named => ?_, fun row => ?_⟩
    · by_cases stored : row ∈ rows
      · exact (equal row named stored).ge
      · simp [count_eq_zero_of_not_mem stored]
    · by_cases named : row ∈ batch
      · by_cases stored : row ∈ rows
        · simp [count_filter_ite, named, stored, equal row named stored]
        · simp [count_filter_ite, stored, count_eq_zero_of_not_mem stored]
      · simp [count_filter_ite, named, count_eq_zero_of_not_mem named]

/-- Taking away a batch changes no multiplicity exactly when no batch row is stored. -/
theorem unchanged_subtracts_iff :
    (∀ row, rows.count row = rows.count row - batch.count row) ↔ ∀ row ∈ batch, row ∉ rows := by
  constructor
  · intro unchanged row named stored
    have := unchanged row
    have := count_pos_iff.mpr named
    have := count_pos_iff.mpr stored
    omega
  · intro apart row
    by_cases named : row ∈ batch
    · simp [count_eq_zero_of_not_mem (apart row named)]
    · simp [count_eq_zero_of_not_mem named]

end Difference

/-! ## The two operations of the session -/

/-- `COL_STACK_MAX`: wider rows are compared through a heap buffer. -/
def colStackMax : Nat := 32

/-- The name of the retraction delta, in a buffer of 256 bytes. -/
def removalName (name : String) : String := printed 256 ("$r$" ++ name)

/-- Which allocations of a removal fail. -/
structure RemoveFaults where
  /-- `col_rel_new_auto` for the retraction delta. -/
  newAuto : Bool
  /-- The row buffer of `col_rel_row`. -/
  rowScratch : Bool
  /-- The append of the n-th recorded row. -/
  append : Nat → Bool
  /-- The heap row buffer. -/
  rowBuf : Bool
  /-- The growth of the relation table. -/
  addRel : Bool

/-- No allocation fails. -/
def noFaults : RemoveFaults := ⟨false, false, fun _ => false, false, false⟩

/-- Collect the batch rows that are stored, in batch order; a failed append gives the
collection up. -/
def collectRemoved (appendFails : Nat → Bool) (rows : List Row) :
    List Row → List Row → Option (List Row)
  | [], collected => some collected
  | del :: rest, collected =>
    if del ∈ rows then
      if appendFails collected.length then none
      else collectRemoved appendFails rows rest (collected ++ [del])
    else collectRemoved appendFails rows rest collected

theorem collectRemoved_eq {appendFails : Nat → Bool} {rows batch collected out : List Row}
    (done : collectRemoved appendFails rows batch collected = some out) :
    out = collected ++ batch.filter (· ∈ rows) := by
  induction batch generalizing collected with
  | nil => simpa [collectRemoved] using done.symm
  | cons del rest ih =>
    unfold collectRemoved at done
    split at done
    · rename_i stored
      split at done
      · cases done
      · simp [ih done, stored]
    · rename_i absent
      simp [ih done, absent]

/-- The relation after the loop over the batch. -/
def ColRel.removeBatch (r : ColRel) (batch : Batch) : ColRel :=
  r.restrict (removeLoop batch r.rows 0) fun _ member =>
    (removeLoop_sublist batch _ 0).subset member

/-- The retraction delta: the recorded rows of the batch under their own name. -/
def retractionDelta (name : String) (batch : Batch) (recorded : List Row)
    (fromBatch : recorded ⊆ batch.rows) : ColRel where
  name := removalName name
  ncols := batch.numCols
  columnTypes := []
  rows := recorded
  allocated := true
  baseNrows := 0
  width := fun row member => batch.width row (fromBatch member)
  stored := fun _ _ => rfl
  canonical := fun _ _ => floatCanonical_nil _

/-- The session once the retraction delta is registered in place of an older one and the
relation is compacted. -/
def Session.retract (s : Session) (delta : ColRel) (relation : String) (batch : Batch) : Session :=
  let registered := (s.removeRel delta.name).addRel delta
  let compacted := registered.mapRel relation (fun r => (r.removeBatch batch).clampBase)
    fun _ => rfl
  { compacted with
    lastRemovedRelation := some relation
    outerEpoch := s.outerEpoch + 1
    pendingInputChange := true }

/-- The session once the relation is compacted without a delta. -/
def Session.dropRows (s : Session) (relation : String) (batch : Batch) : Session :=
  let compacted := s.mapRel relation (·.removeBatch batch) fun _ => rfl
  { compacted with pendingInputChange := true, snapshotStableValid := false }

/-- `col_session_remove_incremental`. The relation is looked up before its retraction delta
is registered, so a relation that bears the name of its own delta is freed under the loop. -/
def colSessionRemoveIncremental (faults : RemoveFaults) (s : Session) (relation : String)
    (batch : Batch) : Rc × Session :=
  match s.findRel relation with
  | none => (.enoent, s)
  | some r =>
    if r.ncols = 0 then (.ok, s)
    else if r.ncols ≠ batch.numCols then (.einval, s)
    else if faults.newAuto then (.enomem, s)
    else if faults.rowScratch ∧ batch.rows ≠ [] ∧ r.rows ≠ [] then (.undefined, s)
    else
      match collected : collectRemoved faults.append r.rows batch.rows [] with
      | none => (.enomem, s)
      | some recorded =>
        if batch.numCols > colStackMax ∧ faults.rowBuf then (.enomem, s)
        else if removalName r.name = r.name then (.undefined, s)
        else if faults.addRel then (.enomem, s.removeRel (removalName r.name))
        else
          let delta := retractionDelta r.name batch recorded (by
            rw [collectRemoved_eq collected]
            exact filter_subset_self batch.rows)
          (.ok, s.retract delta r.name batch)

def colSessionRemove (faults : RemoveFaults) (s : Session) (relation : String)
    (batch : Batch) : Rc × Session :=
  if s.deltaCb then colSessionRemoveIncremental faults s relation batch
  else
    match s.findRel relation with
    | none => (.enoent, s)
    | some r =>
      if r.ncols = 0 then (.ok, s)
      else if r.ncols ≠ batch.numCols then (.einval, s)
      else if batch.numCols > colStackMax ∧ faults.rowBuf then (.enomem, s)
      else (.ok, s.dropRows r.name batch)

/-- What a removal does: it refuses and leaves the relation, it finds a relation without columns, or
the loop has run, and with a delta callback the stored batch rows are recorded. -/
inductive RemoveOutcome (s : Session) (relation : String) (batch : Batch) : Rc × Session → Prop
  | refused {rc : Rc} {s' : Session} (failed : rc ≠ .ok)
      (same : s'.findRel relation = s.findRel relation) : RemoveOutcome s relation batch (rc, s')
  | uninitialised {r : ColRel} (found : s.findRel relation = some r) (empty : r.ncols = 0) :
      RemoveOutcome s relation batch (.ok, s)
  | removed {r r' : ColRel} {s' : Session} (found : s.findRel relation = some r)
      (columns : r.ncols ≠ 0) (found' : s'.findRel relation = some r')
      (rows : r'.rows = removeLoop batch r.rows 0)
      (header : r'.ncols = r.ncols ∧ r'.columnTypes = r.columnTypes)
      (recorded : s.deltaCb = true →
        s'.rowsOf (removalName relation) = batch.rows.filter (· ∈ r.rows)) :
      RemoveOutcome s relation batch (.ok, s')

theorem colSessionRemoveIncremental_outcome (faults : RemoveFaults) (s : Session)
    (relation : String) (batch : Batch) :
    RemoveOutcome s relation batch (colSessionRemoveIncremental faults s relation batch) := by
  unfold colSessionRemoveIncremental
  split
  · exact .refused (by decide) rfl
  rename_i r found
  obtain rfl := Session.name_of_findRel found
  by_cases empty : r.ncols = 0
  · rw [if_pos empty]
    exact .uninitialised found empty
  rw [if_neg empty]
  iterate 4
    split
    · exact .refused (by decide) rfl
  rename_i recorded collected
  iterate 2
    split
    · exact .refused (by decide) rfl
  rename_i ownName
  split
  · refine .refused (by decide) ?_
    rw [Session.findRel_removeRel, if_neg (Ne.symm ownName)]
  have stored := collectRemoved_eq collected
  have fromBatch : recorded ⊆ batch.rows := stored ▸ filter_subset_self batch.rows
  have lookup := fun name => Session.findRel_mapRel ((s.removeRel (removalName r.name)).addRel
    (retractionDelta r.name batch recorded fromBatch)) r.name name
    (fun r => (r.removeBatch batch).clampBase) fun _ => rfl
  refine .removed found empty (?_ : _ = some ((r.removeBatch batch).clampBase)) rfl
    ⟨rfl, rfl⟩ fun _ => ?_
  · refine (lookup r.name).trans ?_
    simp [retractionDelta, found, Ne.symm ownName]
  · refine (Session.rowsOf_of_findRel (r := retractionDelta r.name batch recorded fromBatch)
      ((lookup (removalName r.name)).trans ?_)).trans stored
    simp [retractionDelta, ownName]

theorem colSessionRemove_outcome (faults : RemoveFaults) (s : Session) (relation : String)
    (batch : Batch) :
    RemoveOutcome s relation batch (colSessionRemove faults s relation batch) := by
  unfold colSessionRemove
  split
  · exact colSessionRemoveIncremental_outcome faults s relation batch
  rename_i noCallback
  split
  · exact .refused (by decide) rfl
  rename_i r found
  obtain rfl := Session.name_of_findRel found
  by_cases empty : r.ncols = 0
  · rw [if_pos empty]
    exact .uninitialised found empty
  rw [if_neg empty]
  iterate 2
    split
    · exact .refused (by decide) rfl
  have found' := Session.findRel_mapRel s r.name r.name (·.removeBatch batch) fun _ => rfl
  rw [if_pos rfl, found, Option.map_some] at found'
  exact .removed found empty found' rfl ⟨rfl, rfl⟩ fun callback => absurd callback noCallback

/-- What a successful removal leaves behind: nothing changes for a relation without columns;
otherwise the loop has run, and with a delta callback the stored batch rows are recorded. -/
structure Removed (s s' : Session) (relation : String) (batch : Batch) (r : ColRel) : Prop where
  found : s.findRel relation = some r
  uninitialised : r.ncols = 0 → s' = s
  compacted : r.ncols ≠ 0 → s'.rowsOf relation = removeLoop batch r.rows 0
  recorded : r.ncols ≠ 0 → s.deltaCb = true →
    s'.rowsOf (removalName relation) = batch.rows.filter (· ∈ r.rows)

theorem colSessionRemove_ok {faults : RemoveFaults} {s s' : Session} {relation : String}
    {batch : Batch} (ok : colSessionRemove faults s relation batch = (.ok, s')) :
    ∃ r, Removed s s' relation batch r := by
  have outcome := colSessionRemove_outcome faults s relation batch
  rw [ok] at outcome
  cases outcome with
  | refused failed => exact absurd rfl failed
  | uninitialised found empty => exact ⟨_, found, fun _ => rfl, absurd empty, absurd empty⟩
  | removed found columns found' rows _ recorded =>
    exact ⟨_, found, fun none => absurd none columns,
      fun _ => (Session.rowsOf_of_findRel found').trans rows, fun _ => recorded⟩

/-! ## When a removal does what it is for -/

/-- What a removal is for: every row loses as many occurrences as the batch names, rows that
the batch does not name keep their order, and with a delta callback the recorded rows are the
removed occurrences. -/
structure RemovalExact (s s' : Session) (relation : String) (batch : Batch) : Prop where
  multiplicity : ∀ row, (s'.rowsOf relation).count row =
    (s.rowsOf relation).count row - batch.rows.count row
  order : (s'.rowsOf relation).filter (· ∉ batch.rows) =
    (s.rowsOf relation).filter (· ∉ batch.rows)
  delta : s.deltaCb = true → ∀ row, (s'.rowsOf (removalName relation)).count row =
    (s.rowsOf relation).count row - (s'.rowsOf relation).count row

/-- The removals that the early end of the loop does not spoil. With a batch of
`2 ^ 32 - 1` rows all named rows go, so the batch must name all their occurrences; otherwise
one row goes, so at most one may be named. -/
def RemovalHarmless (s : Session) (relation : String) (batch : Batch) : Prop :=
  let stored := s.rowsOf relation
  if ((s.findRel relation).map ColRel.ncols).getD 0 = 0 then
    (∀ row ∈ batch.rows, row ∉ stored) ∧ (s.deltaCb = true → s.rowsOf (removalName relation) = [])
  else if batch.rows.length + 1 = 2 ^ 32 then
    if s.deltaCb then ∀ row ∈ batch.rows, row ∈ stored → batch.rows.count row = stored.count row
    else ∀ row ∈ batch.rows, stored.count row ≤ batch.rows.count row
  else if s.deltaCb then (batch.rows.filter (· ∈ stored)).length ≤ 1
  else ((stored : Multiset Row) ∩ (batch.rows : Multiset Row)).card ≤ 1

/-- The loop gives the multiset difference exactly on harmless batches. -/
theorem removeLoop_subtracts_iff (batch : Batch) (rows : List Row) :
    (∀ row, (removeLoop batch rows 0).count row = rows.count row - batch.rows.count row) ↔
      if batch.rows.length + 1 = 2 ^ 32 then
        ∀ row ∈ batch.rows, rows.count row ≤ batch.rows.count row
      else ((rows : Multiset Row) ∩ (batch.rows : Multiset Row)).card ≤ 1 := by
  split
  · rename_i full
    rw [removeLoop_eq_filter batch full rows 0 (by simp)]
    exact filter_subtracts_iff
  rename_i small
  rw [removeLoop_eq_erase batch (by have := batch.count_lt; omega), drop_zero]
  split
  · rename_i del found
    exact erase_subtracts_iff (by simpa using List.find?_some found) (mem_of_find?_eq_some found)
  rename_i none
  have apart : ∀ row ∈ batch.rows, row ∉ rows := by simpa using none
  have disjoint : (rows : Multiset Row) ∩ (batch.rows : Multiset Row) = 0 :=
    Multiset.eq_zero_of_forall_notMem fun row shared =>
      apart row (Multiset.mem_inter.mp shared).2 (Multiset.mem_inter.mp shared).1
  exact iff_of_true (unchanged_subtracts_iff.mpr apart) (by simp [disjoint])

/-- The loop gives the multiset difference and the stored batch rows record it exactly on
harmless batches. -/
theorem removeLoop_recorded_iff (batch : Batch) (rows : List Row) :
    ((∀ row, (removeLoop batch rows 0).count row = rows.count row - batch.rows.count row) ∧
      ∀ row, (batch.rows.filter (· ∈ rows)).count row =
        rows.count row - (removeLoop batch rows 0).count row) ↔
      if batch.rows.length + 1 = 2 ^ 32 then
        ∀ row ∈ batch.rows, row ∈ rows → batch.rows.count row = rows.count row
      else (batch.rows.filter (· ∈ rows)).length ≤ 1 := by
  split
  · rename_i full
    rw [removeLoop_eq_filter batch full rows 0 (by simp)]
    exact filter_recorded_iff
  rename_i small
  rw [removeLoop_eq_erase batch (by have := batch.count_lt; omega), drop_zero]
  split
  · rename_i del found
    exact erase_recorded_iff (by simpa using List.find?_some found) (mem_of_find?_eq_some found)
  · rename_i none
    have apart : ∀ row ∈ batch.rows, row ∉ rows := by simpa using none
    have nothing : batch.rows.filter (· ∈ rows) = [] := by simpa using apart
    exact iff_of_true ⟨unchanged_subtracts_iff.mpr apart, fun row => by simp [nothing]⟩
      (by simp [nothing])

/-- **A successful removal does what it is for exactly on the harmless batches.** -/
theorem colSessionRemove_exact_iff (faults : RemoveFaults) (s s' : Session) (relation : String)
    (batch : Batch) (ok : colSessionRemove faults s relation batch = (.ok, s')) :
    RemovalExact s s' relation batch ↔ RemovalHarmless s relation batch := by
  obtain ⟨r, removed⟩ := colSessionRemove_ok ok
  have stored := Session.rowsOf_of_findRel removed.found
  simp only [RemovalHarmless, removed.found, Option.map_some, Option.getD_some, stored]
  by_cases empty : r.ncols = 0
  · obtain rfl := removed.uninitialised empty
    rw [if_pos empty, ← unchanged_subtracts_iff, ← stored]
    constructor
    · intro exact_
      refine ⟨exact_.multiplicity, fun callback => ?_⟩
      have none : ∀ row, (s'.rowsOf (removalName relation)).count row = 0 := fun row =>
        (exact_.delta callback row).trans (Nat.sub_self _)
      exact eq_nil_iff_forall_not_mem.mpr fun row => count_eq_zero.mp (none row)
    · rintro ⟨unchanged, nothing⟩
      exact ⟨unchanged, rfl, fun callback row => by simp [nothing callback]⟩
  · have compacted := removed.compacted empty
    have order : (s'.rowsOf relation).filter (· ∉ batch.rows) =
        (s.rowsOf relation).filter (· ∉ batch.rows) := by
      rw [compacted, stored]
      exact removeLoop_filter_unnamed batch r.rows
    rw [if_neg empty]
    by_cases callback : s.deltaCb = true
    · have recorded := removed.recorded empty callback
      rw [if_pos callback, if_pos callback, ← removeLoop_recorded_iff, ← recorded,
        ← compacted, ← stored]
      exact ⟨fun exact_ => ⟨exact_.multiplicity, exact_.delta callback⟩,
        fun both => ⟨both.1, order, fun _ => both.2⟩⟩
    · rw [if_neg callback, if_neg callback, ← removeLoop_subtracts_iff, ← compacted, ← stored]
      exact ⟨fun exact_ => exact_.multiplicity,
        fun counts => ⟨counts, order, fun set => absurd set callback⟩⟩

/-- A relation `e` of one column that holds the rows `1` and `2`. -/
def twoRows : ColRel := .integers "e" [1, 2]

/-- A session with the relation `e` alone, with or without a delta callback. -/
def twoRowSession (deltaCb : Bool) : Session := .holding twoRows deltaCb

def bothRows : Batch := ⟨1, [⟨[1]⟩, ⟨[2]⟩], by simp, by decide⟩

def firstRow : Batch := ⟨1, [⟨[1]⟩], by simp, by decide⟩

/-- Both operations take the row `1` out as they should. -/
theorem colSessionRemove_firstRow_exact :
    (colSessionRemove noFaults (twoRowSession false) "e" firstRow).1 = .ok ∧
    RemovalExact (twoRowSession false)
      (colSessionRemove noFaults (twoRowSession false) "e" firstRow).2 "e" firstRow ∧
    (colSessionRemove noFaults (twoRowSession true) "e" firstRow).1 = .ok ∧
    RemovalExact (twoRowSession true)
      (colSessionRemove noFaults (twoRowSession true) "e" firstRow).2 "e" firstRow :=
  ⟨by decide,
    (colSessionRemove_exact_iff noFaults (twoRowSession false) _ "e" firstRow
      (outcome_eq (by decide))).mpr (by unfold RemovalHarmless; decide),
    by decide,
    (colSessionRemove_exact_iff noFaults (twoRowSession true) _ "e" firstRow
      (outcome_eq (by decide))).mpr (by unfold RemovalHarmless; decide)⟩

theorem removeLoop_bothRows : removeLoop bothRows twoRows.rows 0 = [⟨[2]⟩] := by
  rw [removeLoop_eq_erase bothRows (by decide)]
  decide

/-- After a successful removal of both rows the second one is still stored. -/
theorem second_row_stays {deltaCb : Bool} {s' : Session}
    (ok : colSessionRemove noFaults (twoRowSession deltaCb) "e" bothRows = (.ok, s')) :
    ¬ RemovalExact (twoRowSession deltaCb) s' "e" bothRows := by
  intro exact_
  obtain ⟨r, removed⟩ := colSessionRemove_ok ok
  have stored : (twoRowSession deltaCb).findRel "e" = some twoRows := by
    simp [twoRowSession, Session.holding, Session.findRel, twoRows, ColRel.integers]
  obtain rfl : twoRows = r := Option.some.inj (stored.symm.trans removed.found)
  have count := exact_.multiplicity ⟨[2]⟩
  rw [removed.compacted (by decide), removeLoop_bothRows,
    Session.rowsOf_of_findRel removed.found] at count
  exact absurd count (by decide)

/-- Removing the rows `1` and `2` from a relation that holds exactly these succeeds, with and
without a delta callback, and leaves the row `2` stored. -/
theorem colSessionRemove_bothRows_inexact :
    (colSessionRemove noFaults (twoRowSession false) "e" bothRows).1 = .ok ∧
    ¬ RemovalExact (twoRowSession false)
      (colSessionRemove noFaults (twoRowSession false) "e" bothRows).2 "e" bothRows ∧
    (colSessionRemove noFaults (twoRowSession true) "e" bothRows).1 = .ok ∧
    ¬ RemovalExact (twoRowSession true)
      (colSessionRemove noFaults (twoRowSession true) "e" bothRows).2 "e" bothRows :=
  ⟨by decide, second_row_stays (outcome_eq (by decide)),
    by decide, second_row_stays (outcome_eq (by decide))⟩

end Wirelog.Columnar

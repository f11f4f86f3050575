import Wirelog.Facade.TypedRows

/-!
# When a failed batch leaves no trace

A batch of typed rows should be applied as a whole or not at all: either every row occurs as
many times more, or fewer, as the batch names it, or the relation holds the rows it held before
(`TypedExact`). When the session refuses a row, the rows before it are undone one by one by the
inverse operation. But removing a row that is not there succeeds and changes nothing, and
inserting this row then adds it (`absent_row_appears`). The undoing also ends at the first
inverse call that fails.

Which row is refused, and how many rows are undone then, follows from the session, the batch and the
faults (`typedCourse`). The batch is exact if and only if the rows that are put back were there
(`typedRows_exact_iff`, with the condition `RollbackHarmless`).
-/

set_option autoImplicit false

namespace Wirelog.Facade

open Wirelog.Columnar List
open Wirelog.Foundations Wirelog.Foundations.Compensation

/-! ## The answers to the calls -/

def AdvancedSession.rows (f : AdvancedSession) (relation : String) : List Row :=
  f.inner.rowsOf relation

def AdvancedSession.types (f : AdvancedSession) (relation : String) : List ColumnType :=
  f.inner.typesOf relation

/-- What calls for single rows depend on in a relation; one that is not there has no rows. -/
def AdvancedSession.view (f : AdvancedSession) (relation : String) : RelView :=
  (f.inner.viewOf relation).getD ⟨0, [], []⟩

variable (faults : TypedFaults) (f : AdvancedSession) (relation : String)

/-- What the n-th call answers for a row, when the relation is as given. -/
def callAnswer (remove : Bool) (n : Nat) (row : Row) (v : RelView) : Outcome (Option Rc) :=
  if !remove && f.inputLoadFailed then .failed none
  else if (f.inner.findRel relation).isNone then .failed (some .enoent)
  else if remove then ofRc (v.removeRc row (faults.remove n) f.inner.deltaCb relation)
  else ofRc (v.insertRc row (faults.insert n) (f.declaredNcols relation))

def change (remove : Bool) (v : RelView) (row : Row) : RelView :=
  if remove then v.removeRow row else v.insertRow row

variable (batch : List Row) (remove : Bool)

/-- The relation when the calls for the first k rows went through. -/
def viewAfter (k : Nat) : RelView := (batch.take k).foldl (change remove) (f.view relation)

/-- The relation when the first i of these rows were undone again. -/
def viewBack (k i : Nat) : RelView :=
  (batch.take i).foldl (change !remove) (viewAfter f relation batch remove k)

/-- What the call for a row of the batch answers. -/
def answer (j : Nat) : Outcome (Option Rc) :=
  batch[j]?.elim .done fun row =>
    callAnswer faults f relation remove j row (viewAfter f relation batch remove j)

/-- What the call that undoes a row answers. -/
def answerBack (k i : Nat) : Outcome (Option Rc) :=
  batch[i]?.elim .done fun row =>
    callAnswer faults f relation (!remove) (k + 1 + i) row (viewBack f relation batch remove k i)

/-- The end of a batch, from the session, the rows of the batch and the faults. -/
def typedCourse : Course (Option Rc) :=
  course (answer faults f relation batch remove) (answerBack faults f relation batch remove)
    batch.length

/-! ## The effect of the calls -/

/-- What no call changes. -/
structure Kept (f g : AdvancedSession) (relation : String) : Prop where
  inputLoadFailed : g.inputLoadFailed = f.inputLoadFailed
  declaredNcols : g.declaredNcols = f.declaredNcols
  deltaCb : g.inner.deltaCb = f.inner.deltaCb
  found : (g.inner.findRel relation).isNone = (f.inner.findRel relation).isNone

theorem ofRc_eq_done {rc : Rc} (done : ofRc rc = .done) : rc = .ok := by
  cases rc with
  | ok => rfl
  | _ => nomatch done

theorem ofRc_eq_failed {rc : Rc} {error : Option Rc} (failed : ofRc rc = .failed error) :
    rc ≠ .ok ∧ rc ≠ .undefined := by
  constructor
  · rintro rfl
    nomatch failed
  · rintro rfl
    nomatch failed

theorem rows_eq_view (g : AdvancedSession) : g.rows relation = (g.view relation).rows := by
  unfold AdvancedSession.rows AdvancedSession.view Session.rowsOf Session.viewOf
  cases g.inner.findRel relation <;> rfl

theorem types_eq_view (g : AdvancedSession) : g.types relation = (g.view relation).types := by
  unfold AdvancedSession.types AdvancedSession.view Session.typesOf Session.viewOf
  cases g.inner.findRel relation <;> rfl

section Calls

variable {faults} {f} {relation} {g : AdvancedSession} {row : Row}

/-- What a call does: it answers as given, and leaves the relation as it should be. -/
structure CallSpec (f g : AdvancedSession) (relation : String) (remove : Bool) (row : Row)
    (answer : Outcome (Option Rc)) (out : Outcome (Option Rc) × AdvancedSession) : Prop where
  answered : out.1 = answer
  done : answer = .done → Kept f out.2 relation ∧
    out.2.view relation = change remove (g.view relation) row
  failed : ∀ error, answer = .failed error → Kept f out.2 relation ∧
    out.2.rows relation = g.rows relation ∧
    (remove = true ∨ (g.view relation).columns ≠ 0 → out.2.view relation = g.view relation)

theorem CallSpec.refused (kept : Kept f g relation) (error : Option Rc) :
    CallSpec f g relation remove row (.failed error) (.failed error, g) :=
  ⟨rfl, nofun, fun _ _ => ⟨kept, rfl, fun _ => rfl⟩⟩

theorem CallSpec.of_view {remove : Bool} {v : RelView} {out : Rc × Session}
    (kept : Kept f g relation)
    (here : g.inner.viewOf relation = some v) (deltaCb : out.2.deltaCb = g.inner.deltaCb)
    (ok : out.1 = .ok → out.2.viewOf relation = some (change remove v row))
    (failed : out.1 ≠ .ok → ∃ columns, out.2.viewOf relation = some { v with columns := columns } ∧
      (remove = true ∨ v.columns ≠ 0 → columns = v.columns)) :
    CallSpec f g relation remove row (ofRc out.1) (ofRc out.1, { g with inner := out.2 }) := by
  have there : (g.view relation) = v := by rw [AdvancedSession.view, here, Option.getD_some]
  have stays {w : RelView} (now : out.2.viewOf relation = some w) :
      Kept f { g with inner := out.2 } relation := by
    refine ⟨kept.inputLoadFailed, kept.declaredNcols, deltaCb.trans kept.deltaCb, ?_⟩
    obtain ⟨_, found, -⟩ := Option.map_eq_some_iff.mp here
    obtain ⟨_, found', -⟩ := Option.map_eq_some_iff.mp now
    rw [← kept.found, found, found']
    rfl
  refine ⟨rfl, fun done => ?_, fun error refused => ?_⟩
  · have now := ok (ofRc_eq_done done)
    exact ⟨stays now, by simp [AdvancedSession.view, here, now]⟩
  · obtain ⟨columns, now, same⟩ := failed (ofRc_eq_failed refused).1
    refine ⟨stays now, ?_, fun known => ?_⟩
    · rw [rows_eq_view, rows_eq_view]
      simp [AdvancedSession.view, here, now]
    · rw [there] at known ⊢
      simp [AdvancedSession.view, now, same known]

/-- **Each call answers as foreseen.** -/
theorem callSpec (n : Nat) (kept : Kept f g relation) (cells : row.cells ≠ []) :
    CallSpec f g relation remove row (callAnswer faults f relation remove n row (g.view relation))
      (typedCalls faults relation remove n row g) := by
  unfold callAnswer
  rw [← kept.inputLoadFailed, ← kept.found, ← kept.declaredNcols, ← kept.deltaCb]
  cases remove with
  | true =>
    simp only [typedCalls, removeCall, Bool.not_true, Bool.false_and, Bool.false_eq_true, if_true,
      if_false]
    cases found : g.inner.findRel relation with
    | none =>
      have absent : colSessionRemove (faults.remove n) g.inner relation (oneRow row) =
          (.enoent, g.inner) := by
        simp [colSessionRemove, colSessionRemoveIncremental, found]
      rw [absent]
      exact .refused true kept _
    | some r =>
      have here : g.inner.viewOf relation = some r.view := by simp [Session.viewOf, found]
      have called := @colSessionRemove_view row cells (faults.remove n) _ _ _ here
      simp only [AdvancedSession.view, here, Option.getD_some, Option.isNone_some,
        Bool.false_eq_true, if_false, ← called.1]
      exact .of_view kept here called.2.1 called.2.2.1 fun failed =>
        ⟨r.view.columns, called.2.2.2 failed, fun _ => rfl⟩
  | false =>
    simp only [typedCalls, insertCall, Bool.not_false, Bool.true_and, Bool.false_eq_true, if_false]
    split
    · exact .refused false kept none
    cases found : g.inner.findRel relation with
    | none =>
      have absent : colSessionInsert (faults.insert n) g.declaredNcols g.inner relation
          (oneRow row) = (.enoent, g.inner) := by
        simp [colSessionInsert, colSessionInsertIncremental, Session.insertInto, found, oneRow]
      rw [absent]
      exact .refused false kept _
    | some r =>
      have here : g.inner.viewOf relation = some r.view := by simp [Session.viewOf, found]
      have called := @colSessionInsert_view row cells (faults.insert n) g.declaredNcols _ _ _ here
      simp only [AdvancedSession.view, here, Option.getD_some, Option.isNone_some,
        Bool.false_eq_true, if_false, ← called.1]
      refine .of_view kept here called.2.1 called.2.2.1 fun failed => ?_
      obtain ⟨columns, now, same⟩ := called.2.2.2 failed
      exact ⟨columns, now, fun known => same (known.resolve_left Bool.false_ne_true)⟩

end Calls

/-! ## Counting rows -/

theorem storedRow_storedRow (types : List ColumnType) (row : Row) :
    storedRow types (storedRow types row) = storedRow types row := by
  apply Row.ext
  apply ext_getElem?
  intro i
  simp only [storedRow, List.getElem?_mapIdx, Option.map_map]
  congr 1
  funext cell
  simp only [Function.comp_apply, storedCell]
  split_ifs <;> rfl

/-- Rows that occur as often as their stored forms are stored as they are. -/
theorem stored_of_perm {types : List ColumnType} {items : List Row}
    (perm : (items.map (storedRow types)).Perm items) :
    ∀ row ∈ items, storedRow types row = row := by
  intro row member
  obtain ⟨other, _, rfl⟩ := mem_map.mp (perm.mem_iff.mpr member)
  exact storedRow_storedRow types other

theorem map_storedRow_eq_self {types : List ColumnType} {items : List Row}
    (stored : ∀ row ∈ items, storedRow types row = row) : items.map (storedRow types) = items := by
  conv_rhs => rw [← map_id items]
  exact map_congr_left stored

/-- Inserted rows occur more often by their number exactly if they are stored as they are. -/
theorem count_appended_iff (types : List ColumnType) (rows items : List Row) :
    (∀ row, (rows ++ items.map (storedRow types)).count row = rows.count row + items.count row) ↔
      ∀ row ∈ items, storedRow types row = row := by
  constructor
  · intro counts
    apply stored_of_perm
    rw [perm_iff_count]
    intro row
    have here := counts row
    rw [count_append] at here
    exact Nat.add_left_cancel here
  · intro stored row
    rw [map_storedRow_eq_self stored, count_append]

/-- Removed rows that are inserted again restore the rows exactly if they were there. -/
theorem count_reinserted_iff (types : List ColumnType) (rows applied undone : List Row) :
    (∀ row, (rows.diff applied ++ undone.map (storedRow types)).count row = rows.count row) ↔
      (undone.map (storedRow types) : Multiset Row) = (rows : Multiset Row) ∩ applied := by
  rw [Multiset.ext]
  apply forall_congr'
  intro row
  rw [Multiset.count_inter, Multiset.coe_count, Multiset.coe_count, Multiset.coe_count,
    count_append, count_diff]
  omega

/-- Removing some rows leaves all but so many. -/
theorem length_le_length_diff_add (rows items : List Row) :
    rows.length ≤ (rows.diff items).length + items.length := by
  have most : (rows : Multiset Row) ≤ (rows : Multiset Row) - items + items := le_tsub_add
  have cards := Multiset.card_le_card most
  rwa [Multiset.coe_sub, Multiset.card_add, Multiset.coe_card, Multiset.coe_card,
    Multiset.coe_card] at cards

/-- Inserted rows that are removed again restore the rows exactly if all are removed and they
are stored as they are. -/
theorem count_removed_iff (types : List ColumnType) (rows : List Row) {applied undone : List Row}
    (isPart : undone <+: applied) :
    (∀ row, ((rows ++ applied.map (storedRow types)).diff undone).count row = rows.count row) ↔
      undone = applied ∧ ∀ row ∈ applied, storedRow types row = row := by
  constructor
  · intro counts
    have perm : ((rows ++ applied.map (storedRow types)).diff undone).Perm rows :=
      perm_iff_count.mpr counts
    -- too few removals would leave more rows than there were
    have whole : undone = applied := by
      apply isPart.eq_of_length_le
      have left := length_le_length_diff_add (rows ++ applied.map (storedRow types)) undone
      rw [perm.length_eq, length_append, length_map] at left
      exact Nat.le_of_add_le_add_left left
    subst whole
    refine ⟨rfl, stored_of_perm ?_⟩
    have below : (undone.map (storedRow types) : Multiset Row) ≤ (undone : Multiset Row) := by
      rw [Multiset.le_iff_count]
      intro row
      have here := counts row
      rw [count_diff, count_append] at here
      rw [Multiset.coe_count, Multiset.coe_count]
      omega
    have same := Multiset.eq_of_le_of_card_le below (by simp)
    exact Multiset.coe_eq_coe.mp same
  · rintro ⟨rfl, stored⟩ row
    rw [map_storedRow_eq_self stored, count_diff, count_append]
    omega

/-! ## What a call is for -/

/-- The rows that are handed over to the session, none when the batch is rejected. -/
def preparedRows (relation : String) (rows : Option (List TypedRow)) : List Row :=
  match prepareRows faults f relation rows with
  | .ok batch => batch
  | .error _ => []

/-- A call that succeeds changes the multiplicity of every row by the number of its occurrences
in the batch, not below zero; a call that fails changes none. -/
def TypedExact (before after batch : List Row) (remove : Bool) : Result → Prop
  | .ok => ∀ row, after.count row =
      if remove then before.count row - batch.count row else before.count row + batch.count row
  | .undefined => False
  | .exec | .memory => ∀ row, after.count row = before.count row

theorem findSome?_checkRow_none {layout : TypedLayout} {rows : List TypedRow} {row : TypedRow}
    (checked : checkRows layout rows = none) (first : rows.head? = some row) :
    row.physicalNlanes ≠ 0 := by
  obtain ⟨rest, rfl⟩ : ∃ rest, rows = row :: rest := by
    cases rows with
    | nil => nomatch first
    | cons other rest => exact ⟨rest, by rw [Option.some.inj first]⟩
  have clean := List.findSome?_eq_none_iff.mp checked (row, 0) (by simp)
  intro zero
  simp [checkRow, descriptorInvalid, zero] at clean

theorem preparedRows_cells (relation : String) (rows : Option (List TypedRow)) :
    ∀ row ∈ preparedRows faults f relation rows, row.cells ≠ [] := by
  unfold preparedRows
  cases prepared : prepareRows faults f relation rows with
  | error _ => exact fun row member => absurd member not_mem_nil
  | ok batch =>
    intro row member
    unfold prepareRows at prepared
    split at prepared
    · nomatch prepared
    split at prepared
    · nomatch prepared
    · nomatch prepared
    split at prepared
    · nomatch prepared
    rename_i rows layout _ checked
    unfold convertRows at prepared
    dsimp only at prepared
    split_ifs at prepared with none
    · obtain rfl := Except.ok.inj prepared
      exact absurd member not_mem_nil
    obtain rfl := Except.ok.inj prepared
    obtain ⟨typed, _, rfl⟩ := mem_map.mp member
    obtain ⟨first, rest, rfl⟩ := exists_cons_of_length_pos (Nat.pos_of_ne_zero none)
    have wide := findSome?_checkRow_none checked rfl
    simpa [convertRow] using wide

theorem resultOf_failed (error : Option Rc) :
    resultOf (.failed error) = .exec ∨ resultOf (.failed error) = .memory := by
  rcases error with _ | rc
  · exact .inl rfl
  cases rc with
  | enomem => exact .inr rfl
  | _ => exact .inl rfl

/-- The batches that are exact. Rows that stay inserted must be stored as they are. Where a row is
refused after `applied` rows, `undone` of which are undone: on an insertion these must be all, and
they must be stored as they are; on a removal the rows that are put back must be those of the
applied rows that the relation held, with their multiplicities. No call may be without a defined
outcome. -/
def RollbackHarmless (faults : TypedFaults) (f : AdvancedSession) (relation : String)
    (batch : List Row) (remove : Bool) : Prop :=
  let end_ := typedCourse faults f relation batch remove
  match end_.outcome with
  | .done => remove = false → ∀ row ∈ batch, storedRow (f.types relation) row = row
  | .failed _ =>
    if remove then
      ((batch.take end_.undone).map (storedRow (f.types relation)) : Multiset Row) =
        (f.rows relation : Multiset Row) ∩ (batch.take end_.applied : List Row)
    else
      end_.undone = end_.applied ∧
        ∀ row ∈ batch.take end_.applied, storedRow (f.types relation) row = row
  | .broken => False

/-! ## The course of a batch -/

section Course

variable {faults} {f} {relation} {batch} {remove} (cells : ∀ row ∈ batch, row.cells ≠ [])

theorem foldl_removed (rows : List Row) (v : RelView) :
    rows.foldl (change true) v = { v with rows := v.rows.diff rows } := by
  induction rows generalizing v with
  | nil => rfl
  | cons row rest ih => rw [foldl_cons, ih, diff_cons]; rfl

theorem foldl_inserted (rows : List Row) (v : RelView) :
    (rows.foldl (change false) v).types = v.types ∧
      (rows.foldl (change false) v).rows = v.rows ++ rows.map (storedRow v.types) := by
  induction rows generalizing v with
  | nil => simp
  | cons row rest ih =>
    rw [foldl_cons, (ih _).1, (ih _).2]
    simp [change, RelView.insertRow]

theorem foldl_columns {rows : List Row} {v : RelView} (columns : v.columns ≠ 0) :
    (rows.foldl (change remove) v).columns ≠ 0 := by
  induction rows generalizing v with
  | nil => exact columns
  | cons row rest ih =>
    refine ih ?_
    cases remove <;> simp [change, RelView.insertRow, RelView.removeRow, columns]

theorem viewAfter_succ {k : Nat} {row : Row} (here : batch[k]? = some row) :
    viewAfter f relation batch remove (k + 1) =
      change remove (viewAfter f relation batch remove k) row := by
  rw [viewAfter, take_add_one, here, Option.toList_some, foldl_append]
  rfl

theorem viewBack_succ {k i : Nat} {row : Row} (here : batch[i]? = some row) :
    viewBack f relation batch remove k (i + 1) =
      change (!remove) (viewBack f relation batch remove k i) row := by
  rw [viewBack, take_add_one, here, Option.toList_some, foldl_append]
  rfl

include cells

/-- A relation with inserted rows has columns. -/
theorem columns_viewAfter {k : Nat} (positive : 0 < k) {row : Row} (here : batch[k]? = some row) :
    (viewAfter f relation batch false k).columns ≠ 0 := by
  obtain ⟨first, rest, rfl⟩ : ∃ first rest, batch = first :: rest := by
    cases batch with
    | nil => simp at here
    | cons first rest => exact ⟨first, rest, rfl⟩
  obtain ⟨k, rfl⟩ := Nat.exists_eq_succ_of_ne_zero positive.ne'
  rw [viewAfter, take_succ_cons, foldl_cons]
  refine foldl_columns ?_
  have wide : first.cells.length ≠ 0 := fun none =>
    cells first mem_cons_self (length_eq_zero_iff.mp none)
  simp only [change, RelView.insertRow, Bool.false_eq_true, if_false]
  split_ifs with none
  · exact wide
  · exact none

theorem foreseen_forward :
    Foreseen (typedCalls faults relation remove) 0 batch (answer faults f relation batch remove)
      (fun j g => Kept f g relation ∧ g.view relation = viewAfter f relation batch remove j)
      fun j g => Kept f g relation ∧
        g.rows relation = (viewAfter f relation batch remove j).rows ∧
        (0 < j → g.view relation = viewAfter f relation batch remove j) := by
  have spec (j : Nat) (row : Row) (g : AdvancedSession) (here : batch[j]? = some row)
      (stage : Kept f g relation ∧ g.view relation = viewAfter f relation batch remove j) :
      CallSpec f g relation remove row (answer faults f relation batch remove j)
        (typedCalls faults relation remove (0 + j) row g) := by
    rw [Nat.zero_add, answer, here, ← stage.2]
    exact callSpec remove j stage.1 (cells row (mem_of_getElem? here))
  refine ⟨fun j row g here stage => (spec j row g here stage).answered,
    fun j row g here stage done => ?_, fun j row g error here stage refused => ?_⟩
  · rw [viewAfter_succ here, ← stage.2]
    exact (spec j row g here stage).done done
  · obtain ⟨kept, rows, same⟩ := (spec j row g here stage).failed error refused
    rw [← stage.2]
    refine ⟨kept, rows.trans (rows_eq_view relation g), fun positive => same ?_⟩
    cases remove with
    | true => exact .inl rfl
    | false =>
      rw [stage.2]
      exact .inr (columns_viewAfter cells positive here)

theorem foreseen_backward (k : Nat) :
    Foreseen (typedCalls faults relation !remove) (k + 1) (batch.take k)
      (answerBack faults f relation batch remove k)
      (fun i g => Kept f g relation ∧
        g.rows relation = (viewBack f relation batch remove k i).rows ∧
        (0 < k → g.view relation = viewBack f relation batch remove k i))
      fun i g => g.rows relation = (viewBack f relation batch remove k i).rows := by
  have spec (i : Nat) (row : Row) (g : AdvancedSession) (here : (batch.take k)[i]? = some row)
      (stage : Kept f g relation ∧ g.rows relation = (viewBack f relation batch remove k i).rows ∧
        (0 < k → g.view relation = viewBack f relation batch remove k i)) :
      batch[i]? = some row ∧ g.view relation = viewBack f relation batch remove k i ∧
      CallSpec f g relation (!remove) row (answerBack faults f relation batch remove k i)
        (typedCalls faults relation (!remove) (k + 1 + i) row g) := by
    obtain ⟨before, there⟩ : i < k ∧ batch[i]? = some row := by
      simpa [getElem?_take] using here
    have view := stage.2.2 (Nat.zero_lt_of_lt before)
    rw [answerBack, there, ← view]
    exact ⟨rfl, rfl, callSpec (!remove) (k + 1 + i) stage.1 (cells row (mem_of_getElem? there))⟩
  refine ⟨fun i row g here stage => (spec i row g here stage).2.2.answered,
    fun i row g here stage done => ?_, fun i row g error here stage refused => ?_⟩
  · obtain ⟨there, view, called⟩ := spec i row g here stage
    obtain ⟨kept, next⟩ := called.done done
    rw [viewBack_succ there, ← view, ← next]
    exact ⟨kept, rows_eq_view relation _, fun _ => rfl⟩
  · obtain ⟨-, -, called⟩ := spec i row g here stage
    exact (called.failed error refused).2.1.trans stage.2.1

/-- **A batch takes its course.** -/
theorem applyAll_course :
    let out := applyAll (typedCalls faults relation remove) (typedCalls faults relation !remove) []
      batch f
    let course := typedCourse faults f relation batch remove
    out.1 = course.outcome ∧
      (course.outcome = .done →
        out.2.rows relation = (viewAfter f relation batch remove batch.length).rows) ∧
      ∀ error, course.outcome = .failed error → course.undone ≤ course.applied ∧
        course.applied < batch.length ∧ out.2.rows relation =
          (viewBack f relation batch remove course.applied course.undone).rows := by
  have ended := applyAll_foreseen (@foreseen_forward faults f relation batch remove cells)
    ⟨⟨rfl, rfl, rfl, rfl⟩, by simp [viewAfter]⟩
    fun k error _ _ => ⟨@foreseen_backward faults f relation batch remove cells k,
      fun g left => left, fun i g back => back.2.1⟩
  refine ⟨ended.1, fun done => ?_, ended.2.2⟩
  rw [rows_eq_view, (ended.2.1 done).2]

theorem applyAll_exact_iff :
    let out := applyAll (typedCalls faults relation remove) (typedCalls faults relation !remove) []
      batch f
    TypedExact (f.rows relation) (out.2.rows relation) batch remove (resultOf out.1) ↔
      RollbackHarmless faults f relation batch remove := by
  obtain ⟨outcome, done, failed⟩ := @applyAll_course faults f relation batch remove cells
  unfold RollbackHarmless
  simp only [outcome]
  have rows := rows_eq_view relation f
  have types := types_eq_view relation f
  cases ended : (typedCourse faults f relation batch remove).outcome with
  | done =>
    rw [done ended, show resultOf Outcome.done = .ok from rfl, viewAfter, take_length]
    cases remove with
    | true => simp [TypedExact, foldl_removed, rows, count_diff]
    | false =>
      rw [(foldl_inserted batch _).2, ← rows, ← types]
      simp only [TypedExact, Bool.false_eq_true, if_false, forall_const, count_appended_iff]
  | failed error =>
    obtain ⟨few, inside, after⟩ := failed error ended
    generalize (typedCourse faults f relation batch remove).applied = k at few inside after ⊢
    generalize (typedCourse faults f relation batch remove).undone = u at few after ⊢
    have unchanged : ∀ rows', TypedExact (f.rows relation) rows' batch remove
        (resultOf (.failed error)) ↔ ∀ row, rows'.count row = (f.rows relation).count row := by
      intro rows'
      rcases resultOf_failed error with exec | memory
      · rw [exec]
        rfl
      · rw [memory]
        rfl
    rw [unchanged, after, viewBack, viewAfter]
    cases remove with
    | true =>
      rw [if_pos rfl, Bool.not_true, (foldl_inserted _ _).2, foldl_removed, ← rows, ← types,
        count_reinserted_iff]
    | false =>
      have isPart : batch.take u <+: batch.take k := (take_prefix_take_left few)
      rw [if_neg Bool.false_ne_true, Bool.not_false, foldl_removed, (foldl_inserted _ _).2, ← rows,
        ← types, count_removed_iff _ _ isPart]
      refine and_congr_left fun _ => ⟨fun same => ?_, fun same => by rw [same]⟩
      have lengths := congrArg length same
      simp only [length_take] at lengths
      omega
  | broken => simp [resultOf, TypedExact]

end Course

theorem prepareRows_error {faults : TypedFaults} {f : AdvancedSession} {relation : String}
    {rows : Option (List TypedRow)} {result : Result} {complaint : Option Complaint}
    (rejected : prepareRows faults f relation rows = .error (result, complaint)) :
    result = .exec ∨ result = .memory := by
  have of_eq {given : Result} {other : Option Complaint}
      (same : (.error (given, other) : Except (Result × Option Complaint) (List Row)) =
        .error (result, complaint)) : result = given :=
    (Prod.mk.inj (Except.error.inj same)).1.symm
  unfold prepareRows at rejected
  split at rejected
  · exact .inl (of_eq rejected)
  split at rejected
  · exact .inr (of_eq rejected)
  · exact .inl (of_eq rejected)
  split at rejected
  · exact .inl (of_eq rejected)
  unfold convertRows at rejected
  dsimp only at rejected
  split_ifs at rejected
  · exact .inl (of_eq rejected)
  · exact .inr (of_eq rejected)

/-- **A batch of typed rows is applied as a whole or not at all exactly if its rollback is
harmless.** -/
theorem typedRows_exact_iff (faults : TypedFaults) (f : AdvancedSession) (relation : String)
    (rows : Option (List TypedRow)) (error : Option TypedError) (remove : Bool) :
    TypedExact (f.rows relation)
        ((sessionTypedRows faults f relation rows error remove).2.2.rows relation)
        (preparedRows faults f relation rows) remove
        (sessionTypedRows faults f relation rows error remove).1 ↔
      RollbackHarmless faults f relation (preparedRows faults f relation rows) remove := by
  have cells := preparedRows_cells faults f relation rows
  unfold preparedRows at cells ⊢
  unfold sessionTypedRows
  cases prepared : prepareRows faults f relation rows with
  | error rejected =>
    -- a rejected batch hands no row over, and has its result from the checks
    obtain ⟨result, complaint⟩ := rejected
    refine iff_of_true ?_ fun _ row member => absurd member not_mem_nil
    rcases prepareRows_error prepared with rfl | rfl
    · cases complaint <;> exact fun _ => rfl
    · cases complaint <;> exact fun _ => rfl
  | ok batch =>
    rw [prepared] at cells
    exact applyAll_exact_iff cells

/-! ## A row that appears -/

/-- A session with a delta callback and a relation `e` of one column that holds no row. -/
def emptySession : AdvancedSession where
  inner := .holding (.integers "e" []) true
  inputLoadFailed := false
  declaredNcols := fun _ => 1
  info := fun _ => some ⟨[⟨.int64, .none, 0, 0⟩], fun _ => none⟩
  planTypes := fun _ => some [.int64]

def integerRow (cell : Cell) : TypedRow where
  structSize := sizeofTypedRow
  abiVersion := 1
  reserved := 0
  logicalNcols := 1
  physicalNlanes := 1
  physicalStride := 1
  types := some fun _ => typeCode .int64
  laneOffsets := some fun _ => 0
  physicalTypes := some fun _ => typeCode .int64
  lanes := some fun _ => cell

/-- Only the retraction delta of the second call cannot be allocated. -/
def secondCallFails : TypedFaults where
  layout := false
  converted := false
  insert := fun _ => ⟨false, false, fun _ => false⟩
  remove := fun n => { noFaults with newAuto := n == 1 }

/-- The rows `1` and `2` are removed from a relation that holds neither. The second removal
fails, and undoing the first one inserts the row `1`. -/
theorem absent_row_appears :
    emptySession.rows "e" = [] ∧ ∃ f',
      sessionTypedRows secondCallFails emptySession "e" (some [integerRow 1, integerRow 2]) none
        true = (.memory, none, f') ∧
      f'.rows "e" = [⟨[1]⟩] := by
  refine ⟨by decide, ?_⟩
  have prepared : prepareRows secondCallFails emptySession "e"
      (some [integerRow 1, integerRow 2]) = .ok [⟨[1]⟩, ⟨[2]⟩] := by rfl
  obtain ⟨outcome, -, failed⟩ :=
    @applyAll_course secondCallFails emptySession "e" [⟨[1]⟩, ⟨[2]⟩] true (by decide)
  have ended : (typedCourse secondCallFails emptySession "e" [⟨[1]⟩, ⟨[2]⟩] true).outcome =
      .failed (some .enomem) := by decide
  obtain ⟨-, -, rows⟩ := failed _ ended
  refine ⟨_, ?_, rows.trans (by decide)⟩
  rw [ended] at outcome
  simp only [sessionTypedRows, prepared, outcome, Option.map_none, resultOf]

end Wirelog.Facade

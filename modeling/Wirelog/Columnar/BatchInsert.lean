import Wirelog.Columnar.Insertion

/-!
# Inserting a batch as a whole

`col_session_insert` and `col_session_insert_incremental` append the rows of a batch one after
another. Each appended row advances the view generation of the relation, by which cached results
are found to be stale, and the session notes the change after the last row. When a row is refused
the rows before it stay and nothing is noted.

**An insert is all or nothing exactly when the first row decides**: if it is accepted, all rows
are (`sessionInsert_right_iff`).
-/

set_option autoImplicit false

namespace Wirelog.Columnar

open Function List

/-! ## The session -/

/-- A generation counter moves on, up to the value that is never valid. -/
def advanceGeneration (generation : Nat) : Nat :=
  if RelSnapshot.generationInvalid - 1 ≤ generation then RelSnapshot.generationInvalid
  else generation + 1

/-- A session with the state of its relations that cached results are compared with, and with the
two notes about inserts. -/
structure InputSession where
  session : Session
  snapshots : String → RelSnapshot
  lastInsertedRelation : Option String
  pendingFullInputEval : Bool

namespace InputSession

/-- `col_session_insert`, or `col_session_insert_incremental`. Every row advances the view
generation, and each growth the storage generation. -/
def insert (faults : InsertFaults) (declared : String → Nat) (growths : Nat) (incremental : Bool)
    (s : InputSession) (relation : String) (batch : Batch) : Rc × InputSession :=
  let out :=
    if incremental then colSessionInsertIncremental faults declared s.session relation batch
    else colSessionInsert faults declared s.session relation batch
  let snapshots := update s.snapshots relation
    { s.snapshots relation with
      viewGeneration := advanceGeneration^[s.session.insertedCount faults declared relation batch]
        (s.snapshots relation).viewGeneration
      storageGeneration := advanceGeneration^[growths] (s.snapshots relation).storageGeneration }
  if out.1 = .ok ∧ batch.rows ≠ [] then
    (.ok, ⟨out.2, snapshots, some relation,
      s.pendingFullInputEval || !(incremental || s.session.deltaCb) ||
        s.lastInsertedRelation.any (· != relation)⟩)
  else (out.1, { s with session := out.2, snapshots := snapshots })

/-- What the next step reads: the rows and their types, and the notes. -/
def stepInput (s : InputSession) :=
  (s.session.rowsOf, s.session.typesOf, s.lastInsertedRelation, s.pendingFullInputEval,
    s.session.pendingInputChange, s.session.lastRemovedRelation, s.session.outerEpoch,
    s.session.snapshotStableValid)

end InputSession

/-- An insert that fails leaves the rows, and with them what the next step reads; one that
succeeds has appended every row, and no result cached before counts as fresh. An empty batch
changes nothing. -/
structure InsertRight (s : InputSession) (relation : String) (batch : Batch)
    (out : Rc × InputSession) : Prop where
  failed : out.1 ≠ .ok → out.2.stepInput = s.stepInput
  present : out.1 = .ok → out.2.session.rowsOf relation = s.session.rowsOf relation ++
    batch.rows.map (storedRow (s.session.typesOf relation))
  stale : out.1 = .ok → batch.rows ≠ [] →
    out.2.session.pendingInputChange = true ∧ out.2.session.snapshotStableValid = false ∧
      out.2.lastInsertedRelation = some relation ∧
      ∀ cached : RelSnapshot, cached.viewGeneration ≤ (s.snapshots relation).viewGeneration →
        cached.equal (out.2.snapshots relation) = false

theorem equal_advanced {before after cached : RelSnapshot} {count : Nat}
    (advanced : after.viewGeneration = advanceGeneration^[count + 1] before.viewGeneration)
    (older : cached.viewGeneration ≤ before.viewGeneration) : cached.equal after = false := by
  have moved (count : Nat) :
      advanceGeneration^[count + 1] before.viewGeneration = RelSnapshot.generationInvalid ∨
        before.viewGeneration < advanceGeneration^[count + 1] before.viewGeneration := by
    induction count with
    | zero => unfold advanceGeneration; dsimp; split_ifs <;> omega
    | succ count ih =>
      rw [iterate_succ_apply']
      generalize advanceGeneration^[count + 1] before.viewGeneration = now at ih ⊢
      unfold advanceGeneration
      split_ifs <;> omega
  rcases moved count with invalid | later
  · simp [RelSnapshot.equal, RelSnapshot.valid, advanced, invalid]
  have other : cached.viewGeneration ≠ after.viewGeneration := by omega
  simp [RelSnapshot.equal, other]

/-- **An insert does all or nothing exactly when it appends no row or all of them**: the relation
is missing, the width or the schema is refused, the first row is refused, or none is. -/
theorem sessionInsert_right_iff (faults : InsertFaults) (declared : String → Nat) (growths : Nat)
    (incremental : Bool) (s : InputSession) (relation : String) (batch : Batch) :
    InsertRight s relation batch (s.insert faults declared growths incremental relation batch) ↔
      s.session.insertedCount faults declared relation batch = 0 ∨
        s.session.insertedCount faults declared relation batch = batch.rows.length := by
  by_cases empty : batch.rows = []
  · have none : s.session.insertedCount faults declared relation batch = 0 := by
      unfold Session.insertedCount ColRel.insertedCount
      cases s.session.findRel relation <;> simp [empty, acceptedCount]
    refine iff_of_true ?_ (.inl none)
    unfold InputSession.insert colSessionInsert colSessionInsertIncremental
    refine ⟨?_, ?_, ?_⟩ <;> simp [empty]
  obtain ⟨ok, rows, types, rest⟩ := @insertInto_spec faults declared s.session relation batch empty
  obtain ⟨advance, out⟩ :=
    @insert_eq_noted faults declared s.session relation batch empty incremental
  unfold InputSession.insert
  simp only [out]
  generalize s.session.insertedCount faults declared relation batch = count at *
  by_cases done : (s.session.insertInto faults declared relation batch).1 = .ok
  · have all := ok.mp done
    obtain ⟨fewer, rfl⟩ : ∃ fewer, count = fewer + 1 :=
      Nat.exists_eq_add_one_of_ne_zero fun none =>
        empty (length_eq_zero_iff.mp (all.symm.trans none))
    refine iff_of_true ?_ (.inr all)
    simp only [done, empty, ne_eq, not_false_iff, and_self, if_true]
    refine ⟨fun failed => absurd rfl failed, fun _ => ?_, fun _ _ => ⟨rfl, rfl, rfl, ?_⟩⟩
    · exact (congrFun rows relation).trans (by simp [all])
    · exact fun cached older => equal_advanced (by dsimp only; rw [update_self]) older
  · simp only [done, false_and, if_false]
    have short : count ≠ batch.rows.length := fun all => done (ok.mpr all)
    refine ⟨fun right => .inl ?_, fun none => ?_⟩
    · -- a row that was appended stays and is read by the next step
      have same := congrArg (fun input => (input.1 relation).length) (right.failed done)
      simp only [InputSession.stepInput, rows, update_self, length_append, length_map,
        length_take] at same
      have positive := length_pos_iff.mpr empty
      omega
    · have unread : (s.session.insertInto faults declared relation batch).2.rowsOf =
          s.session.rowsOf := by
        rw [rows, none.resolve_right short]
        simp
      refine ⟨fun _ => ?_, fun ok => absurd ok done, fun ok => absurd ok done⟩
      simp only [InputSession.stepInput, unread, types]
      rw [rest]

/-- A session with an empty relation of one `FLOAT` column. -/
def floatInput : InputSession where
  session :=
    { twoRowSession false with
      rels := Foundations.SlotTable.empty.put
        ⟨"p", 1, [.float], [], true, 0, by simp, by simp, by simp⟩ }
  snapshots := fun _ => ⟨1, 0, 0⟩
  lastInsertedRelation := none
  pendingFullInputEval := false

/-- Zero, and a cell that is not finite. -/
def zeroAndInfinity : Batch :=
  ⟨1, [⟨[0]⟩, ⟨[0x7FF0000000000000]⟩], by decide, by decide⟩

/-- The second row is refused with all the memory there is, and the first one stays. -/
theorem sessionInsert_keeps_first_row :
    ¬ InsertRight floatInput "p" zeroAndInfinity
      (floatInput.insert ⟨false, false, fun _ => false⟩ (fun _ => 0) 0 false "p" zeroAndInfinity) :=
  fun right => absurd (congrArg (fun input => input.1 "p") (right.failed (by decide))) (by decide)

end Wirelog.Columnar

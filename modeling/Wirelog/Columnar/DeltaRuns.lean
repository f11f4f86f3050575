import Wirelog.Columnar.OrderMetadata

/-!
# Runs and the rows of an iteration

`col_op_consolidate_incremental_delta` keeps the rows of an iteration as a run of their own when
they are few, and calls all rows of the relation sorted. This is truthful when the old rows
increase strictly and the new ones all come after them, or when it merges old and new rows
(`DeltaInOrder`, `incrementalDelta_truthful`).

When there are too many runs they are merged by a heap. The heap compares the leading cells as
signed integers, also those of a `FLOAT` column, whose negative values this puts in the wrong
order (`LeadOrdered`, `compactRows_consolidated`).
-/

set_option autoImplicit false

namespace Wirelog.Columnar

open Foundations List

variable {types : List ColumnType}

/-! ## Merging runs -/

/-- No leading cell of a `FLOAT` column has its sign bit set. -/
def LeadOrdered (rows : List (TypedRow types)) : Prop :=
  types.head? = some .float → ∀ row ∈ rows, 0 ≤ (row.cell 0).toInt

theorem toNat_of_toInt_nonneg {cell : Cell} (positive : 0 ≤ cell.toInt) :
    cell.toNat < 2 ^ 63 ∧ (cell.toNat : Int) = cell.toInt := by
  have bound := cell.isLt
  rw [BitVec.toInt_eq_toNat_cond] at positive ⊢
  split_ifs at positive ⊢ with small
  · exact ⟨by omega, rfl⟩
  · omega

/-- Doubles that are not negative are ordered as integers. -/
theorem floatKey_of_nonneg {cell : Cell} (positive : 0 ≤ cell.toInt) :
    (floatKey cell).toNat = cell.toNat + 2 ^ 63 := by
  obtain ⟨small, -⟩ := toNat_of_toInt_nonneg positive
  have sign : cell.msb = false := by
    rw [BitVec.msb_eq_decide]
    simpa using small
  rw [floatKey, sign, if_neg (by simp), BitVec.toNat_xor]
  exact xor_two_pow_of_lt small

theorem cellKey_lt_of_toInt_lt {type : ColumnType} {x y : Cell}
    (positive : type = .float → 0 ≤ x.toInt ∧ 0 ≤ y.toInt) (below : x.toInt < y.toInt) :
    cellKey type x < cellKey type y := by
  unfold cellKey
  split_ifs with float
  · obtain ⟨left, right⟩ := positive float
    rw [floatKey_of_nonneg left, floatKey_of_nonneg right]
    have := (toNat_of_toInt_nonneg left).2
    have := (toNat_of_toInt_nonneg right).2
    omega
  · exact intKey_lt_iff.mpr below

theorem le_of_leadKey_le {rows : List (TypedRow types)} (lead : LeadOrdered rows)
    {a b : TypedRow types} (memberA : a ∈ rows) (memberB : b ∈ rows)
    (ordered : leadKey a ≤ leadKey b) : a ≤ b := by
  rcases Prod.Lex.le_iff.mp ordered with below | ⟨-, later⟩
  · obtain ⟨⟨xs⟩, widthA, _⟩ := a
    obtain ⟨⟨ys⟩, widthB, _⟩ := b
    obtain _ | ⟨type, types⟩ := types
    · obtain rfl := length_eq_zero_iff.mp widthA
      obtain rfl := length_eq_zero_iff.mp widthB
      exact absurd below (lt_irrefl _)
    obtain _ | ⟨x, xs⟩ := xs
    · cases widthA
    obtain _ | ⟨y, ys⟩ := ys
    · cases widthB
    rw [TypedRow.le_iff_keys]
    refine (cons_lt_cons_iff.mpr (.inl (cellKey_lt_of_toInt_lt ?_ below))).le
    intro float
    have head : (type :: types).head? = some ColumnType.float := congrArg some float
    exact ⟨lead head _ memberA, lead head _ memberB⟩
  · exact later

theorem leadKey_le_of_le {rows : List (TypedRow types)} (lead : LeadOrdered rows)
    {a b : TypedRow types} (memberA : a ∈ rows) (memberB : b ∈ rows) (ordered : a ≤ b) :
    leadKey a ≤ leadKey b := by
  rcases le_total (leadKey a) (leadKey b) with here | there
  · exact here
  have same := le_antisymm ordered (le_of_leadKey_le lead memberB memberA there)
  rw [same]

variable {r : OrderedRows types}

/-- **Merging truthful runs leaves their rows in strictly increasing order.** -/
theorem compactRows_consolidated (truthful : r.Truthful) (lead : LeadOrdered r.rows) :
    Consolidated (r.rows.take (r.runEnds.getLastD 0)) (compactRows r.rows r.runEnds) := by
  have perm : (heapMerge leadKey r.runs).Perm r.runs.flatten := heapMerge_perm r.runs
  have flat := segments_flatten r.rows (pairwise_zero_cons truthful.ends_increase)
  rw [drop_zero] at flat
  have inRows : ∀ row ∈ heapMerge leadKey r.runs, row ∈ r.rows := by
    intro row member
    have taken : row ∈ r.runs.flatten := perm.mem_iff.mp member
    rw [OrderedRows.runs, flat] at taken
    exact mem_of_mem_take taken
  have byLead : (heapMerge leadKey r.runs).Pairwise (leadKey · ≤ leadKey ·) := by
    apply heapMerge_sorted
    intro run member
    have within := (segments_sublist r.rows 0 r.runEnds run member).subset
    refine (truthful.runs_sorted run member).imp_of_mem ?_
    intro a b inA inB below
    exact leadKey_le_of_le lead (within inA) (within inB) below.le
  have sorted : (heapMerge leadKey r.runs).Pairwise (· ≤ ·) := by
    refine byLead.imp_of_mem ?_
    intro a b inA inB below
    exact le_of_leadKey_le lead (inRows a inA) (inRows b inB) below
  rw [compactRows, emitDistinct_none]
  refine ⟨uniqueAdjacent_lt sorted, ?_⟩
  intro row
  rw [mem_uniqueAdjacent, ← flat]
  exact perm.mem_iff

theorem OrderedRows.Truthful.compactRuns {r r' : OrderedRows types} (truthful : r.Truthful)
    (lead : LeadOrdered r.rows) {outOfMemory : Bool}
    (done : compactRuns outOfMemory r = some r') : r'.Truthful := by
  unfold Columnar.compactRuns at done
  split_ifs at done
  · exact Option.some.inj done ▸ truthful
  cases done
  exact .oneRun (compactRows_consolidated truthful lead).sorted

/-! ## Looking up a row -/

/-- The binary search by the typed order finds the rows of a strictly increasing run. -/
theorem search_cmp_iff {run : List (TypedRow types)} (sorted : run.Pairwise (· < ·))
    (row : TypedRow types) : search (fun probed => cmp probed row) run = true ↔ row ∈ run := by
  constructor
  · intro found
    obtain ⟨probed, member, equal⟩ := search_sound found
    rwa [(cmp_eq_eq_iff _ _).mp equal] at member
  · intro member
    obtain ⟨target, inside, rfl⟩ := getElem_of_mem member
    have ordered := pairwise_iff_getElem.mp sorted
    refine search_iff.mpr ⟨target, _, getElem?_eq_getElem inside, (cmp_eq_eq_iff _ _).mpr rfl, ?_⟩
    intro i _ probed probe
    obtain ⟨inRun, rfl⟩ := List.getElem?_eq_some_iff.mp probe
    exact ⟨fun before => (cmp_eq_lt_iff _ _).mpr (ordered i target inRun inside before),
      fun after => (cmp_eq_gt_iff _ _).mpr (ordered target i inside inRun after)⟩

theorem inRuns_iff {rows : List (TypedRow types)} {runEnds : List Nat}
    (increasing : ∀ run ∈ segments rows 0 runEnds, run.Pairwise (· < ·)) (row : TypedRow types) :
    inRuns rows runEnds row = true ↔ row ∈ (segments rows 0 runEnds).flatten := by
  rw [mem_flatten, inRuns, any_eq_true]
  refine exists_congr fun run => and_congr_right fun member => ?_
  exact search_cmp_iff (increasing run member) row

/-! ## The rows of an iteration -/

/-- Old and new rows will be merged: there are many new rows, and one of them does not come after
the last rows of all runs. -/
def MergesDelta (old : Nat) (r : OrderedRows types) : Prop :=
  old ≠ 0 ∧ old / 16 < (r.rows.drop old).toFinset.card ∧ ∃ row ∈ r.rows.drop old,
    runsBefore (r.rows.take old) (repairRuns r.runEnds old) row = false

/-- The old rows increase, and the new ones come after them; when there are many new rows only
because otherwise the rows are merged. -/
def AppendsDelta (old : Nat) (r : OrderedRows types) : Prop :=
  (r.rows.take old).Pairwise (· < ·) ∧
    ((r.rows.drop old).toFinset.card ≤ old / 16 → ∀ row ∈ r.rows.drop old,
      row ∈ r.rows.take old ∨ ∀ before ∈ r.rows.take old, before < row)

/-- What `col_op_consolidate_incremental_delta` needs in order to record a truthful order: memory
for sorting, nothing recorded as sorted among the new rows, runs that end at the old rows or old
rows that are one run, an order of the leading cells that is the typed one, and new rows that are
merged with the old ones or come after them. -/
structure DeltaInOrder (faults : IncrementalFaults) (old : Nat) (r : OrderedRows types) : Prop where
  memory : faults.sort = false
  sorted_le : r.sortedNrows ≤ old
  runs : r.runEnds.getLast? = some old ∨ (r.rows.take old).Pairwise (· < ·)
  lead : LeadOrdered r.rows
  order : MergesDelta old r ∨ AppendsDelta old r

theorem repairRuns_last (runEnds : List Nat) (old : Nat) :
    (repairRuns runEnds old).getLastD 0 = old := by
  unfold repairRuns
  split_ifs with same positive
  · rw [getLastD_eq_getLast?, same, Option.getD_some]
  · rfl
  simp only [getLastD_nil]
  omega

theorem repairRuns_truthful (truthful : r.Truthful) {old : Nat} (inside : old ≤ r.rows.length)
    (runs : r.runEnds.getLast? = some old ∨ (r.rows.take old).Pairwise (· < ·)) :
    OrderedRows.Truthful ⟨r.rows, r.sortedNrows, repairRuns r.runEnds old⟩ := by
  unfold repairRuns
  split_ifs with same positive
  · exact truthful
  · have sorted := runs.resolve_left same
    have only : ∀ run ∈ segments r.rows 0 [old], run = r.rows.take old := by simp [segments]
    exact ⟨truthful.sorted_le, truthful.sorted, pairwise_singleton _ _, by simpa using inside,
      fun run member => only run member ▸ sorted, pairwise_singleton _ _⟩
  · exact ⟨truthful.sorted_le, truthful.sorted, .nil, by simp,
      fun run member => absurd member not_mem_nil, .nil⟩

variable {runEnds : List Nat}

/-- A later row comes after what an earlier one comes after. -/
theorem runsBefore_mono {rows : List (TypedRow types)} {a b : TypedRow types} (later : a ≤ b)
    (before : runsBefore rows runEnds a = true) : runsBefore rows runEnds b = true := by
  unfold runsBefore at before ⊢
  rw [all_eq_true] at before ⊢
  intro stop member
  have here := before stop member
  rw [Bool.or_eq_true] at here ⊢
  refine here.imp id ?_
  cases rows[stop - 1]? with
  | none => exact id
  | some last => exact fun below => decide_eq_true ((of_decide_eq_true below).trans_le later)

section Delta

variable {old delta : List (TypedRow types)} {runEnds : List Nat}

/-- The ends of the runs with one more run behind them. -/
theorem ends_append {n : Nat} (increase : runEnds.Pairwise (· < ·)) (below : ∀ e ∈ runEnds, e < n) :
    (runEnds ++ [n]).Pairwise (· < ·) ∧ ∀ e ∈ runEnds ++ [n], e ≤ n := by
  refine ⟨pairwise_append.mpr ⟨increase, pairwise_singleton _ _, ?_⟩, ?_⟩
  · intro e member m last
    rw [mem_singleton.mp last]
    exact below e member
  · intro e member
    rcases mem_append.mp member with inRuns | last
    · exact (below e inRuns).le
    · exact (mem_singleton.mp last).le

theorem deltaFast_truthful {faults : IncrementalFaults} (sorted : (old ++ delta).Pairwise (· < ·))
    (increase : runEnds.Pairwise (· < ·)) (ends_le : ∀ e ∈ runEnds, e ≤ old.length)
    (some : delta ≠ []) (lead : LeadOrdered (old ++ delta)) :
    (deltaFast faults old delta runEnds).2.Truthful := by
  have longer : old.length < (old ++ delta).length := by
    have := length_pos_iff.mpr some
    rw [length_append]
    omega
  have below : ∀ e ∈ runEnds, e < (old ++ delta).length :=
    fun e member => (ends_le e member).trans_lt longer
  unfold deltaFast
  split_ifs
  · obtain ⟨increase', ends_le'⟩ := ends_append increase below
    exact .of_sorted sorted le_rfl increase' ends_le'
  obtain ⟨increase', ends_le'⟩ := ends_append
    (increase.sublist (dropLast_sublist runEnds))
    fun e member => below e (dropLast_subset runEnds member)
  have extended := OrderedRows.Truthful.of_sorted sorted le_rfl increase' ends_le'
  simp only
  split
  · exact extended
  rename_i compacted done
  exact extended.compactRuns lead done

theorem deltaNovel_truthful {faults : IncrementalFaults} {novel : List (TypedRow types)}
    {sortedNrows : Nat} (truthful : OrderedRows.Truthful ⟨old, sortedNrows, runEnds⟩)
    (whole : runEnds.getLastD 0 = old.length) (sorted : (old ++ novel).Pairwise (· < ·))
    (lead : LeadOrdered (old ++ novel)) :
    (deltaNovel faults old novel sortedNrows runEnds).2.Truthful := by
  obtain ⟨oldSorted, novelSorted, after⟩ := pairwise_append.mp sorted
  have appended : OrderedRows.Truthful ⟨old ++ novel, sortedNrows, runEnds⟩ := truthful.append
  unfold deltaNovel
  split_ifs with none few
  · exact .of_sorted oldSorted le_rfl truthful.ends_increase truthful.ends_le
  · have longer : old.length < (old ++ novel).length := by
      have := length_pos_iff.mpr none
      rw [length_append]
      omega
    obtain ⟨increase, ends_le⟩ := ends_append truthful.ends_increase
      fun e member => (truthful.ends_le e member).trans_lt longer
    exact .of_sorted sorted le_rfl increase ends_le
  · split
    · exact appended
    rename_i compacted done
    have many : ¬ runEnds.length ≤ 1 := by
      unfold colMaxRuns at few
      omega
    unfold compactRuns at done
    rw [if_neg many] at done
    split_ifs at done
    cases done
    -- the merged runs hold the old rows, before which no new row comes
    obtain ⟨compactSorted, same⟩ := compactRows_consolidated appended lead
    have oldOnly : (old ++ novel).take (runEnds.getLastD 0) = old := by
      rw [whole, take_left]
    have both : (compactRows (old ++ novel) runEnds ++ novel).Pairwise (· < ·) := by
      refine pairwise_append.mpr ⟨compactSorted, novelSorted, ?_⟩
      intro a inA b inB
      have inOld : a ∈ (old ++ novel).take (runEnds.getLastD 0) := (same a).mp inA
      exact after a (oldOnly ▸ inOld) b inB
    have longer : (compactRows (old ++ novel) runEnds).length <
        (compactRows (old ++ novel) runEnds ++ novel).length := by
      have := length_pos_iff.mpr none
      rw [length_append]
      omega
    obtain ⟨increase, ends_le⟩ := ends_append
      (pairwise_singleton (· < ·) (compactRows (old ++ novel) runEnds).length)
      fun e member => (mem_singleton.mp member).trans_lt longer
    exact .of_sorted both le_rfl increase ends_le

end Delta

/-- Strictly increasing rows come before a row when the last one does. -/
theorem lt_of_runsBefore {rows : List (TypedRow types)} {row : TypedRow types}
    (sorted : rows.Pairwise (· < ·)) (whole : runEnds.getLastD 0 = rows.length)
    (before : runsBefore rows runEnds row = true) : ∀ other ∈ rows, other < row := by
  intro other member
  obtain ⟨i, inside, rfl⟩ := getElem_of_mem member
  have last : rows.length - 1 < rows.length := by omega
  have isEnd : rows.length ∈ runEnds := by
    rcases getLastD_mem_or runEnds with found | zero
    · rwa [whole] at found
    · omega
  have here := all_eq_true.mp before _ isEnd
  rw [Bool.or_eq_true] at here
  rcases here with zero | below
  · have := beq_iff_eq.mp zero
    omega
  rw [List.getElem?_eq_getElem last] at below
  have lastBelow : rows[rows.length - 1] < row := of_decide_eq_true below
  rcases Nat.lt_or_ge i (rows.length - 1) with earlier | same
  · exact (pairwise_iff_getElem.mp sorted i _ inside last earlier).trans lastBelow
  have position : i = rows.length - 1 := by omega
  subst position
  exact lastBelow

/-- As many rows are left as there are different ones. -/
theorem Consolidated.length_eq {rows out : List (TypedRow types)} (done : Consolidated rows out) :
    out.length = rows.toFinset.card := by
  have sets : out.toFinset = rows.toFinset := by
    ext row
    simp only [mem_toFinset]
    exact done.same row
  rw [← sets, toFinset_card_of_nodup (done.sorted.imp ne_of_lt)]

theorem LeadOrdered.mono {rows some : List (TypedRow types)} (lead : LeadOrdered rows)
    (subset : ∀ row ∈ some, row ∈ rows) : LeadOrdered some :=
  fun float row member => lead float row (subset row member)

/-- The old rows keep their records, whatever comes after them. -/
theorem OrderedRows.Truthful.keepOld {old : Nat}
    (repaired : OrderedRows.Truthful ⟨r.rows, r.sortedNrows, runEnds⟩)
    (sorted_le : r.sortedNrows ≤ old) (last : runEnds.getLastD 0 = old)
    (inside : old ≤ r.rows.length) (after : List (TypedRow types)) :
    OrderedRows.Truthful ⟨r.rows.take old ++ after, r.sortedNrows, runEnds⟩ := by
  have covered : OrderedRows.covered ⟨r.rows, r.sortedNrows, runEnds⟩ = old := by
    unfold OrderedRows.covered
    rw [last]
    exact max_eq_right sorted_le
  have length : (r.rows.take old).length = old := by simpa using inside
  apply repaired.of_take
  rw [covered, take_append_of_le_length length.ge, take_take, Nat.min_self]

/-- Old rows that increase, with new rows behind them that come after each old one. -/
theorem sorted_append {old delta : List (TypedRow types)} (oldSorted : old.Pairwise (· < ·))
    (deltaSorted : delta.Pairwise (· < ·)) (after : ∀ row ∈ delta, ∀ before ∈ old, before < row) :
    (old ++ delta).Pairwise (· < ·) :=
  pairwise_append.mpr ⟨oldSorted, deltaSorted, fun a inA b inB => after b inB a inA⟩

theorem oldRun_sorted {old : List (TypedRow types)} {sortedNrows : Nat}
    (truthful : OrderedRows.Truthful ⟨old, sortedNrows, runEnds⟩)
    (whole : runEnds.getLastD 0 = old.length) (lead : LeadOrdered old) :
    (oldRun old runEnds).Pairwise (· < ·) := by
  unfold oldRun
  split_ifs with several
  · exact (compactRows_consolidated truthful lead).sorted
  have runs_sorted := truthful.runs_sorted
  match runEnds, several, whole with
  | [], _, whole =>
    rw [length_eq_zero_iff.mp whole.symm]
    exact .nil
  | [stop], _, whole =>
    have only : old ∈ OrderedRows.runs ⟨old, sortedNrows, [stop]⟩ := by
      have stops : stop = old.length := whole
      simp [OrderedRows.runs, segments, stops]
    exact runs_sorted old only
  | _ :: _ :: _, several, _ => simp at several

/-- **The records are truthful after the rows of an iteration were consolidated.** -/
theorem incrementalDelta_truthful (truthful : r.Truthful) {faults : IncrementalFaults} {old : Nat}
    (inOrder : r.rows.length ≤ old ∨ DeltaInOrder faults old r) :
    (incrementalDelta faults old r).2.1.Truthful := by
  unfold incrementalDelta
  by_cases nothing : r.rows.length ≤ old
  · rwa [if_pos nothing]
  rw [if_neg nothing]
  obtain ⟨memory, sorted_le, runs, lead, order⟩ := inOrder.resolve_left nothing
  have inside : old ≤ r.rows.length := by omega
  have repaired := repairRuns_truthful truthful inside runs
  have last := repairRuns_last r.runEnds old
  have length : (r.rows.take old).length = old := by simpa using inside
  have done := consolidated_uniqueAdjacent (r.rows.drop old)
  have count := done.length_eq
  have some : uniqueAdjacent (sortTyped false (r.rows.drop old)) ≠ [] := by
    intro none
    obtain ⟨row, member⟩ := exists_mem_of_ne_nil (r.rows.drop old) (by simpa using nothing)
    have := (done.same row).mpr member
    rw [none] at this
    cases this
  simp only [memory]
  unfold MergesDelta AppendsDelta at order
  generalize repairRuns r.runEnds old = runEnds at *
  generalize uniqueAdjacent (sortTyped false (r.rows.drop old)) = delta at *
  have kept := repaired.keepOld sorted_le last inside
  have keptOld : OrderedRows.Truthful ⟨r.rows.take old, r.sortedNrows, runEnds⟩ := by
    simpa using kept []
  have whole : runEnds.getLastD 0 = (r.rows.take old).length := last.trans length.symm
  have inDelta : ∀ row ∈ delta, row ∈ r.rows := fun row member =>
    mem_of_mem_drop ((done.same row).mp member)
  have leadOf : ∀ after : List (TypedRow types), (∀ row ∈ after, row ∈ delta) →
      LeadOrdered (r.rows.take old ++ after) := by
    intro after subset
    refine lead.mono ?_
    intro row member
    rcases mem_append.mp member with inOld | inAfter
    · exact mem_of_mem_take inOld
    · exact inDelta row (subset row inAfter)
  by_cases fast : old = 0 ∨ delta.head?.all (runsBefore (r.rows.take old) runEnds) = true
  · rw [if_pos fast]
    split_ifs
    · simpa using kept _
    -- the first new row comes after all old ones, and the old ones increase
    have sorted : (r.rows.take old ++ delta).Pairwise (· < ·) := by
      obtain zero | before := fast
      · subst zero
        simpa using done.sorted
      obtain ⟨first, others, rfl⟩ := exists_cons_of_ne_nil some
      have later : ∀ row ∈ first :: others, first ≤ row := by
        intro row member
        rcases mem_cons.mp member with rfl | inOthers
        · exact le_rfl
        · exact ((pairwise_cons.mp done.sorted).1 row inOthers).le
      rcases order with ⟨-, -, row, member, notBefore⟩ | ⟨oldSorted, -⟩
      · have := runsBefore_mono (later row ((done.same row).mpr member)) before
        rw [notBefore] at this
        cases this
      · refine sorted_append oldSorted done.sorted ?_
        intro row member other inOld
        exact (lt_of_runsBefore oldSorted whole before other inOld).trans_le (later row member)
    exact deltaFast_truthful sorted keptOld.ends_increase keptOld.ends_le some
      (leadOf delta fun _ => id)
  rw [if_neg fast]
  by_cases few : delta.length ≤ old / 16 ∧ runEnds ≠ []
  · rw [if_pos few]
    split
    · simpa using kept _
    have after : (r.rows.take old).Pairwise (· < ·) ∧ ∀ row ∈ r.rows.drop old,
        row ∈ r.rows.take old ∨ ∀ before ∈ r.rows.take old, before < row := by
      rcases order with ⟨-, many, -⟩ | ⟨oldSorted, after⟩
      · omega
      · exact ⟨oldSorted, after (by omega)⟩
    have subset : ∀ row ∈ delta.filter (!inRuns (r.rows.take old) runEnds ·), row ∈ delta :=
      fun row member => mem_of_mem_filter member
    refine deltaNovel_truthful keptOld whole (sorted_append after.1 ?_ ?_) (leadOf _ subset)
    · exact done.sorted.sublist filter_sublist
    · intro row member
      obtain ⟨inDelta, absent⟩ := mem_filter.mp member
      refine (after.2 row ((done.same row).mp inDelta)).resolve_left ?_
      intro inOld
      have found : inRuns (r.rows.take old) runEnds row = true := by
        rwa [inRuns_iff keptOld.runs_sorted,
          segments_flatten _ (pairwise_zero_cons keptOld.ends_increase), whole, take_length]
      rw [found] at absent
      cases absent
  · rw [if_neg few]
    split_ifs
    · simpa using kept _
    have leadOld : LeadOrdered (r.rows.take old) := lead.mono fun row => mem_of_mem_take
    exact .oneRun (mergeUnique_lt (oldRun_sorted keptOld whole leadOld) done.sorted)

end Wirelog.Columnar

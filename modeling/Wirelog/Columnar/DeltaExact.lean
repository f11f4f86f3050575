import Wirelog.Columnar.RunCompaction

/-!
# Consolidating the rows of an iteration

`col_op_consolidate_incremental_delta` sorts the new rows of a relation and then takes one of three
ways: it appends them as a run, it looks each of them up in the old runs, or it merges them with
the old rows. On each way the relation then holds the old and the new rows, each once, in runs that
increase strictly, and the delta holds the rows that were not there before, exactly when three
things hold (`incrementalDelta_correct_iff`):

* the sort had memory, or the new rows were in order anyway (`SortsNew`);
* the runs that are compacted on the way follow each other (`CompactsInOrder`);
* no append to the delta failed, which nobody looks at (`AppendsAll`).
-/

set_option autoImplicit false

namespace Wirelog.Columnar

open Foundations List

variable {types : List ColumnType}

/-! ## The new rows -/

theorem sortTyped_outOfMemory (rows : List (TypedRow types)) : sortTyped true rows = rows := by
  unfold sortTyped radixSortRaw
  by_cases few : rows.length ≤ 1
  · rw [if_pos few, Option.getD_some]
  · rw [if_neg few, if_pos rfl, Option.getD_none]

theorem sortTyped_perm (outOfMemory : Bool) (rows : List (TypedRow types)) :
    (sortTyped outOfMemory rows).Perm rows := by
  cases outOfMemory with
  | false => exact (sortTyped_spec rows).2
  | true => rw [sortTyped_outOfMemory]

theorem sortTyped_sorted_iff {outOfMemory : Bool} {rows : List (TypedRow types)} :
    (sortTyped outOfMemory rows).Pairwise (· ≤ ·) ↔
      outOfMemory = false ∨ rows.Pairwise (· ≤ ·) := by
  cases outOfMemory with
  | false => simp [(sortTyped_spec rows).1]
  | true => simp [sortTyped_outOfMemory]

/-- The new rows once they were sorted, if there was memory, and adjacent equal rows dropped. -/
def batch (faults : IncrementalFaults) (old : Nat) (r : OrderedRows types) :
    List (TypedRow types) :=
  uniqueAdjacent (sortTyped faults.sort (r.rows.drop old))

section Batch

variable {faults : IncrementalFaults} {old : Nat} {r : OrderedRows types}

theorem mem_batch {row : TypedRow types} : row ∈ batch faults old r ↔ row ∈ r.rows.drop old := by
  rw [batch, mem_uniqueAdjacent]
  exact (sortTyped_perm _ _).mem_iff

theorem batch_lt_of_le (sorted : (batch faults old r).Pairwise (· ≤ ·)) :
    (batch faults old r).Pairwise (· < ·) :=
  uniqueAdjacent_lt (pairwise_le_of_uniqueAdjacent sorted)

theorem batch_sorted_iff :
    (batch faults old r).Pairwise (· < ·) ↔
      faults.sort = false ∨ (r.rows.drop old).Pairwise (· ≤ ·) := by
  rw [batch, uniqueAdjacent_lt_iff, sortTyped_sorted_iff]

end Batch

/-! ## The runs -/

theorem segments_concat {α : Type*} (rows : List α) (start : Nat) (stops : List Nat) (stop : Nat) :
    segments rows start (stops ++ [stop]) = segments rows start stops ++
      [(rows.drop (stops.getLastD start)).take (stop - stops.getLastD start)] := by
  induction stops generalizing start with
  | nil => rfl
  | cons first stops ih =>
    rw [cons_append, segments, segments, ih, cons_append, getLastD_cons]

/-- Rows in disjoint runs that increase strictly. -/
structure OldRuns (rows : List (TypedRow types)) (runEnds : List Nat) : Prop where
  form : RunForm ⟨rows, 0, runEnds⟩
  disjoint : (segments rows 0 runEnds).Pairwise List.Disjoint

namespace OldRuns

variable {rows new : List (TypedRow types)} {runEnds : List Nat}

section

variable (runs : OldRuns rows runEnds)

include runs

theorem flatten : (segments rows 0 runEnds).flatten = rows :=
  runs.form.flatten

theorem increasing : ∀ run ∈ segments rows 0 runEnds, run.Pairwise (· < ·) := runs.form.increasing

theorem ends_le : ∀ e ∈ runEnds, e ≤ rows.length := by
  intro e member
  have ends : (0 :: runEnds).Pairwise (· ≤ ·) :=
    pairwise_cons.mpr ⟨fun e _ => Nat.zero_le e, runs.form.ends⟩
  have last := le_getLastD ends e (mem_cons_of_mem _ member)
  exact last.trans_eq runs.form.covers

/-- What stands behind the rows does not change their runs. -/
theorem segments_append (new : List (TypedRow types)) :
    segments (rows ++ new) 0 runEnds = segments rows 0 runEnds := by
  refine segments_congr (n := rows.length) ?_ 0 runs.ends_le
  rw [take_left, take_length]

theorem segments_newRun (new : List (TypedRow types)) :
    segments (rows ++ new) 0 (runEnds ++ [(rows ++ new).length]) =
      segments rows 0 runEnds ++ [new] := by
  have covers : runEnds.getLastD 0 = rows.length := runs.form.covers
  rw [segments_concat, runs.segments_append, covers, drop_left, length_append,
    Nat.add_sub_cancel_left, take_length]

theorem segments_extend (some : runEnds ≠ []) (new : List (TypedRow types)) :
    ∃ init last, segments rows 0 runEnds = init ++ [last] ∧
      segments (rows ++ new) 0 (runEnds.dropLast ++ [(rows ++ new).length]) =
        init ++ [last ++ new] := by
  have covers : runEnds.getLastD 0 = rows.length := runs.form.covers
  obtain ⟨ends, stop, rfl⟩ : ∃ ends stop, runEnds = ends ++ [stop] :=
    ⟨_, _, (dropLast_append_getLast some).symm⟩
  have whole : stop = rows.length := by simpa using covers
  have start_le : ends.getLastD 0 ≤ rows.length := by
    rcases getLastD_mem_or ends with member | zero
    · exact runs.ends_le _ (mem_append_left _ member)
    · omega
  have init : segments (rows ++ new) 0 ends = segments rows 0 ends := by
    refine segments_congr (n := rows.length) ?_ 0 ?_
    · rw [take_left, take_length]
    · intro e member
      exact runs.ends_le e (mem_append_left _ member)
  refine ⟨segments rows 0 ends, rows.drop (ends.getLastD 0), ?_, ?_⟩
  · rw [segments_concat, whole, ← length_drop, take_length]
  · rw [dropLast_concat, segments_concat, init, drop_append_of_le_length start_le]
    congr 2
    apply take_of_length_le
    simp only [length_append, length_drop]
    omega

theorem lt_of_runsBefore {row : TypedRow types} (before : runsBefore rows runEnds row = true) :
    ∀ other ∈ rows, other < row := by
  have each : ∀ (stops : List Nat) (start : Nat), (∀ e ∈ stops, e ≤ rows.length) →
      (∀ run ∈ segments rows start stops, run.Pairwise (· < ·)) →
      runsBefore rows stops row = true →
      ∀ run ∈ segments rows start stops, ∀ other ∈ run, other < row := by
    intro stops
    induction stops with
    | nil => exact fun _ _ _ _ _ absent => nomatch absent
    | cons stop stops ih =>
      intro start inside increasing before run member other inRun
      unfold runsBefore at before
      rw [all_cons, Bool.and_eq_true] at before
      rcases mem_cons.mp member with rfl | later
      · -- the row before the end of the run is its last one
        have here := inside stop mem_cons_self
        obtain ⟨i, bound, rfl⟩ := getElem_of_mem inRun
        have bound' := bound
        simp only [length_take, length_drop] at bound'
        have last : stop - 1 < rows.length := by omega
        have lastBelow : rows[stop - 1] < row := by
          have := before.1
          rw [List.getElem?_eq_getElem last, Bool.or_eq_true] at this
          rcases this with zero | below
          · have := beq_iff_eq.mp zero
            omega
          · exact of_decide_eq_true below
        have final : stop - 1 - start < ((rows.drop start).take (stop - start)).length := by
          simp only [length_take, length_drop]
          omega
        have lastRow : ((rows.drop start).take (stop - start))[stop - 1 - start] =
            rows[stop - 1] := by
          rw [getElem_take, getElem_drop]
          congr 1
          omega
        have sorted := increasing _ mem_cons_self
        rcases Nat.lt_or_ge i (stop - 1 - start) with earlier | same
        · have below := pairwise_iff_getElem.mp sorted i _ bound final earlier
          rw [lastRow] at below
          exact below.trans lastBelow
        · have position : i = stop - 1 - start := by omega
          subst position
          rw [lastRow]
          exact lastBelow
      · exact ih stop (fun e inStops => inside e (mem_cons_of_mem _ inStops))
          (fun run inRuns => increasing run (mem_cons_of_mem _ inRuns)) before.2 run later
          other inRun
  intro other member
  rw [← runs.flatten] at member
  obtain ⟨run, isRun, inRun⟩ := mem_flatten.mp member
  exact each runEnds 0 runs.ends_le runs.increasing before run isRun other inRun

variable (row : TypedRow types)

theorem inRuns_iff : inRuns rows runEnds row = true ↔ row ∈ rows := by
  rw [Columnar.inRuns_iff runs.increasing, runs.flatten]

theorem compactRows_sorted_iff :
    (compactRows rows runEnds).Pairwise (· < ·) ↔ ListsFollow lead (segments rows 0 runEnds) := by
  constructor
  · intro sorted
    exact listsFollow_of_compactRows_sorted (r := ⟨rows, 0, runEnds⟩) runs.increasing runs.disjoint
      sorted
  · intro follow
    exact compactRows_sorted (r := ⟨rows, 0, runEnds⟩) runs.increasing follow

theorem mem_compactRows : row ∈ compactRows rows runEnds ↔ row ∈ rows := by
  have same := Columnar.mem_compactRows (r := ⟨rows, 0, runEnds⟩) row
  rwa [runs.form.flatten] at same

theorem mem_oldRun : row ∈ oldRun rows runEnds ↔ row ∈ rows := by
  unfold oldRun
  split_ifs
  · exact runs.mem_compactRows row
  · exact Iff.rfl

theorem oldRun_sorted_iff :
    (oldRun rows runEnds).Pairwise (· < ·) ↔
      (1 < runEnds.length → ListsFollow lead (segments rows 0 runEnds)) := by
  unfold oldRun
  by_cases several : 1 < runEnds.length
  · rw [if_pos several, runs.compactRows_sorted_iff]
    exact ⟨fun follow _ => follow, fun follow => follow several⟩
  rw [if_neg several]
  have compacted := runs.form.compacted_self (not_lt.mp several)
  exact iff_of_true compacted.consolidated.sorted fun many => absurd many several

end

end OldRuns

/-! ## What the consolidation should do -/

/-- The relation holds some rows, each once, in disjoint runs that increase strictly. -/
structure HoldsInRuns (rows : List (TypedRow types)) (r' : OrderedRows types) : Prop where
  distinct : r'.rows.Nodup
  same : ∀ row, row ∈ r'.rows ↔ row ∈ rows
  increasing : ∀ run ∈ r'.runs, run.Pairwise (· < ·)
  disjoint : r'.runs.Pairwise List.Disjoint

/-- The delta holds the new rows that are no old ones, in order. -/
structure IsDelta (old : Nat) (r : OrderedRows types) (out : List (TypedRow types)) : Prop where
  sorted : out.Pairwise (· < ·)
  same : ∀ row, row ∈ out ↔ row ∈ r.rows.drop old ∧ row ∉ r.rows.take old

/-- When the runs are all rows, these are different if the runs are as they should be. -/
theorem holdsInRuns_iff {rows : List (TypedRow types)} {r' : OrderedRows types}
    {runs : List (List (TypedRow types))} (isRuns : r'.runs = runs)
    (whole : runs.flatten = r'.rows) (same : ∀ row, row ∈ r'.rows ↔ row ∈ rows) :
    HoldsInRuns rows r' ↔ (∀ run ∈ runs, run.Pairwise (· < ·)) ∧ runs.Pairwise List.Disjoint := by
  subst isRuns
  constructor
  · intro holds
    exact ⟨holds.increasing, holds.disjoint⟩
  · rintro ⟨increasing, disjoint⟩
    refine ⟨?_, same, increasing, disjoint⟩
    rw [← whole]
    exact nodup_flatten.mpr ⟨fun run member => (increasing run member).imp ne_of_lt, disjoint⟩

theorem holdsInRuns_oneRun {rows out : List (TypedRow types)}
    (same : ∀ row, row ∈ out ↔ row ∈ rows) :
    HoldsInRuns rows (.oneRun out) ↔ out.Pairwise (· < ·) := by
  rw [holdsInRuns_iff (runs_oneRun out) flatten_singleton same]
  simp

/-- Old runs with a new run behind them, none of whose rows is an old one. -/
theorem holdsInRuns_newRun {rows old new : List (TypedRow types)} {runEnds : List Nat}
    {sortedNrows : Nat} (runs : OldRuns old runEnds)
    (same : ∀ row, row ∈ old ++ new ↔ row ∈ rows) (apart : new.Pairwise (· < ·) →
      ∀ row ∈ new, row ∉ old) :
    HoldsInRuns rows ⟨old ++ new, sortedNrows, runEnds ++ [(old ++ new).length]⟩ ↔
      new.Pairwise (· < ·) := by
  have whole : (segments old 0 runEnds ++ [new]).flatten = old ++ new := by
    rw [flatten_append, runs.flatten, flatten_singleton]
  have runs_eq : OrderedRows.runs ⟨old ++ new, sortedNrows, runEnds ++ [(old ++ new).length]⟩ =
      segments old 0 runEnds ++ [new] := runs.segments_newRun new
  rw [holdsInRuns_iff runs_eq whole same]
  constructor
  · rintro ⟨increasing, -⟩
    exact increasing new (by simp)
  · intro sorted
    refine ⟨forall_mem_append.mpr ⟨runs.increasing, by simpa⟩,
      pairwise_append.mpr ⟨runs.disjoint, pairwise_singleton _ _, ?_⟩⟩
    intro run isRun last isNew row inRun inNew
    rw [mem_singleton.mp isNew] at inNew
    refine apart sorted row inNew ?_
    rw [← runs.flatten]
    exact mem_flatten.mpr ⟨run, isRun, inRun⟩

theorem holdsInRuns_twoRuns {rows front new : List (TypedRow types)} {sortedNrows : Nat}
    (same : ∀ row, row ∈ front ++ new ↔ row ∈ rows) (apart : ∀ row ∈ new, row ∉ front) :
    HoldsInRuns rows ⟨front ++ new, sortedNrows, [front.length, (front ++ new).length]⟩ ↔
      front.Pairwise (· < ·) ∧ new.Pairwise (· < ·) := by
  have runs_eq : OrderedRows.runs ⟨front ++ new, sortedNrows,
      [front.length, (front ++ new).length]⟩ = [front, new] := by
    simp [OrderedRows.runs, segments]
  have disjoint : front.Disjoint new := fun row inFront inNew => apart row inNew inFront
  rw [holdsInRuns_iff runs_eq (by simp) same]
  simp [disjoint]

/-! ## The three ways -/

/-- The runs that the append way compacts when there is no room for another one: the new rows stand
behind the last run. -/
def extendedRuns (old new : List (TypedRow types)) (runEnds : List Nat) :
    List (List (TypedRow types)) :=
  segments (old ++ new) 0 (runEnds.dropLast ++ [(old ++ new).length])

section Ways

variable {rows old new : List (TypedRow types)} {runEnds : List Nat} {faults : IncrementalFaults}

section

variable (runs : OldRuns old runEnds)

include runs

/-- New rows in order come after the old runs when the first of them does. -/
theorem lt_of_head (before : old = [] ∨ new.head?.all (runsBefore old runEnds) = true)
    (sorted : new.Pairwise (· < ·)) : ∀ row ∈ new, ∀ other ∈ old, other < row := by
  intro row inNew other inOld
  rcases before with rfl | first
  · cases inOld
  cases new with
  | nil => cases inNew
  | cons head tail =>
    have below := runs.lt_of_runsBefore first other inOld
    rcases mem_cons.mp inNew with rfl | later
    · exact below
    · exact below.trans ((pairwise_cons.mp sorted).1 row later)

/-- With new rows in order behind the last run the runs are still disjoint and increasing. -/
theorem OldRuns.extended (some : runEnds ≠ []) (sorted : new.Pairwise (· < ·))
    (after : ∀ row ∈ new, ∀ other ∈ old, other < row) :
    OldRuns (old ++ new) (runEnds.dropLast ++ [(old ++ new).length]) := by
  obtain ⟨init, last, runs_eq, extended_eq⟩ := runs.segments_extend some new
  have inOld : ∀ run ∈ init ++ [last], ∀ row ∈ run, row ∈ old := by
    intro run member row inRun
    rw [← runs.flatten, runs_eq]
    exact mem_flatten.mpr ⟨run, member, inRun⟩
  have increasing := runs.increasing
  have disjoint := runs.disjoint
  rw [runs_eq] at increasing disjoint
  obtain ⟨initDisjoint, -, cross⟩ := pairwise_append.mp disjoint
  refine ⟨⟨?_, ?_, ?_, ?_⟩, ?_⟩
  · have few : runEnds.length ≤ colMaxRuns := runs.form.few
    have := length_pos_iff.mpr some
    simp only [length_append, length_dropLast, length_singleton]
    omega
  · refine pairwise_append.mpr ⟨runs.form.ends.sublist (dropLast_sublist runEnds),
      pairwise_singleton _ _, ?_⟩
    intro e member n isLast
    rw [mem_singleton.mp isLast, length_append]
    exact (runs.ends_le e (dropLast_subset runEnds member)).trans (Nat.le_add_right _ _)
  · exact getLastD_concat
  · intro run member
    have isRun : run ∈ init ++ [last ++ new] := extended_eq ▸ member
    rcases mem_append.mp isRun with isOld | isLast
    · exact increasing run (mem_append_left _ isOld)
    rw [mem_singleton.mp isLast]
    refine pairwise_append.mpr ⟨increasing last (by simp), sorted, ?_⟩
    intro a inLast b inNew
    exact after b inNew a (inOld last (by simp) a inLast)
  · rw [extended_eq]
    refine pairwise_append.mpr ⟨initDisjoint, pairwise_singleton _ _, ?_⟩
    intro run isRun extended isLast row inRun inExtended
    rw [mem_singleton.mp isLast] at inExtended
    rcases mem_append.mp inExtended with inLast | inNew
    · exact cross run isRun last (mem_singleton_self last) inRun inLast
    · exact lt_irrefl row (after row inNew row (inOld run (mem_append_left _ isRun) row inRun))

theorem OldRuns.flatten_extended (some : runEnds ≠ []) (new : List (TypedRow types)) :
    (extendedRuns old new runEnds).flatten = old ++ new := by
  obtain ⟨init, last, runs_eq, extended_eq⟩ := runs.segments_extend some new
  have whole := runs.flatten
  rw [runs_eq, flatten_append, flatten_singleton] at whole
  rw [extendedRuns, extended_eq, flatten_append, flatten_singleton, ← append_assoc, whole]

theorem OldRuns.mem_compactRows_extended (some : runEnds ≠ []) (new : List (TypedRow types))
    (row : TypedRow types) :
    row ∈ compactRows (old ++ new) (runEnds.dropLast ++ [(old ++ new).length]) ↔
      row ∈ old ++ new := by
  have whole := runs.flatten_extended some new
  rw [extendedRuns] at whole
  rw [compactRows, emitDistinct_none, mem_uniqueAdjacent, (heapMerge_perm _).mem_iff, whole]

/-- Compaction keeps the order of each run, so rows in order were in order before. -/
theorem OldRuns.le_of_compactRows_extended (some : runEnds ≠ [])
    (sorted : (compactRows (old ++ new) (runEnds.dropLast ++ [(old ++ new).length])).Pairwise
      (· < ·)) : new.Pairwise (· ≤ ·) := by
  obtain ⟨init, last, -, extended_eq⟩ := runs.segments_extend some new
  rw [compactRows, emitDistinct_none] at sorted
  have merged := uniqueAdjacent_lt_iff.mp sorted
  have inMerge : (last ++ new).Sublist (heapMerge leadKey (segments (old ++ new) 0
      (runEnds.dropLast ++ [(old ++ new).length]))) := by
    refine sublist_heapMerge ?_
    rw [extended_eq]
    simp
  exact merged.sublist ((sublist_append_right last new).trans inMerge)

/-- **Appending the new rows as a run is right when they are in order, and the runs follow each
other if they must be compacted.** -/
theorem deltaFast_holds_iff (before : old = [] ∨ new.head?.all (runsBefore old runEnds) = true)
    (strict : new.Pairwise (· ≤ ·) → new.Pairwise (· < ·))
    (same : ∀ row, row ∈ old ++ new ↔ row ∈ rows)
    (returned : (deltaFast faults old new runEnds).1 = .ok) :
    HoldsInRuns rows (deltaFast faults old new runEnds).2 ↔
      new.Pairwise (· < ·) ∧
        (colMaxRuns ≤ runEnds.length → ListsFollow lead (extendedRuns old new runEnds)) := by
  have apart : new.Pairwise (· < ·) → ∀ row ∈ new, row ∉ old := by
    intro sorted row inNew inOld
    exact lt_irrefl row (lt_of_head runs before sorted row inNew row inOld)
  by_cases room : runEnds.length < colMaxRuns
  · have full : ¬ colMaxRuns ≤ runEnds.length := by omega
    rw [deltaFast, if_pos room, holdsInRuns_newRun runs same apart]
    exact ⟨fun sorted => ⟨sorted, fun many => absurd many full⟩, And.left⟩
  have full : colMaxRuns ≤ runEnds.length := not_lt.mp room
  have many : runEnds ≠ [] := by
    rintro rfl
    exact absurd full (by decide)
  have notFew : ¬ (runEnds.dropLast ++ [(old ++ new).length]).length ≤ 1 := by
    unfold colMaxRuns at full
    simp only [length_append, length_dropLast, length_singleton]
    omega
  rw [deltaFast, if_neg room] at returned ⊢
  simp only [compactRuns, if_neg notFew] at returned ⊢
  cases memory : faults.compact with
  | true => simp [memory] at returned
  | false =>
    simp only [Bool.false_eq_true, if_false]
    rw [holdsInRuns_oneRun fun row => (runs.mem_compactRows_extended many new row).trans (same row)]
    constructor
    · intro sorted
      have ordered := strict (runs.le_of_compactRows_extended many sorted)
      have extended := runs.extended many ordered (lt_of_head runs before ordered)
      exact ⟨ordered, fun _ => extended.compactRows_sorted_iff.mp sorted⟩
    · rintro ⟨ordered, follow⟩
      have extended := runs.extended many ordered (lt_of_head runs before ordered)
      exact extended.compactRows_sorted_iff.mpr (follow full)

/-- **Keeping the rows that are in no run as a run is right when they are in order, and the runs
follow each other if they must be compacted.** -/
theorem deltaNovel_holds_iff {sortedNrows : Nat} (apart : ∀ row ∈ new, row ∉ old)
    (same : ∀ row, row ∈ old ++ new ↔ row ∈ rows)
    (returned : (deltaNovel faults old new sortedNrows runEnds).1 = .ok) :
    HoldsInRuns rows (deltaNovel faults old new sortedNrows runEnds).2 ↔
      new.Pairwise (· < ·) ∧ (new ≠ [] → colMaxRuns ≤ runEnds.length →
        ListsFollow lead (segments old 0 runEnds)) := by
  by_cases nothing : new = []
  · subst nothing
    rw [deltaNovel, if_pos rfl]
    refine iff_of_true ?_ ⟨.nil, fun some => absurd rfl some⟩
    refine (holdsInRuns_iff rfl ?_ fun row => ?_).mpr ⟨runs.increasing, runs.disjoint⟩
    · exact runs.flatten
    · rw [← same, append_nil]
  by_cases room : runEnds.length < colMaxRuns
  · have full : ¬ colMaxRuns ≤ runEnds.length := by omega
    rw [deltaNovel, if_neg nothing, if_pos room, holdsInRuns_newRun runs same fun _ => apart]
    exact ⟨fun sorted => ⟨sorted, fun _ many => absurd many full⟩, And.left⟩
  have full : colMaxRuns ≤ runEnds.length := not_lt.mp room
  have notFew : ¬ runEnds.length ≤ 1 := by
    unfold colMaxRuns at full
    omega
  rw [deltaNovel, if_neg nothing, if_neg room] at returned ⊢
  simp only [compactRuns, if_neg notFew] at returned ⊢
  cases memory : faults.compact with
  | true => simp [memory] at returned
  | false =>
    simp only [Bool.false_eq_true, if_false]
    have compacted : compactRows (old ++ new) runEnds = compactRows old runEnds := by
      rw [compactRows, runs.segments_append, compactRows]
    have members := runs.mem_compactRows
    rw [compacted, ← runs.compactRows_sorted_iff]
    refine (holdsInRuns_twoRuns ?_ ?_).trans ?_
    · intro row
      rw [← same, mem_append, mem_append]
      exact or_congr (members row) Iff.rfl
    · intro row inNew inFront
      exact apart row inNew ((members row).mp inFront)
    · constructor
      · rintro ⟨frontSorted, newSorted⟩
        exact ⟨newSorted, fun _ _ => frontSorted⟩
      · rintro ⟨newSorted, frontSorted⟩
        exact ⟨frontSorted nothing full, newSorted⟩

/-- **Merging old and new rows is right when the new ones are in order, and the old runs follow
each other if there are several.** -/
theorem mergeOld_holds_iff (same : ∀ row, row ∈ old ++ new ↔ row ∈ rows) :
    HoldsInRuns rows (.oneRun (mergeUnique (oldRun old runEnds) new)) ↔
      new.Pairwise (· < ·) ∧ (1 < runEnds.length → ListsFollow lead (segments old 0 runEnds)) := by
  rw [holdsInRuns_oneRun, mergeUnique_lt_iff, and_comm, runs.oldRun_sorted_iff]
  intro row
  rw [mem_mergeUnique, runs.mem_oldRun, ← same, mem_append]

end

end Ways

/-! ## The delta -/

variable (fails : Nat → Bool) (rows : List (TypedRow types))

/-- The rows that reach `delta_out`: `col_rel_append_row` may fail on any of them, and what it
returns is not looked at. -/
def appendEach : List (TypedRow types) :=
  (rows.zipIdx.filter fun entry => !fails entry.2).map Prod.fst

theorem appendEach_sublist : (appendEach fails rows).Sublist rows := by
  have all : (rows.zipIdx.map Prod.fst) = rows := zipIdx_map_fst 0 rows
  conv_rhs => rw [← all]
  exact filter_sublist.map Prod.fst

theorem length_appendEach_iff :
    (appendEach fails rows).length = rows.length ↔ ∀ k < rows.length, fails k = false := by
  have count : rows.zipIdx.length = rows.length := length_zipIdx
  rw [appendEach, length_map, ← count, length_filter_eq_length_iff, count]
  constructor
  · intro all k inside
    have member : (rows[k], k) ∈ rows.zipIdx :=
      mem_zipIdx_iff_getElem?.mpr (List.getElem?_eq_getElem inside)
    simpa using all _ member
  · rintro all ⟨row, k⟩ member
    have found := mem_zipIdx_iff_getElem?.mp member
    obtain ⟨inside, -⟩ := List.getElem?_eq_some_iff.mp found
    simpa using all k inside

theorem isDelta_appendEach_iff {old : Nat} {r : OrderedRows types} {out : List (TypedRow types)}
    (delta : IsDelta old r out) (fails : Nat → Bool) :
    IsDelta old r (appendEach fails out) ↔ ∀ k < out.length, fails k = false := by
  have part := appendEach_sublist fails out
  rw [← length_appendEach_iff]
  constructor
  · intro whole
    have sets : (appendEach fails out).toFinset = out.toFinset := by
      ext row
      simp [whole.same, delta.same]
    rw [← toFinset_card_of_nodup (whole.sorted.imp ne_of_lt), sets,
      toFinset_card_of_nodup (delta.sorted.imp ne_of_lt)]
  · intro same
    rwa [part.eq_of_length same]

theorem notMem_of_lt {x y : TypedRow types} {ys : List (TypedRow types)} (below : x < y)
    (sorted : (y :: ys).Pairwise (· < ·)) : x ∉ y :: ys := by
  intro member
  rcases mem_cons.mp member with same | later
  · exact below.ne same
  · exact lt_asymm below ((pairwise_cons.mp sorted).1 x later)

/-- The merge of lists in order meets the rows that are only in the second. -/
theorem mergeNovel_eq_filter {xs ys : List (TypedRow types)} (left : xs.Pairwise (· < ·))
    (right : ys.Pairwise (· < ·)) : mergeNovel xs ys = ys.filter (· ∉ xs) := by
  induction xs, ys using mergeNovel.induct with
  | case1 ys => simp [mergeNovel]
  | case2 x xs => simp [mergeNovel]
  | case3 x xs y ys below ih =>
    rw [mergeNovel, if_pos below, ih (pairwise_cons.mp left).2 right]
    refine filter_congr fun row inRight => ?_
    have apart : row ≠ x := fun same => notMem_of_lt below right (same ▸ inRight)
    simp [apart]
  | case4 xs y ys above ih =>
    obtain ⟨second, rest⟩ := pairwise_cons.mp right
    rw [mergeNovel, if_neg above, if_pos rfl, ih (pairwise_cons.mp left).2 rest,
      filter_cons_of_neg (by simp)]
    refine filter_congr fun row inRight => ?_
    simp [(second row inRight).ne']
  | case5 x xs y ys above apart ih =>
    have below : y < x := lt_of_le_of_ne (not_lt.mp above) (Ne.symm apart)
    rw [mergeNovel, if_neg above, if_neg apart, ih left (pairwise_cons.mp right).2,
      filter_cons_of_pos (by simpa using notMem_of_lt below left)]

/-! ## The consolidation -/

/-- The first `old` rows are in the form that the consolidation keeps: they are the recorded runs,
or they increase strictly and the records end elsewhere. Records that end elsewhere are repaired
when there are new rows. -/
structure DeltaForm (old : Nat) (r : OrderedRows types) : Prop where
  inside : old ≤ r.rows.length
  runs : (r.runEnds.getLast? = some old ∧ OldRuns (r.rows.take old) r.runEnds) ∨
    (r.runEnds.getLast? ≠ some old ∧ (r.rows.take old).Pairwise (· < ·) ∧
      (r.runEnds = [] ∨ old < r.rows.length))

/-- What the consolidation should do: the relation holds the old and the new rows in runs, and the
delta the rows that were not there before. -/
structure DeltaCorrect (old : Nat) (r r' : OrderedRows types) (out : List (TypedRow types)) :
    Prop where
  relation : HoldsInRuns r.rows r'
  delta : IsDelta old r out

section Consolidation

variable (faults : IncrementalFaults) (fails : Nat → Bool) (old : Nat) (r : OrderedRows types)

/-- The first new row comes after the last rows of all runs. -/
def AppendsNew : Prop :=
  old = 0 ∨ (batch faults old r).head?.all
    (runsBefore (r.rows.take old) (repairRuns r.runEnds old)) = true

/-- There are few new rows. -/
def LooksUpNew : Prop :=
  (batch faults old r).length ≤ old / 16 ∧ repairRuns r.runEnds old ≠ []

/-- The sort has memory, or it has nothing to do. When new rows are looked up only those count that
are not found. -/
def SortsNew : Prop :=
  faults.sort = false ∨ (r.rows.drop old).Pairwise (· ≤ ·) ∨
    (¬ AppendsNew faults old r ∧ LooksUpNew faults old r ∧
      ((uniqueAdjacent (r.rows.drop old)).filter (· ∉ r.rows.take old)).Pairwise (· < ·))

/-- The runs that are compacted follow each other. -/
structure CompactsInOrder : Prop where
  appended : AppendsNew faults old r → colMaxRuns ≤ (repairRuns r.runEnds old).length →
    ListsFollow lead
      (extendedRuns (r.rows.take old) (batch faults old r) (repairRuns r.runEnds old))
  lookedUp : ¬ AppendsNew faults old r → LooksUpNew faults old r →
    (∃ row ∈ r.rows.drop old, row ∉ r.rows.take old) →
    colMaxRuns ≤ (repairRuns r.runEnds old).length →
    ListsFollow lead (segments (r.rows.take old) 0 (repairRuns r.runEnds old))
  merged : ¬ AppendsNew faults old r → ¬ LooksUpNew faults old r →
    1 < (repairRuns r.runEnds old).length →
    ListsFollow lead (segments (r.rows.take old) 0 (repairRuns r.runEnds old))

/-- No append of a row that was not there before fails. -/
def AppendsAll : Prop :=
  ∀ k < ((r.rows.drop old).toFinset \ (r.rows.take old).toFinset).card, fails k = false

variable {faults fails old r}

theorem DeltaForm.oldRuns (form : DeltaForm old r) :
    OldRuns (r.rows.take old) (repairRuns r.runEnds old) := by
  have length : (r.rows.take old).length = old := by simpa using form.inside
  unfold repairRuns
  rcases form.runs with ⟨same, runs⟩ | ⟨elsewhere, sorted, -⟩
  · rwa [if_pos same]
  rw [if_neg elsewhere]
  split_ifs with positive
  · have runs_eq : segments (r.rows.take old) 0 [old] = [r.rows.take old] := by
      simp [segments, take_take]
    refine ⟨⟨by simp [colMaxRuns], pairwise_singleton _ _, length.symm, ?_⟩, ?_⟩
    · intro run member
      have isAll : run ∈ [r.rows.take old] := runs_eq ▸ member
      exact mem_singleton.mp isAll ▸ sorted
    · rw [runs_eq]
      exact pairwise_singleton _ _
  · refine ⟨⟨Nat.zero_le _, .nil, ?_, fun run member => absurd member not_mem_nil⟩, .nil⟩
    rw [length]
    exact (Nat.eq_zero_of_not_pos positive).symm

theorem mem_take_append_batch (row : TypedRow types) :
    row ∈ r.rows.take old ++ batch faults old r ↔ row ∈ r.rows := by
  rw [mem_append, mem_batch, ← mem_append, take_append_drop]

theorem IsDelta.length_eq {out : List (TypedRow types)} (delta : IsDelta old r out) :
    out.length = ((r.rows.drop old).toFinset \ (r.rows.take old).toFinset).card := by
  rw [← toFinset_card_of_nodup (delta.sorted.imp ne_of_lt)]
  congr 1
  ext row
  simp [delta.same]

/-- A way that is right under a condition, under which it hands out the delta. -/
theorem deltaCorrect_iff {sound : Prop} {r' : OrderedRows types} {out : List (TypedRow types)}
    (relation : HoldsInRuns r.rows r' ↔ sound) (delta : sound → IsDelta old r out) :
    DeltaCorrect old r r' (appendEach fails out) ↔ sound ∧ AppendsAll fails old r := by
  constructor
  · rintro ⟨holds, isDelta⟩
    have isSound := relation.mp holds
    have whole := (isDelta_appendEach_iff (delta isSound) fails).mp isDelta
    rw [(delta isSound).length_eq] at whole
    exact ⟨isSound, whole⟩
  · rintro ⟨isSound, whole⟩
    refine ⟨relation.mpr isSound, (isDelta_appendEach_iff (delta isSound) fails).mpr ?_⟩
    rw [(delta isSound).length_eq]
    exact whole

/-- Nothing is new. -/
theorem deltaCorrect_self (form : DeltaForm old r) (nothing : r.rows.length ≤ old) :
    DeltaCorrect old r r (appendEach fails []) := by
  have all : r.rows.take old = r.rows := take_of_length_le nothing
  have none : r.rows.drop old = [] := drop_eq_nil_of_le nothing
  refine ⟨?_, .nil, ?_⟩
  · rcases form.runs with ⟨-, runs⟩ | ⟨-, sorted, noRecords | new⟩
    · rw [all] at runs
      exact (holdsInRuns_iff rfl runs.flatten fun _ => Iff.rfl).mpr ⟨runs.increasing, runs.disjoint⟩
    · have runs_eq : r.runs = [] := by rw [OrderedRows.runs, noRecords, segments]
      rw [all] at sorted
      refine ⟨sorted.imp ne_of_lt, fun _ => Iff.rfl, ?_, ?_⟩
      · intro run member
        rw [runs_eq] at member
        cases member
      · rw [runs_eq]
        exact .nil
    · omega
  · intro row
    rw [none]
    simp [appendEach]

theorem sortsNew_iff_of_not_lookUp (way : AppendsNew faults old r ∨ ¬ LooksUpNew faults old r) :
    SortsNew faults old r ↔ (batch faults old r).Pairwise (· < ·) := by
  rw [batch_sorted_iff]
  unfold SortsNew
  constructor
  · rintro (memory | sorted | ⟨notAppended, lookedUp, -⟩)
    · exact .inl memory
    · exact .inr sorted
    · exact absurd lookedUp (way.resolve_left notAppended)
  · rintro (memory | sorted)
    · exact .inl memory
    · exact .inr (.inl sorted)

theorem sortsNew_iff_of_lookUp (notAppended : ¬ AppendsNew faults old r)
    (lookedUp : LooksUpNew faults old r) :
    SortsNew faults old r ↔
      ((batch faults old r).filter (· ∉ r.rows.take old)).Pairwise (· < ·) := by
  constructor
  · rintro (memory | sorted | ⟨-, -, sorted⟩)
    · exact (batch_sorted_iff.mpr (.inl memory)).sublist filter_sublist
    · exact (batch_sorted_iff.mpr (.inr sorted)).sublist filter_sublist
    · cases memory : faults.sort with
      | false => exact (batch_sorted_iff.mpr (.inl memory)).sublist filter_sublist
      | true =>
        rw [batch, memory, sortTyped_outOfMemory]
        exact sorted
  · intro sorted
    cases memory : faults.sort with
    | false => exact .inl memory
    | true =>
      rw [batch, memory, sortTyped_outOfMemory] at sorted
      exact .inr (.inr ⟨notAppended, lookedUp, sorted⟩)

theorem append_correct_iff (form : DeltaForm old r) (way : AppendsNew faults old r)
    (returned : (deltaFast faults (r.rows.take old) (batch faults old r)
      (repairRuns r.runEnds old)).1 = .ok) :
    DeltaCorrect old r (deltaFast faults (r.rows.take old) (batch faults old r)
        (repairRuns r.runEnds old)).2 (appendEach fails (batch faults old r)) ↔
      SortsNew faults old r ∧ CompactsInOrder faults old r ∧ AppendsAll fails old r := by
  have runs := form.oldRuns
  have before : r.rows.take old = [] ∨ (batch faults old r).head?.all
      (runsBefore (r.rows.take old) (repairRuns r.runEnds old)) = true := by
    refine way.imp ?_ id
    intro zero
    rw [zero, take_zero]
  have relation := deltaFast_holds_iff runs before batch_lt_of_le mem_take_append_batch returned
  refine (deltaCorrect_iff relation ?_).trans ?_
  · rintro ⟨sorted, -⟩
    refine ⟨sorted, fun row => ?_⟩
    rw [mem_batch]
    refine (and_iff_left_of_imp ?_).symm
    intro inNew inOld
    exact lt_irrefl row (lt_of_head runs before sorted row (mem_batch.mpr inNew) row inOld)
  · rw [sortsNew_iff_of_not_lookUp (.inl way), ← and_assoc]
    refine and_congr_left' (and_congr_right' ?_)
    constructor
    · intro follow
      exact ⟨fun _ => follow, fun other => absurd way other, fun other => absurd way other⟩
    · intro inOrder
      exact inOrder.appended way

theorem lookUp_correct_iff (form : DeltaForm old r)
    (notAppended : ¬ AppendsNew faults old r) (way : LooksUpNew faults old r)
    (returned : (deltaNovel faults (r.rows.take old) ((batch faults old r).filter
      (!inRuns (r.rows.take old) (repairRuns r.runEnds old) ·)) r.sortedNrows
      (repairRuns r.runEnds old)).1 = .ok) :
    DeltaCorrect old r (deltaNovel faults (r.rows.take old) ((batch faults old r).filter
        (!inRuns (r.rows.take old) (repairRuns r.runEnds old) ·)) r.sortedNrows
        (repairRuns r.runEnds old)).2
        (appendEach fails ((batch faults old r).filter
          (!inRuns (r.rows.take old) (repairRuns r.runEnds old) ·))) ↔
      SortsNew faults old r ∧ CompactsInOrder faults old r ∧ AppendsAll fails old r := by
  have runs := form.oldRuns
  have novel : (batch faults old r).filter
      (!inRuns (r.rows.take old) (repairRuns r.runEnds old) ·) =
      (batch faults old r).filter (· ∉ r.rows.take old) := by
    apply filter_congr
    intro row _
    rw [Bool.eq_iff_iff, Bool.not_eq_true', Bool.eq_false_iff, Ne, runs.inRuns_iff,
      decide_eq_true_iff]
  rw [novel] at returned ⊢
  have members : ∀ row, row ∈ (batch faults old r).filter (· ∉ r.rows.take old) ↔
      row ∈ r.rows.drop old ∧ row ∉ r.rows.take old := by
    intro row
    rw [mem_filter, mem_batch, decide_eq_true_iff]
  have same : ∀ row, row ∈ r.rows.take old ++
      (batch faults old r).filter (· ∉ r.rows.take old) ↔ row ∈ r.rows := by
    intro row
    have whole := @mem_take_append_batch types faults old r row
    rw [mem_append, mem_batch] at whole
    rw [mem_append, members, ← whole]
    tauto
  have relation := deltaNovel_holds_iff runs (fun row member => ((members row).mp member).2) same
    returned
  refine (deltaCorrect_iff relation ?_).trans ?_
  · rintro ⟨sorted, -⟩
    exact ⟨sorted, members⟩
  · have some : (batch faults old r).filter (· ∉ r.rows.take old) ≠ [] ↔
        ∃ row ∈ r.rows.drop old, row ∉ r.rows.take old := by
      rw [← isEmpty_eq_false_iff, isEmpty_eq_false_iff_exists_mem]
      exact exists_congr members
    rw [sortsNew_iff_of_lookUp notAppended way, some, ← and_assoc]
    refine and_congr_left' (and_congr_right' ?_)
    constructor
    · intro follow
      exact ⟨fun other => absurd other notAppended, fun _ _ => follow,
        fun _ other => absurd way other⟩
    · intro inOrder
      exact inOrder.lookedUp notAppended way

theorem merge_correct_iff (form : DeltaForm old r)
    (notAppended : ¬ AppendsNew faults old r) (notLookedUp : ¬ LooksUpNew faults old r) :
    DeltaCorrect old r
        (.oneRun (mergeUnique (oldRun (r.rows.take old) (repairRuns r.runEnds old))
          (batch faults old r)))
        (appendEach fails (mergeNovel (oldRun (r.rows.take old) (repairRuns r.runEnds old))
          (batch faults old r))) ↔
      SortsNew faults old r ∧ CompactsInOrder faults old r ∧ AppendsAll fails old r := by
  have runs := form.oldRuns
  refine (deltaCorrect_iff (mergeOld_holds_iff runs mem_take_append_batch) ?_).trans ?_
  · rintro ⟨sorted, follow⟩
    rw [mergeNovel_eq_filter (runs.oldRun_sorted_iff.mpr follow) sorted]
    refine ⟨sorted.sublist filter_sublist, fun row => ?_⟩
    rw [mem_filter, decide_eq_true_eq, mem_batch, runs.mem_oldRun]
  · rw [sortsNew_iff_of_not_lookUp (.inr notLookedUp), ← and_assoc]
    refine and_congr_left' (and_congr_right' ?_)
    constructor
    · intro follow
      exact ⟨fun other => absurd other notAppended, fun _ other => absurd other notLookedUp,
        fun _ _ => follow⟩
    · intro inOrder
      exact inOrder.merged notAppended notLookedUp

/-- **Whenever the consolidation of an iteration returns 0, the relation and the delta are right
exactly when nothing was new, or the sort had memory or nothing to do, the compacted runs follow
each other, and no append to the delta failed.** -/
theorem incrementalDelta_correct_iff (faults : IncrementalFaults) (fails : Nat → Bool) (old : Nat)
    (r : OrderedRows types) (form : DeltaForm old r)
    (returned : (incrementalDelta faults old r).1 = .ok) :
    DeltaCorrect old r (incrementalDelta faults old r).2.1
        (appendEach fails (incrementalDelta faults old r).2.2) ↔
      (old < r.rows.length →
        SortsNew faults old r ∧ CompactsInOrder faults old r ∧ AppendsAll fails old r) := by
  by_cases nothing : r.rows.length ≤ old
  · rw [incrementalDelta, if_pos nothing]
    refine iff_of_true (deltaCorrect_self form nothing) ?_
    intro new
    omega
  have new : old < r.rows.length := not_le.mp nothing
  rw [imp_iff_right new]
  unfold incrementalDelta at returned ⊢
  simp only [if_neg nothing] at returned ⊢
  split_ifs at returned ⊢ with appended noBuffer lookedUp noMemory
  · exact append_correct_iff form appended returned
  · split at returned
    · cases returned
    · exact lookUp_correct_iff form appended lookedUp returned
  · exact merge_correct_iff form appended lookedUp

end Consolidation

/-- A row between two old ones. -/
theorem incrementalDelta_correct_iff_between :
    DeltaCorrect 2 (⟨[integerRow 1, integerRow 3, integerRow 2], 2, [2]⟩ : OrderedRows [.int64])
      (incrementalDelta ⟨false, none, false, false⟩ 2
        ⟨[integerRow 1, integerRow 3, integerRow 2], 2, [2]⟩).2.1
      (appendEach (fun _ => false) (incrementalDelta ⟨false, none, false, false⟩ 2
        ⟨[integerRow 1, integerRow 3, integerRow 2], 2, [2]⟩).2.2) := by
  refine (incrementalDelta_correct_iff ⟨false, none, false, false⟩ (fun _ => false) 2
    ⟨[integerRow 1, integerRow 3, integerRow 2], 2, [2]⟩ ⟨by decide, .inl ⟨rfl, ?_⟩⟩
    (by decide +kernel)).mpr fun _ => ⟨.inl rfl, ⟨?_, ?_, ?_⟩, fun _ _ => rfl⟩
  · exact ⟨⟨by decide, by decide, by decide, by decide +kernel⟩, pairwise_singleton _ _⟩
  · exact fun _ many => absurd many (by decide)
  · exact fun _ _ _ many => absurd many (by decide)
  · exact fun _ _ several => absurd several (by decide)

/-- **Two rows out of order in an empty relation: when there is no memory for the sort, 0 is
returned and they are recorded as a run.** -/
theorem unsorted_rows_recorded_as_run :
    DeltaForm 0 (⟨[integerRow 2, integerRow 1], 0, []⟩ : OrderedRows [.int64]) ∧
      incrementalDelta ⟨true, none, false, false⟩ 0 ⟨[integerRow 2, integerRow 1], 0, []⟩ =
        (.ok, ⟨[integerRow 2, integerRow 1], 2, [2]⟩, [integerRow 2, integerRow 1]) ∧
      ¬ DeltaCorrect 0 ⟨[integerRow 2, integerRow 1], 0, []⟩
        ⟨[integerRow 2, integerRow 1], 2, [2]⟩ [integerRow 2, integerRow 1] := by
  refine ⟨⟨by decide, .inr ⟨by decide, .nil, .inl rfl⟩⟩, by decide +kernel, ?_⟩
  intro correct
  exact absurd correct.delta.sorted (by decide +kernel)

end Wirelog.Columnar

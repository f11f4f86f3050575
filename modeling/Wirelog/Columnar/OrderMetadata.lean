import Wirelog.Columnar.OrderUpdates

/-!
# When the recorded order is the order of the rows

What a relation records about the order of its rows is truthful (`OrderedRows.Truthful`) when the
rows it calls sorted exist and increase strictly, and the runs it records lie within its rows,
one after the other, increase strictly and share no row.

This speaks only about the rows up to the last one that the records reach (`covered`). A function
that leaves these rows alone keeps the records truthful (`Truthful.of_take`), and strictly
increasing rows agree with any records that fit (`Truthful.of_sorted`). For each function that
changes a relation it is said here under which conditions one of these applies. The delicate one
is `col_op_consolidate_incremental_delta`, which calls all rows sorted after it has put a run
behind the others (`incrementalDelta_truthful`).
-/

set_option autoImplicit false

namespace Wirelog.Columnar

open Foundations List Function

/-! ## Segments -/

section Segments

variable {α : Type*}

variable {stops : List Nat}

theorem segments_congr {rows rows' : List α} {n : Nat} (same : rows'.take n = rows.take n)
    (start : Nat) (within : ∀ stop ∈ stops, stop ≤ n) :
    segments rows' start stops = segments rows start stops := by
  induction stops generalizing start with
  | nil => rfl
  | cons stop stops ih =>
    obtain ⟨first, rest⟩ := forall_mem_cons.mp within
    have upTo : rows'.take stop = rows.take stop := by
      rw [← Nat.min_eq_left first, ← take_take, same, take_take]
    rw [segments, segments, ih stop rest, ← drop_take, ← drop_take, upTo]

theorem segments_sublist (rows : List α) (start : Nat) (stops : List Nat) :
    ∀ run ∈ segments rows start stops, run.Sublist rows := by
  induction stops generalizing start with
  | nil => exact fun run member => nomatch member
  | cons stop stops ih =>
    intro run member
    rcases mem_cons.mp member with rfl | later
    · exact (take_sublist _ _).trans (drop_sublist _ _)
    · exact ih stop run later

theorem le_getLastD {start : Nat} (increasing : (start :: stops).Pairwise (· ≤ ·)) :
    ∀ e ∈ start :: stops,
    e ≤ stops.getLastD start := by
  induction stops generalizing start with
  | nil => simp
  | cons stop stops ih =>
    obtain ⟨first, rest⟩ := pairwise_cons.mp increasing
    intro e member
    rw [getLastD_cons]
    rcases mem_cons.mp member with rfl | later
    · exact (first stop mem_cons_self).trans (ih rest stop mem_cons_self)
    · exact ih rest e later

/-- The segments, one after the other, are the rows up to the last end. -/
theorem segments_flatten (rows : List α) {start : Nat}
    (increasing : (start :: stops).Pairwise (· ≤ ·)) :
    (segments rows start stops).flatten = (rows.take (stops.getLastD start)).drop start := by
  induction stops generalizing start with
  | nil => exact (drop_eq_nil_of_le (length_take_le _ _)).symm
  | cons stop stops ih =>
    obtain ⟨first, rest⟩ := pairwise_cons.mp increasing
    have here : start ≤ stop := first stop mem_cons_self
    have last : stop ≤ stops.getLastD stop := le_getLastD rest stop mem_cons_self
    rw [segments, flatten_cons, ih rest, getLastD_cons]
    generalize stops.getLastD stop = bound at last ⊢
    have front : ((rows.take bound).drop start).take (stop - start) =
        (rows.drop start).take (stop - start) := by
      rw [drop_take, take_take, Nat.min_eq_left (by omega)]
    have back : ((rows.take bound).drop start).drop (stop - start) =
        (rows.take bound).drop stop := by
      rw [drop_drop, Nat.add_sub_cancel' here]
    rw [← front, ← back, take_append_drop]

theorem pairwise_zero_cons {runEnds : List Nat} (increasing : runEnds.Pairwise (· < ·)) :
    (0 :: runEnds).Pairwise (· ≤ ·) :=
  pairwise_cons.mpr ⟨fun e _ => Nat.zero_le e, increasing.imp le_of_lt⟩

end Segments

/-! ## Truthful records -/

section Truthful

variable {types : List ColumnType}

def OrderedRows.runs (r : OrderedRows types) : List (List (TypedRow types)) :=
  segments r.rows 0 r.runEnds

/-- **The records about the order of the rows are truthful.** -/
structure OrderedRows.Truthful (r : OrderedRows types) : Prop where
  sorted_le : r.sortedNrows ≤ r.rows.length
  sorted : (r.rows.take r.sortedNrows).Pairwise (· < ·)
  ends_increase : r.runEnds.Pairwise (· < ·)
  ends_le : ∀ e ∈ r.runEnds, e ≤ r.rows.length
  runs_sorted : ∀ run ∈ r.runs, run.Pairwise (· < ·)
  runs_disjoint : r.runs.Pairwise List.Disjoint

/-- The number of rows that the records speak about. -/
def OrderedRows.covered (r : OrderedRows types) : Nat := max r.sortedNrows (r.runEnds.getLastD 0)

variable {r : OrderedRows types} {rows : List (TypedRow types)}

theorem OrderedRows.Truthful.end_le_covered (truthful : r.Truthful) :
    ∀ e ∈ r.runEnds, e ≤ r.covered := fun e member =>
  (le_getLastD (pairwise_zero_cons truthful.ends_increase) e (mem_cons_of_mem _ member)).trans
    (le_max_right _ _)

theorem getLastD_mem_or (runEnds : List Nat) : runEnds.getLastD 0 ∈ runEnds ∨
    runEnds.getLastD 0 = 0 := by
  cases runEnds with
  | nil => exact .inr rfl
  | cons e es =>
    rw [getLastD_cons]
    exact .inl getLastD_mem_cons

theorem OrderedRows.Truthful.covered_le (truthful : r.Truthful) : r.covered ≤ r.rows.length := by
  refine max_le truthful.sorted_le ?_
  rcases getLastD_mem_or r.runEnds with member | zero
  · exact truthful.ends_le _ member
  rw [zero]
  exact Nat.zero_le _

theorem OrderedRows.Truthful.runs_nodup (truthful : r.Truthful) :
    (r.rows.take (r.runEnds.getLastD 0)).Nodup := by
  have flat := segments_flatten r.rows (pairwise_zero_cons truthful.ends_increase)
  rw [drop_zero] at flat
  rw [← flat, nodup_flatten]
  exact ⟨fun run member => (truthful.runs_sorted run member).imp ne_of_lt, truthful.runs_disjoint⟩

/-- The rows that the records speak about are different from each other. -/
theorem OrderedRows.Truthful.covered_nodup (truthful : r.Truthful) :
    (r.rows.take r.covered).Nodup := by
  rcases max_choice r.sortedNrows (r.runEnds.getLastD 0) with is | is
  · rw [OrderedRows.covered, is]
    exact truthful.sorted.imp ne_of_lt
  · rw [OrderedRows.covered, is]
    exact truthful.runs_nodup

/-- **Whatever leaves the rows alone that the records speak about keeps them truthful.** -/
theorem OrderedRows.Truthful.of_take (truthful : r.Truthful)
    (same : rows.take r.covered = r.rows.take r.covered) :
    OrderedRows.Truthful { r with rows := rows } := by
  have long : r.covered ≤ rows.length := by
    have lengths := congrArg List.length same
    rw [length_take, length_take, Nat.min_eq_left truthful.covered_le] at lengths
    omega
  have runs : segments rows 0 r.runEnds = r.runs := segments_congr same 0 truthful.end_le_covered
  constructor
  · exact (le_max_left _ _).trans long
  · have upTo : rows.take r.sortedNrows = r.rows.take r.sortedNrows := by
      have within : r.sortedNrows ≤ r.covered := le_max_left _ _
      rw [← Nat.min_eq_left within, ← take_take, same, take_take]
    exact upTo ▸ truthful.sorted
  · exact truthful.ends_increase
  · exact fun e member => (truthful.end_le_covered e member).trans long
  · exact fun run member => truthful.runs_sorted run (runs ▸ member)
  · exact (congrArg (List.Pairwise List.Disjoint) runs).mpr truthful.runs_disjoint

/-- **Strictly increasing rows agree with all records that fit.** -/
theorem OrderedRows.Truthful.of_sorted {sortedNrows : Nat} {runEnds : List Nat}
    (sorted : rows.Pairwise (· < ·)) (sorted_le : sortedNrows ≤ rows.length)
    (increase : runEnds.Pairwise (· < ·)) (ends_le : ∀ e ∈ runEnds, e ≤ rows.length) :
    OrderedRows.Truthful ⟨rows, sortedNrows, runEnds⟩ where
  sorted_le := sorted_le
  sorted := sorted.sublist (take_sublist _ _)
  ends_increase := increase
  ends_le := ends_le
  runs_sorted run member := sorted.sublist (segments_sublist rows 0 runEnds run member)
  runs_disjoint := by
    have flat := segments_flatten rows (pairwise_zero_cons increase)
    rw [drop_zero] at flat
    have distinct : (segments rows 0 runEnds).flatten.Nodup := by
      rw [flat]
      exact (sorted.imp ne_of_lt).sublist (take_sublist _ _)
    exact (nodup_flatten.mp distinct).2

theorem OrderedRows.Truthful.oneRun (sorted : rows.Pairwise (· < ·)) :
    (OrderedRows.oneRun rows).Truthful :=
  .of_sorted sorted le_rfl (pairwise_singleton _ _) (by simp)

theorem OrderedRows.Truthful.empty : (OrderedRows.empty types).Truthful :=
  .of_sorted .nil le_rfl .nil (by simp)

/-! ## Appending and taking away -/

theorem OrderedRows.Truthful.append (truthful : r.Truthful) : (r.append rows).Truthful :=
  truthful.of_take (take_append_of_le_length truthful.covered_le)

theorem OrderedRows.Truthful.truncate (truthful : r.Truthful) {nrows : Nat}
    (kept : r.covered ≤ nrows) : (r.truncate nrows).Truthful := by
  apply truthful.of_take
  rw [take_take, Nat.min_eq_left kept]

/-- A filter that keeps the first rows keeps them in their place. -/
theorem take_filter_of_keeps {α : Type*} {xs : List α} {n : Nat} (inside : n ≤ xs.length)
    {keep : α → Bool} (keeps : ∀ x ∈ xs.take n, keep x = true) :
    (xs.filter keep).take n = xs.take n := by
  conv_lhs => rw [← take_append_drop n xs, filter_append, filter_eq_self.mpr keeps]
  rw [take_append_of_le_length (by simp [inside]), take_take, Nat.min_self]

theorem OrderedRows.Truthful.filter (truthful : r.Truthful) {keep : TypedRow types → Bool}
    (keeps : ∀ row ∈ r.rows.take r.covered, keep row = true) :
    OrderedRows.Truthful { r with rows := r.rows.filter keep } :=
  truthful.of_take (take_filter_of_keeps truthful.covered_le keeps)

/-- A removal keeps rows in their place that stand before all rows it names. -/
theorem take_removeLoop {batch : Batch} {rows : List Row} {n : Nat}
    (unnamed : ∀ del ∈ batch.rows, del ∉ rows.take n) (inside : n ≤ rows.length) :
    (removeLoop batch rows 0).take n = rows.take n := by
  by_cases small : batch.rows.length + 1 < 2 ^ 32
  · rw [removeLoop_eq_erase batch small]
    split
    · rename_i del found
      have absent := unnamed del (mem_of_find?_eq_some found)
      conv_lhs => rw [← take_append_drop n rows, erase_append_right _ absent]
      rw [take_append_of_le_length (by simp [inside]), take_take, Nat.min_self]
    · rfl
  · have full : batch.rows.length + 1 = 2 ^ 32 := by
      have := batch.count_lt
      omega
    rw [removeLoop_eq_filter batch full rows 0 (by simp)]
    apply take_filter_of_keeps inside
    intro row member
    exact decide_eq_true fun named => unnamed row named member

theorem removeTyped_val (batch : Batch) (rows : List (TypedRow types)) :
    (removeTyped batch rows).map Subtype.val = removeLoop batch (rows.map Subtype.val) 0 := by
  rw [removeTyped, map_pmap, pmap_eq_map, map_id']

theorem OrderedRows.Truthful.remove (truthful : r.Truthful) {batch : Batch}
    (unnamed : ∀ row ∈ r.rows.take r.covered, row.1 ∉ batch.rows) :
    (r.remove batch).Truthful := by
  apply truthful.of_take
  apply map_injective_iff.mpr Subtype.val_injective
  rw [map_take, map_take, removeTyped_val]
  refine take_removeLoop ?_ (by simpa using truthful.covered_le)
  intro del named member
  rw [← map_take] at member
  obtain ⟨row, inPrefix, rfl⟩ := mem_map.mp member
  exact unnamed row inPrefix named

theorem OrderedRows.Truthful.detach (truthful : r.Truthful)
    (noRuns : ∀ e ∈ r.runEnds, e = 0) : r.detach.Truthful := by
  unfold OrderedRows.detach
  split_ifs
  · exact truthful
  · exact .of_sorted .nil le_rfl truthful.ends_increase fun e member => (noRuns e member).le

theorem OrderedRows.Truthful.compact (truthful : r.Truthful) : r.compact.Truthful := by
  unfold OrderedRows.compact
  split_ifs with nullary none
  · exact truthful
  · have zero : r.sortedNrows = 0 := by simpa [none] using truthful.sorted_le
    rw [← zero]
    exact truthful
  · rw [Nat.min_eq_left truthful.sorted_le]
    exact truthful

/-! ## Sorting and consolidating -/

theorem sorted_of_perm_nodup {sorted : List (TypedRow types)} (ordered : sorted.Pairwise (· ≤ ·))
    (distinct : sorted.Nodup) : sorted.Pairwise (· < ·) :=
  (ordered.and distinct).imp fun ⟨below, apart⟩ => lt_of_le_of_ne below apart

theorem length_le_one_of_nullary (nullary : types = []) (distinct : rows.Nodup) :
    rows.length ≤ 1 := by
  by_contra many
  have first : 0 < rows.length := by omega
  have second : 1 < rows.length := by omega
  have alike : rows[0] = rows[1] := by
    subst nullary
    apply Subtype.ext
    apply Row.ext
    rw [length_eq_zero_iff.mp rows[0].2.1, length_eq_zero_iff.mp rows[1].2.1]
  exact absurd ((List.Nodup.getElem_inj_iff distinct).mp alike) (by omega)

section

variable (truthful : r.Truthful)

include truthful

/-- Sorting calls all rows sorted, which is so when no row is there twice. -/
theorem OrderedRows.Truthful.radixSortInt64 (distinct : r.rows.Nodup) (outOfMemory : Bool) :
    (radixSortInt64 outOfMemory r).Truthful := by
  unfold Columnar.radixSortInt64
  split_ifs with trivial
  · have few : r.rows.length ≤ 1 :=
      trivial.elim (fun nullary => length_le_one_of_nullary nullary distinct) id
    exact .of_sorted (consolidated_of_le_one few).sorted le_rfl truthful.ends_increase
      truthful.ends_le
  · split
    · exact truthful
    rename_i sorted done
    obtain ⟨ordered, perm⟩ := radixSortRaw_spec done
    refine .of_sorted (sorted_of_perm_nodup ordered (perm.nodup_iff.mpr distinct)) le_rfl
      truthful.ends_increase ?_
    rw [perm.length_eq]
    exact truthful.ends_le

theorem OrderedRows.Truthful.opConsolidate {faults : ConsolidateFaults}
    (sortMemory : faults.sort = false) (hashMemory : faults.merge.hash.sort = false)
    (segmentMemory : ∀ s, faults.merge.sort s = false) {bounds : Option (Nat × List Nat)}
    {r' : OrderedRows types} (done : opConsolidate faults bounds r = .ok r') : r'.Truthful := by
  have plain : ∀ rows, consolidateRows faults r = .ok rows → rows.Pairwise (· < ·) := by
    intro rows done
    unfold consolidateRows at done
    rw [sortMemory] at done
    split_ifs at done
    · obtain rfl := Except.ok.inj done
      exact mergeUnique_lt truthful.sorted (consolidated_uniqueAdjacent _).sorted
    · obtain rfl := Except.ok.inj done
      exact (consolidated_uniqueAdjacent _).sorted
  have many : ∀ rows, consolidateMany faults bounds r = .ok rows → rows.Pairwise (· < ·) := by
    intro rows done
    unfold consolidateMany at done
    split at done
    · split_ifs at done
      · exact consolidateKwayMerge_sorted hashMemory segmentMemory done
      · exact plain rows done
    · exact plain rows done
  unfold Columnar.opConsolidate at done
  split_ifs at done with few
  · obtain rfl := Except.ok.inj done
    exact .oneRun (consolidated_of_le_one few).sorted
  split at done
  · cases done
  rename_i rows consolidated
  obtain rfl := Except.ok.inj done
  exact .oneRun (many rows consolidated)

/-- The rows that the records speak about are no more than there are different rows. -/
theorem OrderedRows.Truthful.covered_le_of_subset (subset : r.rows ⊆ rows) :
    r.covered ≤ rows.length := by
  have fits := (truthful.covered_nodup.subperm
    fun row member => subset (mem_of_mem_take member)).length_le
  rwa [length_take, Nat.min_eq_left truthful.covered_le] at fits

/-- Consolidating an IDB relation leaves the records as they are, and they still fit. -/
theorem OrderedRows.Truthful.idbConsolidate (faults : ConsolidateFaults) :
    (idbConsolidate faults r).Truthful := by
  unfold Columnar.idbConsolidate
  split_ifs with few
  · exact .oneRun (consolidated_of_le_one few).sorted
  rw [consolidateMany, consolidateRows, if_neg (by simp)]
  cases memory : faults.sort with
  | false =>
    obtain ⟨sorted, same⟩ := consolidated_uniqueAdjacent r.rows
    have fits := truthful.covered_le_of_subset fun row member => (same row).mpr member
    exact .of_sorted sorted ((le_max_left _ _).trans fits) truthful.ends_increase
      fun e member => (truthful.end_le_covered e member).trans fits
  | true =>
    -- the rows were not sorted: only neighbours were compared
    have unsorted : sortTyped true r.rows = r.rows := by
      unfold sortTyped radixSortRaw
      rw [if_neg few]
      rfl
    obtain ⟨kept, equal⟩ := uniqueAdjacent_append truthful.covered_nodup (r.rows.drop r.covered)
    rw [take_append_drop] at equal
    apply truthful.of_take
    rw [unsorted, equal, take_append_of_le_length (by simp [truthful.covered_le]),
      take_take, Nat.min_self]

/-! ## Distributed evaluation -/

/-- Dropping rows that equal their predecessor does not touch rows that are all different. -/
theorem OrderedRows.Truthful.dropAdjacent : r.dropAdjacent.Truthful := by
  obtain ⟨kept, equal⟩ := uniqueAdjacent_append truthful.covered_nodup (r.rows.drop r.covered)
  rw [take_append_drop] at equal
  apply truthful.of_take
  rw [equal, take_append_of_le_length (by simp [truthful.covered_le]), take_take, Nat.min_self]

end

section KeepFirst

variable (hash : TypedRow types → Nat) {capacity : Nat}

/-- The table holds kept rows only, and as many slots are taken as rows are kept, at most. -/
def Keeps (capacity : Nat) (t : (Nat → Option (TypedRow types)) × List (TypedRow types)) : Prop :=
  (∀ p row, t.1 p = some row → row ∈ t.2) ∧ (taken capacity t.1).card ≤ t.2.length

/-- A row that was not kept before is kept. -/
theorem Keeps.new {t : (Nat → Option (TypedRow types)) × List (TypedRow types)}
    (keeps : Keeps capacity t) (few : t.2.length < capacity) {row : TypedRow types}
    (fresh : row ∉ t.2) :
    Keeps capacity (keepFirst hash capacity t row) ∧
      (keepFirst hash capacity t row).2 = t.2 ++ [row] := by
  obtain ⟨⟨p, content⟩, found⟩ := exists_lookupSlot (Nat.mod_lt (hash row) (by omega))
    (keeps.2.trans_lt few) (· == row)
  cases content with
  | some other =>
    obtain ⟨stored, accepted⟩ := lookupSlot_sound found
    exact absurd (beq_iff_eq.mp accepted ▸ keeps.1 p other stored) fresh
  | none =>
    have step : keepFirst hash capacity t row =
        (update t.1 p (some row), t.2 ++ [row]) := by
      rw [keepFirst, found]
    rw [step]
    refine ⟨⟨?_, ?_⟩, rfl⟩
    · intro q other stored
      change update t.1 p (some row) q = some other at stored
      rw [update_apply] at stored
      split_ifs at stored
      · simp [Option.some.inj stored]
      · exact mem_append_left _ (keeps.1 q other stored)
    · rw [length_append, length_singleton]
      exact (taken_update_card _ _ _ _).trans (Nat.add_le_add_right keeps.2 1)

theorem keepFirst_prefix (capacity : Nat)
    (t : (Nat → Option (TypedRow types)) × List (TypedRow types))
    (rows : List (TypedRow types)) :
    ∃ kept, (rows.foldl (keepFirst hash capacity) t).2 = t.2 ++ kept := by
  induction rows generalizing t with
  | nil => exact ⟨[], (append_nil _).symm⟩
  | cons row rows ih =>
    obtain ⟨kept, equal⟩ := ih (keepFirst hash capacity t row)
    rw [foldl_cons, equal]
    have grows : ∃ more, (keepFirst hash capacity t row).2 = t.2 ++ more := by
      unfold keepFirst
      split
      · exact ⟨[row], rfl⟩
      · exact ⟨[], (append_nil _).symm⟩
    obtain ⟨more, step⟩ := grows
    exact ⟨more ++ kept, by rw [step, append_assoc]⟩

theorem keepFirst_all {t : (Nat → Option (TypedRow types)) × List (TypedRow types)}
    (keeps : Keeps capacity t) {rows : List (TypedRow types)} (distinct : (t.2 ++ rows).Nodup)
    (few : t.2.length + rows.length ≤ capacity) :
    (rows.foldl (keepFirst hash capacity) t).2 = t.2 ++ rows := by
  induction rows generalizing t with
  | nil => exact (append_nil _).symm
  | cons row rows ih =>
    have fresh : row ∉ t.2 := fun member =>
      (nodup_append'.mp distinct).2.2 member mem_cons_self
    rw [length_cons] at few
    obtain ⟨keeps', equal⟩ := keeps.new hash (by omega) fresh
    have assoc : t.2 ++ row :: rows = t.2 ++ [row] ++ rows := by simp
    rw [foldl_cons, ih keeps' (by rwa [equal, ← assoc]) (by simp [equal]; omega), equal, assoc]

end KeepFirst

theorem OrderedRows.Truthful.hashUnique (truthful : r.Truthful) {capacity : Nat}
    (large : r.rows.length ≤ capacity) :
    OrderedRows.Truthful { r with rows := hashUnique capacity r.rows } := by
  apply truthful.of_take
  have keeps : Keeps capacity ((fun _ => none, []) :
      (Nat → Option (TypedRow types)) × List (TypedRow types)) := by
    exact ⟨fun _ _ => nofun, by simp [taken]⟩
  have distinct : ([] ++ r.rows.take r.covered).Nodup := by simpa using truthful.covered_nodup
  have first := keepFirst_all (fun row => (dedupHash row).toNat) keeps distinct
    (by simpa using .inr large)
  obtain ⟨kept, equal⟩ := keepFirst_prefix (fun row => (dedupHash row).toNat) capacity
    ((r.rows.take r.covered).foldl
      (keepFirst (fun row => (dedupHash row).toNat) capacity) (fun _ => none, []))
    (r.rows.drop r.covered)
  rw [← foldl_append, take_append_drop, first, nil_append] at equal
  rw [Columnar.hashUnique, equal,
    take_append_of_le_length (by simp [truthful.covered_le]), take_take, Nat.min_self]

theorem OrderedRows.Truthful.sortedDedup (truthful : r.Truthful) (distinct : r.rows.Nodup)
    (outOfMemory : Bool) : (r.sortedDedup outOfMemory).Truthful := by
  have sorted := truthful.radixSortInt64 distinct outOfMemory
  unfold OrderedRows.sortedDedup
  split_ifs
  · exact sorted.dropAdjacent
  · exact sorted

/-- The distributed removal of duplicates has a hash table, or does not need one. -/
def Dedupable (faults : DedupFaults) (r : OrderedRows types) : Prop :=
  rowsSorted r.rows ∨ r.rows.Nodup ∨ faults.table = false ∧ r.rows.length ≤ 2 ^ 30

theorem OrderedRows.Truthful.tddDedupRel (truthful : r.Truthful) {faults : DedupFaults}
    (dedupable : Dedupable faults r) : (tddDedupRel faults r).Truthful := by
  unfold Columnar.tddDedupRel
  by_cases few : r.rows.length ≤ 1 ∨ types = []
  · rwa [if_pos few]
  rw [if_neg few]
  by_cases sorted : rowsSorted r.rows
  · rw [if_pos sorted]
    exact truthful.dropAdjacent
  rw [if_neg sorted]
  have table : ∀ capacity, checkedHashCapacity r.rows.length = some capacity →
      r.rows.length ≤ capacity := by
    intro capacity fits
    unfold checkedHashCapacity at fits
    split_ifs at fits
    have large := le_hashCapacity (by omega : 0 < 4) r.rows.length
    cases fits
    omega
  rcases dedupable with is | distinct | ⟨memory, small⟩
  · exact absurd is sorted
  · split
    · exact truthful.sortedDedup distinct faults.sort
    rename_i capacity fits
    split_ifs
    · exact truthful.sortedDedup distinct faults.sort
    · exact truthful.hashUnique (table capacity fits)
  · have fits : checkedHashCapacity r.rows.length = some (hashCapacity 4 r.rows.length) :=
      if_neg (by omega)
    simp only [fits, memory, Bool.false_eq_true, if_false]
    exact truthful.hashUnique (table _ fits)

theorem storeBaseRow_sound {hash : Row → UInt64} {capacity : Nat}
    {slots : Nat → Option (TypedRow types)} {row other : TypedRow types} {p : Nat}
    (stored : storeBaseRow hash capacity slots row p = some other) :
    slots p = some other ∨ other = row := by
  cases found : lookupSlot capacity ((hash row.1).toNat % capacity) slots fun _ => false with
  | none =>
    simp only [storeBaseRow, found] at stored
    exact .inl stored
  | some answer =>
    simp only [storeBaseRow, found, update_apply] at stored
    split_ifs at stored
    · exact .inr (Option.some.inj stored).symm
    · exact .inl stored

theorem diffTable_mem {hash : Row → UInt64} {capacity : Nat} {base : List (TypedRow types)}
    {p : Nat} {row : TypedRow types} (stored : diffTable hash capacity base p = some row) :
    row ∈ base := by
  induction base using List.reverseRecOn with
  | nil => cases stored
  | append_singleton base next ih =>
    rw [diffTable, foldl_append] at stored
    rcases storeBaseRow_sound stored with before | rfl
    · exact mem_append_left _ (ih before)
    · simp

theorem OrderedRows.Truthful.bdxHashDiff (truthful : r.Truthful) {hash : Row → UInt64}
    {base : List (TypedRow types)} (apart : ∀ row ∈ r.rows.take r.covered, row ∉ base) :
    (bdxHashDiff hash base r).Truthful := by
  apply truthful.filter
  intro row member
  split
  · rename_i found
    obtain ⟨stored, accepted⟩ := lookupSlot_sound found
    exact absurd (beq_iff_eq.mp accepted ▸ diffTable_mem stored) (apart row member)
  · rfl

theorem OrderedRows.Truthful.tddHashsetDiff (truthful : r.Truthful) {hash : Row → UInt64}
    {seen : List UInt64} (apart : ∀ row ∈ r.rows.take r.covered, hash row.1 ∉ seen) :
    (tddHashsetDiff hash seen r).Truthful :=
  truthful.filter fun row member => decide_eq_true (apart row member)

theorem keepUnseen_sublist (hash : Row → UInt64) (faults : SubpassFaults) (i : Nat)
    (seen : List UInt64) (rows : List (TypedRow types)) :
    (keepUnseen hash faults i seen rows).2.Sublist rows := by
  induction rows generalizing i seen with
  | nil => exact .refl _
  | cons row rows ih =>
    rw [keepUnseen]
    split_ifs
    · exact nil_sublist _
    · exact (ih (i + 1) seen).cons_cons row
    · exact (ih (i + 1) seen).cons row
    · exact nil_sublist _
    · exact (ih (i + 1) _).cons_cons row

/-- The consolidation of a worker calls the rows it keeps sorted. -/
theorem OrderedRows.Truthful.subpassDedup (truthful : r.Truthful) {hash : Row → UInt64}
    {faults : SubpassFaults} {seen : List UInt64} {snap : Nat}
    (sorted : r.rows.Pairwise (· < ·)) (before : ∀ e ∈ r.runEnds, e ≤ snap)
    (inside : snap ≤ r.rows.length) : (subpassDedup hash faults seen snap r).Truthful := by
  have kept : (r.rows.take snap ++ (keepUnseen hash faults 0 seen (r.rows.drop snap)).2).Sublist
      r.rows := by
    conv_rhs => rw [← take_append_drop snap r.rows]
    exact (keepUnseen_sublist hash faults 0 seen _).append_left _
  refine .of_sorted (sorted.sublist kept) le_rfl truthful.ends_increase ?_
  intro e member
  have := before e member
  rw [length_append, length_take]
  omega

end Truthful

end Wirelog.Columnar

import Wirelog.Foundations.BinaryHeap
import Wirelog.Foundations.OpenAddressing
import Wirelog.Columnar.Relation
import Wirelog.Columnar.RowSort

/-!
# Consolidation

A relation records how far its rows are sorted: the first `sorted_nrows` of them are, or its
rows are runs, each of which is sorted, with their ends recorded (`OrderedRows`). Consolidation
sorts the rows and removes duplicates (`col_op_consolidate`): it sorts all rows, or merges the
sorted rows with the sorted rest, or merges the segments that a concatenation left, by two
cursors or by a heap. In a recursive stratum the rows of an iteration are put behind the rows
that are there as a run of their own, or merged with them
(`col_op_consolidate_incremental_delta`), and runs are merged when there are too many of them
(`col_rel_compact_runs`).

Allocations may fail. Consolidation does not look at whether sorting had the memory it needs; the
rows then stay as they are.
-/

set_option autoImplicit false

namespace Wirelog.Columnar

open Foundations

/-- The rows of a relation with what is recorded about their order. The row counter `nrows` is
the length of `rows`, and `run_count` that of `runEnds`. -/
structure OrderedRows (types : List ColumnType) where
  rows : List (TypedRow types)
  sortedNrows : Nat
  runEnds : List Nat
  deriving DecidableEq

def colMaxRuns : Nat := 8

/-- The parts of a list between bounds. -/
def segments {α : Type*} (rows : List α) : Nat → List Nat → List (List α)
  | _, [] => []
  | start, stop :: stops => (rows.drop start).take (stop - start) :: segments rows stop stops

section Rows

variable {types : List ColumnType}

/-- `col_rel_radix_sort` where the caller does not look at what it returns. -/
def sortTyped (outOfMemory : Bool) (rows : List (TypedRow types)) : List (TypedRow types) :=
  (radixSortRaw outOfMemory rows).getD rows

theorem sortTyped_spec (rows : List (TypedRow types)) :
    (sortTyped false rows).Pairwise (· ≤ ·) ∧ (sortTyped false rows).Perm rows := by
  have done : ∃ sorted, radixSortRaw false rows = some sorted := by
    unfold radixSortRaw
    split_ifs with _ never
    · exact ⟨_, rfl⟩
    · cases never
    all_goals exact ⟨_, rfl⟩
  obtain ⟨sorted, equal⟩ := done
  rw [sortTyped, equal]
  exact radixSortRaw_spec equal

/-! ## Hashing away duplicates -/

/-- `wl_columnar_hash_value`; the key of a canonical cell is the cell. -/
def hashValue (hash : UInt32) (cell : Cell) : UInt32 :=
  let value := UInt64.ofBitVec cell
  let low : UInt32 := (hash ^^^ value.toUInt32) * (16777619 : UInt32)
  (low ^^^ (value >>> 32).toUInt32) * (16777619 : UInt32)

/-- `col_op_consolidate_hash_row`. -/
def hashRow (row : TypedRow types) : UInt32 := row.1.cells.foldl hashValue 2166136261

/-- Which allocations of `col_op_consolidate_hash_dedup` fail: those at its start, that of a
larger table and of a larger buffer when it has found so many rows, and those of the sort at its
end. -/
structure HashFaults where
  start : Bool
  table : Nat → Bool
  buffer : Nat → Bool
  sort : Bool

/-- The table, the buffer size, and the different rows found so far. -/
structure UniqueRows (types : List ColumnType) where
  capacity : Nat
  slots : Nat → Option (TypedRow types)
  bufferCap : Nat
  rows : List (TypedRow types)

/-- Stores a row in the first free slot after its home. At most half of the slots are taken. -/
def storeRow (capacity : Nat) (slots : Nat → Option (TypedRow types)) (row : TypedRow types) :
    Nat → Option (TypedRow types) :=
  match lookupSlot capacity ((hashRow row).toNat % capacity) slots fun _ => false with
  | none => slots
  | some (p, _) => Function.update slots p (some row)

def growTable (t : UniqueRows types) : UniqueRows types :=
  { t with
    capacity := t.capacity * 2
    slots := (List.range t.capacity).foldl (fun slots p =>
      match t.slots p with
      | none => slots
      | some row => storeRow (t.capacity * 2) slots row) fun _ => none }

variable (faults : HashFaults)

/-- Puts a new row into the table and into the buffer. -/
def addUnique (t : UniqueRows types) (row : TypedRow types) : Option (UniqueRows types) :=
  if t.bufferCap ≤ t.rows.length ∧ faults.buffer t.rows.length then none
  else some
    { t with
      slots := storeRow t.capacity t.slots row
      bufferCap := if t.bufferCap ≤ t.rows.length then t.bufferCap * 2 else t.bufferCap
      rows := t.rows ++ [row] }

/-- One round of the loop of `col_op_consolidate_hash_dedup` over `nrows` rows. -/
def uniqueStep (nrows : Nat) (t : UniqueRows types) (row : TypedRow types) :
    Option (UniqueRows types) :=
  match lookupSlot t.capacity ((hashRow row).toNat % t.capacity) t.slots (· == row) with
  | some (_, some _) => some t
  | _ =>
    if t.capacity ≤ t.rows.length * 2 then
      if nrows / 4 < t.rows.length ∨ faults.table t.rows.length then none
      else addUnique faults (growTable t) row
    else addUnique faults t row

variable (rows : List (TypedRow types))

/-- `col_op_consolidate_hash_dedup`: `none` when it gives up. -/
def consolidateHashDedup : Option (List (TypedRow types)) :=
  if faults.start then none
  else match rows.foldlM (uniqueStep faults rows.length) ⟨8192, fun _ => none, 4096, []⟩ with
  | none => none
  | some t =>
    if t.rows.length ≤ 1 then some t.rows
    else some (uniqueAdjacent (sortTyped faults.sort t.rows))

/-! ## Merging segments -/

/-- Which allocations of `col_op_consolidate_kway_merge` fail; the sorts are those of the
segments. -/
structure MergeFaults where
  hash : HashFaults
  bounds : Bool
  sort : Nat → Bool
  merged : Bool
  heap : Bool

/-- The first loop of `col_op_consolidate_kway_merge`, for one segment. -/
def sortSegment (outOfMemory : Bool) (segment : List (TypedRow types)) : List (TypedRow types) :=
  if segment.length ≤ 1 then segment
  else if segment.IsChain (· ≤ ·) then emitDistinct none segment
  else emitDistinct none (sortTyped outOfMemory segment)

/-- The part of `col_op_consolidate_kway_merge` after the segments were sorted. -/
def mergeSegments (faults : MergeFaults) (sorted : List (List (TypedRow types))) :
    Except Rc (List (TypedRow types)) :=
  match sorted with
  | [segment] => .ok segment
  | [left, right] =>
    if faults.merged then .error .enomem else .ok (emitDistinct none (mergeUnique left right))
  | _ =>
    if faults.merged then .error .enomem
    else if faults.heap then .error .enomem
    else .ok (emitDistinct none (heapMerge id sorted))

def hashManyRows : Option (List (TypedRow types)) :=
  if 10000 < rows.length then consolidateHashDedup faults rows else none

/-- `col_op_consolidate_kway_merge`: the segments of the rows begin at `first` and end at
`stops`. -/
def consolidateKwayMerge (faults : MergeFaults) (first : Nat) (stops : List Nat)
    (rows : List (TypedRow types)) : Except Rc (List (TypedRow types)) :=
  if rows.length ≤ 1 then .ok rows
  else match hashManyRows faults.hash rows with
  | some unique => .ok unique
  | none =>
    if faults.bounds then .error .enomem
    else mergeSegments faults
      ((segments rows first stops).zipIdx.map fun (segment, s) =>
        sortSegment (faults.sort s) segment)

/-! ## What consolidation returns -/

/-- Rows that hold the same as others but are strictly increasing. -/
structure Consolidated (rows out : List (TypedRow types)) : Prop where
  sorted : out.Pairwise (· < ·)
  same : ∀ row, row ∈ out ↔ row ∈ rows

theorem consolidated_uniqueAdjacent :
    Consolidated rows (uniqueAdjacent (sortTyped false rows)) where
  sorted := uniqueAdjacent_lt (sortTyped_spec rows).1
  same _ := mem_uniqueAdjacent.trans (sortTyped_spec rows).2.mem_iff

theorem consolidated_of_le_one {rows : List (TypedRow types)} (few : rows.length ≤ 1) :
    Consolidated rows rows where
  sorted := by
    obtain _ | ⟨row, _ | ⟨next, rest⟩⟩ := rows
    · exact .nil
    · exact List.pairwise_singleton _ _
    · simp at few
  same _ := Iff.rfl

theorem sortSegment_spec (segment : List (TypedRow types)) :
    Consolidated segment (sortSegment false segment) := by
  unfold sortSegment
  split_ifs with few chain
  · exact consolidated_of_le_one few
  · rw [emitDistinct_none]
    exact ⟨uniqueAdjacent_lt (List.isChain_iff_pairwise.mp chain), fun _ => mem_uniqueAdjacent⟩
  · rw [emitDistinct_none]
    exact consolidated_uniqueAdjacent segment

/-- The hash table gives up, or leaves strictly increasing rows. -/
theorem consolidateHashDedup_sorted {faults : HashFaults} (memory : faults.sort = false)
    {rows out : List (TypedRow types)} (done : consolidateHashDedup faults rows = some out) :
    out.Pairwise (· < ·) := by
  unfold consolidateHashDedup at done
  split_ifs at done
  split at done
  · cases done
  rename_i t _
  split_ifs at done with few
  · cases done
    exact (consolidated_of_le_one few).sorted
  cases done
  rw [memory]
  exact (consolidated_uniqueAdjacent t.rows).sorted

theorem mergeSegments_sorted {faults : MergeFaults} {sorted : List (List (TypedRow types))}
    (each : ∀ segment ∈ sorted, segment.Pairwise (· < ·)) {out : List (TypedRow types)}
    (done : mergeSegments faults sorted = .ok out) : out.Pairwise (· < ·) := by
  unfold mergeSegments at done
  split at done
  · rename_i segment
    obtain rfl := Except.ok.inj done
    exact each _ List.mem_cons_self
  · rename_i left right
    split_ifs at done
    obtain rfl := Except.ok.inj done
    have merged : (mergeUnique left right).Pairwise (· < ·) :=
      mergeUnique_lt (each _ List.mem_cons_self) (each _ (by simp))
    rw [emitDistinct_none]
    exact uniqueAdjacent_lt (merged.imp le_of_lt)
  · split_ifs at done
    obtain rfl := Except.ok.inj done
    rw [emitDistinct_none]
    apply uniqueAdjacent_lt
    exact heapMerge_sorted fun segment member => (each segment member).imp le_of_lt

/-- **Merging the segments of a concatenation leaves strictly increasing rows.** -/
theorem consolidateKwayMerge_sorted {faults : MergeFaults} (hashMemory : faults.hash.sort = false)
    (memory : ∀ s, faults.sort s = false) {first : Nat} {stops : List Nat}
    {rows out : List (TypedRow types)}
    (done : consolidateKwayMerge faults first stops rows = .ok out) : out.Pairwise (· < ·) := by
  unfold consolidateKwayMerge at done
  by_cases few : rows.length ≤ 1
  · rw [if_pos few] at done
    obtain rfl := Except.ok.inj done
    exact (consolidated_of_le_one few).sorted
  rw [if_neg few] at done
  cases hashed : hashManyRows faults.hash rows with
  | some unique =>
    rw [hashed] at done
    obtain rfl := Except.ok.inj done
    unfold hashManyRows at hashed
    split_ifs at hashed
    exact consolidateHashDedup_sorted hashMemory hashed
  | none =>
    rw [hashed] at done
    by_cases fails : faults.bounds = true
    · simp [fails] at done
    rw [if_neg fails] at done
    refine mergeSegments_sorted ?_ done
    intro segment member
    obtain ⟨⟨original, s⟩, -, rfl⟩ := List.mem_map.mp member
    simp only [memory]
    exact (sortSegment_spec original).sorted

/-! ## Consolidating a relation -/

/-- Which allocations of `col_op_consolidate` fail: those of merging segments, of sorting, and of
the merge buffer. -/
structure ConsolidateFaults where
  merge : MergeFaults
  sort : Bool
  buffer : Bool

def OrderedRows.oneRun : OrderedRows types :=
  ⟨rows, rows.length, [rows.length]⟩

/-- The rows that `col_op_consolidate` leaves without segments: the sorted ones and the sorted
rest are merged, or all are sorted. -/
def consolidateRows (faults : ConsolidateFaults) (r : OrderedRows types) :
    Except Rc (List (TypedRow types)) :=
  if 0 < r.sortedNrows ∧ r.sortedNrows < r.rows.length then
    if faults.buffer then .error .enomem
    else .ok (mergeUnique (r.rows.take r.sortedNrows)
      (uniqueAdjacent (sortTyped faults.sort (r.rows.drop r.sortedNrows))))
  else .ok (uniqueAdjacent (sortTyped faults.sort r.rows))

/-- The part of `col_op_consolidate`, and of `col_op_consolidate_diff`, for several rows. The
segments, if any, begin at the first number and end at the others. -/
def consolidateMany (faults : ConsolidateFaults) (bounds : Option (Nat × List Nat))
    (r : OrderedRows types) : Except Rc (List (TypedRow types)) :=
  match bounds with
  | some (first, stops) =>
    if 2 ≤ stops.length then consolidateKwayMerge faults.merge first stops r.rows
    else consolidateRows faults r
  | none => consolidateRows faults r

/-- `col_op_consolidate` on a relation that it owns. -/
def opConsolidate (faults : ConsolidateFaults) (bounds : Option (Nat × List Nat))
    (r : OrderedRows types) : Except Rc (OrderedRows types) :=
  if r.rows.length ≤ 1 then .ok (.oneRun r.rows)
  else match consolidateMany faults bounds r with
  | .error rc => .error rc
  | .ok rows => .ok (.oneRun rows)

/-- `col_idb_consolidate`: the relation is borrowed, so a copy of it is consolidated and the rows
are moved back, but not what is recorded about their order. A failure is not reported. -/
def idbConsolidate (faults : ConsolidateFaults) (r : OrderedRows types) : OrderedRows types :=
  if r.rows.length ≤ 1 then .oneRun r.rows
  else match consolidateMany faults none ⟨r.rows, 0, []⟩ with
  | .error _ => r
  | .ok rows => { r with rows := rows }

/-- `col_rel_radix_sort_int64`. -/
def radixSortInt64 (outOfMemory : Bool) (r : OrderedRows types) : OrderedRows types :=
  if types = [] ∨ r.rows.length ≤ 1 then { r with sortedNrows := r.rows.length }
  else match radixSortRaw outOfMemory r.rows with
  | none => r
  | some rows => { r with rows := rows, sortedNrows := rows.length }

/-! ## Runs -/

/-- The order in which `col_rel_compact_runs` takes rows from the runs: by the leading cell as a
signed integer, whatever its type, and among equal ones by the typed order. -/
def leadKey (row : TypedRow types) : Lex (Int × TypedRow types) := toLex ((row.cell 0).toInt, row)

variable (runEnds : List Nat)

/-- The rows that `col_rel_compact_runs` leaves. -/
def compactRows : List (TypedRow types) :=
  emitDistinct none (heapMerge leadKey (segments rows 0 runEnds))

/-- `col_rel_compact_runs`: `none` when there is no memory. -/
def compactRuns (outOfMemory : Bool) (r : OrderedRows types) : Option (OrderedRows types) :=
  if r.runEnds.length ≤ 1 then some r
  else if outOfMemory then none
  else some (.oneRun (compactRows r.rows r.runEnds))

/-- Which allocations of `col_op_consolidate_incremental_delta` fail. -/
structure IncrementalFaults where
  sort : Bool
  /-- The first row buffer that cannot be allocated: when new rows are looked up, each row that is
  not found has a buffer of its own. -/
  rowBuffer : Option Nat
  buffer : Bool
  compact : Bool

/-- The runs end at the old rows, or these are taken for one run. -/
def repairRuns (old : Nat) : List Nat :=
  if runEnds.getLast? = some old then runEnds else if 0 < old then [old] else []

def runsBefore (row : TypedRow types) : Bool :=
  runEnds.all fun stop => stop == 0 || (rows[stop - 1]?).all (decide <| · < row)

/-- A run holds a row, found by `col_rel_binary_search_row`. -/
def inRuns (row : TypedRow types) : Bool :=
  (segments rows 0 runEnds).any (search fun probed => cmp probed row)

/-- The new rows all come after the old ones and become a run. -/
def deltaFast (faults : IncrementalFaults) (old delta : List (TypedRow types))
    (runEnds : List Nat) : Rc × OrderedRows types :=
  if runEnds.length < colMaxRuns then
    (.ok, ⟨old ++ delta, (old ++ delta).length, runEnds ++ [(old ++ delta).length]⟩)
  else
    -- the last run is extended before the runs are merged
    let extended : OrderedRows types :=
      ⟨old ++ delta, (old ++ delta).length, runEnds.dropLast ++ [(old ++ delta).length]⟩
    match compactRuns faults.compact extended with
    | none => (.enomem, extended)
    | some r => (.ok, r)

/-- The rows that are in no run become a run. -/
def deltaNovel (faults : IncrementalFaults) (old novel : List (TypedRow types)) (sortedNrows : Nat)
    (runEnds : List Nat) : Rc × OrderedRows types :=
  if novel = [] then (.ok, ⟨old, old.length, runEnds⟩)
  else if runEnds.length < colMaxRuns then
    (.ok, ⟨old ++ novel, (old ++ novel).length, runEnds ++ [(old ++ novel).length]⟩)
  else
    match compactRuns faults.compact ⟨old ++ novel, sortedNrows, runEnds⟩ with
    | none => (.enomem, ⟨old ++ novel, sortedNrows, runEnds⟩)
    | some r =>
      (.ok, ⟨r.rows ++ novel, (r.rows ++ novel).length, r.runEnds ++ [(r.rows ++ novel).length]⟩)

/-- The new rows that the merge of the old and the new rows meets. -/
def mergeNovel : List (TypedRow types) → List (TypedRow types) → List (TypedRow types)
  | [], ys => ys
  | _ :: _, [] => []
  | x :: xs, y :: ys =>
    if x < y then mergeNovel xs (y :: ys)
    else if x = y then mergeNovel xs ys
    else y :: mergeNovel (x :: xs) ys
termination_by xs ys => xs.length + ys.length

def oldRun (old : List (TypedRow types)) (runEnds : List Nat) : List (TypedRow types) :=
  if 1 < runEnds.length then compactRows old runEnds else old

/-- `col_op_consolidate_incremental_delta`, where the first `old` rows were there before: what it
returns, the relation, and the rows that it puts into `delta_out`. -/
def incrementalDelta (faults : IncrementalFaults) (old : Nat) (r : OrderedRows types) :
    Rc × OrderedRows types × List (TypedRow types) :=
  if r.rows.length ≤ old then (.ok, r, [])
  else
    let oldRows := r.rows.take old
    let sorted := sortTyped faults.sort (r.rows.drop old)
    let delta := uniqueAdjacent sorted
    let rest := sorted.drop delta.length
    let runEnds := repairRuns r.runEnds old
    if old = 0 ∨ delta.head?.all (runsBefore oldRows runEnds) then
      if faults.rowBuffer = some 0 then
        (.enomem, ⟨oldRows ++ delta ++ rest, r.sortedNrows, runEnds⟩, [])
      else ((deltaFast faults oldRows delta runEnds).1, (deltaFast faults oldRows delta runEnds).2,
        delta)
    else if delta.length ≤ old / 16 ∧ runEnds ≠ [] then
      let novel := delta.filter (!inRuns oldRows runEnds ·)
      match faults.rowBuffer.filter (· < novel.length) with
      | some i =>
        (.enomem, ⟨oldRows ++ novel.take (i + 1) ++ (delta ++ rest).drop (i + 1), r.sortedNrows,
          runEnds⟩, novel.take i)
      | none => ((deltaNovel faults oldRows novel r.sortedNrows runEnds).1,
        (deltaNovel faults oldRows novel r.sortedNrows runEnds).2, novel)
    else if faults.buffer ∨ faults.rowBuffer = some 0 ∨ (1 < runEnds.length ∧ faults.compact) then
      (.enomem, ⟨oldRows ++ delta ++ rest, r.sortedNrows, runEnds⟩, [])
    else
      (.ok, .oneRun (mergeUnique (oldRun oldRows runEnds) delta),
        mergeNovel (oldRun oldRows runEnds) delta)

end Rows

end Wirelog.Columnar

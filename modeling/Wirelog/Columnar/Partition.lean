import Wirelog.Columnar.Relation
import Wirelog.Foundations.ArrayFill
import Wirelog.Foundations.RadixSort

/-!
# Partitions of a relation

A relation is distributed over workers by the hash of the cells in its key columns. The rows of
each worker are counted, the partitions are allocated, and the columns are filled one by one, each
cell going to the next free place of its partition; timestamps go the same way. Merging copies the
partitions one after the other.

The rows arrive with their timestamps, each in exactly one partition and in order
(`stampedRows_partition`), so rows with equal keys meet, and merging gives back what was
distributed (`merge_partitions`). The column types do not arrive: the partitions are made with the
names of the columns only. So partitions are what they should be (`PartsRight`) exactly when the
columns of the source have the type that columns have by default (`partition_right_iff`).
-/

set_option autoImplicit false

namespace Wirelog.Columnar

open Foundations List

/-! ## Relations with timestamps -/

/-- A relation with its columns, the types that are recorded for them, and the timestamps of its
rows when these are tracked. The row count is a `uint32_t`. -/
structure StampedRel (τ : Type) where
  ncols : Nat
  nrows : Nat
  columns : Nat → Nat → Cell
  columnTypes : List ColumnType
  timestamps : Option (Nat → τ)
  nrows_lt : nrows < 2 ^ 32

namespace StampedRel

variable {τ : Type} (r : StampedRel τ)

def rowAt (i : Nat) : Row := ⟨(List.range r.ncols).map fun c => r.columns c i⟩

/-- The type of a column, a 64-bit integer when none is recorded. -/
def typeAt (c : Nat) : ColumnType := r.columnTypes.getD c .int64

def stampedAt (i : Nat) : Row × Option τ := (r.rowAt i, r.timestamps.map (· i))

/-- The rows with their timestamps, in order. -/
def stampedRows : List (Row × Option τ) := (List.range r.nrows).map r.stampedAt

end StampedRel

/-! ## Partitioning -/

section Partitioning

variable {τ : Type} (hash : List Cell → Nat)

def keyCells (keys : List Nat) (row : Row) : List Cell := keys.map fun c => row.cells.getD c 0

/-- `row_partition_colmajor`: the worker for the key cells of a row. -/
def partitionOf (numWorkers : Nat) (cells : List Cell) : Nat :=
  if numWorkers = 1 then 0 else hash cells % numWorkers

def workerOf (src : StampedRel τ) (keys : List Nat) (numWorkers i : Nat) : Nat :=
  partitionOf hash numWorkers (keys.map fun c => src.columns c i)

/-- The places of a partition are filled in order: partition and row. -/
def scatter {α : Type} (worker : Nat → Nat) (nrows : Nat) (values : Nat → α) (blank : α) :
    FillState Nat (Nat × Nat) α :=
  fill worker values Prod.mk (fun _ => blank) (List.range nrows)

/-- The arguments that `col_rel_partition_by_key` accepts. -/
def partitionArguments (src : StampedRel τ) (keys : List Nat) (numWorkers : Nat) : Bool :=
  decide (keys ≠ []) && decide (numWorkers ≠ 0) && decide (src.ncols ≠ 0) &&
    keys.all fun c => decide (c < src.ncols)

/-- The number of rows of a worker. -/
def countOf (worker : Nat → Nat) (nrows w : Nat) : Nat :=
  (inBucket worker (List.range nrows) w).length

theorem countOf_le (worker : Nat → Nat) (nrows w : Nat) : countOf worker nrows w ≤ nrows :=
  (length_filter_le _ _).trans_eq length_range

/-- The partition of a worker. It has the columns and the timestamps of its rows, but no types. -/
def partitionFor (zero : τ) (src : StampedRel τ) (keys : List Nat) (numWorkers w : Nat) :
    StampedRel τ :=
  let worker := workerOf hash src keys numWorkers
  { ncols := src.ncols
    nrows := countOf worker src.nrows w
    columns := fun c j => (scatter worker src.nrows (src.columns c) 0).cells (w, j)
    columnTypes := []
    timestamps :=
      if countOf worker src.nrows w = 0 then none
      else src.timestamps.map fun stamps j => (scatter worker src.nrows stamps zero).cells (w, j)
    nrows_lt := (countOf_le worker src.nrows w).trans_lt src.nrows_lt }

def partitions (zero : τ) (src : StampedRel τ) (keys : List Nat) (numWorkers : Nat) :
    List (StampedRel τ) :=
  (List.range numWorkers).map (partitionFor hash zero src keys numWorkers)

def colRelPartitionByKey (zero : τ) (outOfMemory : Bool) (src : StampedRel τ) (keys : List Nat)
    (numWorkers : Nat) : Except Rc (List (StampedRel τ)) :=
  if !partitionArguments src keys numWorkers then .error .einval
  else if outOfMemory then .error .enomem
  else .ok (partitions hash zero src keys numWorkers)

end Partitioning

/-! ## Merging -/

section Merging

variable {τ : Type}

/-- The rows of all partitions together. -/
def totalRows (parts : List (StampedRel τ)) : Nat := totalSize (·.nrows) parts

/-- The relation that partitions are merged to. -/
def mergedRel (zero : τ) (first : StampedRel τ) (parts : List (StampedRel τ))
    (fits : totalRows parts < 2 ^ 32) : StampedRel τ where
  ncols := first.ncols
  nrows := totalRows parts
  columns := fun c => copyBlocks (·.nrows) (fun part => some (part.columns c)) parts 0 fun _ => 0
  columnTypes := first.columnTypes
  timestamps :=
    if parts.any (·.timestamps.isSome) ∧ totalRows parts ≠ 0 then
      some (copyBlocks (·.nrows) (·.timestamps) parts 0 fun _ => zero)
    else none
  nrows_lt := fits

def colRelMergePartitions (zero : τ) (outOfMemory : Bool) (parts : List (StampedRel τ)) :
    Except Rc (StampedRel τ) :=
  match parts with
  | [] => .error .einval
  | first :: _ =>
    if first.ncols = 0 then .error .einval
    else if parts.any fun part => decide (part.ncols ≠ first.ncols) then .error .einval
    else if fits : totalRows parts < 2 ^ 32 then
      if outOfMemory then .error .enomem else .ok (mergedRel zero first parts fits)
    else .error .enomem

end Merging

/-! ## What partitions should be -/

section Right

variable {τ : Type} (hash : List Cell → Nat) (zero : τ)

/-- The two relations have the same columns, with the same types. -/
def SameColumns (part src : StampedRel τ) : Prop :=
  part.ncols = src.ncols ∧ ∀ c < src.ncols, part.typeAt c = src.typeAt c

/-- What the partitions of a relation should be. A row is in the partition of its key, which is
the same function of the key cells for all relations, and in no other one. -/
structure PartsRight (src : StampedRel τ) (keys : List Nat) (numWorkers : Nat)
    (parts : List (StampedRel τ)) : Prop where
  length_eq : parts.length = numWorkers
  columns : ∀ part ∈ parts, SameColumns part src
  inRange : ∀ row ∈ src.stampedRows,
    partitionOf hash numWorkers (keyCells keys row.1) < numWorkers
  rows : ∀ w part, parts[w]? = some part → part.stampedRows =
    src.stampedRows.filter fun row => partitionOf hash numWorkers (keyCells keys row.1) = w
  together : ∀ (src' : StampedRel τ) (keys' : List Nat) (parts' : List (StampedRel τ)),
    colRelPartitionByKey hash zero false src' keys' numWorkers = .ok parts' →
    ∀ row ∈ src.stampedRows, ∀ row' ∈ src'.stampedRows,
      keyCells keys row.1 = keyCells keys' row'.1 →
      ∀ (w : Nat) (part part' : StampedRel τ), parts[w]? = some part → parts'[w]? = some part' →
        (row ∈ part.stampedRows ↔ row' ∈ part'.stampedRows)
  merged : ∃ merged, colRelMergePartitions zero false parts = .ok merged ∧
    merged.stampedRows.Perm src.stampedRows ∧ SameColumns merged src

end Right

/-! ## The rows of the partitions -/

section Rows

variable {τ : Type} {hash : List Cell → Nat} {zero : τ} {src : StampedRel τ} {keys : List Nat}
  {numWorkers : Nat}

theorem partitionArguments_iff :
    partitionArguments src keys numWorkers = true ↔
      keys ≠ [] ∧ numWorkers ≠ 0 ∧ src.ncols ≠ 0 ∧ ∀ c ∈ keys, c < src.ncols := by
  simp [partitionArguments, and_assoc]

theorem partitionOf_lt (positive : numWorkers ≠ 0) (cells : List Cell) :
    partitionOf hash numWorkers cells < numWorkers := by
  rw [partitionOf]
  split_ifs with one
  · omega
  · exact Nat.mod_lt _ (Nat.pos_of_ne_zero positive)

theorem keyCells_rowAt (known : ∀ c ∈ keys, c < src.ncols) (i : Nat) :
    keyCells keys (src.rowAt i) = keys.map fun c => src.columns c i := by
  refine map_congr_left fun c member => ?_
  simp [StampedRel.rowAt, known c member]

theorem cells_scatter {α : Type} {worker : Nat → Nat} {nrows w j i : Nat} {values : Nat → α}
    {blank : α} (here : (inBucket worker (List.range nrows) w)[j]? = some i) :
    (scatter worker nrows values blank).cells (w, j) = values i := by
  have separate : Separate worker Prod.mk (List.range nrows) :=
    fun _ _ _ _ _ _ same => Prod.mk.inj same
  exact cells_fill separate here

/-- A place of a partition holds the row that was put there, with its timestamp. -/
theorem stampedAt_partitionFor {w j i : Nat}
    (here : (inBucket (workerOf hash src keys numWorkers) (List.range src.nrows) w)[j]? = some i) :
    (partitionFor hash zero src keys numWorkers w).stampedAt j = src.stampedAt i := by
  have some : countOf (workerOf hash src keys numWorkers) src.nrows w ≠ 0 := by
    have inside := (List.getElem?_eq_some_iff.mp here).1
    exact Nat.ne_zero_of_lt inside
  refine Prod.ext (Row.ext (map_congr_left fun c _ => cells_scatter here)) ?_
  cases stamps : src.timestamps with
  | none => simp [StampedRel.stampedAt, partitionFor, stamps]
  | some stamps =>
    simpa [StampedRel.stampedAt, partitionFor, stamps, some] using cells_scatter here

theorem stampedRows_partitionFor (w : Nat) :
    (partitionFor hash zero src keys numWorkers w).stampedRows =
      (inBucket (workerOf hash src keys numWorkers) (List.range src.nrows) w).map
        src.stampedAt := by
  refine ext_getElem (by simp [StampedRel.stampedRows, partitionFor, countOf]) ?_
  intro j inside inside'
  rw [length_map] at inside'
  simp only [StampedRel.stampedRows, getElem_map, getElem_range]
  exact stampedAt_partitionFor (List.getElem?_eq_getElem inside')

/-- **A partition has the rows with its keys, in the order of the source.** -/
theorem stampedRows_partition (known : ∀ c ∈ keys, c < src.ncols) (w : Nat) :
    (partitionFor hash zero src keys numWorkers w).stampedRows =
      src.stampedRows.filter fun row =>
        partitionOf hash numWorkers (keyCells keys row.1) = w := by
  rw [stampedRows_partitionFor, StampedRel.stampedRows, filter_map, inBucket]
  congr 1
  refine filter_congr fun i _ => decide_eq_decide.mpr ?_
  simp [StampedRel.stampedAt, keyCells_rowAt known, workerOf]

theorem colRelPartitionByKey_ok {outOfMemory : Bool} {parts : List (StampedRel τ)}
    (done : colRelPartitionByKey hash zero outOfMemory src keys numWorkers = .ok parts) :
    partitionArguments src keys numWorkers = true ∧
      parts = partitions hash zero src keys numWorkers := by
  rw [colRelPartitionByKey] at done
  split_ifs at done with refused
  exact ⟨by simpa using refused, (Except.ok.inj done).symm⟩

theorem getElem?_partitions {w : Nat} {part : StampedRel τ}
    (here : (partitions hash zero src keys numWorkers)[w]? = some part) :
    w < numWorkers ∧ part = partitionFor hash zero src keys numWorkers w := by
  obtain ⟨inside, rfl⟩ := List.getElem?_eq_some_iff.mp here
  rw [partitions, length_map, length_range] at inside
  exact ⟨inside, by simp [partitions]⟩

end Rows

/-! ## The rows of a merge -/

section MergedRows

variable {τ : Type} {zero : τ} {first : StampedRel τ} {parts : List (StampedRel τ)}
  {fits : totalRows parts < 2 ^ 32}

/-- Timestamps are tracked in all partitions with rows, or in none. -/
def EvenlyStamped (stamped : Bool) (parts : List (StampedRel τ)) : Prop :=
  ∀ part ∈ parts, part.timestamps.isSome = (stamped && decide (part.nrows ≠ 0))

theorem columns_merge {before after : List (StampedRel τ)} {part : StampedRel τ}
    (split : parts = before ++ part :: after) (c : Nat) {j : Nat} (inside : j < part.nrows) :
    (mergedRel zero first parts fits).columns c (totalSize (·.nrows) before + j) =
      part.columns c j := by
  subst split
  have copied : copyBlocks (·.nrows) (fun part : StampedRel τ => some (part.columns c))
      (before ++ part :: after) 0 (fun _ => 0) (0 + (totalSize (·.nrows) before + j)) =
        part.columns c j := by
    refine copyBlocks_add ?_ inside
    rfl
  rwa [Nat.zero_add] at copied

theorem timestamps_merge {stamped : Bool} (even : EvenlyStamped stamped parts)
    {before after : List (StampedRel τ)} {part : StampedRel τ}
    (split : parts = before ++ part :: after) {j : Nat} (inside : j < part.nrows) :
    (mergedRel zero first parts fits).timestamps.map (· (totalSize (·.nrows) before + j)) =
      part.timestamps.map (· j) := by
  have member : part ∈ parts := by simp [split]
  cases stamped with
  | false =>
    have absent : ∀ other ∈ parts, other.timestamps = none := by
      intro other inParts
      simpa using even other inParts
    have unstamped : (mergedRel zero first parts fits).timestamps = none := by
      refine if_neg fun both => ?_
      obtain ⟨other, inParts, present⟩ := any_eq_true.mp both.1
      simp [absent other inParts] at present
    rw [unstamped, absent part member]
    rfl
  | true =>
    have present : part.timestamps.isSome = true := by
      rw [even part member]
      simpa using Nat.ne_zero_of_lt inside
    obtain ⟨stamps, own⟩ := Option.isSome_iff_exists.mp present
    have some : totalRows parts ≠ 0 := by
      have atLeast : part.nrows ≤ totalRows parts :=
        single_le_sum (by simp) _ (mem_map_of_mem member)
      omega
    have copied : copyBlocks (·.nrows) (fun part : StampedRel τ => part.timestamps)
        (before ++ part :: after) 0 (fun _ => zero) (0 + (totalSize (·.nrows) before + j)) =
          stamps j :=
      copyBlocks_add own inside
    have stampedMerge : (mergedRel zero first parts fits).timestamps =
        Option.some (copyBlocks (·.nrows) (·.timestamps) parts 0 fun _ => zero) :=
      if_pos ⟨any_eq_true.mpr ⟨part, member, present⟩, some⟩
    rw [stampedMerge, own, Option.map_some, Option.map_some, split, ← copied, Nat.zero_add]

/-- **A merge has the rows of its partitions, one partition after the other.** -/
theorem stampedRows_merge {stamped : Bool} (even : EvenlyStamped stamped parts)
    (alike : ∀ part ∈ parts, part.ncols = first.ncols) :
    (mergedRel zero first parts fits).stampedRows = parts.flatMap (·.stampedRows) := by
  refine map_range_totalSize fun before part after split j inside => ?_
  have member : part ∈ parts := by simp [split]
  refine Prod.ext (Row.ext ?_) (timestamps_merge even split inside)
  simp only [StampedRel.stampedAt, StampedRel.rowAt, alike part member]
  exact map_congr_left fun c _ => columns_merge split c inside

/-- Partitions with the same columns and not too many rows are merged. -/
theorem colRelMergePartitions_eq {rest : List (StampedRel τ)} (wide : first.ncols ≠ 0)
    (alike : ∀ part ∈ first :: rest, part.ncols = first.ncols)
    (fits : totalRows (first :: rest) < 2 ^ 32) :
    colRelMergePartitions zero false (first :: rest) =
      .ok (mergedRel zero first (first :: rest) fits) := by
  have same : (first :: rest).any (fun part => decide (part.ncols ≠ first.ncols)) = false := by
    refine any_eq_false.mpr fun part member => ?_
    simp [alike part member]
  simp only [colRelMergePartitions]
  rw [if_neg wide, same, dif_pos fits]
  rfl

end MergedRows

/-! ## Partitions and their merge -/

section Result

variable {τ : Type} {hash : List Cell → Nat} {zero : τ} {src : StampedRel τ} {keys : List Nat}
  {numWorkers : Nat}

theorem partitions_evenlyStamped :
    EvenlyStamped src.timestamps.isSome (partitions hash zero src keys numWorkers) := by
  intro part member
  obtain ⟨w, _, rfl⟩ := mem_map.mp member
  by_cases empty : countOf (workerOf hash src keys numWorkers) src.nrows w = 0
  · simp [partitionFor, empty]
  · simp [partitionFor, empty]

/-- The rows of all partitions are those of the source. -/
theorem flatMap_partitions_perm (positive : numWorkers ≠ 0)
    (known : ∀ c ∈ keys, c < src.ncols) :
    ((partitions hash zero src keys numWorkers).flatMap (·.stampedRows)).Perm src.stampedRows := by
  have spread : (partitions hash zero src keys numWorkers).flatMap (·.stampedRows) =
      distribute numWorkers (fun row => partitionOf hash numWorkers (keyCells keys row.1))
        src.stampedRows := by
    rw [partitions, flatMap_map, distribute]
    refine flatMap_congr fun w _ => ?_
    exact stampedRows_partition known w
  rw [spread]
  exact distribute_perm fun row _ => partitionOf_lt positive _

theorem length_stampedRows_flatMap (parts : List (StampedRel τ)) :
    (parts.flatMap (·.stampedRows)).length = totalRows parts := by
  rw [length_flatMap, totalRows, totalSize]
  simp [StampedRel.stampedRows]

theorem totalRows_partitions (positive : numWorkers ≠ 0) (known : ∀ c ∈ keys, c < src.ncols) :
    totalRows (partitions hash zero src keys numWorkers) = src.nrows := by
  rw [← length_stampedRows_flatMap, (flatMap_partitions_perm positive known).length_eq]
  simp [StampedRel.stampedRows]

/-- **Merging the partitions gives back the rows of the source**, and the relation has the types
that the partitions have. -/
theorem merge_partitions (accepted : partitionArguments src keys numWorkers = true) :
    ∃ merged, colRelMergePartitions zero false (partitions hash zero src keys numWorkers) =
        .ok merged ∧
      merged.stampedRows.Perm src.stampedRows ∧ merged.ncols = src.ncols ∧
      ∀ c, merged.typeAt c = .int64 := by
  obtain ⟨_, positive, wide, known⟩ := partitionArguments_iff.mp accepted
  have fits : totalRows (partitions hash zero src keys numWorkers) < 2 ^ 32 := by
    rw [totalRows_partitions positive known]
    exact src.nrows_lt
  have alike : ∀ part ∈ partitions hash zero src keys numWorkers, part.ncols = src.ncols := by
    intro part member
    obtain ⟨w, _, rfl⟩ := mem_map.mp member
    rfl
  have untyped : ∀ part ∈ partitions hash zero src keys numWorkers, part.columnTypes = [] := by
    intro part member
    obtain ⟨w, _, rfl⟩ := mem_map.mp member
    rfl
  have even := @partitions_evenlyStamped τ hash zero src keys numWorkers
  have rows := @flatMap_partitions_perm τ hash zero src keys numWorkers positive known
  have nonempty : partitions hash zero src keys numWorkers ≠ [] := by
    simpa [partitions] using positive
  obtain ⟨first, rest, shape⟩ := exists_cons_of_ne_nil nonempty
  rw [shape] at fits alike untyped even rows ⊢
  have width : first.ncols = src.ncols := alike first mem_cons_self
  have alike' : ∀ part ∈ first :: rest, part.ncols = first.ncols :=
    fun part member => (alike part member).trans width.symm
  refine ⟨_, colRelMergePartitions_eq (width ▸ wide) alike' fits, ?_, width, fun c => ?_⟩
  · rwa [stampedRows_merge even alike']
  · simp [StampedRel.typeAt, mergedRel, untyped first mem_cons_self]

/-- When the source has only columns of the default type, the partitions are right. -/
theorem partsRight_of_plain (accepted : partitionArguments src keys numWorkers = true)
    (plain : ∀ c < src.ncols, src.typeAt c = .int64) :
    PartsRight hash zero src keys numWorkers (partitions hash zero src keys numWorkers) := by
  obtain ⟨_, positive, _, known⟩ := partitionArguments_iff.mp accepted
  have rows : ∀ (w : Nat) (part : StampedRel τ),
      (partitions hash zero src keys numWorkers)[w]? = some part → part.stampedRows =
        src.stampedRows.filter fun row =>
          partitionOf hash numWorkers (keyCells keys row.1) = w := by
    intro w part here
    rw [(getElem?_partitions here).2]
    exact stampedRows_partition known w
  refine ⟨by simp [partitions], ?_, fun row _ => partitionOf_lt positive _, rows, ?_, ?_⟩
  · intro part member
    obtain ⟨w, _, rfl⟩ := mem_map.mp member
    exact ⟨rfl, fun c inside => (plain c inside).symm⟩
  · intro src' keys' parts' done row inSrc row' inSrc' sameKey w part part' here here'
    obtain ⟨accepted', rfl⟩ := colRelPartitionByKey_ok done
    obtain ⟨_, _, _, known'⟩ := partitionArguments_iff.mp accepted'
    rw [rows w part here, (getElem?_partitions here').2, stampedRows_partition known' w,
      mem_filter, mem_filter]
    simp [inSrc, inSrc', sameKey]
  · obtain ⟨merged, done, perm, width, types⟩ := merge_partitions accepted
    exact ⟨merged, done, perm, width, fun c inside => (types c).trans (plain c inside).symm⟩

/-- **A call succeeds exactly on arguments that name columns of the relation, and all that it
returns is as it should be exactly when the columns of the source have the default type.** -/
theorem partition_right_iff (hash : List Cell → Nat) (zero : τ) (src : StampedRel τ)
    (keys : List Nat) (numWorkers : Nat) :
    ((∃ parts, colRelPartitionByKey hash zero false src keys numWorkers = .ok parts) ↔
      keys ≠ [] ∧ numWorkers ≠ 0 ∧ src.ncols ≠ 0 ∧ ∀ c ∈ keys, c < src.ncols) ∧
    ((∀ outOfMemory parts,
        colRelPartitionByKey hash zero outOfMemory src keys numWorkers = .ok parts →
        PartsRight hash zero src keys numWorkers parts) ↔
      (partitionArguments src keys numWorkers = true →
        ∀ c < src.ncols, src.typeAt c = .int64)) := by
  have succeeds (accepted : partitionArguments src keys numWorkers = true) :
      colRelPartitionByKey hash zero false src keys numWorkers =
        .ok (partitions hash zero src keys numWorkers) := by
    simp [colRelPartitionByKey, accepted]
  refine ⟨⟨?_, ?_⟩, ⟨?_, ?_⟩⟩
  · rintro ⟨parts, done⟩
    exact partitionArguments_iff.mp (colRelPartitionByKey_ok done).1
  · intro arguments
    exact ⟨_, succeeds (partitionArguments_iff.mpr arguments)⟩
  · intro right accepted c inside
    have positive := (partitionArguments_iff.mp accepted).2.1
    have member : partitionFor hash zero src keys numWorkers 0 ∈
        partitions hash zero src keys numWorkers :=
      mem_map_of_mem (mem_range.mpr (Nat.pos_of_ne_zero positive))
    exact (((right false _ (succeeds accepted)).columns _ member).2 c inside).symm
  · intro plain outOfMemory parts done
    obtain ⟨accepted, rfl⟩ := colRelPartitionByKey_ok done
    exact partsRight_of_plain accepted (plain accepted)

/-- A relation with one `FLOAT` column and one row, the number 1. -/
def floatRel : StampedRel Unit where
  ncols := 1
  nrows := 1
  columns := fun _ _ => 0x3FF0000000000000
  columnTypes := [.float]
  timestamps := none
  nrows_lt := by decide

/-- The partitions of a `FLOAT` column are columns of integers. -/
theorem partition_loses_float : ∃ parts,
    colRelPartitionByKey (fun _ => 0) () false floatRel [0] 2 = .ok parts ∧
      (∃ part ∈ parts, part.stampedRows = floatRel.stampedRows ∧
        part.typeAt 0 = .int64 ∧ floatRel.typeAt 0 = .float) ∧
      ¬ PartsRight (fun _ => 0) () floatRel [0] 2 parts := by
  refine ⟨_, rfl, ⟨_, mem_cons_self, by decide, rfl, rfl⟩, fun right => ?_⟩
  have types := (right.columns _ mem_cons_self).2 0 (by decide)
  cases types

end Result

end Wirelog.Columnar

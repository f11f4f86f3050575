import Wirelog.Columnar.Consolidate
import Wirelog.Columnar.Removal

/-!
# What else changes the rows of a relation

Besides consolidation, rows are appended and removed, the labels of a recursive aggregate are
reduced to one row per group (`col_canonicalize_recursive_aggregate_relation`), distributed
evaluation removes duplicates after a merge (`tdd_dedup_rel`), keeps the rows of a round whose
hashes it has not seen, and takes rows away that another relation holds (`bdx_hash_diff`,
`tdd_hashset_diff`). A delta step puts rows aside and restores them, and buffers are compacted
(`col_rel_compact`). Each of these functions does something else with what is recorded about the
order of the rows.
-/

set_option autoImplicit false

namespace Wirelog.Columnar

open Foundations

section Updates

variable {types : List ColumnType}

/-! ## Taking rows away -/

/-- The rows that `col_session_remove` keeps. -/
def removeTyped (batch : Batch) (rows : List (TypedRow types)) : List (TypedRow types) :=
  (removeLoop batch (rows.map Subtype.val) 0).pmap Subtype.mk fun row member => by
    obtain ⟨typed, -, rfl⟩ := List.mem_map.mp ((removeLoop_sublist batch _ 0).subset member)
    exact typed.2

/-- `col_session_remove` and `col_session_remove_incremental`. -/
def OrderedRows.remove (batch : Batch) (r : OrderedRows types) : OrderedRows types :=
  { r with rows := removeTyped batch r.rows }

/-- Sets `nrows` to a smaller number. -/
def OrderedRows.truncate (nrows : Nat) (r : OrderedRows types) : OrderedRows types :=
  { r with rows := r.rows.take nrows }

variable (rows : List (TypedRow types)) (r : OrderedRows types)

/-- Puts rows behind the others. -/
def OrderedRows.append : OrderedRows types :=
  { r with rows := r.rows ++ rows }

/-- A relation without rows, of which nothing is recorded. -/
def OrderedRows.empty (types : List ColumnType) : OrderedRows types := ⟨[], 0, []⟩

/-- The start of `col_stratum_step_with_delta`: the columns are freed; the runs stay recorded. -/
def OrderedRows.detach : OrderedRows types :=
  if r.rows = [] then r else { r with rows := [], sortedNrows := 0 }

/-- `col_rel_compact`. -/
def OrderedRows.compact : OrderedRows types :=
  if types = [] then r
  else if r.rows = [] then { r with sortedNrows := 0 }
  else { r with sortedNrows := min r.sortedNrows r.rows.length }

/-! ## Distributed evaluation -/

/-- Rows in the order of their cells as signed integers. -/
def rowsSorted : Prop :=
  rows.IsChain fun a b => rowCmp [] a.1 b.1 ≤ 0

instance (rows : List (TypedRow types)) : Decidable (rowsSorted rows) :=
  inferInstanceAs (Decidable (rows.IsChain _))

/-- The hash of a row in `tdd_dedup_rel`. -/
def dedupHash (row : TypedRow types) : UInt64 :=
  row.1.cells.foldl (fun h cell => (h ^^^ UInt64.ofBitVec cell) * 1099511628211)
    14695981039346656037

/-- A number of slots for so many rows: a small one is doubled until half of them suffice. -/
def hashCapacity (start nrows : Nat) : Nat := doubleUntil (2 * nrows) (2 * nrows) start

theorem le_hashCapacity {start : Nat} (positive : 0 < start) (nrows : Nat) :
    2 * nrows ≤ hashCapacity start nrows := le_doubleUntil positive (by omega)

/-- `wl_columnar_eval_checked_hash_capacity`: `none` on overflow. -/
def checkedHashCapacity (nrows : Nat) : Option Nat :=
  if 2 ^ 30 < nrows then none else some (hashCapacity 4 nrows)

/-- One round of the first pass of `tdd_dedup_rel`: the table, and the rows to keep. -/
def keepFirst (hash : TypedRow types → Nat) (capacity : Nat)
    (t : (Nat → Option (TypedRow types)) × List (TypedRow types)) (row : TypedRow types) :
    (Nat → Option (TypedRow types)) × List (TypedRow types) :=
  match lookupSlot capacity (hash row % capacity) t.1 (· == row) with
  | some (p, none) => (Function.update t.1 p (some row), t.2 ++ [row])
  | _ => t

/-- The rows that `tdd_dedup_rel` keeps by means of a hash table. -/
def hashUnique (capacity : Nat) (rows : List (TypedRow types)) : List (TypedRow types) :=
  (rows.foldl (keepFirst (fun row => (dedupHash row).toNat) capacity) (fun _ => none, [])).2

/-- Which allocations of `tdd_dedup_rel` fail: those of the table, and of sorting. -/
structure DedupFaults where
  table : Bool
  sort : Bool

/-- The end of `tdd_dedup_rel`: duplicates in sorted rows stand next to each other. -/
def OrderedRows.dropAdjacent : OrderedRows types :=
  { r with rows := uniqueAdjacent r.rows }

/-- `tdd_dedup_rel` without a hash table. -/
def OrderedRows.sortedDedup (outOfMemory : Bool) (r : OrderedRows types) : OrderedRows types :=
  if rowsSorted (radixSortInt64 outOfMemory r).rows then (radixSortInt64 outOfMemory r).dropAdjacent
  else radixSortInt64 outOfMemory r

def tddDedupRel (faults : DedupFaults) (r : OrderedRows types) : OrderedRows types :=
  if r.rows.length ≤ 1 ∨ types = [] then r
  else if rowsSorted r.rows then r.dropAdjacent
  else match checkedHashCapacity r.rows.length with
  | none => r.sortedDedup faults.sort
  | some capacity =>
    if faults.table then r.sortedDedup faults.sort
    else { r with rows := hashUnique capacity r.rows }

variable (hash : Row → UInt64)

/-- Stores a row of the base in the table of `bdx_hash_diff`. -/
def storeBaseRow (capacity : Nat) (slots : Nat → Option (TypedRow types)) (row : TypedRow types) :
    Nat → Option (TypedRow types) :=
  match lookupSlot capacity ((hash row.1).toNat % capacity) slots fun _ => false with
  | none => slots
  | some (p, _) => Function.update slots p (some row)

/-- The table of `bdx_hash_diff` with the rows of the base. -/
def diffTable (capacity : Nat) (base : List (TypedRow types)) : Nat → Option (TypedRow types) :=
  base.foldl (storeBaseRow hash capacity) fun _ => none

/-- `bdx_hash_diff`: the rows of a delta that the base does not hold. -/
def bdxHashDiff (base : List (TypedRow types)) (r : OrderedRows types) : OrderedRows types :=
  let capacity := hashCapacity 4 base.length
  { r with
    rows := r.rows.filter fun row =>
      match lookupSlot capacity ((hash row.1).toNat % capacity) (diffTable hash capacity base)
          (· == row) with
      | some (_, some _) => false
      | _ => true }

/-- `tdd_hashset_diff` with a set of hashes. -/
def tddHashsetDiff (seen : List UInt64) (r : OrderedRows types) : OrderedRows types :=
  { r with rows := r.rows.filter fun row => hash row.1 ∉ seen }

/-- Which rounds of the loop in `tdd_worker_subpass_fn` have no memory: for a larger hash set, and
for a row of the delta. -/
structure SubpassFaults where
  grow : Nat → Bool
  append : Nat → Bool

/-- The loop in `tdd_worker_subpass_fn` over the new rows: the hashes seen, and the rows kept. A
row whose hash cannot be recorded counts as new. -/
def keepUnseen (faults : SubpassFaults) :
    Nat → List UInt64 → List (TypedRow types) → List UInt64 × List (TypedRow types)
  | _, seen, [] => (seen, [])
  | i, seen, row :: rows =>
    if faults.grow i then
      if faults.append i then (seen, [])
      else
        let next := keepUnseen faults (i + 1) seen rows
        (next.1, row :: next.2)
    else if hash row.1 ∈ seen then keepUnseen faults (i + 1) seen rows
    else if faults.append i then (hash row.1 :: seen, [])
    else
      let next := keepUnseen faults (i + 1) (hash row.1 :: seen) rows
      (next.1, row :: next.2)

/-- The consolidation of a worker with a hash set: the rows from `snap` on are new. -/
def subpassDedup (faults : SubpassFaults) (seen : List UInt64) (snap : Nat)
    (r : OrderedRows types) : OrderedRows types :=
  let rows := r.rows.take snap ++ (keepUnseen hash faults 0 seen (r.rows.drop snap)).2
  { r with rows := rows, sortedNrows := rows.length }

/-! ## Recursive aggregates -/

/-- What plan generation records about a recursive aggregate (`wl_plan_agg_spec_t`). -/
structure AggSpec where
  isMax : Bool
  groupByCount : Nat
  aggregateIndex : Nat
  stringOperand : Bool

/-- `strcmp` is positive, for strings of bytes. -/
def strcmpPositive : List UInt8 → List UInt8 → Bool
  | [], _ => false
  | _ :: _, [] => true
  | x :: xs, y :: ys => if x = y then strcmpPositive xs ys else decide (y < x)

variable (spec : AggSpec) (intern : Cell → Option (List UInt8))

/-- `col_agg_better`; the table of strings is given by what it holds for each id. -/
def aggBetter (cand cur : Cell) : Bool :=
  let byValue := if spec.isMax then decide (cur.toInt < cand.toInt)
    else decide (cand.toInt < cur.toInt)
  if spec.stringOperand then
    match intern cand, intern cur with
    | some a, some b => if spec.isMax then strcmpPositive a b else strcmpPositive b a
    | some _, none => true
    | none, some _ => false
    | none, none => byValue
  else byValue

def AggSpec.column (ncols : Nat) : Nat :=
  if spec.aggregateIndex < ncols then spec.aggregateIndex else spec.groupByCount

def groupOf (row : TypedRow types) : List Cell :=
  (List.range spec.groupByCount).map fun c =>
    row.cell (if spec.column types.length ≤ c then c + 1 else c)

/-- `col_group_hash`. -/
def groupHash (group : List Cell) : UInt64 :=
  let hash : UInt64 := group.foldl
    (fun h cell => (h ^^^ UInt64.ofBitVec cell) * 1099511628211) 1469598103934665603
  if hash = 0 then 1 else hash

def TypedRow.copyCell (row source : TypedRow types) (c : Nat) : TypedRow types :=
  ⟨⟨row.1.cells.set c (source.cell c)⟩, by simpa using row.2.1, by
    intro i float cell found
    by_cases same : c = i
    · subst same
      have inside : c < row.1.cells.length := by
        by_contra outside
        rw [List.getElem?_eq_none (by simpa using outside)] at found
        cases found
      rw [List.getElem?_set_self inside] at found
      have there : c < source.1.cells.length := by rw [source.2.1, ← row.2.1]; exact inside
      refine source.2.2 c float cell ?_
      rw [List.getElem?_eq_getElem there]
      simpa [TypedRow.cell, List.getElem?_eq_getElem there] using found
    · rw [List.getElem?_set_ne same] at found
      exact row.2.2 i float cell found⟩

/-- The table of groups, whose slots hold the numbers of the rows kept, and these rows. The hash
in a slot is that of the group of its row. -/
structure Groups (types : List ColumnType) where
  slots : Nat → Option Nat
  kept : List (TypedRow types)

/-- One round of the loop of `col_canonicalize_recursive_aggregate_relation`. -/
def canonicalizeRow (capacity : Nat) (g : Groups types) (row : TypedRow types) : Groups types :=
  match lookupSlot capacity ((groupHash (groupOf spec row)).toNat % capacity) g.slots
      (fun k => g.kept[k]?.any (groupOf spec · == groupOf spec row)) with
  | some (_, some k) =>
    { g with
      kept := g.kept.modify k fun cur =>
        if aggBetter spec intern (row.cell (spec.column types.length))
          (cur.cell (spec.column types.length))
        then cur.copyCell row (spec.column types.length) else cur }
  | some (p, none) => ⟨Function.update g.slots p (some g.kept.length), g.kept ++ [row]⟩
  | none => g

/-- The rows that `col_canonicalize_recursive_aggregate_relation` keeps. -/
def canonicalRows (capacity : Nat) (rows : List (TypedRow types)) : List (TypedRow types) :=
  (rows.foldl (canonicalizeRow spec intern capacity) ⟨fun _ => none, []⟩).kept

/-- `col_canonicalize_recursive_aggregate_relation`. -/
def canonicalizeAggregates (outOfMemory : Bool) (r : OrderedRows types) : Rc × OrderedRows types :=
  if r.rows.length < 2 then (.ok, r)
  else if types.length ≤ spec.groupByCount then (.einval, r)
  else if 2 ^ 31 < 2 * r.rows.length ∨ outOfMemory then (.enomem, r)
  else
    let kept := canonicalRows spec intern (hashCapacity 1 r.rows.length) r.rows
    if kept.length = r.rows.length then (.ok, r) else (.ok, ⟨kept, kept.length, []⟩)

end Updates

end Wirelog.Columnar

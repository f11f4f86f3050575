import Wirelog.Columnar.Partition
import Wirelog.Plan.ExprValue

/-!
# Joins of partitions

When several workers evaluate a stratum, `tdd_init_workers_hybrid` distributes both sides of a join
by columns that it compares, and each worker joins its partitions. Rows that match agree in these
columns, so one worker has both, and **the workers together find the rows of the join, each as
often** (`opJoin_partitions`).
-/

set_option autoImplicit false

namespace Wirelog.Plan

open Wirelog.Columnar Wirelog.Foundations Function List

section Join

variable {τ : Type} {hash : List Cell → Nat} {zero : τ} {numWorkers : Nat}
  {left right : StampedRel τ} {leftKeys rightKeys : List Nat}

/-- A relation whose columns have the default type, as the operators see it. -/
def untypedTable (r : StampedRel τ) : Table :=
  .untyped r.ncols (r.stampedRows.map Prod.fst) fun row member => by
    obtain ⟨_, stamped, rfl⟩ := mem_map.mp member
    obtain ⟨i, _, rfl⟩ := mem_map.mp stamped
    simp [StampedRel.stampedAt, StampedRel.rowAt]

/-- The join of a worker whose relation `rel` holds the right side. -/
def workerJoin (machine : Machine) (db : Database) (rel : String) (leftKeys rightKeys : List Nat)
    (rightFilter : Option PlanExpr) (left right : StampedRel τ) : Except EvalError Table :=
  opJoin machine (update db rel (some (untypedTable right))) (some rel) leftKeys rightKeys
    rightFilter (untypedTable left)

theorem resolveKeys_replicate {keys : List Nat} {count : Nat} (known : ∀ c ∈ keys, c < count) :
    resolveKeys (replicate count .int64) keys = keys := by
  refine (map_congr_left fun c member => ?_).trans keys.map_id
  simp [known c member]

/-- Two rows have the same cells in pairs of columns. -/
def agree (pairs : List (Nat × Nat)) (row other : Row) : Bool :=
  pairs.all fun pair => cellAt row pair.1 = cellAt other pair.2

theorem keyCells_eq {leftCols rightCols : List Nat} (paired : leftCols.length = rightCols.length)
    {pairs : List (Nat × Nat)} (compared : leftCols.zip rightCols ⊆ pairs) {row other : Row}
    (agrees : agree pairs row other = true) : keyCells leftCols row = keyCells rightCols other := by
  rw [keyCells, keyCells, ← forall₂_eq_eq_eq, forall₂_map_left_iff, forall₂_map_right_iff,
    forall₂_iff_zip]
  exact ⟨paired, fun member => of_decide_eq_true (all_eq_true.mp agrees _ (compared member))⟩

variable (leftKnown : ∀ c ∈ leftKeys, c < left.ncols)
  (rightKnown : ∀ c ∈ rightKeys, c < right.ncols) (machine : Machine) (db : Database)
  (rel : String) (rightFilter : Option PlanExpr)

include leftKnown rightKnown in
theorem workerJoin_eq : ∃ joined,
    workerJoin machine db rel leftKeys rightKeys rightFilter left right = .ok joined ∧
      joined.rows = (untypedTable left).rows.flatMap fun row =>
        ((untypedTable right).rows.filter fun other => agree (leftKeys.zip rightKeys) row other &&
          passesRight machine rightFilter other).map fun other => ⟨row.cells ++ other.cells⟩ := by
  have keys : keyPairs (untypedTable left)
      ((untypedTable right).filter (passesRight machine rightFilter)) leftKeys rightKeys =
        leftKeys.zip rightKeys :=
    congrArg₂ zip (resolveKeys_replicate leftKnown) (resolveKeys_replicate rightKnown)
  have compatible : keyTypesCompatible (untypedTable left).types (untypedTable right).types
      (leftKeys.zip rightKeys) = true := by
    simp [keyTypesCompatible, typeOf, untypedTable, Table.untyped]
  simp only [workerJoin, opJoin, Option.bind_some, update_self, keys]
  refine ⟨_, if_pos compatible, flatMap_congr fun row _ => congrArg _ ?_⟩
  refine filter_filter.trans (filter_congr fun other _ => ?_)
  simp [keysMatch, valueEqual, typeOf, untypedTable, Table.untyped, Table.filter, agree]

/-- What is computed for the elements of each bucket is computed for all elements. -/
theorem flatMap_buckets_perm {α β : Type} {buckets : Nat} {digit : α → Nat} {xs : List α}
    (small : ∀ x ∈ xs, digit x < buckets) {f : Nat → α → List β} {g : α → List β}
    (same : ∀ x ∈ xs, f (digit x) x = g x) :
    ((range buckets).flatMap fun d => (xs.filter (digit · == d)).flatMap (f d)).Perm
      (xs.flatMap g) := by
  have each (d : Nat) : (xs.filter (digit · == d)).flatMap (f d) =
      (xs.filter (digit · == d)).flatMap g := flatMap_congr fun x member => by
    obtain ⟨inside, here⟩ := mem_filter.mp member
    rw [← same x inside, beq_iff_eq.mp here]
  simp only [each, ← flatMap_assoc]
  exact (distribute_perm small).flatMap_right g

theorem rows_partitionFor {cols : List Nat} (known : ∀ c ∈ cols, c < left.ncols) (w : Nat) :
    (untypedTable (partitionFor hash zero left cols numWorkers w)).rows =
      (untypedTable left).rows.filter fun row =>
        partitionOf hash numWorkers (keyCells cols row) == w := by
  simp only [untypedTable, Table.untyped, stampedRows_partition known, filter_map]
  rfl

include leftKnown rightKnown in
/-- **Workers that join their partitions find the rows of the join**, when both sides are
distributed by columns that the join compares. -/
theorem opJoin_partitions {outOfMemory : Bool} {leftCols rightCols : List Nat}
    {leftParts rightParts : List (StampedRel τ)} (paired : leftCols.length = rightCols.length)
    (compared : leftCols.zip rightCols ⊆ leftKeys.zip rightKeys)
    (leftDone : colRelPartitionByKey hash zero outOfMemory left leftCols numWorkers = .ok leftParts)
    (rightDone :
      colRelPartitionByKey hash zero outOfMemory right rightCols numWorkers = .ok rightParts) :
    ∃ (joined : Table) (piece : Nat → Table),
      workerJoin machine db rel leftKeys rightKeys rightFilter left right = .ok joined ∧
      (∀ w < numWorkers, ∃ l r, leftParts[w]? = some l ∧ rightParts[w]? = some r ∧
        workerJoin machine db rel leftKeys rightKeys rightFilter l r = .ok (piece w)) ∧
      ((range numWorkers).flatMap fun w => (piece w).rows).Perm joined.rows := by
  obtain ⟨leftAccepted, rfl⟩ := colRelPartitionByKey_ok leftDone
  obtain ⟨rightAccepted, rfl⟩ := colRelPartitionByKey_ok rightDone
  obtain ⟨_, positive, _, leftInside⟩ := partitionArguments_iff.mp leftAccepted
  obtain ⟨_, _, _, rightInside⟩ := partitionArguments_iff.mp rightAccepted
  obtain ⟨joined, whole, rows⟩ := workerJoin_eq leftKnown rightKnown machine db rel rightFilter
  choose piece pieces pieceRows using fun w =>
    @workerJoin_eq τ (partitionFor hash zero left leftCols numWorkers w)
      (partitionFor hash zero right rightCols numWorkers w) _ _ leftKnown rightKnown machine db rel
      rightFilter
  refine ⟨joined, piece, whole, fun w inside => ⟨_, _, ?_, ?_, pieces w⟩, ?_⟩
  · simp [partitions, inside]
  · simp [partitions, inside]
  simp only [pieceRows, rows, rows_partitionFor leftInside, rows_partitionFor rightInside,
    filter_filter]
  refine flatMap_buckets_perm (fun row _ => partitionOf_lt positive _) fun row _ => congrArg _ ?_
  refine filter_congr fun other _ => ?_
  by_cases agrees : agree (leftKeys.zip rightKeys) row other = true
  · simp [keyCells_eq paired compared agrees]
  · simp [agrees]

end Join

/-- The rows 0 and 1. -/
def twoRows : StampedRel Unit := ⟨1, 2, fun _ i => .ofNat 64 i, [], none, by decide⟩

/-- The two rows go to different workers, and each worker finds one row of the join. -/
theorem opJoin_partitions_twoRows :
    ∃ (leftParts rightParts : List (StampedRel Unit)) (piece : Nat → Table),
      leftParts.map (fun part => part.stampedRows.map Prod.fst) = [[⟨[0]⟩], [⟨[1]⟩]] ∧
      (∀ w < 2, ∃ l r, leftParts[w]? = some l ∧ rightParts[w]? = some r ∧
        workerJoin (interpreterMachine plainOutside) (fun _ => none) "r" [0] [0] none l r =
          .ok (piece w)) ∧
      ((range 2).flatMap fun w => (piece w).rows).Perm [⟨[0, 0]⟩, ⟨[1, 1]⟩] := by
  obtain ⟨joined, piece, whole, pieces, perm⟩ :=
    @opJoin_partitions Unit (fun key => (key.map BitVec.toNat).sum) () 2 twoRows twoRows [0] [0]
      (by decide) (by decide) (interpreterMachine plainOutside) (fun _ => none) "r" none false
      [0] [0] _ _ rfl (by simp) rfl rfl
  have rows : joined.rows = [⟨[0, 0]⟩, ⟨[1, 1]⟩] := by
    cases whole
    rfl
  exact ⟨_, _, piece, rfl, pieces, rows ▸ perm⟩

end Wirelog.Plan

import Wirelog.Columnar.RowOrder

/-!
# Columnar relations

A relation of the columnar backend holds rows of 64-bit cells. The source stores
them column by column; a row is the list of its cells in column order, and the
rows `0 … nrows - 1` are a list. Every row of a relation has one cell per column,
so comparing two rows cell by cell (`memcmp` over `ncols` cells) is equality.

Functions of the source that return an error code return it here as an `Rc`.
-/

set_option autoImplicit false

namespace Wirelog.Columnar

/-- What a function of the backend returns. `undefined` marks the calls for which the
source has no defined outcome: a freed relation or a null row would be read. -/
inductive Rc where
  | ok
  | einval
  | enoent
  | enomem
  | undefined
  deriving DecidableEq, Repr

/-- A relation of the backend (`col_rel_t`): its rows all have `ncols` cells, are only held in
allocated columns, and their `FLOAT` cells are canonical. The row counter `nrows` is the length
of `rows`; a relation without recorded column types has an empty type list. -/
structure ColRel where
  name : String
  ncols : Nat
  columnTypes : List ColumnType
  rows : List Row
  /-- The column buffers are allocated (`columns` is not null). -/
  allocated : Bool
  baseNrows : Nat
  width : ∀ row ∈ rows, row.cells.length = ncols
  stored : rows ≠ [] → ncols ≠ 0 → allocated = true
  canonical : ∀ row ∈ rows, FloatCanonical columnTypes row

namespace ColRel

variable (r : ColRel)

/-- The current row count. -/
def nrows : Nat := r.rows.length

variable (rows : List Row)

/-- Keep the relation but store fewer or reordered rows of it. -/
def restrict (kept : ∀ row ∈ rows, row ∈ r.rows) : ColRel :=
  { r with
    rows := rows
    width := fun row member => r.width row (kept row member)
    stored := fun some => r.stored fun none => by
      obtain ⟨row, member⟩ := List.exists_mem_of_ne_nil rows some
      simpa [none] using kept row member
    canonical := fun row member => r.canonical row (kept row member) }

/-- Clamp the count of already propagated rows to the current row count. -/
def clampBase : ColRel := { r with baseNrows := min r.baseNrows r.nrows }

end ColRel

/-- The state of a relation that a cached result was computed from (`col_relation_snapshot_t`). -/
structure RelSnapshot where
  relationIdentity : Nat
  viewGeneration : Nat
  storageGeneration : Nat
  deriving DecidableEq, Repr

namespace RelSnapshot

/-- The value of a saturated generation counter (`WL_COLUMNAR_REL_GENERATION_INVALID`). -/
def generationInvalid : Nat := 2 ^ 64 - 1

/-- The relation is known and none of its counters is saturated. -/
def valid (snapshot : RelSnapshot) : Bool :=
  snapshot.relationIdentity != 0 && snapshot.viewGeneration != generationInvalid &&
    snapshot.storageGeneration != generationInvalid

/-- Two snapshots of the same state; an invalid one equals none, not even itself. -/
def equal (left right : RelSnapshot) : Bool :=
  left.valid && right.valid && left.relationIdentity == right.relationIdentity &&
    left.viewGeneration == right.viewGeneration &&
    left.storageGeneration == right.storageGeneration

end RelSnapshot

/-- Rows handed over by a caller: `num_rows` rows of `num_cols` cells, where the count is
a `uint32_t`. -/
structure Batch where
  numCols : Nat
  rows : List Row
  width : ∀ row ∈ rows, row.cells.length = numCols
  count_lt : rows.length < 2 ^ 32

end Wirelog.Columnar

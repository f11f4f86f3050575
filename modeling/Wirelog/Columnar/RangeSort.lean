import Wirelog.Columnar.RowSort

/-!
# Sorting a range of a relation in place

`col_rel_radix_sort` sorts a range of rows of a relation whose columns are buffers, some of them
borrowed. Borrowed columns are replaced by private copies first. Few rows, and rows with `FLOAT`
columns, are sorted by insertion; others by a permutation of positions that passes over the bytes
or 16-bit digits of each column bring into order, and that is applied to the columns in the end.
When the sort fails, the private copies are dropped again.

Both sorts are stable and order by the typed comparator (`insertionSort_spec`, `radixIndices_spec`).
A failed sort restores rows, sharing flags and generations, but not the memory ledger: detaching
has charged the private copies, and dropping them compares two equal sizes. So the call does what
it should exactly when it does not fail after a detach that was charged, and the column index fits
an `int` (`colRelRadixSort_right_iff`).
-/

set_option autoImplicit false

namespace Wirelog.Columnar

open Foundations List Function

variable {types : List ColumnType}

theorem cellsRank_of_integers (integers : ColumnType.float ∉ types) (cells : List Cell) :
    cellsRank types cells = cells.map intKey := by
  induction cells generalizing types with
  | nil => rfl
  | cons cell cells ih =>
    have integer : types.head? ≠ some .float := fun float =>
      integers (mem_of_mem_head? float)
    have rest : ColumnType.float ∉ types.tail := fun member =>
      integers (mem_of_mem_tail member)
    rw [cellsRank, ih rest, cellRank, if_neg integer, map_cons]

/-! ## Relations over buffers -/

/-- The counters of the memory ledger for the bytes of relations and of timestamps, and for all
bytes. -/
structure MemLedger where
  relationBytes : Nat
  timestampBytes : Nat
  currentBytes : Nat
  deriving DecidableEq, Repr

/-- A counter after the charged size went from one number to another: `saturating_add` when it
grew, `counter_sub_clamped` when it shrank. -/
def adjustCounter (counter before after : Nat) : Nat :=
  if before < after then min (counter + (after - before)) (2 ^ 64 - 1)
  else counter - (before - after)

/-- A relation whose columns are buffers of a heap. The columns that are flagged, if any flags are
kept, belong to a lender. -/
structure BufferRel where
  ncols : Nat
  nrows : Nat
  capacity : Nat
  columns : Nat → Nat
  buffers : Nat → Nat → Cell
  nextBuffer : Nat
  colShared : Option (Nat → Bool)
  columnTypes : List ColumnType
  arenaOwned : Bool
  viewGeneration : Nat
  storageGeneration : Nat
  memLedger : Option MemLedger
  /-- The size of the timestamps, and the part of it that was charged. -/
  timestampBytes : Nat
  ledgerTsBytes : Nat

namespace BufferRel

variable (r : BufferRel)

/-- The flag of a column. -/
def isShared (c : Nat) : Bool := r.colShared.elim false (· c)

def cellAt (c i : Nat) : Cell := r.buffers (r.columns c) i

def rowAt (i : Nat) : Row := ⟨(List.range r.ncols).map fun c => r.cellAt c i⟩

def rangeRows (start n : Nat) : List Row := (List.range n).map fun i => r.rowAt (start + i)

def ownedColumns : Nat := ((List.range r.ncols).filter fun c => !r.isShared c).length

/-- `col_rel_owned_ledger_bytes`. -/
def ownedLedgerBytes : Nat :=
  if r.arenaOwned ∨ r.capacity = 0 ∨ r.ownedColumns = 0 then 0
  else if (2 ^ 64 - 1) / r.capacity / 8 < r.ownedColumns then 2 ^ 64 - 1
  else r.ownedColumns * r.capacity * 8

/-- `col_rel_ledger_reconcile`, which brings the charge of the timestamps in line as well. -/
def ledgerReconcile (beforeBytes : Nat) : BufferRel :=
  { r with
    memLedger := r.memLedger.map fun ledger =>
      { relationBytes := adjustCounter ledger.relationBytes beforeBytes r.ownedLedgerBytes
        timestampBytes := adjustCounter ledger.timestampBytes r.ledgerTsBytes r.timestampBytes
        currentBytes :=
          adjustCounter (adjustCounter ledger.currentBytes beforeBytes r.ownedLedgerBytes)
            r.ledgerTsBytes r.timestampBytes }
    ledgerTsBytes := if r.memLedger.isSome then r.timestampBytes else r.ledgerTsBytes }

/-- What the ledger counts, and what the relation has recorded of it. -/
def charge : Option MemLedger × Nat := (r.memLedger, r.ledgerTsBytes)

/-- `wl_columnar_relation_generation_advance`, on a counter that stops at its last value. -/
def advance (generation : Nat) : Nat :=
  if 2 ^ 64 - 2 ≤ generation then 2 ^ 64 - 1 else generation + 1

/-- `wl_columnar_relation_touch_view`. -/
def touchView : BufferRel := { r with viewGeneration := advance r.viewGeneration }

/-- `wl_columnar_relation_touch_storage`. -/
def touchStorage : BufferRel := { r with storageGeneration := advance r.storageGeneration }

/-- The relation with private copies of the flagged columns. -/
def detached (flags : Nat → Bool) : BufferRel :=
  let copied : BufferRel :=
    { r with
      columns := fun c => if flags c then r.nextBuffer + c else r.columns c
      buffers := fun b =>
        if r.nextBuffer ≤ b ∧ b < r.nextBuffer + r.ncols then
          copyBlock (r.buffers b) 0 r.nrows (r.buffers (r.columns (b - r.nextBuffer)))
        else r.buffers b
      nextBuffer := r.nextBuffer + r.ncols
      colShared := none }
  (copied.ledgerReconcile r.ownedLedgerBytes).touchStorage

/-- `col_rel_cow_unshare` at the capacity that the relation has. -/
def colRelCowUnshare (outOfMemory : Bool) : Option BufferRel :=
  match r.colShared with
  | none => some r
  | some flags => if outOfMemory then none else some (r.detached flags)

end BufferRel

/-! ## The sort -/

inductive SortRc where
  | ok
  | einval
  | enomem
  | eoverflow
  | undefined
  deriving DecidableEq, Repr

/-- The allocations that fail: the saved columns, the private copies, the work space and the
buffer through which a column is permuted. -/
structure SortFaults where
  save : Bool
  detach : Bool
  work : Bool
  gather : Bool
  deriving DecidableEq, Repr

namespace BufferRel

variable (r : BufferRel) (start n : Nat)

def writeRange (value : Nat → (Nat → Cell) → Nat → Cell) : BufferRel :=
  { r with
    buffers := (List.range r.ncols).foldl
      (fun buffers c => update buffers (r.columns c)
        (copyBlock (buffers (r.columns c)) start n (value c (buffers (r.columns c)))))
      r.buffers }

def insertedRows : List Row :=
  insertionSortBy (fun left right => rowCmp r.columnTypes left right ≤ 0) (r.rangeRows start n)

def colRelInsertionSort (faults : SortFaults) : SortRc × BufferRel :=
  if r.ncols ≠ 0 ∧ (2 ^ 64 - 1) / (r.ncols * 8) < n + 1 then (.eoverflow, r)
  else if faults.work then (.enomem, r)
  else (.ok, r.writeRange start n fun c _ i =>
    ((r.insertedRows start n).getD i ⟨[]⟩).cells.getD c 0)

/-- One pass over the positions: skipped when all digits are equal, otherwise each position is
written to the next place of its bucket. -/
def radixScatter (digit : Nat → Nat) (src : List Nat) : List Nat :=
  match src with
  | [] => []
  | first :: rest =>
    if rest.all (digit · == digit first) then src
    else (List.range src.length).map (countingPass digit src fun _ => 0)

/-- The positions of a range after the passes over all columns, from the last one to the first. -/
def radixIndices (bits : Nat) : List Nat :=
  (List.range r.ncols).foldr
    (fun c src => (List.range (64 / bits)).foldl
      (fun src pass =>
        radixScatter (fun i => radixDigit bits (64 / bits) pass (r.cellAt c (start + i))) src)
      src)
    (List.range n)

/-- The digits of the radix sort: `radix_sort_k16` for many rows. -/
def radixBits : Nat := if 50000 ≤ n then 16 else 8

/-- The sort by insertion is taken. -/
def Inserts : Prop := ColumnType.float ∈ r.columnTypes ∨ n ≤ 32

instance : Decidable (r.Inserts n) :=
  inferInstanceAs (Decidable (ColumnType.float ∈ r.columnTypes ∨ n ≤ 32))

/-- `col_rel_radix_sort_raw`. The columns are counted down by an `int`. -/
def colRelRadixSortRaw (faults : SortFaults) : SortRc × BufferRel :=
  if n ≤ 1 then (.ok, r)
  else if r.Inserts n then
    match r.colRelInsertionSort start n faults with
    | (.ok, sorted) => (.ok, sorted.touchView)
    | failed => failed
  else if faults.work then (.enomem, r)
  else if 2 ^ 31 ≤ r.ncols then (.undefined, r)
  else if faults.gather then (.enomem, r)
  else (.ok, (r.writeRange start n fun _ column i =>
    column (start + (r.radixIndices start n (radixBits n)).getD i 0)).touchView)

/-- Drop the private columns again. -/
def rollback (sorted : BufferRel) : BufferRel :=
  { { sorted with columns := r.columns, colShared := r.colShared }.ledgerReconcile
      r.ownedLedgerBytes with
    viewGeneration := r.viewGeneration
    storageGeneration := r.storageGeneration }

def colRelRadixSort (faults : SortFaults) : SortRc × BufferRel :=
  if r.nrows < start ∨ r.nrows - start < n then (.einval, r)
  else if n ≤ 1 then (.ok, r)
  else if r.colShared.isNone then r.colRelRadixSortRaw start n faults
  else if faults.save then (.enomem, r)
  else
    match r.colRelCowUnshare faults.detach with
    | none => (.enomem, r)
    | some private_ =>
      match private_.colRelRadixSortRaw start n faults with
      | (.ok, sorted) => (.ok, sorted)
      | (.undefined, sorted) => (.undefined, sorted)
      | (rc, sorted) => (rc, r.rollback sorted)

end BufferRel

/-! ## Rearranging the rows of a range -/

/-- The cells of a range come from the positions that are listed; nothing else changes. -/
structure Rearranged (r s : BufferRel) (start n : Nat) (order : List Nat) : Prop where
  ncols : s.ncols = r.ncols
  nrows : s.nrows = r.nrows
  types : s.columnTypes = r.columnTypes
  cells : ∀ c < r.ncols, ∀ i, s.cellAt c i =
    if start ≤ i ∧ i < start + n then r.cellAt c (start + order.getD (i - start) 0)
    else r.cellAt c i
  others : ∀ b, (∀ c < r.ncols, r.columns c ≠ b) → s.buffers b = r.buffers b

def BufferRel.Distinct (r : BufferRel) : Prop :=
  ∀ c < r.ncols, ∀ c' < r.ncols, r.columns c = r.columns c' → c = c'

section Rearranging

variable {r s : BufferRel} {start n : Nat} {order : List Nat}

theorem Rearranged.rowAt_inside (rearranged : Rearranged r s start n order) {i : Nat}
    (inside : i < n) : s.rowAt (start + i) = r.rowAt (start + order.getD i 0) := by
  refine Row.ext ?_
  simp only [BufferRel.rowAt, rearranged.ncols]
  refine map_congr_left fun c member => ?_
  rw [rearranged.cells c (mem_range.mp member), if_pos (by omega), Nat.add_sub_cancel_left]

theorem Rearranged.rowAt_outside (rearranged : Rearranged r s start n order) {i : Nat}
    (outside : i < start ∨ start + n ≤ i) : s.rowAt i = r.rowAt i := by
  refine Row.ext ?_
  simp only [BufferRel.rowAt, rearranged.ncols]
  refine map_congr_left fun c member => ?_
  rw [rearranged.cells c (mem_range.mp member), if_neg (by omega)]

theorem Rearranged.rangeRows (rearranged : Rearranged r s start n order)
    (length : order.length = n) :
    s.rangeRows start n = order.map fun i => r.rowAt (start + i) := by
  refine ext_getElem (by simp [BufferRel.rangeRows, length]) fun i inside inside' => ?_
  have bound : i < n := by simpa [BufferRel.rangeRows] using inside
  simp only [BufferRel.rangeRows, getElem_map, getElem_range]
  rw [rearranged.rowAt_inside bound, getD_eq_getElem]

/-- Buffers that are written one after the other each get their own value. -/
theorem foldl_update_buffers {columns : Nat → Nat} (value : Nat → (Nat → Cell) → Nat → Cell)
    (buffers : Nat → Nat → Cell) (m : Nat)
    (distinct : ∀ c < m, ∀ c' < m, columns c = columns c' → c = c') :
    (∀ c < m, (List.range m).foldl (fun buffers c => update buffers (columns c)
        (value c (buffers (columns c)))) buffers (columns c) = value c (buffers (columns c))) ∧
      ∀ b, (∀ c < m, columns c ≠ b) → (List.range m).foldl
        (fun buffers c => update buffers (columns c) (value c (buffers (columns c))))
        buffers b = buffers b := by
  induction m with
  | zero => simp
  | succ m ih =>
    obtain ⟨written, kept⟩ := ih fun c below c' below' same =>
      distinct c (by omega) c' (by omega) same
    have fresh : ∀ c < m, columns c ≠ columns m := fun c below same => by
      have := distinct c (by omega) m (by omega) same
      omega
    simp only [range_succ, foldl_append, foldl_cons, foldl_nil]
    constructor
    · intro c below
      rcases Nat.lt_succ_iff_lt_or_eq.mp below with earlier | rfl
      · rw [update_of_ne (fresh c earlier), written c earlier]
      · rw [update_self, kept _ fresh]
    · intro b apart
      rw [update_of_ne (apart m (by omega)).symm, kept b fun c below =>
        apart c (by omega)]

/-- A range that is written from listed positions is rearranged. -/
theorem writeRange_rearranged {value : Nat → (Nat → Cell) → Nat → Cell}
    (distinct : r.Distinct) (reads : ∀ c < r.ncols, ∀ i < n,
      value c (r.buffers (r.columns c)) i = r.cellAt c (start + order.getD i 0)) :
    Rearranged r (r.writeRange start n value) start n order := by
  obtain ⟨written, kept⟩ := foldl_update_buffers
    (fun c column => copyBlock column start n (value c column)) r.buffers r.ncols distinct
  refine ⟨rfl, rfl, rfl, fun c below i => ?_, kept⟩
  refine (congrFun (written c below) i).trans ?_
  rw [copyBlock]
  split_ifs with inside
  · exact reads c below _ (by omega)
  · rfl

end Rearranging

/-! ## The orders of the two sorts -/

/-- A position of a range comes before another one: its row is smaller by the typed comparator, or
the rows compare equal and it was before. -/
def BufferRel.Before (r : BufferRel) (start i j : Nat) : Prop :=
  rowCmp r.columnTypes (r.rowAt (start + i)) (r.rowAt (start + j)) < 0 ∨
    rowCmp r.columnTypes (r.rowAt (start + i)) (r.rowAt (start + j)) = 0 ∧ i < j

/-- The `FLOAT` cells of a range are finite. -/
def BufferRel.FiniteRange (r : BufferRel) (start n : Nat) : Prop :=
  ∀ i < n, FloatsValid r.columnTypes (r.rowAt (start + i)).cells

/-- The positions of a range in stable order. -/
structure SortedOrder (r : BufferRel) (start n : Nat) (order : List Nat) : Prop where
  perm : order.Perm (List.range n)
  ordered : order.Pairwise (r.Before start)

section Orders

variable {r : BufferRel} {start n : Nat}

theorem length_rowAt (i : Nat) : (r.rowAt i).cells.length = r.ncols := by
  simp [BufferRel.rowAt]

/-- Positions are compared by the ranks of their rows. -/
theorem before_iff (finite : r.FiniteRange start n) {i j : Nat} (insideI : i < n)
    (insideJ : j < n) : r.Before start i j ↔
      ByRank (fun i => cellsRank r.columnTypes (r.rowAt (start + i)).cells) (· < ·) i j := by
  obtain ⟨below, equal⟩ := cellsCmp_rank
    ((length_rowAt (r := r) (start + i)).trans (length_rowAt (start + j)).symm)
    (finite i insideI) (finite j insideJ)
  rw [BufferRel.Before, ByRank, rowCmp, below, equal]

theorem SortedOrder.of_byRank (finite : r.FiniteRange start n) {order : List Nat}
    (perm : order.Perm (List.range n))
    (ordered : order.Pairwise (ByRank
      (fun i => cellsRank r.columnTypes (r.rowAt (start + i)).cells) (· < ·))) :
    SortedOrder r start n order := by
  refine ⟨perm, ordered.imp_of_mem fun {i j} inI inJ => ?_⟩
  exact (before_iff finite (mem_range.mp (perm.mem_iff.mp inI))
    (mem_range.mp (perm.mem_iff.mp inJ))).mpr

/-- **The insertion sort gives the rows in stable order.** -/
theorem insertionSort_spec (finite : r.FiniteRange start n) :
    ∃ order, SortedOrder r start n order ∧
      r.insertedRows start n = order.map fun i => r.rowAt (start + i) := by
  have compares (i j : Fin n) :
      rowCmp r.columnTypes (r.rowAt (start + i)) (r.rowAt (start + j)) ≤ 0 ↔
        cellsRank r.columnTypes (r.rowAt (start + i)).cells ≤
          cellsRank r.columnTypes (r.rowAt (start + j)).cells := by
    obtain ⟨below, equal⟩ := cellsCmp_rank
      ((length_rowAt (r := r) (start + i)).trans (length_rowAt (start + j)).symm)
      (finite i i.isLt) (finite j j.isLt)
    simp [le_iff_lt_or_eq, rowCmp, below, equal]
  have positions : (List.finRange n).map Fin.val = List.range n := map_coe_finRange_eq_range
  refine ⟨(insertionSortBy (fun i j : Fin n =>
    rowCmp r.columnTypes (r.rowAt (start + i)) (r.rowAt (start + j)) ≤ 0)
      (List.finRange n)).map Fin.val, ?_, ?_⟩
  · refine .of_byRank finite ?_ ?_
    · rw [← positions]
      exact (insertionSortBy_perm _).map _
    · refine pairwise_map.mpr ?_
      exact insertionSortBy_pairwise compares (pairwise_lt_finRange n)
  · rw [BufferRel.insertedRows, BufferRel.rangeRows, ← positions, map_map, map_map,
      insertionSortBy_map]
    rfl

theorem radixScatter_eq {buckets : Nat} {digit : Nat → Nat} {src : List Nat}
    (small : ∀ i ∈ src, digit i < buckets) :
    BufferRel.radixScatter digit src = radixPass buckets digit src := by
  cases src with
  | nil => rfl
  | cons first rest =>
    rw [BufferRel.radixScatter, radixPass]
    split_ifs
    · rfl
    · exact countingPass_eq_distribute small _

/-- The passes are those of a radix sort by the integers in the columns. -/
theorem radixIndices_eq {bits : Nat} (positive : 0 < bits) (fits : bits * (64 / bits) = 64) :
    r.radixIndices start n bits = radixKeys (2 ^ bits) (64 / bits)
      ((List.range r.ncols).map fun c i => intKey (r.cellAt c (start + i))) (List.range n) := by
  rw [BufferRel.radixIndices, radixKeys, foldr_map]
  congr 1
  funext c src
  refine foldl_ext _ _ _ fun src pass member => ?_
  have digits (i : Nat) := radixDigit_eq positive fits (mem_range.mp member)
    (r.cellAt c (start + i))
  simp only [digits]
  exact radixScatter_eq fun i _ => Nat.mod_lt _ (Nat.two_pow_pos bits)

/-- **The radix sort gives the positions in stable order.** -/
theorem radixIndices_spec {bits : Nat} (positive : 0 < bits) (fits : bits * (64 / bits) = 64)
    (integers : ColumnType.float ∉ r.columnTypes) (finite : r.FiniteRange start n) :
    SortedOrder r start n (r.radixIndices start n bits) := by
  have base : 0 < 2 ^ bits := Nat.two_pow_pos bits
  rw [radixIndices_eq positive fits]
  refine .of_byRank finite (radixKeys_perm base _ _ _) ?_
  have bounded : ∀ key ∈ (List.range r.ncols).map
      (fun c i => intKey (r.cellAt c (start + i))), ∀ i ∈ List.range n,
      key i < (2 ^ bits) ^ (64 / bits) := by
    intro key member i _
    obtain ⟨c, -, rfl⟩ := mem_map.mp member
    rw [← Nat.pow_mul, fits]
    exact Nat.mod_lt _ (Nat.two_pow_pos 64)
  refine (radixKeys_pairwise_then base _ _ pairwise_lt_range bounded).imp fun {i j} keyed => ?_
  have ranks (i : Nat) : cellsRank r.columnTypes (r.rowAt (start + i)).cells =
      ((List.range r.ncols).map fun c i => intKey (r.cellAt c (start + i))).map (· i) := by
    rw [cellsRank_of_integers integers, BufferRel.rowAt, map_map, map_map]
    rfl
  simp only [ranks]
  exact byKeysThen_iff.mp keyed

end Orders

/-! ## Failures and successes of the sort -/

variable (faults : SortFaults) (r : BufferRel)

/-- The sort gives up: its work space is too large or is not there, or a column cannot be
permuted. -/
def RawFails (n : Nat) : Prop :=
  r.Inserts n ∧ (r.ncols ≠ 0 ∧ (2 ^ 64 - 1) / (r.ncols * 8) < n + 1 ∨ faults.work = true) ∨
    ¬ r.Inserts n ∧ (faults.work = true ∨ r.ncols < 2 ^ 31 ∧ faults.gather = true)

/-- The radix sort is reached with more columns than an `int` counts. -/
def TooWide (n : Nat) : Prop :=
  ¬ r.Inserts n ∧ faults.work = false ∧ 2 ^ 31 ≤ r.ncols

section Raw

variable {r : BufferRel} (start : Nat) {n : Nat} {faults : SortFaults}

theorem RawFails.not_tooWide (fails : RawFails faults r n) : ¬ TooWide faults r n := by
  rintro ⟨radix, work, width⟩
  rcases fails with ⟨inserts, _⟩ | ⟨_, fault | ⟨narrow, _⟩⟩
  · exact radix inserts
  · simp [work] at fault
  · omega

theorem colRelRadixSortRaw_of_fails (many : 1 < n) (fails : RawFails faults r n) :
    ∃ rc, (rc = .enomem ∨ rc = .eoverflow) ∧ r.colRelRadixSortRaw start n faults = (rc, r) := by
  rw [BufferRel.colRelRadixSortRaw, if_neg (by omega)]
  rcases fails with ⟨inserts, large⟩ | ⟨radix, cause⟩
  · rw [if_pos inserts, BufferRel.colRelInsertionSort]
    by_cases overflow : r.ncols ≠ 0 ∧ (2 ^ 64 - 1) / (r.ncols * 8) < n + 1
    · rw [if_pos overflow]
      exact ⟨_, .inr rfl, rfl⟩
    · rw [if_neg overflow, if_pos (large.resolve_left overflow)]
      exact ⟨_, .inl rfl, rfl⟩
  · rw [if_neg radix]
    by_cases work : faults.work = true
    · rw [if_pos work]
      exact ⟨_, .inl rfl, rfl⟩
    obtain ⟨narrow, gather⟩ := cause.resolve_left work
    rw [if_neg work, if_neg (by omega), if_pos gather]
    exact ⟨_, .inl rfl, rfl⟩

theorem colRelRadixSortRaw_of_wide (many : 1 < n) (wide : TooWide faults r n) :
    r.colRelRadixSortRaw start n faults = (.undefined, r) := by
  obtain ⟨radix, work, width⟩ := wide
  rw [BufferRel.colRelRadixSortRaw, if_neg (by omega), if_neg radix, work,
    if_neg (by decide), if_pos width]

variable {start}

/-- **A sort that does not give up brings the range into stable order.** -/
theorem colRelRadixSortRaw_of_sorts (many : 1 < n) (distinct : r.Distinct)
    (finite : r.FiniteRange start n) (works : ¬ RawFails faults r n)
    (narrow : ¬ TooWide faults r n) :
    ∃ s order, r.colRelRadixSortRaw start n faults = (.ok, s) ∧
      SortedOrder r start n order ∧ Rearranged r s start n order := by
  rw [BufferRel.colRelRadixSortRaw, if_neg (by omega)]
  by_cases inserts : r.Inserts n
  · have small : ¬ (r.ncols ≠ 0 ∧ (2 ^ 64 - 1) / (r.ncols * 8) < n + 1) :=
      fun overflow => works (.inl ⟨inserts, .inl overflow⟩)
    have work : ¬ faults.work = true := fun fault => works (.inl ⟨inserts, .inr fault⟩)
    obtain ⟨order, sorted, rows⟩ := insertionSort_spec finite
    rw [if_pos inserts, BufferRel.colRelInsertionSort, if_neg small, if_neg work]
    refine ⟨_, order, rfl, sorted, ?_⟩
    have rearranged : Rearranged r (r.writeRange start n fun c _ i =>
        ((r.insertedRows start n).getD i ⟨[]⟩).cells.getD c 0) start n order := by
      refine writeRange_rearranged distinct fun c below i inside => ?_
      have bound : i < order.length := by
        rwa [sorted.perm.length_eq, length_range]
      simp [rows, bound, BufferRel.rowAt, below]
    exact ⟨rfl, rfl, rfl, rearranged.cells, rearranged.others⟩
  · have work : ¬ faults.work = true := fun fault => works (.inr ⟨inserts, .inl fault⟩)
    have width : ¬ 2 ^ 31 ≤ r.ncols := fun wide =>
      narrow ⟨inserts, Bool.eq_false_iff.mpr work, wide⟩
    have gather : ¬ faults.gather = true := fun fault =>
      works (.inr ⟨inserts, .inr ⟨not_le.mp width, fault⟩⟩)
    have integers : ColumnType.float ∉ r.columnTypes := fun float => inserts (.inl float)
    have sorted : SortedOrder r start n (r.radixIndices start n (BufferRel.radixBits n)) := by
      rw [BufferRel.radixBits]
      split_ifs
      · exact radixIndices_spec (by decide) (by decide) integers finite
      · exact radixIndices_spec (by decide) (by decide) integers finite
    rw [if_neg inserts, if_neg work, if_neg width, if_neg gather]
    refine ⟨_, _, rfl, sorted, ?_⟩
    have rearranged : Rearranged r (r.writeRange start n fun _ column i =>
        column (start + (r.radixIndices start n (BufferRel.radixBits n)).getD i 0)) start n
        (r.radixIndices start n (BufferRel.radixBits n)) :=
      writeRange_rearranged distinct fun c below i inside => rfl
    exact ⟨rfl, rfl, rfl, rearranged.cells, rearranged.others⟩

end Raw

/-! ## What the sort should do -/

/-- A relation that can be sorted: its rows fit its buffers, a column that it owns is no other
column, and its doubles are finite. -/
structure SortableRel extends BufferRel where
  rows_fit : nrows ≤ capacity
  types_fit : columnTypes.length ≤ ncols
  known : ∀ c < ncols, columns c < nextBuffer
  owned : ∀ c < ncols, ∀ c' < ncols, toBufferRel.isShared c = false →
    columns c = columns c' → c = c'
  finite : ∀ i < nrows, FloatsValid columnTypes (toBufferRel.rowAt i).cells

/-- The range is in stable order; other rows and the buffers of others are untouched. -/
structure SortedRange (r s : BufferRel) (start n : Nat) : Prop where
  shape : s.ncols = r.ncols ∧ s.nrows = r.nrows ∧ s.columnTypes = r.columnTypes
  rows : ∃ order, SortedOrder r start n order ∧
    s.rangeRows start n = order.map fun i => r.rowAt (start + i)
  outside : ∀ i < r.nrows, i < start ∨ start + n ≤ i → s.rowAt i = r.rowAt i
  lender : ∀ c < r.ncols, r.isShared c = true → s.buffers (r.columns c) = r.buffers (r.columns c)
  foreign : ∀ b < r.nextBuffer, (∀ c < r.ncols, r.columns c ≠ b) → s.buffers b = r.buffers b

/-- The relation and the buffers are as they were. -/
structure Unchanged (r s : BufferRel) : Prop where
  shape : s.ncols = r.ncols ∧ s.nrows = r.nrows ∧ s.columnTypes = r.columnTypes
  rows : ∀ i < r.nrows, s.rowAt i = r.rowAt i
  flags : s.columns = r.columns ∧ s.colShared = r.colShared
  generations : s.viewGeneration = r.viewGeneration ∧ s.storageGeneration = r.storageGeneration
  charge : s.charge = r.charge
  buffers : ∀ b < r.nextBuffer, s.buffers b = r.buffers b

/-- What a call should leave behind. -/
def SortRight (start n : Nat) : SortRc × BufferRel → Prop
  | (.ok, s) => SortedRange r s start n
  | (.undefined, _) => False
  | (_, s) => Unchanged r s

/-- The call gets to the sort itself. -/
def Reaches (start n : Nat) : Prop :=
  ¬ (r.nrows < start ∨ r.nrows - start < n) ∧ 1 < n ∧
    (r.colShared = none ∨ faults.save = false ∧ faults.detach = false)

/-- The sort gives up after the private columns were charged. -/
def LosesCharge (start n : Nat) : Prop :=
  Reaches faults r start n ∧ RawFails faults r n ∧
    ∃ flags, r.colShared = some flags ∧ (r.detached flags).charge ≠ r.charge

section Detached

variable {r : SortableRel} {flags : Nat → Bool}

theorem isShared_of_flags (shared : r.colShared = some flags) (c : Nat) :
    r.isShared c = flags c := by
  simp [BufferRel.isShared, shared]

theorem buffers_detached {b : Nat} (old : b < r.nextBuffer) :
    (r.detached flags).buffers b = r.buffers b :=
  if_neg (by omega)

theorem columns_detached (c : Nat) :
    (r.detached flags).columns c = if flags c then r.nextBuffer + c else r.columns c := rfl

theorem detached_distinct (shared : r.colShared = some flags) :
    (r.detached flags).Distinct := by
  intro c below c' below' same
  have here := r.known c below
  have there := r.known c' below'
  have own := r.owned c below c' below'
  rw [isShared_of_flags shared] at own
  rw [columns_detached, columns_detached] at same
  split_ifs at same with flagged flagged'
  · omega
  · omega
  · omega
  · exact own (by simpa using flagged) same

theorem rowAt_detached {i : Nat} (inside : i < r.nrows) :
    (r.detached flags).rowAt i = r.rowAt i := by
  refine Row.ext (map_congr_left fun c member => ?_)
  have below : c < r.ncols := mem_range.mp member
  rw [BufferRel.cellAt, columns_detached]
  split_ifs with flagged
  · have fresh : r.nextBuffer ≤ r.nextBuffer + c ∧ r.nextBuffer + c < r.nextBuffer + r.ncols := by
      omega
    refine (congrFun (if_pos fresh) i).trans ?_
    rw [copyBlock, if_pos (by omega), Nat.add_sub_cancel_left]
    rfl
  · exact congrFun (buffers_detached (r.known c below)) i

/-- The private columns are none of the buffers that others have. -/
theorem columns_detached_ne (shared : r.colShared = some flags) {b : Nat} (old : b < r.nextBuffer)
    (foreign : ∀ c < r.ncols, r.isShared c = false → r.columns c ≠ b) :
    ∀ c < r.ncols, (r.detached flags).columns c ≠ b := by
  intro c below
  rw [columns_detached]
  split_ifs with flagged
  · omega
  refine foreign c below ?_
  rw [isShared_of_flags shared]
  simpa using flagged

theorem adjustCounter_self (counter bytes : Nat) : adjustCounter counter bytes bytes = counter := by
  simp [adjustCounter]

/-- A relation that is charged for what it has is not charged again. -/
theorem charge_ledgerReconcile_self {s : BufferRel}
    (inLine : s.memLedger.isSome = true → s.ledgerTsBytes = s.timestampBytes) :
    (s.ledgerReconcile s.ownedLedgerBytes).charge = s.charge := by
  cases attached : s.memLedger with
  | none => simp [BufferRel.charge, BufferRel.ledgerReconcile, attached]
  | some ledger =>
    have stamps := inLine (by rw [attached]; rfl)
    simp [BufferRel.charge, BufferRel.ledgerReconcile, attached, stamps, adjustCounter_self]

/-- Dropping the private columns gives nothing back to the ledger. -/
theorem charge_rollback : (r.rollback (r.detached flags)).charge = (r.detached flags).charge := by
  refine charge_ledgerReconcile_self (s := { r.detached flags with
    columns := r.columns, colShared := r.colShared }) fun attached => ?_
  refine if_pos ?_
  simpa [BufferRel.detached, BufferRel.touchStorage, BufferRel.ledgerReconcile] using attached

end Detached

section Result

variable {r : SortableRel} {start n : Nat} {faults : SortFaults}

theorem Unchanged.refl (r : BufferRel) : Unchanged r r :=
  ⟨⟨rfl, rfl, rfl⟩, fun _ _ => rfl, ⟨rfl, rfl⟩, ⟨rfl, rfl⟩, rfl, fun _ _ => rfl⟩

theorem sortRight_of_failed {r s : BufferRel} {rc : SortRc}
    (failed : rc = .enomem ∨ rc = .eoverflow) :
    SortRight r start n (rc, s) ↔ Unchanged r s := by
  rcases failed with rfl | rfl
  · rfl
  · rfl

/-- Few rows are in order. -/
theorem SortedRange.refl (r : BufferRel) (few : n ≤ 1) : SortedRange r r start n := by
  refine ⟨⟨rfl, rfl, rfl⟩, ⟨List.range n, ⟨.refl _, ?_⟩, rfl⟩, fun _ _ _ => rfl, fun _ _ _ => rfl,
    fun _ _ _ => rfl⟩
  interval_cases n
  · exact .nil
  · exact pairwise_singleton _ _

/-- A call that does not get to the sort does what it should. -/
theorem sortRight_of_not_reaches (early : ¬ Reaches faults r.toBufferRel start n) :
    SortRight r.toBufferRel start n (r.colRelRadixSort start n faults) := by
  rw [BufferRel.colRelRadixSort]
  split_ifs with range few plain save
  · exact .refl _
  · exact .refl _ few
  · exact absurd ⟨range, not_le.mp few, .inl (Option.isNone_iff_eq_none.mp plain)⟩ early
  · exact .refl _
  obtain ⟨flags, shared⟩ := Option.ne_none_iff_exists'.mp
    fun none => plain (Option.isNone_iff_eq_none.mpr none)
  have detach : faults.detach = true := by
    by_contra works
    exact early ⟨range, not_le.mp few,
      .inr ⟨Bool.eq_false_iff.mpr save, Bool.eq_false_iff.mpr works⟩⟩
  simp only [BufferRel.colRelCowUnshare, shared, detach, if_true]
  exact .refl _

theorem SortedRange.of_rearranged {r d s : BufferRel} {order : List Nat}
    (shape : d.ncols = r.ncols ∧ d.nrows = r.nrows ∧ d.columnTypes = r.columnTypes)
    (same : ∀ i < r.nrows, d.rowAt i = r.rowAt i) (range : start + n ≤ r.nrows)
    (sorted : SortedOrder d start n order) (rearranged : Rearranged d s start n order)
    (lender : ∀ c < r.ncols, r.isShared c = true →
      s.buffers (r.columns c) = r.buffers (r.columns c))
    (foreign : ∀ b < r.nextBuffer, (∀ c < r.ncols, r.columns c ≠ b) → s.buffers b = r.buffers b) :
    SortedRange r s start n := by
  have inRange : ∀ i ∈ order, start + i < r.nrows := fun i member => by
    have := mem_range.mp (sorted.perm.mem_iff.mp member)
    omega
  have rows : (order.map fun i => d.rowAt (start + i)) = order.map fun i => r.rowAt (start + i) :=
    map_congr_left fun i member => same _ (inRange i member)
  refine ⟨⟨rearranged.ncols.trans shape.1, rearranged.nrows.trans shape.2.1,
    rearranged.types.trans shape.2.2⟩, ⟨order, ⟨sorted.perm, ?_⟩, ?_⟩, ?_, lender, foreign⟩
  · refine sorted.ordered.imp_of_mem fun {i j} inI inJ before => ?_
    rwa [BufferRel.Before, same _ (inRange i inI), same _ (inRange j inJ), shape.2.2] at before
  · have length : order.length = n := by rw [sorted.perm.length_eq, length_range]
    rw [rearranged.rangeRows length, rows]
  · intro i inside outside
    rw [rearranged.rowAt_outside outside, same i inside]

theorem sortRight_plain_iff (range : start + n ≤ r.nrows) (many : 1 < n)
    (plain : r.colShared = none) :
    SortRight r.toBufferRel start n (r.colRelRadixSortRaw start n faults) ↔
      ¬ TooWide faults r.toBufferRel n := by
  by_cases fails : RawFails faults r.toBufferRel n
  · obtain ⟨rc, code, failed⟩ := colRelRadixSortRaw_of_fails start many fails
    rw [failed, sortRight_of_failed code]
    exact iff_of_true (.refl _) fails.not_tooWide
  by_cases wide : TooWide faults r.toBufferRel n
  · rw [colRelRadixSortRaw_of_wide start many wide]
    exact iff_of_false id fun narrow => narrow wide
  have unshared (c : Nat) : r.isShared c = false := by simp [BufferRel.isShared, plain]
  have distinct : r.Distinct := fun c below c' below' =>
    r.owned c below c' below' (unshared c)
  have finite : r.FiniteRange start n := fun i inside => r.finite _ (by omega)
  obtain ⟨s, order, done, sorted, rearranged⟩ :=
    colRelRadixSortRaw_of_sorts many distinct finite fails wide
  rw [done]
  refine iff_of_true ?_ wide
  refine .of_rearranged ⟨rfl, rfl, rfl⟩ (fun _ _ => rfl) range sorted rearranged ?_ ?_
  · intro c _ shared
    rw [unshared c] at shared
    cases shared
  · intro b _ foreign
    exact rearranged.others b foreign

theorem sortRight_detached (range : start + n ≤ r.nrows) (many : 1 < n) {flags : Nat → Bool}
    (shared : r.colShared = some flags) (works : ¬ RawFails faults r.toBufferRel n)
    (narrow : ¬ TooWide faults r.toBufferRel n) :
    ∃ s, (r.detached flags).colRelRadixSortRaw start n faults = (.ok, s) ∧
      SortedRange r.toBufferRel s start n := by
  have finite : (r.detached flags).FiniteRange start n := fun i inside => by
    rw [rowAt_detached (by omega)]
    exact r.finite _ (by omega)
  obtain ⟨s, order, done, sorted, rearranged⟩ := colRelRadixSortRaw_of_sorts many
    (detached_distinct shared) finite works narrow
  -- a buffer that is not an own column is neither a private column nor changed by the sort
  have kept {b : Nat} (old : b < r.nextBuffer)
      (foreign : ∀ c < r.ncols, r.isShared c = false → r.columns c ≠ b) :
      s.buffers b = r.buffers b :=
    (rearranged.others b (columns_detached_ne shared old foreign)).trans (buffers_detached old)
  have same : ∀ i < r.nrows, (r.detached flags).rowAt i = r.rowAt i :=
    fun i inside => rowAt_detached inside
  have shape : (r.detached flags).ncols = r.ncols ∧ (r.detached flags).nrows = r.nrows ∧
      (r.detached flags).columnTypes = r.columnTypes := ⟨rfl, rfl, rfl⟩
  refine ⟨s, done, .of_rearranged shape same range sorted rearranged ?_ ?_⟩
  · intro c below lent
    refine kept (r.known c below) fun c' below' own same => ?_
    rw [r.owned c' below' c below own same, lent] at own
    cases own
  · intro b old foreign
    exact kept old fun c below _ => foreign c below

/-- Dropping the private columns restores all but the charge. -/
theorem unchanged_rollback_iff (flags : Nat → Bool) :
    Unchanged r.toBufferRel (r.rollback (r.detached flags)) ↔
      (r.detached flags).charge = r.charge := by
  refine ⟨fun unchanged => charge_rollback.symm.trans unchanged.charge, fun same => ?_⟩
  have kept (b : Nat) (old : b < r.nextBuffer) : (r.detached flags).buffers b = r.buffers b :=
    buffers_detached old
  refine ⟨⟨rfl, rfl, rfl⟩, fun i inside => ?_, ⟨rfl, rfl⟩, ⟨rfl, rfl⟩,
    charge_rollback.trans same, kept⟩
  refine Row.ext (map_congr_left fun c member => ?_)
  exact congrFun (kept _ (r.known c (mem_range.mp member))) i

/-- **A call does what it should exactly when it does not fail after the private columns were
charged, and does not count more columns than an `int` holds.** -/
theorem colRelRadixSort_right_iff (faults : SortFaults) (r : SortableRel) (start n : Nat) :
    SortRight r.toBufferRel start n (r.colRelRadixSort start n faults) ↔
      ¬ LosesCharge faults r.toBufferRel start n ∧
        ¬ (Reaches faults r.toBufferRel start n ∧ TooWide faults r.toBufferRel n) := by
  by_cases reaches : Reaches faults r.toBufferRel start n
  · obtain ⟨range, many, private_⟩ := id reaches
    have within : start + n ≤ r.nrows := by omega
    simp only [LosesCharge, reaches, true_and]
    rw [BufferRel.colRelRadixSort, if_neg range, if_neg (by omega)]
    rcases shared : r.colShared with _ | flags
    · rw [if_pos (by rfl), sortRight_plain_iff within many shared]
      simp
    obtain ⟨save, detach⟩ := private_.resolve_left (by simp [shared])
    rw [if_neg (by simp), if_neg (by simp [save])]
    simp only [BufferRel.colRelCowUnshare, shared, detach, Bool.false_eq_true, if_false,
      Option.some.injEq, exists_eq_left']
    by_cases fails : RawFails faults r.toBufferRel n
    · have narrow := fails.not_tooWide
      obtain ⟨rc, code, failed⟩ :=
        colRelRadixSortRaw_of_fails (r := r.detached flags) start many fails
      have dropped : SortRight r.toBufferRel start n (rc, r.rollback (r.detached flags)) ↔
          (r.detached flags).charge = r.charge :=
        (sortRight_of_failed code).trans (unchanged_rollback_iff flags)
      rcases code with rfl | rfl
      · simpa [failed, fails, narrow] using dropped
      · simpa [failed, fails, narrow] using dropped
    · by_cases wide : TooWide faults r.toBufferRel n
      · have overrun : (r.detached flags).colRelRadixSortRaw start n faults = (.undefined, _) :=
          colRelRadixSortRaw_of_wide start many wide
        rw [overrun]
        exact iff_of_false id fun right => right.2 wide
      · obtain ⟨s, done, sorted⟩ := sortRight_detached within many shared fails wide
        rw [done]
        exact iff_of_true sorted ⟨fun lost => fails lost.1, wide⟩
  · refine iff_of_true (sortRight_of_not_reaches reaches) ⟨fun lost => reaches lost.1, fun wide =>
      reaches wide.1⟩

/-- A relation of two rows that borrows its only column, with an empty ledger. -/
def borrowingRel : SortableRel where
  ncols := 1
  nrows := 2
  capacity := 64
  columns := fun _ => 0
  buffers := fun _ i => if i = 0 then 1 else 0
  nextBuffer := 1
  colShared := some fun _ => true
  columnTypes := []
  arenaOwned := false
  viewGeneration := 1
  storageGeneration := 1
  memLedger := some ⟨0, 0, 0⟩
  timestampBytes := 0
  ledgerTsBytes := 0
  rows_fit := by decide
  types_fit := by decide
  known := by decide
  owned := by
    intro c below c' below' _ _
    omega
  finite := fun i _ _ float => by cases float

/-- A sort without work space leaves the ledger charged for a column that was given up. -/
theorem sort_leaks_charge :
    (borrowingRel.colRelRadixSort 0 2 ⟨false, false, true, false⟩).1 = .enomem ∧
      (borrowingRel.colRelRadixSort 0 2 ⟨false, false, true, false⟩).2.memLedger =
        some ⟨512, 0, 512⟩ ∧
      borrowingRel.memLedger = some ⟨0, 0, 0⟩ ∧
      ¬ SortRight borrowingRel.toBufferRel 0 2
        (borrowingRel.colRelRadixSort 0 2 ⟨false, false, true, false⟩) := by
  refine ⟨by decide, by decide, rfl, fun right => ?_⟩
  have unchanged : Unchanged borrowingRel.toBufferRel
      (borrowingRel.colRelRadixSort 0 2 ⟨false, false, true, false⟩).2 := right
  exact absurd (congrArg Prod.fst unchanged.charge) (by decide)

end Result

end Wirelog.Columnar

import Wirelog.Foundations.BinarySearch

/-!
# The two orders on rows

Rows are sorted by their typed order: cell by cell from the first column, `FLOAT`
cells by the value of the double and all others as signed integers (`rowCmp`). The
delta step looks rows up by `memcmp` (`memcmpRow`): byte by byte, and on a little-endian
host the low byte of a cell comes first. The two orders agree that rows are equal, and
nothing more.
-/

set_option autoImplicit false

namespace Wirelog.Columnar

open Foundations

/-- One `int64_t` cell, as its bit pattern. -/
abbrev Cell := BitVec 64

/-- The cells of one row, in column order. -/
@[ext] structure Row where
  cells : List Cell
  deriving DecidableEq, Repr

/-- `wirelog_column_type_t`. -/
inductive ColumnType where
  | int32
  | int64
  | uint32
  | uint64
  | float
  | string
  | bool
  deriving DecidableEq, Repr

/-! ## The typed order -/

/-- `wl_columnar_float_bits_valid`: the exponent is not all ones. -/
def floatBitsValid (bits : Cell) : Bool :=
  bits &&& 0x7ff0000000000000#64 != 0x7ff0000000000000#64

/-- `wl_columnar_float_bits_zero`: either zero. -/
def floatBitsZero (bits : Cell) : Bool := bits &&& 0x7fffffffffffffff#64 == 0#64

/-- Reverse the negative encodings and place positives above negatives. -/
def floatKey (bits : Cell) : Cell :=
  if bits.msb then ~~~bits else bits ^^^ 0x8000000000000000#64

/-- `WL_COLUMNAR_CMP_INCOMPATIBLE`. -/
def cmpIncompatible : Int := -2147483648

/-- `wl_columnar_float_compare_bits`. -/
def floatCompareBits (left right : Cell) : Int :=
  if !floatBitsValid left || !floatBitsValid right then cmpIncompatible
  else if floatBitsZero left && floatBitsZero right then 0
  else if floatKey left < floatKey right then -1
  else if floatKey left > floatKey right then 1
  else 0

theorem floatKey_injective : Function.Injective floatKey := by
  -- the key has the opposite sign bit
  have sign (bits : Cell) : (floatKey bits).msb = !bits.msb := by
    unfold floatKey
    split_ifs with negative
    · simp [negative]
    simp [negative]
    decide
  intro left right same
  have signs := congrArg BitVec.msb same
  rw [sign, sign, Bool.not_inj_iff] at signs
  unfold floatKey at same
  rw [signs] at same
  split_ifs at same
  · exact BitVec.not_inj.mp same
  · exact (BitVec.xor_left_inj _).mp same

def cellCmp (type : Option ColumnType) (left right : Cell) : Int :=
  if type = some .float then floatCompareBits left right
  else if left.toInt < right.toInt then -1
  else if left.toInt > right.toInt then 1
  else 0

/-- The first difference decides. -/
def cellsCmp (types : List ColumnType) : List Cell → List Cell → Int
  | left :: lefts, right :: rights =>
    let cmp := cellCmp types.head? left right
    if cmp ≠ 0 then cmp else cellsCmp types.tail lefts rights
  | _, _ => 0

/-- `col_rel_row_cmp`. -/
def rowCmp (types : List ColumnType) (left right : Row) : Int :=
  cellsCmp types left.cells right.cells

/-- A `FLOAT` cell holds a finite value and the zero is the positive one. Every write of a cell
checks the first and sees to the second. -/
def FloatCanonical (types : List ColumnType) (row : Row) : Prop :=
  ∀ i : Nat, types[i]? = some ColumnType.float → ∀ cell, row.cells[i]? = some cell →
    floatBitsValid cell = true ∧ (floatBitsZero cell = true → cell = 0)

theorem floatCanonical_nil (row : Row) : FloatCanonical [] row := by
  intro i float
  cases float

/-! ## The byte order -/

/-- The bytes of a cell in memory, low byte first. -/
def cellBytes (cell : Cell) : List (BitVec 8) :=
  (List.range 8).map fun i => (cell >>> (8 * i)).setWidth 8

def rowBytes (row : Row) : List (BitVec 8) := row.cells.flatMap cellBytes

/-- `memcmp` of two buffers of one length. -/
def memcmp : List (BitVec 8) → List (BitVec 8) → Ordering
  | left :: lefts, right :: rights =>
    if left < right then .lt else if right < left then .gt else memcmp lefts rights
  | _, _ => .eq

/-- `memcmp` of two rows of one width. -/
def memcmpRow (left right : Row) : Ordering := memcmp (rowBytes left) (rowBytes right)

theorem length_cellBytes (cell : Cell) : (cellBytes cell).length = 8 := by simp [cellBytes]

theorem length_rowBytes (row : Row) : (rowBytes row).length = 8 * row.cells.length := by
  simp [rowBytes, length_cellBytes, mul_comm]

/-- Bit `i` of a cell is bit `i % 8` of its byte `i / 8`. -/
theorem cellBytes_injective {left right : Cell} (same : cellBytes left = cellBytes right) :
    left = right := by
  apply BitVec.eq_of_getLsbD_eq
  intro i bound
  have byte := List.map_inj_left.mp same (i / 8) (List.mem_range.mpr (by omega))
  have bit := congrArg (fun b : BitVec 8 => b.getLsbD (i % 8)) byte
  have position : 8 * (i / 8) + i % 8 = i := Nat.div_add_mod i 8
  have small : i % 8 < 8 := Nat.mod_lt i (by omega)
  simpa [position, small] using bit

theorem flatMap_cellBytes_injective {lefts rights : List Cell}
    (same : lefts.flatMap cellBytes = rights.flatMap cellBytes) : lefts = rights := by
  induction lefts generalizing rights with
  | nil =>
    cases rights with
    | nil => rfl
    | cons right rights => simp [cellBytes, List.range_succ] at same
  | cons left lefts ih =>
    cases rights with
    | nil => simp [cellBytes, List.range_succ] at same
    | cons right rights =>
      rw [List.flatMap_cons, List.flatMap_cons] at same
      obtain ⟨first, rest⟩ := List.append_inj same
        ((length_cellBytes left).trans (length_cellBytes right).symm)
      rw [cellBytes_injective first, ih rest]

theorem memcmp_eq_iff {lefts rights : List (BitVec 8)} (width : lefts.length = rights.length) :
    memcmp lefts rights = .eq ↔ lefts = rights := by
  induction lefts generalizing rights with
  | nil => simp [memcmp, List.length_eq_zero_iff.mp width.symm]
  | cons left lefts ih =>
    cases rights with
    | nil => cases width
    | cons right rights =>
      rw [memcmp, List.cons.injEq]
      by_cases below : left < right
      · simp [below, BitVec.ne_of_lt below]
      by_cases above : right < left
      · simp [below, above, (BitVec.ne_of_lt above).symm]
      have same : left = right :=
        BitVec.le_antisymm (BitVec.not_lt.mp above) (BitVec.not_lt.mp below)
      simpa [below, above, same] using ih (Nat.succ.inj width)

/-- Rows of one width compare equal exactly when they are equal. -/
theorem memcmpRow_eq_iff {left right : Row} (width : left.cells.length = right.cells.length) :
    memcmpRow left right = .eq ↔ left = right := by
  rw [memcmpRow, memcmp_eq_iff (by rw [length_rowBytes, length_rowBytes, width])]
  constructor
  · intro same
    exact Row.ext (flatMap_cellBytes_injective same)
  · rintro rfl
    rfl

/-- `col_row_in_sorted`: binary search by `memcmp`. -/
def colRowInSorted (sorted : List Row) (row : Row) : Bool :=
  search (fun probed => memcmpRow probed row) sorted

/-- The byte order leads a binary search to the row: it is stored at a position such that of the
rows probed on the way those before it are smaller, byte by byte, and those after it are greater. -/
def WithinReach (rows : List Row) (row : Row) : Prop :=
  ∃ i, rows[i]? = some row ∧
    LeadsTo (fun probed => memcmpRow probed row) rows i (probesTo i rows.length 0 rows.length)

theorem WithinReach.mem {rows : List Row} {row : Row} (reached : WithinReach rows row) :
    row ∈ rows :=
  List.mem_of_getElem? reached.choose_spec.1

theorem colRowInSorted_iff {sorted : List Row} {row : Row}
    (width : ∀ other ∈ sorted, other.cells.length = row.cells.length) :
    colRowInSorted sorted row = true ↔ WithinReach sorted row := by
  rw [colRowInSorted, search_iff]
  constructor
  · rintro ⟨i, other, here, equal, way⟩
    have same := (memcmpRow_eq_iff (width other (List.mem_of_getElem? here))).mp equal
    exact ⟨i, same ▸ here, way⟩
  · rintro ⟨i, here, way⟩
    exact ⟨i, row, here, (memcmpRow_eq_iff rfl).mpr rfl, way⟩

/-- The typed order puts `1` before `256` and the byte order puts it after, so that the search
misses a row that is stored. -/
example : rowCmp [] ⟨[1]⟩ ⟨[256]⟩ = -1 ∧ colRowInSorted [⟨[1]⟩, ⟨[256]⟩] ⟨[1]⟩ = false := by
  decide

end Wirelog.Columnar

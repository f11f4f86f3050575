import Wirelog.Foundations.Merging
import Wirelog.Columnar.RowOrder

/-!
# Sorting the rows of a relation

Rows of a relation have a cell for each of its columns, and their `FLOAT` cells are canonical
(`TypedRow`). The typed order `rowCmp` makes these rows a linear order: each cell has a key, a
number, and rows are compared by their keys from the first column on (`rowKeys`).

Rows are sorted by `col_rel_radix_sort`: a radix sort over the bytes or the 16-bit digits of the
cells, from the last column to the first, and for few rows or `FLOAT` columns an insertion sort.
Both sort by the typed order (`radixSortRaw_spec`).
-/

set_option autoImplicit false

namespace Wirelog.Columnar

open Foundations List

/-- A row of a relation with the given column types. -/
abbrev TypedRow (types : List ColumnType) : Type :=
  { row : Row // row.cells.length = types.length ∧ FloatCanonical types row }

/-! ## Keys -/

/-- Signed integers in order, as natural numbers. -/
def intKey (cell : Cell) : Nat := (cell.toNat + 2 ^ 63) % 2 ^ 64

/-- The key by which cells of a column type are ordered. -/
def cellKey (type : ColumnType) (cell : Cell) : Nat :=
  if type = .float then (floatKey cell).toNat else intKey cell

def rowKeys (types : List ColumnType) (row : Row) : List Nat :=
  List.zipWith cellKey types row.cells

theorem intKey_lt_iff {a b : Cell} : intKey a < intKey b ↔ a.toInt < b.toInt := by
  have := a.isLt
  have := b.isLt
  simp only [intKey, BitVec.toInt_eq_toNat_cond]
  split_ifs <;> omega

theorem intKey_inj {a b : Cell} : intKey a = intKey b ↔ a = b := by
  have := a.isLt
  have := b.isLt
  constructor
  · intro same
    apply BitVec.eq_of_toNat_eq
    unfold intKey at same
    omega
  · exact congrArg intKey

/-- A cell that a column may hold. -/
def CellCanonical (type : ColumnType) (cell : Cell) : Prop :=
  type = .float → floatBitsValid cell = true ∧ (floatBitsZero cell = true → cell = 0)

/-- A number with one more bit. -/
theorem xor_two_pow_of_lt {n k : Nat} (small : n < 2 ^ k) : n ^^^ 2 ^ k = n + 2 ^ k := by
  apply Nat.eq_of_testBit_eq
  intro i
  rw [Nat.testBit_xor, Nat.add_comm]
  rcases lt_trichotomy i k with below | rfl | above
  · rw [Nat.testBit_two_pow_add_gt below, Nat.testBit_two_pow_of_ne below.ne', Bool.xor_false]
  · rw [Nat.testBit_two_pow_add_eq, Nat.testBit_two_pow_self, Bool.xor_true]
  have fits : 2 ^ k + n < 2 ^ i :=
    calc 2 ^ k + n < 2 ^ k + 2 ^ k := by omega
      _ = 2 ^ (k + 1) := by ring
      _ ≤ 2 ^ i := Nat.pow_le_pow_right (by omega) above
  rw [Nat.testBit_lt_two_pow fits, Nat.testBit_lt_two_pow (by omega),
    Nat.testBit_two_pow_of_ne above.ne, Bool.xor_false]

/-! ## Ranks

The rank of a cell among the cells of a column type: finite doubles by value, other cells as
signed integers. -/

/-- Doubles by value; both zeros have the rank of the positive one. -/
def floatRank (bits : Cell) : Nat :=
  if floatBitsZero bits then 2 ^ 63 else (floatKey bits).toNat

def cellRank (type : Option ColumnType) (cell : Cell) : Nat :=
  if type = some .float then floatRank cell else intKey cell

def cellsRank (types : List ColumnType) : List Cell → List Nat
  | [] => []
  | cell :: cells => cellRank types.head? cell :: cellsRank types.tail cells

/-- The `FLOAT` cells of a row are finite. -/
def FloatsValid (types : List ColumnType) (cells : List Cell) : Prop :=
  ∀ i : Nat, types[i]? = some ColumnType.float → ∀ cell, cells[i]? = some cell →
    floatBitsValid cell = true

theorem toNat_floatKey (bits : Cell) : (floatKey bits).toNat =
    if 2 ^ 63 ≤ bits.toNat then 2 ^ 64 - 1 - bits.toNat else bits.toNat + 2 ^ 63 := by
  have sign : bits.msb = decide (2 ^ 63 ≤ bits.toNat) := BitVec.msb_eq_decide bits
  rw [floatKey, sign]
  by_cases negative : 2 ^ 63 ≤ bits.toNat
  · simp only [negative, decide_true, if_true, BitVec.toNat_not]
  simp only [negative, decide_false, Bool.false_eq_true, if_false, BitVec.toNat_xor]
  exact xor_two_pow_of_lt (not_le.mp negative)

/-- The keys of the zeros are next to each other. -/
theorem floatBitsZero_iff (bits : Cell) : floatBitsZero bits = true ↔
    (floatKey bits).toNat = 2 ^ 63 ∨ (floatKey bits).toNat = 2 ^ 63 - 1 := by
  have bound := bits.isLt
  have mask : (0x7fffffffffffffff#64).toNat = 2 ^ 63 - 1 := rfl
  have magnitude : floatBitsZero bits = true ↔ bits.toNat % 2 ^ 63 = 0 := by
    rw [floatBitsZero, beq_iff_eq, ← BitVec.toNat_inj, BitVec.toNat_and, mask,
      Nat.and_two_pow_sub_one_eq_mod]
    rfl
  rw [magnitude, toNat_floatKey]
  split_ifs <;> omega

theorem floatCompareBits_rank {a b : Cell} (validA : floatBitsValid a = true)
    (validB : floatBitsValid b = true) :
    (floatCompareBits a b < 0 ↔ floatRank a < floatRank b) ∧
      (floatCompareBits a b = 0 ↔ floatRank a = floatRank b) := by
  simp only [floatCompareBits, floatRank, validA, validB, Bool.not_true, Bool.or_self,
    Bool.false_eq_true, if_false, Bool.and_eq_true, floatBitsZero_iff, gt_iff_lt, BitVec.lt_def]
  generalize (floatKey a).toNat = keyA
  generalize (floatKey b).toNat = keyB
  split_ifs <;> grind

theorem cellCmp_rank {type : Option ColumnType} {a b : Cell}
    (validA : type = some .float → floatBitsValid a = true)
    (validB : type = some .float → floatBitsValid b = true) :
    (cellCmp type a b < 0 ↔ cellRank type a < cellRank type b) ∧
      (cellCmp type a b = 0 ↔ cellRank type a = cellRank type b) := by
  by_cases float : type = some .float
  · simpa [cellCmp, cellRank, if_pos float] using
      floatCompareBits_rank (validA float) (validB float)
  have same : intKey a = intKey b ↔ a.toInt = b.toInt := intKey_inj.trans BitVec.toInt_inj.symm
  simp only [cellCmp, cellRank, if_neg float, intKey_lt_iff, same]
  split_ifs <;> grind

variable {type : ColumnType} {types : List ColumnType}

theorem FloatsValid.head {cell : Cell} {cells : List Cell}
    (valid : FloatsValid types (cell :: cells)) (float : types.head? = some .float) :
    floatBitsValid cell = true := by
  refine valid 0 ?_ cell rfl
  rwa [← List.head?_eq_getElem?]

theorem FloatsValid.tail {cell : Cell} {cells : List Cell}
    (valid : FloatsValid types (cell :: cells)) : FloatsValid types.tail cells := by
  intro i float other here
  refine valid (i + 1) ?_ other here
  rwa [List.getElem?_tail] at float

theorem cellsCmp_rank {as bs : List Cell} (width : as.length = bs.length)
    (validA : FloatsValid types as) (validB : FloatsValid types bs) :
    (cellsCmp types as bs < 0 ↔ cellsRank types as < cellsRank types bs) ∧
      (cellsCmp types as bs = 0 ↔ cellsRank types as = cellsRank types bs) := by
  induction as generalizing types bs with
  | nil =>
    obtain rfl := length_eq_zero_iff.mp width.symm
    simp [cellsCmp, cellsRank]
  | cons a as ih =>
    cases bs with
    | nil => cases width
    | cons b bs =>
      obtain ⟨below, equal⟩ := cellCmp_rank validA.head validB.head
      obtain ⟨restBelow, restEqual⟩ := ih (Nat.succ.inj width) validA.tail validB.tail
      simp only [cellsCmp, cellsRank, cons_lt_cons_iff, List.cons.injEq]
      by_cases same : cellCmp types.head? a b = 0
      · have ranks := equal.mp same
        simp [same, ranks, restBelow, restEqual]
      have ranks : cellRank types.head? a ≠ cellRank types.head? b :=
        fun ranks => same (equal.mpr ranks)
      simp [same, ranks, below]

/-! ## Canonical rows -/

theorem FloatCanonical.head {cell : Cell} {cells : List Cell}
    (canonical : FloatCanonical (type :: types) ⟨cell :: cells⟩) : CellCanonical type cell :=
  fun float => canonical 0 (congrArg some float) cell rfl

theorem FloatCanonical.tail {cell : Cell} {cells : List Cell}
    (canonical : FloatCanonical (type :: types) ⟨cell :: cells⟩) : FloatCanonical types ⟨cells⟩ :=
  fun i float other found => canonical (i + 1) float other found

/-- The rank of a canonical cell is its key. -/
theorem CellCanonical.rank {cell : Cell} (canonical : CellCanonical type cell) :
    cellRank (some type) cell = cellKey type cell := by
  unfold cellRank cellKey floatRank
  by_cases float : type = .float
  · rw [if_pos (congrArg some float), if_pos float]
    split_ifs with zero
    · rw [(canonical float).2 zero]
      rfl
    · rfl
  · rw [if_neg (fun same => float (Option.some.inj same)), if_neg float]

theorem cellsRank_eq_rowKeys {row : Row} (width : row.cells.length = types.length)
    (canonical : FloatCanonical types row) : cellsRank types row.cells = rowKeys types row := by
  induction types generalizing row with
  | nil =>
    obtain ⟨_ | _⟩ := row
    · rfl
    · cases width
  | cons type types ih =>
    obtain ⟨_ | ⟨x, xs⟩⟩ := row
    · cases width
    exact congrArg₂ List.cons canonical.head.rank (@ih ⟨xs⟩ (Nat.succ.inj width) canonical.tail)

theorem cellKey_injective (type : ColumnType) : Function.Injective (cellKey type) := by
  intro a b same
  unfold cellKey at same
  split_ifs at same
  · exact floatKey_injective (BitVec.eq_of_toNat_eq same)
  · exact intKey_inj.mp same

theorem rowKeys_inj {a b : Row} (widthA : a.cells.length = types.length)
    (widthB : b.cells.length = types.length) : rowKeys types a = rowKeys types b ↔ a = b := by
  refine ⟨fun same => Row.ext (ext_getElem (widthA.trans widthB.symm) fun i inA inB => ?_),
    congrArg _⟩
  have here := congrArg (·[i]?) same
  simp only [rowKeys, List.getElem?_zipWith, List.getElem?_eq_getElem inA,
    List.getElem?_eq_getElem inB, List.getElem?_eq_getElem (widthA ▸ inA)] at here
  exact cellKey_injective _ (Option.some.inj here)

/-- Rows of a relation compare as their keys do. -/
theorem rowCmp_spec {a b : Row} (widthA : a.cells.length = types.length)
    (widthB : b.cells.length = types.length) (canonicalA : FloatCanonical types a)
    (canonicalB : FloatCanonical types b) :
    (rowCmp types a b < 0 ↔ rowKeys types a < rowKeys types b) ∧
      (rowCmp types a b = 0 ↔ a = b) ∧ (rowKeys types a = rowKeys types b ↔ a = b) := by
  obtain ⟨below, equal⟩ := cellsCmp_rank (widthA.trans widthB.symm)
    (fun i float cell found => (canonicalA i float cell found).1)
    (fun i float cell found => (canonicalB i float cell found).1)
  rw [cellsRank_eq_rowKeys widthA canonicalA, cellsRank_eq_rowKeys widthB canonicalB] at below equal
  have keys := rowKeys_inj widthA widthB
  exact ⟨below, equal.trans keys, keys⟩

theorem cellsRank_inj {as bs : List Cell} (canonicalA : FloatCanonical types ⟨as⟩)
    (canonicalB : FloatCanonical types ⟨bs⟩) :
    cellsRank types as = cellsRank types bs ↔ as = bs := by
  refine ⟨fun same => ?_, congrArg _⟩
  induction as generalizing types bs with
  | nil =>
    cases bs with
    | nil => rfl
    | cons b bs => cases same
  | cons a as ih =>
    cases bs with
    | nil => cases same
    | cons b bs =>
      obtain ⟨first, rest⟩ := List.cons.inj same
      cases types with
      | nil =>
        have keys : intKey a = intKey b := by simpa only [cellRank, List.head?_nil, reduceCtorEq,
          if_false] using first
        rw [intKey_inj.mp keys, ih (floatCanonical_nil _) (floatCanonical_nil _) rest]
      | cons type types =>
        rw [List.head?_cons, canonicalA.head.rank, canonicalB.head.rank] at first
        rw [cellKey_injective type first, ih canonicalA.tail canonicalB.tail rest]

/-- Rows of one width compare as their ranks do, whether or not each column has a type. -/
theorem rowCmp_canonical {a b : Row} (width : a.cells.length = b.cells.length)
    (canonicalA : FloatCanonical types a) (canonicalB : FloatCanonical types b) :
    (rowCmp types a b ≤ 0 ↔ cellsRank types a.cells ≤ cellsRank types b.cells) ∧
      (rowCmp types a b ≠ 0 ↔ a ≠ b) := by
  obtain ⟨below, equal⟩ := cellsCmp_rank width
    (fun i float cell found => (canonicalA i float cell found).1)
    (fun i float cell found => (canonicalB i float cell found).1)
  have same : rowCmp types a b = 0 ↔ a = b :=
    equal.trans ((cellsRank_inj canonicalA canonicalB).trans Row.ext_iff.symm)
  exact ⟨le_iff_lt_or_eq.trans ((or_congr below equal).trans le_iff_lt_or_eq.symm), same.not⟩

section Order

variable {types : List ColumnType}

variable (a b : TypedRow types)

theorem TypedRow.cmp_neg_iff : rowCmp types a.1 b.1 < 0 ↔ rowKeys types a.1 < rowKeys types b.1 :=
  (rowCmp_spec a.2.1 b.2.1 a.2.2 b.2.2).1

theorem TypedRow.cmp_zero_iff : rowCmp types a.1 b.1 = 0 ↔ a = b :=
  (rowCmp_spec a.2.1 b.2.1 a.2.2 b.2.2).2.1.trans Subtype.ext_iff.symm

theorem TypedRow.keys_inj : rowKeys types a.1 = rowKeys types b.1 ↔ a = b :=
  (rowCmp_spec a.2.1 b.2.1 a.2.2 b.2.2).2.2.trans Subtype.ext_iff.symm

theorem TypedRow.cmp_le_iff : rowCmp types a.1 b.1 ≤ 0 ↔ rowKeys types a.1 ≤ rowKeys types b.1 := by
  rw [le_iff_lt_or_eq, le_iff_lt_or_eq, TypedRow.cmp_neg_iff, TypedRow.cmp_zero_iff,
    TypedRow.keys_inj]

/-- The typed order: a row comes before another when `col_rel_row_cmp` is negative. -/
instance : LinearOrder (TypedRow types) where
  le a b := rowCmp types a.1 b.1 ≤ 0
  lt a b := rowCmp types a.1 b.1 < 0
  le_refl a := (a.cmp_le_iff a).mpr le_rfl
  le_trans a b c first second := by
    rw [TypedRow.cmp_le_iff] at *
    exact first.trans second
  le_antisymm a b first second := by
    rw [TypedRow.cmp_le_iff] at *
    exact (TypedRow.keys_inj a b).mp (le_antisymm first second)
  le_total a b := by
    simp only [TypedRow.cmp_le_iff]
    exact le_total _ _
  lt_iff_le_not_ge a b := by
    simp only [TypedRow.cmp_neg_iff, TypedRow.cmp_le_iff]
    exact lt_iff_le_not_ge
  toDecidableLE a b := inferInstanceAs (Decidable (rowCmp types a.1 b.1 ≤ 0))
  toDecidableLT a b := inferInstanceAs (Decidable (rowCmp types a.1 b.1 < 0))
  toDecidableEq := inferInstance

theorem TypedRow.le_iff_keys {a b : TypedRow types} :
    a ≤ b ↔ rowKeys types a.1 ≤ rowKeys types b.1 := TypedRow.cmp_le_iff a b

/-- Equality is what the comparison calls equality. -/
example (a b : TypedRow types) : a = b ↔ rowCmp types a.1 b.1 = 0 := (a.cmp_zero_iff b).symm

end Order

/-! ## Radix sort -/

/-- The digit of a cell that a pass looks at; the pass over the highest digit flips the sign. -/
def radixDigit (bits passes pass : Nat) (cell : Cell) : Nat :=
  if pass = passes - 1 then (cell >>> (pass * bits)).toNat % 2 ^ bits ^^^ 2 ^ (bits - 1)
  else (cell >>> (pass * bits)).toNat % 2 ^ bits

/-- Flipping the highest bit of a number adds it, around the end. -/
theorem xor_two_pow {n k : Nat} (small : n < 2 ^ (k + 1)) :
    n ^^^ 2 ^ k = (n + 2 ^ k) % 2 ^ (k + 1) := by
  have double : 2 ^ (k + 1) = 2 ^ k + 2 ^ k := by ring
  by_cases low : n < 2 ^ k
  · rw [xor_two_pow_of_lt low, Nat.mod_eq_of_lt (by omega)]
  obtain ⟨m, rfl⟩ := Nat.exists_eq_add_of_le' (not_lt.mp low)
  have lowM : m < 2 ^ k := by omega
  rw [← xor_two_pow_of_lt lowM, Nat.xor_assoc, Nat.xor_self, Nat.xor_zero,
    xor_two_pow_of_lt lowM, show m + 2 ^ k + 2 ^ k = m + 2 ^ (k + 1) by omega,
    Nat.add_mod_right, Nat.mod_eq_of_lt (by omega)]

theorem radixDigit_eq {bits passes pass : Nat} (positive : 0 < bits) (fits : bits * passes = 64)
    (inside : pass < passes) (cell : Cell) :
    radixDigit bits passes pass cell = intKey cell / (2 ^ bits) ^ pass % 2 ^ bits := by
  have place : pass * bits + bits ≤ 64 := by
    calc pass * bits + bits = bits * (pass + 1) := by ring
      _ ≤ bits * passes := Nat.mul_le_mul_left _ inside
      _ = 64 := fits
  -- the key without the reduction modulo the word size
  have digit : intKey cell / (2 ^ bits) ^ pass % 2 ^ bits =
      (cell.toNat / 2 ^ (pass * bits) + 2 ^ (63 - pass * bits)) % 2 ^ bits := by
    have word : 2 ^ 64 = 2 ^ (pass * bits) * 2 ^ (64 - pass * bits) := by
      rw [← Nat.pow_add]
      congr 1
      omega
    have sign : 2 ^ 63 = 2 ^ (pass * bits) * 2 ^ (63 - pass * bits) := by
      rw [← Nat.pow_add]
      congr 1
      omega
    rw [intKey, ← Nat.pow_mul, Nat.mul_comm bits pass, word, Nat.mod_mul_right_div_self, sign,
      Nat.add_mul_div_left _ _ (Nat.two_pow_pos _),
      Nat.mod_mod_of_dvd _ (Nat.pow_dvd_pow 2 (by omega))]
  rw [digit, radixDigit, BitVec.toNat_ushiftRight, Nat.shiftRight_eq_div_pow]
  split_ifs with last
  · have top : 63 - pass * bits = bits - 1 := by
      have : pass * bits + bits = 64 := by
        calc pass * bits + bits = bits * (pass + 1) := by ring
          _ = bits * passes := by rw [last, Nat.sub_add_cancel (by omega)]
          _ = 64 := fits
      omega
    obtain ⟨low, rfl⟩ := Nat.exists_eq_add_one_of_ne_zero positive.ne'
    rw [top, Nat.add_sub_cancel, xor_two_pow (Nat.mod_lt _ (Nat.two_pow_pos _)), Nat.mod_add_mod]
  · -- below the highest digit the sign bit is not seen
    have lower : pass * bits + bits ≤ 63 := by
      have : bits * (pass + 2) ≤ bits * passes := Nat.mul_le_mul_left _ (by omega)
      have expand : bits * (pass + 2) = pass * bits + bits + bits := by ring
      omega
    obtain ⟨q, factor⟩ : 2 ^ bits ∣ 2 ^ (63 - pass * bits) := Nat.pow_dvd_pow 2 (by omega)
    rw [factor, Nat.add_mul_mod_self_left]

section Sorting

variable {types : List ColumnType}

def TypedRow.cell (row : TypedRow types) (c : Nat) : Cell := row.1.cells.getD c 0

/-- The passes over one column. -/
def radixColumn (bits c : Nat) (rows : List (TypedRow types)) : List (TypedRow types) :=
  (List.range (64 / bits)).foldl
    (fun rows pass =>
      radixPass (2 ^ bits) (fun row => radixDigit bits (64 / bits) pass (row.cell c)) rows) rows

/-- The passes over all columns, from the last one to the first. -/
def radixPasses (bits : Nat) (rows : List (TypedRow types)) : List (TypedRow types) :=
  (List.range types.length).foldr (radixColumn bits) rows

/-- `col_rel_radix_sort_raw` on a range of rows: `none` when there is no memory. -/
def radixSortRaw (outOfMemory : Bool) (rows : List (TypedRow types)) :
    Option (List (TypedRow types)) :=
  if rows.length ≤ 1 then some rows
  else if outOfMemory then none
  else if ColumnType.float ∈ types then some (insertionSortUp rows)
  else if rows.length ≤ 32 then some (insertionSortUp rows)
  else if 50000 ≤ rows.length then some (radixPasses 16 rows)
  else some (radixPasses 8 rows)

theorem radixColumn_eq {bits : Nat} (positive : 0 < bits) (fits : bits * (64 / bits) = 64)
    (c : Nat) (rows : List (TypedRow types)) :
    radixColumn bits c rows =
      radixDigits (2 ^ bits) (64 / bits) (fun row => intKey (row.cell c)) rows := by
  apply foldl_ext
  intro rows pass member
  congr 1
  funext row
  exact radixDigit_eq positive fits (mem_range.mp member) _

theorem radixPasses_eq {bits : Nat} (positive : 0 < bits) (fits : bits * (64 / bits) = 64)
    (rows : List (TypedRow types)) :
    radixPasses bits rows = radixKeys (2 ^ bits) (64 / bits)
      ((List.range types.length).map fun c (row : TypedRow types) => intKey (row.cell c))
      rows := by
  rw [radixPasses, radixKeys, foldr_map]
  congr 1
  funext c rows
  exact radixColumn_eq positive fits c rows

/-- The keys of a row without doubles are the integers in its columns. -/
theorem rowKeys_of_integers (integers : ColumnType.float ∉ types) (row : TypedRow types) :
    rowKeys types row.1 = (List.range types.length).map fun c => intKey (row.cell c) := by
  refine ext_getElem (by simp [rowKeys, row.2.1]) fun i inside inside' => ?_
  have bound : i < types.length := by simpa using inside'
  have typed : types[i] ≠ .float := fun float => integers (float ▸ getElem_mem bound)
  simp [rowKeys, cellKey, typed, TypedRow.cell, row.2.1, bound]

theorem radixPasses_spec {bits : Nat} (positive : 0 < bits) (fits : bits * (64 / bits) = 64)
    (integers : ColumnType.float ∉ types) (rows : List (TypedRow types)) :
    (radixPasses bits rows).Pairwise (· ≤ ·) ∧ (radixPasses bits rows).Perm rows := by
  rw [radixPasses_eq positive fits]
  have base : 0 < 2 ^ bits := Nat.two_pow_pos bits
  refine ⟨?_, radixKeys_perm base _ _ rows⟩
  have bounded : ∀ key ∈ (List.range types.length).map
      (fun c (row : TypedRow types) => intKey (row.cell c)), ∀ row ∈ rows,
      key row < (2 ^ bits) ^ (64 / bits) := by
    intro key member row _
    obtain ⟨c, -, rfl⟩ := mem_map.mp member
    rw [← Nat.pow_mul, fits]
    exact Nat.mod_lt _ (Nat.two_pow_pos 64)
  refine (radixKeys_pairwise base _ _ rows bounded).imp fun {a b} ordered => ?_
  rw [TypedRow.le_iff_keys, rowKeys_of_integers integers, rowKeys_of_integers integers]
  simpa [byKeys_iff, Function.comp_def] using ordered

/-- **The sort orders the rows by the typed order.** -/
theorem radixSortRaw_spec {outOfMemory : Bool} {rows sorted : List (TypedRow types)}
    (done : radixSortRaw outOfMemory rows = some sorted) :
    sorted.Pairwise (· ≤ ·) ∧ sorted.Perm rows := by
  unfold radixSortRaw at done
  split_ifs at done with few fails float small large
  · cases done
    refine ⟨?_, .refl _⟩
    obtain _ | ⟨row, _ | ⟨next, rest⟩⟩ := rows
    · exact .nil
    · exact pairwise_singleton _ _
    · simp at few
  · cases done
    exact ⟨insertionSortUp_sorted rows, insertionSortUp_perm rows⟩
  · cases done
    exact ⟨insertionSortUp_sorted rows, insertionSortUp_perm rows⟩
  · cases done
    exact radixPasses_spec (by decide) (by decide) float rows
  · cases done
    exact radixPasses_spec (by decide) (by decide) float rows

end Sorting

end Wirelog.Columnar

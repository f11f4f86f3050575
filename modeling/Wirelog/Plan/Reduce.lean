import Wirelog.Foundations.Grouping
import Wirelog.Columnar.Insertion
import Wirelog.Columnar.OrderUpdates
import Wirelog.Plan.ExprValue

/-!
# The reduce operator

`col_op_reduce` makes one row for each group of its input: the cells of the group columns and,
among them at the position it has in the head of the rule, the aggregate. It goes through the rows
in order. A table with open addressing holds the number of the output row of each group; the first
row of a group appends an output row, a further one changes the aggregate of the one that is there.

Integers and symbols are reduced in the output row itself. For floats the sum and the number of
the values stand beside it.

What a group does with its values is `aggStart` and `aggStep`. The loop keeps the groups of the
rows it has seen, or stops because a value was refused by its group (`reduceLoop_spec`), and so the
operator makes one row for each group or fails as a group does (`colOpReduce_spec`).
-/

set_option autoImplicit false

namespace Wirelog.Plan

open Wirelog.IR Wirelog.Columnar Wirelog.Foundations List

/-! ## The operator -/

/-- What the operator takes from outside: the values of expressions, the strings of the intern
table, and the arithmetic of doubles on their bits. -/
structure ReduceEnv where
  evaluate : PlanExpr → Row → Except ExprError Cell
  strings : Cell → Option (List UInt8)
  addDoubles : Cell → Cell → Cell
  divDoubles : Cell → Cell → Cell
  countDouble : Nat → Cell

/-- What a plan says about a reduction. -/
structure ReduceOp where
  fn : AggFn
  groupBy : List Nat
  expr : Option PlanExpr
  operand : ColType
  aggregateIndex : Option Nat

namespace ReduceOp

variable (op : ReduceOp)

/-- The column of the aggregate; without a position of its own it comes after the groups. -/
def index : Nat :=
  match op.aggregateIndex with
  | some i => if i < op.groupBy.length + 1 then i else op.groupBy.length
  | none => op.groupBy.length

variable (types : List ColumnType)

def columnTypes : List ColumnType :=
  (op.groupBy.map (typeOf types)).insertIdx op.index
    (if op.operand = .float then .float else .int64)

/-- The value that a row contributes. A count evaluates no expression. -/
def value (env : ReduceEnv) (op : ReduceOp) (ncols : Nat) (row : Row) : Except EvalError Cell :=
  match op.expr with
  | some expr =>
    if op.fn = .count then .ok (unevaluated op ncols row)
    else (env.evaluate expr row).mapError fun _ => .erange
  | none => .ok (unevaluated op ncols row)
where
  /-- Without an expression the column after as many as there are groups is taken. -/
  unevaluated (op : ReduceOp) (ncols : Nat) (row : Row) : Cell :=
    if op.groupBy.length < ncols then cellAt row op.groupBy.length else 1

/-- The cells of the group columns as they are copied; a column that does not exist is the first
one. -/
def groupCells (row : Row) : List Cell :=
  op.groupBy.map fun gi => cellAt row (if gi < types.length then gi else 0)

/-- The cells of the group columns as they are hashed and compared. -/
def groupKey (row : Row) : List Cell :=
  op.groupBy.map fun gi =>
    if gi < types.length then storedCell types[gi]? (cellAt row gi) else cellAt row 0

def outputRow (row : Row) (aggregate : Cell) : Row :=
  ⟨(op.groupCells types row).insertIdx op.index aggregate⟩

end ReduceOp

section Rows

variable {types : List ColumnType}

/-- `col_rel_append_row`, without its allocations. -/
def appendTyped (types : List ColumnType) (row : Row) : Except EvalError (TypedRow types) :=
  if accepted : row.cells.length = types.length ∧ rowFinite types row = true then
    .ok ⟨storedRow types row, (length_storedRow types row).trans accepted.1,
      floatCanonical_storedRow accepted.2⟩
  else .error .einval

theorem storedCell_canonical {type : Option ColumnType} {cell : Cell}
    (finite : cellFinite type cell = true) (float : type = some .float) :
    floatBitsValid (storedCell type cell) = true ∧
      (floatBitsZero (storedCell type cell) = true → storedCell type cell = 0) := by
  unfold storedCell
  split_ifs with zero
  · exact ⟨by decide, fun _ => rfl⟩
  refine ⟨by simpa [cellFinite, float] using finite, fun isZero => ?_⟩
  exact absurd ⟨float, isZero⟩ zero

/-- `col_rel_set`: a double that is not finite is not written. -/
def TypedRow.setCell (row : TypedRow types) (c : Nat) (value : Cell) : TypedRow types :=
  if finite : cellFinite types[c]? value = true then
    ⟨⟨row.1.cells.set c (storedCell types[c]? value)⟩, by simpa using row.2.1, by
      intro i float cell found
      by_cases same : c = i
      · subst same
        obtain ⟨bound, rfl⟩ := List.getElem?_eq_some_iff.mp found
        rw [getElem_set_self]
        exact storedCell_canonical finite float
      · rw [List.getElem?_set_ne same] at found
        exact row.2.2 i float cell found⟩
  else row

end Rows

/-! ## Groups -/

/-- The output row of a group, and for floats the sum and the number of its values. -/
structure ReduceGroup (types : List ColumnType) where
  row : TypedRow types
  sum : Cell
  count : Nat

/-- The numbers of the output rows by slot, and the groups. The hash in a slot is that of the key
of its row. -/
structure ReduceTable (types : List ColumnType) where
  slots : Nat → Option Nat
  kept : List (ReduceGroup types)

/-- What `col_agg_better` reads of the operator. -/
def ReduceOp.order (op : ReduceOp) : AggSpec :=
  ⟨decide (op.fn = .max), op.groupBy.length, op.index, decide (op.operand = .string)⟩

variable (env : ReduceEnv) (op : ReduceOp)

/-- A further value of a group of integers or symbols. -/
def scalarStep (cur value : Cell) : Except EvalError Cell :=
  match op.fn with
  | .count => .ok (cur + 1)
  | .sum =>
    match checkedAddInt64 cur.toInt value.toInt with
    | some next => .ok (BitVec.ofInt 64 next)
    | none => .error .erange
  | .min | .max => .ok (if aggBetter op.order env.strings value cur then value else cur)
  | .avg => .ok cur

/-- A further value of a group of floats: the new aggregate, sum and number of values. -/
def floatStep (fn : AggFn) (cur sum : Cell) (count : Nat) (value : Cell) :
    Except EvalError (Cell × Cell × Nat) :=
  match fn with
  | .count => .ok (cur + 1, sum, count)
  | .sum =>
    let next := env.addDoubles sum value
    if floatBitsValid next then .ok (next, next, count) else .error .erange
  | .min => .ok (if floatCompareBits value cur < 0 then value else cur, sum, count)
  | .max => .ok (if 0 < floatCompareBits value cur then value else cur, sum, count)
  | .avg =>
    let next := env.addDoubles sum value
    if floatBitsValid next then
      .ok (env.divDoubles next (env.countDouble (count + 1)), next, count + 1)
    else .error .erange

def updateGroup {types : List ColumnType} (group : ReduceGroup types) (value : Cell) :
    Except EvalError (ReduceGroup types) :=
  let cur := group.row.cell op.index
  if op.operand = .float then
    (floatStep env op.fn cur group.sum group.count value).map fun (next, sum, count) =>
      ⟨TypedRow.setCell group.row op.index next, sum, count⟩
  else
    (scalarStep env op cur value).map fun next =>
      { group with row := TypedRow.setCell group.row op.index next }

/-- The aggregate of the first value of a group. With a float operand a count, too, starts with
the value. -/
def firstAggregate (value : Cell) : Cell :=
  if op.operand = .float then value else if op.fn = .count then 1 else value

variable (types : List ColumnType)

def newGroup (row : Row) (value : Cell) : Except EvalError (ReduceGroup (op.columnTypes types)) :=
  (appendTyped (op.columnTypes types) (op.outputRow types row (firstAggregate op value))).map
    fun first => if op.operand = .float then ⟨first, value, 1⟩ else ⟨first, 0, 0⟩

def ReduceOp.keyOf {types : List ColumnType} (group : ReduceGroup types) : List Cell :=
  group.row.1.cells.eraseIdx op.index

/-- Looks up the group of a row, and takes its value in. -/
def takeValue (capacity : Nat) (g : ReduceTable (op.columnTypes types)) (row : Row) (value : Cell) :
    Except EvalError (ReduceTable (op.columnTypes types)) :=
  match lookupSlot capacity ((groupHash (op.groupKey types row)).toNat % capacity) g.slots
      (fun k => g.kept[k]?.any (op.keyOf · == op.groupKey types row)) with
  | some (_, some k) =>
    match g.kept[k]? with
    | some group =>
      (updateGroup env op group value).map fun next => { g with kept := g.kept.set k next }
    | none => .ok g
  | some (p, none) =>
    (newGroup op types row value).map fun group =>
      ⟨Function.update g.slots p (some g.kept.length), g.kept ++ [group]⟩
  | none => .ok g

/-- One round of the loop of `col_op_reduce`. -/
def reduceRow (capacity : Nat) (g : ReduceTable (op.columnTypes types)) (row : Row) :
    Except EvalError (ReduceTable (op.columnTypes types)) :=
  (op.value env types.length row).bind fun value =>
    if op.operand = .float ∧ floatBitsValid value = false then .error .einval
    else takeValue env op types capacity g row value

/-- The number of slots for so many rows; it is at most `2 ^ 31`. -/
def reduceCapacity (nrows : Nat) : Nat := doubleUntil (max nrows 1 * 2) 31 1

/-- The rows of `col_op_reduce`. -/
def reduceRows (capacity : Nat) (rows : List Row) :
    Except EvalError (ReduceTable (op.columnTypes types)) :=
  rows.foldlM (reduceRow env op types capacity) ⟨fun _ => none, []⟩

def ReduceTable.output {types : List ColumnType} (g : ReduceTable types) : Table where
  types := types
  rows := g.kept.map (·.row.1)
  width := by
    intro row member
    obtain ⟨group, -, rfl⟩ := mem_map.mp member
    exact group.row.2.1
  canonical := by
    intro row member
    obtain ⟨group, -, rfl⟩ := mem_map.mp member
    exact group.row.2.2

/-- `col_op_reduce`, without its allocations. -/
def colOpReduce (table : Table) : Except EvalError Table :=
  let capacity := reduceCapacity table.rows.length
  if capacity < max table.rows.length 1 * 2 then .error .enomem
  else (reduceRows env op table.types capacity table.rows).map ReduceTable.output

theorem colOpReduce_rows_nil {env : ReduceEnv} {op : ReduceOp} {table result : Table}
    (ran : colOpReduce env op table = .ok result) (empty : table.rows = []) :
    result.rows = [] := by
  rw [colOpReduce, empty] at ran
  cases ran
  rfl

/-! ## What a group keeps -/

/-- The aggregate of a group and, for floats, the sum and the number of its values. -/
structure AggState where
  cell : Cell
  sum : Cell
  count : Nat

def ReduceOp.aggregateType : ColumnType :=
  if op.operand = .float then .float else .int64

/-- The aggregate after a write. -/
def ReduceOp.settle (cur next : Cell) : Cell :=
  if cellFinite (some op.aggregateType) next then storedCell (some op.aggregateType) next else cur

def aggStart (value : Cell) : AggState :=
  if op.operand = .float then
    ⟨storedCell (some op.aggregateType) (firstAggregate op value), value, 1⟩
  else ⟨storedCell (some op.aggregateType) (firstAggregate op value), 0, 0⟩

/-- The state of a group after a further value. -/
def aggStep (state : AggState) (value : Cell) : Except EvalError AggState :=
  if op.operand = .float then
    (floatStep env op.fn state.cell state.sum state.count value).map fun (next, sum, count) =>
      ⟨op.settle state.cell next, sum, count⟩
  else
    (scalarStep env op state.cell value).map fun next =>
      { state with cell := op.settle state.cell next }

section Groups

variable {env : ReduceEnv} {op : ReduceOp} {types : List ColumnType} {capacity : Nat}

theorem ReduceOp.index_le (op : ReduceOp) : op.index ≤ op.groupBy.length := by
  unfold ReduceOp.index
  split
  · split_ifs <;> omega
  · exact le_rfl

theorem ReduceOp.length_columnTypes (op : ReduceOp) (types : List ColumnType) :
    (op.columnTypes types).length = op.groupBy.length + 1 := by
  rw [ReduceOp.columnTypes, length_insertIdx_of_le_length (by simpa using op.index_le), length_map]

theorem ReduceOp.columnTypes_index (op : ReduceOp) (types : List ColumnType) :
    (op.columnTypes types)[op.index]? = some op.aggregateType := by
  have inside : op.index ≤ (op.groupBy.map (typeOf types)).length := by simpa using op.index_le
  rw [ReduceOp.columnTypes, List.getElem?_insertIdx_self, if_pos inside]
  rfl

def ReduceOp.entry (op : ReduceOp) (group : ReduceGroup (op.columnTypes types)) :
    List Cell × AggState :=
  (op.keyOf group, ⟨group.row.cell op.index, group.sum, group.count⟩)

variable (group : ReduceGroup (op.columnTypes types))

/-- Writing the aggregate leaves the key as it is. -/
theorem ReduceOp.entry_setCell (next sum : Cell) (count : Nat) :
    op.entry ⟨TypedRow.setCell group.row op.index next, sum, count⟩ =
      (op.keyOf group, ⟨op.settle (group.row.cell op.index) next, sum, count⟩) := by
  have type := op.columnTypes_index types
  have inside : op.index < group.row.1.cells.length := by
    rw [group.row.2.1, op.length_columnTypes]
    exact Nat.lt_succ_of_le op.index_le
  by_cases finite : cellFinite (op.columnTypes types)[op.index]? next = true
  · have cells : (TypedRow.setCell group.row op.index next).1.cells =
        group.row.1.cells.set op.index (storedCell (some op.aggregateType) next) := by
      rw [TypedRow.setCell, dif_pos finite, ← type]
    rw [type] at finite
    simp [ReduceOp.entry, ReduceOp.keyOf, TypedRow.cell, cells, eraseIdx_set_eq,
      List.getElem?_set_self inside, ReduceOp.settle, if_pos finite]
  · rw [TypedRow.setCell, dif_neg finite]
    rw [type] at finite
    rw [ReduceOp.settle, if_neg finite]
    rfl

variable {row : Row}

/-- What is copied from a row is what is compared. -/
theorem ReduceOp.groupCells_eq (width : row.cells.length = types.length)
    (canonical : FloatCanonical types row) : op.groupCells types row = op.groupKey types row := by
  refine map_congr_left ?_
  intro gi _
  split_ifs with inside
  · unfold storedCell
    split_ifs with zero
    · have here : row.cells[gi]? = some (cellAt row gi) := by
        rw [cellAt, getD_eq_getElem _ _ (width ▸ inside), List.getElem?_eq_getElem (width ▸ inside)]
      exact (canonical gi zero.1 _ here).2 zero.2
    · rfl
  · rfl

/-- The cells of the groups are canonical in the types of the output. -/
theorem ReduceOp.floatCanonical_groupCells (width : row.cells.length = types.length)
    (canonical : FloatCanonical types row) :
    FloatCanonical (op.groupBy.map (typeOf types)) ⟨op.groupCells types row⟩ := by
  intro i float cell found
  simp only [List.getElem?_map, Option.map_eq_some_iff] at float
  simp only [ReduceOp.groupCells, List.getElem?_map, Option.map_eq_some_iff] at found
  obtain ⟨gi, here, isFloat⟩ := float
  obtain ⟨gi', here', rfl⟩ := found
  obtain rfl : gi = gi' := Option.some.inj (here.symm.trans here')
  have inside : gi < types.length := by
    by_contra outside
    rw [typeOf, getD_eq_default _ _ (not_lt.mp outside)] at isFloat
    cases isFloat
  rw [if_pos inside]
  refine canonical gi ?_ _ ?_
  · rw [typeOf, getD_eq_getElem _ _ inside] at isFloat
    rw [List.getElem?_eq_getElem inside, isFloat]
  · rw [cellAt, getD_eq_getElem _ _ (width ▸ inside), List.getElem?_eq_getElem (width ▸ inside)]

/-- A cell put into a row at one of its positions. -/
theorem getElem?_insertIdx_cases {α : Type} {xs : List α} {i j : Nat} {x y : α}
    (inside : i ≤ xs.length) (found : (xs.insertIdx i x)[j]? = some y) :
    (j = i ∧ y = x) ∨ (j ≠ i ∧ ∃ k : Nat, xs[k]? = some y ∧
      ∀ {β : Type} (ys : List β) (z : β), (ys.insertIdx i z)[j]? = ys[k]?) := by
  by_cases same : j = i
  · subst same
    rw [List.getElem?_insertIdx_self, if_pos inside] at found
    exact .inl ⟨rfl, (Option.some.inj found).symm⟩
  refine .inr ⟨same, if j < i then j else j - 1, ?_, ?_⟩
  · rw [List.getElem?_insertIdx, if_neg same] at found
    split_ifs at found ⊢ <;> exact found
  · intro β ys z
    rw [List.getElem?_insertIdx, if_neg same]
    split_ifs <;> rfl

theorem storedCell_eq_self {type : Option ColumnType} {cell : Cell}
    (canonical : type = some .float → floatBitsZero cell = true → cell = 0) :
    storedCell type cell = cell := by
  unfold storedCell
  split_ifs with zero
  · exact (canonical zero.1 zero.2).symm
  · rfl

theorem storedCell_int64 (cell : Cell) : storedCell (some .int64) cell = cell :=
  storedCell_eq_self fun float => by cases float

/-- An output row is stored with its aggregate in canonical form. -/
theorem storedRow_outputRow (width : row.cells.length = types.length)
    (canonical : FloatCanonical types row) (aggregate : Cell) :
    storedRow (op.columnTypes types) (op.outputRow types row aggregate) =
      op.outputRow types row (storedCell (some op.aggregateType) aggregate) := by
  have keys := op.floatCanonical_groupCells width canonical
  have inside : op.index ≤ (op.groupCells types row).length := by
    simpa [ReduceOp.groupCells] using op.index_le
  apply Row.ext
  refine ext_getElem? fun j => ?_
  simp only [storedRow, ReduceOp.outputRow, List.getElem?_mapIdx]
  cases found : ((op.groupCells types row).insertIdx op.index aggregate)[j]? with
  | none =>
    rw [List.getElem?_eq_none_iff, length_insertIdx_of_le_length inside] at found
    rw [Option.map_none]
    exact (List.getElem?_eq_none (by rwa [length_insertIdx_of_le_length inside])).symm
  | some cell =>
    rw [Option.map_some]
    rcases getElem?_insertIdx_cases inside found with ⟨rfl, rfl⟩ | ⟨-, k, here, moves⟩
    · rw [op.columnTypes_index, List.getElem?_insertIdx_self, if_pos inside]
    rw [moves, here, ReduceOp.columnTypes, moves]
    exact congrArg some (storedCell_eq_self fun float zero => (keys k float cell here).2 zero)

theorem rowFinite_outputRow (width : row.cells.length = types.length)
    (canonical : FloatCanonical types row) {aggregate : Cell}
    (finite : cellFinite (some op.aggregateType) aggregate = true) :
    rowFinite (op.columnTypes types) (op.outputRow types row aggregate) = true := by
  have keys := op.floatCanonical_groupCells width canonical
  have inside : op.index ≤ (op.groupCells types row).length := by
    simpa [ReduceOp.groupCells] using op.index_le
  refine all_eq_true.mpr ?_
  rintro ⟨cell, j⟩ member
  have found : ((op.groupCells types row).insertIdx op.index aggregate)[j]? = some cell :=
    mem_zipIdx_iff_getElem?.mp member
  change cellFinite (op.columnTypes types)[j]? cell = true
  rcases getElem?_insertIdx_cases inside found with ⟨rfl, rfl⟩ | ⟨-, k, here, moves⟩
  · rw [op.columnTypes_index]
    exact finite
  rw [ReduceOp.columnTypes, moves]
  by_cases float : (op.groupBy.map (typeOf types))[k]? = some .float
  · simp [cellFinite, (keys k float cell here).1]
  · simp only [cellFinite, ne_eq, float, not_false_eq_true, decide_true, Bool.true_or]

/-- A value that a group may start with: for floats, a finite one. -/
def ReduceOp.Valid (op : ReduceOp) (value : Cell) : Prop :=
  op.operand = .float → floatBitsValid value = true

theorem ReduceOp.Valid.finite {value : Cell} (valid : op.Valid value) :
    cellFinite (some op.aggregateType) (firstAggregate op value) = true := by
  unfold ReduceOp.aggregateType firstAggregate
  split_ifs with float
  · simp [cellFinite, valid float]
  · rfl
  · rfl

/-- **The first row of a group is appended, with its first state.** -/
theorem newGroup_spec (width : row.cells.length = types.length)
    (canonical : FloatCanonical types row) {value : Cell} (valid : op.Valid value) :
    ∃ group, newGroup op types row value = .ok group ∧
      op.entry group = (op.groupKey types row, aggStart op value) := by
  have inside : op.index ≤ (op.groupCells types row).length := by
    simpa [ReduceOp.groupCells] using op.index_le
  have length : (op.outputRow types row (firstAggregate op value)).cells.length =
      (op.columnTypes types).length := by
    rw [ReduceOp.outputRow, length_insertIdx_of_le_length inside, op.length_columnTypes]
    simp [ReduceOp.groupCells]
  have accepted := And.intro length (rowFinite_outputRow width canonical valid.finite)
  rw [newGroup, appendTyped, dif_pos accepted]
  refine ⟨_, rfl, ?_⟩
  have stored := @storedRow_outputRow op types row width canonical (firstAggregate op value)
  have key : (storedRow (op.columnTypes types)
      (op.outputRow types row (firstAggregate op value))).cells.eraseIdx op.index =
        op.groupKey types row := by
    rw [stored, ReduceOp.outputRow, eraseIdx_insertIdx_self, op.groupCells_eq width canonical]
  have aggregate : (storedRow (op.columnTypes types)
      (op.outputRow types row (firstAggregate op value))).cells.getD op.index 0 =
        storedCell (some op.aggregateType) (firstAggregate op value) := by
    rw [stored, ReduceOp.outputRow, getD_eq_getElem?_getD, List.getElem?_insertIdx_self,
      if_pos inside]
    rfl
  unfold aggStart
  beta_reduce
  by_cases float : op.operand = .float
  · rw [if_pos float, if_pos float]
    exact Prod.ext key (congrArg (AggState.mk · value 1) aggregate)
  · rw [if_neg float, if_neg float]
    exact Prod.ext key (congrArg (AggState.mk · 0 0) aggregate)

/-- **A further row of a group changes its state.** -/
theorem updateGroup_spec (value : Cell) :
    (∃ next, aggStep env op (op.entry group).2 value = .ok next ∧
        ∃ group', updateGroup env op group value = .ok group' ∧
          op.entry group' = ((op.entry group).1, next)) ∨
      ∃ e, aggStep env op (op.entry group).2 value = .error e ∧
        updateGroup env op group value = .error e := by
  unfold updateGroup aggStep
  by_cases float : op.operand = .float
  · rw [if_pos float, if_pos float]
    change (∃ next, (floatStep env op.fn (group.row.cell op.index) group.sum group.count value).map
        _ = .ok next ∧ _) ∨ ∃ e, (floatStep env op.fn (group.row.cell op.index) group.sum
          group.count value).map _ = .error e ∧ _
    cases floatStep env op.fn (group.row.cell op.index) group.sum group.count value with
    | ok next => exact .inl ⟨_, rfl, _, rfl, op.entry_setCell group next.1 next.2.1 next.2.2⟩
    | error e => exact .inr ⟨e, rfl, rfl⟩
  · rw [if_neg float, if_neg float]
    change (∃ next, (scalarStep env op (group.row.cell op.index) value).map _ = .ok next ∧ _) ∨
      ∃ e, (scalarStep env op (group.row.cell op.index) value).map _ = .error e ∧ _
    cases scalarStep env op (group.row.cell op.index) value with
    | ok next => exact .inl ⟨_, rfl, _, rfl, op.entry_setCell group next group.sum group.count⟩
    | error e => exact .inr ⟨e, rfl, rfl⟩

/-! ## The table of groups -/

/-- The table holds the numbers of the keys of the groups. -/
def ReduceTable.Valid (op : ReduceOp) (capacity : Nat)
    (g : ReduceTable (op.columnTypes types)) : Prop :=
  Numbered (fun key => (groupHash key).toNat) capacity g.slots (g.kept.map op.keyOf)

/-- The keys and aggregates of the groups. -/
def ReduceTable.entries (op : ReduceOp) (g : ReduceTable (op.columnTypes types)) :
    List (List Cell × AggState) := g.kept.map op.entry

theorem ReduceTable.keys_entries (g : ReduceTable (op.columnTypes types)) :
    (g.entries op).map Prod.fst = g.kept.map op.keyOf := by
  rw [ReduceTable.entries, map_map]
  rfl

/-- A row has a value that its group takes. -/
structure ReduceOp.Takes (env : ReduceEnv) (op : ReduceOp) (types : List ColumnType) (row : Row)
    (value : Cell) : Prop where
  width : row.cells.length = types.length
  canonical : FloatCanonical types row
  valued : op.value env types.length row = .ok value
  finite : op.Valid value

/-- **One round takes the value of a row into its group, or stops because it is refused.** -/
theorem reduceRow_spec {g : ReduceTable (op.columnTypes types)} (valid : g.Valid op capacity)
    (room : g.kept.length < capacity) {items : List (List Cell × Cell)}
    (grouped : Grouped (aggStart op) (aggStep env op) items (g.entries op)) {value : Cell}
    (takes : op.Takes env types row value) :
    (∃ g', reduceRow env op types capacity g row = .ok g' ∧ g'.Valid op capacity ∧
        g'.kept.length ≤ g.kept.length + 1 ∧
        Grouped (aggStart op) (aggStep env op)
          (items ++ [(op.groupKey types row, value)]) (g'.entries op)) ∨
      ∃ e, reduceRow env op types capacity g row = .error e ∧
        groupState (aggStart op) (aggStep env op)
          (valuesOf (items ++ [(op.groupKey types row, value)]) (op.groupKey types row)) =
            .error e := by
  have passes : ¬ (op.operand = .float ∧ floatBitsValid value = false) := by
    rintro ⟨float, infinite⟩
    simp [takes.finite float] at infinite
  have tests : ∀ j < (g.kept.map op.keyOf).length,
      g.kept[j]?.any (op.keyOf · == op.groupKey types row) = true ↔
        (g.kept.map op.keyOf)[j]? = some (op.groupKey types row) := by
    intro j inside
    rw [length_map] at inside
    simp [List.getElem?_eq_getElem inside]
  have round : reduceRow env op types capacity g row =
      takeValue env op types capacity g row value := by
    rw [reduceRow, takes.valued]
    exact if_neg passes
  rw [round, takeValue]
  by_cases present : op.groupKey types row ∈ g.kept.map op.keyOf
  · obtain ⟨k, here⟩ := List.getElem?_of_mem present
    obtain ⟨group, at_k, same⟩ := Option.map_eq_some_iff.mp (List.getElem?_map ▸ here)
    obtain ⟨p, found⟩ := valid.lookupSlot_found (Nat.zero_lt_of_lt room) here tests
    have entry : (g.entries op)[k]? = some (op.groupKey types row, (op.entry group).2) := by
      rw [ReduceTable.entries, List.getElem?_map, at_k, Option.map_some, ← same]
      rfl
    simp only [found, at_k]
    rcases updateGroup_spec group value with
      ⟨next, stepped, group', updated, changed⟩ | ⟨e, refused, failed⟩
    · refine .inl ⟨_, by rw [updated]; rfl, ?_, ?_, ?_⟩
      · have keys : (g.kept.set k group').map op.keyOf = g.kept.map op.keyOf := by
          have sameKey : op.keyOf group' = op.keyOf group := congrArg Prod.fst changed
          obtain ⟨bound, key⟩ := List.getElem?_eq_some_iff.mp here
          rw [map_set, sameKey, same, ← key]
          exact set_getElem_self bound
        change Numbered _ capacity g.slots ((g.kept.set k group').map op.keyOf)
        rw [keys]
        exact valid
      · exact (length_set).le.trans (Nat.le_succ _)
      · have entries : (g.kept.set k group').map op.entry =
            (g.entries op).set k (op.groupKey types row, next) := by
          rw [map_set, changed, ← same]
          rfl
        change Grouped _ _ _ ((g.kept.set k group').map op.entry)
        rw [entries]
        exact grouped.next entry stepped
    · exact .inr ⟨e, by rw [failed]; rfl, grouped.refused (mem_of_getElem? entry) refused⟩
  · obtain ⟨p, found, stored⟩ := valid.lookupSlot_fresh (by simpa using room) present tests
    obtain ⟨group, made, entry⟩ := newGroup_spec takes.width takes.canonical takes.finite
    simp only [found, made]
    have sameKey : op.keyOf group = op.groupKey types row := congrArg Prod.fst entry
    refine .inl ⟨_, rfl, ?_, by simp, ?_⟩
    · change Numbered _ capacity _ ((g.kept ++ [group]).map op.keyOf)
      rw [map_append, map_singleton, sameKey]
      simpa using stored
    · change Grouped _ _ _ ((g.kept ++ [group]).map op.entry)
      rw [map_append, map_singleton, entry]
      exact grouped.first (g.keys_entries ▸ present) value

/-- What the rows contribute: the key and the value of each. -/
def ReduceOp.items (op : ReduceOp) (types : List ColumnType) (values : Row → Cell)
    (rows : List Row) : List (List Cell × Cell) :=
  rows.map fun row => (op.groupKey types row, values row)

/-- **The loop keeps the groups of the rows, or a group refuses one of its values.** -/
theorem reduceLoop_spec {values : Row → Cell} {rows : List Row}
    (takes : ∀ row ∈ rows, op.Takes env types row (values row))
    {g : ReduceTable (op.columnTypes types)} (valid : g.Valid op capacity)
    (room : g.kept.length + rows.length ≤ capacity) {items : List (List Cell × Cell)}
    (grouped : Grouped (aggStart op) (aggStep env op) items (g.entries op)) :
    (∃ g', rows.foldlM (reduceRow env op types capacity) g = .ok g' ∧
        Grouped (aggStart op) (aggStep env op) (items ++ op.items types values rows)
          (g'.entries op)) ∨
      ∃ e key, rows.foldlM (reduceRow env op types capacity) g = .error e ∧
        groupState (aggStart op) (aggStep env op)
          (valuesOf (items ++ op.items types values rows) key) = .error e := by
  induction rows generalizing g items with
  | nil => exact .inl ⟨g, rfl, by simpa [ReduceOp.items] using grouped⟩
  | cons row rows ih =>
    rw [length_cons] at room
    have split : items ++ op.items types values (row :: rows) =
        items ++ [(op.groupKey types row, values row)] ++ op.items types values rows := by
      simp [ReduceOp.items]
    obtain ⟨here, later⟩ := forall_mem_cons.mp takes
    rw [foldlM_cons, split]
    rcases reduceRow_spec valid (by omega) grouped here with
      ⟨g', done, valid', few, grouped'⟩ | ⟨e, failed, refused⟩
    · rw [done]
      exact ih later valid' (by omega) grouped'
    refine .inr ⟨e, op.groupKey types row, by rw [failed]; rfl, ?_⟩
    rw [valuesOf_append]
    exact groupState_append_of_error refused _

/-- The table is large enough for at most `2 ^ 30` rows. -/
theorem reduceCapacity_lt_iff {nrows : Nat} :
    reduceCapacity nrows < max nrows 1 * 2 ↔ 2 ^ 30 < nrows := by
  have large : max nrows 1 * 2 ≤ doubleUntil (max nrows 1 * 2) 31 1 ↔
      max nrows 1 * 2 ≤ 1 * 2 ^ 31 := le_doubleUntil_iff
  rw [reduceCapacity, ← not_le, large]
  omega

/-- **The operator makes one row for each group, or fails as a group does.** -/
theorem colOpReduce_spec {table : Table} {values : Row → Cell}
    (valued : ∀ row ∈ table.rows, op.value env table.types.length row = .ok (values row))
    (finite : ∀ row ∈ table.rows, op.Valid (values row))
    (few : table.rows.length ≤ 2 ^ 30) :
    (∃ g : ReduceTable (op.columnTypes table.types), colOpReduce env op table = .ok g.output ∧
        Grouped (aggStart op) (aggStep env op)
          (op.items table.types values table.rows) (g.entries op)) ∨
      ∃ e key, colOpReduce env op table = .error e ∧
        groupState (aggStart op) (aggStep env op)
          (valuesOf (op.items table.types values table.rows) key) = .error e := by
  have large : ¬ reduceCapacity table.rows.length < max table.rows.length 1 * 2 := by
    rw [reduceCapacity_lt_iff]
    omega
  rw [colOpReduce, if_neg large]
  have start : (⟨fun _ => none, []⟩ : ReduceTable (op.columnTypes table.types)).Valid op
      (reduceCapacity table.rows.length) := .empty
  have none : Grouped (aggStart op) (aggStep env op) []
      ((⟨fun _ => none, []⟩ : ReduceTable (op.columnTypes table.types)).entries op) := .nil
  have takes : ∀ row ∈ table.rows, op.Takes env table.types row (values row) :=
    fun row member => ⟨table.width row member, table.canonical row member, valued row member,
      finite row member⟩
  have loop := reduceLoop_spec takes start (by simp only [length_nil]; omega) none
  rw [nil_append] at loop
  rcases loop with ⟨g, done, grouped⟩ | ⟨e, key, failed, refused⟩
  · exact .inl ⟨g, by rw [reduceRows, done]; rfl, grouped⟩
  · exact .inr ⟨e, key, by rw [reduceRows, failed]; rfl, refused⟩

end Groups

end Wirelog.Plan

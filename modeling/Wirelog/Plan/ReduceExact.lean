import Wirelog.Plan.Reduce

/-!
# Reductions are exact up to running overflow

Over integers and symbols a reduction should give one row for each combination of cells in the
group columns, with the exact aggregate of the values of its rows, and a sum should fail when the
exact sum of a group does not fit in 64 bits (`ExactOutcome`). Then nothing depends on the order of
the rows.

Counts, minima and maxima are exact. A sum is added up in the order of the rows, and the operator
gives up as soon as a running sum does not fit, even if later values would bring it back. So the
outcome is exact exactly when some exact sum does not fit anyway or all running sums do
(`colOpReduce_exact_iff`); the hash table, moreover, has room for `2 ^ 30` rows. Three values
whose sum fits are refused in one order and added up in another (`running_sum_refused`).
-/

set_option autoImplicit false

namespace Wirelog.Plan

open Wirelog.IR Wirelog.Columnar Wirelog.Foundations List

/-! ## Exact aggregates -/

def exactSum (cells : List Cell) : Int := (cells.map BitVec.toInt).sum

variable (env : ReduceEnv)

/-- The string of a symbol, as the numbers of its bytes. -/
def symbolText (cell : Cell) : List Nat :=
  ((env.strings cell).getD []).map UInt8.toNat

variable (op : ReduceOp)

/-- The order of the values: that of the strings for symbols, and of the integers otherwise. -/
def ReduceOp.AtMost (a b : Cell) : Prop :=
  if op.operand = .string then symbolText env a ≤ symbolText env b else a.toInt ≤ b.toInt

/-- A value is at least as good as another one for a minimum or maximum. -/
def ReduceOp.Prefers (a b : Cell) : Prop :=
  if op.fn = .max then op.AtMost env b a else op.AtMost env a b

/-- The mathematical aggregate of the values of a group. -/
def ReduceOp.IsAggregate (cells : List Cell) (result : Cell) : Prop :=
  match op.fn with
  | .count => result.toInt = cells.length
  | .sum => result.toInt = exactSum cells
  | .min | .max => result ∈ cells ∧ ∀ cell ∈ cells, op.Prefers env result cell
  | .avg => False

def ReduceOp.key (row : Row) : List Cell := op.groupBy.map (cellAt row)

def ReduceOp.outputKey (row : Row) : List Cell := row.cells.eraseIdx op.index

variable (values : Row → Cell)

def ReduceOp.groupValues (rows : List Row) (key : List Cell) : List Cell :=
  valuesOf (rows.map fun row => (op.key row, values row)) key

/-- A reduction over integers or symbols: the group columns exist, every row has a value, and
symbols are ids of different strings. -/
structure ReduceOp.Accepts (env : ReduceEnv) (op : ReduceOp) (values : Row → Cell)
    (table : Table) : Prop where
  columns : ∀ gi ∈ op.groupBy, gi < table.types.length
  notAverage : op.fn ≠ .avg
  scalar : op.operand ≠ .float
  valued : ∀ row ∈ table.rows, op.value env table.types.length row = .ok (values row)
  symbols : op.operand = .string → op.fn = .min ∨ op.fn = .max →
    ∀ row ∈ table.rows, (env.strings (values row)).isSome
  distinct : ∀ a b, (env.strings a).isSome → env.strings a = env.strings b → a = b

/-- One row for each key that occurs, with the aggregate of its values. -/
structure ReduceOp.Exact (env : ReduceEnv) (op : ReduceOp) (values : Row → Cell)
    (table out : Table) : Prop where
  types : out.types = op.columnTypes table.types
  distinct : (out.rows.map op.outputKey).Nodup
  keys : ∀ key, key ∈ out.rows.map op.outputKey ↔ ∃ row ∈ table.rows, op.key row = key
  aggregates : ∀ row ∈ out.rows, op.IsAggregate env
    (op.groupValues values table.rows (op.outputKey row)) (cellAt row op.index)

/-- The exact sum of every group fits in 64 bits. -/
def ReduceOp.SumsFit (table : Table) : Prop :=
  op.fn = .sum → ∀ key, Representable (exactSum (op.groupValues values table.rows key))

/-- What a reduction should do: fail when an exact sum does not fit, and otherwise give the exact
aggregates. -/
def ReduceOp.ExactOutcome (table : Table) : Except EvalError Table → Prop
  | .ok out => op.SumsFit values table ∧ op.Exact env values table out
  | .error e => e = .erange ∧ ¬ op.SumsFit values table

/-- Every running sum of the values fits in 64 bits. -/
def RunningSumsFit (cells : List Cell) : Prop := ∀ n, Representable (exactSum (cells.take n))

/-- The same rows up to their order, or the same error. -/
def SameResult : Except EvalError Table → Except EvalError Table → Prop
  | .ok a, .ok b => a.types = b.types ∧ a.rows.Perm b.rows
  | .error e, .error e' => e = e'
  | _, _ => False

/-! ## The order of the values -/

section Order

variable {env : ReduceEnv} {op : ReduceOp} {a b c : Cell}

theorem strcmpPositive_iff {s t : List UInt8} :
    strcmpPositive s t = true ↔ t.map UInt8.toNat < s.map UInt8.toNat := by
  induction s generalizing t with
  | nil => simp [strcmpPositive]
  | cons x s ih =>
    cases t with
    | nil => simp [strcmpPositive]
    | cons y t =>
      rw [strcmpPositive, map_cons, map_cons, cons_lt_cons_iff]
      by_cases same : x = y
      · subst same
        simp [ih]
      have apart : y.toNat ≠ x.toNat := fun equal => same (UInt8.toNat_inj.mp equal).symm
      rw [if_neg same, decide_eq_true_iff, UInt8.lt_iff_toNat_lt]
      simp [apart]

theorem ReduceOp.AtMost.trans (first : op.AtMost env a b) (second : op.AtMost env b c) :
    op.AtMost env a c := by
  unfold ReduceOp.AtMost at *
  split_ifs at * with symbols
  · exact le_trans first second
  · exact le_trans first second

theorem ReduceOp.AtMost.total (env : ReduceEnv) (op : ReduceOp) (a b : Cell) :
    op.AtMost env a b ∨ op.AtMost env b a := by
  unfold ReduceOp.AtMost
  split_ifs with symbols
  · exact le_total _ _
  · exact le_total _ _

theorem ReduceOp.Prefers.refl (env : ReduceEnv) (op : ReduceOp) (a : Cell) :
    op.Prefers env a a := by
  unfold ReduceOp.Prefers
  split_ifs <;> exact (or_self_iff.mp (ReduceOp.AtMost.total env op a a))

theorem ReduceOp.Prefers.trans (first : op.Prefers env a b) (second : op.Prefers env b c) :
    op.Prefers env a c := by
  unfold ReduceOp.Prefers at *
  split_ifs at * with maximum
  · exact second.trans first
  · exact first.trans second

theorem ReduceOp.Prefers.total (env : ReduceEnv) (op : ReduceOp) (a b : Cell) :
    op.Prefers env a b ∨ op.Prefers env b a := by
  unfold ReduceOp.Prefers
  split_ifs with maximum
  · exact ReduceOp.AtMost.total env op b a
  · exact ReduceOp.AtMost.total env op a b

/-- Values that are equally good are the same. -/
theorem ReduceOp.Prefers.antisymm
    (distinct : ∀ a b, (env.strings a).isSome → env.strings a = env.strings b → a = b)
    (here : op.operand = .string → (env.strings a).isSome)
    (there : op.operand = .string → (env.strings b).isSome)
    (first : op.Prefers env a b) (second : op.Prefers env b a) : a = b := by
  have both : op.AtMost env a b ∧ op.AtMost env b a := by
    unfold ReduceOp.Prefers at *
    split_ifs at * with maximum
    · exact ⟨second, first⟩
    · exact ⟨first, second⟩
  unfold ReduceOp.AtMost at both
  split_ifs at both with symbols
  · obtain ⟨s, foundA⟩ := Option.isSome_iff_exists.mp (here symbols)
    obtain ⟨t, foundB⟩ := Option.isSome_iff_exists.mp (there symbols)
    have texts : symbolText env a = symbolText env b := le_antisymm both.1 both.2
    simp only [symbolText, foundA, foundB, Option.getD_some] at texts
    have bytes : Function.Injective UInt8.toNat := fun x y => UInt8.toNat_inj.mp
    have same : s = t := map_injective_iff.mpr bytes texts
    exact distinct a b (here symbols) (by rw [foundA, foundB, same])
  · exact BitVec.eq_of_toInt_eq (le_antisymm both.1 both.2)

/-- `col_agg_better` replaces the values that the candidate is preferred to. -/
theorem aggBetter_iff (here : op.operand = .string → (env.strings a).isSome)
    (there : op.operand = .string → (env.strings b).isSome) :
    aggBetter op.order env.strings a b = true ↔ ¬ op.Prefers env b a := by
  unfold aggBetter ReduceOp.Prefers ReduceOp.AtMost
  by_cases symbols : op.operand = .string
  · obtain ⟨s, foundA⟩ := Option.isSome_iff_exists.mp (here symbols)
    obtain ⟨t, foundB⟩ := Option.isSome_iff_exists.mp (there symbols)
    by_cases maximum : op.fn = .max <;>
      simp [ReduceOp.order, symbols, maximum, foundA, foundB, symbolText, strcmpPositive_iff]
  · by_cases maximum : op.fn = .max <;> simp [ReduceOp.order, symbols, maximum]

end Order

/-! ## What a group does with its values -/

section Groups

variable {env : ReduceEnv} {op : ReduceOp} {cells : List Cell}

theorem exactSum_concat (cells : List Cell) (cell : Cell) :
    exactSum (cells ++ [cell]) = exactSum cells + cell.toInt := by
  simp [exactSum]

theorem runningSumsFit_concat {cell : Cell} :
    RunningSumsFit (cells ++ [cell]) ↔
      RunningSumsFit cells ∧ Representable (exactSum cells + cell.toInt) := by
  rw [← exactSum_concat]
  constructor
  · intro fit
    refine ⟨fun n => ?_, ?_⟩
    · by_cases short : n ≤ cells.length
      · simpa [take_append_of_le_length short] using fit n
      have whole := fit cells.length
      rw [take_append_of_le_length le_rfl, take_length] at whole
      rwa [take_of_length_le (by omega)]
    · have whole := fit (cells.length + 1)
      rwa [take_of_length_le (by simp)] at whole
  · rintro ⟨fit, last⟩ n
    by_cases short : n ≤ cells.length
    · simpa [take_append_of_le_length short] using fit n
    · rwa [take_of_length_le (by simp; omega)]

theorem toInt_ofInt_of_representable {value : Int} (fits : Representable value) :
    (BitVec.ofInt 64 value).toInt = value := by
  rw [representable_iff] at fits
  exact BitVec.toInt_ofInt_eq_self (by decide) (by omega) (by omega)

/-- A sum that fits takes a value in when the next sum fits. -/
theorem scalarStep_sum (env : ReduceEnv) (sum : op.fn = .sum) {total : Int}
    (fits : Representable total) (cell : Cell) :
    scalarStep env op (BitVec.ofInt 64 total) cell =
      if Representable (total + cell.toInt) then .ok (BitVec.ofInt 64 (total + cell.toInt))
      else .error .erange := by
  simp only [scalarStep, sum, toInt_ofInt_of_representable fits,
    checkedAddInt64_eq fits (representable_toInt cell), exactly]
  by_cases next : Representable (total + cell.toInt)
  · rw [if_pos next, if_pos next]
  · rw [if_neg next, if_neg next]

/-- **Counts**: the number of the values. -/
theorem groupState_count (env : ReduceEnv) (count : op.fn = .count) (scalar : op.operand ≠ .float)
    (cells : List Cell) :
    groupState (firstAggregate op) (scalarStep env op) cells =
      .ok (if cells = [] then none else some (BitVec.ofNat 64 cells.length)) := by
  induction cells using List.reverseRecOn with
  | nil => rfl
  | append_singleton cells cell ih =>
    rw [groupState_concat, ih]
    by_cases empty : cells = []
    · subst empty
      simp [Except.bind, addValue, firstAggregate, scalar, count]
    · simp [Except.bind, Except.map, addValue, scalarStep, empty, count, BitVec.ofNat_add]

/-- **Sums**: the exact sum as long as every running sum fits. -/
theorem groupState_sum (env : ReduceEnv) (sum : op.fn = .sum) (scalar : op.operand ≠ .float)
    (cells : List Cell) :
    (RunningSumsFit cells ∧ groupState (firstAggregate op) (scalarStep env op) cells =
        .ok (if cells = [] then none else some (BitVec.ofInt 64 (exactSum cells)))) ∨
      (¬ RunningSumsFit cells ∧
        groupState (firstAggregate op) (scalarStep env op) cells = .error .erange) := by
  induction cells using List.reverseRecOn with
  | nil => exact .inl ⟨fun n => by rw [take_nil]; decide, rfl⟩
  | append_singleton cells cell ih =>
    rw [groupState_concat, runningSumsFit_concat]
    rcases ih with ⟨fit, state⟩ | ⟨unfit, failed⟩
    · rw [state]
      by_cases empty : cells = []
      · subst empty
        refine .inl ⟨⟨fit, by simpa [exactSum] using representable_toInt cell⟩, ?_⟩
        simp [Except.bind, addValue, firstAggregate, scalar, sum, exactSum]
      -- the running sum is the aggregate that stands in the output row
      have fits : Representable (exactSum cells) := by
        simpa using fit cells.length
      have step := scalarStep_sum env sum fits cell
      by_cases next : Representable (exactSum cells + cell.toInt)
      · rw [if_pos next] at step
        refine .inl ⟨⟨fit, next⟩, ?_⟩
        simp [Except.bind, Except.map, addValue, empty, step, exactSum_concat]
      · rw [if_neg next] at step
        refine .inr ⟨fun both => next both.2, ?_⟩
        simp [Except.bind, Except.map, addValue, empty, step]
    · rw [failed]
      exact .inr ⟨fun both => unfit both.1, rfl⟩

/-- **Minima and maxima**: one of the values, to which no other one is preferred. -/
theorem groupState_best (best : op.fn = .min ∨ op.fn = .max) (scalar : op.operand ≠ .float)
    (symbols : op.operand = .string → ∀ cell ∈ cells, (env.strings cell).isSome) :
    ∃ state, groupState (firstAggregate op) (scalarStep env op) cells = .ok state ∧
      (state = none → cells = []) ∧
      ∀ result, state = some result →
        result ∈ cells ∧ ∀ cell ∈ cells, op.Prefers env result cell := by
  induction cells using List.reverseRecOn with
  | nil => exact ⟨none, rfl, fun _ => rfl, fun _ absurd => by cases absurd⟩
  | append_singleton cells cell ih =>
    obtain ⟨state, before, unseen, seenBest⟩ := ih fun strings other member =>
      symbols strings other (mem_append_left _ member)
    have first : firstAggregate op cell = cell := by
      rcases best with minimum | maximum
      · simp [firstAggregate, scalar, minimum]
      · simp [firstAggregate, scalar, maximum]
    rw [groupState_concat, before]
    cases state with
    | none =>
      have empty := unseen rfl
      subst empty
      refine ⟨some cell, by simp [Except.bind, addValue, first], by simp, ?_⟩
      rintro result ⟨rfl⟩
      simpa using ReduceOp.Prefers.refl env op cell
    | some cur =>
      obtain ⟨member, preferred⟩ := seenBest cur rfl
      have step : scalarStep env op cur cell =
          .ok (if aggBetter op.order env.strings cell cur then cell else cur) := by
        rcases best with minimum | maximum
        · simp [scalarStep, minimum]
        · simp [scalarStep, maximum]
      have better : aggBetter op.order env.strings cell cur = true ↔
          ¬ op.Prefers env cur cell :=
        aggBetter_iff (fun strings => symbols strings cell (by simp)) fun strings =>
          symbols strings cur (mem_append_left _ member)
      refine ⟨_, by simp only [Except.bind, addValue, step]; rfl, by simp, ?_⟩
      rintro result ⟨rfl⟩
      by_cases replaced : aggBetter op.order env.strings cell cur = true
      · rw [if_pos replaced]
        have above := (ReduceOp.Prefers.total env op cur cell).resolve_left (better.mp replaced)
        refine ⟨by simp, fun other seen => ?_⟩
        rcases mem_append.mp seen with old | new
        · exact above.trans (preferred other old)
        rw [mem_singleton.mp new]
        exact ReduceOp.Prefers.refl env op cell
      · rw [if_neg replaced]
        refine ⟨mem_append_left _ member, fun other seen => ?_⟩
        rcases mem_append.mp seen with old | new
        · exact preferred other old
        rw [mem_singleton.mp new]
        exact not_not.mp fun refused => replaced (better.mpr refused)

/-- The values of a group lead to their exact aggregate, or to a sum that does not fit. -/
theorem scalarState_cases (notAverage : op.fn ≠ .avg) (scalar : op.operand ≠ .float)
    (symbols : op.operand = .string → op.fn = .min ∨ op.fn = .max →
      ∀ cell ∈ cells, (env.strings cell).isSome) (few : cells.length ≤ 2 ^ 30) :
    (∃ state, groupState (firstAggregate op) (scalarStep env op) cells = .ok state ∧
        (op.fn = .sum → RunningSumsFit cells) ∧
        ∀ result, state = some result → op.IsAggregate env cells result) ∨
      (groupState (firstAggregate op) (scalarStep env op) cells = .error .erange ∧
        op.fn = .sum ∧ ¬ RunningSumsFit cells) := by
  cases fn : op.fn with
  | count =>
    refine .inl ⟨_, groupState_count env fn scalar cells, by simp, ?_⟩
    intro result found
    split_ifs at found with empty
    cases found
    simp only [ReduceOp.IsAggregate, fn]
    rw [BitVec.toInt_eq_toNat_of_lt (by rw [BitVec.toNat_ofNat]; omega), BitVec.toNat_ofNat]
    omega
  | sum =>
    rcases groupState_sum env fn scalar cells with ⟨fit, state⟩ | ⟨unfit, failed⟩
    · refine .inl ⟨_, state, fun _ => fit, ?_⟩
      intro result found
      split_ifs at found with empty
      cases found
      simp only [ReduceOp.IsAggregate, fn]
      refine toInt_ofInt_of_representable ?_
      simpa using fit cells.length
    · exact .inr ⟨failed, rfl, unfit⟩
  | min =>
    obtain ⟨state, found, -, best⟩ := groupState_best (.inl fn) scalar
      fun strings => symbols strings (.inl fn)
    refine .inl ⟨state, found, by simp, ?_⟩
    simpa [ReduceOp.IsAggregate, fn] using best
  | max =>
    obtain ⟨state, found, -, best⟩ := groupState_best (.inr fn) scalar
      fun strings => symbols strings (.inr fn)
    refine .inl ⟨state, found, by simp, ?_⟩
    simpa [ReduceOp.IsAggregate, fn] using best
  | avg => exact absurd fn notAverage

theorem groupState_scalar (env : ReduceEnv) (scalar : op.operand ≠ .float) (cells : List Cell) :
    Agree (Option.Rel fun state cell => state.cell = cell)
      (groupState (aggStart op) (aggStep env op) cells)
      (groupState (firstAggregate op) (scalarStep env op) cells) := by
  have type : op.aggregateType = .int64 := if_neg scalar
  have settled (cur next : Cell) : op.settle cur next = next := by
    rw [ReduceOp.settle, type]
    exact (if_pos rfl).trans (storedCell_int64 next)
  have pairs : List.Forall₂ (· = ·) cells cells := forall₂_same.mpr fun _ _ => rfl
  refine groupState_agree ?_ ?_ pairs
  · rintro value _ rfl
    rw [aggStart, if_neg scalar, type]
    exact storedCell_int64 _
  · rintro state _ value _ rfl rfl
    rw [aggStep, if_neg scalar]
    cases scalarStep env op state.cell value with
    | ok next => exact settled _ _
    | error e => rfl

/-- **A group has an exact aggregate, or it is a sum that does not fit on the way.** -/
theorem groupState_cases (notAverage : op.fn ≠ .avg) (scalar : op.operand ≠ .float)
    (symbols : op.operand = .string → op.fn = .min ∨ op.fn = .max →
      ∀ cell ∈ cells, (env.strings cell).isSome) (few : cells.length ≤ 2 ^ 30) :
    (∃ state, groupState (aggStart op) (aggStep env op) cells = .ok state ∧
        (op.fn = .sum → RunningSumsFit cells) ∧
        ∀ result, state = some result → op.IsAggregate env cells result.cell) ∨
      (groupState (aggStart op) (aggStep env op) cells = .error .erange ∧
        op.fn = .sum ∧ ¬ RunningSumsFit cells) := by
  have agree := groupState_scalar env scalar cells
  rcases scalarState_cases notAverage scalar symbols few with ⟨_, found, fit, exact⟩ | ⟨failed, sum⟩
  · rw [found] at agree
    cases states : groupState (aggStart op) (aggStep env op) cells with
    | error e => rw [states] at agree; exact agree.elim
    | ok state =>
      rw [states] at agree
      refine .inl ⟨state, rfl, fit, ?_⟩
      rintro result rfl
      cases agree with
      | some same => exact same ▸ exact _ rfl
  · rw [failed] at agree
    cases states : groupState (aggStart op) (aggStep env op) cells with
    | error e =>
      rw [states] at agree
      exact .inr ⟨congrArg Except.error agree, sum⟩
    | ok state => rw [states] at agree; exact agree.elim

end Groups

/-! ## The operator -/

section Operator

variable {env : ReduceEnv} {op : ReduceOp} {values : Row → Cell} {table : Table}

/-- When the outcome of a reduction is exact: the hash table has room for the rows, and a sum
whose exact results all fit has running sums that fit. -/
def ReduceOp.InRange (op : ReduceOp) (values : Row → Cell) (table : Table) : Prop :=
  table.rows.length ≤ 2 ^ 30 ∧
    (op.fn = .sum →
      (∃ key, ¬ Representable (exactSum (op.groupValues values table.rows key))) ∨
        ∀ key, RunningSumsFit (op.groupValues values table.rows key))

/-- The key of a row of a table is made of the cells of the group columns. -/
theorem ReduceOp.groupKey_eq {types : List ColumnType} {row : Row}
    (columns : ∀ gi ∈ op.groupBy, gi < types.length) (width : row.cells.length = types.length)
    (canonical : FloatCanonical types row) : op.groupKey types row = op.key row := by
  rw [← op.groupCells_eq width canonical]
  refine map_congr_left fun gi member => ?_
  rw [if_pos (columns gi member)]

theorem ReduceOp.Accepts.items_eq (accepts : op.Accepts env values table) :
    op.items table.types values table.rows =
      table.rows.map fun row => (op.key row, values row) := by
  refine map_congr_left fun row member => ?_
  rw [op.groupKey_eq accepts.columns (table.width row member) (table.canonical row member)]

theorem ReduceOp.mem_groupValues {rows : List Row} {key : List Cell} {cell : Cell}
    (member : cell ∈ op.groupValues values rows key) : ∃ row ∈ rows, values row = cell := by
  obtain ⟨item, listed, chosen⟩ := mem_filterMap.mp member
  obtain ⟨row, present, rfl⟩ := mem_map.mp listed
  split_ifs at chosen
  exact ⟨row, present, Option.some.inj chosen⟩

theorem ReduceOp.length_groupValues (op : ReduceOp) (values : Row → Cell) (rows : List Row)
    (key : List Cell) : (op.groupValues values rows key).length ≤ rows.length := by
  refine (length_filterMap_le _ _).trans ?_
  rw [length_map]

theorem ReduceOp.Accepts.finite (accepts : op.Accepts env values table) (row : Row)
    (_ : row ∈ table.rows) : op.Valid (values row) := fun float => absurd float accepts.scalar

section

variable (accepts : op.Accepts env values table) (few : table.rows.length ≤ 2 ^ 30)

include accepts few

theorem ReduceOp.Accepts.groupState_cases (key : List Cell) :
    (∃ state, groupState (aggStart op) (aggStep env op)
          (op.groupValues values table.rows key) = .ok state ∧
        (op.fn = .sum → RunningSumsFit (op.groupValues values table.rows key)) ∧
        ∀ result, state = some result →
          op.IsAggregate env (op.groupValues values table.rows key) result.cell) ∨
      (groupState (aggStart op) (aggStep env op)
          (op.groupValues values table.rows key) = .error .erange ∧
        op.fn = .sum ∧ ¬ RunningSumsFit (op.groupValues values table.rows key)) := by
  refine Plan.groupState_cases accepts.notAverage accepts.scalar ?_
    ((op.length_groupValues values table.rows key).trans few)
  intro strings best cell member
  obtain ⟨row, present, rfl⟩ := op.mem_groupValues member
  exact accepts.symbols strings best row present

/-- The groups that the loop leaves are the exact aggregates. -/
theorem ReduceOp.Accepts.exact_of_grouped {g : ReduceTable (op.columnTypes table.types)}
    (grouped : Grouped (aggStart op) (aggStep env op)
      (table.rows.map fun row => (op.key row, values row)) (g.entries op)) :
    op.Exact env values table g.output := by
  have keys : g.output.rows.map op.outputKey = (g.entries op).map Prod.fst := by
    rw [g.keys_entries, ReduceTable.output, map_map]
    rfl
  refine ⟨rfl, keys ▸ grouped.distinct, fun key => ?_, fun row member => ?_⟩
  · rw [keys, grouped.keys key, map_map]
    exact mem_map
  · obtain ⟨group, present, rfl⟩ := mem_map.mp member
    have state := grouped.states (op.entry group) (mem_map_of_mem present)
    rcases accepts.groupState_cases few (op.keyOf group) with ⟨_, found, -, exact⟩ | ⟨failed, -⟩
    · exact exact _ (Except.ok.inj (found.symm.trans state))
    · exact nomatch state.symm.trans failed

/-- All groups have a state when the loop ends. -/
theorem ReduceOp.Accepts.runningSumsFit_of_grouped {groups : List (List Cell × AggState)}
    (grouped : Grouped (aggStart op) (aggStep env op)
      (table.rows.map fun row => (op.key row, values row)) groups) (sum : op.fn = .sum)
    (key : List Cell) : RunningSumsFit (op.groupValues values table.rows key) := by
  rcases accepts.groupState_cases few key with ⟨_, -, fit, -⟩ | ⟨failed, -⟩
  · exact fit sum
  by_cases occurs : key ∈ groups.map Prod.fst
  · obtain ⟨group, member, rfl⟩ := mem_map.mp occurs
    exact nomatch (grouped.states group member).symm.trans failed
  have nothing : op.groupValues values table.rows key = [] :=
    valuesOf_eq_nil fun present => occurs ((grouped.keys key).mpr present)
  rw [nothing] at failed
  cases failed

end

theorem RunningSumsFit.representable {cells : List Cell} (fit : RunningSumsFit cells) :
    Representable (exactSum cells) := by
  simpa using fit cells.length

/-- **The outcome is exact exactly when no running sum goes wrong.** -/
theorem ReduceOp.Accepts.exactOutcome_iff (accepts : op.Accepts env values table) :
    op.ExactOutcome env values table (colOpReduce env op table) ↔ op.InRange values table := by
  by_cases few : table.rows.length ≤ 2 ^ 30
  · rcases colOpReduce_spec accepts.valued accepts.finite few with
      ⟨g, done, grouped⟩ | ⟨e, key, failed, refused⟩
    · rw [accepts.items_eq] at grouped
      have fit := accepts.runningSumsFit_of_grouped few grouped
      rw [done]
      refine iff_of_true ⟨fun sum key => (fit sum key).representable, ?_⟩ ⟨few, fun sum => ?_⟩
      · exact accepts.exact_of_grouped few grouped
      · exact .inr (fit sum)
    · rw [accepts.items_eq] at refused
      rcases accepts.groupState_cases few key with ⟨_, found, -⟩ | ⟨overflow, sum, unfit⟩
      · exact nomatch found.symm.trans refused
      obtain rfl : e = .erange := Except.error.inj (refused.symm.trans overflow)
      rw [failed]
      constructor
      · rintro ⟨-, misfit⟩
        refine ⟨few, fun _ => .inl ?_⟩
        by_contra fits
        exact misfit fun _ => not_exists_not.mp fits
      · rintro ⟨-, cases⟩
        refine ⟨rfl, fun fits => ?_⟩
        rcases cases sum with ⟨other, misfit⟩ | fit
        · exact misfit (fits sum other)
        · exact unfit (fit key)
  · have full : colOpReduce env op table = .error .enomem := by
      rw [colOpReduce, if_pos (reduceCapacity_lt_iff.mpr (not_le.mp few))]
    rw [full]
    refine iff_of_false ?_ fun inRange => few inRange.1
    rintro ⟨other, -⟩
    cases other

/-! ## The order of the rows -/

theorem ReduceOp.groupValues_perm {rows others : List Row} (same : others.Perm rows)
    (key : List Cell) : (op.groupValues values others key).Perm (op.groupValues values rows key) :=
  valuesOf_perm (same.map _) key

theorem exactSum_perm {cells others : List Cell} (same : others.Perm cells) :
    exactSum others = exactSum cells := (same.map _).sum_eq

/-- A group has one aggregate, whatever the order of its values. -/
theorem ReduceOp.IsAggregate.unique {cells others : List Cell} {first second : Cell}
    (distinct : ∀ a b, (env.strings a).isSome → env.strings a = env.strings b → a = b)
    (symbols : op.operand = .string → op.fn = .min ∨ op.fn = .max →
      ∀ cell ∈ cells, (env.strings cell).isSome)
    (same : others.Perm cells) (here : op.IsAggregate env cells first)
    (there : op.IsAggregate env others second) : second = first := by
  have best (which : op.fn = .min ∨ op.fn = .max)
      (here : first ∈ cells ∧ ∀ cell ∈ cells, op.Prefers env first cell)
      (there : second ∈ others ∧ ∀ cell ∈ others, op.Prefers env second cell) :
      second = first := by
    have inside := same.mem_iff.mp there.1
    exact ReduceOp.Prefers.antisymm distinct (fun strings => symbols strings which _ inside)
      (fun strings => symbols strings which _ here.1)
      (there.2 first (same.mem_iff.mpr here.1)) (here.2 second inside)
  unfold ReduceOp.IsAggregate at here there
  cases fn : op.fn with
  | count =>
    rw [fn] at here there
    exact BitVec.eq_of_toInt_eq (there.trans (by rw [same.length_eq, ← here]))
  | sum =>
    rw [fn] at here there
    exact BitVec.eq_of_toInt_eq (there.trans (by rw [exactSum_perm same, ← here]))
  | min =>
    rw [fn] at here there
    exact best (.inl fn) here there
  | max =>
    rw [fn] at here there
    exact best (.inr fn) here there
  | avg =>
    rw [fn] at here
    exact here.elim

theorem ReduceOp.cells_eq {row : Row} (width : row.cells.length = op.groupBy.length + 1) :
    row.cells = (op.outputKey row).insertIdx op.index (cellAt row op.index) := by
  have inside : op.index < row.cells.length := by
    rw [width]
    exact Nat.lt_succ_of_le op.index_le
  rw [ReduceOp.outputKey, cellAt, getD_eq_getElem _ _ inside, insertIdx_eraseIdx_getElem inside]

/-- Exact results of the same rows in two orders have the same rows. -/
theorem ReduceOp.Exact.subset (accepts : op.Accepts env values table) {other out out' : Table}
    (same : other.rows.Perm table.rows) (here : op.Exact env values table out)
    (there : op.Exact env values other out') {row : Row} (member : row ∈ out'.rows) :
    row ∈ out.rows := by
  have width' : row.cells.length = op.groupBy.length + 1 := by
    rw [out'.width row member, there.types, op.length_columnTypes]
  obtain ⟨source, present, key⟩ := (there.keys _).mp (mem_map_of_mem member)
  obtain ⟨twin, inside, sameKey⟩ := mem_map.mp
    ((here.keys (op.outputKey row)).mpr ⟨source, same.mem_iff.mp present, key⟩)
  have width : twin.cells.length = op.groupBy.length + 1 := by
    rw [out.width twin inside, here.types, op.length_columnTypes]
  have aggregate : cellAt row op.index = cellAt twin op.index := by
    have exact := here.aggregates twin inside
    rw [sameKey] at exact
    refine ReduceOp.IsAggregate.unique accepts.distinct ?_ (op.groupValues_perm same _) exact
      (there.aggregates row member)
    intro strings best cell listed
    obtain ⟨source, present, rfl⟩ := op.mem_groupValues listed
    exact accepts.symbols strings best source present
  have equal : row = twin := by
    apply Row.ext
    rw [op.cells_eq width', op.cells_eq width, sameKey, aggregate]
  rwa [equal]

/-- The same rows in another order are accepted as well. -/
theorem ReduceOp.Accepts.perm (accepts : op.Accepts env values table) {other : Table}
    (types : other.types = table.types) (same : other.rows.Perm table.rows) :
    op.Accepts env values other where
  columns gi member := types ▸ accepts.columns gi member
  notAverage := accepts.notAverage
  scalar := accepts.scalar
  valued row member := types ▸ accepts.valued row (same.mem_iff.mp member)
  symbols strings best row member := accepts.symbols strings best row (same.mem_iff.mp member)
  distinct := accepts.distinct

theorem ReduceOp.sumsFit_perm {other : Table} (same : other.rows.Perm table.rows) :
    op.SumsFit values other ↔ op.SumsFit values table := by
  refine imp_congr_right fun _ => forall_congr' fun key => ?_
  rw [exactSum_perm (op.groupValues_perm same key)]

/-- **Exact outcomes do not depend on the order of the rows.** -/
theorem ReduceOp.Accepts.sameResult (accepts : op.Accepts env values table) {other : Table}
    (types : other.types = table.types) (same : other.rows.Perm table.rows)
    {result result' : Except EvalError Table} (here : op.ExactOutcome env values table result)
    (there : op.ExactOutcome env values other result') : SameResult result result' := by
  cases result with
  | ok out =>
    cases result' with
    | ok out' =>
      refine ⟨by rw [here.2.types, there.2.types, types], ?_⟩
      refine (perm_ext_iff_of_nodup here.2.distinct.of_map there.2.distinct.of_map).mpr ?_
      intro row
      refine ⟨fun member => ?_, fun member => ?_⟩
      · exact there.2.subset (accepts.perm types same) same.symm here.2 member
      · exact here.2.subset accepts same there.2 member
    | error e => exact there.2 ((op.sumsFit_perm same).mpr here.1)
  | error e =>
    cases result' with
    | ok out' => exact here.2 ((op.sumsFit_perm same).mp there.1)
    | error e' => exact here.1.trans there.1.symm

/-- **A reduction is exact exactly when no running sum of a group whose sum fits overflows, and
exact results do not depend on the order of the rows.** -/
theorem colOpReduce_exact_iff (accepts : op.Accepts env values table) :
    (op.ExactOutcome env values table (colOpReduce env op table) ↔ op.InRange values table) ∧
      ∀ other : Table, other.types = table.types → other.rows.Perm table.rows →
        op.InRange values table → op.InRange values other →
          SameResult (colOpReduce env op table) (colOpReduce env op other) := by
  refine ⟨accepts.exactOutcome_iff, fun other types same here there => ?_⟩
  exact accepts.sameResult types same (accepts.exactOutcome_iff.mpr here)
    ((accepts.perm types same).exactOutcome_iff.mpr there)

end Operator

/-! ## Sums of a column -/

/-- No expressions, no strings and no doubles. -/
def plainReduceEnv : ReduceEnv where
  evaluate _ _ := .error .malformed
  strings _ := none
  addDoubles a _ := a
  divDoubles a _ := a
  countDouble _ := 0

/-- The sum of the second column for each cell of the first one. -/
def sumBySource : ReduceOp := ⟨.sum, [0], none, .scalar, none⟩

def twoGroups : Table := .untyped 2 [⟨[1, 5]⟩, ⟨[2, 3]⟩, ⟨[1, 7]⟩] (by simp)

theorem colOpReduce_exact_iff_two_groups :
    (∃ out, colOpReduce plainReduceEnv sumBySource twoGroups = .ok out ∧
        out.rows = [⟨[1, 12]⟩, ⟨[2, 3]⟩]) ∧
      (sumBySource.ExactOutcome plainReduceEnv (cellAt · 1) twoGroups
          (colOpReduce plainReduceEnv sumBySource twoGroups) ↔
        sumBySource.InRange (cellAt · 1) twoGroups) :=
  ⟨⟨_, rfl, rfl⟩, (colOpReduce_exact_iff
    { columns := by simp [sumBySource, twoGroups, Table.untyped]
      notAverage := by decide
      scalar := by decide
      valued := fun _ _ => rfl
      symbols := fun strings => by cases strings
      distinct := fun _ _ some => by cases some }).1⟩

def sumOfAll : ReduceOp := ⟨.sum, [], none, .scalar, none⟩

def integerColumn (cells : List Cell) : Table :=
  .untyped 1 (cells.map fun cell => ⟨[cell]⟩) (by simp)

/-- **`INT64_MAX`, one and minus one have the sum `INT64_MAX`. In this order the operator reports
an overflow, and with the last two exchanged it gives the sum.** -/
theorem running_sum_refused :
    sumOfAll.SumsFit (cellAt · 0) (integerColumn [0x7fffffffffffffff, 1, -1]) ∧
      colOpReduce plainReduceEnv sumOfAll (integerColumn [0x7fffffffffffffff, 1, -1]) =
        .error .erange ∧
      ∃ out, colOpReduce plainReduceEnv sumOfAll (integerColumn [0x7fffffffffffffff, -1, 1]) =
        .ok out ∧ out.rows = [⟨[0x7fffffffffffffff]⟩] := by
  refine ⟨fun _ key => ?_, rfl, _, rfl, rfl⟩
  by_cases empty : key = []
  · subst empty
    decide
  have nothing : sumOfAll.groupValues (cellAt · 0)
      (integerColumn [0x7fffffffffffffff, 1, -1]).rows key = [] := by
    refine valuesOf_eq_nil fun occurs => empty ?_
    simpa [integerColumn, Table.untyped, ReduceOp.key, sumOfAll] using occurs
  rw [nothing]
  decide

end Wirelog.Plan

import Wirelog.SemiNaive.Session

/-!
# Operators that work row by row

Most operators of a plan treat every row on its own: whether they accept a table depends on its
types and on each row, and the rows they yield come from single rows of the input (`RowOp`). Such
an operator keeps an inclusion between tables (`RowOp.within`).

The filter, the map, the removal of duplicates, the join-like operators and a join with fixed rows
on its right are of this kind. Two tables laid one after the other are no such operator, and have
a statement of their own (`opConcat_within`).
-/

set_option autoImplicit false

namespace Wirelog.SemiNaive

open Wirelog.IR Wirelog.Plan Wirelog.Foundations List
open Wirelog.Columnar (Row ColumnType)

/-! ## Inclusion of tables -/

/-- A table of the same types whose rows are among those of another. -/
structure Within (small big : Table) : Prop where
  types : small.types = big.types
  rows : ∀ row ∈ small.rows, row ∈ big.rows

namespace Within

theorem refl (table : Table) : Within table table := ⟨rfl, fun _ member => member⟩

end Within

/-! ## Operators that work row by row -/

/-- How an operator treats types and rows. -/
structure RowShape where
  /-- The types of the result, when the types of the input are accepted. -/
  typing : List ColumnType → Option (List ColumnType)
  /-- The rows on which the operator does not fail. -/
  good : Row → Prop
  /-- The rows that come from a row. -/
  image : List ColumnType → Row → Row → Prop

/-- An operator works row by row. -/
structure RowOp (op : Table → Except EvalError Table) (shape : RowShape) : Prop where
  ok_iff : ∀ table, (∃ result, op table = .ok result) ↔
    (shape.typing table.types).isSome ∧ ∀ row ∈ table.rows, shape.good row
  typed : ∀ {table result}, op table = .ok result →
    shape.typing table.types = some result.types
  rows : ∀ {table result}, op table = .ok result →
    ∀ row, row ∈ result.rows ↔ ∃ source ∈ table.rows, shape.image table.types source row

namespace RowOp

variable {op : Table → Except EvalError Table} {shape : RowShape}

/-- A row-by-row operator keeps an inclusion. -/
theorem within (rowOp : RowOp op shape) {small big result : Table} (ran : op big = .ok result)
    (inside : Within small big) : ∃ lesser, op small = .ok lesser ∧ Within lesser result := by
  have accepted := (rowOp.ok_iff big).mp ⟨result, ran⟩
  obtain ⟨lesser, lesserRan⟩ := (rowOp.ok_iff small).mpr
    ⟨inside.types ▸ accepted.1, fun row member => accepted.2 row (inside.rows row member)⟩
  refine ⟨lesser, lesserRan, ?_, ?_⟩
  · have smallTyped := rowOp.typed lesserRan
    rw [inside.types, rowOp.typed ran] at smallTyped
    exact (Option.some.inj smallTyped).symm
  · intro row member
    obtain ⟨source, inSmall, image⟩ := (rowOp.rows lesserRan row).mp member
    rw [inside.types] at image
    exact (rowOp.rows ran row).mpr ⟨source, inside.rows source inSmall, image⟩

theorem rows_nil (rowOp : RowOp op shape) {table result : Table} (ran : op table = .ok result)
    (empty : table.rows = []) : result.rows = [] := by
  apply eq_nil_iff_forall_not_mem.mpr
  intro row member
  obtain ⟨source, inTable, -⟩ := (rowOp.rows ran row).mp member
  rw [empty] at inTable
  exact not_mem_nil inTable

end RowOp

/-! ## Shapes -/

namespace RowShape

/-- Nothing changes. -/
def identity : RowShape := ⟨some, fun _ => True, fun _ source row => row = source⟩

def select (accepts : List ColumnType → Bool) (test : List ColumnType → Row → Bool) : RowShape :=
  ⟨fun types => if accepts types then some types else none, fun _ => True,
    fun types source row => row = source ∧ test types source⟩

/-- The columns of every row are chosen afterwards. -/
def thenProject (shape : RowShape) (projection : List Nat) : RowShape where
  typing := fun types => (shape.typing types).map fun types =>
    if projection = [] then types else projection.map (typeOf types)
  good := shape.good
  image := fun types source row => ∃ whole, shape.image types source whole ∧
    row = if projection = [] then whole else projectRow projection whole

end RowShape

theorem rowOp_identity : RowOp (fun table => .ok table) RowShape.identity where
  ok_iff := fun table => ⟨fun _ => ⟨rfl, fun _ _ => trivial⟩, fun _ => ⟨table, rfl⟩⟩
  typed := by
    intro table result ran
    cases ran
    rfl
  rows := by
    intro table result ran row
    cases ran
    simp [RowShape.identity]

theorem rowOp_select (accepts : List ColumnType → Bool) (test : List ColumnType → Row → Bool) :
    RowOp (fun table =>
        if accepts table.types then .ok (table.filter (test table.types)) else .error .einval)
      (.select accepts test) where
  ok_iff := by
    intro table
    simp only [RowShape.select]
    split_ifs <;> simp
  typed := by
    intro table result ran
    simp only [RowShape.select]
    split_ifs at ran ⊢ with accepted
    cases ran
    rfl
  rows := by
    intro table result ran row
    split_ifs at ran with accepted
    cases ran
    simp only [Table.filter, mem_filter, RowShape.select]
    constructor
    · rintro ⟨member, passed⟩
      exact ⟨row, member, rfl, passed⟩
    · rintro ⟨source, member, rfl, passed⟩
      exact ⟨member, passed⟩

theorem map_eq_ok_iff {α β : Type} {found : Except EvalError α} {change : α → β} {result : β} :
    found.map change = .ok result ↔ ∃ before, found = .ok before ∧ change before = result := by
  cases found <;> simp [Except.map]

theorem RowOp.thenProject {op : Table → Except EvalError Table} {shape : RowShape}
    (rowOp : RowOp op shape) (projection : List Nat) :
    RowOp (fun table => (op table).map (projectJoin projection))
      (shape.thenProject projection) where
  ok_iff := by
    intro table
    simp only [RowShape.thenProject, Option.isSome_map, ← rowOp.ok_iff table, map_eq_ok_iff]
    constructor
    · rintro ⟨result, before, ran, -⟩
      exact ⟨before, ran⟩
    · rintro ⟨before, ran⟩
      exact ⟨projectJoin projection before, before, ran, rfl⟩
  typed := by
    intro table result ran
    obtain ⟨before, inner, rfl⟩ := map_eq_ok_iff.mp ran
    simp only [RowShape.thenProject, rowOp.typed inner, projectJoin]
    split_ifs <;> rfl
  rows := by
    intro table result ran row
    obtain ⟨before, inner, rfl⟩ := map_eq_ok_iff.mp ran
    simp only [RowShape.thenProject, projectJoin]
    split_ifs with all
    · simpa using rowOp.rows inner row
    simp only [Table.project, mem_map, rowOp.rows inner]
    constructor
    · rintro ⟨whole, ⟨source, inTable, image⟩, rfl⟩
      exact ⟨source, inTable, whole, image, rfl⟩
    · rintro ⟨source, inTable, whole, image, rfl⟩
      exact ⟨whole, ⟨source, inTable, image⟩, rfl⟩

/-! ## Filters, maps and duplicates -/

section Operators

variable (machine : Machine)

/-- The filter. A failed call of an extension is a failure of the operator. -/
def filterShape (expr : Option PlanExpr) : RowShape :=
  match expr with
  | none => .identity
  | some expr => ⟨some, fun row => evalExpr machine row expr ≠ .error .extension,
      fun _ source row => row = source ∧ passes machine expr source⟩

theorem rowOp_opFilter (expr : Option PlanExpr) :
    RowOp (opFilter machine expr) (filterShape machine expr) := by
  cases expr with
  | none => exact rowOp_identity
  | some expr =>
    constructor
    · intro table
      simp only [opFilter, filterShape, Option.isSome_some, true_and]
      split_ifs with failed
      · simp only [exists_false, false_iff]
        obtain ⟨row, member, failure⟩ := any_eq_true.mp failed
        exact fun all => all row member (of_decide_eq_true failure)
      · refine ⟨fun _ row member failure => failed ?_, fun _ => ⟨_, rfl⟩⟩
        exact any_eq_true.mpr ⟨row, member, decide_eq_true failure⟩
    · intro table result ran
      simp only [opFilter] at ran
      split_ifs at ran
      cases ran
      rfl
    · intro table result ran row
      simp only [opFilter] at ran
      split_ifs at ran
      cases ran
      simp only [Table.filter, mem_filter, filterShape]
      constructor
      · rintro ⟨member, passed⟩
        exact ⟨row, member, rfl, passed⟩
      · rintro ⟨source, member, rfl, passed⟩
        exact ⟨member, passed⟩

theorem opMap_eq_ok_iff {indices : List Nat} {exprs : Option (List (Option PlanExpr))}
    {table result : Table} :
    opMap machine indices exprs table = .ok result ↔
      table.rows.mapM (mapRow machine indices exprs) = .ok result.rows ∧
        result.types = List.replicate (mapWidth indices exprs) .int64 := by
  unfold opMap
  split
  · next failure failed =>
    simp only [reduceCtorEq, false_iff, not_and]
    intro ran
    rw [failed] at ran
    cases ran
  · next rows mapped =>
    constructor
    · intro ran
      cases ran
      exact ⟨mapped, rfl⟩
    · rintro ⟨ran, types⟩
      rw [mapped] at ran
      obtain ⟨resultTypes, resultRows, width, canonical⟩ := result
      cases ran
      cases types
      rfl

def mapShape (indices : List Nat) (exprs : Option (List (Option PlanExpr))) : RowShape :=
  ⟨fun _ => some (List.replicate (mapWidth indices exprs) .int64),
    fun row => ∃ mapped, mapRow machine indices exprs row = .ok mapped,
    fun _ source row => mapRow machine indices exprs source = .ok row⟩

theorem rowOp_opMap (indices : List Nat) (exprs : Option (List (Option PlanExpr))) :
    RowOp (opMap machine indices exprs) (mapShape machine indices exprs) where
  ok_iff := by
    intro table
    simp only [mapShape, ← exists_mapM_eq_ok_iff, opMap_eq_ok_iff, Option.isSome_some, true_and]
    constructor
    · rintro ⟨result, ran, -⟩
      exact ⟨result.rows, ran⟩
    · rintro ⟨rows, ran⟩
      have width : ∀ row ∈ rows, row.cells.length = mapWidth indices exprs := by
        intro row member
        obtain ⟨source, -, mapped⟩ := mem_of_mapM_eq_ok ran member
        exact mapRow_width mapped
      exact ⟨.untyped _ rows width, ran, rfl⟩
  typed := fun ran => congrArg some ((opMap_eq_ok_iff machine).mp ran).2.symm
  rows := by
    intro table result ran row
    have mapped := ((opMap_eq_ok_iff machine).mp ran).1
    have related := mapM_eq_ok_iff.mp mapped
    constructor
    · exact mem_of_mapM_eq_ok mapped
    · rintro ⟨source, member, image⟩
      obtain ⟨i, bound, found⟩ := getElem_of_mem member
      have inside : i < result.rows.length := related.length_eq ▸ bound
      have here := related.get bound inside
      simp only [get_eq_getElem, found] at here
      have same : row = result.rows[i] := Except.ok.inj (image.symm.trans here)
      exact same ▸ getElem_mem inside

theorem rowOp_opConsolidate : RowOp (fun table => .ok (opConsolidate table)) .identity where
  ok_iff := fun table => ⟨fun _ => ⟨rfl, fun _ _ => trivial⟩, fun _ => ⟨_, rfl⟩⟩
  typed := by
    intro table result ran
    cases ran
    rfl
  rows := by
    intro table result ran row
    cases ran
    simp [opConsolidate, RowShape.identity]

/-! ## Joins -/

variable (leftKeys rightKeys : List Nat) (rightFilter : Option PlanExpr)

variable (left right : List ColumnType)

/-- The key columns of a join, from the types of its two sides. -/
def typeKeys : List (Nat × Nat) :=
  (resolveKeys left leftKeys).zip (resolveKeys right rightKeys)

/-- Whether a join-like operator accepts the types of its two sides. -/
def typesAccepted : Bool :=
  keyTypesCompatible left right (typeKeys leftKeys rightKeys left right)

/-- Whether a row on the right is one that a join-like operator looks for. -/
def matchesRight (row other : Row) : Bool :=
  passesRight machine rightFilter other &&
    keysMatch left right (typeKeys leftKeys rightKeys left right) row other

theorem any_filter_matches (right : Table) (types : List ColumnType) (row : Row) :
    (right.filter (passesRight machine rightFilter)).rows.any
        (keysMatch types right.types (typeKeys leftKeys rightKeys types right.types) row) =
      right.rows.any
        (matchesRight machine leftKeys rightKeys rightFilter types right.types row) := by
  rw [Bool.eq_iff_iff]
  simp [Table.filter, matchesRight]

def antijoinShape (right : Option Table) : RowShape :=
  match right with
  | none => .identity
  | some right => .select (typesAccepted leftKeys rightKeys · right.types) fun types row =>
    !right.rows.any (matchesRight machine leftKeys rightKeys rightFilter types right.types row)

theorem rowOp_opAntijoin (db : Database) (rel : String) :
    RowOp (opAntijoin machine db rel leftKeys rightKeys rightFilter)
      (antijoinShape machine leftKeys rightKeys rightFilter (db rel)) := by
  cases found : db rel with
  | none =>
    have same : opAntijoin machine db rel leftKeys rightKeys rightFilter =
        fun table => .ok table := by
      funext table
      simp [opAntijoin, found]
    exact same ▸ rowOp_identity
  | some right =>
    have same : opAntijoin machine db rel leftKeys rightKeys rightFilter = fun table =>
        if typesAccepted leftKeys rightKeys table.types right.types then
          .ok (table.filter fun row => !right.rows.any
            (matchesRight machine leftKeys rightKeys rightFilter table.types right.types row))
        else .error .einval := by
      funext table
      simp only [← any_filter_matches]
      simp only [opAntijoin, found]
      rfl
    rw [same]
    exact rowOp_select (typesAccepted leftKeys rightKeys · right.types) fun types row =>
      !right.rows.any (matchesRight machine leftKeys rightKeys rightFilter types right.types row)

def semijoinShape (right : Option Table) (indices : List Nat) : RowShape :=
  match right with
  | none => .identity
  | some right =>
    (RowShape.select (typesAccepted leftKeys rightKeys · right.types) fun types row =>
      right.rows.any
        (matchesRight machine leftKeys rightKeys rightFilter types right.types row)).thenProject
      indices

theorem rowOp_opSemijoin (db : Database) (rel : String) (indices : List Nat) :
    RowOp (opSemijoin machine db rel leftKeys rightKeys rightFilter indices)
      (semijoinShape machine leftKeys rightKeys rightFilter (db rel) indices) := by
  cases found : db rel with
  | none =>
    have same : opSemijoin machine db rel leftKeys rightKeys rightFilter indices =
        fun table => .ok table := by
      funext table
      simp [opSemijoin, found]
    exact same ▸ rowOp_identity
  | some right =>
    have same : opSemijoin machine db rel leftKeys rightKeys rightFilter indices = fun table =>
        (if typesAccepted leftKeys rightKeys table.types right.types then
          .ok (table.filter fun row => right.rows.any
            (matchesRight machine leftKeys rightKeys rightFilter table.types right.types row))
        else .error .einval : Except EvalError Table).map (projectJoin indices) := by
      funext table
      simp only [← any_filter_matches]
      simp only [opSemijoin, found]
      by_cases accepted : typesAccepted leftKeys rightKeys table.types right.types
      · rw [if_pos accepted]
        exact if_pos accepted
      · rw [if_neg accepted]
        exact if_neg accepted
    rw [same]
    exact (rowOp_select (typesAccepted leftKeys rightKeys · right.types) fun types row =>
      right.rows.any (matchesRight machine leftKeys rightKeys rightFilter types right.types
        row)).thenProject indices

def joinShape (right : Table) (projection : List Nat) : RowShape :=
  RowShape.thenProject
    ⟨fun types => if typesAccepted leftKeys rightKeys types right.types then
        some (types ++ right.types) else none,
      fun _ => True,
      fun types source row => ∃ other ∈ right.rows,
        matchesRight machine leftKeys rightKeys rightFilter types right.types source other ∧
          row = ⟨source.cells ++ other.cells⟩⟩ projection

theorem rowOp_joinRows (right : Table) (projection : List Nat) :
    RowOp (joinRows machine right leftKeys rightKeys rightFilter projection)
      (joinShape machine leftKeys rightKeys rightFilter right projection) := by
  refine RowOp.thenProject ⟨?_, ?_, ?_⟩ projection
  · intro table
    simp only [opJoin, Option.bind_some]
    split_ifs with accepted accepted' accepted'
    · simp
    · exact absurd accepted accepted'
    · exact absurd accepted' accepted
    · simp
  · intro table result ran
    simp only [opJoin, Option.bind_some] at ran
    split_ifs at ran with accepted
    cases ran
    exact if_pos accepted
  · intro table result ran row
    simp only [opJoin, Option.bind_some] at ran
    split_ifs at ran with accepted
    cases ran
    simp only [mem_flatMap, mem_map, mem_filter, Table.filter, matchesRight, Bool.and_eq_true]
    constructor
    · rintro ⟨source, inTable, other, ⟨⟨inRight, passed⟩, matched⟩, rfl⟩
      exact ⟨source, inTable, other, inRight, ⟨passed, matched⟩, rfl⟩
    · rintro ⟨source, inTable, other, inRight, ⟨passed, matched⟩, rfl⟩
      exact ⟨source, inTable, other, ⟨⟨inRight, passed⟩, matched⟩, rfl⟩

theorem projectJoin_empty_rows (projection : List Nat) (types : List ColumnType) :
    (projectJoin projection (.empty types)).rows = [] := by
  unfold projectJoin
  split_ifs <;> rfl

/-- The operators that work row by row, whatever the session holds. -/
def isRowwise : PlanOp → Bool
  | .map _ _ | .filter _ | .antijoin _ _ _ _ | .semijoin _ _ _ _ _ | .consolidate => true
  | .variable _ | .join _ _ _ _ | .reduce _ _ _ _ _ | .concat => false

theorem exists_rowOp_unaryOp (db : Database) {op : PlanOp} (rowwise : isRowwise op) :
    ∃ shape, RowOp (unaryOp machine db op) shape := by
  cases op with
  | map indices exprs => exact ⟨_, rowOp_opMap machine indices exprs⟩
  | filter expr => exact ⟨_, rowOp_opFilter machine expr⟩
  | antijoin rel leftKeys rightKeys rightFilter =>
    exact ⟨_, rowOp_opAntijoin machine leftKeys rightKeys rightFilter db rel⟩
  | semijoin rel leftKeys rightKeys rightFilter indices =>
    exact ⟨_, rowOp_opSemijoin machine leftKeys rightKeys rightFilter db rel indices⟩
  | consolidate => exact ⟨_, rowOp_opConsolidate⟩
  | _ => simp [isRowwise] at rowwise

end Operators

/-! ## Tables laid one after the other -/

theorem opConcat_spec {first second result : Table} (ran : opConcat first second = .ok result) :
    first.types.length = second.types.length ∧ result.types = first.types ∧
      ∀ row, row ∈ result.rows ↔ row ∈ first.rows ∨ row ∈ second.rows := by
  unfold opConcat at ran
  split_ifs at ran with empty same
  · cases ran
    exact ⟨empty.1, rfl, by simp [empty.2]⟩
  cases ran
  refine ⟨?_, rfl, by simp⟩
  simp only [sameFloats, decide_eq_true_eq] at same
  simpa using congrArg List.length same

theorem exists_opConcat_iff {first second : Table} :
    (∃ result, opConcat first second = .ok result) ↔
      (first.types.length = second.types.length ∧ second.rows = []) ∨
        sameFloats first.types second.types := by
  unfold opConcat
  split_ifs with empty same
  · simp [empty]
  · simp [same]
  · simp [empty, same]

theorem opConcat_within {first second result first' second' : Table}
    (ran : opConcat first second = .ok result) (inFirst : Within first' first)
    (inSecond : Within second' second) :
    ∃ result', opConcat first' second' = .ok result' ∧ Within result' result := by
  obtain ⟨result', ran'⟩ : ∃ result', opConcat first' second' = .ok result' := by
    rw [exists_opConcat_iff, inFirst.types, inSecond.types]
    refine (exists_opConcat_iff.mp ⟨result, ran⟩).imp_left fun empty => ⟨empty.1, ?_⟩
    apply eq_nil_iff_forall_not_mem.mpr
    intro row member
    exact not_mem_nil (empty.2 ▸ inSecond.rows row member)
  obtain ⟨-, types, rows⟩ := opConcat_spec ran
  obtain ⟨-, types', rows'⟩ := opConcat_spec ran'
  refine ⟨result', ran', by rw [types', types, inFirst.types], ?_⟩
  intro row member
  rcases (rows' row).mp member with inside | inside
  · exact (rows row).mpr (.inl (inFirst.rows row inside))
  · exact (rows row).mpr (.inr (inSecond.rows row inside))

end Wirelog.SemiNaive

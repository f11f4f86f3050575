import Wirelog.Plan.Denotation
import Wirelog.Plan.Safety

/-!
# Filters on the right input of a join

The filters around a join's right child become one expression of the join: the byte code of
the first filter, then that of each further one with a bitwise and. At most 32 filters are
kept, and when one of them has no byte code the join gets no filter at all.

`passes_combined_iff` says when a row passes the combined filter: every filter has a value on
the row, the values have a bit in common, and no filter after the first needs the whole stack,
of which one entry holds the conjunction so far. `join_rightFilter_iff` compares that with the
conjunction of the filters, for every join that is translated.
-/

set_option autoImplicit false

namespace Wirelog.Plan

open Wirelog.IR Wirelog.Columnar Wirelog.Foundations List

section Stack

variable {machine : Machine} {row : Row}

/-! ## The height of the stack -/

theorem exprPush_cases (stack : List Value) (value : Value) :
    (stack.length < 64 ∧ exprPush stack value = value :: stack) ∨
      (64 ≤ stack.length ∧ exprPush stack value = stack) := by
  by_cases space : stack.length < 64
  · exact .inl ⟨space, if_pos space⟩
  · exact .inr ⟨by omega, if_neg space⟩

/-- What an operation leaves: an aggregate the stack as it is, every other one a value in place
of its operands. -/
theorem runOpcode_cases {op : PlanOpcode} {count : Nat} {stack result : List Value}
    (ran : runOpcode machine op count stack = .ok result) :
    ((∃ fn, op = .agg fn) ∧ result = stack) ∨
      ((∀ fn, op ≠ .agg fn) ∧ ∃ value, result = exprPush (stack.drop (op.arity count)) value) := by
  have replaced : ∀ found : Except ExprError Value,
      found.map (exprPush (stack.drop (op.arity count))) = .ok result →
      ∃ value, result = exprPush (stack.drop (op.arity count)) value := by
    intro found same
    cases found with
    | error failure => cases same
    | ok value => exact ⟨value, (Except.ok.inj same).symm⟩
  cases op with
  | agg fn =>
    refine .inl ⟨⟨fn, rfl⟩, ?_⟩
    cases fn with
    | avg => cases ran
    | _ => exact (Except.ok.inj ran).symm
  | _ =>
    simp only [runOpcode] at ran
    exact .inr ⟨fun fn => nofun, replaced _ ran⟩

/-- Where byte code leaves the stack: at most one entry higher and never empty; not higher at
all when entries were in use and there was not enough space above them. -/
structure Leaves (before after space : Nat) : Prop where
  upper : after ≤ before + 1
  lower : 1 ≤ after
  bounded : before ≤ 64 → after ≤ 64
  lost : 1 ≤ before → before ≤ 64 → 64 < before + space → after ≤ before

/-- Where a run of operands leaves the stack. -/
structure LeavesOperands (before after count space : Nat) : Prop where
  upper : after ≤ before + count
  lower : 1 ≤ count → 1 ≤ after
  bounded : before ≤ 64 → after ≤ 64
  lost : 1 ≤ before → before ≤ 64 → 64 < before + space → after + 1 ≤ before + count

theorem leaves_exprPush (stack : List Value) (value : Value) :
    Leaves stack.length (exprPush stack value).length 1 := by
  rcases exprPush_cases stack value with ⟨space, pushed⟩ | ⟨full, pushed⟩
  · rw [pushed, length_cons]
    exact ⟨by omega, by omega, by omega, by omega⟩
  · rw [pushed]
    exact ⟨by omega, by omega, by omega, by omega⟩

theorem leaves_map_exprPush {found : Except ExprError Value} {stack result : List Value}
    (ran : found.map (exprPush stack) = .ok result) : Leaves stack.length result.length 1 := by
  cases found with
  | error failure => cases ran
  | ok value =>
    cases ran
    exact leaves_exprPush stack value

/-- The height that byte code leaves the stack at. -/
def KeepsHeight (machine : Machine) (row : Row) (code : PlanExpr) : Prop :=
  ∀ stack result, code.balanced → runExpr machine row code stack = .ok result →
    Leaves stack.length result.length code.depth

variable {codes : List PlanExpr}

theorem leaves_runExprs (each : ∀ code ∈ codes, KeepsHeight machine row code) :
    ∀ stack result, PlanExpr.allBalanced codes → runExprs machine row codes stack = .ok result →
      LeavesOperands stack.length result.length codes.length (PlanExpr.operandsDepth codes) := by
  induction codes with
  | nil =>
    intro stack result _ ran
    cases ran
    simp only [PlanExpr.operandsDepth]
    exact ⟨by simp, by simp, id, by omega⟩
  | cons code rest ih =>
    intro stack result balanced ran
    simp only [PlanExpr.allBalanced, Bool.and_eq_true] at balanced
    obtain ⟨middle, first, later⟩ := bind_eq_ok_iff.mp ran
    have here := each code (by simp) stack middle balanced.1 first
    have there := ih (fun other member => each other (by simp [member])) middle result
      balanced.2 later
    have upper := here.upper
    have upper' := there.upper
    have lower := here.lower
    refine ⟨by simp only [length_cons]; omega, ?_,
      fun fits => there.bounded (here.bounded fits), ?_⟩
    · intro _
      cases rest with
      | nil =>
        cases later
        exact here.lower
      | cons next others => exact there.lower (by simp)
    · intro used fits full
      simp only [PlanExpr.operandsDepth, length_cons] at full ⊢
      by_cases lost : 64 < stack.length + code.depth
      · have stays := here.lost used fits lost
        omega
      -- the others lack the space above the first operand, or that one was lost already
      by_cases stays : middle.length ≤ stack.length
      · omega
      have lostLater := there.lost here.lower (here.bounded fits) (by omega)
      omega

/-- **The height of the stack**: balanced byte code leaves one value, or fewer entries than it
should where a value was lost. -/
theorem keepsHeight (code : PlanExpr) : KeepsHeight machine row code := by
  induction code using PlanExpr.induction with
  | var tag column =>
    intro stack result _ ran
    exact leaves_map_exprPush ran
  | constFloat bits =>
    intro stack result _ ran
    simp only [runExpr] at ran
    split_ifs at ran
    cases ran
    exact leaves_exprPush stack _
  | constInt value | constStr value | bool value =>
    intro stack result _ ran
    cases ran
    exact leaves_exprPush stack _
  | call op args ih =>
    intro stack result balanced ran
    simp only [PlanExpr.balanced, Bool.and_eq_true, decide_eq_true_eq] at balanced
    obtain ⟨middle, operands, last⟩ := bind_eq_ok_iff.mp ran
    have below := leaves_runExprs ih stack middle balanced.2 operands
    have upper := below.upper
    rcases runOpcode_cases last with ⟨⟨fn, rfl⟩, rfl⟩ | ⟨notAgg, value, rfl⟩
    · have one : args.length = 1 := balanced.1.symm
      refine ⟨by omega, below.lower (by omega), below.bounded, fun used fits full => ?_⟩
      have deep : 1 ≤ PlanExpr.operandsDepth args := by
        obtain ⟨only, rfl⟩ := length_eq_one_iff.mp one
        simp only [PlanExpr.operandsDepth]
        omega
      simp only [PlanExpr.depth] at full
      have fewer := below.lost used fits (by omega)
      omega
    · have arity : op.arity args.length = args.length := by
        cases op with
        | agg fn => exact absurd rfl (notAgg fn)
        | _ => exact balanced.1
      have pushed := leaves_exprPush (middle.drop (op.arity args.length)) value
      rw [length_drop, arity] at pushed
      have upper' := pushed.upper
      rw [arity]
      refine ⟨by omega, pushed.lower, ?_, ?_⟩
      · intro fits
        have bounded := below.bounded fits
        exact pushed.bounded (by omega)
      · intro used fits full
        simp only [PlanExpr.depth] at full
        by_cases lost : 64 < stack.length + PlanExpr.operandsDepth args
        · have fewer := below.lost used fits lost
          omega
        · have bounded := pushed.bounded (by omega)
          omega

/-! ## The conjunction of filters -/

/-- Balanced byte code leaves one entry on an empty stack. -/
theorem exists_singleton_of_runExpr {code : PlanExpr} (balanced : code.balanced)
    {result : List Value} (ran : runExpr machine row code [] = .ok result) :
    ∃ value, result = [value] := by
  have leaves := keepsHeight code [] result balanced ran
  have upper := leaves.upper
  have lower := leaves.lower
  simp only [length_nil] at upper
  exact length_eq_one_iff.mp (by omega)

/-- The conjunction of two filters, as the byte code of the second and a bitwise and that
follow the byte code of the first. -/
def conjoin (first second : PlanExpr) : PlanExpr := .call (.arith .band) [first, second]

variable {first second : PlanExpr}

theorem balanced_conjoin (here : first.balanced) (there : second.balanced) :
    (conjoin first second).balanced := by
  simp [conjoin, PlanExpr.balanced, PlanExpr.allBalanced, PlanOpcode.operands, PlanOpcode.arity,
    arithArity, here, there]

theorem runExpr_conjoin (first second : PlanExpr) :
    runExpr machine row (conjoin first second) [] =
      (runExpr machine row first []).bind fun stack =>
        (runExpr machine row second stack).bind (runOpcode machine (.arith .band) 2) := by
  rw [conjoin, runExpr, runExprs]
  cases runExpr machine row first [] with
  | error failure => rfl
  | ok stack =>
    simp only [Except.bind, runExprs, length_cons, length_nil]
    cases runExpr machine row second stack <;> rfl

/-- A second filter that leaves an entry of the stack free is joined by a bitwise and. -/
theorem evalExpr_conjoin (here : first.balanced) (there : second.balanced)
    (fits : second.depth ≤ 63) :
    evalExpr machine row (conjoin first second) =
      (evalExpr machine row first).bind fun left =>
        (evalExpr machine row second).map fun right => left &&& right := by
  rw [evalExpr, runExpr_conjoin, evalExpr, evalExpr]
  cases ran : runExpr machine row first [] with
  | error failure => rfl
  | ok result =>
    obtain ⟨value, rfl⟩ := exists_singleton_of_runExpr here ran
    have pushes : PushesValue machine row second := pushesValue second
    have above := pushes [value] there (by simp only [length_singleton]; omega)
    have alone := pushes [] there (by simp only [length_nil]; omega)
    simp only [Except.bind, Except.map, headD_cons]
    rw [above, alone]
    cases second.value machine row <;> rfl

/-- A second filter that needs the whole stack consumes the conjunction so far, and nothing
passes any more. -/
theorem evalExpr_conjoin_lost {cell : Cell} (here : first.balanced) (there : second.balanced)
    (deep : 63 < second.depth) (found : evalExpr machine row (conjoin first second) = .ok cell) :
    cell = 0 := by
  rw [evalExpr, runExpr_conjoin] at found
  cases ran : runExpr machine row first [] with
  | error failure =>
    rw [ran] at found
    cases found
  | ok result =>
    obtain ⟨value, rfl⟩ := exists_singleton_of_runExpr here ran
    simp only [ran, Except.bind] at found
    cases ran' : runExpr machine row second [value] with
    | error failure =>
      rw [ran'] at found
      cases found
    | ok after =>
      have leaves := keepsHeight second [value] after there ran'
      have few := leaves.lost (by simp) (by simp) (by simp only [length_singleton]; omega)
      have lower := leaves.lower
      obtain ⟨other, rfl⟩ := length_eq_one_iff.mp
        (by simp only [length_singleton] at few; omega : after.length = 1)
      rw [ran'] at found
      -- the bitwise and takes a zero for the operand that is missing
      have zero : (0 : Cell) &&& other.cell = cell := Except.ok.inj found
      rw [← zero]
      exact BitVec.zero_and

theorem foldl_and_zero (cells : List Cell) : cells.foldl (· &&& ·) (0 : Cell) = 0 := by
  induction cells with
  | nil => rfl
  | cons cell rest ih =>
    have zero : (0 : Cell) &&& cell = 0 := BitVec.zero_and
    rw [foldl_cons, zero, ih]

/-- The values of filters on a row have a bit in common. -/
def ShareBit (machine : Machine) (row : Row) (codes : List PlanExpr) : Prop :=
  ∃ cells, codes.mapM (evalExpr machine row) = .ok cells ∧
    cells.foldl (· &&& ·) (BitVec.allOnes 64) ≠ 0

theorem passes_foldl_conjoin_iff {rest : List PlanExpr} :
    ∀ {first : PlanExpr}, first.balanced → (∀ code ∈ rest, code.balanced) →
      (passes machine (rest.foldl conjoin first) row ↔
        (∀ code ∈ rest, code.depth ≤ 63) ∧ ∃ cell, evalExpr machine row first = .ok cell ∧
          ∃ cells, rest.mapM (evalExpr machine row) = .ok cells ∧
            cells.foldl (· &&& ·) cell ≠ 0) := by
  induction rest with
  | nil =>
    intro first _ _
    rw [foldl_nil, passes]
    cases evalExpr machine row first with
    | error failure => simp
    | ok cell =>
      have nothing : ([] : List PlanExpr).mapM (evalExpr machine row) = .ok [] := rfl
      simp [nothing]
  | cons code rest ih =>
    intro first here each
    have there : code.balanced := each code (by simp)
    rw [foldl_cons, ih (balanced_conjoin here there) fun other member =>
      each other (by simp [member])]
    simp only [forall_mem_cons, mapM_cons_eq_ok_iff]
    by_cases fits : code.depth ≤ 63
    · rw [evalExpr_conjoin here there fits]
      constructor
      · rintro ⟨others, joined, found, cells, traversed, bit⟩
        obtain ⟨left, atFirst, later⟩ := bind_eq_ok_iff.mp found
        cases atCode : evalExpr machine row code with
        | error failure => simp [atCode, Except.map] at later
        | ok right =>
          simp only [atCode, Except.map, Except.ok.injEq] at later
          subst later
          exact ⟨⟨fits, others⟩, left, atFirst, _, ⟨right, rfl, cells, traversed, rfl⟩, bit⟩
      · rintro ⟨⟨-, others⟩, left, atFirst, _, ⟨right, atCode, cells, traversed, rfl⟩, bit⟩
        refine ⟨others, left &&& right, ?_, cells, traversed, bit⟩
        rw [atFirst, atCode]
        rfl
    · constructor
      · rintro ⟨-, joined, found, cells, -, bit⟩
        have zero := evalExpr_conjoin_lost here there (by omega) found
        exact absurd (zero ▸ foldl_and_zero cells) bit
      · rintro ⟨⟨fits', -⟩, -⟩
        exact absurd fits' fits

/-- Whether a row passes a filter of a right input; without one every row does. -/
def acceptsRight (machine : Machine) (rightFilter : Option PlanExpr) (row : Row) : Bool :=
  match rightFilter with
  | none => true
  | some code => passes machine code row

/-- **Combined filters**: a row passes them when their values have a bit in common and no
filter after the first needs the whole stack. -/
theorem passes_combined_iff (balanced : ∀ code ∈ codes, code.balanced) :
    acceptsRight machine (combineFilters codes) row ↔
      ShareBit machine row codes ∧ ∀ code ∈ codes.tail, code.depth ≤ 63 := by
  cases codes with
  | nil =>
    refine ⟨fun _ => ⟨⟨[], rfl, ?_⟩, by simp⟩, fun _ => rfl⟩
    decide
  | cons first rest =>
    have joined : acceptsRight machine (combineFilters (first :: rest)) row =
        passes machine (rest.foldl conjoin first) row := rfl
    rw [joined, passes_foldl_conjoin_iff (balanced first (by simp)) fun code member =>
      balanced code (by simp [member])]
    simp only [ShareBit, mapM_cons_eq_ok_iff, tail_cons]
    constructor
    · rintro ⟨fits, cell, atFirst, cells, traversed, bit⟩
      refine ⟨⟨_, ⟨cell, atFirst, cells, traversed, rfl⟩, ?_⟩, fits⟩
      rwa [foldl_cons, BitVec.allOnes_and]
    · rintro ⟨⟨_, ⟨cell, atFirst, cells, traversed, rfl⟩, bit⟩, fits⟩
      rw [foldl_cons, BitVec.allOnes_and] at bit
      exact ⟨fits, cell, atFirst, cells, traversed, bit⟩

/-- Filters with a bit in common each have a value other than zero. -/
theorem passes_of_shareBit (shared : ShareBit machine row codes) :
    ∀ code ∈ codes, passes machine code row := by
  obtain ⟨cells, traversed, bit⟩ := shared
  have nonzero : ∀ (cells : List Cell) (start : Cell),
      cells.foldl (· &&& ·) start ≠ 0 → ∀ cell ∈ cells, cell ≠ 0 := by
    intro cells
    induction cells with
    | nil => simp
    | cons cell rest ih =>
      intro start bit other member zero
      rw [foldl_cons] at bit
      rcases mem_cons.mp member with rfl | later
      · have gone : start &&& (0 : Cell) = 0 := BitVec.and_zero
        rw [zero, gone, foldl_and_zero] at bit
        exact bit rfl
      · exact ih _ bit other later zero
  intro code member
  obtain ⟨cell, inCells, found⟩ : ∃ cell ∈ cells, evalExpr machine row code = .ok cell := by
    have related := mapM_eq_ok_iff.mp traversed
    obtain ⟨i, bound, rfl⟩ := getElem_of_mem member
    have inside : i < cells.length := related.length_eq ▸ bound
    exact ⟨cells[i], getElem_mem inside, related.get bound inside⟩
  rw [passes, found]
  simpa using nonzero cells _ bit cell inCells

end Stack

/-! ## Joins -/

section Joins

variable (machine : Machine) (row : Row)

/-- The filters around a right child, outermost first. -/
def filterChain (right : IrNode) : List IrExpr := (unwrapFilters right).1

/-- The columns that the filters around a right child are resolved against. -/
def baseLayout (right : IrNode) : Layout := (collectOutputColumns (unwrapFilters right).2).getD []

/-- A filter accepts a row: it has byte code, which has a value other than zero on the row. -/
def Accepts (layout : Layout) (expr : IrExpr) : Prop :=
  ∃ code, serializeExpr none layout false expr = some code ∧ passes machine code row

/-- A right filter stands for the filters around the right child: it accepts the rows that all
of them accept, and it is absent only where there are none. -/
def StandsFor (right : IrNode) (rightFilter : Option PlanExpr) : Prop :=
  (acceptsRight machine rightFilter row ↔
    ∀ expr ∈ filterChain right, Accepts machine row (baseLayout right) expr) ∧
  (rightFilter = none → filterChain right = [])

/-- What it takes for the filters around a right child to become one: the first 32 have byte
code; if all filters accept the row, the values of the first 32 have a bit in common and those
after the first leave an entry of the stack free; and if this is so, the filters beyond the
32nd accept the row. -/
structure Conjoinable (right : IrNode) (codes : List PlanExpr) : Prop where
  serialized : serializeExprs none (baseLayout right) false ((filterChain right).take 32) =
    some codes
  conjoined : (∀ expr ∈ filterChain right, Accepts machine row (baseLayout right) expr) →
    ShareBit machine row codes ∧ ∀ expr ∈ ((filterChain right).take 32).tail, stackDepth expr ≤ 63
  beyond : ShareBit machine row codes →
    (∀ expr ∈ ((filterChain right).take 32).tail, stackDepth expr ≤ 63) →
    ∀ expr ∈ (filterChain right).drop 32, Accepts machine row (baseLayout right) expr

variable {machine row}

variable {exprs : List IrExpr} {codes : List PlanExpr} {layout : Layout}

theorem forall_depth_iff (related : List.Forall₂
      (fun expr code => serializeExpr none layout false expr = some code) exprs codes)
    (formed : ∀ expr ∈ exprs, operandsMatch expr) :
    (∀ code ∈ codes, code.depth ≤ 63) ↔ ∀ expr ∈ exprs, stackDepth expr ≤ 63 := by
  induction related with
  | nil => simp
  | cons here _ ih =>
    simp only [forall_mem_cons] at formed ⊢
    rw [(codesWell _ false _ here formed.1).2, ih formed.2]

section

variable (serialized : serializeExprs none layout false exprs = some codes)

include serialized

theorem forall_tail_depth_iff (formed : ∀ expr ∈ exprs, operandsMatch expr) :
    (∀ code ∈ codes.tail, code.depth ≤ 63) ↔ ∀ expr ∈ exprs.tail, stackDepth expr ≤ 63 := by
  cases forall₂_serializeExprs serialized with
  | nil => simp
  | cons _ rest => exact forall_depth_iff rest (forall_mem_cons.mp formed).2

theorem balanced_of_serializeExprs (formed : ∀ expr ∈ exprs, operandsMatch expr) :
    ∀ code ∈ codes, code.balanced := by
  have related := forall₂_serializeExprs serialized
  clear serialized
  induction related with
  | nil => simp
  | cons here _ ih =>
    simp only [forall_mem_cons] at formed ⊢
    exact ⟨(codesWell _ false _ here formed.1).1, ih formed.2⟩

/-- Filters with byte code accept a row when their byte code does. -/
theorem forall_accepts (accepted : ∀ code ∈ codes, passes machine code row) :
    ∀ expr ∈ exprs, Accepts machine row layout expr := by
  have related := forall₂_serializeExprs serialized
  clear serialized
  induction related with
  | nil => simp
  | cons here _ ih =>
    simp only [forall_mem_cons] at accepted ⊢
    exact ⟨⟨_, here, accepted.1⟩, ih accepted.2⟩

end

/-- Byte code for several expressions is there when each of them has some. -/
theorem exists_serializeExprs (each : ∀ expr ∈ exprs, Accepts machine row layout expr) :
    ∃ codes, serializeExprs none layout false exprs = some codes := by
  rw [← Option.isSome_iff_exists, serializeExprs, writeExprs_eq_mapM, isSome_mapM_iff]
  intro expr member
  obtain ⟨code, here, -⟩ := each expr member
  exact Option.isSome_iff_exists.mpr ⟨code, here⟩

/-- The filter of a right child stands for its filters exactly when they can be conjoined. -/
theorem standsFor_iff {right : IrNode} {base : IrNode} {rightFilter : Option PlanExpr}
    (collected : unwrapFiltersCollect right = some (base, rightFilter))
    (formed : ∀ expr ∈ (filterChain right).take 32, operandsMatch expr) :
    StandsFor machine row right rightFilter ↔ ∃ codes, Conjoinable machine row right codes := by
  have filterEq : rightFilter = (serializeExprs none (baseLayout right) false
      ((filterChain right).take 32)).bind combineFilters := by
    simp only [unwrapFiltersCollect] at collected
    split_ifs at collected
    cases collected
    rfl
  have split : (∀ expr ∈ filterChain right, Accepts machine row (baseLayout right) expr) ↔
      (∀ expr ∈ (filterChain right).take 32, Accepts machine row (baseLayout right) expr) ∧
        ∀ expr ∈ (filterChain right).drop 32, Accepts machine row (baseLayout right) expr := by
    rw [← forall_mem_append, take_append_drop]
  cases serialized : serializeExprs none (baseLayout right) false ((filterChain right).take 32) with
  | none =>
    -- a filter without byte code accepts nothing, and the absent filter accepts the row
    have absent : rightFilter = none := by rw [filterEq, serialized]; rfl
    constructor
    · rintro ⟨accepts, -⟩
      have every := (split.mp (accepts.mp (by rw [absent]; rfl))).1
      obtain ⟨codes, found⟩ := exists_serializeExprs every
      rw [serialized] at found
      cases found
    · rintro ⟨codes, conjoinable⟩
      have found := conjoinable.serialized
      rw [serialized] at found
      cases found
  | some codes =>
    have combined : rightFilter = combineFilters codes := by rw [filterEq, serialized]; rfl
    have accepted : acceptsRight machine (combineFilters codes) row ↔ _ :=
      passes_combined_iff (balanced_of_serializeExprs serialized formed)
    rw [forall_tail_depth_iff serialized formed, ← combined] at accepted
    have present : rightFilter = none → filterChain right = [] := by
      intro absent
      have length := (forall₂_serializeExprs serialized).length_eq.symm
      rw [combined] at absent
      cases codes with
      | nil =>
        rw [length_nil, length_take] at length
        exact length_eq_zero_iff.mp (by omega)
      | cons first rest => cases absent
    rw [StandsFor, accepted]
    constructor
    · rintro ⟨accepts, -⟩
      exact ⟨codes, serialized, accepts.mpr, fun shared fits =>
        (split.mp (accepts.mp ⟨shared, fits⟩)).2⟩
    · rintro ⟨others, found, conjoined, beyond⟩
      cases serialized.symm.trans found
      refine ⟨⟨?_, conjoined⟩, present⟩
      rintro ⟨shared, fits⟩
      exact split.mpr ⟨forall_accepts serialized (passes_of_shareBit shared), beyond shared fits⟩

/-- **Right filters of joins**: for every join that is translated, the filter that the plan has
for the right child stands for the filters around it exactly when these can be conjoined. -/
theorem join_rightFilter_iff {snapshot : Option Snapshot} {op : IrOp} {left right : IrNode}
    {others : List IrNode} {ops : List PlanOp} (isJoin : op.type = .join)
    (translated : translateIrNode snapshot (.mk op (left :: right :: others)) = some ops)
    (formed : ∀ expr ∈ (filterChain right).take 32, operandsMatch expr) :
    ∃ rel leftKeys rightKeys rightFilter,
      ops.getLast? = some (.join rel leftKeys rightKeys rightFilter) ∧
        (StandsFor machine row right rightFilter ↔
          ∃ codes, Conjoinable machine row right codes) := by
  simp only [translateIrNode, isJoin, do_eq_some_iff, pure_eq_some_iff] at translated
  obtain ⟨below, -, own, translatedOwn, rfl⟩ := translated
  simp only [translateOp, isJoin, do_eq_some_iff, pure_eq_some_iff, List.getElem?_cons_succ,
    List.getElem?_cons_zero, Option.mapM_some, Option.map_eq_map, Option.map_eq_some_iff]
    at translatedOwn
  obtain ⟨_, ⟨input, found, rfl⟩, keys, -, rfl⟩ := translatedOwn
  simp only [rightInput, do_eq_some_iff, pure_eq_some_iff] at found
  obtain ⟨collected, unwrapped, rel, -, rfl⟩ := found
  refine ⟨some rel, keys.1, keys.2, collected.2, ?_, ?_⟩
  · simp
  · exact standsFor_iff unwrapped formed

end Joins

/-- A scan of `e(x, 7)`, where the columns of `e` are integers. -/
def sevenScan : IrNode :=
  wrapFilter (.mk { type := .scan, relationName := some "e", columnNames := [some "x", none],
                    columnTypes := [.scalar, .scalar] } []) (columnCmp 1 (.constInt 7))

/-- A scan of `a(x)`. -/
def unaryScan : IrNode :=
  .mk { type := .scan, relationName := some "a", columnNames := [some "x"],
        columnTypes := [.scalar] } []

theorem join_rightFilter_iff_sevenScan :
    ∃ rel leftKeys rightKeys rightFilter,
      [PlanOp.variable (some "a"), .join (some "e") [0] [0]
          (some (.call (.cmp .eq) [.var .plain 1, .constInt 7]))].getLast? =
        some (.join rel leftKeys rightKeys rightFilter) ∧
      (StandsFor plainMachine ⟨[1, 7]⟩ sevenScan rightFilter ↔
        ∃ codes, Conjoinable plainMachine ⟨[1, 7]⟩ sevenScan codes) :=
  join_rightFilter_iff
    (rfl : ({ type := .join, joinLeftKeys := ["x"], joinRightKeys := ["x"] } : IrOp).type = .join)
    (rfl : translateIrNode none (.mk _ [unaryScan, sevenScan]) = some _)
    (by simp [filterChain, sevenScan, wrapFilter, unwrapFilters, unwrapFilter, columnCmp,
      operandsMatch, allOperandsMatch])

/-- A program where the second column of `b` holds floats. -/
def ratedProgram : Program :=
  ⟨[⟨"a", true, [{ type := .int64 }]⟩, ⟨"b", true, [{ type := .int64 }, { type := .float }]⟩,
    ⟨"p", true, [{ type := .int64 }]⟩], fun _ => none⟩

/-- `p(x) :- a(x), b(x, 7).` -/
def ratedRule : RuleNode :=
  ⟨"p", [.variable "x"], [.atom "a" [.variable "x"], .atom "b" [.variable "x", .integer 7]]⟩

/-- The scan of `b(x, 7)` with its filter. -/
def ratedScan : IrNode := (buildAtomScan ratedProgram 1 "b" [.variable "x", .integer 7]).node

/-- The comparison of a float with an integer has no byte code, and the join of the rule gets no
filter: it accepts every row of `b`. -/
theorem ratedRule_loses_filter :
    (∃ head join left, convertRule ratedProgram ratedRule =
      .ok (.mk head [.mk join [left, ratedScan]])) ∧
      (∃ later, planRule ratedProgram none ratedRule =
        some (.variable (some "a") :: .join (some "b") [0] [0] none :: later)) ∧
      filterChain ratedScan = [columnCmp 1 (.constInt 7)] ∧
      serializeExpr none (baseLayout ratedScan) false (columnCmp 1 (.constInt 7)) = none ∧
      ¬ StandsFor plainMachine ⟨[1, 0]⟩ ratedScan none := by
  have failed : serializeExpr none (baseLayout ratedScan) false (columnCmp 1 (.constInt 7)) =
      none := rfl
  refine ⟨⟨_, _, _, rfl⟩, ⟨_, rfl⟩, rfl, failed, ?_⟩
  rintro ⟨accepts, -⟩
  obtain ⟨code, found, -⟩ := accepts.mp rfl (columnCmp 1 (.constInt 7)) (mem_singleton.mpr rfl)
  rw [failed] at found
  cases found

end Wirelog.Plan

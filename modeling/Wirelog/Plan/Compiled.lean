import Wirelog.Plan.ExprValue

/-!
# Compiled expressions

A filter compiles its buffer once, into instructions whose columns and constants are already
read, and runs them on every row with a stack of cells. The compiler gives up on a buffer with
strings, digests, extensions or names that are not `col` and a number.

An instruction does to the cells of the interpreter's stack what the interpreter does for the
bytes it was compiled from (`compileToken_simulates`), so a buffer that is compiled has the same
value and the same failures on every row as in the interpreter (`evalCompiled_eq_evalRun`).
-/

set_option autoImplicit false

namespace Wirelog.Plan

open Wirelog.IR Wirelog.Columnar Wirelog.Foundations

/-! ## The compiler -/

/-- `expr_instr_t`: a byte, the column of a variable, and the value of a constant. -/
structure ExprInstr where
  op : UInt8
  iarg : Nat := 0
  larg : Cell := 0
  deriving DecidableEq

/-- `wl_columnar_expr_parse_var_col`: the byte of a plain variable, and a name of `col` and one
to nine decimal digits. -/
def parseVarCol : List UInt8 → Option (Nat × List UInt8)
  | 0x01 :: rest => (readCounted 2 rest).bind fun field =>
    match field.1 with
    | 99 :: 111 :: 108 :: digits =>
      if digits ≠ [] ∧ digits.length ≤ 9 ∧ ∀ byte ∈ digits, 48 ≤ byte && byte ≤ 57 then
        some (leadingDigits digits, field.2)
      else none
    | _ => none
  | _ => none

/-- The operations without payload that the compiler supports. -/
def compiles : PlanOpcode → Bool
  | .arith .add | .arith .sub | .arith .mul | .arith .div | .arith .mod | .arith .band
  | .arith .bor | .arith .bxor | .arith .bnot | .arith .shl | .arith .shr
  | .arithFloat .add | .arithFloat .sub | .arithFloat .mul | .arithFloat .div
  | .cmp _ | .cmpFloat _ | .cmpStr _
  | .agg .count | .agg .sum | .agg .min | .agg .max => true
  | _ => false

/-- The instruction at the start of some bytes and what follows it. Both passes of the compiler
read these: the first counts them and gives up where there is none, the second stores them. -/
def compileToken : List UInt8 → Option (ExprInstr × List UInt8)
  | [] => none
  | tag :: rest =>
    match tag.toNat with
    | 0x01 | 0x05 => (parseVarCol (tag :: rest)).map fun found => (⟨tag, found.1, 0⟩, found.2)
    | 0x02 | 0x06 => (readNat 8 rest).map fun found =>
      (⟨tag, 0, BitVec.ofNat 64 found.1⟩, found.2)
    | 0x04 => (readNat 1 rest).map fun found => (⟨tag, 0, if found.1 ≠ 0 then 1 else 0⟩, found.2)
    | _ => ((opcodeOf tag).filter compiles).map fun _ => (⟨tag, 0, 0⟩, rest)

/-- The instructions of a buffer. Every round consumes a byte. -/
def compileTokens : Nat → List UInt8 → Option (List ExprInstr)
  | _, [] => some []
  | 0, _ :: _ => none
  | rounds + 1, byte :: rest =>
    (compileToken (byte :: rest)).bind fun token =>
      (compileTokens rounds token.2).map (token.1 :: ·)

/-- `wl_columnar_expr_compile`: nothing for an empty buffer or without memory. -/
def compileExpr (granted : Bool) (bytes : List UInt8) : Option (List ExprInstr) :=
  (compileTokens bytes.length bytes).filter fun instrs => granted && !instrs.isEmpty

/-! ## The evaluator -/

/-- `expr_push`, of a cell alone. -/
def pushCell (stack : List Cell) (cell : Cell) : List Cell :=
  if stack.length < 64 then cell :: stack else stack

variable (outside : Outside)

/-- The operations on two operands. -/
def compiledOp (a b : Cell) : PlanOpcode → Except ExprError Cell
  | .arith .add => numeric (checkedAddInt64 a.toInt b.toInt)
  | .arith .sub => numeric (checkedSubInt64 a.toInt b.toInt)
  | .arith .mul => numeric (checkedMulInt64 a.toInt b.toInt)
  | .arith .div => numeric (checkedDivInt64 a.toInt b.toInt)
  | .arith .mod => numeric (checkedModInt64 a.toInt b.toInt)
  | .arith .band => .ok (a &&& b)
  | .arith .bor => .ok (a ||| b)
  | .arith .bxor => .ok (a ^^^ b)
  | .arith .shl => numericCell (checkedShlInt64 a b.toInt)
  | .arith .shr => numericCell (checkedShrInt64 a b.toInt)
  | .arithFloat op => outside.finiteArith op a b
  | .cmp op => .ok (if cmpCells op a b then 1 else 0)
  | .cmpFloat op =>
    if floatBitsValid a ∧ floatBitsValid b then .ok (if cmpFloats op a b then 1 else 0)
    else .error .malformed
  | .cmpStr op => .ok (if outside.cmpIds a b op then 1 else 0)
  | _ => .error .malformed

/-- Run an operation. Aggregates are skipped. -/
def runCompiledOp (stack : List Cell) : PlanOpcode → Except ExprError (List Cell)
  | .agg .count | .agg .sum | .agg .min | .agg .max => .ok stack
  | .arith .bnot => .ok (pushCell (stack.drop 1) (~~~ stack.getD 0 0))
  | op => (compiledOp outside (stack.getD 1 0) (stack.getD 0 0) op).map (pushCell (stack.drop 2))

def runInstr (row : Row) (stack : List Cell) (instr : ExprInstr) : Except ExprError (List Cell) :=
  match instr.op.toNat with
  | 0x01 => .ok (pushCell stack (cellAt row instr.iarg))
  | 0x05 =>
    if instr.iarg < row.cells.length ∧ floatBitsValid (cellAt row instr.iarg) then
      .ok (pushCell stack (cellAt row instr.iarg))
    else .error .malformed
  | 0x02 | 0x04 => .ok (pushCell stack instr.larg)
  | 0x06 => if floatBitsValid instr.larg then .ok (pushCell stack instr.larg) else .error .malformed
  | _ => match opcodeOf instr.op with
    | some op => runCompiledOp outside stack op
    | none => .error .malformed

/-- `wl_columnar_expr_eval_compiled`. -/
def evalCompiled (row : Row) (instrs : List ExprInstr) : Except ExprError Cell :=
  (instrs.foldlM (runInstr outside row) []).map fun stack => stack.headD 0

/-! ## Simulation -/

variable (stack : List Value)

def cells : List Cell := stack.map Value.cell

theorem cells_exprPush (value : Value) :
    cells (exprPush stack value) = pushCell (cells stack) value.cell := by
  unfold exprPush pushCell cells
  rw [List.length_map]
  split_ifs <;> rfl

theorem getD_cells (i : Nat) : (cells stack).getD i 0 = (stack.getD i ⟨0, .int64⟩).cell :=
  List.getD_map stack ⟨0, .int64⟩ Value.cell

theorem map_cell_map (result : Except ExprError Cell) :
    (result.map fun cell => (⟨cell, .int64⟩ : Value)).map Value.cell = result := by
  cases result <;> rfl

/-- The interpreter runs an instruction as the evaluator runs the compiled one. -/
def Simulates (row : Row) (instr : ExprInstr) (decoded : Instr) : Prop :=
  ∀ stack, (execInstr (interpreterMachine outside) row decoded stack).map cells =
    runInstr outside row (cells stack) instr

section Steps

variable (outside : Outside) (row : Row) {op : PlanOpcode}

/-- Two operands give the same result. -/
theorem applyOp_two (supported : compiles op) (a b : Value) :
    (applyOp (interpreterMachine outside) op [a, b]).map Value.cell =
      compiledOp outside a.cell b.cell op := by
  cases op with
  | arith op => cases op <;> first | rfl | exact map_cell_map _
  | arithFloat op => exact map_cell_map _
  | cmp | cmpStr | agg => rfl
  | cmpFloat op =>
    rw [applyOp, compiledOp]
    by_cases valid : floatBitsValid a.cell ∧ floatBitsValid b.cell
    · rw [if_pos valid, if_pos valid]
      rfl
    · rw [if_neg valid, if_neg valid]
      rfl
  | digest | strFn | extensionCall => cases supported

/-- Two operands are replaced by the result. -/
theorem replaceTwo (supported : compiles op) (stack : List Value) :
    ((applyOp (interpreterMachine outside) op (exprPop 2 stack)).map
        (exprPush (stack.drop 2))).map cells =
      (compiledOp outside ((cells stack).getD 1 0) ((cells stack).getD 0 0) op).map
        (pushCell ((cells stack).drop 2)) := by
  have rest : (cells stack).drop 2 = cells (stack.drop 2) := List.map_drop.symm
  rw [rest, getD_cells, getD_cells, ← applyOp_two outside supported]
  change ((applyOp _ op [_, _]).map _).map cells = _
  cases applyOp (interpreterMachine outside) op _ with
  | error => rfl
  | ok value => exact congrArg Except.ok (cells_exprPush _ value)

/-- An operation does the same to the cells of the stack. -/
theorem runOpcode_compiled (supported : compiles op) (stack : List Value) :
    (runOpcode (interpreterMachine outside) op 0 stack).map cells =
      runCompiledOp outside (cells stack) op := by
  have two := replaceTwo outside supported stack
  cases op with
  | arith op =>
    cases op
    case bnot =>
      have rest : (cells stack).drop 1 = cells (stack.drop 1) := List.map_drop.symm
      rw [runCompiledOp, rest, getD_cells]
      exact congrArg Except.ok (cells_exprPush _ _)
    all_goals first | exact two | cases supported
  | arithFloat op => cases op <;> first | exact two | cases supported
  | cmp | cmpFloat | cmpStr => exact two
  | agg fn => cases fn <;> rfl
  | digest | strFn | extensionCall => cases supported

/-- The interpreter reads the column that the compiler found. -/
theorem parseVarCol_eq_some {tag : UInt8} {after rest : List UInt8} {col : Nat}
    (parsed : parseVarCol (tag :: after) = some (col, rest)) :
    tag = 1 ∧ ∃ name, decodeInstr (tag :: after) = .ok (.var .plain name, rest) ∧
      columnOfName name = col := by
  unfold parseVarCol at parsed
  split at parsed
  · rename_i same
    cases same
    obtain ⟨⟨name, left⟩, field, parsed⟩ := Option.bind_eq_some_iff.mp parsed
    simp only at parsed
    split at parsed
    · rename_i digits
      split_ifs at parsed with proper
      cases parsed
      obtain ⟨some, short, all⟩ := proper
      refine ⟨rfl, _, by rw [decodeInstr]; simp [field, required]; rfl, ?_⟩
      cases digits with
      | nil => exact absurd rfl some
      | cons digit digits =>
        have lower : 48 ≤ digit.toNat := by
          have bounds := all digit (by simp)
          simp only [Bool.and_eq_true, decide_eq_true_eq, UInt8.le_iff_toNat_le] at bounds
          exact bounds.1
        rw [columnOfName, List.take_of_length_le (by omega), strtol_of_digit lower]
    · cases parsed
  · cases parsed

theorem simulates_var {name : List UInt8} {col : Nat} (column : columnOfName name = col) :
    Simulates outside row ⟨1, col, 0⟩ (.var .plain name) := by
  intro stack
  have loaded : loadColumn (interpreterMachine outside) row .plain col =
      .ok ⟨cellAt row col, .int64⟩ := by
    rw [loadColumn]
    split_ifs with inside
    · rfl
    · have beyond : row.cells.length ≤ col := by omega
      rw [cellAt, List.getD_eq_default _ _ beyond]
    · exact absurd rfl ‹_›
  rw [execInstr, column, loaded]
  exact congrArg Except.ok (cells_exprPush stack _)

theorem simulates_op {tag : UInt8} (found : opcodeOf tag = some op) (supported : compiles op) :
    Simulates outside row ⟨tag, 0, 0⟩ (.op op) := by
  intro stack
  have run : runInstr outside row (cells stack) ⟨tag, 0, 0⟩ =
      runCompiledOp outside (cells stack) op := by
    unfold runInstr
    split
    case h_6 => rw [found]
    -- the bytes with a payload are no operations
    all_goals
      rename_i payload
      rw [opcodeOf, payload] at found
      cases found
  rw [run]
  exact runOpcode_compiled outside supported stack

/-- **One instruction**: the interpreter runs the bytes it was compiled from. -/
theorem compileToken_simulates {bytes rest : List UInt8} {instr : ExprInstr}
    (compiled : compileToken bytes = some (instr, rest)) :
    ∃ decoded, decodeInstr bytes = .ok (decoded, rest) ∧ Simulates outside row instr decoded := by
  cases bytes with
  | nil => cases compiled
  | cons tag after =>
    have ofVar : (parseVarCol (tag :: after)).map
        (fun found => ((⟨tag, found.1, 0⟩ : ExprInstr), found.2)) = some (instr, rest) →
        ∃ decoded, decodeInstr (tag :: after) = .ok (decoded, rest) ∧
          Simulates outside row instr decoded := by
      intro compiled
      obtain ⟨⟨col, left⟩, parsed, same⟩ := Option.map_eq_some_iff.mp compiled
      cases same
      obtain ⟨rfl, name, read, column⟩ := parseVarCol_eq_some parsed
      exact ⟨_, read, simulates_var outside row column⟩
    simp only [compileToken] at compiled
    split at compiled
    · exact ofVar compiled
    · exact ofVar compiled
    · rename_i byte
      obtain rfl : tag = 2 := UInt8.toNat_inj.mp byte
      obtain ⟨⟨value, left⟩, read, same⟩ := Option.map_eq_some_iff.mp compiled
      cases same
      refine ⟨.constInt (BitVec.ofNat 64 value), ?_, fun stack =>
        congrArg Except.ok (cells_exprPush stack _)⟩
      simp [decodeInstr, read, required, Except.map]
    · rename_i byte
      obtain rfl : tag = 6 := UInt8.toNat_inj.mp byte
      obtain ⟨⟨bits, left⟩, read, same⟩ := Option.map_eq_some_iff.mp compiled
      cases same
      refine ⟨.constFloat (BitVec.ofNat 64 bits), ?_, fun stack => ?_⟩
      · simp [decodeInstr, read, required, Except.map]
      · change (if _ then _ else _ : Except ExprError (List Value)).map cells = if _ then _ else _
        split_ifs with valid
        · exact congrArg Except.ok (cells_exprPush stack _)
        · rfl
    · rename_i byte
      obtain rfl : tag = 4 := UInt8.toNat_inj.mp byte
      obtain ⟨⟨value, left⟩, read, same⟩ := Option.map_eq_some_iff.mp compiled
      cases same
      refine ⟨.bool (value ≠ 0), ?_, fun stack => ?_⟩
      · simp [decodeInstr, read, required, Except.map]
      · refine congrArg Except.ok ((cells_exprPush stack _).trans ?_)
        simp
    · obtain ⟨op, found, same⟩ := Option.map_eq_some_iff.mp compiled
      cases same
      obtain ⟨found, supported⟩ := Option.filter_eq_some_iff.mp found
      exact ⟨.op op, decodeInstr_op _ found, simulates_op outside row found supported⟩

/-- **All instructions**, on the cells of any stack. -/
theorem compileTokens_simulates {rounds : Nat} {bytes : List UInt8} {instrs : List ExprInstr}
    (compiled : compileTokens rounds bytes = some instrs) (stack : List Value) :
    (runBytes (interpreterMachine outside) row rounds bytes stack).map cells =
      instrs.foldlM (runInstr outside row) (cells stack) := by
  induction rounds generalizing bytes instrs stack with
  | zero =>
    cases bytes with
    | nil =>
      cases compiled
      rfl
    | cons => cases compiled
  | succ rounds ih =>
    cases bytes with
    | nil =>
      cases compiled
      rfl
    | cons byte after =>
      obtain ⟨⟨instr, rest⟩, token, compiled⟩ := Option.bind_eq_some_iff.mp compiled
      obtain ⟨instrs, more, rfl⟩ := Option.map_eq_some_iff.mp compiled
      obtain ⟨decoded, read, simulates⟩ := compileToken_simulates outside row token
      rw [Nat.add_comm, runBytes_of_decoded rounds stack read, List.foldlM_cons, ← simulates]
      cases execInstr (interpreterMachine outside) row decoded stack with
      | error => rfl
      | ok next => exact ih more next

end Steps

/-- **Compiled expressions**: a buffer that is compiled has the value and the failures that it has
in the interpreter, on every row. -/
theorem evalCompiled_eq_evalRun (outside : Outside) (row : Row) {granted : Bool}
    {bytes : List UInt8} {instrs : List ExprInstr}
    (accepted : compileExpr granted bytes = some instrs) :
    evalCompiled outside row instrs = evalRun (interpreterMachine outside) row bytes := by
  have compiled := (Option.filter_eq_some_iff.mp accepted).1
  have same := compileTokens_simulates outside row compiled []
  rw [evalCompiled, evalRun, show ([] : List Cell) = cells [] from rfl, ← same]
  cases runBytes (interpreterMachine outside) row bytes.length bytes [] with
  | error => rfl
  | ok stack => cases stack <;> rfl

/-- `col1 + true`, on a row with a second column and on one without. -/
theorem evalCompiled_eq_evalRun_sum :
    evalCompiled plainOutside ⟨[3, 5]⟩ [⟨1, 1, 0⟩, ⟨4, 0, 1⟩, ⟨16, 0, 0⟩] = .ok 6 ∧
      evalCompiled plainOutside ⟨[3]⟩ [⟨1, 1, 0⟩, ⟨4, 0, 1⟩, ⟨16, 0, 0⟩] = .ok 1 := by
  have accepted : compileExpr true [1, 4, 0, 99, 111, 108, 49, 4, 1, 16] =
      some [⟨1, 1, 0⟩, ⟨4, 0, 1⟩, ⟨16, 0, 0⟩] := by decide +kernel
  rw [evalCompiled_eq_evalRun plainOutside ⟨[3, 5]⟩ accepted,
    evalCompiled_eq_evalRun plainOutside ⟨[3]⟩ accepted]
  exact ⟨rfl, rfl⟩

end Wirelog.Plan

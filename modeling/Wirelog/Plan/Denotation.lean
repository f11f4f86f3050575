import Wirelog.Plan.Eval
import Wirelog.Plan.RulePlan

/-!
# What byte code computes

Byte code as a tree has a value that needs no stack (`PlanExpr.value`). It is what the
interpreter leaves on a stack with enough space, when every operation has the operands it takes
(`pushesValue`). The byte code of an expression whose operations have their operands is of this
kind, and as deep as the expression (`codesWell`).
-/

set_option autoImplicit false

namespace Wirelog.Plan

open Wirelog.IR Wirelog.Columnar Wirelog.Foundations List

/-! ## Depth and operands -/

mutual

/-- How many entries of the stack an expression needs. -/
def stackDepth : IrExpr → Nat
  | .var _ | .constInt _ | .constFloat _ | .constStr _ | .bool _ => 1
  | .arith _ args | .cmp _ args | .agg _ args | .strFn _ args | .extensionCall _ args =>
    max 1 (operandsDepth args)

/-- How many entries of the stack operands need, the earlier ones being on it. -/
def operandsDepth : List IrExpr → Nat
  | [] => 0
  | expr :: rest => max (stackDepth expr) (1 + operandsDepth rest)

end

mutual

/-- Every operation of an expression has the operands it takes. -/
def operandsMatch : IrExpr → Bool
  | .var _ | .constInt _ | .constFloat _ | .constStr _ | .bool _ => true
  | .arith op args => args.length = arithArity op && allOperandsMatch args
  | .cmp _ args => args.length = 2 && allOperandsMatch args
  | .agg _ args => args.length = 1 && allOperandsMatch args
  | .strFn fn args => args.length = strFnArity fn && allOperandsMatch args
  | .extensionCall _ args => allOperandsMatch args

/-- Every operation of several expressions has the operands it takes. -/
def allOperandsMatch : List IrExpr → Bool
  | [] => true
  | expr :: rest => operandsMatch expr && allOperandsMatch rest

end

/-! ## Running operations -/

/-- The operands are on top of the stack, the last one first. -/
theorem exprPop_reverse_append (values stack : List Value) :
    exprPop values.length (values.reverse ++ stack) = values := by
  apply ext_getElem
  · simp [exprPop]
  · intro i bound bound'
    simp only [exprPop, getElem_reverse, getElem_map, getElem_range, length_map, length_range]
    rw [getD_eq_getElem?_getD, List.getElem?_append_left (by simp; omega),
      List.getElem?_reverse (by omega)]
    have position : values.length - 1 - (values.length - 1 - i) = i := by omega
    rw [position, List.getElem?_eq_getElem bound', Option.getD_some]

theorem exprPush_of_space {stack : List Value} (space : stack.length < 64) :
    exprPush stack = (· :: stack) := funext fun _ => if_pos space

/-- An operation replaces its operands by its result. -/
theorem runOpcode_of_arity {machine : Machine} {op : PlanOpcode} {count : Nat}
    {values : List Value} (notAgg : ∀ fn, op ≠ .agg fn) (arity : op.arity count = values.length)
    (stack : List Value) :
    runOpcode machine op count (values.reverse ++ stack) =
      (applyOp machine op values).map (exprPush stack) := by
  have operands := exprPop_reverse_append values stack
  have rest : (values.reverse ++ stack).drop values.length = stack := by
    rw [drop_left' (by simp)]
  unfold runOpcode
  cases op with
  | agg fn => exact absurd rfl (notAgg fn)
  | _ => simp only [arity, operands, rest]

/-! ## Byte code and its operands -/

/-- Induction over byte code: a property of the leaves that passes from the operands of a call
to the call holds of all byte code. -/
theorem PlanExpr.induction {motive : PlanExpr → Prop}
    (var : ∀ tag column, motive (.var tag column))
    (constInt : ∀ value, motive (.constInt value))
    (constFloat : ∀ bits, motive (.constFloat bits))
    (constStr : ∀ value, motive (.constStr value))
    (bool : ∀ value, motive (.bool value))
    (call : ∀ op args, (∀ arg ∈ args, motive arg) → motive (.call op args))
    (expr : PlanExpr) : motive expr :=
  @PlanExpr.rec motive (fun args => ∀ arg ∈ args, motive arg) var constInt constFloat constStr
    bool call (fun _ member => absurd member not_mem_nil)
    (fun _ _ first rest _ member => (mem_cons.mp member).elim (fun same => same ▸ first) (rest _))
    expr

/-- How many values have to be on the stack for an opcode. An aggregate does nothing in a row,
which leaves the value of its one operand. -/
def PlanOpcode.operands (count : Nat) : PlanOpcode → Nat
  | .agg _ => 1
  | op => op.arity count

mutual

/-- Every operation of the byte code has the operands it takes. -/
def PlanExpr.balanced : PlanExpr → Bool
  | .var _ _ | .constInt _ | .constFloat _ | .constStr _ | .bool _ => true
  | .call op args => op.operands args.length = args.length && PlanExpr.allBalanced args

def PlanExpr.allBalanced : List PlanExpr → Bool
  | [] => true
  | expr :: rest => expr.balanced && PlanExpr.allBalanced rest

end

mutual

/-- How many entries of the stack byte code needs. -/
def PlanExpr.depth : PlanExpr → Nat
  | .var _ _ | .constInt _ | .constFloat _ | .constStr _ | .bool _ => 1
  | .call _ args => max 1 (PlanExpr.operandsDepth args)

/-- How many entries of the stack operands need, the earlier ones being on it. -/
def PlanExpr.operandsDepth : List PlanExpr → Nat
  | [] => 0
  | expr :: rest => max expr.depth (1 + PlanExpr.operandsDepth rest)

end

section Value

variable {machine : Machine} {row : Row}

/-- Apply an operation to its operands, where an aggregate leaves its operand. -/
def applyCall (machine : Machine) (op : PlanOpcode) (operands : List Value) :
    Except ExprError Value :=
  match op with
  | .agg .avg => .error .malformed
  | .agg _ => .ok (operands.headD ⟨0, .int64⟩)
  | op => applyOp machine op operands

mutual

/-- The value of byte code, computed without a stack. -/
def PlanExpr.value (machine : Machine) (row : Row) : PlanExpr → Except ExprError Value
  | .var tag column => loadVar machine row tag column
  | .constInt value => .ok ⟨value, .int64⟩
  | .constFloat bits =>
    if floatBitsValid bits then .ok ⟨bits, .int64⟩ else .error .malformed
  | .constStr value => .ok ⟨machine.intern value, .string value⟩
  | .bool value => .ok ⟨if value then 1 else 0, .bool⟩
  | .call op args => (PlanExpr.values machine row args).bind (applyCall machine op)

def PlanExpr.values (machine : Machine) (row : Row) :
    List PlanExpr → Except ExprError (List Value)
  | [] => .ok []
  | expr :: rest => (expr.value machine row).bind fun value =>
    (PlanExpr.values machine row rest).map (value :: ·)

end

theorem PlanExpr.values_length {codes : List PlanExpr} {values : List Value}
    (found : PlanExpr.values machine row codes = .ok values) : values.length = codes.length := by
  induction codes generalizing values with
  | nil => cases found; rfl
  | cons code rest ih =>
    obtain ⟨value, -, later⟩ := bind_eq_ok_iff.mp found
    cases others : PlanExpr.values machine row rest with
    | error failure => simp [others, Except.map] at later
    | ok values =>
      simp only [others, Except.map, Except.ok.injEq] at later
      rw [← later, length_cons, length_cons, ih others]

theorem operands_eq_arity {op : PlanOpcode} {count : Nat} (notAgg : ∀ fn, op ≠ .agg fn) :
    op.operands count = op.arity count := by
  cases op with
  | agg fn => exact absurd rfl (notAgg fn)
  | _ => rfl

theorem applyCall_of_notAgg {op : PlanOpcode} (notAgg : ∀ fn, op ≠ .agg fn) :
    applyCall machine op = applyOp machine op := by
  cases op with
  | agg fn => exact absurd rfl (notAgg fn)
  | _ => rfl

theorem runOpcode_of_operands {op : PlanOpcode} {values stack : List Value}
    (operands : op.operands values.length = values.length) (space : stack.length < 64) :
    runOpcode machine op values.length (values.reverse ++ stack) =
      (applyCall machine op values).map (· :: stack) := by
  by_cases aggregate : ∃ fn, op = .agg fn
  · obtain ⟨fn, rfl⟩ := aggregate
    obtain ⟨only, rfl⟩ := length_eq_one_iff.mp operands.symm
    cases fn <;> rfl
  · have notAgg : ∀ fn, op ≠ .agg fn := fun fn same => aggregate ⟨fn, same⟩
    rw [operands_eq_arity notAgg] at operands
    rw [runOpcode_of_arity notAgg operands, applyCall_of_notAgg notAgg, exprPush_of_space space]

/-- With enough space on the stack, byte code pushes its value. -/
def PushesValue (machine : Machine) (row : Row) (code : PlanExpr) : Prop :=
  ∀ stack : List Value, code.balanced → stack.length + code.depth ≤ 64 →
    runExpr machine row code stack = (code.value machine row).map (· :: stack)

theorem runExprs_of_pushesValue {codes : List PlanExpr}
    (each : ∀ code ∈ codes, PushesValue machine row code) :
    ∀ stack : List Value, PlanExpr.allBalanced codes →
      stack.length + PlanExpr.operandsDepth codes ≤ 64 →
      runExprs machine row codes stack =
        (PlanExpr.values machine row codes).map (·.reverse ++ stack) := by
  induction codes with
  | nil =>
    intro stack _ _
    rfl
  | cons code rest ih =>
    intro stack balanced space
    simp only [PlanExpr.allBalanced, Bool.and_eq_true] at balanced
    simp only [PlanExpr.operandsDepth] at space
    rw [runExprs, PlanExpr.values, each code (by simp) stack balanced.1 (by omega)]
    cases code.value machine row with
    | error failure => rfl
    | ok value =>
      simp only [Except.map, Except.bind]
      rw [ih (fun other member => each other (by simp [member])) (value :: stack) balanced.2
        (by simp only [length_cons]; omega)]
      cases PlanExpr.values machine row rest <;> simp [Except.map]

theorem pushesValue (code : PlanExpr) : PushesValue machine row code := by
  induction code using PlanExpr.induction with
  | var tag column =>
    intro stack _ space
    rw [runExpr, PlanExpr.value, exprPush_of_space space]
  | constInt value | constStr value | bool value =>
    intro stack _ space
    rw [runExpr, PlanExpr.value, exprPush_of_space space]
    rfl
  | constFloat bits =>
    intro stack _ space
    rw [runExpr, PlanExpr.value, exprPush_of_space space]
    split <;> rfl
  | call op args ih =>
    intro stack balanced space
    simp only [PlanExpr.balanced, Bool.and_eq_true, decide_eq_true_eq] at balanced
    simp only [PlanExpr.depth] at space
    rw [runExpr, PlanExpr.value, runExprs_of_pushesValue ih stack balanced.2 (by omega)]
    cases found : PlanExpr.values machine row args with
    | error failure => rfl
    | ok values =>
      have length := PlanExpr.values_length found
      simp only [Except.map, Except.bind]
      rw [← length]
      exact runOpcode_of_operands (by rw [length]; exact balanced.1) (by omega)

end Value

/-! ## Serialized expressions -/

section Code

variable {snapshot : Option Snapshot} {layout : Layout} {expr : IrExpr} {args : List IrExpr}
  {code : PlanExpr} {codes : List PlanExpr}
  {op : PlanOpcode} {extensionArg : Bool}

theorem arithToTag_arity {op : ArithOp} {t0 t1 : ColType} {tag : PlanOpcode} (count : Nat)
    (found : arithToTag op t0 t1 = some tag) :
    tag.arity count = arithArity op ∧ ∀ fn, tag ≠ .agg fn := by
  unfold arithToTag at found
  split_ifs at found
  · cases found
    exact ⟨rfl, fun fn => nofun⟩
  · cases op <;> cases found <;> exact ⟨rfl, fun fn => nofun⟩
  · cases found
    exact ⟨rfl, fun fn => nofun⟩

theorem cmpToTag_arity (op : CmpOp) (lhs rhs : ColType) (count : Nat) :
    (cmpToTag op lhs rhs).arity count = 2 ∧ ∀ fn, cmpToTag op lhs rhs ≠ .agg fn := by
  unfold cmpToTag
  split_ifs <;> exact ⟨rfl, fun fn => nofun⟩

theorem extensionOpcode_arity {name : String} {op : PlanOpcode} (count : Nat)
    (found : extensionOpcode snapshot name = some op) :
    op.arity count = count ∧ ∀ fn, op ≠ .agg fn := by
  unfold extensionOpcode at found
  split at found
  · cases found
    exact ⟨rfl, fun fn => nofun⟩
  split at found
  · cases found
  · split_ifs at found <;> cases found <;> exact ⟨rfl, fun fn => nofun⟩

/-- An expression applies an operation to operands, which are serialized as the arguments of an
extension or not. -/
inductive Applies (snapshot : Option Snapshot) (layout : Layout) :
    IrExpr → PlanOpcode → Bool → List IrExpr → Prop where
  | arith {op : ArithOp} {args : List IrExpr} {tag : PlanOpcode}
      (tagged : arithToTag op (operandType layout args 0) (operandType layout args 1) = some tag) :
      Applies snapshot layout (.arith op args) tag false args
  | cmp (op : CmpOp) (args : List IrExpr) : Applies snapshot layout (.cmp op args)
      (cmpToTag op (operandType layout args 0) (operandType layout args 1)) false args
  | agg (fn : AggFn) (args : List IrExpr) :
      Applies snapshot layout (.agg fn args) (.agg fn) false args
  | strFn (fn : StrFn) (args : List IrExpr) :
      Applies snapshot layout (.strFn fn args) (.strFn fn) false args
  | extensionCall {name : String} {args : List IrExpr} {op : PlanOpcode}
      (short : name.length < 2 ^ 16) (found : extensionOpcode snapshot name = some op) :
      Applies snapshot layout (.extensionCall name args) op true args

section Writers

variable {Code : Type} {writer : ExprWriter Code}

/-- Expressions are written in turn. -/
theorem forall₂_writeExprs {exprs : List IrExpr} {written : List Code}
    (serialized : writeExprs writer snapshot layout extensionArg exprs = some written) :
    Forall₂ (fun expr code => writeExpr writer snapshot layout extensionArg expr = some code)
      exprs written := by
  induction exprs generalizing written with
  | nil =>
    cases serialized
    exact .nil
  | cons expr rest ih =>
    simp only [writeExprs, do_eq_some_iff, pure_eq_some_iff] at serialized
    obtain ⟨code, here, others, later, rfl⟩ := serialized
    exact .cons here (ih later)

/-- Induction over the expressions that have byte code. -/
theorem writeExpr_induction {written : Code} {motive : Bool → IrExpr → Code → Prop}
    (var : ∀ extensionArg name, motive extensionArg (.var name)
      (writer.var (varTag extensionArg (layout.lookupType name)) name))
    (constInt : ∀ extensionArg value,
      motive extensionArg (.constInt value) (writer.constInt value))
    (constFloat : ∀ extensionArg bits,
      motive extensionArg (.constFloat bits) (writer.constFloat bits))
    (constStr : ∀ extensionArg value,
      motive extensionArg (.constStr value) (writer.constStr value))
    (bool : ∀ extensionArg value, motive extensionArg (.bool value) (writer.bool value))
    (call : ∀ extensionArg expr op argsOfExtension args codes,
      Applies snapshot layout expr op argsOfExtension args →
      Forall₂ (motive argsOfExtension) args codes →
      motive extensionArg expr (writer.call op codes))
    (serialized : writeExpr writer snapshot layout extensionArg expr = some written) :
    motive extensionArg expr written := by
  have operands {args codes argsOfExtension} (ih : ∀ arg ∈ args, ∀ {extensionArg written},
      writeExpr writer snapshot layout extensionArg arg = some written →
        motive extensionArg arg written)
      (serialized : writeExprs writer snapshot layout argsOfExtension args = some codes) :
      Forall₂ (motive argsOfExtension) args codes := by
    have related := forall₂_writeExprs serialized
    exact forall₂_iff_zip.mpr ⟨related.length_eq, fun pair =>
      ih _ (of_mem_zip pair).1 ((forall₂_iff_zip.mp related).2 pair)⟩
  induction expr using IrExpr.induction generalizing extensionArg written with
  | var name => exact Option.some.inj serialized ▸ var extensionArg name
  | constInt value => exact Option.some.inj serialized ▸ constInt extensionArg value
  | constFloat bits => exact Option.some.inj serialized ▸ constFloat extensionArg bits
  | constStr value => exact Option.some.inj serialized ▸ constStr extensionArg value
  | bool value => exact Option.some.inj serialized ▸ bool extensionArg value
  | arith op args ih =>
    simp only [writeExpr] at serialized
    split_ifs at serialized
    simp only [do_eq_some_iff, pure_eq_some_iff] at serialized
    obtain ⟨codes, coded, tag, tagged, rfl⟩ := serialized
    exact call _ _ _ _ _ _ (.arith tagged) (operands ih coded)
  | cmp op args ih =>
    simp only [writeExpr] at serialized
    split_ifs at serialized
    simp only [do_eq_some_iff, pure_eq_some_iff] at serialized
    obtain ⟨codes, coded, rfl⟩ := serialized
    exact call _ _ _ _ _ _ (.cmp op args) (operands ih coded)
  | agg fn args ih =>
    simp only [writeExpr, do_eq_some_iff, pure_eq_some_iff] at serialized
    obtain ⟨codes, coded, rfl⟩ := serialized
    exact call _ _ _ _ _ _ (.agg fn args) (operands ih coded)
  | strFn fn args ih =>
    simp only [writeExpr, do_eq_some_iff, pure_eq_some_iff] at serialized
    obtain ⟨codes, coded, rfl⟩ := serialized
    exact call _ _ _ _ _ _ (.strFn fn args) (operands ih coded)
  | extensionCall name args ih =>
    simp only [writeExpr] at serialized
    split_ifs at serialized with long
    simp only [do_eq_some_iff, pure_eq_some_iff] at serialized
    obtain ⟨codes, coded, op, found, rfl⟩ := serialized
    exact call _ _ _ _ _ _ (.extensionCall (not_le.mp long) found) (operands ih coded)

end Writers

/-- Serialization works on each expression in turn. -/
theorem forall₂_serializeExprs {exprs : List IrExpr}
    (serialized : serializeExprs snapshot layout extensionArg exprs = some codes) :
    Forall₂ (fun expr code => serializeExpr snapshot layout extensionArg expr = some code)
      exprs codes :=
  forall₂_writeExprs serialized

section

variable (applies : Applies snapshot layout expr op extensionArg args)

include applies

/-- An operation with the operands it takes. -/
theorem Applies.operands (formed : operandsMatch expr) :
    op.operands args.length = args.length ∧ allOperandsMatch args := by
  cases applies with
  | arith tagged =>
    obtain ⟨arity, notAgg⟩ := arithToTag_arity args.length tagged
    simp only [operandsMatch, Bool.and_eq_true, decide_eq_true_eq] at formed
    exact ⟨by rw [operands_eq_arity notAgg, arity, formed.1], formed.2⟩
  | cmp op =>
    obtain ⟨arity, notAgg⟩ := cmpToTag_arity op (operandType layout args 0)
      (operandType layout args 1) args.length
    simp only [operandsMatch, Bool.and_eq_true, decide_eq_true_eq] at formed
    exact ⟨by rw [operands_eq_arity notAgg, arity, formed.1], formed.2⟩
  | agg fn | strFn fn =>
    simp only [operandsMatch, Bool.and_eq_true, decide_eq_true_eq] at formed
    exact ⟨formed.1.symm, formed.2⟩
  | extensionCall short found =>
    obtain ⟨arity, notAgg⟩ := extensionOpcode_arity args.length found
    exact ⟨by rw [operands_eq_arity notAgg, arity], formed⟩

theorem Applies.stackDepth : Plan.stackDepth expr = max 1 (operandsDepth args) := by
  cases applies <;> rfl

end

/-- The byte code of an expression is balanced and as deep as the expression. -/
def CodesWell (snapshot : Option Snapshot) (layout : Layout) (expr : IrExpr) : Prop :=
  ∀ extensionArg code, serializeExpr snapshot layout extensionArg expr = some code →
    operandsMatch expr → code.balanced ∧ code.depth = stackDepth expr

theorem operands_codesWell (related : Forall₂ (fun expr code => operandsMatch expr →
      code.balanced ∧ code.depth = stackDepth expr) args codes) (formed : allOperandsMatch args) :
    PlanExpr.allBalanced codes ∧ PlanExpr.operandsDepth codes = operandsDepth args := by
  induction related with
  | nil => exact ⟨rfl, rfl⟩
  | cons here _ ih =>
    simp only [allOperandsMatch, Bool.and_eq_true] at formed
    obtain ⟨balanced, deep⟩ := here formed.1
    obtain ⟨balanced', deep'⟩ := ih formed.2
    simp [PlanExpr.allBalanced, PlanExpr.operandsDepth, operandsDepth, balanced, balanced', deep,
      deep']

/-- **Byte code fits its expression**: it is balanced and as deep. -/
theorem codesWell (expr : IrExpr) : CodesWell snapshot layout expr := by
  intro extensionArg code serialized
  refine writeExpr_induction (motive := fun _ expr code => operandsMatch expr →
    code.balanced ∧ code.depth = stackDepth expr) ?_ ?_ ?_ ?_ ?_ ?_ serialized
  iterate 5 exact fun _ _ _ => ⟨rfl, rfl⟩
  intro _ expr op _ args codes applies related formed
  obtain ⟨arity, formed⟩ := applies.operands formed
  have all := operands_codesWell related formed
  rw [PlanExpr.depth, all.2, applies.stackDepth]
  simp [PlanExpr.balanced, all.1, ← related.length_eq, arity]

end Code

end Wirelog.Plan

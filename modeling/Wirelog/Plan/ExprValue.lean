import Wirelog.Functions.Uuid5
import Wirelog.Plan.ByteCode

/-!
# The operations of the interpreter

The operations of the interpreter on integers and strings are compared with what they are
documented to compute: sums, differences and products that 64 bits hold, division towards zero,
shifts by less than 64 places (`interpreterArith_eq`), and the order of strings
(`interpreterCmpStr_eq`). Arithmetic of doubles, the digests of bytes, string functions and the
callbacks of extensions come from outside.
-/

set_option autoImplicit false

namespace Wirelog.Plan

open Wirelog.IR Wirelog.Columnar Wirelog.Foundations
open Wirelog.Functions.Uuid5 (FiltBytes psaHashPair)

/-! ## Checked arithmetic -/

def int64Max : Int := 9223372036854775807

def int64Min : Int := -9223372036854775808

variable (a b : Int)

/-- `wl_columnar_arithmetic_checked_add_int64`. -/
def checkedAddInt64 : Option Int :=
  if 0 < b then if int64Max - b < a then none else some (a + b)
  else if a < int64Min - b then none else some (a + b)

/-- `wl_columnar_arithmetic_checked_sub_int64`. -/
def checkedSubInt64 : Option Int :=
  if 0 < b then if a < int64Min + b then none else some (a - b)
  else if int64Max + b < a then none else some (a - b)

/-- `wl_columnar_arithmetic_checked_mul_int64`. The magnitudes are compared without sign. -/
def checkedMulInt64 : Option Int :=
  if a = 0 ∨ b = 0 then some 0
  else if (a = -1 ∧ b = int64Min) ∨ (b = -1 ∧ a = int64Min) then none
  else if (a < 0) = (b < 0) then
    if int64Max.toNat / b.natAbs < a.natAbs then none else some (a * b)
  else if (int64Max.toNat + 1) / b.natAbs < a.natAbs then none else some (a * b)

/-- `wl_columnar_arithmetic_checked_div_int64`. -/
def checkedDivInt64 : Option Int :=
  if b = 0 ∨ (a = int64Min ∧ b = -1) then none else some (a.tdiv b)

/-- `wl_columnar_arithmetic_checked_mod_int64`. -/
def checkedModInt64 : Option Int :=
  if b = 0 ∨ (a = int64Min ∧ b = -1) then none else some (a.tmod b)

/-- `wl_columnar_arithmetic_checked_shl_int64`. -/
def checkedShlInt64 (a : Cell) (b : Int) : Option Cell :=
  if b < 0 ∨ 64 ≤ b then none else some (a <<< b.toNat)

/-- `wl_columnar_arithmetic_checked_shr_int64`. -/
def checkedShrInt64 (a : Cell) (b : Int) : Option Cell :=
  if b < 0 ∨ 64 ≤ b then none else some (a.sshiftRight b.toNat)

/-- An integer that 64 bits hold. -/
def Representable (value : Int) : Prop := int64Min ≤ value ∧ value ≤ int64Max

instance (value : Int) : Decidable (Representable value) :=
  inferInstanceAs (Decidable (_ ∧ _))

theorem representable_iff {value : Int} :
    Representable value ↔ -9223372036854775808 ≤ value ∧ value ≤ 9223372036854775807 := Iff.rfl

theorem representable_toInt (cell : Cell) : Representable cell.toInt := by
  have lower := BitVec.le_toInt cell
  have upper : cell.toInt < 2 ^ 63 := BitVec.toInt_lt
  rw [representable_iff]
  omega

/-- An integer, if 64 bits hold it. -/
def exactly (value : Int) : Option Int := if Representable value then some value else none

/-- A check for overflow that fails exactly on the integers that 64 bits do not hold. -/
theorem checked_eq_exactly {overflow : Prop} [Decidable overflow] {value : Int}
    (checks : Representable value ↔ ¬ overflow) :
    (if overflow then none else some value) = exactly value := by
  unfold exactly
  by_cases fails : overflow
  · rw [if_pos fails, if_neg (by rwa [checks, not_not])]
  · rw [if_neg fails, if_pos (checks.mpr fails)]

section Checked

variable {a b : Int}

theorem checkedAddInt64_eq (here : Representable a) (there : Representable b) :
    checkedAddInt64 a b = exactly (a + b) := by
  rw [representable_iff] at here there
  unfold checkedAddInt64
  by_cases positive : 0 < b
  · rw [if_pos positive]
    exact checked_eq_exactly (by rw [representable_iff, int64Max]; omega)
  · rw [if_neg positive]
    exact checked_eq_exactly (by rw [representable_iff, int64Min]; omega)

theorem checkedSubInt64_eq (here : Representable a) (there : Representable b) :
    checkedSubInt64 a b = exactly (a - b) := by
  rw [representable_iff] at here there
  unfold checkedSubInt64
  by_cases positive : 0 < b
  · rw [if_pos positive]
    exact checked_eq_exactly (by rw [representable_iff, int64Min]; omega)
  · rw [if_neg positive]
    exact checked_eq_exactly (by rw [representable_iff, int64Max]; omega)

theorem checkedMulInt64_eq (_here : Representable a) (_there : Representable b) :
    checkedMulInt64 a b = exactly (a * b) := by
  unfold checkedMulInt64
  by_cases zero : a = 0 ∨ b = 0
  · rw [if_pos zero, mul_eq_zero.mpr zero]
    rfl
  obtain ⟨nonzero, nonzero'⟩ := not_or.mp zero
  have positive : 0 < b.natAbs := Int.natAbs_pos.mpr nonzero'
  have magnitude : (a * b).natAbs = a.natAbs * b.natAbs := Int.natAbs_mul a b
  rw [if_neg zero]
  by_cases extreme : (a = -1 ∧ b = int64Min) ∨ (b = -1 ∧ a = int64Min)
  · rw [if_pos extreme]
    rcases extreme with ⟨rfl, rfl⟩ | ⟨rfl, rfl⟩ <;> rfl
  rw [if_neg extreme]
  by_cases signs : (a < 0) = (b < 0)
  · -- the product is positive
    have product : 0 < a * b := by
      rcases lt_or_gt_of_ne nonzero with negative | above
      · exact mul_pos_of_neg_of_neg negative (signs ▸ negative)
      have above' : ¬ b < 0 := signs ▸ not_lt.mpr above.le
      exact mul_pos above (lt_of_le_of_ne (not_lt.mp above') (Ne.symm nonzero'))
    rw [if_pos signs]
    refine checked_eq_exactly ?_
    rw [Nat.div_lt_iff_lt_mul positive, ← magnitude, representable_iff, int64Max]
    omega
  · have product : a * b < 0 := by
      rcases lt_or_gt_of_ne nonzero with negative | above
      · have above' : ¬ b < 0 := fun negative' => signs (by simp [negative, negative'])
        exact mul_neg_of_neg_of_pos negative (lt_of_le_of_ne (not_lt.mp above') (Ne.symm nonzero'))
      · have negative' : b < 0 := by
          by_contra above'
          exact signs (by simp [not_lt.mpr above.le, above'])
        exact mul_neg_of_pos_of_neg above negative'
    rw [if_neg signs]
    refine checked_eq_exactly ?_
    rw [Nat.div_lt_iff_lt_mul positive, ← magnitude, representable_iff, int64Max]
    omega

/-- The quotient leaves 64 bits only for the smallest integer and minus one. -/
theorem representable_tdiv_iff (here : Representable a) (nonzero : b ≠ 0) :
    Representable (a.tdiv b) ↔ ¬ (b = 0 ∨ (a = int64Min ∧ b = -1)) := by
  rw [representable_iff] at here ⊢
  constructor
  · rintro ⟨-, upper⟩ (zero | ⟨rfl, rfl⟩)
    · exact nonzero zero
    · revert upper
      decide
  · intro proper
    have magnitude : (a.tdiv b).natAbs = a.natAbs / b.natAbs := Int.natAbs_tdiv a b
    have smaller : a.natAbs / b.natAbs ≤ a.natAbs := Nat.div_le_self _ _
    refine ⟨by omega, ?_⟩
    by_cases unit : b = 1
    · rw [unit, Int.tdiv_one]
      exact here.2
    by_cases minus : b = -1
    · have apart : a ≠ int64Min := fun same => proper (.inr ⟨same, minus⟩)
      simp only [int64Min] at apart
      omega
    · have halved : a.natAbs / b.natAbs ≤ a.natAbs / 2 :=
        Nat.div_le_div_left (by omega) (by decide)
      omega

theorem checkedDivInt64_eq (here : Representable a) (nonzero : b ≠ 0) :
    checkedDivInt64 a b = exactly (a.tdiv b) :=
  checked_eq_exactly (representable_tdiv_iff here nonzero)

/-- A remainder is no larger than the dividend. -/
theorem representable_tmod (here : Representable a) : Representable (a.tmod b) := by
  have magnitude : (a.tmod b).natAbs ≤ a.natAbs := by
    rw [Int.natAbs_tmod]
    exact Nat.mod_le _ _
  have sign : a ≤ 0 → a.tmod b ≤ 0 := by
    intro nonpos
    have negated : 0 ≤ (-a).tmod b := Int.tmod_nonneg b (by omega)
    rw [Int.neg_tmod] at negated
    omega
  rw [representable_iff] at here ⊢
  omega

end Checked

/-! ## Operations -/

/-- An integer result as a cell; a result that is missing is a numeric error. -/
def numeric (result : Option Int) : Except ExprError Cell :=
  match result with
  | some value => .ok (BitVec.ofInt 64 value)
  | none => .error .malformed

/-- A cell result; one that is missing is a numeric error. -/
def numericCell (result : Option Cell) : Except ExprError Cell :=
  match result with
  | some cell => .ok cell
  | none => .error .malformed

/-- The arithmetic of the interpreter on integers. -/
def interpreterArith (a b : Cell) : ArithOp → Except ExprError Cell
  | .add => numeric (checkedAddInt64 a.toInt b.toInt)
  | .sub => numeric (checkedSubInt64 a.toInt b.toInt)
  | .mul => numeric (checkedMulInt64 a.toInt b.toInt)
  | .div => numeric (checkedDivInt64 a.toInt b.toInt)
  | .mod => numeric (checkedModInt64 a.toInt b.toInt)
  | .shl => numericCell (checkedShlInt64 a b.toInt)
  | .shr => numericCell (checkedShrInt64 a b.toInt)
  | .band => .ok (a &&& b)
  | .bor => .ok (a ||| b)
  | .bxor => .ok (a ^^^ b)
  | _ => .error .malformed

/-- The documented arithmetic on two integers: exact results that 64 bits hold, division towards
zero, and shifts by less than 64 places. -/
def documentedArith (a b : Cell) : ArithOp → Option (Except ExprError Cell)
  | .add => some (numeric (exactly (a.toInt + b.toInt)))
  | .sub => some (numeric (exactly (a.toInt - b.toInt)))
  | .mul => some (numeric (exactly (a.toInt * b.toInt)))
  | .div => some (if b = 0 then .error .malformed else numeric (exactly (a.toInt.tdiv b.toInt)))
  | .mod => some (if b = 0 ∨ ¬ Representable (a.toInt.tdiv b.toInt) then .error .malformed
      else numeric (exactly (a.toInt.tmod b.toInt)))
  | .shl => some (if 0 ≤ b.toInt ∧ b.toInt < 64 then
        .ok (BitVec.ofInt 64 (a.toInt * 2 ^ b.toInt.toNat))
      else .error .malformed)
  | .shr => some (if 0 ≤ b.toInt ∧ b.toInt < 64 then
        numeric (exactly (a.toInt / 2 ^ b.toInt.toNat))
      else .error .malformed)
  | .band => some (.ok (a &&& b))
  | .bor => some (.ok (a ||| b))
  | .bxor => some (.ok (a ^^^ b))
  | _ => none

theorem toInt_eq_zero_iff {cell : Cell} : cell.toInt = 0 ↔ cell = 0 := by
  constructor
  · intro zero
    exact BitVec.eq_of_toInt_eq (by simpa using zero)
  · rintro rfl
    rfl

/-- Shifting to the left multiplies by a power of two, modulo the width. -/
theorem shiftLeft_eq_ofInt (a : Cell) (places : Nat) :
    a <<< places = BitVec.ofInt 64 (a.toInt * 2 ^ places) := by
  have power : BitVec.ofInt 64 (2 ^ places) = BitVec.twoPow 64 places := by
    apply BitVec.eq_of_toNat_eq
    rw [BitVec.toNat_ofInt, BitVec.toNat_twoPow]
    norm_cast
  rw [BitVec.ofInt_mul, BitVec.ofInt_toInt, power, BitVec.mul_twoPow_eq_shiftLeft]

/-- Shifting to the right keeps the sign: it divides by a power of two and rounds down. -/
theorem toInt_sshiftRight_eq (a : Cell) (places : Nat) :
    (a.sshiftRight places).toInt = a.toInt / 2 ^ places := by
  rw [BitVec.toInt_sshiftRight, Int.shiftRight_eq_div_pow]
  norm_cast

/-- The value of a cell is held by 64 bits, and the cell is its value. -/
theorem numeric_exactly_toInt (cell : Cell) : numeric (exactly cell.toInt) = .ok cell := by
  rw [exactly, if_pos (representable_toInt cell), numeric, BitVec.ofInt_toInt]

/-- **Integer arithmetic**: the interpreter computes what is documented. -/
theorem interpreterArith_eq {a b : Cell} {op : ArithOp} {result : Except ExprError Cell}
    (documented : documentedArith a b op = some result) : interpreterArith a b op = result := by
  have here := representable_toInt a
  have there := representable_toInt b
  cases op with
  | add =>
    cases documented
    rw [interpreterArith, checkedAddInt64_eq here there]
  | sub =>
    cases documented
    rw [interpreterArith, checkedSubInt64_eq here there]
  | mul =>
    cases documented
    rw [interpreterArith, checkedMulInt64_eq here there]
  | div =>
    cases documented
    rw [interpreterArith]
    by_cases zero : b = 0
    · rw [if_pos zero, checkedDivInt64, if_pos (.inl (toInt_eq_zero_iff.mpr zero))]
      rfl
    · rw [if_neg zero, checkedDivInt64_eq here (mt toInt_eq_zero_iff.mp zero)]
  | mod =>
    cases documented
    rw [interpreterArith, checkedModInt64]
    by_cases zero : b = 0
    · rw [if_pos (.inl (toInt_eq_zero_iff.mpr zero)), if_pos (.inl zero)]
      rfl
    have quotient := representable_tdiv_iff here (mt toInt_eq_zero_iff.mp zero)
    by_cases fits : Representable (a.toInt.tdiv b.toInt)
    · rw [if_neg (quotient.mp fits), if_neg (not_or.mpr ⟨zero, not_not.mpr fits⟩), exactly,
        if_pos (representable_tmod here)]
    · rw [if_pos (not_not.mp (mt quotient.mpr fits)), if_pos (.inr fits)]
      rfl
  | shl =>
    cases documented
    rw [interpreterArith, checkedShlInt64]
    by_cases inside : 0 ≤ b.toInt ∧ b.toInt < 64
    · rw [if_neg (by omega), if_pos inside, numericCell, shiftLeft_eq_ofInt]
    rw [if_pos (by omega), if_neg inside]
    rfl
  | shr =>
    cases documented
    rw [interpreterArith, checkedShrInt64]
    by_cases inside : 0 ≤ b.toInt ∧ b.toInt < 64
    · rw [if_neg (by omega), if_pos inside, ← toInt_sshiftRight_eq, numeric_exactly_toInt]
      rfl
    · rw [if_pos (by omega), if_neg inside]
      rfl
  | band | bor | bxor =>
    cases documented
    rfl
  | _ => cases documented

/-! ## Comparisons of strings -/

def strcmp : List Char → List Char → Ordering
  | [], [] => .eq
  | [], _ :: _ => .lt
  | _ :: _, [] => .gt
  | a :: s, b :: t => if a < b then .lt else if b < a then .gt else strcmp s t

theorem strcmp_eq_lt_iff {s t : List Char} : strcmp s t = .lt ↔ s < t := by
  induction s generalizing t with
  | nil => cases t <;> simp [strcmp]
  | cons a s ih =>
    cases t with
    | nil => simp [strcmp]
    | cons b t =>
      rw [List.cons_lt_cons_iff, strcmp]
      split_ifs with below above
      · simp [below]
      · have apart : a ≠ b := fun same => absurd (same ▸ above) (lt_irrefl b)
        simp [below, apart]
      · have same : a = b := le_antisymm (not_lt.mp above) (not_lt.mp below)
        simp [same, ih]

theorem strcmp_swap (s t : List Char) : (strcmp s t).swap = strcmp t s := by
  induction s generalizing t with
  | nil => cases t <;> rfl
  | cons a s ih =>
    cases t with
    | nil => rfl
    | cons b t =>
      rw [strcmp, strcmp]
      split_ifs with below above above'
      · exact absurd above (lt_asymm below)
      · rfl
      · rfl
      · exact ih t

theorem strcmp_eq_gt_iff {s t : List Char} : strcmp s t = .gt ↔ t < s := by
  rw [← strcmp_eq_lt_iff, ← strcmp_swap s t]
  cases strcmp s t <;> decide

/-- The interpreter's comparison of two strings. -/
def interpreterCmpStr (s t : String) : CmpOp → Bool
  | .eq => strcmp s.toList t.toList = .eq
  | .neq => strcmp s.toList t.toList ≠ .eq
  | .lt => strcmp s.toList t.toList = .lt
  | .gt => strcmp s.toList t.toList = .gt
  | .lte => strcmp s.toList t.toList ≠ .gt
  | .gte => strcmp s.toList t.toList ≠ .lt

/-- A comparison in a linear order. -/
def ordered {α : Type} [LinearOrder α] (op : CmpOp) (a b : α) : Bool :=
  match op with
  | .eq => a = b
  | .neq => a ≠ b
  | .lt => a < b
  | .gt => b < a
  | .lte => a ≤ b
  | .gte => b ≤ a

theorem strcmp_eq_eq_iff {s t : List Char} : strcmp s t = .eq ↔ s = t := by
  constructor
  · intro same
    have notBelow : ¬ s < t := by rw [← strcmp_eq_lt_iff, same]; decide
    have notAbove : ¬ t < s := by rw [← strcmp_eq_gt_iff, same]; decide
    exact le_antisymm (not_lt.mp notAbove) (not_lt.mp notBelow)
  · rintro rfl
    have swapped := strcmp_swap s s
    cases order : strcmp s s with
    | eq => rfl
    | lt => rw [order] at swapped; cases swapped
    | gt => rw [order] at swapped; cases swapped

/-- The interpreter compares strings in their lexicographic order. -/
theorem interpreterCmpStr_eq (s t : String) (op : CmpOp) :
    interpreterCmpStr s t op = ordered op s.toList t.toList := by
  cases op <;>
    simp [interpreterCmpStr, ordered, strcmp_eq_eq_iff, strcmp_eq_lt_iff, strcmp_eq_gt_iff]

/-! ## The machine -/

/-- What expressions take from outside: the intern table, arithmetic of doubles, digests of bytes
and random identifiers, string functions, the callbacks of extensions, and the aggregates. -/
structure Outside where
  intern : String → Cell
  reverse : Cell → Option String
  arithFloat : ArithOp → Cell → Cell → Cell
  digest : ArithOp → List UInt8 → Except ExprError Cell
  hmacSha256 : List UInt8 → List UInt8 → Except ExprError Cell
  uuid4 : Except ExprError Cell
  uuid5 : List UInt8 → Except ExprError Cell
  strFn : StrFn → List Cell → Except ExprError Cell
  extensionCall : String → Option (Nat × Nat) → List Value → Except ExprError Value
  reduce : AggFn → List Nat → Option PlanExpr → ColType → Option Nat → Table →
    Except EvalError Table

namespace Outside

variable (outside : Outside)

/-- The arithmetic of floats is defined on finite operands with a finite result, and makes no
negative zero (`expr_float_load`, `expr_float_store`). -/
def finiteArith (op : ArithOp) (a b : Cell) : Except ExprError Cell :=
  if floatBitsValid a ∧ floatBitsValid b ∧ floatBitsValid (outside.arithFloat op a b) then
    .ok (if floatBitsZero (outside.arithFloat op a b) then 0 else outside.arithFloat op a b)
  else .error .malformed

/-- The comparison of the strings of two ids. Without strings, ids are only equal or not. -/
def cmpIds (a b : Cell) (op : CmpOp) : Bool :=
  match outside.reverse a, outside.reverse b with
  | some s, some t => interpreterCmpStr s t op
  | _, _ => match op with
      | .eq => a = b
      | .neq => a ≠ b
      | _ => false

/-- `filt_digest_bytes`. -/
def filtDigestBytes (v : Cell) (asSymbol : Bool) : FiltBytes :=
  match if asSymbol then outside.reverse v else none with
  | some text => ⟨stringBytes text, true⟩
  | none => ⟨leBytes 8 v.toNat, false⟩

/-- The digests, with the operands whose string is digested and not its id. -/
def runDigest (op : ArithOp) (first second : Bool) (operands : List Value) :
    Except ExprError Cell :=
  match op, operands with
  | .hmacSha256, [msg, key] => outside.hmacSha256 (outside.filtDigestBytes msg.cell first).bytes
      (outside.filtDigestBytes key.cell second).bytes
  | .uuid5, [ns, name] =>
    let nsb := outside.filtDigestBytes ns.cell first
    let nmb := outside.filtDigestBytes name.cell second
    outside.uuid5 (psaHashPair (first || second) nsb.tag nsb.bytes nmb.tag nmb.bytes)
  | op, [a] => outside.digest op (outside.filtDigestBytes a.cell first).bytes
  | _, _ => .error .malformed

end Outside

variable (outside : Outside)

/-- The operations as the interpreter runs them. -/
def interpreterMachine : Machine where
  intern := outside.intern
  reverse := outside.reverse
  apply := fun op operands => match op, operands with
    | .arith .bnot, [a] => .ok ⟨~~~a.cell, .int64⟩
    | .arith .uuid4, [] => outside.uuid4.map (⟨·, .int64⟩)
    | .arith op, [a, b] => (interpreterArith a.cell b.cell op).map (⟨·, .int64⟩)
    | .arithFloat op, [a, b] => (outside.finiteArith op a.cell b.cell).map (⟨·, .int64⟩)
    | .digest op first second, operands =>
      (outside.runDigest op first second operands).map (⟨·, .int64⟩)
    | .cmpStr op, [a, b] => .ok (.ofBool (outside.cmpIds a.cell b.cell op))
    | .strFn fn, operands => (outside.strFn fn (operands.map (·.cell))).map (⟨·, .int64⟩)
    | .extensionCall name abi, operands => outside.extensionCall name abi operands
    | _, _ => .error .malformed
  reduce := outside.reduce

/-- An outside without strings, doubles, digests and extensions. -/
def plainOutside : Outside where
  intern := fun _ => 0
  reverse := fun _ => none
  arithFloat := fun _ _ _ => 0
  digest := fun _ _ => .error .malformed
  hmacSha256 := fun _ _ => .error .malformed
  uuid4 := .error .malformed
  uuid5 := fun _ => .error .malformed
  strFn := fun _ _ => .error .malformed
  extensionCall := fun _ _ _ => .error .extension
  reduce := fun _ _ _ _ _ _ => .error .einval

end Wirelog.Plan

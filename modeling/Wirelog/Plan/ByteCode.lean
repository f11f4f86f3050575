import Wirelog.Foundations.ByteFields
import Wirelog.Plan.RightFilter

/-!
# The bytes of an expression

An expression is written in postfix order into a buffer: the operands, then one byte for the
operation. Names and strings carry a length of 16 bits, and what does not fit it is cut off.
The interpreter walks the buffer once; every instruction pushes a value or replaces its
operands, on the stack of 64 entries.

What a run of bytes does to a stack does not depend on what follows it (`Executes`), so the bytes
of an expression can be followed from its operands to its operation. An instruction is read back
from the bytes that were written for it, up to the lengths that 16 bits hold.

A string is a sequence of bytes, one character for each.
-/

set_option autoImplicit false

namespace Wirelog.Plan

open Wirelog.IR Wirelog.Columnar Wirelog.Foundations List

variable {c : Nat} {op : PlanOpcode} {s : String}

/-! ## Opcodes -/

/-- The byte of an operation in `wl_plan_expr_tag_t`; zero for one that is never written. -/
def opcodeByte : PlanOpcode → UInt8
  | .arith .add => 0x10
  | .arith .sub => 0x11
  | .arith .mul => 0x12
  | .arith .div => 0x13
  | .arith .mod => 0x14
  | .arith .band => 0x15
  | .arith .bor => 0x16
  | .arith .bxor => 0x17
  | .arith .shl => 0x18
  | .arith .shr => 0x19
  | .arith .bnot => 0x1A
  | .arith .uuid4 => 0x29
  | .arithFloat .add => 0x70
  | .arithFloat .sub => 0x71
  | .arithFloat .mul => 0x72
  | .arithFloat .div => 0x73
  | .digest .hash first _ => if first then 0x60 else 0x1B
  | .digest .crc32Eth first _ => if first then 0x61 else 0x1C
  | .digest .crc32Cast first _ => if first then 0x62 else 0x1D
  | .digest .md5 first _ => if first then 0x63 else 0x1E
  | .digest .sha1 first _ => if first then 0x64 else 0x1F
  | .digest .sha256 first _ => if first then 0x65 else 0x20
  | .digest .sha512 first _ => if first then 0x66 else 0x21
  | .digest .hmacSha256 first second =>
    if first && second then 0x67 else if first then 0x68 else if second then 0x69 else 0x28
  | .digest .uuid5 first second =>
    if first && second then 0x6A else if first then 0x6B else if second then 0x6C else 0x2A
  | .cmp .eq => 0x22
  | .cmp .neq => 0x23
  | .cmp .lt => 0x24
  | .cmp .gt => 0x25
  | .cmp .lte => 0x26
  | .cmp .gte => 0x27
  | .cmpFloat .eq => 0x74
  | .cmpFloat .neq => 0x75
  | .cmpFloat .lt => 0x76
  | .cmpFloat .gt => 0x77
  | .cmpFloat .lte => 0x78
  | .cmpFloat .gte => 0x79
  | .agg .count => 0x30
  | .agg .sum => 0x31
  | .agg .min => 0x32
  | .agg .max => 0x33
  | .agg .avg => 0x34
  | .strFn .strlen => 0x40
  | .strFn .cat => 0x41
  | .strFn .substr => 0x42
  | .strFn .contains => 0x43
  | .strFn .strPrefix => 0x44
  | .strFn .strSuffix => 0x45
  | .strFn .strOrd => 0x46
  | .strFn .toUpper => 0x47
  | .strFn .toLower => 0x48
  | .strFn .strReplace => 0x49
  | .strFn .trim => 0x4A
  | .strFn .toString => 0x4B
  | .strFn .toNumber => 0x4C
  | .strFn .uuid5Rfc => 0x4D
  | .cmpStr .eq => 0x50
  | .cmpStr .neq => 0x51
  | .cmpStr .lt => 0x52
  | .cmpStr .gt => 0x53
  | .cmpStr .lte => 0x54
  | .cmpStr .gte => 0x55
  | .extensionCall _ none => 0x80
  | .extensionCall _ (some _) => 0x81
  | .arith _ | .arithFloat _ | .digest _ _ _ => 0

/-- The operation that the interpreter runs for a byte without payload. -/
def opcodeOf (byte : UInt8) : Option PlanOpcode :=
  match byte.toNat with
  | 0x10 => some (.arith .add)
  | 0x11 => some (.arith .sub)
  | 0x12 => some (.arith .mul)
  | 0x13 => some (.arith .div)
  | 0x14 => some (.arith .mod)
  | 0x15 => some (.arith .band)
  | 0x16 => some (.arith .bor)
  | 0x17 => some (.arith .bxor)
  | 0x18 => some (.arith .shl)
  | 0x19 => some (.arith .shr)
  | 0x1A => some (.arith .bnot)
  | 0x1B => some (.digest .hash false false)
  | 0x1C => some (.digest .crc32Eth false false)
  | 0x1D => some (.digest .crc32Cast false false)
  | 0x1E => some (.digest .md5 false false)
  | 0x1F => some (.digest .sha1 false false)
  | 0x20 => some (.digest .sha256 false false)
  | 0x21 => some (.digest .sha512 false false)
  | 0x22 => some (.cmp .eq)
  | 0x23 => some (.cmp .neq)
  | 0x24 => some (.cmp .lt)
  | 0x25 => some (.cmp .gt)
  | 0x26 => some (.cmp .lte)
  | 0x27 => some (.cmp .gte)
  | 0x28 => some (.digest .hmacSha256 false false)
  | 0x29 => some (.arith .uuid4)
  | 0x2A => some (.digest .uuid5 false false)
  | 0x30 => some (.agg .count)
  | 0x31 => some (.agg .sum)
  | 0x32 => some (.agg .min)
  | 0x33 => some (.agg .max)
  | 0x40 => some (.strFn .strlen)
  | 0x41 => some (.strFn .cat)
  | 0x42 => some (.strFn .substr)
  | 0x43 => some (.strFn .contains)
  | 0x44 => some (.strFn .strPrefix)
  | 0x45 => some (.strFn .strSuffix)
  | 0x46 => some (.strFn .strOrd)
  | 0x47 => some (.strFn .toUpper)
  | 0x48 => some (.strFn .toLower)
  | 0x49 => some (.strFn .strReplace)
  | 0x4A => some (.strFn .trim)
  | 0x4B => some (.strFn .toString)
  | 0x4C => some (.strFn .toNumber)
  | 0x4D => some (.strFn .uuid5Rfc)
  | 0x50 => some (.cmpStr .eq)
  | 0x51 => some (.cmpStr .neq)
  | 0x52 => some (.cmpStr .lt)
  | 0x53 => some (.cmpStr .gt)
  | 0x54 => some (.cmpStr .lte)
  | 0x55 => some (.cmpStr .gte)
  | 0x60 => some (.digest .hash true false)
  | 0x61 => some (.digest .crc32Eth true false)
  | 0x62 => some (.digest .crc32Cast true false)
  | 0x63 => some (.digest .md5 true false)
  | 0x64 => some (.digest .sha1 true false)
  | 0x65 => some (.digest .sha256 true false)
  | 0x66 => some (.digest .sha512 true false)
  | 0x67 => some (.digest .hmacSha256 true true)
  | 0x68 => some (.digest .hmacSha256 true false)
  | 0x69 => some (.digest .hmacSha256 false true)
  | 0x6A => some (.digest .uuid5 true true)
  | 0x6B => some (.digest .uuid5 true false)
  | 0x6C => some (.digest .uuid5 false true)
  | 0x70 => some (.arithFloat .add)
  | 0x71 => some (.arithFloat .sub)
  | 0x72 => some (.arithFloat .mul)
  | 0x73 => some (.arithFloat .div)
  | 0x74 => some (.cmpFloat .eq)
  | 0x75 => some (.cmpFloat .neq)
  | 0x76 => some (.cmpFloat .lt)
  | 0x77 => some (.cmpFloat .gt)
  | 0x78 => some (.cmpFloat .lte)
  | 0x79 => some (.cmpFloat .gte)
  | _ => none

theorem opcodeOf_arithToTag {op : ArithOp} {t0 t1 : ColType} {tag : PlanOpcode}
    (found : arithToTag op t0 t1 = some tag) : opcodeOf (opcodeByte tag) = some tag := by
  cases op <;> cases t0 <;> cases t1 <;> cases found <;> rfl

theorem arithToTag_ne_call {op : ArithOp} {t0 t1 : ColType} {tag : PlanOpcode}
    (found : arithToTag op t0 t1 = some tag) (name : String) (abi : Option (Nat × Nat)) :
    tag ≠ .extensionCall name abi := by
  unfold arithToTag at found
  split_ifs at found
  · cases found
    nofun
  · cases op <;> cases found <;> nofun
  · cases found
    nofun

theorem cmpToTag_ne_call (op : CmpOp) (lhs rhs : ColType) (name : String)
    (abi : Option (Nat × Nat)) : cmpToTag op lhs rhs ≠ .extensionCall name abi := by
  unfold cmpToTag
  split_ifs <;> nofun

theorem opcodeOf_cmpToTag (op : CmpOp) (lhs rhs : ColType) :
    opcodeOf (opcodeByte (cmpToTag op lhs rhs)) = some (cmpToTag op lhs rhs) := by
  cases op <;> cases lhs <;> cases rhs <;> rfl

theorem opcodeOf_strFn (fn : StrFn) : opcodeOf (opcodeByte (.strFn fn)) = some (.strFn fn) := by
  cases fn <;> rfl

/-! ## Writing -/

def stringBytes (s : String) : List UInt8 := s.toList.map fun c => UInt8.ofNat c.toNat

def bytesString (bytes : List UInt8) : String :=
  String.ofList (bytes.map fun byte => Char.ofNat byte.toNat)

def shortField (s : String) : List UInt8 :=
  leBytes 2 (s.length % 2 ^ 16) ++ (stringBytes s).take (s.length % 2 ^ 16)

def varTagByte : VarTag → UInt8
  | .plain => 0x01
  | .float => 0x05
  | .string => 0x07

/-- The name that is written for a variable: `col%u` for a column, or its own name. -/
def emitName (layout : Layout) (name : String) : String :=
  match lookupName layout.names name with
  | some c => colName c
  | none => name

def extensionPayload (name : String) (count : Nat) (abi : Option (Nat × Nat)) : List UInt8 :=
  leBytes 2 name.length ++ stringBytes name ++ leBytes 4 count ++
    match abi with
    | none => []
    | some (identity, version) => leBytes 8 identity ++ leBytes 4 version

/-- The bytes that follow the operands of an operation. -/
def opcodeBytes (op : PlanOpcode) (count : Nat) : List UInt8 :=
  opcodeByte op :: match op with
    | .extensionCall name abi => extensionPayload name count abi
    | _ => []

/-- Byte code as bytes. -/
abbrev byteWriter (layout : Layout) : ExprWriter (List UInt8) where
  var tag name := varTagByte tag :: shortField (emitName layout name)
  constInt value := 0x02 :: leBytes 8 value.toNat
  constFloat bits := 0x06 :: leBytes 8 bits.toNat
  constStr value := 0x03 :: shortField value
  bool value := [0x04, if value then 1 else 0]
  call op operands := operands.flatten ++ opcodeBytes op operands.length

def serializeBytes (snapshot : Option Snapshot) (layout : Layout) :
    Bool → IrExpr → Option (List UInt8) :=
  writeExpr (byteWriter layout) snapshot layout

/-- `serialize_expr_to_buffer_ctx`: the capacity of the buffer doubles in 32 bits, which ends
at half of their range. -/
def serializeToBuffer (snapshot : Option Snapshot) (layout : Layout) (expr : IrExpr) :
    Option (List UInt8) :=
  (serializeBytes snapshot layout false expr).filter (·.length ≤ 2 ^ 31)

/-! ## Reading -/

/-- An instruction of the interpreter. -/
inductive Instr where
  | var (tag : VarTag) (name : List UInt8)
  | constInt (value : Cell)
  | constFloat (bits : Cell)
  | constStr (text : List UInt8)
  | bool (value : Bool)
  | op (op : PlanOpcode)
  | extensionCall (name : List UInt8) (count : Nat) (abi : Option (Nat × Nat))

def leadingDigits (text : List UInt8) : Nat :=
  (text.takeWhile fun byte => 48 ≤ byte && byte ≤ 57).foldl
    (fun value byte => 10 * value + (byte.toNat - 48)) 0

/-- White space as `strtol` skips it. -/
def isSpace (byte : UInt8) : Bool := byte = 32 || (9 ≤ byte && byte ≤ 13)

/-- `strtol` to base ten, of a text that is too short to overflow. -/
def strtol (text : List UInt8) : Int :=
  match text.dropWhile isSpace with
  | 43 :: digits => leadingDigits digits
  | 45 :: digits => - leadingDigits digits
  | digits => leadingDigits digits

/-- The column that the interpreter reads for a name: what `strtol` finds in the 15 bytes that
follow `col`, and zero for every other name. -/
def columnOfName (name : List UInt8) : Int :=
  match name with
  | 99 :: 111 :: 108 :: digit :: rest => strtol ((digit :: rest).take 15)
  | _ => 0

variable (machine : Machine)

/-- Load a column. The bound is checked on the low 32 bits of its number; what the source then
reads outside of the row is zero here. -/
def loadColumn (row : Row) (tag : VarTag) (column : Int) : Except ExprError Value :=
  if 0 ≤ column ∧ column % 2 ^ 32 < row.cells.length then loadVar machine row tag column.toNat
  else if tag = .plain then .ok ⟨0, .int64⟩
  else .error .malformed

/-- A field that has to be there. -/
def required {α : Type} (failure : ExprError) : Option α → Except ExprError α
  | some found => .ok found
  | none => .error failure

/-- The name and the number of arguments of an extension call. -/
def decodeExtension (rest : List UInt8) :
    Except ExprError ((List UInt8 × Nat) × List UInt8) := do
  let name ← required .extension (readCounted 2 rest)
  let count ← required .extension (readNat 4 name.2)
  return ((name.1, count.1), count.2)

/-- The instruction at the start of some bytes and what follows it. -/
def decodeInstr : List UInt8 → Except ExprError (Instr × List UInt8)
  | [] => .error .malformed
  | tag :: rest =>
    match tag.toNat with
    | 0x01 => (required .malformed (readCounted 2 rest)).map fun found =>
      (.var .plain found.1, found.2)
    | 0x05 => (required .malformed (readCounted 2 rest)).map fun found =>
      (.var .float found.1, found.2)
    | 0x07 => (required .malformed (readCounted 2 rest)).map fun found =>
      (.var .string found.1, found.2)
    | 0x02 => (required .malformed (readNat 8 rest)).map fun found =>
      (.constInt (BitVec.ofNat 64 found.1), found.2)
    | 0x06 => (required .malformed (readNat 8 rest)).map fun found =>
      (.constFloat (BitVec.ofNat 64 found.1), found.2)
    | 0x03 => (required .malformed (readCounted 2 rest)).map fun found =>
      (.constStr found.1, found.2)
    | 0x04 => (required .malformed (readNat 1 rest)).map fun found =>
      (.bool (found.1 ≠ 0), found.2)
    | 0x80 => do
        let call ← decodeExtension rest
        return (.extensionCall call.1.1 call.1.2 none, call.2)
    | 0x81 => do
        let call ← decodeExtension rest
        let identity ← required .extension (readNat 8 call.2)
        let version ← required .extension (readNat 4 identity.2)
        return (.extensionCall call.1.1 call.1.2 (some (identity.1, version.1)), version.2)
    | _ => (required .malformed (opcodeOf tag)).map fun op => (.op op, rest)

/-- Run one instruction. The name of an extension has to fit a buffer of 256 bytes, and its
arguments have to be on the stack. -/
def execInstr (row : Row) (instr : Instr) (stack : List Value) : Except ExprError (List Value) :=
  match instr with
  | .var tag name => (loadColumn machine row tag (columnOfName name)).map (exprPush stack)
  | .constInt value => .ok (exprPush stack ⟨value, .int64⟩)
  | .constFloat bits =>
    if floatBitsValid bits then .ok (exprPush stack ⟨bits, .int64⟩) else .error .malformed
  | .constStr text =>
    .ok (exprPush stack ⟨machine.intern (bytesString text), .string (bytesString text)⟩)
  | .bool value => .ok (exprPush stack ⟨if value then 1 else 0, .bool⟩)
  | .op op => runOpcode machine op 0 stack
  | .extensionCall name count abi =>
    if name = [] ∨ 256 ≤ name.length ∨ stack.length < count then .error .extension
    else runOpcode machine (.extensionCall (bytesString name) abi) count stack

/-- The loop of `wl_columnar_expr_eval_run_ctx`. Every round consumes a byte. -/
def runBytes (row : Row) : Nat → List UInt8 → List Value → Except ExprError (List Value)
  | _, [], stack => .ok stack
  | 0, _ :: _, _ => .error .malformed
  | rounds + 1, byte :: rest, stack =>
    (decodeInstr (byte :: rest)).bind fun decoded =>
      (execInstr machine row decoded.1 stack).bind (runBytes row rounds decoded.2)

/-- `wl_columnar_expr_eval_run_ctx`: the value on top of the stack in the end. -/
def evalRun (row : Row) (bytes : List UInt8) : Except ExprError Cell :=
  (runBytes machine row bytes.length bytes []).map fun stack => (stack.headD ⟨0, .int64⟩).cell

/-! ## Names of columns -/

/-- The byte of a digit. -/
theorem toNat_of_isDigit {c : Char} (digit : c.isDigit) :
    48 ≤ c.toNat ∧ c.toNat ≤ 57 ∧ (UInt8.ofNat c.toNat).toNat = c.toNat := by
  simp only [Char.isDigit, Bool.and_eq_true, decide_eq_true_eq] at digit
  have upper : c.toNat ≤ 57 := digit.2
  exact ⟨digit.1, upper, by rw [UInt8.toNat_ofNat', Nat.mod_eq_of_lt (by omega)]⟩

theorem leadingDigits_map {digits : List Char} (all : ∀ c ∈ digits, c.isDigit) :
    leadingDigits (digits.map fun c => UInt8.ofNat c.toNat) = digitsValue digits := by
  have whole : (digits.map fun c => UInt8.ofNat c.toNat).takeWhile
      (fun byte => 48 ≤ byte && byte ≤ 57) = digits.map fun c => UInt8.ofNat c.toNat := by
    rw [takeWhile_eq_self_iff]
    intro byte member
    obtain ⟨c, inDigits, rfl⟩ := mem_map.mp member
    obtain ⟨lower, upper, same⟩ := toNat_of_isDigit (all c inDigits)
    simp only [Bool.and_eq_true, decide_eq_true_eq, UInt8.le_iff_toNat_le, same]
    exact ⟨lower, upper⟩
  rw [leadingDigits, whole, foldl_map, digitsValue]
  clear whole
  generalize 0 = start
  induction digits generalizing start with
  | nil => rfl
  | cons c rest ih =>
    rw [foldl_cons, foldl_cons, (toNat_of_isDigit (all c (by simp))).2.2,
      ih fun other member => all other (by simp [member])]
    rfl

/-- A text that starts with a digit is read from there on. -/
theorem strtol_of_digit {first : UInt8} (digit : 48 ≤ first.toNat) (rest : List UInt8) :
    strtol (first :: rest) = leadingDigits (first :: rest) := by
  have notSpace : isSpace first = false := by
    have apart : first ≠ 32 := by rintro rfl; revert digit; decide
    have above : ¬ first.toNat ≤ 13 := by omega
    simp [isSpace, apart, UInt8.le_iff_toNat_le, above]
  have kept : (first :: rest).dropWhile isSpace = first :: rest := by
    rw [dropWhile_cons, notSpace, if_neg Bool.false_ne_true]
  rw [strtol, kept]
  split
  · rename_i same
    cases same
    exact absurd digit (by decide)
  · rename_i same
    cases same
    exact absurd digit (by decide)
  · rfl

theorem digitsValue_toDigits (i : Nat) : digitsValue (Nat.toDigits 10 i) = i := by
  have same (digits : List Char) : digitsValue digits = Nat.ofDigitChars 10 digits 0 := rfl
  rw [same, Nat.ofDigitChars_toDigits (by decide) (by decide)]

theorem toList_colName (i : Nat) :
    (colName i).toList = 'c' :: 'o' :: 'l' :: Nat.toDigits 10 i := by simp [colName]

theorem positionalIndex_colName (i : Nat) : positionalIndex (colName i) = some i := by
  have digits : (Nat.toDigits 10 i).all Char.isDigit := by
    simp only [all_eq_true]
    exact fun c member => Nat.isDigit_of_mem_toDigits (by decide) (by decide) member
  have present : Nat.toDigits 10 i ≠ [] := Nat.toDigits_ne_nil
  simp [positionalIndex, toList_colName, digits, present, digitsValue_toDigits]

/-- What a name that spells out a position looks like. -/
theorem digits_of_positional {name : String} (positional : positionalIndex name = some c) :
    ∃ digits, name.toList = 'c' :: 'o' :: 'l' :: digits ∧ digits ≠ [] ∧
      (∀ c ∈ digits, c.isDigit) ∧ digitsValue digits = c := by
  unfold positionalIndex at positional
  split at positional
  · rename_i digits spelled
    split_ifs at positional with proper
    cases positional
    exact ⟨digits, spelled, proper.1, by simpa using proper.2, rfl⟩
  · cases positional

/-- The position that the first 15 digits of a name spell out, which are all that the interpreter
copies. -/
def cutPosition (name : String) : Nat := digitsValue ((name.toList.drop 3).take 15)

/-- The interpreter reads the first 15 digits of a position. -/
theorem columnOfName_of_positional {name : String}
    (positional : positionalIndex name = some c) :
    columnOfName (stringBytes name) = cutPosition name := by
  obtain ⟨digits, spelled, present, all, -⟩ := digits_of_positional positional
  cases digits with
  | nil => exact absurd rfl present
  | cons digit rest =>
    have bytes : stringBytes name = 99 :: 111 :: 108 :: (digit :: rest).map
        fun c => UInt8.ofNat c.toNat := by
      rw [stringBytes, spelled]
      rfl
    obtain ⟨lower, -, same⟩ := toNat_of_isDigit (all digit (by simp))
    have cut : ((digit :: rest).map fun c => UInt8.ofNat c.toNat).take 15 =
        (digit :: rest.take 14).map fun c => UInt8.ofNat c.toNat := by
      rw [← map_take]
      rfl
    have value : leadingDigits ((digit :: rest.take 14).map fun c => UInt8.ofNat c.toNat) =
        digitsValue (digit :: rest.take 14) := by
      refine leadingDigits_map fun c member => all c ?_
      rcases mem_cons.mp member with rfl | later
      · exact mem_cons_self
      · exact mem_cons_of_mem _ (mem_of_mem_take later)
    rw [bytes, map_cons, columnOfName]
    rw [map_cons, map_cons] at cut
    rw [map_cons] at value
    rw [cut, strtol_of_digit (lower.trans_eq same.symm), value, cutPosition, spelled]
    rfl

/-- So does the byte code as a tree, which keeps 32 bits of it. -/
theorem varColumn_of_positional {name : String} (positional : positionalIndex name = some c) :
    varColumn name = cutPosition name % 2 ^ 32 := by
  obtain ⟨digits, spelled, -, all, -⟩ := digits_of_positional positional
  have taken : (digits.take 15).takeWhile Char.isDigit = digits.take 15 :=
    takeWhile_eq_self_iff.mpr fun c member => all c (mem_of_mem_take member)
  simp only [varColumn, cutPosition, spelled, taken]
  rfl

/-- The number of a column has fewer than 15 digits. -/
theorem length_toDigits_le (small : c < 2 ^ 32) : (Nat.toDigits 10 c).length ≤ 15 :=
  Nat.toDigits_length 10 c 15 (by decide) (by omega)

theorem cutPosition_colName (small : c < 2 ^ 32) : cutPosition (colName c) = c := by
  rw [cutPosition, toList_colName, drop_succ_cons, drop_succ_cons, drop_succ_cons, drop_zero,
    take_of_length_le (length_toDigits_le small), digitsValue_toDigits]

theorem length_colName_lt (small : c < 2 ^ 32) : (colName c).length < 2 ^ 16 := by
  have digits := length_toDigits_le small
  rw [← String.length_toList, toList_colName]
  simp only [length_cons]
  omega

theorem truncate16_eq {s : String} (short : s.length < 2 ^ 16) : truncate16 s = s := by
  have whole : s.toList.take (s.length % 2 ^ 16) = s.toList := by
    rw [Nat.mod_eq_of_lt short, ← String.length_toList]
    exact take_length
  rw [truncate16, whole, String.ofList_toList]

/-- The column that a name stands for: the first one it names, or the position it spells
out. -/
def nameColumn (layout : Layout) (name : String) : Option Nat :=
  (lookupName layout.names name).or (positionalIndex name)

/-! ## Runs over bytes -/

section Steps

variable {machine : Machine} {row : Row}

/-- One round of the interpreter. -/
theorem runBytes_of_decoded {bytes after : List UInt8} {instr : Instr} (more : Nat)
    (stack : List Value) (decoded : decodeInstr bytes = .ok (instr, after)) :
    runBytes machine row (1 + more) bytes stack =
      (execInstr machine row instr stack).bind (runBytes machine row more after) := by
  cases bytes with
  | nil => cases decoded
  | cons byte rest =>
    rw [Nat.add_comm, runBytes, decoded]
    rfl

@[simp] theorem runBytes_nil (rounds : Nat) (stack : List Value) :
    runBytes machine row rounds [] stack = .ok stack := by
  cases rounds <;> rfl

/-- On some bytes the interpreter turns a stack into an outcome, whatever follows them, in at most
as many rounds as they are. -/
def Executes (machine : Machine) (row : Row) (bytes : List UInt8) (stack : List Value)
    (out : Except ExprError (List Value)) : Prop :=
  ∃ rounds ≤ bytes.length, ∀ more rest,
    runBytes machine row (rounds + more) (bytes ++ rest) stack =
      out.bind (runBytes machine row more rest)

section Executes

variable {bytes later : List UInt8} {stack mid : List Value} {out : Except ExprError (List Value)}
  {failure : ExprError} {instr : Instr}

theorem executes_nil : Executes machine row [] stack (.ok stack) := by
  refine ⟨0, le_rfl, fun more rest => ?_⟩
  rw [Nat.zero_add]
  rfl

/-- Bytes are executed one part after the other. -/
theorem Executes.append (first : Executes machine row bytes stack (.ok mid))
    (second : Executes machine row later mid out) :
    Executes machine row (bytes ++ later) stack out := by
  obtain ⟨rounds, few, runs⟩ := first
  obtain ⟨rounds', few', runs'⟩ := second
  refine ⟨rounds + rounds', by rw [length_append]; omega, fun more rest => ?_⟩
  rw [Nat.add_assoc, append_assoc, runs]
  exact runs' more rest

/-- After a failure nothing is executed. -/
theorem Executes.append_error (first : Executes machine row bytes stack (.error failure)) :
    Executes machine row (bytes ++ later) stack (.error failure) := by
  obtain ⟨rounds, few, runs⟩ := first
  refine ⟨rounds, few.trans (by simp), fun more rest => ?_⟩
  rw [append_assoc, runs]
  rfl

/-- An instruction is executed in one round. -/
theorem executes_instr (decoded : ∀ rest, decodeInstr (bytes ++ rest) = .ok (instr, rest)) :
    Executes machine row bytes stack (execInstr machine row instr stack) := by
  refine ⟨1, ?_, fun more rest => runBytes_of_decoded more stack (decoded rest)⟩
  -- an instruction is read from at least one byte
  cases bytes with
  | nil =>
    have nothing := decoded []
    cases nothing
  | cons byte others => simp

/-- What the interpreter returns for a whole buffer. -/
theorem Executes.evalRun (executes : Executes machine row bytes [] out) :
    evalRun machine row bytes = out.map fun stack => (stack.headD ⟨0, .int64⟩).cell := by
  obtain ⟨rounds, few, runs⟩ := executes
  have run := runs (bytes.length - rounds) []
  rw [append_nil, Nat.add_sub_cancel' few] at run
  rw [Plan.evalRun, run]
  cases out with
  | error failure => rfl
  | ok stack => simp [Except.bind]

end Executes

theorem decodeInstr_op {byte : UInt8} (rest : List UInt8)
    (found : opcodeOf byte = some op) : decodeInstr (byte :: rest) = .ok (.op op, rest) := by
  simp only [decodeInstr]
  split
  case h_10 => rw [found]; rfl
  -- the bytes with a payload are no operations
  all_goals
    rename_i payload
    rw [opcodeOf, payload] at found
    cases found

/-- An operation other than an extension call takes the same operands however many were
written. -/
theorem runOpcode_count (notCall : ∀ name abi, op ≠ .extensionCall name abi)
    (count : Nat) (stack : List Value) :
    runOpcode machine op 0 stack = runOpcode machine op count stack := by
  cases op with
  | extensionCall name abi => exact absurd rfl (notCall name abi)
  | agg fn => cases fn <;> rfl
  | _ => rfl

/-- An operation is executed on the operands that it finds. -/
theorem executes_op (notCall : ∀ name abi, op ≠ .extensionCall name abi)
    (written : opcodeOf (opcodeByte op) = some op) (count : Nat) (stack : List Value) :
    Executes machine row (opcodeBytes op count) stack (runOpcode machine op count stack) := by
  have bytes : opcodeBytes op count = [opcodeByte op] := by
    cases op with
    | extensionCall name abi => exact absurd rfl (notCall name abi)
    | _ => rfl
  have decoded : ∀ rest, decodeInstr ([opcodeByte op] ++ rest) = .ok (.op op, rest) := fun rest =>
    decodeInstr_op rest written
  rw [bytes, ← runOpcode_count notCall count]
  exact executes_instr decoded

end Steps

/-! ## Strings -/

def isBytes (s : String) : Bool := s.toList.all fun c => c.toNat < 256

theorem length_stringBytes (s : String) : (stringBytes s).length = s.length := by
  rw [stringBytes, length_map, String.length_toList]

theorem bytesString_stringBytes (bytes : isBytes s) :
    bytesString (stringBytes s) = s := by
  have small : ∀ c ∈ s.toList, c.toNat < 256 := by simpa [isBytes] using bytes
  have back : (s.toList.map fun c => UInt8.ofNat c.toNat).map (fun byte => Char.ofNat byte.toNat) =
      s.toList := by
    rw [map_map]
    refine (map_congr_left fun c member => ?_).trans (map_id _)
    have same : (UInt8.ofNat c.toNat).toNat = c.toNat := by
      rw [UInt8.toNat_ofNat', Nat.mod_eq_of_lt (small c member)]
    simp [same, id]
  rw [bytesString, stringBytes, back, String.ofList_toList]

/-- A string that fits its 16-bit length is read back. -/
theorem readCounted_shortField (short : s.length < 2 ^ 16) (rest : List UInt8) :
    readCounted 2 (shortField s ++ rest) = some (stringBytes s, rest) := by
  have length := length_stringBytes s
  have whole : (stringBytes s).take (s.length % 2 ^ 16) = stringBytes s := by
    rw [Nat.mod_eq_of_lt short]
    exact take_of_length_le (by omega)
  rw [shortField, whole, Nat.mod_eq_of_lt short, ← length]
  exact readCounted_append (by omega) rest

/-- The interface data of extensions fits its fields. -/
def FieldsFit (snapshot : Option Snapshot) : Prop :=
  ∀ find, snapshot = some find → ∀ name found, find name = some found →
    found.addonAbiIdentity < 2 ^ 64 ∧ found.addonAbiVersion < 2 ^ 32

/-! ## Instructions are read back -/

section Instructions

variable {machine : Machine} {row : Row} {snapshot : Option Snapshot} {name : String}

/-- The name and the number of arguments of an extension call are read back. -/
theorem decodeExtension_append {count : Nat} (short : name.length < 2 ^ 16) (few : count < 2 ^ 32)
    (rest : List UInt8) :
    decodeExtension (leBytes 2 name.length ++ stringBytes name ++ leBytes 4 count ++ rest) =
      .ok ((stringBytes name, count), rest) := by
  have readName : readCounted 2 (leBytes 2 (stringBytes name).length ++ stringBytes name ++
      (leBytes 4 count ++ rest)) = some (stringBytes name, leBytes 4 count ++ rest) :=
    readCounted_append (by rw [length_stringBytes]; omega) _
  rw [length_stringBytes] at readName
  have readCount : readNat 4 (leBytes 4 count ++ rest) = some (count, rest) :=
    readNat_leBytes (by omega) rest
  rw [decodeExtension, append_assoc (leBytes 2 name.length ++ stringBytes name), readName]
  simp only [required, bind, Except.bind, readCount]
  rfl

theorem decodeInstr_extensionCall {count : Nat} {abi : Option (Nat × Nat)}
    (short : name.length < 2 ^ 16) (few : count < 2 ^ 32)
    (fits : ∀ identity version, abi = some (identity, version) →
      identity < 2 ^ 64 ∧ version < 2 ^ 32)
    (rest : List UInt8) :
    decodeInstr (opcodeBytes (.extensionCall name abi) count ++ rest) =
      .ok (.extensionCall (stringBytes name) count abi, rest) := by
  cases abi with
  | none =>
    have bytes : opcodeBytes (.extensionCall name none) count ++ rest =
        0x80 :: (leBytes 2 name.length ++ stringBytes name ++ leBytes 4 count ++ rest) := by
      simp [opcodeBytes, opcodeByte, extensionPayload]
    have decoded : ∀ after, decodeInstr (0x80 :: after) = (decodeExtension after).bind fun call =>
        .ok (.extensionCall call.1.1 call.1.2 none, call.2) := fun after => rfl
    rw [bytes, decoded, decodeExtension_append short few]
    rfl
  | some data =>
    obtain ⟨identity, version⟩ := data
    obtain ⟨identityFits, versionFits⟩ := fits identity version rfl
    have bytes : opcodeBytes (.extensionCall name (some (identity, version))) count ++ rest =
        0x81 :: (leBytes 2 name.length ++ stringBytes name ++ leBytes 4 count ++
          (leBytes 8 identity ++ (leBytes 4 version ++ rest))) := by
      simp [opcodeBytes, opcodeByte, extensionPayload]
    have decoded : ∀ after, decodeInstr (0x81 :: after) = (decodeExtension after).bind fun call =>
        (required .extension (readNat 8 call.2)).bind fun field =>
          (required .extension (readNat 4 field.2)).bind fun field' =>
            .ok (.extensionCall call.1.1 call.1.2 (some (field.1, field'.1)), field'.2) :=
      fun after => rfl
    have readIdentity : readNat 8 (leBytes 8 identity ++ (leBytes 4 version ++ rest)) =
        some (identity, leBytes 4 version ++ rest) := readNat_leBytes (by omega) _
    have readVersion : readNat 4 (leBytes 4 version ++ rest) = some (version, rest) :=
      readNat_leBytes (by omega) _
    rw [bytes, decoded, decodeExtension_append short few]
    simp [Except.bind, required, readIdentity, readVersion]

/-- An extension call is executed on its arguments, if its name fits the interpreter's buffer. -/
theorem executes_extensionCall {count : Nat} {abi : Option (Nat × Nat)} (bytes : isBytes name)
    (short : name.length < 2 ^ 16) (few : count < 2 ^ 32)
    (fits : ∀ identity version, abi = some (identity, version) →
      identity < 2 ^ 64 ∧ version < 2 ^ 32)
    (stack : List Value) (present : count ≤ stack.length) :
    Executes machine row (opcodeBytes (.extensionCall name abi) count) stack
      (if 0 < name.length ∧ name.length < 256 then
        runOpcode machine (.extensionCall name abi) count stack
      else .error .extension) := by
  have length := length_stringBytes name
  have named : stringBytes name = [] ↔ name.length = 0 := by
    rw [← List.length_eq_zero_iff, length]
  have accepted : execInstr machine row (.extensionCall (stringBytes name) count abi) stack =
      if 0 < name.length ∧ name.length < 256 then
        runOpcode machine (.extensionCall name abi) count stack
      else .error .extension := by
    rw [execInstr, bytesString_stringBytes bytes]
    simp only [named, length]
    by_cases fit : 0 < name.length ∧ name.length < 256
    · rw [if_pos fit, if_neg (by omega)]
    · rw [if_neg fit, if_pos (by omega)]
  rw [← accepted]
  exact executes_instr (decodeInstr_extensionCall short few fits)

theorem extensionOpcode_cases (fit : FieldsFit snapshot)
    (found : extensionOpcode snapshot name = some op) :
    ∃ abi, op = .extensionCall name abi ∧ ∀ identity version, abi = some (identity, version) →
      identity < 2 ^ 64 ∧ version < 2 ^ 32 := by
  unfold extensionOpcode at found
  split at found
  · cases found
    exact ⟨none, rfl, fun _ _ => nofun⟩
  rename_i find
  split at found
  · cases found
  rename_i descriptor here
  split_ifs at found
  · cases found
    exact ⟨none, rfl, fun _ _ => nofun⟩
  cases found
  refine ⟨_, rfl, fun identity version same => ?_⟩
  cases same
  exact fit find rfl name descriptor here

theorem decodeInstr_var (tag : VarTag) (short : s.length < 2 ^ 16) (rest : List UInt8) :
    decodeInstr (varTagByte tag :: shortField s ++ rest) =
      .ok (.var tag (stringBytes s), rest) := by
  have decoded : ∀ after, decodeInstr (varTagByte tag :: after) =
      (required .malformed (readCounted 2 after)).map fun found => (.var tag found.1, found.2) := by
    intro after
    cases tag <;> rfl
  rw [cons_append, decoded, readCounted_shortField short]
  rfl

theorem decodeInstr_constStr (short : s.length < 2 ^ 16) (rest : List UInt8) :
    decodeInstr (0x03 :: shortField s ++ rest) = .ok (.constStr (stringBytes s), rest) := by
  have decoded : ∀ after, decodeInstr (0x03 :: after) =
      (required .malformed (readCounted 2 after)).map fun found => (.constStr found.1, found.2) :=
    fun after => rfl
  rw [cons_append, decoded, readCounted_shortField short]
  rfl

theorem readNat_cell (value : Cell) (rest : List UInt8) :
    (readNat 8 (leBytes 8 value.toNat ++ rest)).map
        (fun found => (BitVec.ofNat 64 found.1, found.2)) = some (value, rest) := by
  have small : value.toNat < 256 ^ 8 := by
    have bound := value.isLt
    omega
  rw [readNat_leBytes small, Option.map_some, BitVec.ofNat_toNat, BitVec.setWidth_eq]

theorem decodeInstr_cell {byte : UInt8} {instr : Cell → Instr}
    (decoded : ∀ after, decodeInstr (byte :: after) =
      (required .malformed (readNat 8 after)).map fun found =>
        (instr (BitVec.ofNat 64 found.1), found.2)) (value : Cell) (rest : List UInt8) :
    decodeInstr (byte :: leBytes 8 value.toNat ++ rest) = .ok (instr value, rest) := by
  have read := readNat_cell value rest
  cases field : readNat 8 (leBytes 8 value.toNat ++ rest) with
  | none => simp [field] at read
  | some found =>
    rw [field, Option.map_some, Option.some.injEq, Prod.mk.injEq] at read
    rw [cons_append, decoded, field]
    simp [required, Except.map, read.1, read.2]

end Instructions

end Wirelog.Plan

import Wirelog.Columnar.RowSort
import Wirelog.Plan.ExprValue

/-!
# The value of an expression

`exprValue` is what an expression tree means on a row by the documented operators: it works on the
tree and knows neither opcodes nor a stack. Values carry the type that is known of them, which
chooses between the operators on integers, on finite doubles and on strings. A tree without a
documented meaning (an operator with the wrong operands, integers mixed with doubles, a name that
is no column) has none.

The interpreter computes this value on the buffer of every expression whose parts stay within its
limits (`evalRun_eq_exprValue`). The limits concern only what is reached on this row
(`partsWithin`): an operand is pushed on a stack with fewer than 64 entries, a string constant is
shorter than 65536 bytes, a position has 15 digits, the name of an extension 255 bytes, and strings
that are ordered have been interned. A right-nested sum of 65 terms needs one entry more than
there is, and the interpreter computes 64 (`evalRun_rightSum`).
-/

set_option autoImplicit false

namespace Wirelog.Plan

open Wirelog.IR Wirelog.Columnar Wirelog.Foundations List
open Wirelog.Functions.Uuid5 (FiltBytes psaHashPair psaHashFrame)

/-! ## Meanings -/

/-- A value and what is known of its type. -/
structure TypedValue extends Value where
  type : ColType

/-- What is documented: a value, a failure, or nothing. -/
abbrev Meaning (α : Type) := Option (Except ExprError α)

/-- A failure ends an evaluation. -/
def Meaning.andThen {α β : Type} (first : Meaning α) (next : α → Meaning β) : Meaning β :=
  match first with
  | some (.ok value) => next value
  | some (.error failure) => some (.error failure)
  | none => none

def Meaning.hasValue {α : Type} : Meaning α → Bool
  | some (.ok _) => true
  | _ => false

theorem Meaning.andThen_eq_some_iff {α β : Type} {first : Meaning α} {next : α → Meaning β}
    {result : Except ExprError β} : first.andThen next = some result ↔
      (∃ failure, first = some (.error failure) ∧ result = .error failure) ∨
        ∃ value, first = some (.ok value) ∧ next value = some result := by
  match first with
  | none => simp [andThen]
  | some (.ok value) => simp [andThen]
  | some (.error failure) => simp [andThen, eq_comm]

theorem Meaning.andThen_eq_ok_iff {α β : Type} {first : Meaning α} {next : α → Meaning β}
    {value : β} : first.andThen next = some (.ok value) ↔
      ∃ before, first = some (.ok before) ∧ next before = some (.ok value) := by
  simp [andThen_eq_some_iff]

/-- A computed cell of a type. -/
def typed (type : ColType) (result : Except ExprError Cell) : Meaning TypedValue :=
  some (result.map fun cell => ⟨⟨cell, .int64⟩, type⟩)

/-! ## Operators -/

section Operators

variable (outside : Outside)

/-- The string of a value that is declared a string; a declaration does not make it one. -/
def stringOf (value : TypedValue) : Option String :=
  if value.type = .string then outside.reverse value.cell else none

/-- The bytes that a digest covers: those of a string, or the eight bytes of the value. -/
def digestBytes (value : TypedValue) : List UInt8 :=
  match stringOf outside value with
  | some text => stringBytes text
  | none => leBytes 8 value.cell.toNat

/-- An operand of `uuid5` beside a string: a letter for its kind, its length, its bytes. -/
def framedBytes (value : TypedValue) : List UInt8 :=
  (if (stringOf outside value).isSome then 0x53 else 0x49) ::
    (leBytes 8 (digestBytes outside value).length ++ digestBytes outside value)

def uuid5Input (ns name : TypedValue) : List UInt8 :=
  if ns.type = .string ∨ name.type = .string then framedBytes outside ns ++ framedBytes outside name
  else digestBytes outside ns ++ digestBytes outside name

/-- Arithmetic on doubles. -/
def floatMeaning (op : ArithOp) : List TypedValue → Meaning TypedValue
  | [a, b] =>
    if a.type = .float ∧ b.type = .float then
      match op with
      | .add | .sub | .mul | .div => typed .float (outside.finiteArith op a.cell b.cell)
      | _ => none
    else none
  | _ => none

/-- Arithmetic, bit operations and digests. -/
def arithMeaning (op : ArithOp) (operands : List TypedValue) : Meaning TypedValue :=
  if ∃ operand ∈ operands, operand.type = .float then floatMeaning outside op operands
  else match op, operands with
    | .uuid4, [] => typed .scalar outside.uuid4
    | .bnot, [a] => typed .scalar (.ok (~~~a.cell))
    | .hash, [a] | .crc32Eth, [a] | .crc32Cast, [a] | .md5, [a] | .sha1, [a] | .sha256, [a]
    | .sha512, [a] => typed .scalar (outside.digest op (digestBytes outside a))
    | .hmacSha256, [msg, key] =>
      typed .scalar (outside.hmacSha256 (digestBytes outside msg) (digestBytes outside key))
    | .uuid5, [ns, name] => typed .scalar (outside.uuid5 (uuid5Input outside ns name))
    | op, [a, b] => (documentedArith a.cell b.cell op).bind (typed .scalar)
    | _, _ => none

/-- Whether a comparison is one of order. -/
def CmpOp.isOrder : CmpOp → Bool
  | .eq | .neq => false
  | _ => true

/-- Comparisons of values other than doubles. Strings are ordered as strings; ids that name none
are ordered as ids. -/
def compareValues (op : CmpOp) (a b : TypedValue) : Bool :=
  match CmpOp.isOrder op, stringOf outside a, stringOf outside b with
  | true, some s, some t => ordered op s.toList t.toList
  | _, _, _ => ordered op a.cell.toInt b.cell.toInt

def cmpMeaning (op : CmpOp) : List TypedValue → Meaning TypedValue
  | [a, b] =>
    if a.type = .float ∧ b.type = .float then
      typed .scalar (if floatBitsValid a.cell ∧ floatBitsValid b.cell then
        .ok (if ordered op (floatRank a.cell) (floatRank b.cell) then 1 else 0)
      else .error .malformed)
    else if a.type = .float ∨ b.type = .float then none
    else typed .scalar (.ok (if compareValues outside op a b then 1 else 0))
  | _ => none

/-- How many operands a string function has, and what it returns. -/
def strFnSignature : StrFn → Nat × ColType
  | .strlen | .strOrd | .toNumber => (1, .scalar)
  | .toUpper | .toLower | .trim | .toString => (1, .string)
  | .contains | .strPrefix | .strSuffix => (2, .scalar)
  | .cat | .uuid5Rfc => (2, .string)
  | .substr | .strReplace => (3, .string)

def strFnMeaning (fn : StrFn) (operands : List TypedValue) : Meaning TypedValue :=
  if operands.length = (strFnSignature fn).1 then
    typed (strFnSignature fn).2 (outside.strFn fn (operands.map fun operand => operand.cell))
  else none

/-- The interface that a snapshot records of an extension. -/
def abiOf (snapshot : Option Snapshot) (name : String) : Option (Nat × Nat) :=
  (snapshot.bind (· name)).bind fun found =>
    if found.addonAbiIdentity = 0 then none
    else some (found.addonAbiIdentity, found.addonAbiVersion)

def extensionMeaning (snapshot : Option Snapshot) (name : String) (operands : List TypedValue) :
    Meaning TypedValue :=
  some ((outside.extensionCall name (abiOf snapshot name)
    (operands.map TypedValue.toValue)).map (⟨·, .scalar⟩))

/-- The value of a column. A column that does not exist reads as zero, except for a double and
for a string that is handed to an extension. -/
def columnValue (extensionArg : Bool) (type : ColType) (cell : Option Cell) :
    Except ExprError TypedValue :=
  if type = .float then
    match cell with
    | some bits => if floatBitsValid bits then .ok ⟨⟨bits, .int64⟩, type⟩ else .error .malformed
    | none => .error .malformed
  else if extensionArg ∧ type = .string then
    match cell, cell.bind outside.reverse with
    | some id, some text => .ok ⟨⟨id, .string text⟩, type⟩
    | _, _ => .error .malformed
  else .ok ⟨⟨cell.getD 0, .int64⟩, type⟩

end Operators

/-! ## Trees -/

section Trees

variable (outside : Outside) (snapshot : Option Snapshot) (layout : Layout) (row : Row)

mutual

/-- **The documented value of an expression on a row.** -/
def exprValue (extensionArg : Bool) : IrExpr → Meaning TypedValue
  | .var name => (nameColumn layout name).map fun column =>
    columnValue outside extensionArg (layout.typeAt column) row.cells[column]?
  | .constInt value => typed .scalar (.ok value)
  | .constFloat bits =>
    typed .float (if floatBitsValid bits then .ok bits else .error .malformed)
  | .constStr value => some (.ok ⟨⟨outside.intern value, .string value⟩, .string⟩)
  | .bool value => some (.ok ⟨⟨if value then 1 else 0, .bool⟩, .scalar⟩)
  | .arith op args => (operandValues false args).andThen (arithMeaning outside op)
  | .cmp op args => (operandValues false args).andThen (cmpMeaning outside op)
  | .agg _ _ => none
  | .strFn fn args => (operandValues false args).andThen (strFnMeaning outside fn)
  | .extensionCall name args =>
    (operandValues true args).andThen (extensionMeaning outside snapshot name)

/-- The values of operands, from left to right. -/
def operandValues (extensionArg : Bool) : List IrExpr → Meaning (List TypedValue)
  | [] => some (.ok [])
  | expr :: rest => (exprValue extensionArg expr).andThen fun value =>
    (operandValues extensionArg rest).andThen fun values => some (.ok (value :: values))

end

/-! ## Limits -/

/-- A position that is spelled out is read from its first 15 digits, as a number of 32 bits. -/
def nameFits (name : String) : Bool :=
  match lookupName layout.names name, positionalIndex name with
  | none, some position =>
    name.length < 2 ^ 16 &&
      (cutPosition name < 2 ^ 32 || row.cells.length ≤ cutPosition name % 2 ^ 32) &&
      row.cells[cutPosition name]? = row.cells[position]?
  | _, _ => true

/-- Two strings that are ordered have been interned, unless the order of their ids does not hold
either. -/
def orderFits (op : CmpOp) : Meaning (List TypedValue) → Bool
  | some (.ok [a, b]) =>
    !(CmpOp.isOrder op && a.type = .string && b.type = .string) ||
      ((outside.reverse a.cell).isSome && (outside.reverse b.cell).isSome) ||
      !ordered op a.cell.toInt b.cell.toInt
  | _ => true

/-- The name of an extension that is called has between 1 and 255 bytes, unless the call is
refused anyway. -/
def callFits (name : String) : Meaning (List TypedValue) → Bool
  | some (.ok operands) =>
    (0 < name.length && name.length < 256) ||
      match outside.extensionCall name (abiOf snapshot name)
        (operands.map TypedValue.toValue) with
      | .error .extension => true
      | _ => false
  | _ => true

mutual

/-- What is evaluated on the row inside of an expression stays within the limits of the
interpreter, above `used` entries of its stack. -/
def partsWithin : IrExpr → Nat → Bool
  | .var name, _ => nameFits layout row name
  | .constStr value, _ => value.length < 2 ^ 16
  | .constInt _, _ | .constFloat _, _ | .bool _, _ => true
  | .arith _ args, used | .strFn _ args, used | .agg _ args, used => operandsWithin false args used
  | .cmp op args, used => operandsWithin false args used &&
      orderFits outside op (operandValues outside snapshot layout row false args)
  | .extensionCall name args, used => operandsWithin true args used &&
      callFits outside snapshot name (operandValues outside snapshot layout row true args)

/-- Each operand that has a value finds room for it on the stack. -/
def operandsWithin (extensionArg : Bool) : List IrExpr → Nat → Bool
  | [], _ => true
  | expr :: rest, used => partsWithin expr used &&
      (!(exprValue outside snapshot layout row extensionArg expr).hasValue ||
        (used < 64 && operandsWithin extensionArg rest (used + 1)))

end

end Trees

/-! ## Types -/

section Types

variable {outside : Outside} {snapshot : Option Snapshot} {layout : Layout} {row : Row}
  {extensionArg : Bool} {expr : IrExpr} {args : List IrExpr}

theorem typed_eq_ok {type : ColType} {result : Except ExprError Cell} {value : TypedValue}
    (found : typed type result = some (.ok value)) : value.type = type := by
  cases result with
  | error failure => cases found
  | ok cell =>
    cases found
    rfl

theorem columnValue_type {type : ColType} {cell : Option Cell} {value : TypedValue}
    (found : columnValue outside extensionArg type cell = .ok value) : value.type = type := by
  unfold columnValue at found
  split_ifs at found with float text
  · split at found
    · split_ifs at found
      cases found
      rfl
    · cases found
  · split at found
    · cases found
      rfl
    · cases found
  · cases found
    rfl

theorem allFloat_iff : allFloat layout args ↔ ∀ arg ∈ args, exprResultType layout arg = .float := by
  induction args with
  | nil => simp [allFloat]
  | cons arg rest ih => simp [allFloat, ih]

/-- A result is a double exactly when it is computed from doubles. -/
theorem arithMeaning_type {op : ArithOp} {values : List TypedValue} {value : TypedValue}
    (found : arithMeaning outside op values = some (.ok value)) :
    value.type = if values ≠ [] ∧ ∀ other ∈ values, other.type = .float then .float
      else .scalar := by
  unfold arithMeaning at found
  by_cases float : ∃ operand ∈ values, operand.type = .float
  · rw [if_pos float, floatMeaning.eq_def] at found
    split at found
    · rename_i a b
      split_ifs at found with both
      rw [if_pos (by simpa using both)]
      split at found
      · exact typed_eq_ok found
      · exact typed_eq_ok found
      · exact typed_eq_ok found
      · exact typed_eq_ok found
      · cases found
    · cases found
  · rw [if_neg float] at found
    have scalar : ¬ (values ≠ [] ∧ ∀ other ∈ values, other.type = .float) := by
      rintro ⟨some, all⟩
      obtain ⟨first, member⟩ := exists_mem_of_ne_nil values some
      exact float ⟨first, member, all first member⟩
    rw [if_neg scalar]
    split at found
    all_goals first | exact typed_eq_ok found | cases found | skip
    obtain ⟨result, -, found⟩ := Option.bind_eq_some_iff.mp found
    exact typed_eq_ok found

theorem lookupType_of_nameColumn {name : String} {column : Nat}
    (found : nameColumn layout name = some column) :
    layout.lookupType name = layout.typeAt column := by
  unfold nameColumn at found
  unfold Layout.lookupType
  cases named : lookupName layout.names name with
  | some c =>
    rw [named, Option.some_or] at found
    cases found
    rfl
  | none =>
    rw [named, Option.none_or] at found
    simp only [found]

theorem operandValues_cons_eq_some_iff {results : Except ExprError (List TypedValue)}
    {rest : List IrExpr} :
    operandValues outside snapshot layout row extensionArg (expr :: rest) = some results ↔
      (∃ failure, exprValue outside snapshot layout row extensionArg expr =
          some (.error failure) ∧ results = .error failure) ∨
        ∃ value, exprValue outside snapshot layout row extensionArg expr = some (.ok value) ∧
          ∃ later, operandValues outside snapshot layout row extensionArg rest = some later ∧
            results = later.map (value :: ·) := by
  rw [operandValues, Meaning.andThen_eq_some_iff]
  refine or_congr_right (exists_congr fun value => and_congr_right fun _ => ?_)
  rw [Meaning.andThen_eq_some_iff]
  constructor
  · rintro (⟨failure, failed, rfl⟩ | ⟨values, found, same⟩)
    · exact ⟨_, failed, rfl⟩
    · exact ⟨_, found, (Option.some.inj same).symm⟩
  · rintro ⟨later, found, rfl⟩
    cases later with
    | error failure => exact .inl ⟨failure, found, rfl⟩
    | ok values => exact .inr ⟨values, found, rfl⟩

/-- Operands that have values have the types that the serializer takes them for. -/
theorem operandValues_types
    (each : ∀ arg ∈ args, ∀ extensionArg value,
      exprValue outside snapshot layout row extensionArg arg = some (.ok value) →
        value.type = exprResultType layout arg)
    {values : List TypedValue}
    (found : operandValues outside snapshot layout row extensionArg args = some (.ok values)) :
    values.map TypedValue.type = args.map (exprResultType layout) := by
  induction args generalizing values with
  | nil =>
    cases found
    rfl
  | cons arg rest ih =>
    rcases operandValues_cons_eq_some_iff.mp found with
      ⟨_, -, same⟩ | ⟨value, here, later, there, same⟩
    · cases same
    cases later with
    | error failure => cases same
    | ok others =>
      cases same
      rw [map_cons, map_cons, each arg (by simp) extensionArg value here,
        ih (fun other member => each other (by simp [member])) there]

/-- **Types**: a value has the type that the serializer takes its expression for. -/
theorem exprValue_type (expr : IrExpr) : ∀ extensionArg value,
    exprValue outside snapshot layout row extensionArg expr = some (.ok value) →
      value.type = exprResultType layout expr := by
  induction expr using IrExpr.induction with
  | var name =>
    intro extensionArg value found
    obtain ⟨column, named, loaded⟩ := Option.map_eq_some_iff.mp found
    rw [columnValue_type loaded, exprResultType, lookupType_of_nameColumn named]
  | constInt cell | constFloat bits =>
    intro _ value found
    exact typed_eq_ok found
  | constStr text | bool b =>
    intro _ value found
    cases found
    rfl
  | arith op args ih =>
    intro _ value found
    obtain ⟨values, operands, found⟩ := Meaning.andThen_eq_ok_iff.mp found
    have types := operandValues_types ih operands
    have empty : values ≠ [] ↔ args ≠ [] := by
      rw [ne_eq, ne_eq, ← @map_eq_nil_iff _ _ TypedValue.type, types, map_eq_nil_iff]
    have float : (∀ other ∈ values, other.type = .float) ↔ allFloat layout args := by
      rw [allFloat_iff, ← forall_mem_map (P := (· = ColType.float)), types, forall_mem_map]
    rw [arithMeaning_type found, exprResultType]
    simp only [empty, float]
  | cmp op args ih =>
    intro _ value found
    obtain ⟨values, operands, found⟩ := Meaning.andThen_eq_ok_iff.mp found
    unfold cmpMeaning at found
    split at found
    · split_ifs at found <;> exact typed_eq_ok found
    · cases found
  | agg fn args ih =>
    intro _ value found
    cases found
  | strFn fn args ih =>
    intro _ value found
    obtain ⟨values, operands, found⟩ := Meaning.andThen_eq_ok_iff.mp found
    unfold strFnMeaning at found
    split_ifs at found
    rw [typed_eq_ok found]
    cases fn <;> rfl
  | extensionCall name args ih =>
    intro _ value found
    obtain ⟨values, operands, found⟩ := Meaning.andThen_eq_ok_iff.mp found
    rw [extensionMeaning, Option.some.injEq] at found
    cases called : outside.extensionCall name (abiOf snapshot name)
      (values.map TypedValue.toValue) with
    | error failure =>
      rw [called] at found
      cases found
    | ok answer =>
      rw [called] at found
      cases found
      rfl

end Types

/-! ## The operations compute what is documented -/

section Operations

variable {outside : Outside} {values : List TypedValue} {result : Except ExprError TypedValue}

/-- The type of the value at a position, unknown for one that does not exist. -/
def valueType (values : List TypedValue) (i : Nat) : ColType :=
  (values[i]?.map TypedValue.type).getD .unknown

/-- The entry of the stack that an operation leaves. -/
abbrev entry (result : Except ExprError TypedValue) : Except ExprError Value :=
  result.map TypedValue.toValue

theorem entry_typed {type : ColType} {computed : Except ExprError Cell}
    (meaning : typed type computed = some result) :
    computed.map (fun cell => (⟨cell, .int64⟩ : Value)) = entry result := by
  cases meaning
  cases computed <;> rfl

theorem filtDigestBytes_eq (value : TypedValue) :
    outside.filtDigestBytes value.cell (value.type = .string) =
      ⟨digestBytes outside value, (stringOf outside value).isSome⟩ := by
  unfold Outside.filtDigestBytes digestBytes stringOf
  by_cases declared : value.type = .string
  · simp only [declared, decide_true, if_true]
    cases outside.reverse value.cell <;> rfl
  · simp only [declared, decide_false, Bool.false_eq_true, if_false]
    rfl

theorem bytes_filtDigestBytes (value : TypedValue) :
    (outside.filtDigestBytes value.cell (value.type = .string)).bytes =
      digestBytes outside value := by
  rw [filtDigestBytes_eq]

theorem psaHashPair_eq (ns name : TypedValue) :
    psaHashPair (decide (ns.type = .string) || decide (name.type = .string))
        (outside.filtDigestBytes ns.cell (ns.type = .string)).tag
        (outside.filtDigestBytes ns.cell (ns.type = .string)).bytes
        (outside.filtDigestBytes name.cell (name.type = .string)).tag
        (outside.filtDigestBytes name.cell (name.type = .string)).bytes =
      uuid5Input outside ns name := by
  rw [filtDigestBytes_eq, filtDigestBytes_eq, uuid5Input, psaHashPair]
  by_cases framed : ns.type = .string ∨ name.type = .string
  · rw [if_pos framed]
    simp [framed, psaHashFrame, framedBytes, FiltBytes.tag]
  · rw [if_neg framed]
    simp [not_or.mp framed]

/-- Arithmetic on doubles has opcodes of its own. -/
theorem applyOp_float {op : ArithOp} {tag : PlanOpcode}
    (tagged : arithToTag op (valueType values 0) (valueType values 1) = some tag)
    (meaning : floatMeaning outside op values = some result) :
    tag.arity values.length = values.length ∧
      applyOp (interpreterMachine outside) tag (values.map TypedValue.toValue) = entry result := by
  unfold floatMeaning at meaning
  split at meaning
  · rename_i a b
    split_ifs at meaning with float
    simp only [valueType, getElem?_cons_zero, getElem?_cons_succ, Option.map_some,
      Option.getD_some, arithToTag, float, and_self, if_true] at tagged
    cases op
    case add | sub | mul | div =>
      cases tagged
      exact ⟨rfl, entry_typed meaning⟩
    all_goals cases meaning
  · cases meaning

/-- The operations on two integers. -/
theorem applyOp_integers {a b : Cell} {op : ArithOp} {computed : Except ExprError Cell}
    (documented : documentedArith a b op = some computed) :
    arithOpIsDigest op = false ∧ arithArity op = 2 ∧
      ∀ x y : Value, x.cell = a → y.cell = b →
        applyOp (interpreterMachine outside) (.arith op) [x, y] =
          computed.map fun cell => ⟨cell, .int64⟩ := by
  have same := interpreterArith_eq documented
  cases op
  case add | sub | mul | div | mod | band | bor | bxor | shl | shr =>
    refine ⟨rfl, rfl, ?_⟩
    rintro x y rfl rfl
    rw [← same]
    rfl
  all_goals cases documented

/-- **Arithmetic**: the opcode that the types of the operands choose computes what is documented
of them. -/
theorem applyOp_arith {op : ArithOp} {tag : PlanOpcode}
    (tagged : arithToTag op (valueType values 0) (valueType values 1) = some tag)
    (meaning : arithMeaning outside op values = some result) :
    tag.arity values.length = values.length ∧
      applyOp (interpreterMachine outside) tag (values.map TypedValue.toValue) = entry result := by
  unfold arithMeaning at meaning
  by_cases float : ∃ operand ∈ values, operand.type = .float
  · rw [if_pos float] at meaning
    exact applyOp_float tagged meaning
  rw [if_neg float] at meaning
  split at meaning
  · -- `uuid4`
    cases tagged
    exact ⟨rfl, entry_typed meaning⟩
  · -- `bnot`
    rename_i a
    have scalar : a.type ≠ .float := fun same => float ⟨a, mem_singleton_self a, same⟩
    simp only [arithToTag, arithOpIsDigest, valueType, getElem?_cons_zero, Option.map_some,
      Option.getD_some, scalar, false_and, Bool.false_eq_true, if_false] at tagged
    cases tagged
    exact ⟨rfl, entry_typed meaning⟩
  iterate 7
    · -- a digest of one operand
      rename_i a
      rw [← entry_typed meaning, ← bytes_filtDigestBytes]
      cases tagged
      exact ⟨rfl, rfl⟩
  · -- `hmac_sha256`
    rename_i msg key
    rw [← entry_typed meaning, ← bytes_filtDigestBytes msg, ← bytes_filtDigestBytes key]
    cases tagged
    exact ⟨rfl, rfl⟩
  · -- `uuid5`
    rename_i ns name
    rw [← entry_typed meaning, ← psaHashPair_eq]
    cases tagged
    exact ⟨rfl, rfl⟩
  · -- two integers
    rename_i a b _ _
    obtain ⟨computed, documented, meaning⟩ := Option.bind_eq_some_iff.mp meaning
    have scalar : a.type ≠ .float := fun same => float ⟨a, by simp, same⟩
    obtain ⟨noDigest, arity, applied⟩ := applyOp_integers documented
    simp only [arithToTag, noDigest, valueType, getElem?_cons_zero, Option.map_some,
      Option.getD_some, scalar, false_and, Bool.false_eq_true, if_false] at tagged
    cases tagged
    exact ⟨arity, (applied a.toValue b.toValue rfl rfl).trans (entry_typed meaning)⟩
  · cases meaning

theorem cmpCells_eq (op : CmpOp) (a b : Cell) : cmpCells op a b = ordered op a.toInt b.toInt := by
  cases op <;> simp [cmpCells, ordered, BitVec.toInt_inj]

/-- Finite doubles are compared by value. -/
theorem cmpFloats_eq {a b : Cell} (here : floatBitsValid a = true) (there : floatBitsValid b = true)
    (op : CmpOp) : cmpFloats op a b = ordered op (floatRank a) (floatRank b) := by
  obtain ⟨below, same⟩ := floatCompareBits_rank here there
  have above : 0 < floatCompareBits a b ↔ floatRank b < floatRank a := by omega
  have notAbove : floatCompareBits a b ≤ 0 ↔ floatRank a ≤ floatRank b := by omega
  have notBelow : 0 ≤ floatCompareBits a b ↔ floatRank b ≤ floatRank a := by omega
  cases op <;> simp only [cmpFloats, ordered, below, same, above, notAbove, notBelow, ne_eq]

theorem isOrder_iff {op : CmpOp} : CmpOp.isOrder op = true ↔ op ≠ .eq ∧ op ≠ .neq := by
  cases op <;> decide

/-- Ids are ordered as ids, unless both are strings. -/
theorem compareValues_ids {op : CmpOp} {a b : TypedValue}
    (ids : CmpOp.isOrder op = true → stringOf outside a = none ∨ stringOf outside b = none) :
    compareValues outside op a b = ordered op a.cell.toInt b.cell.toInt := by
  unfold compareValues
  cases order : CmpOp.isOrder op with
  | false => rfl
  | true =>
    rcases ids order with none | none
    · rw [none]
    · rw [none]
      cases stringOf outside a <;> rfl

/-- Strings that are ordered by their opcode. -/
theorem cmpIds_eq {op : CmpOp} {a b : TypedValue} (order : CmpOp.isOrder op = true)
    (strings : a.type = .string ∧ b.type = .string)
    (fits : orderFits outside op (some (.ok [a, b]))) :
    outside.cmpIds a.cell b.cell op = compareValues outside op a b := by
  have here : stringOf outside a = outside.reverse a.cell := if_pos strings.1
  have there : stringOf outside b = outside.reverse b.cell := if_pos strings.2
  simp only [orderFits, order, strings, decide_true, Bool.and_self, Bool.not_true,
    Bool.false_or, Bool.or_eq_true, Bool.and_eq_true, Bool.not_eq_true'] at fits
  -- without a string the opcode finds no order, and neither do the ids
  have unordered (missing : outside.reverse a.cell = none ∨ outside.reverse b.cell = none) :
      compareValues outside op a b = false := by
    rw [compareValues_ids fun _ => by rwa [here, there]]
    rcases fits with ⟨first, second⟩ | unordered
    · rcases missing with none | none
      · rw [none] at first
        cases first
      · rw [none] at second
        cases second
    · exact unordered
  unfold Outside.cmpIds
  split
  · rename_i s t first second
    rw [compareValues, order, here, there, first, second]
    exact interpreterCmpStr_eq s t op
  · rename_i missing
    have gone : outside.reverse a.cell = none ∨ outside.reverse b.cell = none := by
      cases first : outside.reverse a.cell with
      | none => exact .inl rfl
      | some s =>
        cases second : outside.reverse b.cell with
        | none => exact .inr rfl
        | some t => exact absurd second (missing s t first)
    rw [unordered gone]
    obtain ⟨notEq, notNeq⟩ := isOrder_iff.mp order
    cases op with
    | eq => exact absurd rfl notEq
    | neq => exact absurd rfl notNeq
    | _ => rfl

/-- **Comparisons**: the opcode chosen by the operand types compares them as documented. -/
theorem applyOp_cmp {op : CmpOp} (fits : orderFits outside op (some (.ok values)))
    (meaning : cmpMeaning outside op values = some result) :
    values.length = 2 ∧
      applyOp (interpreterMachine outside) (cmpToTag op (valueType values 0) (valueType values 1))
        (values.map TypedValue.toValue) = entry result := by
  unfold cmpMeaning at meaning
  split at meaning
  · rename_i a b
    refine ⟨rfl, ?_⟩
    have types : valueType [a, b] 0 = a.type ∧ valueType [a, b] 1 = b.type := ⟨rfl, rfl⟩
    rw [types.1, types.2, cmpToTag]
    by_cases float : a.type = .float ∧ b.type = .float
    · rw [if_pos float] at meaning ⊢
      rw [← entry_typed meaning]
      change (if _ then _ else _) = _
      by_cases finite : floatBitsValid a.cell ∧ floatBitsValid b.cell
      · rw [if_pos finite, if_pos finite, cmpFloats_eq finite.1 finite.2]
        rfl
      · rw [if_neg finite, if_neg finite]
        rfl
    · rw [if_neg float] at meaning ⊢
      by_cases mixed : a.type = .float ∨ b.type = .float
      · rw [if_pos mixed] at meaning
        cases meaning
      rw [if_neg mixed] at meaning
      rw [← entry_typed meaning]
      by_cases strings : (op ≠ .eq ∧ op ≠ .neq) ∧ a.type = .string ∧ b.type = .string
      · rw [if_pos strings, ← cmpIds_eq (isOrder_iff.mpr strings.1) strings.2 fits]
        rfl
      · have ids : CmpOp.isOrder op = true →
            stringOf outside a = none ∨ stringOf outside b = none := by
          intro order
          by_cases first : a.type = .string
          · exact .inr (if_neg fun second => strings ⟨isOrder_iff.mp order, first, second⟩)
          · exact .inl (if_neg first)
        rw [if_neg strings, compareValues_ids ids, ← cmpCells_eq]
        rfl
  · cases meaning

theorem applyOp_strFn {fn : StrFn} (meaning : strFnMeaning outside fn values = some result) :
    strFnArity fn = values.length ∧
      applyOp (interpreterMachine outside) (.strFn fn) (values.map TypedValue.toValue) =
        entry result := by
  unfold strFnMeaning at meaning
  split_ifs at meaning with arity
  refine ⟨?_, ?_⟩
  · rw [arity]
    cases fn <;> rfl
  · rw [← entry_typed meaning]
    change (outside.strFn fn ((values.map TypedValue.toValue).map Value.cell)).map _ = _
    rw [map_map]
    rfl

/-- The opcode of an extension call carries the interface that the snapshot records. -/
theorem extensionOpcode_abiOf {snapshot : Option Snapshot} {name : String} {op : PlanOpcode}
    (found : extensionOpcode snapshot name = some op) :
    op = .extensionCall name (abiOf snapshot name) := by
  unfold extensionOpcode at found
  split at found
  · cases found
    rfl
  rename_i find
  split at found
  · cases found
  rename_i descriptor here
  split_ifs at found with incomplete plain
  · cases found
    simp [abiOf, here, plain]
  · cases found
    simp [abiOf, here, plain]

theorem applyOp_extension {snapshot : Option Snapshot} {name : String}
    (meaning : extensionMeaning outside snapshot name values = some result) :
    applyOp (interpreterMachine outside) (.extensionCall name (abiOf snapshot name))
      (values.map TypedValue.toValue) = entry result := by
  cases meaning
  change outside.extensionCall name _ _ = _
  cases outside.extensionCall name (abiOf snapshot name) (values.map TypedValue.toValue) <;> rfl

end Operations

/-! ## Calls -/

section Calls

variable {outside : Outside} {snapshot : Option Snapshot} {layout : Layout} {row : Row}
  {extensionArg argsOfExtension : Bool} {expr : IrExpr} {args : List IrExpr} {op : PlanOpcode}
  {values : List TypedValue} {result : Except ExprError TypedValue} {used : Nat}

theorem length_operandValues
    (found : operandValues outside snapshot layout row extensionArg args = some (.ok values)) :
    values.length = args.length := by
  have types := operandValues_types (fun arg _ => exprValue_type arg) found
  simpa using congrArg List.length types

theorem operandType_eq
    (found : operandValues outside snapshot layout row extensionArg args = some (.ok values))
    (i : Nat) : operandType layout args i = valueType values i := by
  have types := operandValues_types (fun arg _ => exprValue_type arg) found
  rw [operandType, valueType, ← List.getElem?_map, ← List.getElem?_map, types]

/-- An operation is run on its operands. -/
theorem runOpcode_of_applied (notAgg : ∀ fn, op ≠ .agg fn)
    (arity : op.arity args.length = values.length)
    (applied : applyOp (interpreterMachine outside) op (values.map TypedValue.toValue) =
      entry result) (stack : List Value) :
    runOpcode (interpreterMachine outside) op args.length
        ((values.map TypedValue.toValue).reverse ++ stack) =
      (entry result).map (exprPush stack) := by
  rw [runOpcode_of_arity notAgg (by rwa [length_map]), applied]

/-- **Calls**: an operation gives what is documented of its operands, or one of them fails. -/
theorem Applies.meaning (applies : Applies snapshot layout expr op argsOfExtension args)
    (meaning : exprValue outside snapshot layout row extensionArg expr = some result)
    (within : partsWithin outside snapshot layout row expr used) :
    operandsWithin outside snapshot layout row argsOfExtension args used ∧
      ((∃ failure, operandValues outside snapshot layout row argsOfExtension args =
          some (.error failure) ∧ result = .error failure) ∨
        ∃ values, operandValues outside snapshot layout row argsOfExtension args =
            some (.ok values) ∧
          ∀ stack, runOpcode (interpreterMachine outside) op args.length
              ((values.map TypedValue.toValue).reverse ++ stack) =
            (entry result).map (exprPush stack)) := by
  cases applies with
  | arith tagged =>
    refine ⟨within, (Meaning.andThen_eq_some_iff.mp meaning).imp_right ?_⟩
    rintro ⟨values, found, meaning⟩
    have notAgg := (arithToTag_arity args.length tagged).2
    rw [operandType_eq found, operandType_eq found] at tagged
    obtain ⟨arity, applied⟩ := applyOp_arith tagged meaning
    exact ⟨values, found,
      runOpcode_of_applied notAgg (length_operandValues found ▸ arity) applied⟩
  | cmp op =>
    simp only [partsWithin, Bool.and_eq_true] at within
    refine ⟨within.1, (Meaning.andThen_eq_some_iff.mp meaning).imp_right ?_⟩
    rintro ⟨values, found, meaning⟩
    obtain ⟨two, applied⟩ := applyOp_cmp (found ▸ within.2) meaning
    rw [operandType_eq found, operandType_eq found]
    obtain ⟨arity, notAgg⟩ := cmpToTag_arity op (valueType values 0) (valueType values 1)
      args.length
    exact ⟨values, found, runOpcode_of_applied notAgg (arity.trans two.symm) applied⟩
  | agg fn => cases meaning
  | strFn fn =>
    refine ⟨within, (Meaning.andThen_eq_some_iff.mp meaning).imp_right ?_⟩
    rintro ⟨values, found, meaning⟩
    obtain ⟨arity, applied⟩ := applyOp_strFn meaning
    exact ⟨values, found, runOpcode_of_applied (fun fn => by simp) arity applied⟩
  | extensionCall short found =>
    simp only [partsWithin, Bool.and_eq_true] at within
    refine ⟨within.1, (Meaning.andThen_eq_some_iff.mp meaning).imp_right ?_⟩
    rintro ⟨values, operands, meaning⟩
    obtain ⟨arity, notAgg⟩ := extensionOpcode_arity args.length found
    refine ⟨values, operands, runOpcode_of_applied notAgg
      (arity.trans (length_operandValues operands).symm) ?_⟩
    rw [extensionOpcode_abiOf found]
    exact applyOp_extension meaning

end Calls

/-! ## Byte code as a tree -/

section Code

variable {outside : Outside} {snapshot : Option Snapshot} {layout : Layout} {row : Row}

/-- A value that finds room is pushed. -/
theorem push_of_room {stack : List Value} {found : Except ExprError Value}
    (room : ∀ value, found = .ok value → stack.length < 64) :
    found.map (exprPush stack) = found.map (· :: stack) := by
  cases found with
  | error failure => rfl
  | ok value => rw [exprPush_of_space (room value rfl)]

/-- The interpreter loads a column as documented. -/
theorem loadVar_eq {extensionArg : Bool} {type : ColType} {column : Nat} {cell : Option Cell}
    (read : row.cells[column]? = cell) :
    loadVar (interpreterMachine outside) row (varTag extensionArg type) column =
      entry (columnValue outside extensionArg type cell) := by
  have value : cellAt row column = cell.getD 0 := by
    rw [cellAt, getD_eq_getElem?_getD, read]
  have inside : column < row.cells.length ↔ cell.isSome = true := by
    rw [← read]
    simp
  unfold varTag columnValue
  by_cases float : type = .float
  · rw [if_pos float, if_pos float, loadVar, value]
    simp only [inside]
    cases cell with
    | none => rfl
    | some bits =>
      by_cases finite : floatBitsValid bits <;> simp [finite, Except.map]
  rw [if_neg float, if_neg float]
  by_cases text : extensionArg ∧ type = .string
  · rw [if_pos text, if_pos text, loadVar, value]
    simp only [inside]
    cases cell with
    | none => rfl
    | some id =>
      have reversed : (interpreterMachine outside).reverse id = outside.reverse id := rfl
      cases named : outside.reverse id <;> simp [reversed, named, Except.map]
  · rw [if_neg text, if_neg text, loadVar, value]
    rfl

/-- Beyond the row nothing is loaded. -/
theorem loadColumn_eq {machine : Machine} {tag : VarTag} {column : Nat} :
    loadColumn machine row tag column = loadVar machine row tag column := by
  unfold loadColumn
  by_cases inside : (column : Int) % 2 ^ 32 < row.cells.length
  · rw [if_pos ⟨Int.natCast_nonneg column, inside⟩, Int.toNat_natCast]
  · have beyond : row.cells.length ≤ column := by omega
    have zero : cellAt row column = 0 := by
      rw [cellAt, getD_eq_getElem?_getD, List.getElem?_eq_none_iff.mpr beyond, Option.getD_none]
    rw [if_neg fun both => inside both.2]
    cases tag with
    | plain => rw [loadVar, zero, if_pos rfl]
    | float | string => simp [loadVar, not_lt.mpr beyond]

/-- Both forms of byte code read the column that a name stands for. -/
theorem reads_of_nameFits {name : String} {column : Nat} (columns : layout.length ≤ 2 ^ 32)
    (found : nameColumn layout name = some column) (fits : nameFits layout row name) :
    row.cells[layout.column name]? = row.cells[column]? ∧
      (emitName layout name).length < 2 ^ 16 ∧
      ∃ read : Nat, columnOfName (stringBytes (emitName layout name)) = read ∧
        row.cells[read]? = row.cells[column]? := by
  unfold nameColumn at found
  unfold nameFits at fits
  unfold Layout.column emitName
  cases named : lookupName layout.names name with
  | some c =>
    rw [named, Option.some_or] at found
    cases found
    have inside : column < layout.names.length :=
      (List.findIdx?_eq_some_iff_findIdx_eq.mp named).1
    have small : column < 2 ^ 32 := by
      rw [Layout.names, length_map] at inside
      omega
    refine ⟨rfl, length_colName_lt small, column, ?_, rfl⟩
    rw [columnOfName_of_positional (positionalIndex_colName column), cutPosition_colName small]
  | none =>
    rw [named, Option.none_or] at found
    simp only [named, found, Bool.and_eq_true, Bool.or_eq_true, decide_eq_true_eq] at fits
    obtain ⟨⟨short, small⟩, same⟩ := fits
    refine ⟨?_, short, cutPosition name, columnOfName_of_positional found, same⟩
    rw [truncate16_eq short, varColumn_of_positional found, ← same]
    rcases small with small | beyond
    · rw [Nat.mod_eq_of_lt small]
    · have larger : row.cells.length ≤ cutPosition name := beyond.trans (Nat.mod_le _ _)
      rw [List.getElem?_eq_none_iff.mpr beyond, List.getElem?_eq_none_iff.mpr larger]

/-- What runs an expression pushes its value, on a stack with room for it. -/
def Pushes (outside : Outside) (snapshot : Option Snapshot) (layout : Layout) (row : Row)
    (run : List Value → Except ExprError (List Value) → Prop) (extensionArg : Bool)
    (expr : IrExpr) : Prop :=
  ∀ stack result, exprValue outside snapshot layout row extensionArg expr = some result →
    partsWithin outside snapshot layout row expr stack.length →
    (∀ value, entry result = .ok value → stack.length < 64) →
    run stack ((entry result).map (· :: stack))

/-- Operands that run one after the other push their values. -/
theorem pushes_operands {Code : Type}
    (run : Code → List Value → Except ExprError (List Value) → Prop)
    (runAll : List Code → List Value → Except ExprError (List Value) → Prop)
    (nil : ∀ stack, runAll [] stack (.ok stack))
    (cons : ∀ code codes stack mid out, run code stack (.ok mid) → runAll codes mid out →
      runAll (code :: codes) stack out)
    (fails : ∀ code codes stack failure, run code stack (.error failure) →
      runAll (code :: codes) stack (.error failure))
    {extensionArg : Bool} {args : List IrExpr} {codes : List Code}
    (related : Forall₂ (fun arg code => Pushes outside snapshot layout row (run code)
      extensionArg arg) args codes) (stack : List Value)
    {results : Except ExprError (List TypedValue)}
    (found : operandValues outside snapshot layout row extensionArg args = some results)
    (within : operandsWithin outside snapshot layout row extensionArg args stack.length) :
    runAll codes stack
      (results.map fun values => (values.map TypedValue.toValue).reverse ++ stack) := by
  induction related generalizing stack results with
  | nil =>
    cases found
    exact nil stack
  | cons here _ ih =>
    simp only [operandsWithin, Bool.and_eq_true] at within
    rcases operandValues_cons_eq_some_iff.mp found with
      ⟨failure, failed, rfl⟩ | ⟨value, first, later, others, rfl⟩
    · exact fails _ _ _ _ (here stack _ failed within.1 fun _ => nofun)
    · simp only [first, Meaning.hasValue, Bool.not_true, Bool.false_or, Bool.and_eq_true,
        decide_eq_true_eq] at within
      obtain ⟨parts, room, rest⟩ := within
      have pushed := here stack _ first parts fun _ _ => room
      have remaining := ih (value.toValue :: stack) others rest
      refine cons _ _ _ _ _ pushed ?_
      cases later with
      | error failure => exact remaining
      | ok values => simpa [Except.map] using remaining

/-- **Byte code as a tree pushes the value of its expression.** -/
theorem pushes_serializeExpr (columns : layout.length ≤ 2 ^ 32) {extensionArg : Bool}
    {expr : IrExpr} {code : PlanExpr}
    (serialized : serializeExpr snapshot layout extensionArg expr = some code) :
    Pushes outside snapshot layout row
      (fun stack out => runExpr (interpreterMachine outside) row code stack = out)
      extensionArg expr := by
  refine writeExpr_induction (motive := fun extensionArg expr code =>
    Pushes outside snapshot layout row
      (fun stack out => runExpr (interpreterMachine outside) row code stack = out)
      extensionArg expr) ?_ ?_ ?_ ?_ ?_ ?_ serialized
  · intro extensionArg name stack result found within room
    obtain ⟨column, named, rfl⟩ := Option.map_eq_some_iff.mp found
    have read := (reads_of_nameFits columns named within).1
    rw [runExpr, lookupType_of_nameColumn named, loadVar_eq read, push_of_room room]
  · intro _ value stack result found _ room
    cases found
    exact push_of_room room
  · intro _ bits stack result found _ room
    cases found
    rw [runExpr, ← push_of_room room]
    split_ifs <;> rfl
  · intro _ text stack result found within room
    cases found
    rw [runExpr, truncate16_eq (by simpa [partsWithin] using within)]
    exact push_of_room room
  · intro _ value stack result found _ room
    cases found
    exact push_of_room room
  · intro extensionArg expr op argsOfExtension args codes applies related stack result found within
      room
    obtain ⟨operands, called⟩ := applies.meaning found within
    have run {results} (values : operandValues outside snapshot layout row argsOfExtension args =
        some results) : runExprs (interpreterMachine outside) row codes stack =
          results.map fun values => (values.map TypedValue.toValue).reverse ++ stack := by
      refine pushes_operands _
        (fun codes stack out => runExprs (interpreterMachine outside) row codes stack = out)
        (fun _ => rfl) ?_ ?_ related stack values operands
      · rintro code codes stack mid out first rfl
        rw [runExprs, first]
        rfl
      · intro code codes stack failure failed
        rw [runExprs, failed]
        rfl
    rcases called with ⟨failure, failed, rfl⟩ | ⟨values, evaluated, applied⟩
    · rw [runExpr, run failed]
      rfl
    · rw [runExpr, run evaluated, ← related.length_eq, ← push_of_room room]
      exact applied stack

/-- The cell that byte code as a tree evaluates to. -/
theorem evalExpr_eq_exprValue (columns : layout.length ≤ 2 ^ 32) {expr : IrExpr} {code : PlanExpr}
    {result : Except ExprError TypedValue}
    (serialized : serializeExpr snapshot layout false expr = some code)
    (documented : exprValue outside snapshot layout row false expr = some result)
    (within : partsWithin outside snapshot layout row expr 0) :
    evalExpr (interpreterMachine outside) row code = result.map fun value => value.cell := by
  have run := pushes_serializeExpr columns serialized [] result documented within
    fun _ _ => Nat.zero_lt_succ 63
  rw [evalExpr, run]
  cases result <;> rfl

end Code

/-! ## Bytes -/

mutual

/-- String constants and names of extensions are bytes. -/
def textsAreBytes : IrExpr → Bool
  | .var _ | .constInt _ | .constFloat _ | .bool _ => true
  | .constStr value => isBytes value
  | .arith _ args | .cmp _ args | .agg _ args | .strFn _ args => allTextsAreBytes args
  | .extensionCall name args => isBytes name && allTextsAreBytes args

def allTextsAreBytes : List IrExpr → Bool
  | [] => true
  | expr :: rest => textsAreBytes expr && allTextsAreBytes rest

end

section Bytes

variable {outside : Outside} {snapshot : Option Snapshot} {layout : Layout} {row : Row}
  {extensionArg argsOfExtension : Bool} {expr : IrExpr} {args : List IrExpr} {op : PlanOpcode}
  {values : List TypedValue} {result : Except ExprError TypedValue} {used : Nat}

theorem allTextsAreBytes_iff :
    allTextsAreBytes args ↔ ∀ arg ∈ args, textsAreBytes arg := by
  induction args with
  | nil => simp [allTextsAreBytes]
  | cons arg rest ih => simp [allTextsAreBytes, ih]

theorem Applies.texts (applies : Applies snapshot layout expr op argsOfExtension args)
    (texts : textsAreBytes expr) : ∀ arg ∈ args, textsAreBytes arg := by
  rw [← allTextsAreBytes_iff]
  cases applies with
  | arith | cmp | agg | strFn => exact texts
  | extensionCall => exact (Bool.and_eq_true_iff.mp texts).2

/-- Operands that have values are on the stack together. -/
theorem length_le_of_operandsWithin
    (found : operandValues outside snapshot layout row extensionArg args = some (.ok values))
    (within : operandsWithin outside snapshot layout row extensionArg args used) :
    args = [] ∨ used + args.length ≤ 64 := by
  induction args generalizing values used with
  | nil => exact .inl rfl
  | cons arg rest ih =>
    simp only [operandsWithin, Bool.and_eq_true] at within
    rcases operandValues_cons_eq_some_iff.mp found with
      ⟨_, -, same⟩ | ⟨value, here, later, there, same⟩
    · cases same
    simp only [here, Meaning.hasValue, Bool.not_true, Bool.false_or, Bool.and_eq_true,
      decide_eq_true_eq] at within
    cases later with
    | error failure => cases same
    | ok others =>
      rcases ih there within.2.2 with rfl | bound
      · exact .inr within.2.1
      · right
        rw [length_cons]
        omega

/-- The bytes of an operation run it on its operands. -/
theorem Applies.executes (applies : Applies snapshot layout expr op argsOfExtension args)
    (fit : FieldsFit snapshot) (texts : textsAreBytes expr)
    (meaning : exprValue outside snapshot layout row extensionArg expr = some result)
    (within : partsWithin outside snapshot layout row expr used)
    (found : operandValues outside snapshot layout row argsOfExtension args = some (.ok values))
    (few : args.length < 2 ^ 32) {stack : List Value}
    (applied : runOpcode (interpreterMachine outside) op args.length
        ((values.map TypedValue.toValue).reverse ++ stack) =
      (entry result).map (exprPush stack)) :
    Executes (interpreterMachine outside) row (opcodeBytes op args.length)
      ((values.map TypedValue.toValue).reverse ++ stack) ((entry result).map (exprPush stack)) := by
  cases applies with
  | arith tagged =>
    rw [← applied]
    exact executes_op (arithToTag_ne_call tagged) (opcodeOf_arithToTag tagged) _ _
  | cmp op =>
    rw [← applied]
    exact executes_op (cmpToTag_ne_call op _ _) (opcodeOf_cmpToTag op _ _) _ _
  | agg fn => cases meaning
  | strFn fn =>
    rw [← applied]
    exact executes_op (by simp) (opcodeOf_strFn fn) _ _
  | @extensionCall name _ _ short coded =>
    obtain ⟨abi, rfl, fits⟩ := extensionOpcode_cases fit coded
    simp only [textsAreBytes, Bool.and_eq_true] at texts
    have present : args.length ≤ ((values.map TypedValue.toValue).reverse ++ stack).length := by
      rw [length_append, length_reverse, length_map, length_operandValues found]
      omega
    have run := @executes_extensionCall (interpreterMachine outside) row name _ abi texts.1 short
      few fits _ present
    by_cases named : 0 < name.length ∧ name.length < 256
    · rwa [if_pos named, applied] at run
    · -- the interpreter refuses the name, and so does the call
      simp only [partsWithin, found, callFits, Bool.and_eq_true, Bool.or_eq_true,
        decide_eq_true_eq, named, false_or] at within
      rw [exprValue, found] at meaning
      have answer : outside.extensionCall name (abiOf snapshot name)
          (values.map TypedValue.toValue) = .error .extension := by
        have refused := within.2
        split at refused
        · assumption
        · cases refused
      have failed : result = .error .extension := by
        rw [Meaning.andThen, extensionMeaning, answer] at meaning
        exact (Option.some.inj meaning).symm
      rw [if_neg named] at run
      rw [failed]
      exact run

/-- **The bytes of an expression push its value.** -/
theorem pushes_serializeBytes (columns : layout.length ≤ 2 ^ 32) (fit : FieldsFit snapshot)
    {bytes : List UInt8}
    (serialized : serializeBytes snapshot layout extensionArg expr = some bytes) :
    textsAreBytes expr → Pushes outside snapshot layout row
      (Executes (interpreterMachine outside) row bytes) extensionArg expr := by
  refine writeExpr_induction (motive := fun extensionArg expr bytes => textsAreBytes expr →
    Pushes outside snapshot layout row (Executes (interpreterMachine outside) row bytes)
      extensionArg expr) ?_ ?_ ?_ ?_ ?_ ?_ serialized
  · intro extensionArg name _ stack result found within room
    obtain ⟨column, named, rfl⟩ := Option.map_eq_some_iff.mp found
    obtain ⟨-, short, read, spelled, same⟩ := reads_of_nameFits columns named within
    rw [lookupType_of_nameColumn named]
    have run := @executes_instr (interpreterMachine outside) row _ stack _
      (decodeInstr_var (varTag extensionArg (layout.typeAt column)) short)
    rwa [execInstr, spelled, loadColumn_eq, loadVar_eq same, push_of_room room] at run
  · intro _ value _ stack result found _ room
    cases found
    have decoded : ∀ rest, decodeInstr (0x02 :: leBytes 8 value.toNat ++ rest) =
        .ok (.constInt value, rest) := decodeInstr_cell (fun after => rfl) value
    rw [← push_of_room room]
    exact executes_instr decoded
  · intro _ bits _ stack result found _ room
    cases found
    have decoded : ∀ rest, decodeInstr (0x06 :: leBytes 8 bits.toNat ++ rest) =
        .ok (.constFloat bits, rest) := decodeInstr_cell (fun after => rfl) bits
    have run := @executes_instr (interpreterMachine outside) row _ stack _ decoded
    rw [← push_of_room room]
    rw [execInstr] at run
    split_ifs at run ⊢ <;> exact run
  · intro _ text texts stack result found within room
    cases found
    have short : text.length < 2 ^ 16 := by simpa [partsWithin] using within
    have run := @executes_instr (interpreterMachine outside) row _ stack _
      (decodeInstr_constStr short)
    rw [execInstr, bytesString_stringBytes texts] at run
    rw [← push_of_room room]
    exact run
  · intro _ value _ stack result found _ room
    cases found
    have decoded : ∀ rest, decodeInstr ([0x04, if value then 1 else 0] ++ rest) =
        .ok (.bool value, rest) := by
      intro rest
      cases value <;> rfl
    rw [← push_of_room room]
    exact executes_instr decoded
  · intro extensionArg expr op argsOfExtension args operands applies related texts stack result
      found within room
    obtain ⟨inside, called⟩ := applies.meaning found within
    have pushes : Forall₂ (fun arg operand => Pushes outside snapshot layout row
        (Executes (interpreterMachine outside) row operand) argsOfExtension arg) args operands :=
      forall₂_iff_zip.mpr ⟨related.length_eq, fun pair =>
        (forall₂_iff_zip.mp related).2 pair (applies.texts texts _ (of_mem_zip pair).1)⟩
    have run {results} (values : operandValues outside snapshot layout row argsOfExtension args =
        some results) : Executes (interpreterMachine outside) row operands.flatten stack
          (results.map fun values => (values.map TypedValue.toValue).reverse ++ stack) :=
      pushes_operands _
        (fun operands => Executes (interpreterMachine outside) row operands.flatten)
        (fun _ => executes_nil) (fun _ _ _ _ _ first later => first.append later)
        (fun _ _ _ _ failed => failed.append_error) pushes stack values inside
    rcases called with ⟨failure, failed, rfl⟩ | ⟨values, evaluated, applied⟩
    · exact (run failed).append_error
    · have few : args.length < 2 ^ 32 := by
        rcases length_le_of_operandsWithin evaluated inside with rfl | bound
        · exact Nat.two_pow_pos 32
        · omega
      rw [← push_of_room room]
      refine (run evaluated).append ?_
      rw [← related.length_eq]
      exact applies.executes fit texts found within evaluated few (applied stack)

/-- **Expressions**: on the buffer of an expression that has a documented value on a row, and whose
parts stay within the limits there, the interpreter computes this value. -/
theorem evalRun_eq_exprValue (outside : Outside) {snapshot : Option Snapshot} {layout : Layout}
    {row : Row} {expr : IrExpr} {bytes : List UInt8} {result : Except ExprError TypedValue}
    (columns : layout.length ≤ 2 ^ 32) (fit : FieldsFit snapshot) (texts : textsAreBytes expr)
    (accepted : serializeToBuffer snapshot layout expr = some bytes)
    (documented : exprValue outside snapshot layout row false expr = some result)
    (within : partsWithin outside snapshot layout row expr 0) :
    evalRun (interpreterMachine outside) row bytes = result.map fun value => value.cell := by
  have serialized := (Option.filter_eq_some_iff.mp accepted).1
  have executes := pushes_serializeBytes columns fit serialized texts [] result documented within
    fun _ _ => Nat.zero_lt_succ 63
  rw [executes.evalRun]
  cases result <;> rfl

/-- `x + 1` on a row with `x = 5`. -/
theorem evalRun_eq_exprValue_successor :
    evalRun (interpreterMachine plainOutside) ⟨[5]⟩
      [1, 4, 0, 99, 111, 108, 48, 2, 1, 0, 0, 0, 0, 0, 0, 0, 16] = .ok 6 := by
  have fit : FieldsFit none := by rintro find ⟨⟩
  have accepted : serializeToBuffer none [(some "x", .scalar)]
      (.arith .add [.var "x", .constInt 1]) =
        some [1, 4, 0, 99, 111, 108, 48, 2, 1, 0, 0, 0, 0, 0, 0, 0, 16] := rfl
  have documented : exprValue plainOutside none [(some "x", .scalar)] ⟨[5]⟩ false
      (.arith .add [.var "x", .constInt 1]) = some (.ok ⟨⟨6, .int64⟩, .scalar⟩) := rfl
  exact evalRun_eq_exprValue plainOutside (by decide) fit rfl accepted documented rfl

/-- The sum `1 + (1 + (… + 1))` of `n + 1` terms. -/
def rightSum : Nat → IrExpr
  | 0 => .constInt 1
  | n + 1 => .arith .add [.constInt 1, rightSum n]

/-- A sum of 65 terms to the right needs 65 entries of the stack: the last term is lost, and the
interpreter computes 64. -/
theorem evalRun_rightSum :
    (serializeToBuffer none [] (rightSum 64)).map
        (evalRun (interpreterMachine plainOutside) ⟨[]⟩) = some (.ok 64) ∧
      (exprValue plainOutside none [] ⟨[]⟩ false (rightSum 64)).map
        (Except.map fun value => value.cell) = some (.ok 65) := by
  constructor
  · decide +kernel
  · decide +kernel

end Bytes

end Wirelog.Plan

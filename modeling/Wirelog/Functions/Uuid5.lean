import Wirelog.Foundations.ByteFields

/-!
# The digest input of `uuid5`

The opcodes of `uuid5` (`expr.c`) feed two operands to a digest. An operand that is declared a
symbol is fed as the bytes of its string, any other one, and one that names no string, as the
eight bytes of its value. The opcodes that have a symbol operand put a tag and a length in front
of each operand; the opcode for two integers feeds the bare bytes.

A frame can be read back (`Operand.frame_injective`), and two frames have more than the sixteen
bytes of the bare form. So the bytes determine the operands, also across opcodes and across intern
tables (`uuid5Bytes_injective`).
-/

set_option autoImplicit false

namespace Wirelog.Functions.Uuid5

open Wirelog.Foundations

/-! ## The functions of the source -/

abbrev Cell := BitVec 64

/-- The bytes of an interned string; their number is a `size_t`. -/
structure Text where
  bytes : List UInt8
  fits : bytes.length < 2 ^ 64

/-- `WL_PLAN_EXPR_ARITH_UUID5` and its variants with symbol operands. -/
inductive Opcode where
  | uuid5
  | uuid5SS
  | uuid5SI
  | uuid5IS
  deriving DecidableEq

def Opcode.nsSym (op : Opcode) : Bool := op = .uuid5SS ∨ op = .uuid5SI

def Opcode.nameSym (op : Opcode) : Bool := op = .uuid5SS ∨ op = .uuid5IS

/-- `filt_bytes_t`. -/
structure FiltBytes where
  bytes : List UInt8
  isSymbol : Bool

/-- `WL_DIGEST_TAG_SYMBOL` and `WL_DIGEST_TAG_INT64`. -/
def FiltBytes.tag (operand : FiltBytes) : UInt8 := if operand.isSymbol then 0x53 else 0x49

/-- `wl_columnar_expr_psa_hash_frame`. -/
def psaHashFrame (tag : UInt8) (len : Nat) : List UInt8 := tag :: leBytes 8 len

/-- `wl_columnar_expr_psa_hash_pair`: all that is fed to the digest. -/
def psaHashPair (framed : Bool) (firstTag : UInt8) (first : List UInt8) (secondTag : UInt8)
    (second : List UInt8) : List UInt8 :=
  (if framed then psaHashFrame firstTag first.length else []) ++ first ++
    ((if framed then psaHashFrame secondTag second.length else []) ++ second)

section

-- `wl_intern_reverse` of the table at hand; without a table no value has a name.
variable (reverse : Cell → Option Text)

def filtDigestBytes (v : Cell) (asSymbol : Bool) : FiltBytes :=
  match if asSymbol then reverse v else none with
  | some str => ⟨str.bytes, true⟩
  | none => ⟨leBytes 8 v.toNat, false⟩

/-- The case of the `uuid5` opcodes in `wl_columnar_expr_eval_run_ctx`, up to the digest. -/
def uuid5Bytes (op : Opcode) (ns name : Cell) : List UInt8 :=
  let nsb := filtDigestBytes reverse ns op.nsSym
  let nmb := filtDigestBytes reverse name op.nameSym
  psaHashPair (op ≠ .uuid5) nsb.tag nsb.bytes nmb.tag nmb.bytes

end

/-! ## Operands as typed values -/

/-- What an operand stands for. -/
inductive Operand where
  | int64 (value : Cell)
  | symbol (text : Text)

def Operand.filtBytes : Operand → FiltBytes
  | .int64 value => ⟨leBytes 8 value.toNat, false⟩
  | .symbol text => ⟨text.bytes, true⟩

/-- The operand of an opcode: a symbol if it is declared one and names a string. -/
def operand (reverse : Cell → Option Text) (v : Cell) (asSymbol : Bool) : Operand :=
  match if asSymbol then reverse v else none with
  | some text => .symbol text
  | none => .int64 v

theorem filtDigestBytes_eq (reverse : Cell → Option Text) (v : Cell) (asSymbol : Bool) :
    filtDigestBytes reverse v asSymbol = (operand reverse v asSymbol).filtBytes := by
  unfold filtDigestBytes operand
  split <;> rfl

theorem Operand.length_lt (x : Operand) : x.filtBytes.bytes.length < 256 ^ 8 := by
  cases x with
  | int64 value => simp [filtBytes]
  | symbol text => exact text.fits

theorem leBytes_toNat_injective {v w : Cell} (same : leBytes 8 v.toNat = leBytes 8 w.toNat) :
    v = w := by
  have values := congrArg leValue same
  rw [leValue_leBytes, leValue_leBytes] at values
  exact BitVec.eq_of_toNat_eq (by omega)

/-- The tag and the bytes determine an operand. -/
theorem Operand.eq_of_tag_bytes {x y : Operand} (tags : x.filtBytes.tag = y.filtBytes.tag)
    (bytes : x.filtBytes.bytes = y.filtBytes.bytes) : x = y := by
  cases x with
  | int64 v =>
    cases y with
    | int64 w => rw [leBytes_toNat_injective bytes]
    | symbol text => simp [filtBytes, FiltBytes.tag] at tags
  | symbol text =>
    cases y with
    | int64 w => simp [filtBytes, FiltBytes.tag] at tags
    | symbol other =>
      obtain ⟨run, fits⟩ := text
      obtain rfl : run = other.bytes := bytes
      rfl

/-! ## Frames -/

/-- An operand behind its tag and its length. -/
def Operand.frame (x : Operand) : List UInt8 :=
  psaHashFrame x.filtBytes.tag x.filtBytes.bytes.length ++ x.filtBytes.bytes

/-- **A frame can be read back**, whatever follows it. -/
theorem Operand.frame_injective {x y : Operand} {rest rest' : List UInt8}
    (same : x.frame ++ rest = y.frame ++ rest') : x = y ∧ rest = rest' := by
  simp only [frame, psaHashFrame, List.cons_append, List.cons.injEq] at same
  obtain ⟨tags, counted⟩ := same
  have read := congrArg (readCounted 8) counted
  rw [readCounted_append x.length_lt, readCounted_append y.length_lt] at read
  obtain ⟨bytes, rests⟩ := Prod.mk.inj (Option.some.inj read)
  exact ⟨eq_of_tag_bytes tags bytes, rests⟩

theorem Operand.length_frame (x : Operand) : 9 ≤ x.frame.length := by
  simp [frame, psaHashFrame]

theorem uuid5Bytes_framed {op : Opcode} (framed : op ≠ .uuid5) (reverse : Cell → Option Text)
    (ns name : Cell) :
    uuid5Bytes reverse op ns name =
      (operand reverse ns op.nsSym).frame ++ (operand reverse name op.nameSym).frame := by
  simp [uuid5Bytes, psaHashPair, framed, filtDigestBytes_eq, Operand.frame]

theorem uuid5Bytes_bare (reverse : Cell → Option Text) (ns name : Cell) :
    uuid5Bytes reverse .uuid5 ns name = leBytes 8 ns.toNat ++ leBytes 8 name.toNat := rfl

theorem length_uuid5Bytes_framed {op : Opcode} (framed : op ≠ .uuid5)
    (reverse : Cell → Option Text) (ns name : Cell) :
    16 < (uuid5Bytes reverse op ns name).length := by
  have first := (operand reverse ns op.nsSym).length_frame
  have second := (operand reverse name op.nameSym).length_frame
  rw [uuid5Bytes_framed framed, List.length_append]
  omega

/-- **The bytes fed to the digest determine the operands**, as typed values and in any mix of the
opcodes. -/
theorem uuid5Bytes_injective {reverse reverse' : Cell → Option Text} {op op' : Opcode}
    {ns name ns' name' : Cell}
    (same : uuid5Bytes reverse op ns name = uuid5Bytes reverse' op' ns' name') :
    operand reverse ns op.nsSym = operand reverse' ns' op'.nsSym ∧
      operand reverse name op.nameSym = operand reverse' name' op'.nameSym := by
  by_cases bare : op = .uuid5
  · by_cases bare' : op' = .uuid5
    · subst bare bare'
      rw [uuid5Bytes_bare, uuid5Bytes_bare] at same
      obtain ⟨first, second⟩ := List.append_inj same (by simp)
      exact ⟨congrArg _ (leBytes_toNat_injective first),
        congrArg _ (leBytes_toNat_injective second)⟩
    · have longer := length_uuid5Bytes_framed bare' reverse' ns' name'
      rw [← same, bare, uuid5Bytes_bare] at longer
      simp at longer
  · by_cases bare' : op' = .uuid5
    · have longer := length_uuid5Bytes_framed bare reverse ns name
      rw [same, bare', uuid5Bytes_bare] at longer
      simp at longer
    · rw [uuid5Bytes_framed bare, uuid5Bytes_framed bare'] at same
      obtain ⟨first, later⟩ := Operand.frame_injective same
      exact ⟨first, (Operand.frame_injective (congrArg (· ++ []) later)).1⟩

/-- A table in which one value names a string. -/
def oneName (v : Cell) : Option Text := if v = 7 then some ⟨[0x61], by decide⟩ else none

theorem uuid5Bytes_injective_unnamed :
    uuid5Bytes oneName .uuid5SS 7 5 = uuid5Bytes oneName .uuid5SI 7 5 ∧
      operand oneName 7 true = operand oneName 7 true ∧
      operand oneName 5 true = operand oneName 5 false :=
  have same : uuid5Bytes oneName .uuid5SS 7 5 = uuid5Bytes oneName .uuid5SI 7 5 := by decide
  ⟨same, uuid5Bytes_injective same⟩

end Wirelog.Functions.Uuid5

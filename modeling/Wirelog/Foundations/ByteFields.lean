import Mathlib

/-!
# Fields of byte buffers

Numbers are written in a fixed number of bytes, the least significant first, and runs of bytes
with their length in front of them. Each reader is stated against its writer: it returns what
was written and the bytes that follow (`readNat_leBytes`, `readCounted_append`).
-/

set_option autoImplicit false

namespace Wirelog.Foundations

variable {α : Type*}

/-! ## Numbers -/

/-- The largest number of 32 bits. -/
def uint32Max : Nat := 2 ^ 32 - 1

/-- The low bytes of a number, the least significant first. -/
def leBytes : Nat → Nat → List UInt8
  | 0, _ => []
  | width + 1, n => UInt8.ofNat n :: leBytes width (n / 256)

/-- The number that bytes stand for, the least significant first. -/
def leValue : List UInt8 → Nat
  | [] => 0
  | byte :: rest => byte.toNat + 256 * leValue rest

@[simp] theorem length_leBytes (width n : Nat) : (leBytes width n).length = width := by
  induction width generalizing n with
  | zero => rfl
  | succ width ih => rw [leBytes, List.length_cons, ih]

theorem leValue_leBytes (width n : Nat) : leValue (leBytes width n) = n % 256 ^ width := by
  induction width generalizing n with
  | zero => rw [leBytes, leValue, pow_zero, Nat.mod_one]
  | succ width ih =>
    have low : (UInt8.ofNat n).toNat = n % 256 := by simp
    rw [leBytes, leValue, ih, low, pow_succ', Nat.mod_mul]

/-! ## Texts -/

/-- `snprintf` of a text into a buffer: what does not fit in front of the closing zero is cut off.
A string stands for a text of bytes, with one character for each byte. -/
def printed (size : Nat) (text : String) : String := String.ofList (text.toList.take (size - 1))

/-! ## Readers -/

/-- Split off exactly `count` elements. -/
def readExact (count : Nat) (items : List α) : Option (List α × List α) :=
  if count ≤ items.length then some (items.take count, items.drop count) else none

theorem readExact_append (items rest : List α) :
    readExact items.length (items ++ rest) = some (items, rest) := by
  rw [readExact, if_pos (by simp), List.take_left' rfl, List.drop_left' rfl]

def readNat (width : Nat) (bytes : List UInt8) : Option (Nat × List UInt8) :=
  (readExact width bytes).map fun split => (leValue split.1, split.2)

theorem readNat_leBytes {width n : Nat} (fits : n < 256 ^ width) (rest : List UInt8) :
    readNat width (leBytes width n ++ rest) = some (n, rest) := by
  have read := readExact_append (leBytes width n) rest
  rw [length_leBytes] at read
  rw [readNat, read, Option.map_some, leValue_leBytes, Nat.mod_eq_of_lt fits]

/-- Read a length of `width` bytes and a run of bytes of that length. -/
def readCounted (width : Nat) (bytes : List UInt8) : Option (List UInt8 × List UInt8) :=
  (readNat width bytes).bind fun split => readExact split.1 split.2

theorem readCounted_append {width : Nat} {run : List UInt8} (fits : run.length < 256 ^ width)
    (rest : List UInt8) :
    readCounted width (leBytes width run.length ++ run ++ rest) = some (run, rest) := by
  rw [readCounted, List.append_assoc, readNat_leBytes fits, Option.bind_some, readExact_append]

end Wirelog.Foundations

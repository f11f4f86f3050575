import Mathlib

/-!
# CRC-32 by table and by bit

The checksum functions of the expression language keep a table of 256 words that they fill on
first use. In one round of the division the bits above the lowest only move down
(`bitStep_xor`). That one fact feeds the bits of a byte one by one (`byteStep_eq`), and it splits
eight rounds into the entry of the table for the low byte and the rest of the register
(`bitStep_eight`). So **every byte string has the checksum of the bit-serial division**
(`crc32_eq_bitSerial`), with or without the processor's instruction, and **bursts of errors of
at most 32 bits change it** (`crc32_detects_burst`).
-/

set_option autoImplicit false

namespace Wirelog.Functions.Crc32

abbrev Word := BitVec 32

abbrev Byte := BitVec 8

/-! ## The functions of the source -/

/-- One round of the inner loop that fills a table. -/
def bitStep (poly crc : Word) : Word :=
  if crc &&& 1 ≠ 0 then (crc >>> 1) ^^^ poly else crc >>> 1

/-- `ethernet_crc32_init` and `castagnoli_crc32_init`, which differ in the polynomial. -/
def crc32Init (poly : Word) : Vector Word 256 :=
  Vector.ofFn fun i => (bitStep poly)^[8] (BitVec.ofNat 32 i)

def ethernetPoly : Word := 0xEDB88320

def castagnoliPoly : Word := 0x82F63B78

/-- A static table with its flag, which is only set once the table is filled. -/
structure Table (poly : Word) where
  entries : Vector Word 256
  ready : Bool
  filled : ready = true → entries = crc32Init poly

/-- The statics of the file. No value stands for the `-1` of an unchecked processor. -/
structure Statics where
  ethernetTable : Table ethernetPoly
  castagnoliTable : Table castagnoliPoly
  hwCrc32Available : Option Bool

/-- What the build and the processor offer: the instruction the build compiles in, if any, and
the answer of the run-time detection. -/
structure Platform where
  hwU8 : Option (Word → Byte → Word)
  crc32HwAvailable : Bool

theorem lowByte_lt (crc : Word) : (crc &&& 0xFF#32).toNat < 256 := by
  rw [BitVec.toNat_and]
  exact Nat.lt_of_le_of_lt Nat.and_le_right (by decide)

/-- The loop over the bytes, with the initial value and the final complement. -/
def crc32Loop (step : Word → Byte → Word) (data : List Byte) : Word :=
  data.foldl step 0xFFFFFFFF ^^^ 0xFFFFFFFF

def tableStep (entries : Vector Word 256) (crc : Word) (byte : Byte) : Word :=
  have inside := lowByte_lt (crc ^^^ byte.setWidth 32)
  (crc >>> 8) ^^^ entries[((crc ^^^ byte.setWidth 32) &&& 0xFF#32).toNat]

variable {poly : Word} (platform : Platform) (statics : Statics) (data : List Byte)

/-- The software path: fill the table unless it is ready, then read it for every byte. -/
def Table.crc32 (table : Table poly) : Word × Table poly :=
  let table := if table.ready then table else ⟨crc32Init poly, true, fun _ => rfl⟩
  (crc32Loop (tableStep table.entries) data, table)

def ethernetCrc32 : Word × Statics :=
  let (crc, table) := statics.ethernetTable.crc32 data
  (crc, { statics with ethernetTable := table })

def hwCrc32Check : Bool × Statics :=
  let available := statics.hwCrc32Available.getD platform.crc32HwAvailable
  (available, { statics with hwCrc32Available := some available })

def castagnoliTablePath : Word × Statics :=
  let (crc, table) := statics.castagnoliTable.crc32 data
  (crc, { statics with castagnoliTable := table })

def castagnoliCrc32 : Word × Statics :=
  match platform.hwU8 with
  | none => castagnoliTablePath statics data
  | some hwU8 =>
    match hwCrc32Check platform statics with
    | (true, statics) => (crc32Loop hwU8 data, statics)
    | (false, statics) => castagnoliTablePath statics data

/-! ## Bit-serial division -/

variable (poly)

/-- The divider takes in one bit of the message. -/
def shiftBit (crc : Word) (bit : Bool) : Word :=
  if crc.getLsbD 0 ^^ bit then (crc >>> 1) ^^^ poly else crc >>> 1

/-- The bits of a byte enter from the lowest on. -/
def bits (byte : Byte) : List Bool := (List.range 8).map byte.getLsbD

def byteStep (crc : Word) (byte : Byte) : Word := (bits byte).foldl (shiftBit poly) crc

/-- The remainder of a message for a reflected polynomial, with the initial value and the final
complement. -/
def bitSerial (data : List Byte) : Word :=
  (data.flatMap bits).foldl (shiftBit poly) 0xFFFFFFFF ^^^ 0xFFFFFFFF

theorem bitSerial_eq : bitSerial poly data = crc32Loop (byteStep poly) data := by
  rw [bitSerial, List.foldl_flatMap]
  rfl

/-! ## One byte -/

variable (crc rest : Word) (byte : Byte)

theorem bitStep_eq : bitStep poly crc = shiftBit poly crc false := by
  have low : crc &&& 1 = BitVec.setWidth 32 (BitVec.ofBool (crc.getLsbD 0)) :=
    BitVec.and_one_eq_setWidth_ofBool_getLsbD
  rw [bitStep, shiftBit, low]
  cases crc.getLsbD 0 <;> rfl

/-- The bits that are still to come only move down. -/
theorem bitStep_xor :
    bitStep poly (crc ^^^ rest) = shiftBit poly crc (rest.getLsbD 0) ^^^ (rest >>> 1) := by
  simp only [bitStep_eq, shiftBit, BitVec.getLsbD_xor, Bool.xor_false,
    BitVec.ushiftRight_xor_distrib]
  split
  · ac_rfl
  · rfl

theorem bitStep_iterate_xor (n : Nat) : (bitStep poly)^[n] (crc ^^^ rest) =
    ((List.range n).map rest.getLsbD).foldl (shiftBit poly) crc ^^^ (rest >>> n) := by
  induction n with
  | zero => simp
  | succ n ih =>
    rw [Function.iterate_succ_apply', ih, bitStep_xor, List.range_succ, List.map_append,
      List.foldl_append, BitVec.shiftRight_add]
    simp

theorem setWidth_shiftRight_eight : byte.setWidth 32 >>> 8 = 0#32 := by
  ext i
  simp

theorem byteStep_eq :
    byteStep poly crc byte = (bitStep poly)^[8] (crc ^^^ byte.setWidth 32) := by
  have same : (List.range 8).map (byte.setWidth 32).getLsbD = bits byte :=
    List.map_congr_left fun i inside => by
      have := List.mem_range.mp inside
      simp [show i < 32 by omega]
  rw [bitStep_iterate_xor, setWidth_shiftRight_eight, same, BitVec.xor_zero, byteStep]

/-- Eight rounds: the entry for the low byte, and the rest of the register moved down. -/
theorem bitStep_eight :
    (bitStep poly)^[8] crc = (crc >>> 8) ^^^ (bitStep poly)^[8] (crc &&& 0xFF#32) := by
  have parts : (crc &&& 0xFF#32) ^^^ (crc >>> 8 <<< 8) = crc := by
    have mask : 0xFF#32 = BitVec.allOnes 32 >>> 24 := rfl
    ext i inside
    simp only [mask, BitVec.getElem_xor, BitVec.getElem_and, BitVec.getElem_ushiftRight,
      BitVec.getElem_shiftLeft, BitVec.getLsbD_allOnes]
    by_cases low : i < 8
    · simp [low]
      omega
    · rw [Nat.add_sub_cancel' (Nat.le_of_not_lt low)]
      simp [low, inside, show ¬ 24 + i < 32 by omega]
  have clear : (List.range 8).map (crc >>> 8 <<< 8).getLsbD = (List.range 8).map (0#32).getLsbD :=
    List.map_congr_left fun i inside => by simp [List.mem_range.mp inside]
  have shifted : crc >>> 8 <<< 8 >>> 8 = crc >>> 8 := by
    ext i
    simpa using BitVec.lt_of_getLsbD
  have low := bitStep_iterate_xor poly (crc &&& 0xFF#32) 0#32 8
  have whole := bitStep_iterate_xor poly (crc &&& 0xFF#32) (crc >>> 8 <<< 8) 8
  rw [parts, clear, shifted] at whole
  rw [BitVec.xor_zero, BitVec.zero_ushiftRight, BitVec.xor_zero] at low
  rw [whole, low, BitVec.xor_comm]

/-- The table step takes in one byte as the divider does. -/
theorem tableStep_eq : tableStep (crc32Init poly) = byteStep poly := by
  funext crc byte
  rw [byteStep_eq, bitStep_eight, BitVec.ushiftRight_xor_distrib, setWidth_shiftRight_eight,
    BitVec.xor_zero, tableStep, crc32Init, Vector.getElem_ofFn, BitVec.ofNat_toNat,
    BitVec.setWidth_eq]

/-! ## Whole messages -/

theorem Table.crc32_eq (table : Table poly) : (table.crc32 data).1 = bitSerial poly data := by
  have content : ∀ filled : Table poly, filled.ready = true →
      crc32Loop (tableStep filled.entries) data = bitSerial poly data := by
    intro filled ready
    rw [filled.filled ready, tableStep_eq, bitSerial_eq]
  rw [crc32]
  split
  · exact content _ ‹_›
  · exact content _ rfl

/-- **The checksums are those of the bit-serial division**, whatever the statics hold, and the
instruction of the processor gives the result of the table. -/
theorem crc32_eq_bitSerial (instruction : ∀ hwU8, platform.hwU8 = some hwU8 →
      ∀ crc byte, hwU8 crc byte = byteStep castagnoliPoly crc byte) :
    (ethernetCrc32 statics data).1 = bitSerial ethernetPoly data ∧
      (castagnoliCrc32 platform statics data).1 = bitSerial castagnoliPoly data ∧
      (castagnoliCrc32 platform statics data).1 = (castagnoliTablePath statics data).1 := by
  have software := fun statics : Statics => statics.castagnoliTable.crc32_eq castagnoliPoly data
  have either : (castagnoliCrc32 platform statics data).1 = bitSerial castagnoliPoly data := by
    unfold castagnoliCrc32
    split
    · exact software statics
    rename_i hwU8 compiled
    have same : hwU8 = byteStep castagnoliPoly :=
      funext fun crc => funext (instruction hwU8 compiled crc)
    split
    · rw [bitSerial_eq, same]
    · exact software _
  exact ⟨Table.crc32_eq _ data _, either, either.trans (software statics).symm⟩

/-- The statics at the start of the program. -/
def initialStatics : Statics where
  ethernetTable := ⟨Vector.replicate 256 0, false, nofun⟩
  castagnoliTable := ⟨Vector.replicate 256 0, false, nofun⟩
  hwCrc32Available := none

/-- The digits from one to nine. -/
def digits : List Byte := (List.range 9).map fun i => BitVec.ofNat 8 (0x31 + i)

/-- The checksums of the digits, the second with the instruction. -/
theorem crc32_eq_bitSerial_instruction :
    (ethernetCrc32 initialStatics digits).1 = 0xCBF43926 ∧
      (castagnoliCrc32 ⟨some (byteStep castagnoliPoly), true⟩ initialStatics digits).1 =
        0xE3069283 := by
  obtain ⟨ethernet, castagnoli, -⟩ :=
    crc32_eq_bitSerial ⟨some (byteStep castagnoliPoly), true⟩ initialStatics digits
      (by rintro _ ⟨⟩ _ _; rfl)
  rw [ethernet, castagnoli]
  decide +kernel

/-! ## Bursts of errors -/

section Bursts

/-- Up to 32 bits as a register. -/
def word (bits : List Bool) : Word := (BitVec.ofBoolListLE bits).setWidth 32

theorem map_getLsbD_word {bits : List Bool} (short : bits.length ≤ 32) :
    (List.range bits.length).map (word bits).getLsbD = bits := by
  refine List.ext_getElem (by simp) fun i _ inside => ?_
  simp only [List.getElem_map, List.getElem_range, word, BitVec.getLsbD_setWidth,
    BitVec.getLsbD_ofBoolListLE]
  simp [inside, show i < 32 by omega]

variable {poly}

theorem foldl_shiftBit_eq (crc : Word) {bits : List Bool} (short : bits.length ≤ 32) :
    bits.foldl (shiftBit poly) crc = (bitStep poly)^[bits.length] (crc ^^^ word bits) := by
  have past : word bits >>> bits.length = 0#32 := by
    ext i
    simp [word]
  rw [bitStep_iterate_xor, map_getLsbD_word short, past, BitVec.xor_zero]

variable (top : poly.msb = true)

include top

/-- The bit that leaves the register shows in its top bit. -/
theorem shiftBit_injective (bit : Bool) : Function.Injective (shiftBit poly · bit) := by
  have msb (crc : Word) : (shiftBit poly crc bit).msb = (crc.getLsbD 0 ^^ bit) := by
    unfold shiftBit
    split <;> simp_all
  intro crc crc' same
  have low : crc.getLsbD 0 = crc'.getLsbD 0 := by
    simpa [msb] using congrArg BitVec.msb same
  have high : crc >>> 1 = crc' >>> 1 := by
    simp only [shiftBit, low] at same
    split at same
    · simpa using same
    · exact same
  refine BitVec.eq_of_getLsbD_eq fun i _ => ?_
  cases i with
  | zero => exact low
  | succ i => simpa [Nat.add_comm] using congrArg (BitVec.getLsbD · i) high

theorem foldl_shiftBit_injective (bits : List Bool) :
    Function.Injective (bits.foldl (shiftBit poly)) := by
  induction bits with
  | nil => exact Function.injective_id
  | cons bit bits ih => exact ih.comp (shiftBit_injective top bit)

/-- **The checksums find every burst of errors of at most 32 bits**, for every polynomial with the
top bit set. -/
theorem crc32_detects_burst (table table' : Table poly) {data data' : List Byte}
    {before burst burst' after : List Bool} (short : burst.length ≤ 32)
    (long : burst.length = burst'.length) (differ : burst ≠ burst')
    (sent : data.flatMap bits = before ++ burst ++ after)
    (received : data'.flatMap bits = before ++ burst' ++ after) :
    (table.crc32 data).1 ≠ (table'.crc32 data').1 := by
  intro same
  have short' := long ▸ short
  have step : Function.Injective (bitStep poly) := fun crc crc' same => by
    rw [bitStep_eq, bitStep_eq] at same
    exact shiftBit_injective top false same
  simp only [Table.crc32_eq, bitSerial, sent, received, List.foldl_append, BitVec.xor_left_inj]
    at same
  have met := foldl_shiftBit_injective top after same
  rw [foldl_shiftBit_eq _ short, foldl_shiftBit_eq _ short', ← long] at met
  have words : word burst = word burst' := by simpa using step.iterate _ met
  rw [← map_getLsbD_word short, ← map_getLsbD_word short', words, long] at differ
  exact differ rfl

end Bursts

/-- Both polynomials of the source have their top bit set. -/
example : ethernetPoly.msb = true ∧ castagnoliPoly.msb = true := by decide

/-- Two flipped bits in different bytes. -/
theorem crc32_detects_burst_two_bits :
    (ethernetCrc32 initialStatics [0x80, 0]).1 ≠ (ethernetCrc32 initialStatics [0, 1]).1 :=
  @crc32_detects_burst _ (by decide) _ _ [0x80, 0] [0, 1] (.replicate 7 false) [true, false]
    [false, true] (.replicate 7 false) (by decide) rfl (by decide) rfl rfl

end Wirelog.Functions.Crc32

import Wirelog.Foundations.ByteFields

/-!
# The arena of compound terms

A model of `arena/compound_arena.c`. Compound terms are stored outside the rows, as bytes in an
arena, and a row holds a handle: the seed of the session (20 bits), an epoch (12 bits) and an
offset (32 bits). The arena has one generation for each epoch, a buffer in which payloads are laid
out one after the other, with the offsets and the multiplicities of its handles. When an epoch
ends its generation is emptied and the next one is used; after the last epoch the arena refuses
to allocate.

Buffers grow by moving to larger ones. All of this may fail: the allocations, and with a memory
governor also the reservations that go with them (`GrowthFaults`). Numbers of 32 bits are natural
numbers with explicit wrap-around. The gate that keeps readers and the writer apart is modelled by
the number of readers. Left out are the log messages and the contents of the reservations.
-/

set_option autoImplicit false

namespace Wirelog.Arena

open Wirelog.Foundations Function

/-! ## Handles -/

/-- `wl_compound_handle_pack`. -/
def handlePack (sessionSeed epoch offset : Nat) : Nat :=
  ((sessionSeed &&& 0xFFFFF) <<< 44) ||| ((epoch &&& 0xFFF) <<< 32) ||| offset

/-- `wl_compound_handle_session`. -/
def handleSession (handle : Nat) : Nat := (handle >>> 44) &&& 0xFFFFF

/-- `wl_compound_handle_epoch`. -/
def handleEpoch (handle : Nat) : Nat := (handle >>> 32) &&& 0xFFF

/-- `wl_compound_handle_offset`. -/
def handleOffset (handle : Nat) : Nat := handle &&& 0xFFFFFFFF

/-- `WL_COMPOUND_HANDLE_NULL`. -/
def handleNull : Nat := 0

/-! ## The arena -/

/-- Subtraction of numbers of 32 bits. -/
def sub32 (a b : Nat) : Nat := if b ≤ a then a - b else a + 2 ^ 32 - b

/-- `WL_COMPOUND_ALIGN`. -/
def compoundAlign : Nat := 8

/-- `WL_COMPOUND_ALIGN_UP`. -/
def alignUp (n : Nat) : Nat := (n + (compoundAlign - 1)) % 2 ^ 32 / compoundAlign * compoundAlign

/-- `WL_COMPOUND_DEFAULT_ENTRY_CAP`. -/
def defaultEntryCap : Nat := 16

/-- `WL_COMPOUND_DEFAULT_MAX_EPOCHS`. -/
def defaultMaxEpochs : Nat := 0xFFF + 1

/-- `wl_compound_gen_t`. The entries in use are the elements of the two lists; a generation that
grew under a governor holds reservations. -/
structure Gen where
  base : Nat → UInt8
  capacity : Nat
  used : Nat
  entryOffsets : List Nat
  multiplicity : List Int
  entryCap : Nat
  payloadAdmission : Bool
  entriesAdmission : Bool

/-- A generation as `calloc` leaves it. -/
def Gen.empty : Gen := ⟨fun _ => 0, 0, 0, [], [], 0, false, false⟩

/-- `wl_compound_arena_t`; `managed` says that the callbacks of a governor are set, and `readers`
is the state of the gate outside of a mutation. -/
structure CompoundArena where
  sessionSeed : Nat
  currentEpoch : Nat
  gens : Nat → Gen
  maxEpochs : Nat
  defaultGenCap : Nat
  frozen : Bool
  liveHandles : Nat
  managed : Bool
  readers : Nat

def normalizeMaxEpochs (maxEpochs : UInt32) : Nat :=
  if maxEpochs = 0 then defaultMaxEpochs
  else if defaultMaxEpochs < maxEpochs.toNat then defaultMaxEpochs
  else maxEpochs.toNat

/-- `compound_arena_create_impl` with enough memory. -/
def create (sessionSeed defaultGenCap maxEpochs : UInt32) (managed : Bool) :
    Option CompoundArena :=
  if defaultGenCap = 0 then none
  else some
    { sessionSeed := sessionSeed.toNat &&& 0xFFFFF
      currentEpoch := 0
      gens := fun _ => .empty
      maxEpochs := normalizeMaxEpochs maxEpochs
      defaultGenCap := defaultGenCap.toNat
      frozen := false
      liveHandles := 0
      managed := managed
      readers := 0 }

/-! ## Growth -/

/-- The loop of `compound_grow_capacity`; 32 rounds suffice, since the capacity doubles. -/
def growLoop (used need : Nat) : Nat → Nat → Option Nat
  | 0, _ => none
  | rounds + 1, capacity =>
    if capacity - used < need then
      if uint32Max / 2 < capacity then none else growLoop used need rounds (capacity * 2)
    else some capacity

/-- `compound_grow_capacity`. -/
def growCapacity (current used need defaultCap : Nat) : Option Nat :=
  let capacity := if 0 < current then current else defaultCap
  if capacity < used then none else growLoop used need 33 capacity

/-- What fails while a generation grows: the memory and the admission of the two reservations, the
new buffers, and the publication and the release of reservations. -/
structure GrowthFaults where
  payloadReservation : Bool
  payloadAdmission : Bool
  entriesReservation : Bool
  entriesAdmission : Bool
  payload : Bool
  entryOffsets : Bool
  multiplicity : Bool
  publishPayload : Bool
  publishEntries : Bool
  releasePayload : Bool
  releaseEntries : Bool

/-- The steps of `gen_reserve` between the new capacities and the exchange of the buffers, in their
order: one of them fails. -/
def growthFails (managed : Bool) (faults : GrowthFaults) (gen : Gen)
    (growPayload growEntries : Bool) : Bool :=
  growPayload && managed && (faults.payloadReservation || faults.payloadAdmission) ||
  growEntries && managed && (faults.entriesReservation || faults.entriesAdmission) ||
  growPayload && faults.payload ||
  growEntries && (faults.entryOffsets || faults.multiplicity) ||
  growPayload && managed && faults.publishPayload ||
  growEntries && managed && faults.publishEntries ||
  growPayload && gen.payloadAdmission && faults.releasePayload ||
  growEntries && gen.entriesAdmission && faults.releaseEntries

/-- The new capacity for payloads in `gen_reserve`. -/
def newPayloadCap (gen : Gen) (growPayload : Bool) (need defaultCap : Nat) : Option Nat :=
  if growPayload then growCapacity gen.capacity gen.used need defaultCap else some gen.capacity

/-- The new capacity for entries in `gen_reserve`; none when the number of 32 bits wraps around. -/
def newEntryCap (gen : Gen) (growEntries : Bool) : Option Nat :=
  if growEntries then
    let cap := if 0 < gen.entryCap then gen.entryCap * 2 % 2 ^ 32 else defaultEntryCap
    if cap ≤ gen.entryCap then none else some cap
  else some gen.entryCap

/-- The generation with new buffers, where `fresh` is what a new buffer contains; the bytes in use
are copied. -/
def Gen.grow (managed : Bool) (fresh : Nat → UInt8) (gen : Gen) (growPayload growEntries : Bool)
    (payloadCap entryCap : Nat) : Gen :=
  { gen with
    base := if growPayload then fun i => if i < gen.used then gen.base i else fresh i else gen.base
    capacity := payloadCap
    entryCap := entryCap
    payloadAdmission := if growPayload then managed else gen.payloadAdmission
    entriesAdmission := if growEntries then managed else gen.entriesAdmission }

def genReserve (managed : Bool) (faults : GrowthFaults) (fresh : Nat → UInt8) (gen : Gen)
    (need defaultCap : Nat) : Option Gen :=
  let growPayload : Bool := decide (sub32 gen.capacity gen.used < need)
  let growEntries : Bool := decide (gen.entryCap ≤ gen.entryOffsets.length)
  match newPayloadCap gen growPayload need defaultCap, newEntryCap gen growEntries with
  | some payloadCap, some entryCap =>
    if growthFails managed faults gen growPayload growEntries then none
    else some (gen.grow managed fresh growPayload growEntries payloadCap entryCap)
  | _, _ => none

/-! ## Operations -/

variable (arena : CompoundArena)

/-- The first handle of a session with seed 0 would be the null handle. -/
def avoidNullHandle : Bool :=
  arena.sessionSeed == 0 && arena.currentEpoch == 0 && (arena.gens arena.currentEpoch).used == 0

/-- How many bytes `wl_compound_arena_alloc` reserves, or none when there are too many. -/
def reserveNeed (size : UInt32) : Option Nat :=
  if uint32Max - (compoundAlign - 1) < size.toNat then none
  else if avoidNullHandle arena then
    if uint32Max - compoundAlign < alignUp size.toNat then none
    else some (alignUp size.toNat + compoundAlign)
  else some (alignUp size.toNat)

/-- The entry of a new handle behind the others. -/
def Gen.push (gen : Gen) (offset aligned : Nat) : Gen :=
  { gen with
    entryOffsets := gen.entryOffsets ++ [offset]
    multiplicity := gen.multiplicity ++ [1]
    used := (offset + aligned) % 2 ^ 32 }

/-- The end of `wl_compound_arena_alloc`, when the current generation has room: the new handle, and
the arena with its entry. -/
def publishEntry (gen : Gen) (aligned : Nat) : Nat × CompoundArena :=
  let offset := if avoidNullHandle arena then compoundAlign else gen.used
  (handlePack arena.sessionSeed arena.currentEpoch offset,
    { arena with
      gens := update arena.gens arena.currentEpoch (gen.push offset aligned)
      liveHandles := (arena.liveHandles + 1) % 2 ^ 64 })

/-- `wl_compound_arena_alloc`: the handle, or null, and the arena. -/
def alloc (size : UInt32) (faults : GrowthFaults) (fresh : Nat → UInt8) : Nat × CompoundArena :=
  if arena.readers ≠ 0 then (handleNull, arena)
  else if size = 0 ∨ arena.frozen then (handleNull, arena)
  else if arena.maxEpochs ≤ arena.currentEpoch then (handleNull, arena)
  else match reserveNeed arena size with
  | none => (handleNull, arena)
  | some need =>
    match genReserve arena.managed faults fresh (arena.gens arena.currentEpoch) need
      arena.defaultGenCap with
    | none => (handleNull, arena)
    | some gen => publishEntry arena gen (alignUp size.toNat)

/-- `locate_entry`: the number of the entry of a handle in its generation. -/
def locateEntry (handle : Nat) : Option Nat :=
  if handle = handleNull then none
  else if handleSession handle ≠ arena.sessionSeed then none
  else if arena.maxEpochs ≤ handleEpoch handle then none
  else if (arena.gens (handleEpoch handle)).used ≤ handleOffset handle then none
  else (arena.gens (handleEpoch handle)).entryOffsets.findIdx? (· == handleOffset handle)

/-- A piece of the buffer of a generation. -/
structure Area where
  epoch : Nat
  offset : Nat
  size : Nat
  deriving DecidableEq, Repr

/-- `wl_compound_arena_lookup`: where the payload of a handle is, and its size. -/
def lookup (handle : Nat) : Option Area :=
  match locateEntry arena handle with
  | none => none
  | some i =>
    let gen := arena.gens (handleEpoch handle)
    let offset := gen.entryOffsets.getD i 0
    some ⟨handleEpoch handle, offset, sub32 ((gen.entryOffsets[i + 1]?).getD gen.used) offset⟩

def CompoundArena.read (area : Area) (i : Nat) : UInt8 :=
  (arena.gens area.epoch).base (area.offset + i)

/-- The caller of a lookup writes a byte of the payload. -/
def write (handle i : Nat) (byte : UInt8) : CompoundArena :=
  match lookup arena handle with
  | none => arena
  | some area =>
    if i < area.size then
      let gen := arena.gens area.epoch
      { arena with
        gens := update arena.gens area.epoch
          { gen with base := update gen.base (area.offset + i) byte } }
    else arena

/-- A signed number of 64 bits. -/
def int64 (n : Int) : Int := (n + 2 ^ 63) % 2 ^ 64 - 2 ^ 63

/-- `wl_compound_arena_retain`; a negative change releases. -/
def retain (handle : Nat) (delta : Int) : CompoundArena :=
  if arena.readers ≠ 0 then arena
  else if delta = 0 then arena
  else match locateEntry arena handle with
  | none => arena
  | some i =>
    let gen := arena.gens (handleEpoch handle)
    let before := gen.multiplicity.getD i 0
    let after := int64 (before + delta)
    { arena with
      gens := update arena.gens (handleEpoch handle)
        { gen with multiplicity := gen.multiplicity.set i after }
      liveHandles :=
        if 0 < before ∧ after ≤ 0 ∧ 0 < arena.liveHandles then arena.liveHandles - 1
        else if before ≤ 0 ∧ 0 < after then (arena.liveHandles + 1) % 2 ^ 64
        else arena.liveHandles }

/-- `wl_compound_arena_freeze` and `wl_compound_arena_unfreeze`. -/
def setFrozen (frozen : Bool) : CompoundArena :=
  if arena.readers ≠ 0 then arena else { arena with frozen := frozen }

/-- `wl_compound_arena_gc_epoch_boundary`. -/
def gcEpochBoundary : CompoundArena :=
  if arena.readers ≠ 0 then arena
  else if arena.maxEpochs ≤ arena.currentEpoch then arena
  else if arena.frozen then arena
  else
    { arena with
      gens := update arena.gens arena.currentEpoch
        { arena.gens arena.currentEpoch with used := 0, entryOffsets := [], multiplicity := [] }
      currentEpoch := if arena.currentEpoch + 1 < arena.maxEpochs then arena.currentEpoch + 1
        else arena.maxEpochs }

/-- `wl_compound_arena_borrow`: refused when there are as many readers as the gate can count. -/
def borrow : CompoundArena :=
  if 2 ^ 64 - 2 ≤ arena.readers then arena else { arena with readers := arena.readers + 1 }

/-- `wl_compound_arena_borrow_release`. -/
def borrowRelease : CompoundArena :=
  if arena.readers = 0 then arena else { arena with readers := arena.readers - 1 }

end Wirelog.Arena

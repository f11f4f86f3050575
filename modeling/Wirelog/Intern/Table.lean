import Wirelog.Foundations.ByteFields
import Wirelog.Foundations.OpenAddressing
import Wirelog.Memory.Reservation

/-!
# The intern table

The table of `intern.c`: strings get ids in the order in which they are interned. Strings
stand in segments that double in size and never move; a slot table with open addressing leads
from a string to its id. A table that is attached to a memory governor keeps one reservation
for all the bytes it retains.

Interning a string may fail at an allocation, at an arithmetic limit, or because the governor
does not let it grow. Each call is given which of its allocations fail. A loop that does
not end and a read of an entry that does not exist make a call return nothing at all.
-/

set_option autoImplicit false

namespace Wirelog.Intern

open Wirelog.Foundations Wirelog.Memory Function

/-! ## Strings and hashes -/

/-- A string without its terminating zero byte. -/
structure CString where
  bytes : List UInt8
  noNul : 0 ∉ bytes
  deriving DecidableEq

def fnv1a (str : CString) : Nat :=
  (str.bytes.foldl (fun (hash : UInt32) byte => (hash ^^^ byte.toUInt32) * 16777619)
    2166136261).toNat

/-! ## Segments -/

/-- `intern_seg_of`: the segment that holds an id. -/
def segOf (id : Nat) : Nat := Nat.log2 ((id >>> 6) + 1)

/-- `intern_seg_base`: the first id of a segment. -/
def segBase (seg : Nat) : Nat := (64 <<< seg) - 64

/-- `intern_seg_size`. -/
def segSize (seg : Nat) : Nat := 64 <<< seg

/-- `INTERN_MAX_STRINGS`. -/
def maxStrings : Nat := uint32Max - 64 + 1

/-- `INTERN_MAX_SEGMENTS`. -/
def maxSegments : Nat := 26

/-! ## The table -/

/-- `wl_intern_t`. A slot holds an id or is empty (`SLOT_EMPTY` is not an id). The flag says
whether a governor is attached. -/
structure Table where
  segments : Nat → Option (Nat → Option CString)
  count : Nat
  slots : Nat → Option Nat
  slotCapacity : Nat
  attached : Bool
  reservation : Token Unit
  reservedBytes : Nat

/-- A table together with the governor it uses. -/
structure State where
  table : Table
  governor : Governor

/-- `wl_intern_create`. -/
def Table.create : Table where
  segments := fun _ => none
  count := 0
  slots := fun _ => none
  slotCapacity := 64
  attached := false
  reservation := .init Unit
  reservedBytes := 0

section Lookup

variable (t : Table)

/-- `intern_string_at`. -/
def stringAt (id : Nat) : Option CString :=
  match t.segments (segOf id) with
  | none => none
  | some entries => entries (id - segBase (segOf id))

variable (capacity : Nat)

def homeSlot (str : CString) : Nat := fnv1a str &&& (capacity - 1)

def nextSlot (capacity h : Nat) : Nat := (h + 1) &&& (capacity - 1)

/-- The answer of a lookup: the id of the string, or the empty slot the probe stopped on. -/
inductive Lookup where
  | found (id : Nat)
  | absent (slot : Nat)
  deriving DecidableEq, Repr

/-- `intern_lookup_locked`. The loop goes on while slots are taken by other strings. -/
def lookupLocked (str : CString) : Option Lookup :=
  match probe (nextSlot t.slotCapacity)
      (stopsAt t.slots fun id => decide (stringAt t id = some str)) t.slotCapacity
      (homeSlot t.slotCapacity str) with
  | none => none
  | some h => match t.slots h with
    | some id => some (.found id)
    | none => some (.absent h)

/-- The loop that looks for an empty slot. -/
def freeSlot (slots : Nat → Option Nat) (str : CString) : Option Nat :=
  probe (nextSlot capacity) (stopsAt slots fun _ => false) capacity (homeSlot capacity str)

/-- One round of the loop of `intern_resize_prepare`. -/
def reinsert (slots : Nat → Option Nat) (id : Nat) : Option (Nat → Option Nat) :=
  match stringAt t id with
  | none => none
  | some str => match freeSlot capacity slots str with
    | none => none
    | some h => some (update slots h (some id))

/-- The slots of `intern_resize_prepare`: every entry is inserted again. -/
def rehash : Option (Nat → Option Nat) :=
  (List.range t.count).foldlM (reinsert t capacity) fun _ => none

end Lookup

/-! ## Interning a string -/

/-- Which allocations of a call fail: the copy of the string, a new segment, and the slots of
a larger table. -/
structure Failures where
  copy : Bool
  segment : Bool
  slots : Bool
  deriving DecidableEq, Repr

/-- What storing one more string needs. -/
structure Growth where
  seg : Nat
  needsSegment : Bool
  needsResize : Bool
  newCap : Nat
  deriving DecidableEq, Repr

variable (t : Table)

/-- What the next string needs, unless a limit is reached. -/
def growth : Option Growth :=
  if t.count ≥ maxStrings then none
  else
    let needsResize := decide ((t.count + 1) * 4 > t.slotCapacity * 3)
    if needsResize ∧ t.slotCapacity > uint32Max / 2 then none
    else some
      { seg := segOf t.count
        needsSegment := (t.segments (segOf t.count)).isNone
        needsResize := needsResize
        newCap := if needsResize then t.slotCapacity * 2 else t.slotCapacity }

/-- The bytes the table retains after the string is stored. Slots take 4 bytes and the
entries of a segment 8. -/
def retainedAfter (copyBytes : Nat) (grow : Growth) : Option Nat := do
  let freedSlotBytes ← if grow.needsResize then sizeMul t.slotCapacity 4 else some 0
  let slotBytes ← if grow.needsResize then sizeMul grow.newCap 4 else some 0
  let segmentBytes ← if grow.needsSegment then sizeMul (segSize grow.seg) 8 else some 0
  guard (freedSlotBytes ≤ t.reservedBytes)
  let kept ← sizeAdd (t.reservedBytes - freedSlotBytes) copyBytes
  let more ← sizeAdd kept segmentBytes
  sizeAdd more slotBytes

/-- A reservation that is pending, and the bytes the table will retain. -/
structure Pending where
  token : Token Unit
  retained : Nat

variable (s : State)

/-- Asks the governor, if there is one, for the bytes the table will retain. -/
def reserveForGrowth (copyBytes : Nat) (grow : Growth) :
    Except Governor (Option Pending × Governor) :=
  if s.table.attached then
    match retainedAfter s.table copyBytes grow with
    | none => .error s.governor
    | some retained =>
      match reserveGrowth s.governor s.table.reservedBytes retained (.init Unit) with
      | (true, governor, token) => .ok (some ⟨token, retained⟩, governor)
      | (false, governor, _) => .error governor
  else .ok (none, s.governor)

/-- The address of the table, as the owner of its reservation. -/
def self : Nat := 1

variable (governor : Governor)

/-- `intern_publish_reservation`: the pending reservation takes the place of the present one.
Returns whether it did, with the table, the pending token and the governor. -/
def publishReservation (pending : Pending) : Bool × Table × Token Unit × Governor :=
  match commit pending.token self with
  | (false, token) => (false, t, token, governor)
  | (true, token) =>
    let holds := decide (t.reservedBytes > 0)
    let (moved, previous, present) :=
      if holds then reservationMove (.init Unit) t.reservation
      else (true, .init Unit, t.reservation)
    if !moved then
      let (_, governor, token) := release governor token
      (false, { t with reservation := present }, token, governor)
    else
      match reservationMove present token with
      | (false, present, token) =>
        let present :=
          if holds then (reservationMove (.init Unit) previous).2.1 else present
        let (_, governor, token) := release governor token
        (false, { t with reservation := present }, token, governor)
      | (true, present, token) =>
        let governor := if holds then (release governor previous).2.1 else governor
        (true, { t with reservation := present, reservedBytes := pending.retained }, token,
          governor)

/-- Gives up a reservation that is pending. -/
def giveUp : Option (Token Unit) → Governor
  | none => governor
  | some token => (rollback governor token).2.1

def store (grow : Growth) (str : CString) (h : Nat) : Table :=
  let entries := if grow.needsSegment then fun _ => none
    else (t.segments grow.seg).getD fun _ => none
  { t with
    segments := update t.segments grow.seg
      (some (update entries (t.count - segBase grow.seg) (some str)))
    slots := update t.slots h (some t.count)
    count := t.count + 1 }

def publish : Option Pending → Bool × Table × Option (Token Unit) × Governor
  | none => (true, s.table, none, s.governor)
  | some pending =>
    let (ok, table, token, governor) := publishReservation s.table s.governor pending
    (ok, table, some token, governor)

/-- The part of `wl_intern_put` that cannot fail any more: new slots replace the old ones, and
the string is stored. -/
def storeNew (grow : Growth) (slots : Option (Nat → Option Nat)) (str : CString) (h : Nat) :
    Option (Option Nat × State) :=
  match slots with
  | none => some (some t.count, ⟨store t grow str h, governor⟩)
  | some slots =>
    let t := { t with slots := slots, slotCapacity := grow.newCap }
    match freeSlot t.slotCapacity t.slots str with
    | none => none
    | some h => some (some t.count, ⟨store t grow str h, governor⟩)

/-- The end of `wl_intern_put`, from the publication of the reservation on. -/
def finishPut (grow : Growth) (pending : Option Pending) (slots : Option (Nat → Option Nat))
    (str : CString) (h : Nat) : Option (Option Nat × State) :=
  match publish s pending with
  | (false, table, token, governor) => some (none, ⟨table, giveUp governor token⟩)
  | (true, table, _, governor) => storeNew table governor grow slots str h

/-- `wl_intern_put` for a string that is not in the table. -/
def putNew (failures : Failures) (str : CString) (h : Nat) (s : State) :
    Option (Option Nat × State) :=
  match growth s.table with
  | none => some (none, s)
  | some grow =>
    match reserveForGrowth s (str.bytes.length + 1) grow with
    | .error governor => some (none, { s with governor := governor })
    | .ok (pending, governor) =>
      let failed := some (none, { s with governor := giveUp governor (pending.map Pending.token) })
      if grow.needsSegment ∧ failures.segment then failed
      else if grow.needsResize then
        if failures.slots then failed
        else match rehash s.table grow.newCap with
        | none => none
        | some slots => finishPut { s with governor := governor } grow pending slots str h
      else finishPut { s with governor := governor } grow pending none str h

/-- `wl_intern_put`: the id of the string, or nothing if it fails. The copy of the string is
allocated before the string is looked up. -/
def put (failures : Failures) (str : CString) (s : State) : Option (Option Nat × State) :=
  if str.bytes.length = uint64Max ∨ failures.copy then some (none, s)
  else match lookupLocked s.table str with
  | none => none
  | some (.found id) => some (some id, s)
  | some (.absent h) => putNew failures str h s

/-! ## Reading the table -/

/-- `wl_intern_get`. -/
def get (str : CString) : Option (Option Nat) :=
  match lookupLocked t str with
  | none => none
  | some (.found id) => some (some id)
  | some (.absent _) => some none

/-- `wl_intern_reverse`, for ids that are not negative. -/
def reverse (id : Nat) : Option CString :=
  if id > uint32Max ∨ id ≥ t.count then none else stringAt t id

/-! ## Attaching a governor -/

/-- The sum of `intern_retained_bytes_locked`; nothing if it exceeds a `uint64_t`. The outer
option is for a read of an entry that does not exist. -/
def retainedBytes : Option (Option Nat) :=
  let segments := (List.range maxSegments).filter fun seg => (t.segments seg).isSome
  let arrays := segments.foldlM (fun total seg => sizeAdd total (segSize seg * 8))
    (t.slotCapacity * 4)
  match (List.range t.count).mapM (stringAt t) with
  | none => none
  | some strings => some (do
      let total ← arrays
      strings.foldlM (fun total str => sizeAdd total (str.bytes.length + 1)) total)

/-- `wl_intern_attach_memory_governor`. -/
def attach : Option State :=
  if s.table.attached then some s
  else match retainedBytes s.table with
  | none => none
  | some none => some s
  | some (some bytes) =>
    if bytes = uint64Max then some s
    else match reserveChecked s.governor bytes (.init Unit) with
    | (false, governor, _) => some { s with governor := governor }
    | (true, governor, token) => match commit token self with
      | (false, token) => some { s with governor := (release governor token).2.1 }
      | (true, token) =>
        let (_, reservation, _) := reservationMove s.table.reservation token
        some ⟨{ s.table with attached := true, reservation := reservation
                             reservedBytes := bytes }, governor⟩

/-- `wl_intern_detach_memory_governor`. -/
def detach : State :=
  if s.table.attached then
    let (governor, reservation) :=
      if s.table.reservedBytes > 0 then
        ((release s.governor s.table.reservation).2.1, (release s.governor s.table.reservation).2.2)
      else (s.governor, s.table.reservation)
    ⟨{ s.table with attached := false, reservation := reservation, reservedBytes := 0 }, governor⟩
  else s

end Wirelog.Intern

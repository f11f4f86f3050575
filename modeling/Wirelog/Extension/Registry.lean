import Wirelog.Foundations.HeapCounts

/-!
# The registry of extensions

A model of `extension_registry.c`. Entries and snapshots are objects in two heaps. An entry counts
its references: one from the registry, one from each snapshot that contains it, and one from each
callback lease. Snapshots count theirs, and pin entries so that these cannot be unregistered.

Every function holds the lock of the registry while it changes counts. The entries that it finds
without references are listed in `pending`, and after it has released the lock it runs their destroy
callbacks (`destroyPending`), before it returns. A function has no result when it touches an object
that was freed. Leases and callbacks that ran are noted in the state for the statements; no function
looks at them.

Descriptors are given as `wl_extension_descriptor_normalize` leaves them; what a callback computes
is left out.
-/

set_option autoImplicit false

namespace Wirelog.Extension

open Foundations Function

/-! ## Descriptors and names -/

abbrev Name := List UInt8

/-- `wirelog_extension_descriptor_t` after it was copied; pointers that may be null are options. -/
structure Descriptor where
  abiVersion : UInt32
  size : UInt32
  name : Option Name
  arity : UInt32
  argumentTypes : Option (List UInt32)
  resultType : UInt32
  hasInvoke : Bool
  addonAbiIdentity : UInt64
  addonAbiVersion : UInt32
  callbackPolicy : UInt32
  deriving DecidableEq

/-- A blank at either end of a name. -/
def isBlank (byte : UInt8) : Bool := byte == 32 || byte == 9 || byte == 10 || byte == 13

/-- `wl_extension_name_copy`: the name without blanks at its ends. -/
def nameCopy (name : Name) : Option Name :=
  let trimmed := ((name.dropWhile isBlank).reverse.dropWhile isBlank).reverse
  if trimmed.length = 0 ∨ 255 < trimmed.length then none else some trimmed

/-- `wl_extension_value_type_valid`. -/
def valueTypeValid (type : UInt32) : Bool := type == 1 || type == 2 || type == 3

variable (descriptor : Descriptor)

/-- `wl_extension_metadata_valid` and `wl_extension_callback_policy_valid`. -/
def metadataValid : Bool :=
  (descriptor.addonAbiIdentity == 0) == (descriptor.addonAbiVersion == 0) &&
    descriptor.callbackPolicy < 16

/-- `wl_extension_descriptor_valid`. -/
def descriptorValid : Bool :=
  descriptor.name.isSome && descriptor.hasInvoke && valueTypeValid descriptor.resultType &&
    (descriptor.arity == 0 || descriptor.argumentTypes.any fun types =>
      (types.take descriptor.arity.toNat).all valueTypeValid)

/-- The checks of `wirelog_extension_register` before it takes the lock, with its messages; the
result is the name under which the entry is kept. -/
def checkDescriptor (outOfMemory : Bool) : Except String Name :=
  if !metadataValid descriptor then .error "invalid descriptor metadata or callback policy"
  else if descriptor.abiVersion ≠ 1 then .error "ABI version mismatch"
  else if descriptor.size < 36 then .error "descriptor size is too small"
  else if !descriptorValid descriptor then .error "invalid descriptor"
  else match descriptor.name.bind nameCopy with
  | none => .error "invalid descriptor or allocation failed"
  | some name =>
    if outOfMemory then .error "invalid descriptor or allocation failed" else .ok name

/-! ## The state -/

/-- `wl_extension_entry_t`. -/
structure Entry where
  descriptor : Descriptor
  name : Name
  references : Nat
  pins : Nat
  registered : Bool
  deriving DecidableEq

/-- An entry of a snapshot, and how often the snapshot pins it. -/
structure Slot where
  entry : Nat
  pins : Nat
  deriving DecidableEq

/-- `wirelog_extension_snapshot_t`. -/
structure Snapshot where
  references : Nat
  slots : List Slot
  deriving DecidableEq

/-- The registry, the objects that were made, the entries that the present call still has to
destroy, the leases that callers hold, and the entries that were destroyed. -/
structure State where
  entries : Nat → Option Entry
  nextEntry : Nat
  registry : List Nat
  capacity : Nat
  snapshots : Nat → Option Snapshot
  nextSnapshot : Nat
  activeSnapshots : Nat
  activeLeases : Nat
  pending : List Nat
  leases : List Nat
  destroyed : List Nat

/-- `wirelog_extension_registry_create`. -/
def State.new : State := ⟨fun _ => none, 0, [], 0, fun _ => none, 0, 0, 0, [], [], []⟩

/-! ## Entries -/

/-- The first entry with a name among some, if any; no result when one of those looked at was
freed. -/
def findByName (entries : Nat → Option Entry) (name : Name) : List Nat → Option (Option Nat)
  | [] => some none
  | e :: rest =>
    match entries e with
    | none => none
    | some entry => if entry.name = name then some (some e) else findByName entries name rest

/-- One more reference to an entry. -/
def Entry.retain (entry : Entry) : Entry := { entry with references := entry.references + 1 }

/-- One reference less: `wl_extension_entry_release_locked`. -/
def Entry.release (entry : Entry) : Entry := { entry with references := entry.references - 1 }

/-- The entries of a list that `wl_extension_entry_release_locked` finds without references when
it releases them. -/
def lastReferences (entries : Nat → Option Entry) (ids : List Nat) : List Nat :=
  ids.filter fun e => (entries e).any (·.references == 1)

/-! ## Operations

What the functions do while they hold the lock. -/

/-- `wirelog_extension_register`: `outOfMemory` is about the entry, `noGrowth` about the array. -/
def register (outOfMemory noGrowth : Bool) (st : State) : Option (Except String Unit × State) :=
  match checkDescriptor descriptor outOfMemory with
  | .error message => some (.error message, st)
  | .ok name =>
    match findByName st.entries name st.registry with
    | none => none
    | some (some _) => some (.error "duplicate extension name", st)
    | some none =>
      if st.registry.length = st.capacity ∧ noGrowth then some (.error "allocation failed", st)
      else some (.ok (),
        { st with
          entries := update st.entries st.nextEntry
            (some ⟨{ descriptor with name := some name }, name, 1, 0, true⟩)
          nextEntry := st.nextEntry + 1
          registry := st.registry ++ [st.nextEntry]
          capacity := if st.registry.length = st.capacity then
            (if st.capacity = 0 then 8 else st.capacity * 2) else st.capacity })

/-- `wirelog_extension_unregister`. -/
def unregister (name : Name) (st : State) : Option (Except String Unit × State) :=
  match nameCopy name with
  | none => some (.error "invalid extension name", st)
  | some normalized =>
    match findByName st.entries normalized st.registry with
    | none => none
    | some none => some (.error "extension not found", st)
    | some (some e) =>
      match st.entries e with
      | none => none
      | some entry =>
        if entry.pins ≠ 0 then some (.error "extension is pinned", st)
        else some (.ok (),
          { st with
            entries := update st.entries e (some { entry.release with registered := false })
            registry := st.registry.erase e
            pending := st.pending ++ lastReferences st.entries [e] })

/-- `wirelog_extension_snapshot_acquire`. -/
def snapshotAcquire (outOfMemory : Bool) (st : State) : Option State :=
  if outOfMemory then some st
  else match modifyEach id (fun _ => Entry.retain) st.registry st.entries with
  | none => none
  | some entries => some
      { st with
        entries := entries
        snapshots := update st.snapshots st.nextSnapshot (some ⟨1, st.registry.map fun e => ⟨e, 0⟩⟩)
        nextSnapshot := st.nextSnapshot + 1
        activeSnapshots := st.activeSnapshots + 1 }

/-- `wirelog_extension_snapshot_retain`. -/
def snapshotRetain (s : Nat) (st : State) : Option State :=
  match st.snapshots s with
  | none => none
  | some snapshot => some
      { st with
        snapshots := update st.snapshots s
          (some { snapshot with references := snapshot.references + 1 }) }

/-- The last `wirelog_extension_snapshot_release`: first the pins of the entries are taken back,
then their references. -/
def snapshotFree (s : Nat) (snapshot : Snapshot) (st : State) : Option State :=
  match modifyEach Slot.entry (fun slot entry => { entry with pins := entry.pins - slot.pins })
      snapshot.slots st.entries with
  | none => none
  | some unpinned =>
    match modifyEach id (fun _ => Entry.release) (snapshot.slots.map Slot.entry) unpinned with
    | none => none
    | some released => some
        { st with
          entries := released
          snapshots := update st.snapshots s none
          activeSnapshots := st.activeSnapshots - 1
          pending := st.pending ++ lastReferences unpinned (snapshot.slots.map Slot.entry) }

/-- `wirelog_extension_snapshot_release`. -/
def snapshotRelease (s : Nat) (st : State) : Option State :=
  match st.snapshots s with
  | none => none
  | some snapshot =>
    if snapshot.references = 0 then some st
    else if snapshot.references = 1 then snapshotFree s snapshot st
    else some
      { st with
        snapshots := update st.snapshots s
          (some { snapshot with references := snapshot.references - 1 }) }

/-- `wirelog_extension_snapshot_find`: the entry, whose descriptor is returned. -/
def snapshotFind (s : Nat) (name : Name) (st : State) : Option (Option (Nat × Descriptor)) :=
  match st.snapshots s, nameCopy name with
  | none, _ => none
  | some _, none => some none
  | some snapshot, some normalized =>
    match findByName st.entries normalized (snapshot.slots.map Slot.entry) with
    | none => none
    | some none => some none
    | some (some e) => (st.entries e).map fun entry => some (e, entry.descriptor)

/-- A snapshot in which an entry is pinned once more, or once less. -/
def Snapshot.repin (e : Nat) (change : Nat → Nat) (snapshot : Snapshot) : Snapshot :=
  { snapshot with slots := snapshot.slots.map fun slot =>
      if slot.entry = e then { slot with pins := change slot.pins } else slot }

def setPins (s e : Nat) (change : Nat → Nat) (snapshot : Snapshot) (st : State) : Option State :=
  match st.entries e with
  | none => none
  | some entry => some
      { st with
        entries := update st.entries e (some { entry with pins := change entry.pins })
        snapshots := update st.snapshots s
          (some (snapshot.repin e change)) }

/-- `wirelog_extension_snapshot_pin`. -/
def snapshotPin (s : Nat) (name : Name) (st : State) : Option State :=
  match snapshotFind s name st, st.snapshots s with
  | none, _ => none
  | _, none => none
  | some none, some _ => some st
  | some (some (e, _)), some snapshot => setPins s e (· + 1) snapshot st

/-- `wirelog_extension_snapshot_unpin`, for the descriptor of an entry. -/
def snapshotUnpin (s e : Nat) (st : State) : Option State :=
  match st.snapshots s with
  | none => none
  | some snapshot =>
    match snapshot.slots.find? (·.entry == e) with
    | none => some st
    | some slot => if slot.pins = 0 then some st else setPins s e (· - 1) snapshot st

/-- `wl_extension_callback_lease_acquire`, for the descriptor of an entry. -/
def leaseAcquire (s e : Nat) (st : State) : Option State :=
  match st.snapshots s with
  | none => none
  | some snapshot =>
    if e ∈ snapshot.slots.map Slot.entry then
      match st.entries e with
      | none => none
      | some entry => some
          { st with
            entries := update st.entries e (some entry.retain)
            activeLeases := st.activeLeases + 1
            leases := st.leases ++ [e] }
    else some st

/-- `wl_extension_callback_lease_release`. -/
def leaseRelease (e : Nat) (st : State) : Option State :=
  match st.entries e with
  | none => none
  | some entry => some
      { st with
        entries := update st.entries e (some entry.release)
        activeLeases := if st.activeLeases ≠ 0 then st.activeLeases - 1 else st.activeLeases
        leases := st.leases.erase e
        pending := st.pending ++ lastReferences st.entries [e] }

/-- `wl_extension_entry_destroy`: runs the destroy callback and frees the entry. -/
def entryDestroy (e : Nat) (st : State) : Option State :=
  match st.entries e with
  | none => none
  | some _ => some
      { st with
        entries := update st.entries e none
        pending := st.pending.erase e
        destroyed := st.destroyed ++ [e] }

/-- What a call does after it has released the lock. -/
def destroyPending (st : State) : Option State :=
  st.pending.foldlM (fun st e => entryDestroy e st) st

/-! ## Runs -/

/-- What the users of a registry do. -/
inductive Operation where
  | register (descriptor : Descriptor) (outOfMemory noGrowth : Bool)
  | unregister (name : Name)
  | snapshotAcquire (outOfMemory : Bool)
  | snapshotRetain (s : Nat)
  | snapshotRelease (s : Nat)
  | snapshotPin (s : Nat) (name : Name)
  | snapshotUnpin (s e : Nat)
  | leaseAcquire (s e : Nat)
  | leaseRelease (e : Nat)

def Operation.locked (st : State) : Operation → Option State
  | .register descriptor outOfMemory noGrowth =>
    (Extension.register descriptor outOfMemory noGrowth st).map Prod.snd
  | .unregister name => (Extension.unregister name st).map Prod.snd
  | .snapshotAcquire outOfMemory => Extension.snapshotAcquire outOfMemory st
  | .snapshotRetain s => Extension.snapshotRetain s st
  | .snapshotRelease s => Extension.snapshotRelease s st
  | .snapshotPin s name => Extension.snapshotPin s name st
  | .snapshotUnpin s e => Extension.snapshotUnpin s e st
  | .leaseAcquire s e => Extension.leaseAcquire s e st
  | .leaseRelease e => Extension.leaseRelease e st

/-- A whole call. -/
def Operation.apply (st : State) (operation : Operation) : Option State :=
  (operation.locked st).bind destroyPending

/-- Holders release what they acquired: snapshots are used while a reference to them is held, and a
lease is returned once. -/
def Operation.Held (st : State) : Operation → Prop
  | .register _ _ _ | .unregister _ | .snapshotAcquire _ => True
  | .snapshotRetain s | .snapshotRelease s | .snapshotPin s _ | .snapshotUnpin s _
  | .leaseAcquire s _ => (st.snapshots s).isSome
  | .leaseRelease e => e ∈ st.leases

/-- Runs of operations by holders. -/
inductive Steps : State → State → Prop
  | refl (st : State) : Steps st st
  | step {st st' st'' : State} (before : Steps st st') (operation : Operation)
      (held : operation.Held st') (done : operation.apply st' = some st'') : Steps st st''

end Wirelog.Extension

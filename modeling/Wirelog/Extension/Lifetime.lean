import Wirelog.Extension.Registry

/-!
# How long entries live

The references of an entry are counted: one for the registry, one for each snapshot that contains
it, one for each lease (`refCount`), and so are its pins (`pinCount`). `Inv` says that the counts
in the entries are these numbers, where an entry that is not there counts as zero. So nothing that
is referred to was freed, an entry is without references exactly while a call still has to destroy
it, and freed entries are the destroyed ones.

**Every operation of a holder has a result, keeps the invariant and leaves nothing to destroy**
(`Inv.step`). It also leaves their entries to the holders of snapshots (`Frame`): the entries that a
snapshot refers to keep their names and descriptors, so what it finds stays the same
(`snapshotFind_stable`).
-/

set_option autoImplicit false

namespace Wirelog.Extension

open Foundations List Function

/-! ## Counts -/

def Snapshot.refers (e : Nat) (snapshot : Snapshot) : Nat :=
  (snapshot.slots.map Slot.entry).count e

def Snapshot.pinned (e : Nat) (snapshot : Snapshot) : Nat :=
  ((snapshot.slots.filter (·.entry == e)).map Slot.pins).sum

/-- The references to an entry: of the registry, of the snapshots, and of the leases. -/
def refCount (st : State) (e : Nat) : Nat :=
  st.registry.count e + total (Snapshot.refers e) st.snapshots st.nextSnapshot + st.leases.count e

def pinCount (st : State) (e : Nat) : Nat :=
  total (Snapshot.pinned e) st.snapshots st.nextSnapshot

/-- The counts in the objects are right. -/
structure Inv (st : State) : Prop where
  freshEntries : ∀ e, st.nextEntry ≤ e → st.entries e = none
  freshSnapshots : ∀ s, st.nextSnapshot ≤ s → st.snapshots s = none
  counted : ∀ e, (st.entries e).elim 0 Entry.references = refCount st e
  pinned : ∀ e, (st.entries e).elim 0 Entry.pins = pinCount st e
  registered : ∀ e entry, st.entries e = some entry →
    (entry.registered = true ↔ e ∈ st.registry)
  distinct : st.registry.Nodup
  names : ∀ e ∈ st.registry, ∀ e' ∈ st.registry, ∀ entry entry', st.entries e = some entry →
    st.entries e' = some entry' → entry.name = entry'.name → e = e'
  slots : ∀ s snapshot, st.snapshots s = some snapshot →
    (snapshot.slots.map Slot.entry).Nodup ∧ 0 < snapshot.references
  pendingDistinct : st.pending.Nodup
  pending : ∀ e, e ∈ st.pending ↔ ∃ entry, st.entries e = some entry ∧ entry.references = 0
  destroyedDistinct : st.destroyed.Nodup
  destroyed : ∀ e, e ∈ st.destroyed ↔ e < st.nextEntry ∧ st.entries e = none
  activeSnapshots : st.activeSnapshots = total (fun _ => 1) st.snapshots st.nextSnapshot
  activeLeases : st.activeLeases = st.leases.length

theorem Inv.new : Inv .new where
  freshEntries _ _ := rfl
  freshSnapshots _ _ := rfl
  counted _ := rfl
  pinned _ := rfl
  registered _ _ := nofun
  distinct := .nil
  names _ := nofun
  slots _ _ := nofun
  pendingDistinct := .nil
  pending e := by simp [State.new]
  destroyedDistinct := .nil
  destroyed e := by simp [State.new]
  activeSnapshots := rfl
  activeLeases := rfl

section Facts

variable {st : State}

variable {e : Nat}

/-- What is referred to was not freed. -/
theorem Inv.alive (inv : Inv st) (referred : 0 < refCount st e) :
    ∃ entry, st.entries e = some entry ∧ entry.references = refCount st e := by
  have counted := inv.counted e
  cases here : st.entries e with
  | none =>
    rw [here] at counted
    exact absurd counted referred.ne
  | some entry =>
    rw [here] at counted
    exact ⟨entry, rfl, counted⟩

theorem Inv.references (inv : Inv st) {entry : Entry} (here : st.entries e = some entry) :
    entry.references = refCount st e := by
  have counted := inv.counted e
  rwa [here] at counted

theorem Inv.pins (inv : Inv st) {entry : Entry} (here : st.entries e = some entry) :
    entry.pins = pinCount st e := by
  have counted := inv.pinned e
  rwa [here] at counted

variable {snapshot : Snapshot}

theorem Inv.snapshot_lt (inv : Inv st) {s : Nat} (live : st.snapshots s = some snapshot) :
    s < st.nextSnapshot := by
  by_contra late
  rw [inv.freshSnapshots s (not_lt.mp late)] at live
  cases live

theorem Inv.entry_lt (inv : Inv st) {entry : Entry} (here : st.entries e = some entry) :
    e < st.nextEntry := by
  by_contra late
  rw [inv.freshEntries e (not_lt.mp late)] at here
  cases here

theorem refCount_pos_of_registered (member : e ∈ st.registry) : 0 < refCount st e := by
  have := count_pos_iff.mpr member
  unfold refCount
  omega

theorem refCount_pos_of_lease (member : e ∈ st.leases) : 0 < refCount st e := by
  have := count_pos_iff.mpr member
  unfold refCount
  omega

theorem Inv.refCount_pos_of_slot (inv : Inv st) {s e : Nat}
    (live : st.snapshots s = some snapshot) (member : e ∈ snapshot.slots.map Slot.entry) :
    0 < refCount st e := by
  have share := le_total (f := Snapshot.refers e) (inv.snapshot_lt live) live
  have : 0 < Snapshot.refers e snapshot := count_pos_iff.mpr member
  unfold refCount
  omega

theorem Inv.present (inv : Inv st) (referred : 0 < refCount st e) : (st.entries e).isSome := by
  obtain ⟨entry, here, -⟩ := inv.alive referred
  exact Option.isSome_iff_exists.mpr ⟨entry, here⟩

theorem Inv.registry_present (inv : Inv st) : ∀ e ∈ st.registry, (st.entries e).isSome :=
  fun _ member => inv.present (refCount_pos_of_registered member)

theorem Inv.slots_present (inv : Inv st) {s : Nat} (live : st.snapshots s = some snapshot) :
    ∀ e ∈ snapshot.slots.map Slot.entry, (st.entries e).isSome :=
  fun _ member => inv.present (inv.refCount_pos_of_slot live member)

/-- A lookup among entries that are there depends on their names only. -/
theorem findByName_eq {entries : Nat → Option Entry} {name : Name} {ids : List Nat}
    (present : ∀ e ∈ ids, (entries e).isSome) :
    findByName entries name ids =
      some (ids.find? fun e => (entries e).map Entry.name = some name) := by
  induction ids with
  | nil => rfl
  | cons first rest ih =>
    obtain ⟨entry, here⟩ := Option.isSome_iff_exists.mp (present first mem_cons_self)
    have later := ih fun e member => present e (mem_cons_of_mem _ member)
    by_cases same : entry.name = name
    · simp [findByName, here, same]
    · simp [findByName, here, same, later]

theorem findByName_cases {entries : Nat → Option Entry} (name : Name) {ids : List Nat}
    (present : ∀ e ∈ ids, (entries e).isSome) :
    (findByName entries name ids = some none ∧
        ∀ e ∈ ids, ∀ entry, entries e = some entry → entry.name ≠ name) ∨
      ∃ e ∈ ids, ∃ entry, findByName entries name ids = some (some e) ∧
        entries e = some entry ∧ entry.name = name := by
  rw [findByName_eq present]
  cases found : ids.find? fun e => (entries e).map Entry.name = some name with
  | none =>
    refine .inl ⟨rfl, ?_⟩
    intro e member entry here same
    have other := find?_eq_none.mp found e member
    simp [here, same] at other
  | some e =>
    have named : (entries e).map Entry.name = some name := by simpa using List.find?_some found
    obtain ⟨entry, here, same⟩ := Option.map_eq_some_iff.mp named
    exact .inr ⟨e, mem_of_find?_eq_some found, entry, rfl, here, same⟩

end Facts

/-! ## Operations on snapshots and leases -/

/-- What does not change in an entry that stays registered. -/
def Entry.fixed (entry : Entry) : Descriptor × Name × Bool :=
  (entry.descriptor, entry.name, entry.registered)

variable {e s : Nat} {snapshot : Snapshot} {st' : State} {entry : Entry} {slot : Slot}

/-- The data of an entry that no operation changes. -/
def Entry.view (entry : Entry) : Name × Descriptor := (entry.name, entry.descriptor)

/-- What an operation leaves to the holders of snapshots. -/
structure Frame (st st' : State) : Prop where
  later : st.nextSnapshot ≤ st'.nextSnapshot
  snapshots : ∀ s < st.nextSnapshot, st'.snapshots s = none ∨ ∃ snapshot snapshot',
    st.snapshots s = some snapshot ∧ st'.snapshots s = some snapshot' ∧
      snapshot'.slots.map Slot.entry = snapshot.slots.map Slot.entry
  entries : ∀ e, 0 < refCount st e → 0 < refCount st' e →
    (st'.entries e).map Entry.view = (st.entries e).map Entry.view

/-- A snapshot is gone, or has the entries that it had. -/
def KeptEntries (old new : Option Snapshot) : Prop :=
  new = none ∨ ∃ snapshot snapshot', old = some snapshot ∧ new = some snapshot' ∧
    snapshot'.slots.map Slot.entry = snapshot.slots.map Slot.entry

/-- A call has a result that is right again, and leaves their entries to the holders of
snapshots. -/
def Proceeds (st : State) (result : Option State) : Prop :=
  ∃ st', result = some st' ∧ Inv st' ∧ Frame st st'

/-- An entry and all that is counted for it are left as they are. -/
def Untouched (st st' : State) (e : Nat) : Prop :=
  st'.entries e = st.entries e ∧ refCount st' e = refCount st e ∧ pinCount st' e = pinCount st e ∧
    (e ∈ st'.pending ↔ e ∈ st.pending)

/-- An entry keeps its data, and its new counts are right. -/
def Recounted (st st' : State) (e : Nat) : Prop :=
  ∃ entry entry', st.entries e = some entry ∧ st'.entries e = some entry' ∧
    entry'.fixed = entry.fixed ∧ entry'.references = refCount st' e ∧
    entry'.pins = pinCount st' e ∧ (e ∈ st'.pending ↔ entry'.references = 0)

section Steps

variable {st : State}

theorem KeptEntries.refl (old : Option Snapshot) : KeptEntries old old := by
  cases old with
  | none => exact .inl rfl
  | some snapshot => exact .inr ⟨snapshot, snapshot, rfl, rfl, rfl⟩

/-- The snapshots are left as they are. -/
theorem Frame.of_entries (next : st'.nextSnapshot = st.nextSnapshot)
    (snapshots : st'.snapshots = st.snapshots)
    (entries : ∀ e, 0 < refCount st e →
      (st'.entries e).map Entry.view = (st.entries e).map Entry.view) : Frame st st' :=
  ⟨next.ge, fun s _ => snapshots ▸ KeptEntries.refl (st.snapshots s), fun e old _ => entries e old⟩

theorem Frame.refl : Frame st st := .of_entries rfl rfl fun _ _ => rfl

theorem Proceeds.stay (inv : Inv st) : Proceeds st (some st) := ⟨st, rfl, inv, .refl⟩

/-- What operations on snapshots and leases leave as it is, and what has to be shown of them. -/
theorem Inv.of_each (inv : Inv st) (nextEntry : st'.nextEntry = st.nextEntry)
    (registry : st'.registry = st.registry) (destroyed : st'.destroyed = st.destroyed)
    (later : st.nextSnapshot ≤ st'.nextSnapshot)
    (each : ∀ e, Untouched st st' e ∨ Recounted st st' e)
    (snapshots : ∀ s < st.nextSnapshot, KeptEntries (st.snapshots s) (st'.snapshots s))
    (freshSnapshots : ∀ s, st'.nextSnapshot ≤ s → st'.snapshots s = none)
    (slots : ∀ s snapshot, st'.snapshots s = some snapshot →
      (snapshot.slots.map Slot.entry).Nodup ∧ 0 < snapshot.references)
    (pendingDistinct : st'.pending.Nodup)
    (activeSnapshots : st'.activeSnapshots = total (fun _ => 1) st'.snapshots st'.nextSnapshot)
    (activeLeases : st'.activeLeases = st'.leases.length) : Inv st' ∧ Frame st st' := by
  have before : ∀ e, st'.entries e = none ∧ st.entries e = none ∨ ∃ entry entry',
      st.entries e = some entry ∧ st'.entries e = some entry' ∧ entry'.fixed = entry.fixed := by
    intro e
    rcases each e with ⟨same, -⟩ | ⟨entry, entry', here, here', same, -⟩
    · cases here : st.entries e with
      | none => exact .inl ⟨same.trans here, rfl⟩
      | some entry => exact .inr ⟨entry, entry, rfl, same.trans here, rfl⟩
    · exact .inr ⟨entry, entry', here, here', same⟩
  have back : ∀ e entry', st'.entries e = some entry' →
      ∃ entry, st.entries e = some entry ∧ entry'.fixed = entry.fixed := by
    intro e entry' there
    rcases before e with ⟨none, -⟩ | ⟨entry, other, here, there', same⟩
    · rw [none] at there
      cases there
    · obtain rfl := Option.some.inj (there.symm.trans there')
      exact ⟨entry, here, same⟩
  have none_iff : ∀ e, st'.entries e = none ↔ st.entries e = none := by
    intro e
    rcases before e with ⟨none', none⟩ | ⟨_, _, here, here', -⟩
    · simp [none, none']
    · simp [here, here']
  have frame : Frame st st' := by
    refine ⟨later, snapshots, ?_⟩
    intro e _ _
    rcases before e with ⟨none', none⟩ | ⟨_, _, here, here', same⟩
    · rw [none', none]
    rw [here, here', Option.map_some, Option.map_some]
    exact congrArg (fun fixed => some (fixed.2.1, fixed.1)) same
  refine ⟨?_, frame⟩
  exact
    { freshEntries := fun e late => (none_iff e).mpr (inv.freshEntries e (nextEntry ▸ late))
      freshSnapshots := freshSnapshots
      counted := by
        intro e
        rcases each e with ⟨same, refs, -⟩ | ⟨_, entry', -, here', -, refs, -⟩
        · rw [same, refs, inv.counted]
        · rw [here', Option.elim_some, refs]
      pinned := by
        intro e
        rcases each e with ⟨same, -, pins, -⟩ | ⟨_, entry', -, here', -, -, pins, -⟩
        · rw [same, pins, inv.pinned]
        · rw [here', Option.elim_some, pins]
      registered := by
        intro e entry' there
        obtain ⟨entry, here, same⟩ := back e entry' there
        have flag : entry'.registered = entry.registered := congrArg (·.2.2) same
        rw [flag, registry]
        exact inv.registered e entry here
      distinct := registry ▸ inv.distinct
      names := by
        intro a memberA b memberB left right hereA hereB same
        obtain ⟨oldA, thereA, fixedA⟩ := back a left hereA
        obtain ⟨oldB, thereB, fixedB⟩ := back b right hereB
        refine inv.names a (registry ▸ memberA) b (registry ▸ memberB) oldA oldB thereA thereB ?_
        have nameA : left.name = oldA.name := congrArg (·.2.1) fixedA
        have nameB : right.name = oldB.name := congrArg (·.2.1) fixedB
        rw [← nameA, ← nameB, same]
      slots := slots
      pendingDistinct := pendingDistinct
      pending := by
        intro e
        rcases each e with ⟨same, -, -, due⟩ | ⟨_, entry', -, here', -, -, -, due⟩
        · rw [due, same, inv.pending]
        · simp [due, here']
      destroyedDistinct := destroyed ▸ inv.destroyedDistinct
      destroyed := by
        intro e
        rw [destroyed, none_iff, nextEntry]
        exact inv.destroyed e
      activeSnapshots := activeSnapshots
      activeLeases := activeLeases }

/-- **Entries whose last reference is released are the ones to destroy.** -/
theorem Inv.pending_release (inv : Inv st) {entries : Nat → Option Entry} {ids : List Nat}
    (distinct : ids.Nodup) (referred : ∀ e ∈ ids, 0 < refCount st e)
    (same : ∀ e, (entries e).map Entry.references = (st.entries e).map Entry.references) :
    (st.pending ++ lastReferences entries ids).Nodup ∧
      (∀ e ∉ ids, e ∈ st.pending ++ lastReferences entries ids ↔ e ∈ st.pending) ∧
      ∀ e ∈ ids, e ∈ st.pending ++ lastReferences entries ids ↔ refCount st e - 1 = 0 := by
  have fresh : ∀ e ∈ ids, e ∉ st.pending := by
    intro e member due
    obtain ⟨entry, here, none⟩ := (inv.pending e).mp due
    have := referred e member
    have := inv.references here
    omega
  refine ⟨nodup_append.mpr ⟨inv.pendingDistinct, distinct.filter _, ?_⟩, ?_, ?_⟩
  · rintro e old _ new rfl
    exact fresh e (mem_of_mem_filter new) old
  · intro e outside
    have notLast : e ∉ lastReferences entries ids := fun last =>
      outside (mem_of_mem_filter last)
    rw [mem_append, or_iff_left notLast]
  · intro e member
    obtain ⟨entry, here, references⟩ := inv.alive (referred e member)
    have now := same e
    rw [here, Option.map_some] at now
    obtain ⟨entry', here', equal⟩ := Option.map_eq_some_iff.mp now
    have last : e ∈ lastReferences entries ids ↔ entry'.references = 1 := by
      simp [lastReferences, member, here']
    have := referred e member
    rw [mem_append, or_iff_right (fresh e member), last]
    omega

/-- A snapshot is replaced by one with the same entries and a positive count. -/
theorem Inv.replace_snapshot (inv : Inv st)
    (live : st.snapshots s = some snapshot) (snapshot' : Snapshot)
    (same : snapshot'.slots.map Slot.entry = snapshot.slots.map Slot.entry)
    (positive : 0 < snapshot'.references) :
    (∀ t, KeptEntries (st.snapshots t) (update st.snapshots s (some snapshot') t)) ∧
      (∀ t, st.nextSnapshot ≤ t → update st.snapshots s (some snapshot') t = none) ∧
      (∀ t other, update st.snapshots s (some snapshot') t = some other →
        (other.slots.map Slot.entry).Nodup ∧ 0 < other.references) ∧
      total (fun _ => 1) (update st.snapshots s (some snapshot')) st.nextSnapshot =
        total (fun _ => 1) st.snapshots st.nextSnapshot := by
  have inside := inv.snapshot_lt live
  refine ⟨?_, ?_, ?_, total_same inside live rfl⟩
  · intro t
    by_cases here : t = s
    · subst here
      exact .inr ⟨snapshot, snapshot', live, update_self .., same⟩
    · rw [update_of_ne here]
      exact .refl _
  · intro t late
    rw [update_of_ne (by omega)]
    exact inv.freshSnapshots t late
  · intro t other there
    rw [update_apply] at there
    split_ifs at there with here
    · cases there
      exact ⟨same ▸ (inv.slots s snapshot live).1, positive⟩
    · exact inv.slots t other there

/-- Only the count of a snapshot changes. -/
theorem Inv.setReferences (inv : Inv st)
    (live : st.snapshots s = some snapshot) {references : Nat} (positive : 0 < references) :
    Proceeds st (some { st with
      snapshots := update st.snapshots s (some { snapshot with references := references }) }) := by
  have inside := inv.snapshot_lt live
  obtain ⟨kept, fresh, slots, active⟩ := inv.replace_snapshot live
    { snapshot with references := references } rfl positive
  refine ⟨_, rfl, inv.of_each rfl rfl rfl le_rfl ?_ (fun t _ => kept t) fresh slots
    inv.pendingDistinct (inv.activeSnapshots.trans active.symm) inv.activeLeases⟩
  intro e
  refine .inl ⟨rfl, ?_, total_same inside live rfl, Iff.rfl⟩
  exact congrArg (st.registry.count e + · + st.leases.count e) (total_same inside live rfl)

/-! ### Pins -/

theorem repin_entries (e : Nat) (change : Nat → Nat) (snapshot : Snapshot) :
    (snapshot.repin e change).slots.map Slot.entry = snapshot.slots.map Slot.entry := by
  unfold Snapshot.repin
  rw [map_map]
  refine map_congr_left ?_
  intro slot _
  simp only [comp_apply]
  split_ifs <;> rfl

theorem filter_slot {slots : List Slot} (distinct : (slots.map Slot.entry).Nodup)
    (member : slot ∈ slots) : slots.filter (·.entry == slot.entry) = [slot] := by
  induction slots with
  | nil => cases member
  | cons first rest ih =>
    obtain ⟨fresh, distinct⟩ := nodup_cons.mp distinct
    rcases mem_cons.mp member with rfl | later
    · have others : rest.filter (·.entry == slot.entry) = [] := by
        refine filter_eq_nil_iff.mpr ?_
        intro other inRest same
        exact fresh (beq_iff_eq.mp same ▸ mem_map_of_mem inRest)
      rw [filter_cons_of_pos (by simp), others]
    · have apart : ¬ (first.entry == slot.entry) = true := by
        intro same
        exact fresh (beq_iff_eq.mp same ▸ mem_map_of_mem later)
      rw [filter_cons, if_neg apart]
      exact ih distinct later

theorem pinned_of_slot (snapshot : Snapshot) (distinct : (snapshot.slots.map Slot.entry).Nodup)
    (member : slot ∈ snapshot.slots) :
    Snapshot.pinned slot.entry snapshot = slot.pins := by
  rw [Snapshot.pinned, filter_slot distinct member]
  rfl

theorem pinned_of_not_mem
    (absent : e ∉ snapshot.slots.map Slot.entry) : Snapshot.pinned e snapshot = 0 := by
  have none : snapshot.slots.filter (·.entry == e) = [] := by
    refine filter_eq_nil_iff.mpr ?_
    intro slot member same
    exact absent (beq_iff_eq.mp same ▸ mem_map_of_mem member)
  rw [Snapshot.pinned, none]
  rfl

/-- Changing the pins of an entry changes its own pins only. -/
theorem pinned_repin (distinct : (snapshot.slots.map Slot.entry).Nodup)
    (member : slot ∈ snapshot.slots) (change : Nat → Nat) (e : Nat) :
    Snapshot.pinned e (snapshot.repin slot.entry change) =
      if e = slot.entry then change slot.pins else Snapshot.pinned e snapshot := by
  have distinct' : ((snapshot.repin slot.entry change).slots.map Slot.entry).Nodup := by
    rwa [repin_entries]
  split_ifs with here
  · subst here
    have member' : { slot with pins := change slot.pins } ∈
        (snapshot.repin slot.entry change).slots :=
      mem_map.mpr ⟨slot, member, by rw [if_pos rfl]⟩
    exact pinned_of_slot (snapshot.repin slot.entry change) distinct' member'
  · by_cases present : e ∈ snapshot.slots.map Slot.entry
    · obtain ⟨other, inSlots, rfl⟩ := mem_map.mp present
      have member' : other ∈ (snapshot.repin slot.entry change).slots :=
        mem_map.mpr ⟨other, inSlots, by rw [if_neg here]⟩
      rw [pinned_of_slot snapshot distinct inSlots]
      exact pinned_of_slot (snapshot.repin slot.entry change) distinct' member'
    · rw [pinned_of_not_mem present]
      refine pinned_of_not_mem ?_
      rwa [repin_entries]

section

variable (inv : Inv st)

include inv

/-- **Pinning, and taking a pin back.** -/
theorem Inv.setPins (live : st.snapshots s = some snapshot) (member : slot ∈ snapshot.slots)
    {change : Nat → Nat}
    (additive : ∀ others, change (slot.pins + others) = change slot.pins + others) :
    Proceeds st (setPins s slot.entry change snapshot st) := by
  have inside := inv.snapshot_lt live
  obtain ⟨distinct, references⟩ := inv.slots s snapshot live
  obtain ⟨entry, here, -⟩ :=
    inv.alive (inv.refCount_pos_of_slot live (mem_map_of_mem member))
  obtain ⟨kept, fresh, slots, active⟩ := inv.replace_snapshot live
    (snapshot.repin slot.entry change) (repin_entries ..) references
  refine ⟨_, by rw [Extension.setPins, here], ?_⟩
  refine inv.of_each rfl rfl rfl le_rfl ?_ (fun t _ => kept t) fresh slots inv.pendingDistinct
    (inv.activeSnapshots.trans active.symm) inv.activeLeases
  intro e
  have sameRefs : total (Snapshot.refers e) (update st.snapshots s
      (some (snapshot.repin slot.entry change))) st.nextSnapshot =
        total (Snapshot.refers e) st.snapshots st.nextSnapshot :=
    total_same inside live (by simp [Snapshot.refers, repin_entries])
  have changed := total_change (f := Snapshot.pinned e)
    (b := snapshot.repin slot.entry change) inside live
  rw [pinned_repin distinct member] at changed
  by_cases equal : e = slot.entry
  · subst equal
    refine .inr ⟨entry, _, here, update_self .., rfl, ?_, ?_, ?_⟩
    · simp only [refCount, sameRefs]
      exact inv.references here
    · have share := le_total (f := Snapshot.pinned slot.entry) inside live
      rw [pinned_of_slot snapshot distinct member] at share changed
      rw [if_pos rfl] at changed
      have pins := inv.pins here
      have split := additive (entry.pins - slot.pins)
      simp only [pinCount] at pins ⊢
      rw [show slot.pins + (entry.pins - slot.pins) = entry.pins by omega] at split
      omega
    · simp [inv.pending, here]
  · rw [if_neg equal] at changed
    refine .inl ⟨update_of_ne equal .., ?_, by simp only [pinCount]; omega, Iff.rfl⟩
    simp [refCount, sameRefs]

/-! ### Snapshots -/

/-- **A new snapshot refers to every registered entry.** -/
theorem Inv.snapshotAcquire (outOfMemory : Bool) :
    Proceeds st (snapshotAcquire outOfMemory st) := by
  unfold Extension.snapshotAcquire
  split_ifs
  · exact .stay inv
  obtain ⟨entries, done, changed, kept⟩ := @modifyEach_spec _ _ id (fun _ => Entry.retain) _ _
    (by simpa using inv.distinct) inv.registry_present
  rw [map_id] at kept
  have slotEntries : (st.registry.map fun e => (⟨e, 0⟩ : Slot)).map Slot.entry = st.registry := by
    simp [comp_def]
  refine ⟨_, by rw [done], ?_⟩
  refine inv.of_each rfl rfl rfl (Nat.le_succ _) ?_ ?_ ?_ ?_ inv.pendingDistinct ?_ inv.activeLeases
  · intro e
    have unpinned : Snapshot.pinned e ⟨1, st.registry.map fun e => ⟨e, 0⟩⟩ = 0 := by
      simp [Snapshot.pinned, filter_map, comp_def]
    by_cases member : e ∈ st.registry
    · have one := count_eq_one_of_mem inv.distinct member
      have positive := refCount_pos_of_registered member
      obtain ⟨entry, here, references⟩ := inv.alive positive
      have after : entries e = some entry.retain := by
        simpa [id, here] using changed e member
      refine .inr ⟨entry, entry.retain, here, after, rfl, ?_, ?_, ?_⟩
      · simp only [refCount, total_allocate, Snapshot.refers, slotEntries] at references ⊢
        change entry.references + 1 = _
        omega
      · simp only [pinCount, total_allocate, unpinned]
        exact (inv.pins here : entry.pins = _)
      · simp only [inv.pending, here, Entry.retain, Option.some.injEq, exists_eq_left']
        omega
    · have zero := count_eq_zero_of_not_mem member
      refine .inl ⟨kept e member, ?_, ?_, Iff.rfl⟩
      · simp only [refCount, total_allocate, Snapshot.refers, slotEntries]
        omega
      · simp [pinCount, total_allocate, unpinned]
  · intro s old
    dsimp only
    rw [update_of_ne old.ne]
    exact .refl _
  · intro s late
    dsimp only at late ⊢
    rw [update_of_ne (by omega)]
    exact inv.freshSnapshots s (by omega)
  · intro s snapshot there
    dsimp only at there
    rw [update_apply] at there
    split_ifs at there
    · rw [← Option.some.inj there]
      exact ⟨by rw [slotEntries]; exact inv.distinct, Nat.one_pos⟩
    · exact inv.slots s snapshot there
  · dsimp only
    rw [total_allocate, ← inv.activeSnapshots]

/-- **When a snapshot is freed its pins and its references are taken back.** -/
theorem Inv.snapshotFree (live : st.snapshots s = some snapshot) :
    Proceeds st (snapshotFree s snapshot st) := by
  have inside := inv.snapshot_lt live
  obtain ⟨distinct, -⟩ := inv.slots s snapshot live
  have referred : ∀ e ∈ snapshot.slots.map Slot.entry, 0 < refCount st e :=
    fun e member => inv.refCount_pos_of_slot live member
  have slotsPresent : ∀ slot ∈ snapshot.slots, (st.entries slot.entry).isSome :=
    fun slot member => inv.slots_present live slot.entry (mem_map_of_mem member)
  obtain ⟨unpinned, unpin, pinsTaken, unpinKept⟩ := modifyEach_spec
    (fun (slot : Slot) (entry : Entry) => { entry with pins := entry.pins - slot.pins })
    distinct slotsPresent
  have sameReferences := modifyEach_map _ Entry.references (fun _ _ => by rfl) unpin
  have stillPresent : ∀ e ∈ snapshot.slots.map Slot.entry, (unpinned (id e)).isSome := by
    intro e member
    rw [id, ← Option.isSome_map (f := Entry.references), sameReferences, Option.isSome_map]
    exact inv.slots_present live e member
  obtain ⟨released, release, refsTaken, releaseKept⟩ := modifyEach_spec
    (fun (_ : Nat) => Entry.release) (by simpa using distinct) stillPresent
  rw [map_id] at releaseKept
  obtain ⟨pendingDistinct, notDue, due⟩ := inv.pending_release distinct referred sameReferences
  refine ⟨_, by rw [Extension.snapshotFree, unpin]; simp only [release]; rfl, ?_⟩
  refine inv.of_each rfl rfl rfl le_rfl ?_ ?_ ?_ ?_ pendingDistinct ?_ inv.activeLeases
  · intro e
    have refsFreed := total_free (f := Snapshot.refers e) inside live
    have pinsFreed := total_free (f := Snapshot.pinned e) inside live
    by_cases member : e ∈ snapshot.slots.map Slot.entry
    · have one : Snapshot.refers e snapshot = 1 := count_eq_one_of_mem distinct member
      obtain ⟨entry, here, references⟩ := inv.alive (referred e member)
      have pins := inv.pins here
      have dueHere := due e member
      have refsTaken := refsTaken e member
      obtain ⟨slot, inSlots, rfl⟩ := mem_map.mp member
      rw [pinned_of_slot snapshot distinct inSlots] at pinsFreed
      have after : released slot.entry = some { entry with
          pins := entry.pins - slot.pins, references := entry.references - 1 } := by
        simpa [id, pinsTaken slot inSlots, here, Entry.release] using refsTaken
      refine .inr ⟨entry, _, here, after, rfl, ?_, ?_, by rw [dueHere, references]⟩
      · simp only [refCount] at references ⊢
        omega
      · simp only [pinCount] at pins ⊢
        omega
    · have zero : Snapshot.refers e snapshot = 0 := count_eq_zero_of_not_mem member
      rw [pinned_of_not_mem member] at pinsFreed
      refine .inl ⟨(releaseKept e member).trans (unpinKept e member), ?_, ?_, notDue e member⟩
      · simp only [refCount]
        omega
      · simp only [pinCount]
        omega
  · intro t _
    dsimp only
    by_cases here : t = s
    · exact .inl (here ▸ update_self ..)
    rw [update_of_ne here]
    exact .refl _
  · intro s' late
    change update st.snapshots s none s' = none
    rw [update_apply]
    split_ifs
    · rfl
    · exact inv.freshSnapshots s' late
  · intro s' other there
    change update st.snapshots s none s' = _ at there
    rw [update_apply] at there
    split_ifs at there
    exact inv.slots s' other there
  · have freed := total_free (f := fun _ : Snapshot => 1) inside live
    change st.activeSnapshots - 1 = _
    rw [inv.activeSnapshots]
    simp only
    omega

/-! ### Leases -/

/-- **A lease is one more reference.** -/
theorem Inv.leaseAcquire (held : (st.snapshots s).isSome) :
    Proceeds st (leaseAcquire s e st) := by
  obtain ⟨snapshot, live⟩ := Option.isSome_iff_exists.mp held
  unfold Extension.leaseAcquire
  simp only [live]
  split_ifs with member
  · have positive := inv.refCount_pos_of_slot live member
    obtain ⟨entry, here, references⟩ := inv.alive positive
    refine ⟨_, by rw [here], ?_⟩
    refine inv.of_each rfl rfl rfl le_rfl ?_ (fun _ _ => .refl _) inv.freshSnapshots inv.slots
      inv.pendingDistinct inv.activeSnapshots (by simp [inv.activeLeases])
    intro e'
    by_cases same : e' = e
    · subst same
      refine .inr ⟨entry, entry.retain, here, update_self .., rfl, ?_,
        (inv.pins here : entry.pins = _), ?_⟩
      · simp only [refCount, count_append, count_singleton_self, Entry.retain] at references ⊢
        omega
      · simp only [inv.pending, here, Entry.retain, Option.some.injEq, exists_eq_left']
        omega
    · refine .inl ⟨update_of_ne same .., ?_, rfl, Iff.rfl⟩
      simp [refCount, Ne.symm same]
  · exact .stay inv

/-- **Returning a lease releases its reference.** -/
theorem Inv.leaseRelease (held : e ∈ st.leases) : Proceeds st (leaseRelease e st) := by
  have positive := refCount_pos_of_lease held
  obtain ⟨entry, here, references⟩ := inv.alive positive
  have some : 0 < st.leases.length := length_pos_of_mem held
  have open_ : 0 < st.leases.count e := count_pos_iff.mpr held
  obtain ⟨pendingDistinct, notDue, due⟩ := inv.pending_release (nodup_singleton e)
    (by simpa using positive) (fun _ => rfl)
  refine ⟨_, by rw [Extension.leaseRelease, here], ?_⟩
  refine inv.of_each rfl rfl rfl le_rfl ?_ (fun _ _ => .refl _) inv.freshSnapshots inv.slots
    pendingDistinct inv.activeSnapshots ?_
  · intro e'
    by_cases same : e' = e
    · subst same
      refine .inr ⟨entry, entry.release, here, update_self .., rfl, ?_,
        (inv.pins here : entry.pins = _), ?_⟩
      · simp only [refCount, count_erase_self, Entry.release] at references ⊢
        omega
      · rw [due e' (mem_singleton_self e'), ← references, Entry.release]
    · refine .inl ⟨update_of_ne same .., ?_, rfl, notDue e' (by simpa using same)⟩
      simp [refCount, count_erase_of_ne same]
  · simp only [length_erase_of_mem held, inv.activeLeases]
    rw [if_pos (by omega)]

/-! ## Operations on the registry -/

theorem Inv.fresh_entry : st.entries st.nextEntry = none ∧
    refCount st st.nextEntry = 0 ∧ pinCount st st.nextEntry = 0 := by
  have none := inv.freshEntries _ le_rfl
  have counted := inv.counted st.nextEntry
  have pinned := inv.pinned st.nextEntry
  rw [none] at counted pinned
  exact ⟨none, counted.symm, pinned.symm⟩

/-- What calls on the registry leave as it is, and what has to be shown of the entry that they
write. -/
theorem Inv.of_entry {new : Option Entry} (entries : st'.entries = update st.entries e new)
    (snapshots : st'.snapshots = st.snapshots) (nextSnapshot : st'.nextSnapshot = st.nextSnapshot)
    (activeSnapshots : st'.activeSnapshots = st.activeSnapshots)
    (leases : st'.leases = st.leases) (activeLeases : st'.activeLeases = st.activeLeases)
    (early : e < st'.nextEntry)
    (others : ∀ e' ≠ e, (e' < st'.nextEntry ↔ e' < st.nextEntry) ∧
      st'.registry.count e' = st.registry.count e' ∧ (e' ∈ st'.pending ↔ e' ∈ st.pending) ∧
      (e' ∈ st'.destroyed ↔ e' ∈ st.destroyed))
    (distinct : st'.registry.Nodup ∧ st'.pending.Nodup ∧ st'.destroyed.Nodup)
    (counted : new.elim 0 Entry.references = refCount st' e)
    (pinned : new.elim 0 Entry.pins = pinCount st e)
    (registered : ∀ entry, new = some entry → (entry.registered = true ↔ e ∈ st'.registry))
    (unused : e ∈ st'.registry → ∀ entry, new = some entry → ∀ e' ∈ st.registry, ∀ other,
      st.entries e' = some other → other.name ≠ entry.name)
    (pending : e ∈ st'.pending ↔ ∃ entry, new = some entry ∧ entry.references = 0)
    (destroyed : e ∈ st'.destroyed ↔ new = none) : Inv st' := by
  have here : st'.entries e = new := by rw [entries, update_self]
  have kept (e' : Nat) (other : e' ≠ e) : st'.entries e' = st.entries e' := by
    rw [entries, update_of_ne other]
  have member (e' : Nat) (other : e' ≠ e) : e' ∈ st'.registry ↔ e' ∈ st.registry := by
    rw [← count_pos_iff, (others e' other).2.1, count_pos_iff]
  have each {P : Nat → Prop} (own : P e) (rest : ∀ e' ≠ e, P e') (e' : Nat) : P e' := by
    by_cases same : e' = e
    · exact same ▸ own
    · exact rest e' same
  exact
    { freshEntries := each (fun late => absurd early late.not_gt) fun e' other late => by
        rw [kept e' other]
        exact inv.freshEntries e' (not_lt.mp fun old => late.not_gt ((others e' other).1.mpr old))
      freshSnapshots := by
        rw [snapshots, nextSnapshot]
        exact inv.freshSnapshots
      counted := each (by rw [here, counted]) fun e' other => by
        rw [kept e' other, inv.counted, refCount, refCount, (others e' other).2.1, snapshots,
          nextSnapshot, leases]
      pinned := by
        have same : pinCount st' = pinCount st := by
          funext e'
          rw [pinCount, snapshots, nextSnapshot, pinCount]
        rw [same]
        exact each (by rw [here, pinned]) fun e' other => by rw [kept e' other, inv.pinned]
      registered := each (fun entry there => registered entry (here ▸ there))
        fun e' other entry there => by
          rw [member e' other]
          exact inv.registered e' entry (kept e' other ▸ there)
      distinct := distinct.1
      names := by
        intro a memberA b memberB left right hereA hereB same
        by_cases atA : a = e <;> by_cases atB : b = e
        · rw [atA, atB]
        · subst atA
          rw [member b atB] at memberB
          rw [kept b atB] at hereB
          exact absurd same.symm (unused memberA left (here ▸ hereA) b memberB right hereB)
        · subst atB
          rw [member a atA] at memberA
          rw [kept a atA] at hereA
          exact absurd same (unused memberB right (here ▸ hereB) a memberA left hereA)
        · rw [member _ ‹_›] at memberA memberB
          rw [kept _ ‹_›] at hereA hereB
          exact inv.names a memberA b memberB left right hereA hereB same
      slots := by
        rw [snapshots]
        exact inv.slots
      pendingDistinct := distinct.2.1
      pending := each (by rw [here, pending]) fun e' other => by
        rw [kept e' other, (others e' other).2.2.1, inv.pending]
      destroyedDistinct := distinct.2.2
      destroyed := each (by simp [here, destroyed, early]) fun e' other => by
        rw [kept e' other, (others e' other).2.2.2, (others e' other).1, inv.destroyed]
      activeSnapshots := by rw [activeSnapshots, snapshots, nextSnapshot, inv.activeSnapshots]
      activeLeases := by rw [activeLeases, leases, inv.activeLeases] }

/-- A new entry under a name that no registered entry has. -/
theorem Inv.addEntry {descriptor : Descriptor} {name : Name} {capacity : Nat}
    (unused : ∀ e ∈ st.registry, ∀ entry, st.entries e = some entry → entry.name ≠ name) :
    Inv { st with
      entries := update st.entries st.nextEntry (some ⟨descriptor, name, 1, 0, true⟩)
      nextEntry := st.nextEntry + 1
      registry := st.registry ++ [st.nextEntry]
      capacity := capacity } := by
  obtain ⟨none, refs, pins⟩ := inv.fresh_entry
  have unregistered : st.nextEntry ∉ st.registry := by
    intro member
    have := refCount_pos_of_registered member
    omega
  refine inv.of_entry rfl rfl rfl rfl rfl rfl (Nat.lt_succ_self _) ?_
    ⟨?_, inv.pendingDistinct, inv.destroyedDistinct⟩ ?_ pins.symm ?_ ?_ ?_ ?_
  · intro e' other
    refine ⟨?_, ?_, Iff.rfl, Iff.rfl⟩
    · change e' < st.nextEntry + 1 ↔ _
      omega
    · simp [Ne.symm other]
  · refine nodup_append.mpr ⟨inv.distinct, nodup_singleton _, ?_⟩
    rintro e member _ last rfl
    exact unregistered (mem_singleton.mp last ▸ member)
  · simp only [refCount, count_append, count_singleton_self, Option.elim_some] at refs ⊢
    omega
  · rintro _ ⟨⟩
    simp
  · rintro - _ ⟨⟩
    exact unused
  · simp [inv.pending, none]
  · simp [inv.destroyed]

theorem Inv.register (descriptor : Descriptor) (outOfMemory noGrowth : Bool) :
    Proceeds st ((register descriptor outOfMemory noGrowth st).map Prod.snd) := by
  unfold Extension.register
  cases checkDescriptor descriptor outOfMemory with
  | error message => exact .stay inv
  | ok name =>
    rcases findByName_cases name inv.registry_present with
      ⟨absent, unused⟩ | ⟨e, -, entry, found, -⟩
    · have frame (e : Nat) (referred : 0 < refCount st e) (new : Entry) :
          (update st.entries st.nextEntry (some new) e).map Entry.view =
            (st.entries e).map Entry.view := by
        rw [update_of_ne]
        rintro rfl
        exact absurd inv.fresh_entry.2.1 referred.ne'
      simp only [absent]
      split_ifs
      · exact .stay inv
      all_goals exact ⟨_, rfl, inv.addEntry unused,
        .of_entries rfl rfl fun e referred => frame e referred _⟩
    · simp only [found]
      exact .stay inv

/-- An entry that nobody pins is taken out of the registry. -/
theorem Inv.removeEntry (member : e ∈ st.registry) (here : st.entries e = some entry) :
    Inv { st with
      entries := update st.entries e (some { entry.release with registered := false })
      registry := st.registry.erase e
      pending := st.pending ++ lastReferences st.entries [e] } := by
  have positive := refCount_pos_of_registered member
  have references := inv.references here
  have registered : 0 < st.registry.count e := count_pos_iff.mpr member
  obtain ⟨pendingDistinct, notDue, due⟩ := inv.pending_release (nodup_singleton e)
    (by simpa using positive) (fun _ => rfl)
  refine inv.of_entry rfl rfl rfl rfl rfl rfl (inv.entry_lt here) ?_
    ⟨inv.distinct.erase e, pendingDistinct, inv.destroyedDistinct⟩ ?_
    (inv.pins here : entry.pins = _) ?_ ?_ ?_ ?_
  · intro e' other
    exact ⟨Iff.rfl, count_erase_of_ne other, notDue e' (by simpa using other), Iff.rfl⟩
  · simp only [refCount, count_erase_self, Option.elim_some, Entry.release] at references ⊢
    omega
  · rintro _ ⟨⟩
    simpa using inv.distinct.not_mem_erase
  · intro member
    exact absurd member inv.distinct.not_mem_erase
  · rw [due e (mem_singleton_self e), ← references]
    simp [Entry.release]
  · simp [inv.destroyed, here]

theorem Inv.unregister (name : Name) : Proceeds st ((unregister name st).map Prod.snd) := by
  unfold Extension.unregister
  cases nameCopy name with
  | none => exact .stay inv
  | some normalized =>
    rcases findByName_cases normalized inv.registry_present with
      ⟨absent, -⟩ | ⟨e, member, entry, found, here, -⟩
    · simp only [absent]
      exact .stay inv
    simp only [found, here]
    split_ifs
    · exact .stay inv
    refine ⟨_, rfl, inv.removeEntry member here, .of_entries rfl rfl fun e' _ => ?_⟩
    dsimp only
    by_cases same : e' = e
    · rw [same, update_self, here]
      rfl
    · rw [update_of_ne same]

theorem Inv.pinCount_eq_zero (refs : refCount st e = 0) : pinCount st e = 0 := by
  refine total_eq_zero ?_
  intro s snapshot live
  refine pinned_of_not_mem ?_
  intro member
  have := inv.refCount_pos_of_slot live member
  omega

/-- **An entry that nobody refers to is destroyed, once.** -/
theorem Inv.entryDestroy (due : e ∈ st.pending) :
    ∃ st', entryDestroy e st = some st' ∧ Inv st' ∧ st'.pending = st.pending.erase e ∧
      st'.snapshots = st.snapshots ∧ st'.nextSnapshot = st.nextSnapshot ∧
      ∀ e', 0 < refCount st' e' → st'.entries e' = st.entries e' := by
  obtain ⟨entry, here, zero⟩ := (inv.pending e).mp due
  have refs : refCount st e = 0 := (inv.references here).symm.trans zero
  have unregistered : e ∉ st.registry := by
    intro member
    have := refCount_pos_of_registered member
    omega
  refine ⟨_, by rw [Extension.entryDestroy, here], ?_⟩
  refine ⟨?_, rfl, rfl, rfl, ?_⟩
  · refine inv.of_entry rfl rfl rfl rfl rfl rfl (inv.entry_lt here) ?_
      ⟨inv.distinct, inv.pendingDistinct.erase e, ?_⟩ refs.symm (inv.pinCount_eq_zero refs).symm
      (fun _ => nofun) (fun member => absurd member unregistered) ?_ ?_
    · intro e' other
      refine ⟨Iff.rfl, rfl, mem_erase_of_ne other, ?_⟩
      simp [other]
    · refine nodup_append.mpr ⟨inv.destroyedDistinct, nodup_singleton _, ?_⟩
      rintro a old _ last rfl
      rw [mem_singleton.mp last, inv.destroyed, here] at old
      exact absurd old.2 (by simp)
    · simp [inv.pendingDistinct.mem_erase_iff]
    · simp
  · rintro e' referred
    refine update_of_ne ?_ ..
    rintro rfl
    exact absurd refs referred.ne'

/-- **A call destroys all that it left without references.** -/
theorem Inv.destroyPending :
    ∃ st', destroyPending st = some st' ∧ Inv st' ∧ st'.pending = [] ∧
      st'.snapshots = st.snapshots ∧ st'.nextSnapshot = st.nextSnapshot ∧
      ∀ e, 0 < refCount st' e → st'.entries e = st.entries e := by
  unfold Extension.destroyPending
  generalize due : st.pending = ids
  induction ids generalizing st with
  | nil => exact ⟨st, rfl, inv, due, rfl, rfl, fun _ _ => rfl⟩
  | cons e rest ih =>
    obtain ⟨next, destroyed, inv', left, snapshots, nextSnapshot, entries⟩ :=
      inv.entryDestroy (due ▸ mem_cons_self)
    rw [due, erase_cons_head] at left
    obtain ⟨last, done, inv'', none, snapshots', nextSnapshot', entries'⟩ := ih inv' left
    refine ⟨last, by rw [foldlM_cons, destroyed]; exact done, inv'', none,
      snapshots'.trans snapshots, nextSnapshot'.trans nextSnapshot, ?_⟩
    intro e' referred
    have same := entries' e' referred
    refine same.trans (entries e' ?_)
    -- the entry is still there, and the invariant says how often it is referred to
    obtain ⟨entry, here, counted⟩ := inv''.alive referred
    rwa [← inv'.references (same ▸ here), counted]

/-- **What an operation of a holder does under the lock has a result, keeps the invariant, and
leaves their entries to the holders of snapshots.** -/
theorem Inv.locked (operation : Operation) (held : operation.Held st) :
    Proceeds st (operation.locked st) := by
  cases operation with
  | register descriptor outOfMemory noGrowth => exact inv.register descriptor outOfMemory noGrowth
  | unregister name => exact inv.unregister name
  | snapshotAcquire outOfMemory => exact inv.snapshotAcquire outOfMemory
  | snapshotRetain s =>
    obtain ⟨snapshot, live⟩ := Option.isSome_iff_exists.mp held
    simp only [Operation.locked, snapshotRetain, live]
    exact inv.setReferences live (Nat.succ_pos _)
  | snapshotRelease s =>
    obtain ⟨snapshot, live⟩ := Option.isSome_iff_exists.mp held
    have some := (inv.slots s snapshot live).2
    simp only [Operation.locked, snapshotRelease, live]
    rw [if_neg some.ne']
    split_ifs with last
    · exact inv.snapshotFree live
    · exact inv.setReferences live (by omega)
  | snapshotPin s name =>
    obtain ⟨snapshot, live⟩ := Option.isSome_iff_exists.mp held
    simp only [Operation.locked, snapshotPin, snapshotFind, live]
    cases nameCopy name with
    | none => exact .stay inv
    | some normalized =>
      rcases findByName_cases normalized (inv.slots_present live) with
        ⟨absent, -⟩ | ⟨e, member, entry, found, here, -⟩
      · simp only [absent]
        exact .stay inv
      obtain ⟨slot, inSlots, rfl⟩ := mem_map.mp member
      simp only [found, here, Option.map_some]
      exact inv.setPins live inSlots fun others => by omega
  | snapshotUnpin s e =>
    obtain ⟨snapshot, live⟩ := Option.isSome_iff_exists.mp held
    simp only [Operation.locked, snapshotUnpin, live]
    cases found : snapshot.slots.find? (·.entry == e) with
    | none => exact .stay inv
    | some slot =>
      have same : slot.entry = e := by simpa using List.find?_some found
      subst same
      simp only
      split_ifs with zero
      · exact .stay inv
      · exact inv.setPins live (mem_of_find?_eq_some found) fun others => by omega
  | leaseAcquire s e => exact inv.leaseAcquire held
  | leaseRelease e => exact inv.leaseRelease held

/-- **Every operation of a holder has a result, keeps the invariant, leaves nothing to destroy, and
leaves their entries to the holders of snapshots.** -/
theorem Inv.step (operation : Operation) (held : operation.Held st) :
    ∃ st', operation.apply st = some st' ∧ Inv st' ∧ st'.pending = [] ∧ Frame st st' := by
  obtain ⟨unlocked, ran, inv', frame⟩ := inv.locked operation held
  obtain ⟨last, done, inv'', none, snapshots, nextSnapshot, entries⟩ := inv'.destroyPending
  refine ⟨last, by rw [Operation.apply, ran]; exact done, inv'', none, ?_⟩
  refine ⟨nextSnapshot ▸ frame.later, snapshots ▸ frame.snapshots, ?_⟩
  intro e old referred
  have same := entries e referred
  obtain ⟨entry, here, counted⟩ := inv''.alive referred
  rw [same]
  refine frame.entries e old ?_
  rwa [← inv'.references (same ▸ here), counted]

end

end Steps

theorem Inv.done {st : State} (inv : Inv st) {operation : Operation} (held : operation.Held st)
    (done : operation.apply st = some st') : Inv st' ∧ st'.pending = [] ∧ Frame st st' := by
  obtain ⟨next, same, kept⟩ := inv.step operation held
  cases done.symm.trans same
  exact kept

theorem Inv.steps {st : State} (inv : Inv st) (steps : Steps st st') : Inv st' := by
  induction steps with
  | refl => exact inv
  | step _ operation held done ih => exact (ih.done held done).1

/-- Between calls nothing is left to destroy. -/
theorem pending_eq_nil {st : State} (reached : Steps .new st) : st.pending = [] := by
  cases reached with
  | refl => rfl
  | step before operation held done => exact ((Inv.new.steps before).done held done).2.1

/-! ## What a snapshot finds -/

section

variable {st : State} (inv : Inv st)

include inv

/-- **The entries of a snapshot, and their names and descriptors, stay as they were while the
snapshot lives.** -/
theorem Inv.stable (steps : Steps st st') (live : st.snapshots s = some snapshot) :
    s < st'.nextSnapshot ∧ (st'.snapshots s = none ∨ ∃ snapshot',
      st'.snapshots s = some snapshot' ∧
        snapshot'.slots.map Slot.entry = snapshot.slots.map Slot.entry ∧
        ∀ e ∈ snapshot.slots.map Slot.entry,
          (st'.entries e).map Entry.view = (st.entries e).map Entry.view) := by
  induction steps with
  | refl => exact ⟨inv.snapshot_lt live, .inr ⟨snapshot, live, rfl, fun _ _ => rfl⟩⟩
  | step before operation held done ih =>
    obtain ⟨old, lives⟩ := ih
    have there := inv.steps before
    have frame := (there.done held done).2.2
    refine ⟨old.trans_le frame.later, ?_⟩
    rcases frame.snapshots s old with freed | ⟨middle, last, liveMiddle, liveLast, same⟩
    · exact .inl freed
    rcases lives with none | ⟨middle', liveMiddle', sameMiddle, kept⟩
    · rw [none] at liveMiddle
      cases liveMiddle
    obtain rfl := Option.some.inj (liveMiddle.symm.trans liveMiddle')
    refine .inr ⟨last, liveLast, same.trans sameMiddle, ?_⟩
    intro e member
    have referred := there.refCount_pos_of_slot liveMiddle (sameMiddle ▸ member)
    have stays := (there.done held done).1.refCount_pos_of_slot liveLast
      (same.trans sameMiddle ▸ member)
    exact (frame.entries e referred stays).trans (kept e member)

theorem snapshotFind_stable (steps : Steps st st') (live : (st.snapshots s).isSome)
    (live' : (st'.snapshots s).isSome) (name : Name) :
    snapshotFind s name st' = snapshotFind s name st := by
  obtain ⟨snapshot, here⟩ := Option.isSome_iff_exists.mp live
  obtain ⟨snapshot', there⟩ := Option.isSome_iff_exists.mp live'
  obtain ⟨-, none | ⟨again, there', same, kept⟩⟩ := inv.stable steps here
  · rw [none] at there
    cases there
  obtain rfl := Option.some.inj (there.symm.trans there')
  simp only [snapshotFind, here, there]
  cases nameCopy name with
  | none => rfl
  | some normalized =>
    have names : ∀ e ∈ snapshot.slots.map Slot.entry,
        (st'.entries e).map Entry.name = (st.entries e).map Entry.name := by
      intro e member
      have := congrArg (Option.map Prod.fst) (kept e member)
      rwa [Option.map_map, Option.map_map] at this
    have lookup : findByName st'.entries normalized (snapshot.slots.map Slot.entry) =
        findByName st.entries normalized (snapshot.slots.map Slot.entry) := by
      rw [findByName_eq (inv.slots_present here),
        findByName_eq (same ▸ (inv.steps steps).slots_present there)]
      exact congrArg some (find?_congr fun e member => by rw [names e member])
    simp only [same, lookup]
    rcases findByName_cases normalized (inv.slots_present here) with
      ⟨absent, -⟩ | ⟨e, member, entry, found, alive, -⟩
    · simp [absent]
    simp only [found]
    have descriptors := congrArg (Option.map Prod.snd) (kept e member)
    rw [alive, Option.map_map, Option.map_some, Option.map_some] at descriptors
    obtain ⟨entry', alive', equal⟩ := Option.map_eq_some_iff.mp descriptors
    rw [alive, alive', Option.map_some, Option.map_some]
    exact congrArg (fun descriptor => some (some (e, descriptor))) equal

/-! ## Whole runs -/

def containing (st : State) (e : Nat) : Nat :=
  ((Finset.range st.nextSnapshot).filter fun s =>
    (st.snapshots s).any fun snapshot => decide (e ∈ snapshot.slots.map Slot.entry)).card

/-- Nobody refers to an entry. -/
def Unreferenced (st : State) (e : Nat) : Prop :=
  e ∉ st.registry ∧ containing st e = 0 ∧ e ∉ st.leases

theorem Inv.containing_eq (e : Nat) :
    containing st e = total (Snapshot.refers e) st.snapshots st.nextSnapshot := by
  rw [containing, Finset.card_filter, total]
  refine Finset.sum_congr rfl ?_
  intro s _
  cases live : st.snapshots s with
  | none => rfl
  | some snapshot =>
    simp only [Option.any_some, decide_eq_true_eq, Option.elim_some, Snapshot.refers]
    split_ifs with member
    · exact (count_eq_one_of_mem (inv.slots s snapshot live).1 member).symm
    · exact (count_eq_zero_of_not_mem member).symm

theorem Inv.refCount_eq_zero_iff (e : Nat) : refCount st e = 0 ↔ Unreferenced st e := by
  rw [Unreferenced, inv.containing_eq, refCount, Nat.add_eq_zero_iff, Nat.add_eq_zero_iff,
    count_eq_zero, count_eq_zero, and_assoc]

theorem Inv.registry_count (here : st.entries e = some entry) :
    st.registry.count e = if entry.registered then 1 else 0 := by
  split_ifs with registered
  · exact count_eq_one_of_mem inv.distinct ((inv.registered e entry here).mp registered)
  exact count_eq_zero_of_not_mem fun member =>
    registered ((inv.registered e entry here).mpr member)

end

/-- **The lives of entries and snapshots, after every sequence of calls.** The entries that were
destroyed, each of them once, are those that nobody refers to any more. -/
theorem extension_lifetimes {st : State} (reached : Steps .new st) :
    (∀ e entry, st.entries e = some entry →
      entry.references = (if entry.registered then 1 else 0) + containing st e +
          st.leases.count e ∧
        entry.pins = pinCount st e) ∧
    (st.destroyed.Nodup ∧ ∀ e < st.nextEntry, e ∈ st.destroyed ↔ Unreferenced st e) ∧
    (∀ e ∈ st.registry, ∀ e' ∈ st.registry, ∀ entry entry', st.entries e = some entry →
      st.entries e' = some entry' → entry.name = entry'.name → e = e') ∧
    (∀ operation : Operation, operation.Held st → (operation.apply st).isSome) ∧
    ∀ st', Steps st st' → ∀ s, (st.snapshots s).isSome → (st'.snapshots s).isSome → ∀ name,
      snapshotFind s name st' = snapshotFind s name st := by
  have inv := Inv.new.steps reached
  refine ⟨?_, ⟨inv.destroyedDistinct, ?_⟩, inv.names, ?_, ?_⟩
  · intro e entry here
    refine ⟨?_, inv.pins here⟩
    rw [inv.references here, refCount, inv.registry_count here, inv.containing_eq]
  · intro e old
    rw [inv.destroyed, ← inv.refCount_eq_zero_iff, ← inv.counted]
    refine ⟨fun gone => by rw [gone.2, Option.elim_none], fun zero => ⟨old, ?_⟩⟩
    cases here : st.entries e with
    | none => rfl
    | some entry =>
      rw [here] at zero
      have due := (inv.pending e).mpr ⟨entry, here, zero⟩
      rw [pending_eq_nil reached] at due
      cases due
  · intro operation held
    obtain ⟨next, done, -⟩ := inv.step operation held
    exact Option.isSome_iff_exists.mpr ⟨next, done⟩
  · intro st' steps s live live' name
    exact snapshotFind_stable inv steps live live' name

/-- An extension without arguments, named `f`. -/
def constantDescriptor : Descriptor := ⟨1, 80, some [102], 0, none, 1, true, 0, 0, 0⟩

/-- An extension that is unregistered, and whose snapshot is released, lives on for its lease; when
the lease is returned it is destroyed. -/
theorem extension_lifetimes_of_lease :
    ∃ st st', Steps .new st ∧ st.leases = [0] ∧ st.registry = [] ∧ (st.snapshots 0).isNone ∧
      st.destroyed = [] ∧ Operation.apply st (.leaseRelease 0) = some st' ∧
      st'.destroyed = [0] ∧ Unreferenced st' 0 := by
  have registered := Steps.step (.refl .new) (.register constantDescriptor false false) trivial rfl
  have acquired := Steps.step registered (.snapshotAcquire false) trivial rfl
  have leased := Steps.step acquired (.leaseAcquire 0 0) rfl rfl
  have unregistered := Steps.step leased (.unregister [102]) trivial rfl
  have freed := Steps.step unregistered (.snapshotRelease 0) rfl rfl
  have returned := Steps.step freed (.leaseRelease 0) (mem_singleton_self 0) rfl
  exact ⟨_, _, freed, rfl, rfl, rfl, rfl, rfl, rfl,
    ((extension_lifetimes returned).2.1.2 0 Nat.one_pos).mp (mem_singleton_self 0)⟩

end Wirelog.Extension

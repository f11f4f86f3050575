import Wirelog.Foundations.Traversal
import Wirelog.Intern.Table

/-!
# Ids stand for strings

In every state that calls lead to, with any strings and any failures, the table stands for a
list of different strings (`Valid`): the id of a string is its place in the list, which both
the segments and the slots agree on. A call that stores a string adds it at the end of this
list (`putNew_spec`), through a rebuild of the slots (`Valid.rehash`) where the table grows. A
call that fails leaves the table and the counter of the governor as they were, since it gives
back what it has reserved. Together this is `intern_bijective`.
-/

set_option autoImplicit false

namespace Wirelog.Intern

open Wirelog.Foundations Wirelog.Memory List Function

variable {str : CString} {id capacity k : Nat} {grow : Growth} {governor : Governor}

/-! ## Segments -/

theorem two_pow_segOf_le (id : Nat) : 64 * 2 ^ segOf id ≤ id + 64 := by
  have lower : 2 ^ segOf id ≤ (id >>> 6) + 1 := Nat.log2_self_le (Nat.succ_ne_zero _)
  rw [Nat.shiftRight_eq_div_pow] at lower
  omega

theorem segBase_eq (seg : Nat) : segBase seg = 64 * 2 ^ seg - 64 := by
  rw [segBase, Nat.shiftLeft_eq]

theorem segBase_le (id : Nat) : segBase (segOf id) ≤ id := by
  have lower := two_pow_segOf_le id
  rw [segBase_eq]
  omega

/-- Different ids have different entries. -/
theorem eq_of_same_entry {other : Nat} (same : segOf id = segOf other)
    (offset : id - segBase (segOf id) = other - segBase (segOf other)) : id = other := by
  have first := segBase_le id
  have second := segBase_le other
  rw [same] at offset first
  omega

/-! ## What a table stands for -/

def homeOf (strings : List CString) (capacity id : Nat) : Nat :=
  match strings[id]? with
  | some str => homeSlot capacity str
  | none => 0

/-- A table stands for a list of strings: the id of a string is its place in the list. -/
structure Valid (t : Table) (strings : List CString) : Prop where
  count_eq : t.count = strings.length
  nodup : strings.Nodup
  reads : ∀ id str, strings[id]? = some str → stringAt t id = some str
  power : ∃ k, 6 ≤ k ∧ k ≤ 31 ∧ t.slotCapacity = 2 ^ k
  load : t.count * 4 ≤ t.slotCapacity * 3
  hashed : Hashed t.slotCapacity (homeOf strings t.slotCapacity) t.slots (· < t.count)

theorem nextSlot_eq (power : capacity = 2 ^ k) :
    nextSlot capacity = fun h => (h + 1) % capacity := by
  funext h
  rw [nextSlot, power, Nat.and_two_pow_sub_one_eq_mod]

theorem homeSlot_eq (power : capacity = 2 ^ k) (str : CString) :
    homeSlot capacity str = fnv1a str % capacity := by
  rw [homeSlot, power, Nat.and_two_pow_sub_one_eq_mod]

theorem homeOf_eq (strings : List CString) (power : capacity = 2 ^ k) :
    homeOf strings capacity = fun id => strings[id]?.elim 0 fnv1a % capacity := by
  funext id
  rw [homeOf]
  cases strings[id]? with
  | none => exact (Nat.zero_mod capacity).symm
  | some str => exact homeSlot_eq power str

section Valid

variable {t : Table} {strings : List CString}

theorem Valid.create : Valid .create [] where
  count_eq := rfl
  nodup := nodup_nil
  reads _ _ place := nomatch place
  power := ⟨6, by decide, by decide, rfl⟩
  load := by decide
  hashed := .empty fun i => Nat.not_lt_zero i

section

variable (valid : Valid t strings)

include valid

theorem Valid.least : 64 ≤ t.slotCapacity := by
  obtain ⟨k, least, _, power⟩ := valid.power
  rw [power]
  exact (Nat.pow_le_pow_right Nat.zero_lt_two least : 2 ^ 6 ≤ 2 ^ k)

theorem Valid.positive : 0 < t.slotCapacity := by
  have least := valid.least
  omega

theorem Valid.count_lt : t.count < t.slotCapacity := by
  have load := valid.load
  have positive := valid.positive
  omega

/-- The entries of the table are the strings of the list. -/
theorem Valid.stringAt_eq (stored : id < t.count) : stringAt t id = strings[id]? := by
  obtain ⟨str, place⟩ : ∃ str, strings[id]? = some str :=
    ⟨_, List.getElem?_eq_getElem (valid.count_eq ▸ stored)⟩
  rw [place, valid.reads id str place]

/-- The slots are a table of the ids of the strings. -/
theorem Valid.numbered : Numbered fnv1a t.slotCapacity t.slots strings := by
  obtain ⟨k, _, _, power⟩ := valid.power
  have hashed := valid.hashed
  rw [homeOf_eq strings power, valid.count_eq] at hashed
  exact ⟨valid.nodup, hashed⟩

theorem Valid.lookup_eq (str : CString) : lookupLocked t str =
    (lookupSlot t.slotCapacity (fnv1a str % t.slotCapacity) t.slots
      fun id => decide (stringAt t id = some str)).map fun answer =>
        match answer.2 with
        | some id => .found id
        | none => .absent answer.1 := by
  obtain ⟨k, _, _, power⟩ := valid.power
  rw [lookupLocked, lookupSlot, nextSlot_eq power, homeSlot_eq power, Option.map_map]
  cases probe _ _ _ _ with
  | none => rfl
  | some h => cases here : t.slots h <;> simp [here]

theorem Valid.tests (str : CString) (id : Nat) (stored : id < strings.length) :
    decide (stringAt t id = some str) = true ↔ strings[id]? = some str := by
  rw [decide_eq_true_iff, valid.stringAt_eq (valid.count_eq ▸ stored)]

theorem Valid.lookup_found (place : strings[id]? = some str) :
    lookupLocked t str = some (.found id) := by
  obtain ⟨p, found⟩ := valid.numbered.lookupSlot_found valid.positive place (valid.tests str)
  rw [valid.lookup_eq, found]
  rfl

/-- A lookup of another string finds the slot in which it belongs. -/
theorem Valid.lookup_absent (absent : str ∉ strings) :
    ∃ h, lookupLocked t str = some (.absent h) ∧
      Numbered fnv1a t.slotCapacity (update t.slots h (some t.count)) (strings ++ [str]) := by
  obtain ⟨h, found, stored⟩ := valid.numbered.lookupSlot_fresh (valid.count_eq ▸ valid.count_lt)
    absent (valid.tests str)
  refine ⟨h, ?_, valid.count_eq ▸ stored⟩
  rw [valid.lookup_eq, found]
  rfl

end

/-! ## Rebuilding the slots -/

theorem exists_freeSlot {slots : Nat → Option Nat} (power : capacity = 2 ^ k)
    (table : Numbered fnv1a capacity slots strings) (room : strings.length < capacity)
    (absent : str ∉ strings) :
    ∃ h, freeSlot capacity slots str = some h ∧
      Numbered fnv1a capacity (update slots h (some strings.length)) (strings ++ [str]) := by
  obtain ⟨h, found, stored⟩ := table.lookupSlot_absent room absent fun _ _ => rfl
  obtain ⟨p, probed, same⟩ := Option.map_eq_some_iff.mp found
  obtain ⟨rfl, -⟩ := Prod.mk.inj same
  refine ⟨p, ?_, stored⟩
  rw [freeSlot, nextSlot_eq power, homeSlot_eq power, probed]

/-- Inserting the first entries again. -/
theorem Valid.rehash_upTo (valid : Valid t strings) {m : Nat}
    (power : capacity = 2 ^ k) (large : t.slotCapacity ≤ capacity) (upTo : m ≤ t.count) :
    ∃ slots, (List.range m).foldlM (reinsert t capacity) (fun _ => none) = some slots ∧
      Numbered fnv1a capacity slots (strings.take m) := by
  induction m with
  | zero => exact ⟨_, rfl, .empty⟩
  | succ m ih =>
    obtain ⟨slots, folded, table⟩ := ih (Nat.le_of_succ_le upTo)
    have inside : m < strings.length := valid.count_eq ▸ upTo
    have place := List.getElem?_eq_getElem inside
    have next : strings.take (m + 1) = strings.take m ++ [strings[m]] :=
      (take_append_getElem inside).symm
    have length : (strings.take m).length = m := length_take_of_le inside.le
    have room : m < capacity := upTo.trans (valid.count_lt.le.trans large)
    have absent : strings[m] ∉ strings.take m := by
      have distinct := valid.nodup.sublist (take_sublist (m + 1) strings)
      rw [next] at distinct
      exact disjoint_singleton.mp (nodup_append'.mp distinct).2.2
    obtain ⟨h, found, stored⟩ := exists_freeSlot power table (length.symm ▸ room) absent
    refine ⟨_, ?_, next ▸ length ▸ stored⟩
    rw [range_succ, foldlM_append, folded]
    simp [reinsert, valid.reads m _ place, found]

theorem Valid.rehash (valid : Valid t strings) (power : capacity = 2 ^ k)
    (large : t.slotCapacity ≤ capacity) :
    ∃ slots, rehash t capacity = some slots ∧ Numbered fnv1a capacity slots strings := by
  obtain ⟨slots, folded, table⟩ := valid.rehash_upTo power large (Nat.le_refl _)
  rw [valid.count_eq, take_length] at table
  exact ⟨slots, folded, table⟩

/-- The larger table stands for the same strings. -/
theorem Valid.resize (valid : Valid t strings) {slots : Nat → Option Nat}
    (small : t.slotCapacity ≤ uint32Max / 2)
    (table : Numbered fnv1a (t.slotCapacity * 2) slots strings) :
    Valid { t with slots := slots, slotCapacity := t.slotCapacity * 2 } strings where
  count_eq := valid.count_eq
  nodup := valid.nodup
  reads := valid.reads
  power := by
    obtain ⟨k, least, _, power⟩ := valid.power
    refine ⟨k + 1, by omega, ?_, by simp [power, Nat.pow_succ]⟩
    -- a capacity of `2 ^ 31` is not doubled
    by_contra large
    have top : 2 ^ 31 ≤ 2 ^ k := Nat.pow_le_pow_right (by decide) (by omega)
    simp only [power, uint32Max] at small
    omega
  load := by
    have load := valid.load
    simp only
    omega
  hashed := by
    obtain ⟨k, _, _, power⟩ := valid.power
    have power' : t.slotCapacity * 2 = 2 ^ (k + 1) := by rw [power, Nat.pow_succ]
    simpa [homeOf_eq strings power', valid.count_eq] using table.hashed

/-! ## Storing a string -/

/-- Storing a string changes one entry. -/
theorem stringAt_store (t : Table) (seg : grow.seg = segOf t.count)
    (fresh : grow.needsSegment = (t.segments (segOf t.count)).isNone) (str : CString) (h id : Nat) :
    stringAt (store t grow str h) id = if id = t.count then some str else stringAt t id := by
  by_cases here : id = t.count
  · rw [if_pos here, here]
    simp [stringAt, store, seg]
  rw [if_neg here]
  by_cases same : segOf id = segOf t.count
  · have apart : id - segBase (segOf t.count) ≠ t.count - segBase (segOf t.count) := by
      intro offset
      exact here (eq_of_same_entry same (same.symm ▸ offset))
    cases present : t.segments (segOf t.count) with
    | none =>
      simp [stringAt, store, seg, fresh, same, present, update_of_ne apart]
    | some entries =>
      simp [stringAt, store, seg, fresh, same, present, update_of_ne apart]
  · simp [stringAt, store, seg, update_of_ne same]

/-- A stored string is the next one of the list. -/
theorem Valid.store (valid : Valid t strings) {h : Nat} (seg : grow.seg = segOf t.count)
    (fresh : grow.needsSegment = (t.segments (segOf t.count)).isNone)
    (room : (t.count + 1) * 4 ≤ t.slotCapacity * 3)
    (stored : Numbered fnv1a t.slotCapacity (update t.slots h (some t.count)) (strings ++ [str])) :
    Valid (store t grow str h) (strings ++ [str]) where
  count_eq := by simp [Intern.store, valid.count_eq]
  nodup := stored.distinct
  reads id other place := by
    rw [stringAt_store t seg fresh]
    rw [valid.count_eq]
    split_ifs with here
    · subst here
      simpa using place
    have inside : id < strings.length := by
      have bound := (List.getElem?_eq_some_iff.mp place).1
      rw [length_append, length_singleton] at bound
      omega
    rw [List.getElem?_append_left inside] at place
    exact valid.reads id other place
  power := valid.power
  load := room
  hashed := by
    obtain ⟨k, _, _, power⟩ := valid.power
    have hashed := stored.hashed
    rw [← homeOf_eq _ power, length_append, ← valid.count_eq] at hashed
    exact hashed

end Valid

/-! ## The reservation of the table -/

/-- An attached table holds one committed reservation of its bytes; another table holds
none. -/
structure Backed (s : State) : Prop where
  held : s.table.attached = true → 0 < s.table.reservedBytes ∧
    s.table.reservedBytes ≤ s.governor.reservedBytes ∧
    ∃ owner, s.table.reservation = ⟨some (), s.table.reservedBytes, owner, .committed⟩
  free : s.table.attached = false → s.table.reservedBytes = 0 ∧
    (s.table.reservation.state = .empty ∨ s.table.reservation.state = .released)

theorem Backed.create (governor : Governor) : Backed ⟨.create, governor⟩ where
  held attached := nomatch attached
  free _ := ⟨rfl, .inl rfl⟩

/-- The reservation of an attached table is replaced by the one that is pending. -/
theorem publishReservation_eq {t : Table} {owner retained : Nat}
    (positive : 0 < t.reservedBytes) (enough : t.reservedBytes ≤ governor.reservedBytes)
    (present : t.reservation = ⟨some (), t.reservedBytes, owner, .committed⟩) :
    publishReservation t governor ⟨⟨some (), retained, 0, .reserved⟩, retained⟩ =
      (true, { t with reservation := ⟨some (), retained, self, .committed⟩
                      reservedBytes := retained }, .init Unit,
        { governor with reservedBytes := governor.reservedBytes - t.reservedBytes }) := by
  have released : (release governor ⟨some (), t.reservedBytes, owner, .committed⟩).2.1 =
      { governor with reservedBytes := governor.reservedBytes - t.reservedBytes } :=
    congrArg Prod.fst (release_committed positive enough)
  simp [publishReservation, commit, reservationMove, Token.init, positive, present, released]

/-- Whether the bytes are backed depends on the reservation alone. -/
theorem Backed.congr {s s' : State} (backed : Backed s)
    (attached : s'.table.attached = s.table.attached)
    (reservation : s'.table.reservation = s.table.reservation)
    (reservedBytes : s'.table.reservedBytes = s.table.reservedBytes)
    (governor : s'.governor = s.governor) : Backed s' := by
  obtain ⟨held, free⟩ := backed
  constructor
  · rw [attached, reservation, reservedBytes, governor]
    exact held
  · rw [attached, reservation, reservedBytes]
    exact free

/-- What the governor has admitted: nothing for a table without a governor, and otherwise a
new reservation that is charged and pending. -/
def Admitted (s : State) (pending : Option Pending) (governor : Governor) : Prop :=
  match pending with
  | none => s.table.attached = false ∧ governor = s.governor
  | some pending => s.table.attached = true ∧ ∃ retained > 0,
      pending = ⟨⟨some (), retained, 0, .reserved⟩, retained⟩ ∧
      governor = { s.governor with reservedBytes := s.governor.reservedBytes + retained }

variable {s : State}

theorem reserveForGrowth_error {copyBytes : Nat}
    (refused : reserveForGrowth s copyBytes grow = .error governor) : governor = s.governor := by
  unfold reserveForGrowth at refused
  split at refused
  · split at refused
    · exact (Except.error.inj refused).symm
    split at refused
    · nomatch refused
    rename_i retained _ _ other _ answer
    have unchanged := reserveGrowth_failed (congrArg Prod.fst answer)
    rw [answer] at unchanged
    exact (Except.error.inj refused).symm.trans unchanged
  · nomatch refused

variable {pending : Option Pending}

theorem reserveForGrowth_ok {copyBytes : Nat}
    (admitted : reserveForGrowth s copyBytes grow = .ok (pending, governor)) :
    Admitted s pending governor := by
  unfold reserveForGrowth at admitted
  split at admitted
  · rename_i attached
    split at admitted
    · nomatch admitted
    split at admitted
    · rename_i retained _ _ charged token answer
      obtain ⟨positive, rfl, rfl⟩ := reserveGrowth_admitted answer
      obtain ⟨rfl, rfl⟩ := Prod.mk.inj (Except.ok.inj admitted)
      exact ⟨attached, retained, positive, rfl, rfl⟩
    · nomatch admitted
  · rename_i free
    obtain ⟨rfl, rfl⟩ := Prod.mk.inj (Except.ok.inj admitted)
    exact ⟨Bool.eq_false_iff.mpr free, rfl⟩

/-- Giving up what was admitted restores the counter. -/
theorem giveUp_admitted (admitted : Admitted s pending governor) :
    giveUp governor (pending.map Pending.token) = s.governor := by
  cases pending with
  | none => exact admitted.2
  | some pending =>
    obtain ⟨_, retained, positive, rfl, rfl⟩ := admitted
    have some : ¬ (retained = 0) := by omega
    simp [giveUp, rollback, returnBytes, some]

/-- Publishing does not fail, and it changes the reservation only. -/
theorem publish_spec (backed : Backed s) (admitted : Admitted s pending governor) :
    ∃ table token governor',
      publish { s with governor := governor } pending = (true, table, token, governor') ∧
      table = { s.table with reservation := table.reservation
                             reservedBytes := table.reservedBytes } ∧
      Backed ⟨table, governor'⟩ := by
  cases pending with
  | none =>
    obtain ⟨_, rfl⟩ := admitted
    exact ⟨_, _, _, rfl, rfl, backed⟩
  | some pending =>
    obtain ⟨attached, retained, positive, rfl, rfl⟩ := admitted
    obtain ⟨holds, enough, owner, present⟩ := backed.held attached
    have published : publishReservation s.table
        { s.governor with reservedBytes := s.governor.reservedBytes + retained }
        ⟨⟨some (), retained, 0, .reserved⟩, retained⟩ = _ :=
      publishReservation_eq holds (Nat.le_add_right_of_le enough) present
    refine ⟨_, _, _, by simp only [publish, published]; rfl, rfl, ?_⟩
    constructor
    · intro _
      refine ⟨positive, ?_, self, rfl⟩
      simp only
      omega
    · intro free
      rw [show s.table.attached = false from free] at attached
      cases attached

/-! ## One call -/

section Calls

variable {s : State} {strings : List CString}

/-- The reservation has no part in what a table stands for. -/
theorem Valid.of_reservation {t t' : Table} (valid : Valid t strings)
    (same : t' = { t with reservation := t'.reservation
                          reservedBytes := t'.reservedBytes }) : Valid t' strings := by
  rw [same]
  exact ⟨valid.count_eq, valid.nodup, valid.reads, valid.power, valid.load, valid.hashed⟩

theorem growth_spec {t : Table} (grows : growth t = some grow) :
    grow.seg = segOf t.count ∧ grow.needsSegment = (t.segments (segOf t.count)).isNone ∧
      (grow.needsResize = false → (t.count + 1) * 4 ≤ t.slotCapacity * 3) ∧
      (grow.needsResize = true →
        t.slotCapacity ≤ uint32Max / 2 ∧ grow.newCap = t.slotCapacity * 2) := by
  unfold growth at grows
  split at grows
  · nomatch grows
  simp only at grows
  split at grows
  · nomatch grows
  rename_i small
  cases grows
  refine ⟨rfl, rfl, fun fits => ?_, fun large => ⟨?_, ?_⟩⟩
  · simp only [decide_eq_false_iff_not] at fits
    omega
  · exact Nat.le_of_not_gt fun exceeds => small ⟨large, exceeds⟩
  · simp only at large
    simp [large]

/-- **One more string.** A call for a string that is not in the table fails and changes
nothing, or stores the string under the next id. -/
theorem putNew_spec (valid : Valid s.table strings) (backed : Backed s) {h : Nat}
    (absent : str ∉ strings) (stored : Numbered fnv1a s.table.slotCapacity
      (update s.table.slots h (some s.table.count)) (strings ++ [str])) (failures : Failures) :
    ∃ result s', putNew failures str h s = some (result, s') ∧
      (result = none ∧ s' = s ∨
        result = some s.table.count ∧ Valid s'.table (strings ++ [str]) ∧ Backed s') := by
  cases grows : growth s.table with
  | none => exact ⟨none, s, by rw [putNew, grows], .inl ⟨rfl, rfl⟩⟩
  | some grow =>
    obtain ⟨seg, fresh, fits, large⟩ := growth_spec grows
    cases answer : reserveForGrowth s (str.bytes.length + 1) grow with
    | error governor =>
      have unchanged := reserveForGrowth_error answer
      exact ⟨none, s, by simp [putNew, grows, answer, unchanged], .inl ⟨rfl, rfl⟩⟩
    | ok admission =>
      obtain ⟨pending, governor⟩ := admission
      have admitted := reserveForGrowth_ok answer
      have restored := giveUp_admitted admitted
      obtain ⟨table, token, governor', published, same, backed'⟩ := publish_spec backed admitted
      have valid' := valid.of_reservation same
      simp only [putNew, grows, answer, restored]
      split_ifs with failed resize failedSlots
      · exact ⟨none, s, rfl, .inl ⟨rfl, rfl⟩⟩
      · exact ⟨none, s, rfl, .inl ⟨rfl, rfl⟩⟩
      · -- the slots are rebuilt, and the string goes into the new ones
        obtain ⟨small, newCap⟩ := large resize
        obtain ⟨k, _, _, power⟩ := valid.power
        have power' : s.table.slotCapacity * 2 = 2 ^ (k + 1) := by rw [power, Nat.pow_succ]
        obtain ⟨slots, rebuilt, numbered⟩ := valid.rehash power' (by omega)
        have resized : Valid { table with slots := slots
                                          slotCapacity := s.table.slotCapacity * 2 } strings :=
          (valid.resize small numbered).of_reservation (by rw [same])
        have room : strings.length < s.table.slotCapacity * 2 := by
          have count := valid.count_lt
          rw [valid.count_eq] at count
          omega
        obtain ⟨h', found, stored'⟩ := exists_freeSlot power' numbered room absent
        rw [← valid.count_eq] at stored'
        simp only [newCap, rebuilt, finishPut, published, storeNew, found]
        refine ⟨_, _, rfl, .inr ⟨by rw [same], resized.store ?_ ?_ ?_ (by rw [same]; exact stored'),
          backed'.congr rfl rfl rfl rfl⟩⟩
        · rw [seg, same]
        · rw [fresh, same]
        · have load := valid.load
          have least := valid.least
          rw [same]
          simp only
          omega
      · -- the slots stay
        have fits := fits (Bool.eq_false_iff.mpr resize)
        have capacity : table.slotCapacity = s.table.slotCapacity := by rw [same]
        have count : table.count = s.table.count := by rw [same]
        simp only [finishPut, published, storeNew]
        refine ⟨_, _, rfl, .inr ⟨by rw [count], valid'.store ?_ ?_ ?_ (by rw [same]; exact stored),
          backed'.congr rfl rfl rfl rfl⟩⟩
        · rw [seg, count]
        · rw [fresh, same]
        · rw [count, capacity]
          exact fits

/-- A lookup ends, and it finds the place of a string. -/
theorem Valid.get_eq_iff {t : Table} (valid : Valid t strings) (str : CString) :
    (get t str).isSome ∧ ∀ id, get t str = some (some id) ↔ strings[id]? = some str := by
  by_cases present : str ∈ strings
  · obtain ⟨place, atPlace⟩ := mem_iff_getElem?.mp present
    have answer : get t str = some (some place) := by rw [get, valid.lookup_found atPlace]
    refine ⟨by rw [answer]; rfl, fun id => ⟨fun found => ?_, fun found => ?_⟩⟩
    · rw [answer, Option.some.injEq, Option.some.injEq] at found
      exact found ▸ atPlace
    · rw [get, valid.lookup_found found]
  · obtain ⟨h, found, -⟩ := valid.lookup_absent present
    have answer : get t str = some none := by rw [get, found]
    refine ⟨by rw [answer]; rfl, fun id => ⟨fun found => ?_, fun found => ?_⟩⟩
    · simp [answer] at found
    · exact absurd (mem_of_getElem? found) present

theorem Valid.reverse_eq {t : Table} (valid : Valid t strings) (id : Nat) :
    reverse t id = strings[id]? := by
  unfold reverse
  split_ifs with out
  · -- there are fewer strings than a `uint32_t` can count
    have count := valid.count_eq
    have load := valid.load
    obtain ⟨k, _, most, power⟩ := valid.power
    have small : 2 ^ k ≤ 2 ^ 31 := Nat.pow_le_pow_right Nat.zero_lt_two most
    simp only [uint32Max] at out
    rw [List.getElem?_eq_none (by omega)]
  · exact valid.stringAt_eq (by omega)

section

variable (valid : Valid s.table strings) (backed : Backed s)

include valid backed

/-- **One call.** It fails and changes nothing, it finds the string, or it stores the string
under the next id. -/
theorem put_spec (failures : Failures) (str : CString) :
    ∃ result s', put failures str s = some (result, s') ∧
      (result = none ∧ s' = s ∧
          (str ∈ strings → failures.copy = true ∨ str.bytes.length = uint64Max) ∨
        (∃ id, result = some id ∧ strings[id]? = some str ∧ s' = s) ∨
        result = some s.table.count ∧ str ∉ strings ∧ Valid s'.table (strings ++ [str]) ∧
          Backed s') := by
  unfold put
  split_ifs with failed
  · exact ⟨none, s, rfl, .inl ⟨rfl, rfl, fun _ => failed.symm⟩⟩
  by_cases present : str ∈ strings
  · obtain ⟨id, place⟩ := mem_iff_getElem?.mp present
    rw [valid.lookup_found place]
    exact ⟨some id, s, rfl, .inr (.inl ⟨id, rfl, place, rfl⟩)⟩
  obtain ⟨h, found, stored⟩ := valid.lookup_absent present
  rw [found]
  obtain ⟨result, s', called, outcome⟩ :=
    putNew_spec valid backed present stored failures
  refine ⟨result, s', called, ?_⟩
  rcases outcome with ⟨none, unchanged⟩ | ⟨next, valid', backed'⟩
  · exact .inl ⟨none, unchanged, fun member => absurd member present⟩
  · exact .inr (.inr ⟨next, present, valid', backed'⟩)

/-- Attaching a governor reserves the retained bytes or changes nothing. -/
theorem attach_spec : ∃ s', attach s = some s' ∧ Valid s'.table strings ∧ Backed s' := by
  unfold attach
  split_ifs with attached
  · exact ⟨s, rfl, valid, backed⟩
  have stored : ∃ texts, (List.range s.table.count).mapM (stringAt s.table) = some texts := by
    refine Option.isSome_iff_exists.mp (isSome_mapM_iff.mpr fun id member => ?_)
    rw [valid.stringAt_eq (mem_range.mp member),
      List.getElem?_eq_getElem (valid.count_eq ▸ mem_range.mp member)]
    rfl
  obtain ⟨texts, read⟩ := stored
  cases sum : retainedBytes s.table with
  | none => simp [retainedBytes, read] at sum
  | some total =>
    cases total with
    | none => exact ⟨s, rfl, valid, backed⟩
    | some bytes =>
      simp only
      split_ifs with saturated
      · exact ⟨s, rfl, valid, backed⟩
      rcases answer : reserveChecked s.governor bytes (.init Unit) with ⟨ok, governor, token⟩
      cases ok with
      | false =>
        have unchanged := reserveChecked_failed (congrArg Prod.fst answer)
        rw [answer] at unchanged
        exact ⟨_, rfl, valid, backed.congr rfl rfl rfl unchanged⟩
      | true =>
        obtain ⟨positive, rfl, rfl⟩ := reserveChecked_admitted answer
        obtain ⟨_, unheld⟩ := backed.free (Bool.eq_false_iff.mpr attached)
        have moves : ¬ (s.table.reservation.state ≠ .empty ∧
            s.table.reservation.state ≠ .released) := by tauto
        simp only [commit, reservationMove, if_true, if_neg moves]
        refine ⟨_, rfl, ⟨valid.count_eq, valid.nodup, valid.reads, valid.power, valid.load,
          valid.hashed⟩, ?_, fun free => nomatch free⟩
        intro _
        exact ⟨positive, Nat.le_add_left _ _, self, by simp⟩

/-- Detaching the governor gives the reservation back. -/
theorem detach_spec : Valid (detach s).table strings ∧ Backed (detach s) := by
  by_cases attached : s.table.attached = true
  · obtain ⟨positive, enough, owner, present⟩ := backed.held attached
    have released : (release s.governor s.table.reservation).2 = _ :=
      present ▸ release_committed positive enough
    rw [detach, if_pos attached]
    simp only [gt_iff_lt, positive, if_true, released]
    exact ⟨⟨valid.count_eq, valid.nodup, valid.reads, valid.power, valid.load, valid.hashed⟩,
      ⟨nofun, fun _ => ⟨rfl, .inr rfl⟩⟩⟩
  · rw [detach, if_neg attached]
    exact ⟨valid, backed⟩

end

end Calls

/-! ## Sequences of calls -/

/-- The states that calls lead to, with the strings that were interned so far and the ids they
got. Between the calls a governor may be attached or detached, and other users of the governor
may change its counter and its limit; they do not return what the table holds. -/
inductive Reached : List (CString × Nat) → State → Prop
  | create (governor : Governor) : Reached [] ⟨.create, governor⟩
  | interned {history : List (CString × Nat)} {s s' : State} {failures : Failures}
      {str : CString} {id : Nat} : Reached history s →
      put failures str s = some (some id, s') → Reached ((str, id) :: history) s'
  | failed {history : List (CString × Nat)} {s s' : State} {failures : Failures}
      {str : CString} : Reached history s →
      put failures str s = some (none, s') → Reached history s'
  | attached {history : List (CString × Nat)} {s s' : State} : Reached history s →
      attach s = some s' → Reached history s'
  | detached {history : List (CString × Nat)} {s : State} : Reached history s →
      Reached history (detach s)
  | others {history : List (CString × Nat)} {s : State} (governor : Governor) :
      Reached history s →
      (s.table.attached = true → s.table.reservedBytes ≤ governor.reservedBytes) →
      Reached history { s with governor := governor }

/-- Every state reached stands for the strings that were interned. -/
theorem Reached.valid {history : List (CString × Nat)} (reached : Reached history s) :
    ∃ strings, Valid s.table strings ∧ Backed s ∧
      ∀ str id, strings[id]? = some str ↔ (str, id) ∈ history := by
  induction reached with
  | create governor => exact ⟨[], .create, .create governor, by simp⟩
  | @interned history s s' failures str id _ called ih =>
    obtain ⟨strings, valid, backed, recorded⟩ := ih
    obtain ⟨result, s'', answer, outcome⟩ := put_spec valid backed failures str
    obtain ⟨rfl, rfl⟩ := Prod.mk.inj (Option.some.inj (called.symm.trans answer))
    rcases outcome with
      ⟨none, _⟩ | ⟨place, same, found, unchanged⟩ | ⟨next, absent, valid', backed'⟩
    · nomatch none
    · cases same
      subst unchanged
      refine ⟨strings, valid, backed, fun other other' => ?_⟩
      rw [mem_cons, ← recorded, Prod.mk.injEq, iff_or_self]
      rintro ⟨rfl, rfl⟩
      exact found
    · cases next
      refine ⟨strings ++ [str], valid', backed', fun other place => ?_⟩
      rw [mem_cons, ← recorded, Prod.mk.injEq, valid.count_eq]
      rcases Nat.lt_trichotomy place strings.length with before | rfl | after
      · rw [List.getElem?_append_left before]
        simp [Nat.ne_of_lt before]
      · simp [eq_comm]
      · rw [List.getElem?_eq_none (by simpa using after), List.getElem?_eq_none (by omega)]
        simp [Nat.ne_of_gt after]
  | @failed history s s' failures str _ called ih =>
    obtain ⟨strings, valid, backed, recorded⟩ := ih
    obtain ⟨result, s'', answer, outcome⟩ := put_spec valid backed failures str
    obtain ⟨rfl, rfl⟩ := Prod.mk.inj (Option.some.inj (called.symm.trans answer))
    rcases outcome with ⟨_, unchanged, _⟩ | ⟨place, same, _⟩ | ⟨next, _⟩
    · exact ⟨strings, unchanged ▸ valid, unchanged ▸ backed, recorded⟩
    · nomatch same
    · nomatch next
  | attached _ called ih =>
    obtain ⟨strings, valid, backed, recorded⟩ := ih
    obtain ⟨s'', answer, valid', backed'⟩ := attach_spec valid backed
    obtain rfl := Option.some.inj (called.symm.trans answer)
    exact ⟨strings, valid', backed', recorded⟩
  | detached _ ih =>
    obtain ⟨strings, valid, backed, recorded⟩ := ih
    obtain ⟨valid', backed'⟩ := detach_spec valid backed
    exact ⟨strings, valid', backed', recorded⟩
  | others governor _ keeps ih =>
    obtain ⟨strings, valid, backed, recorded⟩ := ih
    refine ⟨strings, valid, ⟨fun attached => ?_, backed.free⟩, recorded⟩
    obtain ⟨positive, _, owner, present⟩ := backed.held attached
    exact ⟨positive, keeps attached, owner, present⟩

/-- A string of `SIZE_MAX` bytes is refused, so no string that was interned has that length. -/
theorem Reached.length_ne {history : List (CString × Nat)} (reached : Reached history s)
    {str : CString} {id : Nat} (member : (str, id) ∈ history) : str.bytes.length ≠ uint64Max := by
  induction reached with
  | create => simp at member
  | @interned history s s' failures interned place _ called ih =>
    rcases mem_cons.mp member with same | earlier
    · obtain ⟨rfl, rfl⟩ := Prod.mk.inj same
      intro long
      simp [put, long] at called
    · exact ih earlier
  | failed _ _ ih | attached _ _ ih | detached _ ih | others _ _ _ ih => exact ih member

/-- **Interning is a bijection.** After any calls, the ids below the count are in bijection
with the strings that were interned: reading an id back and looking a string up are inverse to
each other, and the pairs are those that calls have returned. A further call returns. If it
fails the state stays as it is, the counter of the governor included; a string that is present
changes nothing and gets its id again exactly if a copy of it could be allocated; a string that is
not present gets the next id or none. -/
theorem intern_bijective {history : List (CString × Nat)} {s : State}
    (reached : Reached history s) :
    (∀ id, (reverse s.table id).isSome ↔ id < s.table.count) ∧
    (∀ str, (get s.table str).isSome ∧
      ∀ id, get s.table str = some (some id) ↔ reverse s.table id = some str) ∧
    (∀ str id, reverse s.table id = some str ↔ (str, id) ∈ history) ∧
    ∀ failures str, ∃ result s', put failures str s = some (result, s') ∧
      (result = none → s' = s) ∧
      (∀ id, (str, id) ∈ history → s' = s ∧ (result = some id ↔ failures.copy = false)) ∧
      ∀ id, result = some id → reverse s'.table id = some str ∧
        ((str, id) ∈ history ∨ id = s.table.count) := by
  obtain ⟨strings, valid, backed, recorded⟩ := reached.valid
  refine ⟨fun id => ?_, fun str => ?_, fun str id => ?_, fun failures str => ?_⟩
  · rw [valid.reverse_eq, valid.count_eq]
    simp
  · refine ⟨(valid.get_eq_iff str).1, fun id => ?_⟩
    rw [valid.reverse_eq, (valid.get_eq_iff str).2]
  · rw [valid.reverse_eq, recorded]
  · obtain ⟨result, s', called, outcome⟩ := put_spec valid backed failures str
    refine ⟨result, s', called, ?_⟩
    rcases outcome with ⟨rfl, rfl, copyFailed⟩ | ⟨place, rfl, found, rfl⟩ | ⟨rfl, absent, valid', _⟩
    · refine ⟨fun _ => rfl, fun id member => ⟨rfl, ?_⟩, fun _ => nofun⟩
      have failed := (copyFailed (mem_of_getElem? ((recorded str id).mpr member))).resolve_right
        (reached.length_ne member)
      simp [failed]
    · refine ⟨nofun, fun id member => ⟨rfl, ?_⟩, fun id same => ?_⟩
      · have inside := (List.getElem?_eq_some_iff.mp found).1
        have copied : failures.copy = false := by
          cases failed : failures.copy with
          | false => rfl
          | true => simp [put, failed] at called
        simp [(List.getElem?_inj inside valid.nodup).mp
          (found.trans ((recorded str id).mpr member).symm), copied]
      · cases same
        rw [valid.reverse_eq]
        exact ⟨found, .inl ((recorded str place).mp found)⟩
    · refine ⟨nofun, fun id member => ?_, fun id same => ?_⟩
      · exact absurd (mem_of_getElem? ((recorded str id).mpr member)) absent
      · cases same
        rw [valid'.reverse_eq, valid.count_eq]
        exact ⟨by simp, .inr rfl⟩

/-- A new table with a governor of 10000 bytes that is attached to it. -/
def attachedTable : Option State := attach ⟨.create, ⟨10000, 0⟩⟩

def letter : CString := ⟨[97], by decide⟩

/-- A call whose segment cannot be allocated, and then one without failures. -/
def letterTwice : Option (Option Nat × Option Nat × State) := do
  let s ← attachedTable
  let (first, s) ← put ⟨false, true, false⟩ letter s
  let (second, s) ← put ⟨false, false, false⟩ letter s
  return (first, second, s)

theorem intern_bijective_letter :
    ∃ s, Reached [(letter, 0)] s ∧ reverse s.table 0 = some letter ∧
      s.governor.reservedBytes = 770 := by
  have evaluated : (letterTwice.map fun (first, second, s) =>
      (first, second, s.governor.reservedBytes)) = some (none, some 0, 770) := by decide +kernel
  obtain ⟨⟨first, second, s⟩, ran, values⟩ := Option.map_eq_some_iff.mp evaluated
  simp only [Prod.mk.injEq] at values
  obtain ⟨rfl, rfl, bytes⟩ := values
  simp only [letterTwice, attachedTable, do_eq_some_iff, pure_eq_some_iff, Prod.mk.injEq,
    Prod.exists] at ran
  obtain ⟨s₀, attached, first, s₁, failed, second, s₂, stored, rfl, rfl, rfl⟩ := ran
  have reached : Reached [(letter, 0)] s₂ :=
    .interned (.failed (.attached (.create _) attached) failed) stored
  exact ⟨s₂, reached, ((intern_bijective reached).2.2.1 letter 0).mpr (by simp), bytes⟩

/-- A call for a string that is present fails if no copy of the string can be allocated. -/
theorem present_letter_refused :
    ∃ s, Reached [(letter, 0)] s ∧ get s.table letter = some (some 0) ∧
      put ⟨true, false, false⟩ letter s = some (none, s) := by
  have evaluated : (put ⟨false, false, false⟩ letter ⟨.create, ⟨0, 0⟩⟩).map (fun (id, s) =>
      (id, get s.table letter)) = some (some 0, some (some 0)) := by decide +kernel
  obtain ⟨⟨id, s⟩, stored, values⟩ := Option.map_eq_some_iff.mp evaluated
  obtain ⟨rfl, found⟩ := Prod.mk.inj values
  exact ⟨s, .interned (.create _) stored, found, rfl⟩

end Wirelog.Intern

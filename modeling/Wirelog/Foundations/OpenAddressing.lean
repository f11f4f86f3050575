import Mathlib

/-!
# Open addressing with linear probing

A table of slots in which each entry has a home slot and stands there or, if this slot was
taken, in the first free slot after it. Between an entry and its home there is no free slot
(`Hashed`). A probe that starts at the home of a key and stops at a matching entry or at a free
slot finds the entry if there is one (`Hashed.lookupSlot_match`) and otherwise the free slot in
which the key belongs (`Hashed.lookupSlot_absent`, `Hashed.insert`). It ends as long as fewer
entries are stored than there are slots.
-/

set_option autoImplicit false

namespace Wirelog.Foundations

open Function

/-! ## Probing -/

/-- The slot at a distance from the home slot, around the end of the table. -/
def slotAt (capacity home distance : Nat) : Nat := (home + distance) % capacity

/-- The first position on a path at which a test succeeds. -/
def probe (next : Nat → Nat) (stop : Nat → Bool) : Nat → Nat → Option Nat
  | 0, _ => none
  | fuel + 1, h => if stop h then some h else probe next stop fuel (next h)

/-- Doubles a capacity until it is large enough, at most so many times. -/
def doubleUntil (target : Nat) : Nat → Nat → Nat
  | 0, capacity => capacity
  | rounds + 1, capacity =>
    if capacity < target then doubleUntil target rounds (capacity * 2) else capacity

theorem le_doubleUntil {target rounds capacity : Nat} (positive : 0 < capacity)
    (enough : target ≤ capacity + rounds) : target ≤ doubleUntil target rounds capacity := by
  induction rounds generalizing capacity with
  | zero => exact enough
  | succ rounds ih =>
    rw [doubleUntil]
    split_ifs with small
    · exact ih (by omega) (by omega)
    · exact not_lt.mp small

/-- Doubling reaches what the last round allows. -/
theorem le_doubleUntil_iff {target rounds capacity : Nat} :
    target ≤ doubleUntil target rounds capacity ↔ target ≤ capacity * 2 ^ rounds := by
  induction rounds generalizing capacity with
  | zero => simp [doubleUntil]
  | succ rounds ih =>
    rw [doubleUntil]
    split_ifs with small
    · rw [ih, Nat.mul_assoc, ← Nat.pow_succ']
    have enough : target ≤ capacity := not_lt.mp small
    refine iff_of_true enough (enough.trans ?_)
    exact Nat.le_mul_of_pos_right _ (Nat.two_pow_pos _)

/-- Doubling multiplies by a power of two. -/
theorem doubleUntil_eq (target rounds capacity : Nat) :
    ∃ j ≤ rounds, doubleUntil target rounds capacity = capacity * 2 ^ j := by
  induction rounds generalizing capacity with
  | zero => exact ⟨0, le_rfl, (Nat.mul_one _).symm⟩
  | succ rounds ih =>
    rw [doubleUntil]
    split_ifs with small
    · obtain ⟨j, upTo, doubled⟩ := ih (capacity * 2)
      exact ⟨j + 1, Nat.succ_le_succ upTo, by rw [doubled, Nat.mul_assoc, ← Nat.pow_succ']⟩
    · exact ⟨0, Nat.zero_le _, (Nat.mul_one _).symm⟩

section Probe

variable {capacity home distance fuel : Nat} {stop : Nat → Bool}

theorem slotAt_lt (positive : 0 < capacity) : slotAt capacity home distance < capacity :=
  Nat.mod_lt _ positive

theorem slotAt_zero (inside : home < capacity) : slotAt capacity home 0 = home :=
  Nat.mod_eq_of_lt inside

theorem slotAt_succ (capacity home distance : Nat) :
    slotAt capacity ((home + 1) % capacity) distance = slotAt capacity home (distance + 1) := by
  simp only [slotAt, Nat.mod_add_mod]
  congr 1
  omega

theorem exists_slotAt {p : Nat} (inside : home < capacity) (slot : p < capacity) :
    ∃ distance < capacity, slotAt capacity home distance = p := by
  refine ⟨(p + (capacity - home)) % capacity, Nat.mod_lt _ (by omega), ?_⟩
  rw [slotAt, Nat.add_mod_mod, show home + (p + (capacity - home)) = p + capacity by omega,
    Nat.add_mod_right, Nat.mod_eq_of_lt slot]

/-- A probe stops at the first slot that satisfies the test. -/
theorem probe_eq_some (inside : home < capacity) (enough : distance < fuel)
    (hit : stop (slotAt capacity home distance))
    (before : ∀ d < distance, stop (slotAt capacity home d) = false) :
    probe (fun p => (p + 1) % capacity) stop fuel home = some (slotAt capacity home distance) := by
  induction distance generalizing home fuel with
  | zero =>
    obtain ⟨fuel, rfl⟩ := Nat.exists_eq_succ_of_ne_zero (Nat.ne_of_gt enough)
    rw [slotAt_zero inside] at hit ⊢
    rw [probe, if_pos hit]
  | succ distance ih =>
    obtain ⟨fuel, rfl⟩ := Nat.exists_eq_succ_of_ne_zero (Nat.ne_of_gt (Nat.zero_lt_of_lt enough))
    have miss := before 0 (Nat.succ_pos distance)
    rw [slotAt_zero inside] at miss
    rw [probe, if_neg (by simp [miss]), ← slotAt_succ]
    refine ih (Nat.mod_lt _ (by omega)) (by omega) ?_ fun d near => ?_
    · rwa [slotAt_succ]
    · rw [slotAt_succ]
      exact before (d + 1) (by omega)

end Probe

/-! ## Tables -/

/-- The stored entries stand at their homes or after them, with no free slot in between. -/
structure Hashed {ι : Type*} (capacity : Nat) (home : ι → Nat) (slots : Nat → Option ι)
    (stored : ι → Prop) : Prop where
  sound : ∀ p < capacity, ∀ i, slots p = some i → stored i
  placed : ∀ i, stored i → ∃ d < capacity, slots (slotAt capacity (home i) d) = some i ∧
    ∀ d' < d, slots (slotAt capacity (home i) d') ≠ none
  unique : ∀ p < capacity, ∀ q < capacity, ∀ i, slots p = some i → slots q = some i → p = q

section Hashed

variable {ι : Type*} {capacity : Nat} {home : ι → Nat} {slots : Nat → Option ι} {stored : ι → Prop}

theorem Hashed.empty (nothing : ∀ i, ¬ stored i) :
    Hashed capacity home (fun _ => none) stored where
  sound _ _ _ found := nomatch found
  placed i present := absurd present (nothing i)
  unique _ _ _ _ _ found := nomatch found

/-- What is stored may be said in other words, and homes matter for stored entries only. -/
theorem Hashed.congr {home' : ι → Nat} {stored' : ι → Prop}
    (hashed : Hashed capacity home slots stored) (same : ∀ i, stored i ↔ stored' i)
    (homes : ∀ i, stored i → home i = home' i) : Hashed capacity home' slots stored' where
  sound p inside i found := (same i).mp (hashed.sound p inside i found)
  placed i present := by
    have before := (same i).mpr present
    rw [← homes i before]
    exact hashed.placed i before
  unique := hashed.unique

/-- A table that holds fewer entries than it has slots has a free one. -/
theorem Hashed.exists_free_of_length [DecidableEq ι] {entries : List ι}
    (hashed : Hashed capacity home slots (· ∈ entries)) (few : entries.length < capacity) :
    ∃ p < capacity, slots p = none := by
  by_contra full
  have found : ∀ p, p < capacity → ∃ i, slots p = some i := fun p inside =>
    Option.ne_none_iff_exists'.mp fun free => full ⟨p, inside, free⟩
  choose entry stored using found
  -- the entries of different slots are different
  have injective : Function.Injective fun p : Fin capacity => entry p p.isLt := by
    intro p q same
    have equal : entry p p.isLt = entry q q.isLt := same
    have second := stored q q.isLt
    rw [← equal] at second
    exact Fin.ext (hashed.unique p p.isLt q q.isLt _ (stored p p.isLt) second)
  have inside : ∀ p : Fin capacity, entry p p.isLt ∈ entries.toFinset := fun p =>
    List.mem_toFinset.mpr (hashed.sound p p.isLt _ (stored p p.isLt))
  have card : (Finset.univ : Finset (Fin capacity)).card ≤ entries.toFinset.card :=
    Finset.card_le_card_of_injOn _ (fun p _ => inside p) injective.injOn
  rw [Finset.card_univ, Fintype.card_fin] at card
  exact absurd (card.trans entries.toFinset_card_le) (not_le.mpr few)

theorem Hashed.exists_none {slots : Nat → Option Nat} {home : Nat → Nat} {count : Nat}
    (hashed : Hashed capacity home slots (· < count)) (few : count < capacity) :
    ∃ p < capacity, slots p = none :=
  (hashed.congr (fun _ => List.mem_range.symm) fun _ _ => rfl).exists_free_of_length
    (by rwa [List.length_range])

/-- Where a probe for entries that pass a test stops: at a free slot, or at such an entry. -/
def stopsAt (slots : Nat → Option ι) (test : ι → Bool) (p : Nat) : Bool :=
  match slots p with
  | none => true
  | some i => test i

/-- The slot at which a probe for entries that pass a test stops, and what stands there. -/
def lookupSlot (capacity start : Nat) (slots : Nat → Option ι) (test : ι → Bool) :
    Option (Nat × Option ι) :=
  (probe (fun p => (p + 1) % capacity) (stopsAt slots test) capacity start).map
    fun p => (p, slots p)

theorem probe_stops {next : Nat → Nat} {stop : Nat → Bool} {fuel h p : Nat}
    (found : probe next stop fuel h = some p) : stop p = true := by
  induction fuel generalizing h with
  | zero => cases found
  | succ fuel ih =>
    rw [probe] at found
    split_ifs at found with here
    · rwa [← Option.some.inj found]
    · exact ih found

variable {start : Nat} {test : ι → Bool}

/-- An entry that a probe finds is stored there and passes the test. -/
theorem lookupSlot_sound {p : Nat} {i : ι}
    (found : lookupSlot capacity start slots test = some (p, some i)) :
    slots p = some i ∧ test i = true := by
  obtain ⟨q, stopped, same⟩ := Option.map_eq_some_iff.mp found
  obtain ⟨rfl, here⟩ := Prod.mk.inj same
  have stops := probe_stops stopped
  rw [stopsAt, here] at stops
  exact ⟨here, stops⟩

def taken (capacity : Nat) (slots : Nat → Option ι) : Finset Nat :=
  {p ∈ Finset.range capacity | (slots p).isSome}

theorem taken_update_card (capacity : Nat) (slots : Nat → Option ι) (p : Nat) (i : ι) :
    (taken capacity (update slots p (some i))).card ≤ (taken capacity slots).card + 1 := by
  refine (Finset.card_le_card ?_).trans (Finset.card_insert_le p _)
  intro q member
  simp only [taken, Finset.mem_filter, Finset.mem_insert] at member ⊢
  by_cases same : q = p
  · exact .inl same
  rw [update_of_ne same] at member
  exact .inr member

theorem exists_none_of_taken (few : (taken capacity slots).card < capacity) :
    ∃ p < capacity, slots p = none := by
  by_contra full
  have all : taken capacity slots = Finset.range capacity := by
    apply Finset.filter_true_of_mem
    intro p member
    rw [Option.isSome_iff_ne_none]
    exact fun free => full ⟨p, Finset.mem_range.mp member, free⟩
  rw [all, Finset.card_range] at few
  exact few.false

/-- As long as a slot is free a probe ends. -/
theorem exists_lookupSlot (inside : start < capacity)
    (few : (taken capacity slots).card < capacity) (test : ι → Bool) :
    ∃ answer, lookupSlot capacity start slots test = some answer := by
  classical
  obtain ⟨p, slot, free⟩ := exists_none_of_taken few
  obtain ⟨e, within, rfl⟩ := exists_slotAt inside slot
  have stops : ∃ d, stopsAt slots test (slotAt capacity start d) = true :=
    ⟨e, by simp [stopsAt, free]⟩
  have near := (Nat.find_le (h := stops) (by simp [stopsAt, free])).trans_lt within
  have found := probe_eq_some inside near
    (Nat.find_spec stops) fun d before => by simpa using Nat.find_min stops before
  exact ⟨_, by rw [lookupSlot, found, Option.map_some]⟩

section

variable (hashed : Hashed capacity home slots stored)

include hashed

/-- An entry is stored in the first free slot after its home. -/
theorem Hashed.insert [DecidableEq ι] {i : ι} {d : Nat} (fresh : ¬ stored i)
    (within : d < capacity) (free : slots (slotAt capacity (home i) d) = none)
    (occupied : ∀ d' < d, slots (slotAt capacity (home i) d') ≠ none) :
    Hashed capacity home (update slots (slotAt capacity (home i) d) (some i))
      fun j => stored j ∨ j = i where
  sound p inside j found := by
    rw [update_apply] at found
    split at found
    · exact .inr (Option.some.inj found).symm
    · exact .inl (hashed.sound p inside j found)
  placed j present := by
    have filled (p : Nat) (taken : slots p ≠ none) :
        update slots (slotAt capacity (home i) d) (some i) p ≠ none := by
      rw [update_apply]
      split
      · exact Option.some_ne_none i
      · exact taken
    rcases present with old | rfl
    · obtain ⟨e, inside, found, before⟩ := hashed.placed j old
      refine ⟨e, inside, ?_, fun e' near => filled _ (before e' near)⟩
      rw [update_of_ne, found]
      intro same
      rw [same, free] at found
      nomatch found
    · exact ⟨d, within, update_self .., fun e near => filled _ (occupied e near)⟩
  unique p inP q inQ j foundP foundQ := by
    have elsewhere (r : Nat) (inside : r < capacity)
        (found : update slots (slotAt capacity (home i) d) (some i) r = some j) :
        r = slotAt capacity (home i) d ∧ j = i ∨ slots r = some j ∧ j ≠ i := by
      rw [update_apply] at found
      split at found
      · rename_i here
        exact .inl ⟨here, (Option.some.inj found).symm⟩
      refine .inr ⟨found, ?_⟩
      rintro rfl
      exact fresh (hashed.sound r inside j found)
    rcases elsewhere p inP foundP with ⟨hereP, same⟩ | ⟨oldP, other⟩
    · rcases elsewhere q inQ foundQ with ⟨hereQ, _⟩ | ⟨_, other⟩
      · rw [hereP, hereQ]
      · exact absurd same other
    · rcases elsewhere q inQ foundQ with ⟨_, same⟩ | ⟨oldQ, _⟩
      · exact absurd same other
      · exact hashed.unique p inP q inQ j oldP oldQ

/-- A lookup finds the only stored entry that passes the test. -/
theorem Hashed.lookupSlot_match {i : ι} (present : stored i) (accepted : test i = true)
    (only : ∀ j, stored j → test j → j = i) (inside : home i < capacity) :
    ∃ p < capacity, lookupSlot capacity (home i) slots test = some (p, some i) := by
  obtain ⟨d, within, found, occupied⟩ := hashed.placed i present
  have positive : 0 < capacity := by omega
  have before (d' : Nat) (near : d' < d) :
      stopsAt slots test (slotAt capacity (home i) d') = false := by
    obtain ⟨j, here⟩ := Option.ne_none_iff_exists'.mp (occupied d' near)
    rw [stopsAt, here]
    cases other : test j with
    | false => exact other
    | true =>
      -- it would be the entry itself, which is stored once
      obtain rfl := only j (hashed.sound _ (slotAt_lt positive) j here) other
      have again := hashed.unique _ (slotAt_lt positive) _ (slotAt_lt positive) j here found
      have equal : d' % capacity = d % capacity := Nat.ModEq.add_left_cancel' (home j) again
      rw [Nat.mod_eq_of_lt (by omega), Nat.mod_eq_of_lt within] at equal
      omega
  have stopped := probe_eq_some inside within (by simp [stopsAt, found, accepted]) before
  exact ⟨_, slotAt_lt positive, by rw [lookupSlot, stopped, Option.map_some, found]⟩

/-- A lookup for an entry that is not stored ends at the free slot in which it belongs. -/
theorem Hashed.lookupSlot_absent (absent : ∀ j, stored j → test j = false)
    (free : ∃ p < capacity, slots p = none) (inside : start < capacity) :
    ∃ d < capacity, lookupSlot capacity start slots test = some (slotAt capacity start d, none) ∧
      slots (slotAt capacity start d) = none ∧
      ∀ d' < d, slots (slotAt capacity start d') ≠ none := by
  classical
  obtain ⟨p, slot, none⟩ := free
  obtain ⟨e, near, rfl⟩ := exists_slotAt inside slot
  have some : ∃ d, slots (slotAt capacity start d) = .none := ⟨e, none⟩
  have within : Nat.find some < capacity := (Nat.find_le none).trans_lt near
  have found := Nat.find_spec some
  have taken (d' : Nat) (before : d' < Nat.find some) := Nat.find_min some before
  have skipped (d' : Nat) (before : d' < Nat.find some) :
      stopsAt slots test (slotAt capacity start d') = false := by
    obtain ⟨j, here⟩ := Option.ne_none_iff_exists'.mp (taken d' before)
    rw [stopsAt, here]
    exact absent j (hashed.sound _ (slotAt_lt (by omega)) j here)
  have stopped := probe_eq_some inside within (by simp [stopsAt, found]) skipped
  exact ⟨_, within, by rw [lookupSlot, stopped, Option.map_some, found], found, taken⟩

end

/-- Entries that are stored one after another in the order of their numbers. -/
theorem Hashed.insert_next {slots : Nat → Option Nat} {home : Nat → Nat} {count d : Nat}
    (hashed : Hashed capacity home slots (· < count)) (within : d < capacity)
    (free : slots (slotAt capacity (home count) d) = none)
    (occupied : ∀ d' < d, slots (slotAt capacity (home count) d') ≠ none) :
    Hashed capacity home (update slots (slotAt capacity (home count) d) (some count))
      (· < count + 1) :=
  (hashed.insert (Nat.lt_irrefl count) within free occupied).congr
    (fun _ => Nat.lt_succ_iff_lt_or_eq.symm) fun _ _ => rfl

end Hashed

/-! ## Numbered keys -/

section Numbered

variable {κ : Type*} {hash : κ → Nat} {capacity : Nat} {slots : Nat → Option Nat} {keys : List κ}
  {key : κ} {test : Nat → Bool}

/-- A table of the numbers of different keys. -/
structure Numbered (hash : κ → Nat) (capacity : Nat) (slots : Nat → Option Nat)
    (keys : List κ) : Prop where
  distinct : keys.Nodup
  hashed : Hashed capacity (fun k => keys[k]?.elim 0 hash % capacity) slots (· < keys.length)

theorem Numbered.empty : Numbered hash capacity (fun _ => none) ([] : List κ) where
  distinct := List.nodup_nil
  hashed := .empty fun _ => Nat.not_lt_zero _

theorem Numbered.lookupSlot_found (table : Numbered hash capacity slots keys)
    (positive : 0 < capacity) {k : Nat} (here : keys[k]? = some key)
    (tests : ∀ j < keys.length, test j = true ↔ keys[j]? = some key) :
    ∃ p, lookupSlot capacity (hash key % capacity) slots test = some (p, some k) := by
  obtain ⟨bound, -⟩ := List.getElem?_eq_some_iff.mp here
  have only : ∀ j, j < keys.length → test j = true → j = k := by
    intro j inside accepted
    have same : keys[j]? = keys[k]? := by rw [(tests j inside).mp accepted, here]
    exact (List.getElem?_inj inside table.distinct).mp same
  have home : keys[k]?.elim 0 hash % capacity = hash key % capacity := by rw [here]; rfl
  rw [← home]
  obtain ⟨p, -, found⟩ := table.hashed.lookupSlot_match bound ((tests k bound).mpr here) only
    (Nat.mod_lt _ positive)
  exact ⟨p, found⟩

/-- A lookup that no key passes ends at the slot in which a new key belongs. -/
theorem Numbered.lookupSlot_absent (table : Numbered hash capacity slots keys)
    (room : keys.length < capacity) (fresh : key ∉ keys)
    (absent : ∀ j < keys.length, test j = false) :
    ∃ p, lookupSlot capacity (hash key % capacity) slots test = some (p, none) ∧
      Numbered hash capacity (update slots p (some keys.length)) (keys ++ [key]) := by
  obtain ⟨d, within, found, free, occupied⟩ := table.hashed.lookupSlot_absent absent
    (table.hashed.exists_none room) (Nat.mod_lt (hash key) (by omega))
  refine ⟨_, found, ?_, ?_⟩
  · exact List.nodup_append'.mpr
      ⟨table.distinct, List.nodup_singleton _, List.disjoint_singleton.mpr fresh⟩
  · have home : (keys ++ [key])[keys.length]?.elim 0 hash % capacity = hash key % capacity := by
      simp
    have before : Hashed capacity (fun k => (keys ++ [key])[k]?.elim 0 hash % capacity) slots
        (· < keys.length) := by
      refine table.hashed.congr (fun _ => Iff.rfl) ?_
      intro i bound
      simp [List.getElem?_append_left bound]
    have next := before.insert_next within (by simpa [home] using free)
      (by simpa [home] using occupied)
    simpa [home] using next

theorem Numbered.lookupSlot_fresh (table : Numbered hash capacity slots keys)
    (room : keys.length < capacity) (fresh : key ∉ keys)
    (tests : ∀ j < keys.length, test j = true ↔ keys[j]? = some key) :
    ∃ p, lookupSlot capacity (hash key % capacity) slots test = some (p, none) ∧
      Numbered hash capacity (update slots p (some keys.length)) (keys ++ [key]) := by
  refine table.lookupSlot_absent room fresh fun j inside => ?_
  refine Bool.eq_false_iff.mpr fun accepted => ?_
  exact fresh (List.mem_of_getElem? ((tests j inside).mp accepted))

end Numbered

end Wirelog.Foundations

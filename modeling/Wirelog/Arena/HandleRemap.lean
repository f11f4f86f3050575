import Wirelog.Foundations.OpenAddressing

/-!
# The table that renames handles

`handle_remap.c`: a table with open addressing from old to new handles of the compound arena. It is
doubled before an insertion that would fill more than three quarters of it, and then every entry is
inserted again. A key of 0 marks an empty slot, and a lookup answers 0 where there is no entry.

In every state that insertions lead to, whatever allocations fail, the table stands for a map from
keys to values (`Holds`): all probes end, a lookup answers with the latest value that was
inserted, and an insertion that fails changes nothing (`handle_remap_correct`).
-/

set_option autoImplicit false

namespace Wirelog.Arena.HandleRemap

open Wirelog.Foundations Function List

/-! ## The table -/

/-- `struct wl_handle_remap`. The handles are the bit patterns of `int64_t`. -/
structure Remap where
  keys : Nat → UInt64
  values : Nat → UInt64
  capacity : Nat
  count : Nat
  rehashAt : Nat

def sizeMax : Nat := 2 ^ 64 - 1

/-- `wl_handle_remap_hash_`. -/
def remapHash (key : UInt64) : UInt64 :=
  let x := (key ^^^ (key >>> 30)) * 0xbf58476d1ce4e5b9
  let x := (x ^^^ (x >>> 27)) * 0x94d049bb133111eb
  x ^^^ (x >>> 31)

/-- `next_pow2_`: 0 on overflow. -/
def nextPow2 (x : Nat) : Nat :=
  if x = 0 then 0
  else if x &&& (x - 1) = 0 then x
  else doubleUntil x 64 1 % 2 ^ 64

def rehashThreshold (capacity : Nat) : Nat := capacity - (capacity >>> 2)

/-- A table without entries. -/
def Remap.empty (capacity : Nat) : Remap :=
  ⟨fun _ => 0, fun _ => 0, capacity, 0, rehashThreshold capacity⟩

/-- `wl_handle_remap_create`; nothing if it fails. -/
def create (outOfMemory : Bool) (capacity : Nat) : Option Remap :=
  if capacity > sizeMax / 2 then none
  else
    let target := max 16 (if capacity = 0 then 16 else capacity + capacity / 3 + 1)
    if nextPow2 target = 0 ∨ nextPow2 target > sizeMax / 16 ∨ outOfMemory then none
    else some (.empty (nextPow2 target))

/-- The keys in the slots. -/
def Remap.slots (m : Remap) (i : Nat) : Option UInt64 :=
  if m.keys i = 0 then none else some (m.keys i)

/-- The slot at which the probe for a key stops; nothing if it does not stop. -/
def Remap.find (m : Remap) (key : UInt64) : Option Nat :=
  probe (fun i => (i + 1) &&& (m.capacity - 1)) (stopsAt m.slots (· == key)) m.capacity
    ((remapHash key).toNat &&& (m.capacity - 1))

/-- `remap_put_unchecked_`; nothing if it aborts or its loop does not end. -/
def putUnchecked (m : Remap) (key value : UInt64) : Option Remap :=
  if m.count ≥ m.capacity then none
  else (m.find key).map fun i =>
    if m.keys i = 0 then
      { m with
        keys := update m.keys i key, values := update m.values i value, count := m.count + 1 }
    else { m with values := update m.values i value }

/-- One round of the loop of `remap_grow_`. -/
def reinsert (old m : Remap) (i : Nat) : Option Remap :=
  if old.keys i ≠ 0 then putUnchecked m (old.keys i) (old.values i) else some m

/-- `remap_grow_`: whether it succeeds, and the table. -/
def grow (outOfMemory : Bool) (m : Remap) : Option (Bool × Remap) :=
  let newCap := m.capacity * 2 % 2 ^ 64
  if newCap < m.capacity ∨ newCap > sizeMax / 16 ∨ outOfMemory then some (false, m)
  else ((List.range m.capacity).foldlM (reinsert m) (.empty newCap)).map (true, ·)

inductive Rc where
  | ok
  | invalidArgs
  | oom
  deriving DecidableEq, Repr

/-- `wl_handle_remap_insert`. -/
def insert (outOfMemory : Bool) (m : Remap) (key value : UInt64) : Option (Rc × Remap) :=
  if key = 0 then some (.invalidArgs, m)
  else if m.count + 1 > m.rehashAt then
    match grow outOfMemory m with
    | none => none
    | some (false, m) => some (.oom, m)
    | some (true, m) => (putUnchecked m key value).map (.ok, ·)
  else (putUnchecked m key value).map (.ok, ·)

/-- `wl_handle_remap_lookup`. -/
def lookup (m : Remap) (key : UInt64) : Option UInt64 :=
  if key = 0 then some 0
  else (m.find key).map fun i => if m.keys i = 0 then 0 else m.values i

/-! ## What a table stands for -/

/-- A table stands for a map from keys to values. -/
structure Holds (m : Remap) (map : UInt64 → Option UInt64) : Prop where
  power : ∃ k, m.capacity = 2 ^ k
  large : 16 ≤ m.capacity
  taken_le : (taken m.capacity m.slots).card ≤ m.count
  nonzero : map 0 = none
  hashed : Hashed m.capacity (fun key => (remapHash key).toNat % m.capacity) m.slots
    fun key => (map key).isSome
  reads : ∀ p < m.capacity, ∀ key, m.slots p = some key → map key = some (m.values p)

variable {m : Remap} {map : UInt64 → Option UInt64} {key value : UInt64}

theorem Holds.empty {capacity : Nat} (power : ∃ k, capacity = 2 ^ k) (large : 16 ≤ capacity) :
    Holds (.empty capacity) fun _ => none where
  power := power
  large := large
  taken_le := by simp [taken, Remap.slots, Remap.empty]
  nonzero := rfl
  hashed := .empty fun _ => Bool.false_ne_true
  reads _ _ _ found := by simp [Remap.slots, Remap.empty] at found

theorem Remap.keys_eq_zero_iff {i : Nat} : m.keys i = 0 ↔ m.slots i = none := by
  simp [Remap.slots]

section Holds

variable (holds : Holds m map)

include holds

theorem Holds.find_eq (key : UInt64) : m.find key =
    (lookupSlot m.capacity ((remapHash key).toNat % m.capacity) m.slots (· == key)).map
      Prod.fst := by
  obtain ⟨k, power⟩ := holds.power
  simp only [Remap.find, lookupSlot, Option.map_map, power, Nat.and_two_pow_sub_one_eq_mod]
  exact Option.map_id'.symm

theorem Holds.home_lt (key : UInt64) : (remapHash key).toNat % m.capacity < m.capacity :=
  Nat.mod_lt _ (by have := holds.large; omega)

/-- The probe for a stored key ends at its slot. -/
theorem Holds.find_stored (stored : map key = some value) :
    ∃ p < m.capacity, m.find key = some p ∧ m.slots p = some key := by
  have present : (map key).isSome := by rw [stored]; rfl
  obtain ⟨p, inside, found⟩ : ∃ p < m.capacity, lookupSlot m.capacity
      ((remapHash key).toNat % m.capacity) m.slots (· == key) = some (p, some key) :=
    holds.hashed.lookupSlot_match present (beq_self_eq_true key) (fun _ _ => beq_iff_eq.mp)
      (holds.home_lt key)
  exact ⟨p, inside, by rw [holds.find_eq, found]; rfl, (lookupSlot_sound found).1⟩

/-- The probe for another key ends at the slot in which it belongs. -/
theorem Holds.find_absent (absent : map key = none) (room : m.count < m.capacity) :
    ∃ d < m.capacity, m.find key =
        some (slotAt m.capacity ((remapHash key).toNat % m.capacity) d) ∧
      m.slots (slotAt m.capacity ((remapHash key).toNat % m.capacity) d) = none ∧
      ∀ d' < d, m.slots (slotAt m.capacity ((remapHash key).toNat % m.capacity) d') ≠ none := by
  have others (other : UInt64) (stored : (map other).isSome) : (other == key) = false := by
    refine beq_eq_false_iff_ne.mpr ?_
    rintro rfl
    simp [absent] at stored
  obtain ⟨d, within, found, free, occupied⟩ := holds.hashed.lookupSlot_absent others
    (exists_none_of_taken (holds.taken_le.trans_lt room)) (holds.home_lt key)
  exact ⟨d, within, by rw [holds.find_eq, found]; rfl, free, occupied⟩

/-- **A lookup** ends and reads the map. -/
theorem Holds.lookup_eq (room : m.count < m.capacity) (key : UInt64) :
    lookup m key = some ((map key).getD 0) := by
  unfold lookup
  split_ifs with zero
  · rw [zero, holds.nonzero]
    rfl
  cases stored : map key with
  | none =>
    obtain ⟨d, -, found, free, -⟩ := holds.find_absent stored room
    simp [found, Remap.keys_eq_zero_iff, free]
  | some value =>
    obtain ⟨p, inside, found, here⟩ := holds.find_stored stored
    have read := holds.reads p inside key here
    rw [stored] at read
    simp [found, Remap.keys_eq_zero_iff, here, Option.some.inj read]

/-- A table in which one slot is written stands for the map with the entry. -/
theorem Holds.written {m' : Remap} {p : Nat} (capacity : m'.capacity = m.capacity)
    (slots : m'.slots = update m.slots p (some key)) (values : m'.values = update m.values p value)
    (notZero : key ≠ 0) (alone : ∀ q < m.capacity, m.slots q = some key → q = p)
    (taken_le : (taken m.capacity m'.slots).card ≤ m'.count)
    (hashed : Hashed m.capacity (fun key => (remapHash key).toNat % m.capacity) m'.slots
      fun other => (map other).isSome ∨ other = key) :
    Holds m' (update map key (some value)) := by
  refine ⟨capacity ▸ holds.power, capacity ▸ holds.large, capacity ▸ taken_le, ?_, ?_, ?_⟩
  · rw [update_of_ne notZero.symm, holds.nonzero]
  · rw [capacity]
    refine hashed.congr (fun other => ?_) fun _ _ => rfl
    by_cases same : other = key
    · simp [same]
    · simp [same]
  · intro q inside other here
    rw [slots] at here
    rw [values]
    by_cases same : q = p
    · rw [same, update_self] at here ⊢
      rw [← Option.some.inj here, update_self]
    rw [capacity] at inside
    rw [update_of_ne same] at here ⊢
    have apart : other ≠ key := by
      rintro rfl
      exact same (alone q inside here)
    rw [update_of_ne apart, holds.reads q inside other here]

/-- **Storing an entry** ends, without an abort. -/
theorem Holds.put (room : m.count < m.capacity) (notZero : key ≠ 0) (value : UInt64) :
    ∃ m', putUnchecked m key value = some m' ∧ Holds m' (update map key (some value)) ∧
      m'.capacity = m.capacity ∧ m'.rehashAt = m.rehashAt ∧ m'.count ≤ m.count + 1 := by
  rw [putUnchecked, if_neg (Nat.not_le_of_lt room)]
  cases stored : map key with
  | none =>
    obtain ⟨d, within, found, free, occupied⟩ := holds.find_absent stored room
    have hashed := holds.hashed.insert (by simp [stored]) within free occupied
    simp only [found, Option.map_some, Remap.keys_eq_zero_iff.mpr free, if_true]
    generalize slotAt m.capacity ((remapHash key).toNat % m.capacity) d = p at free hashed
    refine ⟨_, rfl, ?_, rfl, rfl, le_rfl⟩
    have slots : Remap.slots
        { m with
          keys := update m.keys p key, values := update m.values p value, count := m.count + 1 } =
        update m.slots p (some key) := by
      funext q
      by_cases same : q = p
      · simp [Remap.slots, same, notZero]
      · simp [Remap.slots, same]
    refine holds.written rfl slots rfl notZero (fun q inside here => ?_) ?_ (slots ▸ hashed)
    · cases stored.symm.trans (holds.reads q inside key here)
    · rw [slots]
      exact (taken_update_card m.capacity m.slots p key).trans (Nat.succ_le_succ holds.taken_le)
  | some old =>
    obtain ⟨p, inside, found, here⟩ := holds.find_stored stored
    have taken : m.keys p ≠ 0 := by simp [Remap.keys_eq_zero_iff, here]
    simp only [found, Option.map_some, if_neg taken]
    refine ⟨_, rfl, ?_, rfl, rfl, Nat.le_succ _⟩
    refine holds.written rfl (here ▸ update_eq_self p m.slots).symm rfl notZero
      (fun q inQ there => holds.hashed.unique q inQ p inside key there here) holds.taken_le ?_
    refine holds.hashed.congr (fun other => ?_) fun _ _ => rfl
    rw [iff_self_or]
    rintro rfl
    rw [stored]
    rfl

/-! ## Growing -/

/-- The loop inserts one slot after another: what is stored in the new table is stored in the old
one, and the entries of the first slots are. -/
theorem Holds.reinsert_upTo {capacity : Nat} (power : ∃ k, capacity = 2 ^ k)
    (larger : m.capacity < capacity) {p : Nat} (upTo : p ≤ m.capacity) :
    ∃ m' map', (List.range p).foldlM (reinsert m) (.empty capacity) = some m' ∧ Holds m' map' ∧
      (∀ key value, map' key = some value → map key = some value) ∧
      (∀ q < p, ∀ key, m.slots q = some key → map' key = map key) ∧
      m'.capacity = capacity ∧ m'.rehashAt = rehashThreshold capacity ∧ m'.count ≤ p := by
  induction p with
  | zero =>
    have large := holds.large
    exact ⟨_, _, rfl, .empty power (by omega), nofun, nofun, rfl, rfl, le_rfl⟩
  | succ p ih =>
    obtain ⟨m', map', folded, holds', sound, complete, capacity', threshold, count⟩ :=
      ih (Nat.le_of_succ_le upTo)
    rw [range_succ, foldlM_append, folded]
    simp only [Option.bind_eq_bind, Option.bind_some, foldlM_cons, foldlM_nil, reinsert]
    cases here : m.slots p with
    | none =>
      rw [if_neg (not_not.mpr (Remap.keys_eq_zero_iff.mpr here))]
      refine ⟨m', map', rfl, holds', sound, fun q before key there => ?_, capacity', threshold,
        Nat.le_succ_of_le count⟩
      rcases Nat.lt_succ_iff_lt_or_eq.mp before with before | rfl
      · exact complete q before key there
      · cases here.symm.trans there
    | some key =>
      have notZero : m.keys p ≠ 0 := by simp [Remap.keys_eq_zero_iff, here]
      obtain rfl : m.keys p = key := by simpa [Remap.slots, notZero] using here
      have read := holds.reads p upTo _ here
      obtain ⟨m'', put, holds'', capacity'', threshold', count'⟩ :=
        holds'.put (by omega) notZero (m.values p)
      rw [if_pos notZero, put]
      refine ⟨m'', _, rfl, holds'', fun key value there => ?_, fun q before key there => ?_,
        capacity''.trans capacity', threshold'.trans threshold, by omega⟩
      · rw [update_apply] at there
        split_ifs at there with same
        · rw [same, read, there]
        · exact sound key value there
      · rw [update_apply]
        split_ifs with same
        · rw [same, read]
        rcases Nat.lt_succ_iff_lt_or_eq.mp before with before | rfl
        · exact complete q before key there
        · exact absurd (Option.some.inj (there.symm.trans here)) same

/-- **Growing** fails and changes nothing, or doubles the table. -/
theorem Holds.grow (outOfMemory : Bool) : grow outOfMemory m = some (false, m) ∨
    ∃ m', grow outOfMemory m = some (true, m') ∧ Holds m' map ∧
      m'.capacity = m.capacity * 2 ∧ m'.rehashAt = rehashThreshold (m.capacity * 2) ∧
      m'.count ≤ m.capacity := by
  unfold HandleRemap.grow
  simp only
  split_ifs with refused
  · exact .inl rfl
  obtain ⟨k, power⟩ := holds.power
  have large := holds.large
  have doubled : m.capacity * 2 = 2 ^ (k + 1) := by rw [power, Nat.pow_succ]
  have small : m.capacity * 2 % 2 ^ 64 = m.capacity * 2 := by
    refine Nat.mod_eq_of_lt (not_le.mp fun wraps => refused (.inl ?_))
    rw [doubled] at wraps ⊢
    rw [Nat.mod_eq_zero_of_dvd (Nat.pow_dvd_pow 2
      ((Nat.pow_le_pow_iff_right Nat.one_lt_two).mp wraps))]
    omega
  obtain ⟨m', map', folded, holds', sound, complete, rest⟩ := holds.reinsert_upTo
    ⟨k + 1, doubled⟩ (show m.capacity < m.capacity * 2 by omega) le_rfl
  have same : map' = map := by
    funext key
    cases stored : map key with
    | none =>
      refine Option.eq_none_iff_forall_ne_some.mpr fun value there => ?_
      cases stored.symm.trans (sound key value there)
    | some value =>
      obtain ⟨d, -, here, -⟩ := holds.hashed.placed key (by rw [stored]; rfl)
      rw [complete _ (slotAt_lt (by omega)) key here, stored]
  rw [small, folded]
  exact .inr ⟨m', rfl, same ▸ holds', rest⟩

end Holds

/-! ## Sequences of insertions -/

/-- The tables that insertions lead to, with the entries that were inserted, the latest first. Any
allocation may fail. -/
inductive Reached : List (UInt64 × UInt64) → Remap → Prop
  | create {outOfMemory : Bool} {capacity : Nat} {m : Remap} :
      create outOfMemory capacity = some m → Reached [] m
  | insert {outOfMemory : Bool} {history : List (UInt64 × UInt64)} {m m' : Remap}
      {key value : UInt64} {rc : Rc} : Reached history m →
      insert outOfMemory m key value = some (rc, m') →
      Reached (if rc = .ok then (key, value) :: history else history) m'

/-- Less than three quarters of a table are in use, and it stands for a map. -/
structure Good (m : Remap) (map : UInt64 → Option UInt64) : Prop extends Holds m map where
  threshold : m.rehashAt = rehashThreshold m.capacity
  load : m.count ≤ m.rehashAt

theorem rehashThreshold_eq (capacity : Nat) :
    rehashThreshold capacity = capacity - capacity / 4 := by
  rw [rehashThreshold, Nat.shiftRight_eq_div_pow]

theorem Good.room (good : Good m map) : m.count < m.capacity := by
  have load := good.load
  have large := good.large
  rw [good.threshold, rehashThreshold_eq] at load
  omega

/-- **One insertion** ends; it stores the entry, or fails and changes nothing. -/
theorem Good.insert (good : Good m map) (outOfMemory : Bool) (key value : UInt64) :
    ∃ rc m', insert outOfMemory m key value = some (rc, m') ∧
      if rc = .ok then Good m' (update map key (some value)) else m' = m := by
  unfold HandleRemap.insert
  split_ifs with zero full
  · exact ⟨.invalidArgs, m, rfl, rfl⟩
  · rcases good.grow outOfMemory with failed | ⟨m', grown, holds, capacity, threshold, count⟩
    · exact ⟨.oom, m, by rw [failed], rfl⟩
    have large := good.large
    obtain ⟨m'', put, holds', capacity', threshold', count'⟩ :=
      holds.put (by omega) zero value
    refine ⟨.ok, m'', by rw [grown]; simp [put], holds', ?_, ?_⟩
    · rw [threshold', threshold, capacity', capacity]
    · rw [threshold', threshold, rehashThreshold_eq]
      omega
  · obtain ⟨m', put, holds', capacity', threshold', count'⟩ := good.put good.room zero value
    refine ⟨.ok, m', by rw [put]; rfl, holds', ?_, ?_⟩
    · rw [threshold', good.threshold, capacity']
    · omega

theorem nextPow2_spec {x : Nat} (large : 16 ≤ x) (fits : x ≤ sizeMax) (some : nextPow2 x ≠ 0) :
    (∃ k, nextPow2 x = 2 ^ k) ∧ 16 ≤ nextPow2 x := by
  unfold nextPow2 at some ⊢
  split_ifs at some ⊢ with zero power
  · exact absurd rfl some
  · exact ⟨(Nat.and_sub_one_eq_zero_iff_isPowerOfTwo zero).mp power, large⟩
  have reached : x ≤ doubleUntil x 64 1 := le_doubleUntil_iff.mpr (by rw [sizeMax] at fits; omega)
  obtain ⟨j, upTo, doubled⟩ := doubleUntil_eq x 64 1
  rw [Nat.one_mul] at doubled
  rw [doubled] at some reached ⊢
  rcases Nat.lt_or_eq_of_le upTo with below | rfl
  · rw [Nat.mod_eq_of_lt (Nat.pow_lt_pow_right Nat.one_lt_two below)]
    exact ⟨⟨j, rfl⟩, large.trans reached⟩
  · exact absurd (Nat.mod_self _) some

theorem Good.create {outOfMemory : Bool} {capacity : Nat}
    (created : create outOfMemory capacity = some m) : Good m fun _ => none := by
  unfold HandleRemap.create at created
  by_cases wide : capacity > sizeMax / 2
  · cases (if_pos wide).symm.trans created
  have fits : max 16 (if capacity = 0 then 16 else capacity + capacity / 3 + 1) ≤ sizeMax := by
    unfold sizeMax at wide ⊢
    split_ifs <;> omega
  simp only [if_neg wide] at created
  generalize (if capacity = 0 then 16 else capacity + capacity / 3 + 1) = target at fits created
  split_ifs at created with failed
  obtain ⟨power, large⟩ := nextPow2_spec (le_max_left ..) fits (not_or.mp failed).1
  cases created
  exact ⟨.empty power large, rfl, Nat.zero_le _⟩

/-- Every table reached stands for the entries that were inserted. -/
theorem Reached.good {history : List (UInt64 × UInt64)} (reached : Reached history m) :
    Good m fun key => history.lookup key := by
  induction reached with
  | create created => exact .create created
  | @insert outOfMemory history m m' key value rc _ done ih =>
    obtain ⟨rc', m'', stored, result⟩ := ih.insert outOfMemory key value
    cases done.symm.trans stored
    split_ifs at result ⊢ with ok
    · convert result using 1
      funext other
      by_cases same : other = key
      · simp [same]
      · simp [lookup_cons, beq_eq_false_iff_ne.mpr same, same]
    · exact result ▸ ih

/-- **The table renames handles.** In every table that insertions lead to, with any allocations
failing, a lookup ends and answers with the value of the latest insertion of the key, or with 0 if
there was none. A further insertion ends; if it fails the table stays as it is. -/
theorem handle_remap_correct {history : List (UInt64 × UInt64)} (reached : Reached history m) :
    (∀ key, lookup m key = some ((history.lookup key).getD 0)) ∧
    ∀ outOfMemory key value, ∃ rc m', insert outOfMemory m key value = some (rc, m') ∧
      (rc ≠ .ok → m' = m) := by
  have good := reached.good
  refine ⟨good.lookup_eq good.room, fun outOfMemory key value => ?_⟩
  obtain ⟨rc, m', stored, result⟩ := good.insert outOfMemory key value
  exact ⟨rc, m', stored, fun failed => by rwa [if_neg failed] at result⟩

/-- Insertions of some entries, all of which succeed. -/
def insertAll (m : Remap) : List (UInt64 × UInt64) → Option Remap
  | [] => some m
  | entry :: rest =>
    match insert false m entry.1 entry.2 with
    | some (.ok, m) => insertAll m rest
    | _ => none

theorem Reached.insertAll {history entries : List (UInt64 × UInt64)} {m m' : Remap}
    (reached : Reached history m) (done : HandleRemap.insertAll m entries = some m') :
    Reached (entries.reverse ++ history) m' := by
  induction entries generalizing history m with
  | nil =>
    cases done
    exact reached
  | cons entry rest ih =>
    unfold HandleRemap.insertAll at done
    split at done
    · rename_i stored
      rw [reverse_cons, append_assoc]
      exact ih (.insert reached stored) done
    · cases done

/-- Thirteen handles, one more than fit the smallest table, and one of them once more. -/
def renamings : List (UInt64 × UInt64) :=
  (range 13).map (fun i => (.ofNat (i + 1), .ofNat (i + 101))) ++ [(1, 200)]

/-- The table grows, keeps what it holds, and a handle is renamed again. -/
theorem handle_remap_correct_grown : ∃ m, Reached renamings.reverse m ∧ m.capacity = 32 ∧
    lookup m 1 = some 200 ∧ lookup m 13 = some 113 ∧ lookup m 14 = some 0 := by
  have created : create false 0 = some (.empty 16) := by rfl
  have grown : (insertAll (.empty 16) renamings).map Remap.capacity = some 32 := by
    decide +kernel
  obtain ⟨m, done, capacity⟩ := Option.map_eq_some_iff.mp grown
  have reached := (Reached.create created).insertAll done
  rw [append_nil] at reached
  have lookups := (handle_remap_correct reached).1
  exact ⟨m, reached, capacity, lookups 1, lookups 13, lookups 14⟩

end Wirelog.Arena.HandleRemap

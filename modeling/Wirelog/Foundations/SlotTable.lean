import Mathlib

/-!
# Tables of optional slots with unique keys

A slot table is an array whose entries are free or hold a value, where no two
held values share a key. A value is looked up by its key, put in place of the
value with its key or else in the first free slot or at the end, taken out by
freeing its slot, and changed in place.

Every lookup fact is derived from one characterisation: a lookup returns a value
exactly when the table holds it and it has that key (`find_eq_some_iff`). The
three updates then have the lookups of a finite map (`find_put`, `find_erase`,
`find_modify`), whatever slots the values live in.
-/

set_option autoImplicit false

namespace Wirelog.Foundations

open List

universe u v

/-- Optional slots whose held values have pairwise distinct keys. -/
structure SlotTable {κ : Type u} {β : Type v} (key : β → κ) where
  slots : List (Option β)
  unique : slots.Pairwise fun a b => ∀ x ∈ a, ∀ y ∈ b, key x ≠ key y

namespace SlotTable

variable {κ : Type u} {β : Type v} {key : β → κ}

def empty : SlotTable key := ⟨[], List.Pairwise.nil⟩

def Holds (t : SlotTable key) (value : β) : Prop := some value ∈ t.slots

variable {t : SlotTable key}

theorem Holds.eq_of_key {x y : β} (hx : t.Holds x) (hy : t.Holds y) (same : key x = key y) :
    x = y := by
  obtain ⟨i, hi, atI⟩ := mem_iff_getElem.mp hx
  obtain ⟨j, hj, atJ⟩ := mem_iff_getElem.mp hy
  have separated := pairwise_iff_getElem.mp t.unique
  rcases lt_trichotomy i j with before | rfl | after
  · exact absurd same (separated i j hi hj before x (by simp [atI]) y (by simp [atJ]))
  · exact Option.some.inj (atI.symm.trans atJ)
  · exact absurd same.symm (separated j i hj hi after y (by simp [atJ]) x (by simp [atI]))

variable [DecidableEq κ]

def slotMatch (key : β → κ) (k : κ) (slot : Option β) : Option β :=
  slot.filter fun value => key value = k

/-- The first held value with a given key. -/
def find (t : SlotTable key) (k : κ) : Option β := t.slots.findSome? (slotMatch key k)

variable {value : β}

/-- **A lookup returns exactly the held value with that key.** -/
theorem find_eq_some_iff {k : κ} : t.find k = some value ↔ t.Holds value ∧ key value = k := by
  have sound : ∀ {w}, t.find k = some w → t.Holds w ∧ key w = k := by
    intro w found
    obtain ⟨slot, member, hit⟩ := exists_of_findSome?_eq_some found
    obtain ⟨rfl, keyed⟩ := Option.filter_eq_some_iff.mp hit
    exact ⟨member, by simpa using keyed⟩
  refine ⟨sound, fun ⟨held, keyed⟩ => ?_⟩
  have hit : slotMatch key k (some value) = some value := by
    simp [slotMatch, Option.filter, keyed]
  cases found : t.find k with
  | none => exact absurd hit (by simp [List.findSome?_eq_none_iff.mp found _ held])
  | some w =>
    obtain ⟨heldW, keyedW⟩ := sound found
    rw [heldW.eq_of_key held (keyedW.trans keyed.symm)]

theorem key_of_find {k : κ} (found : t.find k = some value) : key value = k :=
  (find_eq_some_iff.mp found).2

/-- Tables that hold the same values answer every lookup alike. -/
theorem find_congr {t t' : SlotTable key} {k : κ}
    (same : ∀ value, key value = k → (t.Holds value ↔ t'.Holds value)) :
    t.find k = t'.find k := by
  ext value
  rw [find_eq_some_iff, find_eq_some_iff]
  exact ⟨fun ⟨held, keyed⟩ => ⟨(same value keyed).mp held, keyed⟩,
    fun ⟨held, keyed⟩ => ⟨(same value keyed).mpr held, keyed⟩⟩

/-! ## Taking out -/

def erase (t : SlotTable key) (k : κ) : SlotTable key where
  slots := t.slots.map fun slot => slot.filter fun value => key value ≠ k
  unique := by
    refine pairwise_map.mpr (t.unique.imp fun separated x hx y hy => ?_)
    exact separated x (Option.filter_eq_some_iff.mp hx).1 y (Option.filter_eq_some_iff.mp hy).1

theorem holds_erase {k : κ} : (t.erase k).Holds value ↔ t.Holds value ∧ key value ≠ k := by
  constructor
  · intro held
    obtain ⟨slot, member, kept⟩ := mem_map.mp held
    obtain ⟨rfl, other⟩ := Option.filter_eq_some_iff.mp kept
    exact ⟨member, by simpa using other⟩
  · rintro ⟨held, other⟩
    exact mem_map.mpr ⟨some value, held, by simp [Option.filter, other]⟩

@[simp] theorem find_erase (t : SlotTable key) (k j : κ) :
    (t.erase k).find j = if j = k then none else t.find j := by
  split
  · subst j
    cases found : (t.erase k).find k with
    | none => rfl
    | some value =>
      obtain ⟨held, keyed⟩ := find_eq_some_iff.mp found
      exact absurd keyed (holds_erase.mp held).2
  · rename_i other
    exact find_congr fun value keyed => by simp [holds_erase, keyed, other]

/-! ## Changing in place -/

/-- Change every held value by a function that keeps keys. -/
def mapValues (t : SlotTable key) (f : β → β) (keeps : ∀ value, key (f value) = key value) :
    SlotTable key where
  slots := t.slots.map (Option.map f)
  unique := by
    refine pairwise_map.mpr (t.unique.imp fun separated x hx y hy => ?_)
    obtain ⟨x', hx', rfl⟩ := Option.map_eq_some_iff.mp hx
    obtain ⟨y', hy', rfl⟩ := Option.map_eq_some_iff.mp hy
    rw [keeps, keeps]
    exact separated x' hx' y' hy'

@[simp] theorem find_mapValues (t : SlotTable key) (f : β → β)
    (keeps : ∀ value, key (f value) = key value) (j : κ) :
    (t.mapValues f keeps).find j = (t.find j).map f := by
  have step : ∀ slot, slotMatch key j (Option.map f slot) = (slotMatch key j slot).map f := by
    intro slot
    cases slot with
    | none => rfl
    | some value => by_cases hit : key value = j <;> simp [slotMatch, Option.filter, keeps, hit]
  simp [find, mapValues, List.findSome?_map, Function.comp_def, step]

/-- A change of the value with key `k` alone keeps keys when the change does. -/
theorem keeps_at (k : κ) {f : β → β} (keeps : ∀ value, key value = k → key (f value) = k)
    (value : β) : key (if key value = k then f value else value) = key value := by
  split
  · rename_i hit
    rw [keeps value hit, hit]
  · rfl

/-- Change the value with a given key by a function that keeps this key. -/
def modify (t : SlotTable key) (k : κ) (f : β → β)
    (keeps : ∀ value, key value = k → key (f value) = k) : SlotTable key :=
  t.mapValues (fun value => if key value = k then f value else value) (keeps_at k keeps)

@[simp] theorem find_modify (t : SlotTable key) (k j : κ) (f : β → β)
    (keeps : ∀ value, key value = k → key (f value) = k) :
    (t.modify k f keeps).find j = if j = k then (t.find k).map f else t.find j := by
  rw [modify, find_mapValues]
  split
  · subst j
    cases found : t.find k with
    | none => rfl
    | some value => simp [key_of_find found]
  · rename_i other
    cases found : t.find j with
    | none => rfl
    | some value => simp [key_of_find found, other]

/-! ## Putting in -/

/-- Fill the first free slot, or extend the table by one slot. -/
def fillFree (value : β) : List (Option β) → List (Option β)
  | [] => [some value]
  | none :: rest => some value :: rest
  | some other :: rest => some other :: fillFree value rest

omit [DecidableEq κ] in
theorem mem_fillFree {value w : β} {slots : List (Option β)} :
    some w ∈ fillFree value slots ↔ w = value ∨ some w ∈ slots := by
  induction slots with
  | nil => simp [fillFree]
  | cons slot rest ih =>
    cases slot with
    | none => simp [fillFree]
    | some other =>
      simp only [fillFree, mem_cons, ih]
      tauto

omit [DecidableEq κ] in
theorem pairwise_fillFree {slots : List (Option β)}
    (unique : slots.Pairwise fun a b => ∀ x ∈ a, ∀ y ∈ b, key x ≠ key y)
    (fresh : ∀ w, some w ∈ slots → key w ≠ key value) :
    (fillFree value slots).Pairwise fun a b => ∀ x ∈ a, ∀ y ∈ b, key x ≠ key y := by
  induction slots with
  | nil => exact pairwise_singleton _ _
  | cons slot rest ih =>
    obtain ⟨separated, uniqueRest⟩ := pairwise_cons.mp unique
    cases slot with
    | none =>
      refine pairwise_cons.mpr ⟨?_, uniqueRest⟩
      rintro _ member x ⟨⟩ y rfl
      exact (fresh y (mem_cons_of_mem _ member)).symm
    | some other =>
      refine pairwise_cons.mpr
        ⟨?_, ih uniqueRest fun w member => fresh w (mem_cons_of_mem _ member)⟩
      rintro _ member x ⟨⟩ y rfl
      rcases mem_fillFree.mp member with rfl | member
      · exact fresh other mem_cons_self
      · exact separated _ member other rfl y rfl

/-- Put a value in place of the held value with its key, or else in a free slot. -/
def put (t : SlotTable key) (value : β) : SlotTable key :=
  if held : (t.find (key value)).isSome then
    t.modify (key value) (fun _ => value) fun _ _ => rfl
  else
    { slots := fillFree value t.slots
      unique := by
        refine pairwise_fillFree t.unique fun w member same => held ?_
        rw [find_eq_some_iff.mpr ⟨member, same⟩]
        rfl }

@[simp] theorem find_put (t : SlotTable key) (value : β) (j : κ) :
    (t.put value).find j = if j = key value then some value else t.find j := by
  unfold put
  split
  · rename_i held
    obtain ⟨old, found⟩ := Option.isSome_iff_exists.mp held
    simp [found]
  split
  · rename_i same
    exact find_eq_some_iff.mpr ⟨mem_fillFree.mpr (Or.inl rfl), same.symm⟩
  rename_i other
  refine find_congr fun w keyed => mem_fillFree.trans (or_iff_right ?_)
  rintro rfl
  exact other keyed.symm

end SlotTable

end Wirelog.Foundations

import Mathlib

/-!
# Counting over heaps

A heap maps numbers to objects, of which only finitely many were ever allocated. `total` adds up a
number over the objects that are there, and the lemmas say how it changes when an object is
changed, freed or allocated (`total_change`, `total_free`, `total_allocate`).

`modifyEach` changes several objects one after the other, as a loop over pointers does, and has no
defined result when one of them is not there. Over different objects it does what it says
(`modifyEach_spec`).
-/

set_option autoImplicit false

namespace Wirelog.Foundations

open Function

section Total

variable {σ : Type*} (f : σ → Nat)

/-- The sum of a number over the objects below a bound. -/
def total (heap : Nat → Option σ) (next : Nat) : Nat :=
  ∑ i ∈ Finset.range next, (heap i).elim 0 f

variable {f} {heap : Nat → Option σ} {next i : Nat} {a b : σ}

/-- One summand is taken apart from the others. -/
theorem total_split (inside : i < next) :
    total f heap next = (heap i).elim 0 f + ∑ j ∈ (Finset.range next).erase i, (heap j).elim 0 f :=
  (Finset.add_sum_erase _ _ (Finset.mem_range.mpr inside)).symm

theorem total_update (heap : Nat → Option σ) (inside : i < next) (content : Option σ) :
    total f (update heap i content) next + (heap i).elim 0 f =
      total f heap next + content.elim 0 f := by
  have rest : ∑ j ∈ (Finset.range next).erase i,
      (update heap i content j).elim 0 f =
        ∑ j ∈ (Finset.range next).erase i, (heap j).elim 0 f := by
    refine Finset.sum_congr rfl ?_
    intro j member
    rw [update_of_ne (Finset.ne_of_mem_erase member)]
  rw [total_split inside, total_split inside, rest, update_self]
  omega

section

variable (inside : i < next) (present : heap i = some a)

include inside present

theorem total_change : total f (update heap i (some b)) next + f a = total f heap next + f b := by
  have := total_update (f := f) heap inside (some b)
  rwa [present] at this

/-- An object is changed in a way that does not matter to the sum. -/
theorem total_same (same : f b = f a) :
    total f (update heap i (some b)) next = total f heap next := by
  have := total_change (f := f) (b := b) inside present
  omega

theorem total_free : total f (update heap i none) next + f a = total f heap next := by
  have := total_update (f := f) heap inside none
  rwa [present] at this

end

theorem total_allocate :
    total f (update heap next (some b)) (next + 1) = total f heap next + f b := by
  rw [total, Finset.sum_range_succ, update_self]
  congr 1
  refine Finset.sum_congr rfl ?_
  intro j member
  rw [update_of_ne (Finset.mem_range.mp member).ne]

theorem le_total (inside : i < next) (present : heap i = some a) : f a ≤ total f heap next := by
  rw [total_split inside, present]
  exact Nat.le_add_right _ _

theorem total_eq_zero (none : ∀ i a, heap i = some a → f a = 0) : total f heap next = 0 := by
  refine Finset.sum_eq_zero ?_
  intro i _
  cases present : heap i with
  | none => rfl
  | some a => exact none i a present

end Total

section Modify

variable {α β : Type*} (key : β → Nat) (change : β → α → α)

/-- Changes the objects that the items of a list name, one after the other. -/
def modifyEach : List β → (Nat → Option α) → Option (Nat → Option α)
  | [], heap => some heap
  | item :: items, heap =>
    match heap (key item) with
    | none => none
    | some a => modifyEach items (update heap (key item) (some (change item a)))

variable {key} {items : List β} {heap : Nat → Option α}

/-- **Different objects that are there are all changed, each once.** -/
theorem modifyEach_spec (distinct : (items.map key).Nodup)
    (present : ∀ item ∈ items, (heap (key item)).isSome) :
    ∃ heap', modifyEach key change items heap = some heap' ∧
      (∀ item ∈ items, heap' (key item) = (heap (key item)).map (change item)) ∧
      ∀ i ∉ items.map key, heap' i = heap i := by
  induction items generalizing heap with
  | nil => exact ⟨heap, rfl, nofun, fun _ _ => rfl⟩
  | cons item items ih =>
    obtain ⟨fresh, distinct⟩ := List.nodup_cons.mp distinct
    obtain ⟨a, here⟩ := Option.isSome_iff_exists.mp (present item List.mem_cons_self)
    have apart : ∀ other ∈ items, key other ≠ key item := by
      intro other member same
      exact fresh (same ▸ List.mem_map_of_mem member)
    have present' : ∀ other ∈ items,
        (update heap (key item) (some (change item a)) (key other)).isSome := by
      intro other member
      rw [update_of_ne (apart other member)]
      exact present other (List.mem_cons_of_mem _ member)
    obtain ⟨heap', done, changed, kept⟩ := ih distinct present'
    refine ⟨heap', by rw [modifyEach, here]; exact done, ?_, ?_⟩
    · intro other member
      rcases List.mem_cons.mp member with rfl | later
      · rw [kept _ fresh, update_self, here, Option.map_some]
      · rw [changed other later, update_of_ne (apart other later)]
    · intro i outside
      rw [List.map_cons, List.mem_cons, not_or] at outside
      rw [kept i outside.2, update_of_ne outside.1]

/-- What no change affects stays the same in every object. -/
theorem modifyEach_map {γ : Type*} (view : α → γ) (same : ∀ item a, view (change item a) = view a)
    {heap' : Nat → Option α} (done : modifyEach key change items heap = some heap') (i : Nat) :
    (heap' i).map view = (heap i).map view := by
  induction items generalizing heap with
  | nil => rw [Option.some.inj done]
  | cons item items ih =>
    rw [modifyEach] at done
    split at done
    · cases done
    rename_i a here
    rw [ih done, update_apply]
    split_ifs with equal
    · rw [equal, here, Option.map_some, Option.map_some, same]
    · rfl

end Modify

end Wirelog.Foundations

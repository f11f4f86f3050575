import Mathlib

/-!
# Ring buffers

A buffer of a fixed number of slots in which the stored items stand one after another, from
the head on and around the end of the slots. Adding an item at the tail and taking one from the
head act on the stored items as on a queue (`RingBuffer.Holds.enqueue`, `RingBuffer.Holds.dequeue`).
-/

set_option autoImplicit false

namespace Wirelog.Foundations

/-- The slots of a ring buffer, the next slot to take from, the next slot to fill, and the
number of items. -/
structure RingBuffer (α : Type*) where
  slots : Nat → α
  head : Nat
  tail : Nat
  count : Nat

namespace RingBuffer

variable {α : Type*} {capacity : Nat} {ring : RingBuffer α} {items : List α}

def enqueue (capacity : Nat) (ring : RingBuffer α) (item : α) : RingBuffer α where
  slots := Function.update ring.slots ring.tail item
  head := ring.head
  tail := (ring.tail + 1) % capacity
  count := ring.count + 1

def front (ring : RingBuffer α) : α := ring.slots ring.head

def dequeue (capacity : Nat) (ring : RingBuffer α) : RingBuffer α where
  slots := ring.slots
  head := (ring.head + 1) % capacity
  tail := ring.tail
  count := ring.count - 1

/-- The buffer stores these items, in this order. -/
structure Holds (capacity : Nat) (ring : RingBuffer α) (items : List α) : Prop where
  head_lt : ring.head < capacity
  tail_eq : ring.tail = (ring.head + ring.count) % capacity
  count_eq : ring.count = items.length
  count_le : ring.count ≤ capacity
  slot : ∀ i (inside : i < items.length), ring.slots ((ring.head + i) % capacity) = items[i]

/-- A buffer with equal head and tail and no items is empty. -/
theorem Holds.empty (positive : 0 < capacity) (slots : Nat → α) :
    Holds capacity ⟨slots, 0, 0, 0⟩ [] where
  head_lt := positive
  tail_eq := by simp
  count_eq := rfl
  count_le := Nat.zero_le _
  slot i inside := absurd inside (Nat.not_lt_zero i)

/-- Slots at different distances from the head are different. -/
theorem slot_ne {head i j : Nat} (lower : i < j) (upper : j < capacity) :
    (head + i) % capacity ≠ (head + j) % capacity := by
  intro same
  have close : i % capacity = j % capacity := Nat.ModEq.add_left_cancel' head same
  rw [Nat.mod_eq_of_lt (lower.trans upper), Nat.mod_eq_of_lt upper] at close
  omega

theorem Holds.enqueue (holds : Holds capacity ring items) (room : ring.count < capacity)
    (item : α) : Holds capacity (ring.enqueue capacity item) (items ++ [item]) where
  head_lt := holds.head_lt
  tail_eq := by
    simp [RingBuffer.enqueue, holds.tail_eq, Nat.add_assoc]
  count_eq := by simp [RingBuffer.enqueue, holds.count_eq]
  count_le := room
  slot i inside := by
    simp only [RingBuffer.enqueue, holds.tail_eq, holds.count_eq]
    rw [holds.count_eq] at room
    rw [List.length_append, List.length_singleton] at inside
    rcases Nat.lt_succ_iff_lt_or_eq.mp inside with old | rfl
    · rw [Function.update_of_ne (slot_ne old room), List.getElem_append_left old]
      exact holds.slot i old
    · simp

theorem Holds.front {item : α} (holds : Holds capacity ring (item :: items)) :
    ring.front = item := by
  have first := holds.slot 0 (Nat.zero_lt_succ _)
  rwa [Nat.add_zero, Nat.mod_eq_of_lt holds.head_lt] at first

theorem Holds.dequeue {item : α} (holds : Holds capacity ring (item :: items)) :
    Holds capacity (ring.dequeue capacity) items where
  head_lt := Nat.mod_lt _ (Nat.zero_lt_of_lt holds.head_lt)
  tail_eq := by
    have count := holds.count_eq
    rw [List.length_cons] at count
    simp only [RingBuffer.dequeue, Nat.mod_add_mod, holds.tail_eq]
    congr 1
    omega
  count_eq := by simp [RingBuffer.dequeue, holds.count_eq]
  count_le := (Nat.sub_le _ _).trans holds.count_le
  slot i inside := by
    have later := holds.slot (i + 1) (Nat.succ_lt_succ inside)
    rw [List.getElem_cons_succ] at later
    rw [← later]
    simp only [RingBuffer.dequeue, Nat.mod_add_mod]
    congr 2
    omega

end RingBuffer

end Wirelog.Foundations

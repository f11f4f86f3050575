import Mathlib

/-!
# Blocks laid out one after the other

A bump allocator gives each block the address at which the last one ends. `offsetsFrom` lists the
addresses of blocks of given sizes. Blocks of positive size have increasing addresses
(`offsetsFrom_pairwise`), so a scan for an address finds its block (`scan_offsetsFrom`), a block
ends where the next one begins (`block_end`), and two blocks share no address
(`offsetsFrom_disjoint`).
-/

set_option autoImplicit false

namespace Wirelog.Foundations

open List

/-- The addresses of blocks of the given sizes, the first of which starts at `start`. -/
def offsetsFrom : Nat → List Nat → List Nat
  | _, [] => []
  | start, size :: sizes => start :: offsetsFrom (start + size) sizes

section Offsets

variable {start : Nat} {sizes : List Nat}

@[simp] theorem length_offsetsFrom : (offsetsFrom start sizes).length = sizes.length := by
  induction sizes generalizing start with
  | nil => rfl
  | cons size sizes ih => rw [offsetsFrom, length_cons, length_cons, ih]

/-- A new block starts where the last one ends. -/
theorem offsetsFrom_append (size : Nat) :
    offsetsFrom start (sizes ++ [size]) = offsetsFrom start sizes ++ [start + sizes.sum] := by
  induction sizes generalizing start with
  | nil => rfl
  | cons first sizes ih =>
    rw [cons_append, offsetsFrom, ih, offsetsFrom, cons_append, sum_cons, Nat.add_assoc]

/-- The address of a block is the start and the sizes of the blocks before it. -/
theorem getElem_offsetsFrom {i : Nat} (inside : i < (offsetsFrom start sizes).length) :
    (offsetsFrom start sizes)[i] = start + (sizes.take i).sum := by
  induction sizes generalizing start i with
  | nil => exact absurd inside (Nat.not_lt_zero i)
  | cons size sizes ih =>
    cases i with
    | zero => rfl
    | succ i =>
      have inside' : i < (offsetsFrom (start + size) sizes).length :=
        Nat.lt_of_succ_lt_succ inside
      calc (offsetsFrom (start + size) sizes)[i]
          = start + size + (sizes.take i).sum := ih inside'
        _ = start + ((size :: sizes).take (i + 1)).sum := by
            rw [take_succ_cons, sum_cons, Nat.add_assoc]

/-- The sizes of the blocks before two blocks. -/
theorem sum_take_add_le {i j : Nat} (before : i < j) (inside : i < sizes.length) :
    (sizes.take i).sum + sizes[i] ≤ (sizes.take j).sum := by
  have next : (sizes.take (i + 1)).sum = (sizes.take i).sum + sizes[i] := by
    rw [take_succ_eq_append_getElem inside, sum_append, sum_singleton]
  have step : sizes.take (i + 1) = (sizes.take j).take (i + 1) := by
    rw [take_take, Nat.min_eq_left before]
  have parts : ((sizes.take j).take (i + 1)).sum + ((sizes.take j).drop (i + 1)).sum =
      (sizes.take j).sum := by
    rw [← sum_append, take_append_drop]
  rw [← next, step]
  omega

/-- **Two blocks share no address.** -/
theorem offsetsFrom_disjoint (start : Nat) {i j : Nat} (before : i < j)
    (inside : j < sizes.length) :
    start + (sizes.take i).sum + sizes[i] ≤ start + (sizes.take j).sum := by
  have := sum_take_add_le before (before.trans inside)
  omega

theorem block_le_end (start : Nat) {i : Nat} (inside : i < sizes.length) :
    start + (sizes.take i).sum + sizes[i] ≤ start + sizes.sum := by
  have := sum_take_add_le inside inside
  rw [take_length] at this
  omega

/-- A block ends where the next one begins, and the last one at the end of all. -/
theorem block_end {i : Nat} (inside : i < sizes.length) :
    ((offsetsFrom start sizes)[i + 1]?).getD (start + sizes.sum) =
      start + (sizes.take i).sum + sizes[i] := by
  have next : (sizes.take (i + 1)).sum = (sizes.take i).sum + sizes[i] := by
    rw [take_succ_eq_append_getElem inside, sum_append, sum_singleton]
  rcases Nat.lt_or_ge (i + 1) sizes.length with more | last
  · have bound : i + 1 < (offsetsFrom start sizes).length := by rwa [length_offsetsFrom]
    rw [List.getElem?_eq_getElem bound, Option.getD_some, getElem_offsetsFrom, next, Nat.add_assoc]
  rw [List.getElem?_eq_none (by simpa using last), Option.getD_none]
  rw [take_of_length_le last] at next
  omega

theorem offsetsFrom_pairwise (start : Nat) (positive : ∀ size ∈ sizes, 0 < size) :
    (offsetsFrom start sizes).Pairwise (· < ·) := by
  rw [pairwise_iff_getElem]
  intro i j inI inJ before
  rw [getElem_offsetsFrom, getElem_offsetsFrom]
  rw [length_offsetsFrom] at inI inJ
  have here := positive _ (getElem_mem inI)
  have := offsetsFrom_disjoint start before inJ
  omega

theorem scan_offsetsFrom (positive : ∀ size ∈ sizes, 0 < size) {i : Nat}
    (inside : i < sizes.length) :
    (offsetsFrom start sizes).findIdx? (· == start + (sizes.take i).sum) = some i := by
  have bound : i < (offsetsFrom start sizes).length := by rwa [length_offsetsFrom]
  rw [List.findIdx?_eq_some_iff_getElem]
  refine ⟨bound, by rw [getElem_offsetsFrom, beq_self_eq_true], ?_⟩
  intro j before
  have bound' : j < (offsetsFrom start sizes).length := before.trans bound
  have := pairwise_iff_getElem.mp (offsetsFrom_pairwise start positive) j i bound' bound before
  rw [getElem_offsetsFrom, getElem_offsetsFrom] at this
  rw [getElem_offsetsFrom]
  simpa using this.ne

end Offsets

end Wirelog.Foundations

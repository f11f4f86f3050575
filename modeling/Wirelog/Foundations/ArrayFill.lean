import Mathlib

/-!
# Filling arrays

Two ways in which loops write arrays. A fill goes over items and writes each one to the next free
slot of its bucket, so that in the end the slots of a bucket hold its items in order
(`cells_fill`), provided that no slot is shared. A block copy writes a range, and blocks that are
copied one after the other stand one after the other (`copyBlocks_add`).
-/

set_option autoImplicit false

namespace Wirelog.Foundations

open List Function

/-! ## Fills by bucket -/

section Fill

variable {ι β σ α : Type*} [DecidableEq β] [DecidableEq σ]

/-- How many slots of each bucket are used, and what the slots hold. -/
structure FillState (β σ α : Type*) where
  offsets : β → Nat
  cells : σ → α

def fillStep (bucket : ι → β) (value : ι → α) (slot : β → Nat → σ) (state : FillState β σ α)
    (item : ι) : FillState β σ α where
  offsets := update state.offsets (bucket item) (state.offsets (bucket item) + 1)
  cells := update state.cells (slot (bucket item) (state.offsets (bucket item))) (value item)

/-- Write items one after the other, from empty buckets on. -/
def fill (bucket : ι → β) (value : ι → α) (slot : β → Nat → σ) (cells : σ → α)
    (items : List ι) : FillState β σ α :=
  items.foldl (fillStep bucket value slot) ⟨fun _ => 0, cells⟩

variable {bucket : ι → β} {value : ι → α} {slot : β → Nat → σ} {cells : σ → α} {items : List ι}

theorem fill_concat (item : ι) :
    fill bucket value slot cells (items ++ [item]) =
      fillStep bucket value slot (fill bucket value slot cells items) item := by
  simp [fill]

def inBucket (bucket : ι → β) (items : List ι) (b : β) : List ι :=
  items.filter fun item => bucket item = b

theorem inBucket_concat_self (item : ι) :
    inBucket bucket (items ++ [item]) (bucket item) =
      inBucket bucket items (bucket item) ++ [item] := by
  simp [inBucket]

theorem inBucket_concat_ne {item : ι} {b : β} (apart : bucket item ≠ b) :
    inBucket bucket (items ++ [item]) b = inBucket bucket items b := by
  simp [inBucket, apart]

theorem offsets_fill (b : β) :
    (fill bucket value slot cells items).offsets b = (inBucket bucket items b).length := by
  induction items using List.reverseRecOn with
  | nil => rfl
  | append_singleton items item ih =>
    rw [fill_concat, fillStep]
    by_cases same : bucket item = b
    · subst same
      rw [inBucket_concat_self, length_append]
      simp [ih]
    · rw [inBucket_concat_ne same, ← ih]
      exact update_of_ne (Ne.symm same) _ _

/-- No slot that is used is shared. -/
def Separate (bucket : ι → β) (slot : β → Nat → σ) (items : List ι) : Prop :=
  ∀ b j b' j', j < (inBucket bucket items b).length → j' < (inBucket bucket items b').length →
    slot b j = slot b' j' → b = b' ∧ j = j'

omit [DecidableEq σ] in
/-- Fewer items use fewer slots. -/
theorem Separate.of_concat {item : ι} (separate : Separate bucket slot (items ++ [item])) :
    Separate bucket slot items := by
  have more (b : β) :
      (inBucket bucket items b).length ≤ (inBucket bucket (items ++ [item]) b).length := by
    simp [inBucket]
  intro b j b' j' inside inside' same
  exact separate b j b' j' (inside.trans_le (more b)) (inside'.trans_le (more b')) same

/-- **The slots of a bucket hold its items in order.** -/
theorem cells_fill (separate : Separate bucket slot items) {b : β} {j : Nat} {item : ι}
    (here : (inBucket bucket items b)[j]? = some item) :
    (fill bucket value slot cells items).cells (slot b j) = value item := by
  induction items using List.reverseRecOn generalizing b j item with
  | nil => simp [inBucket] at here
  | append_singleton items last ih =>
    have lastInside : (inBucket bucket items (bucket last)).length <
        (inBucket bucket (items ++ [last]) (bucket last)).length := by
      rw [inBucket_concat_self]
      simp
    have inside := (List.getElem?_eq_some_iff.mp here).1
    rw [fill_concat, fillStep, offsets_fill]
    by_cases same : slot b j = slot (bucket last) (inBucket bucket items (bucket last)).length
    · obtain ⟨rfl, rfl⟩ := separate _ _ _ _ inside lastInside same
      rw [inBucket_concat_self, List.getElem?_concat_length] at here
      simp [Option.some.inj here]
    refine (update_of_ne same _ _).trans (ih separate.of_concat ?_)
    by_cases own : bucket last = b
    · subst own
      have before : j ≠ (inBucket bucket items (bucket last)).length := by
        rintro rfl
        exact same rfl
      rw [inBucket_concat_self] at here inside
      rw [length_append, length_singleton] at inside
      rwa [List.getElem?_append_left (by omega)] at here
    · rwa [inBucket_concat_ne own] at here

end Fill

/-! ## Block copies -/

section Blocks

variable {ι α γ : Type*}

/-- Write `n` values from a position on. -/
def copyBlock (dst : Nat → α) (start n : Nat) (src : Nat → α) : Nat → α :=
  fun k => if start ≤ k ∧ k < start + n then src (k - start) else dst k

theorem copyBlock_add {dst src : Nat → α} {start n j : Nat} (inside : j < n) :
    copyBlock dst start n src (start + j) = src j := by
  rw [copyBlock, if_pos (by omega), Nat.add_sub_cancel_left]

theorem copyBlock_of_lt {dst src : Nat → α} {start n k : Nat} (before : k < start) :
    copyBlock dst start n src k = dst k :=
  if_neg (by omega)

variable (size : ι → Nat)

/-- The places that blocks take together. -/
def totalSize (items : List ι) : Nat := (items.map size).sum

@[simp] theorem totalSize_nil : totalSize size [] = 0 := rfl

@[simp] theorem totalSize_cons (item : ι) (items : List ι) :
    totalSize size (item :: items) = size item + totalSize size items := by
  simp [totalSize]

/-- Blocks copied one after the other; the place of an item without a block is left alone. -/
def copyBlocks (block : ι → Option (Nat → α)) : List ι → Nat → (Nat → α) → Nat → α
  | [], _, dst => dst
  | item :: rest, start, dst =>
    copyBlocks block rest (start + size item) (match block item with
      | some src => copyBlock dst start (size item) src
      | none => dst)

variable {size} {block : ι → Option (Nat → α)} {items : List ι} {start : Nat} {dst : Nat → α}

/-- What stands before the blocks is left alone. -/
theorem copyBlocks_of_lt {k : Nat} (before : k < start) :
    copyBlocks size block items start dst k = dst k := by
  induction items generalizing start dst with
  | nil => rfl
  | cons item rest ih =>
    rw [copyBlocks, ih (by omega)]
    cases block item with
    | none => rfl
    | some src => exact copyBlock_of_lt before

theorem copyBlocks_add {before after : List ι} {item : ι} {src : Nat → α}
    (own : block item = some src) {j : Nat} (inside : j < size item) :
    copyBlocks size block (before ++ item :: after) start dst
      (start + (totalSize size before + j)) = src j := by
  induction before generalizing start dst with
  | nil =>
    rw [nil_append, copyBlocks, copyBlocks_of_lt (by simpa using inside), own]
    simpa using copyBlock_add inside
  | cons first rest ih =>
    have place : start + (totalSize size (first :: rest) + j) =
        start + size first + (totalSize size rest + j) := by
      rw [totalSize_cons]
      omega
    rw [cons_append, copyBlocks, place]
    exact ih

/-- A function on all places is given by what it is on each block. -/
theorem map_range_totalSize {f : Nat → γ} {g : ι → Nat → γ}
    (agree : ∀ before item after, items = before ++ item :: after → ∀ j < size item,
      f (totalSize size before + j) = g item j) :
    (List.range (totalSize size items)).map f =
      items.flatMap fun item => (List.range (size item)).map (g item) := by
  induction items generalizing f with
  | nil => rfl
  | cons first rest ih =>
    rw [totalSize_cons, range_add, map_append, map_map, flatMap_cons]
    congr 1
    · refine map_congr_left fun j member => ?_
      simpa using agree [] first rest rfl j (mem_range.mp member)
    · refine ih fun before item after split j inside => ?_
      have here := agree (first :: before) item after (by rw [split]; rfl) j inside
      rwa [totalSize_cons, Nat.add_assoc] at here

end Blocks

end Wirelog.Foundations

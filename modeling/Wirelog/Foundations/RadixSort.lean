import Mathlib

/-!
# Radix sort from the least significant digit

One pass distributes a list over buckets by a digit, in the order of the digits and stably within
a bucket (`distribute`); a pass in which all digits are equal is skipped (`radixPass`). A pass
turns a list that is ordered by what it was sorted by before into one that is ordered by the
digit first and by that second (`radixPass_pairwise`). Running the digits of a number in a base
from the lowest to the highest orders the list by the number (`radixDigits_pairwise`), and
running several keys from the last to the first orders it by the keys from the first to the last
(`radixKeys_pairwise`).
-/

set_option autoImplicit false

namespace Wirelog.Foundations

open List

variable {α : Type*}

variable {xs : List α} {after : α → α → Prop} {base buckets : Nat} {digit : α → Nat}

/-- Ordered by a key, and among equal keys by a relation. -/
def ByKey (key : α → Nat) (after : α → α → Prop) (x y : α) : Prop :=
  key x < key y ∨ key x = key y ∧ after x y

/-! ## One pass -/

def distribute (buckets : Nat) (digit : α → Nat) (xs : List α) : List α :=
  (List.range buckets).flatMap fun d => xs.filter (digit · == d)

/-- One pass, skipped when the digit of all elements is that of the first one. -/
def radixPass (buckets : Nat) (digit : α → Nat) (xs : List α) : List α :=
  match xs with
  | [] => []
  | x :: rest => if rest.all (digit · == digit x) then xs else distribute buckets digit xs

theorem distribute_succ (buckets : Nat) (digit : α → Nat) (xs : List α) :
    distribute (buckets + 1) digit xs =
      distribute buckets digit xs ++ xs.filter (digit · == buckets) := by
  simp [distribute, range_succ]

theorem digit_lt_of_mem {x : α} (member : x ∈ distribute buckets digit xs) :
    digit x < buckets := by
  simp only [distribute, mem_flatMap, mem_range, mem_filter, beq_iff_eq] at member
  obtain ⟨d, small, -, rfl⟩ := member
  exact small

/-- The first buckets hold the elements with small digits. -/
theorem distribute_perm_filter (buckets : Nat) (digit : α → Nat) (xs : List α) :
    (distribute buckets digit xs).Perm (xs.filter (digit · < buckets)) := by
  induction buckets with
  | zero => simp [distribute]
  | succ buckets ih =>
    rw [distribute_succ]
    have split : xs.filter (digit · == buckets) =
        (xs.filter (digit · < buckets + 1)).filter (fun x => !decide (digit x < buckets)) := by
      rw [filter_filter]
      apply filter_congr
      intro x _
      rw [Bool.eq_iff_iff]
      simp only [beq_iff_eq, Bool.and_eq_true, Bool.not_eq_true', decide_eq_false_iff_not,
        decide_eq_true_eq]
      omega
    have low : xs.filter (digit · < buckets) =
        (xs.filter (digit · < buckets + 1)).filter (fun x => decide (digit x < buckets)) := by
      rw [filter_filter]
      apply filter_congr
      intro x _
      rw [Bool.eq_iff_iff]
      simp only [Bool.and_eq_true, decide_eq_true_eq]
      omega
    refine (ih.append (.refl _)).trans ?_
    rw [split, low]
    exact filter_append_perm _ _

theorem distribute_perm
    (small : ∀ x ∈ xs, digit x < buckets) : (distribute buckets digit xs).Perm xs := by
  have all : xs.filter (digit · < buckets) = xs :=
    filter_eq_self.mpr fun x member => decide_eq_true (small x member)
  have perm := distribute_perm_filter buckets digit xs
  rwa [all] at perm

theorem distribute_pairwise (ordered : xs.Pairwise after) (buckets : Nat) (digit : α → Nat) :
    (distribute buckets digit xs).Pairwise (ByKey digit after) := by
  induction buckets with
  | zero => simp [distribute]
  | succ buckets ih =>
    rw [distribute_succ]
    refine pairwise_append.mpr ⟨ih, ?_, ?_⟩
    · -- within a bucket the order stays
      refine (ordered.filter _).imp_of_mem ?_
      intro x y inX inY later
      have digitX := beq_iff_eq.mp (mem_filter.mp inX).2
      have digitY := beq_iff_eq.mp (mem_filter.mp inY).2
      exact .inr ⟨digitX.trans digitY.symm, later⟩
    · intro x inX y inY
      have digitY := beq_iff_eq.mp (mem_filter.mp inY).2
      exact .inl (digitY ▸ digit_lt_of_mem inX)

theorem radixPass_perm
    (small : ∀ x ∈ xs, digit x < buckets) : (radixPass buckets digit xs).Perm xs := by
  cases xs with
  | nil => exact .refl _
  | cons x xs =>
    rw [radixPass]
    split_ifs
    · exact .refl _
    · exact distribute_perm small

/-- **A pass orders by its digit and keeps the order among equal digits.** -/
theorem radixPass_pairwise (ordered : xs.Pairwise after) (buckets : Nat) (digit : α → Nat) :
    (radixPass buckets digit xs).Pairwise (ByKey digit after) := by
  cases xs with
  | nil => exact .nil
  | cons x xs =>
    rw [radixPass]
    split_ifs with uniform
    · have same : ∀ y ∈ x :: xs, digit y = digit x := by
        intro y member
        rcases mem_cons.mp member with rfl | later
        · rfl
        · exact beq_iff_eq.mp (all_eq_true.mp uniform y later)
      refine ordered.imp_of_mem ?_
      intro y z inY inZ later
      exact .inr ⟨(same y inY).trans (same z inZ).symm, later⟩
    · exact distribute_pairwise ordered buckets digit

/-! ## The digits of a number -/

def radixDigits (base passes : Nat) (key : α → Nat) (xs : List α) : List α :=
  (List.range passes).foldl (fun xs p => radixPass base (fun x => key x / base ^ p % base) xs) xs

theorem radixDigits_succ (base passes : Nat) (key : α → Nat) (xs : List α) :
    radixDigits base (passes + 1) key xs =
      radixPass base (fun x => key x / base ^ passes % base) (radixDigits base passes key xs) := by
  simp [radixDigits, range_succ]

section

variable (positive : 0 < base)

include positive

variable (passes : Nat)

theorem radixDigits_perm (key : α → Nat) (xs : List α) :
    (radixDigits base passes key xs).Perm xs := by
  induction passes with
  | zero => exact .refl _
  | succ passes ih =>
    rw [radixDigits_succ]
    exact (radixPass_perm fun x _ => Nat.mod_lt _ positive).trans ih

/-- A higher digit decides before the lower ones. -/
theorem ByKey.of_digit {passes : Nat} {key : α → Nat} {x y : α}
    (ordered : ByKey (fun x => key x / base ^ passes % base)
      (ByKey (fun x => key x % base ^ passes) after) x y) :
    ByKey (fun x => key x % base ^ (passes + 1)) after x y := by
  have size : 0 < base ^ passes := Nat.pow_pos positive
  have lowX : key x % base ^ passes < base ^ passes := Nat.mod_lt _ size
  have lowY : key y % base ^ passes < base ^ passes := Nat.mod_lt _ size
  simp only [ByKey, Nat.mod_pow_succ] at ordered ⊢
  generalize key x / base ^ passes % base = digitX at ordered ⊢
  generalize key y / base ^ passes % base = digitY at ordered ⊢
  generalize base ^ passes = place at *
  rcases ordered with below | ⟨same, rest⟩
  · left
    have step : place * (digitX + 1) ≤ place * digitY := Nat.mul_le_mul_left _ below
    rw [Nat.mul_add, Nat.mul_one] at step
    omega
  · rw [same]
    rcases rest with below | ⟨equal, later⟩
    · exact .inl (by omega)
    · exact .inr ⟨by omega, later⟩

/-- **The passes over the digits order by the number that the digits make up.** -/
theorem radixDigits_pairwise (key : α → Nat) (ordered : xs.Pairwise after) :
    (radixDigits base passes key xs).Pairwise (ByKey (fun x => key x % base ^ passes) after) := by
  induction passes with
  | zero =>
    refine ordered.imp ?_
    intro x y later
    exact .inr ⟨by simp [Nat.mod_one], later⟩
  | succ passes ih =>
    rw [radixDigits_succ]
    exact (radixPass_pairwise ih _ _).imp (ByKey.of_digit positive)

/-! ## Several keys -/

/-- The keys from the last to the first, each by its digits. -/
def radixKeys (base passes : Nat) (keys : List (α → Nat)) (xs : List α) : List α :=
  keys.foldr (fun key xs => radixDigits base passes key xs) xs

/-- Ordered by the keys from the first to the last. -/
def ByKeys : List (α → Nat) → α → α → Prop
  | [] => fun _ _ => True
  | key :: keys => ByKey key (ByKeys keys)

theorem radixKeys_perm (keys : List (α → Nat)) (xs : List α) :
    (radixKeys base passes keys xs).Perm xs := by
  induction keys with
  | nil => exact .refl _
  | cons key keys ih => exact (radixDigits_perm positive passes key _).trans ih

/-- Ordered by the keys from the first to the last, and among equal keys by a relation. -/
def ByKeysThen (after : α → α → Prop) : List (α → Nat) → α → α → Prop
  | [] => after
  | key :: keys => ByKey key (ByKeysThen after keys)

/-- **The sort orders by all keys and keeps the order among equal keys**, provided that the digits
of the keys fit into the passes. -/
theorem radixKeys_pairwise_then (keys : List (α → Nat)) (ordered : xs.Pairwise after)
    (fits : ∀ key ∈ keys, ∀ x ∈ xs, key x < base ^ passes) :
    (radixKeys base passes keys xs).Pairwise (ByKeysThen after keys) := by
  induction keys with
  | nil => exact ordered
  | cons key keys ih =>
    have sorted := radixDigits_pairwise positive passes key
      (ih fun key' member => fits key' (mem_cons_of_mem _ member))
    refine sorted.imp_of_mem ?_
    intro x y inX inY ordered
    have member : ∀ z ∈ radixKeys base passes (key :: keys) xs, key z < base ^ passes :=
      fun z inZ => fits key mem_cons_self z
        ((radixKeys_perm positive passes (key :: keys) xs).mem_iff.mp inZ)
    simpa [ByKeysThen, ByKey, Nat.mod_eq_of_lt (member x inX), Nat.mod_eq_of_lt (member y inY)]
      using ordered

end

theorem byKeys_iff {keys : List (α → Nat)} {x y : α} :
    ByKeys keys x y ↔ keys.map (· x) ≤ keys.map (· y) := by
  induction keys with
  | nil => simp [ByKeys]
  | cons key keys ih =>
    rw [ByKeys, ByKey, ih, map_cons, map_cons, le_iff_lt_or_eq, le_iff_lt_or_eq, cons_lt_cons_iff,
      List.cons.injEq]
    tauto

theorem ByKeysThen.byKeys {keys : List (α → Nat)} {x y : α}
    (ordered : ByKeysThen after keys x y) : ByKeys keys x y := by
  induction keys with
  | nil => trivial
  | cons key keys ih => exact ordered.imp id fun ⟨same, later⟩ => ⟨same, ih later⟩

/-- **The sort orders by all keys**, provided that their digits fit into the passes. -/
theorem radixKeys_pairwise (positive : 0 < base) (passes : Nat)
    (keys : List (α → Nat)) (xs : List α) (fits : ∀ key ∈ keys, ∀ x ∈ xs, key x < base ^ passes) :
    (radixKeys base passes keys xs).Pairwise (ByKeys keys) :=
  have any : xs.Pairwise fun _ _ => True := pairwise_of_forall fun _ _ => trivial
  (radixKeys_pairwise_then positive passes keys any fits).imp ByKeysThen.byKeys

end Wirelog.Foundations

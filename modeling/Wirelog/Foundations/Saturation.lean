import Mathlib

/-!
# Saturation of a mask

A mask marks indices below its width. A sweep goes over the marked indices below `n`, from the
lowest on, and marks what each of them leads to; sweeps are repeated until one adds nothing. What
is marked in the end is what the first marks lead to in any number of steps
(`getLsbD_saturate_iff`), since a sweep that is not the last marks a new index
(`card_lt_card_sweep`) and there are only `n` of them.
-/

set_option autoImplicit false

namespace Wirelog.Foundations

open Relation List

variable {w n : Nat} {mask : BitVec w} {i j : Nat}

/-! ## Marks -/

def mark (mask : BitVec w) (i : Nat) : BitVec w := mask ||| (1#w <<< i)

theorem getLsbD_mark (bound : i < w) :
    (mark mask i).getLsbD j = (mask.getLsbD j || decide (i = j)) := by
  rw [mark, BitVec.getLsbD_or, BitVec.getLsbD_shiftLeft, BitVec.getLsbD_one]
  congr 1
  by_cases same : i = j
  · subst same
    simp [bound]
    omega
  · simp [same]
    omega

/-- Mark the indices below `n` that pass a test. -/
def markWhere (test : Nat → Bool) (n : Nat) (mask : BitVec w) : BitVec w :=
  (List.range n).foldl
    (fun mask j => if mask.getLsbD j then mask else if test j then mark mask j else mask) mask

theorem getLsbD_markWhere (test : Nat → Bool) (small : n ≤ w) :
    (markWhere test n mask).getLsbD j = (mask.getLsbD j || (decide (j < n) && test j)) := by
  induction n generalizing j with
  | zero => simp [markWhere]
  | succ n ih =>
    have step : markWhere test (n + 1) mask =
        (if (markWhere test n mask).getLsbD n then markWhere test n mask
          else if test n then mark (markWhere test n mask) n else markWhere test n mask) := by
      rw [markWhere, range_succ, foldl_append]
      rfl
    have before (j : Nat) := @ih j (by omega)
    rw [step]
    by_cases last : j = n
    · subst last
      split_ifs with set passed
      · have old : mask.getLsbD j = true := by simpa [before] using set
        simp [set, old]
      · simp [getLsbD_mark (show j < w by omega), passed]
      · simp [before, passed]
    · have lower : decide (j < n + 1) = decide (j < n) := by simp; omega
      rw [lower, ← before j]
      split_ifs
      · rfl
      · simp [getLsbD_mark (show n < w by omega), Ne.symm last]
      · rfl

/-- The marked indices, from the lowest on. -/
def marked (mask : BitVec w) : List Nat := (List.range w).filter fun i => mask.getLsbD i

theorem mem_marked_iff : i ∈ marked mask ↔ mask.getLsbD i := by
  simp only [marked, mem_filter, mem_range, and_iff_right_iff_imp]
  exact BitVec.lt_of_getLsbD

theorem mem_takeWhile_lt_iff {l : List Nat} (ascending : l.Pairwise (· < ·)) :
    i ∈ l.takeWhile (fun i => i < n) ↔ i ∈ l ∧ i < n := by
  induction l with
  | nil => simp
  | cons head rest ih =>
    obtain ⟨above, ascending⟩ := pairwise_cons.mp ascending
    by_cases low : head < n
    · simp only [takeWhile_cons, low, decide_true, if_true, mem_cons, ih ascending]
      constructor
      · rintro (rfl | ⟨member, bound⟩)
        · exact ⟨.inl rfl, low⟩
        · exact ⟨.inr member, bound⟩
      · rintro ⟨rfl | member, bound⟩
        · exact .inl rfl
        · exact .inr ⟨member, bound⟩
    · simp only [takeWhile_cons, low, decide_false]
      constructor
      · intro member
        cases member
      · rintro ⟨member, bound⟩
        rcases mem_cons.mp member with rfl | member
        · exact absurd bound low
        · exact absurd ((above i member).trans bound) low

/-! ## Sweeps -/

variable (expand : Nat → BitVec w → BitVec w)

/-- Mark what the marked indices below `n` lead to. -/
def sweep (n : Nat) (mask : BitVec w) : BitVec w :=
  ((marked mask).takeWhile fun i => i < n).foldl (fun mask i => expand i mask) mask

/-- Sweep until nothing is added. -/
def saturate (n : Nat) : Nat → BitVec w → BitVec w
  | 0, mask => mask
  | rounds + 1, mask =>
    if sweep expand n mask = mask then mask
    else saturate n rounds (sweep expand n mask)

/-- Expanding an index marks the indices below `n` that it leads to. -/
def Expands (n : Nat) (leads : Nat → Nat → Prop) : Prop :=
  ∀ i mask j, (expand i mask).getLsbD j ↔ mask.getLsbD j ∨ (j < n ∧ leads i j)

section Saturation

variable {expand : Nat → BitVec w → BitVec w} {leads : Nat → Nat → Prop}

theorem getLsbD_sweep_iff (expands : Expands expand n leads) :
    (sweep expand n mask).getLsbD j ↔
      mask.getLsbD j ∨ (j < n ∧ ∃ i < n, mask.getLsbD i ∧ leads i j) := by
  have fold (indices : List Nat) (start : BitVec w) :
      (indices.foldl (fun mask i => expand i mask) start).getLsbD j ↔
        start.getLsbD j ∨ (j < n ∧ ∃ i ∈ indices, leads i j) := by
    induction indices generalizing start with
    | nil => simp
    | cons head rest ih =>
      rw [foldl_cons, ih, expands]
      simp only [exists_mem_cons_iff]
      tauto
  rw [sweep, fold]
  have ascending : (marked mask).Pairwise (· < ·) := pairwise_lt_range.filter _
  simp only [mem_takeWhile_lt_iff ascending, mem_marked_iff]
  refine or_congr_right (and_congr_right fun _ => ⟨?_, ?_⟩)
  · rintro ⟨i, ⟨set, bound⟩, leads⟩
    exact ⟨i, bound, set, leads⟩
  · rintro ⟨i, bound, set, leads⟩
    exact ⟨i, ⟨set, bound⟩, leads⟩

def markedSet (mask : BitVec w) : Finset Nat := (Finset.range w).filter fun i => mask.getLsbD i

theorem mem_markedSet_iff : i ∈ markedSet mask ↔ mask.getLsbD i := by
  simp only [markedSet, Finset.mem_filter, Finset.mem_range, and_iff_right_iff_imp]
  exact BitVec.lt_of_getLsbD

section

variable (expands : Expands expand n leads)

include expands

theorem card_lt_card_sweep (changes : sweep expand n mask ≠ mask) :
    (markedSet mask).card < (markedSet (sweep expand n mask)).card := by
  refine Finset.card_lt_card (Finset.ssubset_iff_subset_ne.mpr ⟨?_, ?_⟩)
  · intro i member
    exact mem_markedSet_iff.mpr
      ((getLsbD_sweep_iff expands).mpr (.inl (mem_markedSet_iff.mp member)))
  · intro same
    refine changes (BitVec.eq_of_getLsbD_eq fun i _ => ?_)
    have swept : i ∈ markedSet (sweep expand n mask) ↔ (sweep expand n mask).getLsbD i :=
      mem_markedSet_iff
    rw [← same, mem_markedSet_iff] at swept
    exact (Bool.eq_iff_iff.mpr swept).symm

/-- With as many rounds as there are indices left, the last sweep adds nothing. -/
theorem sweep_saturate (rounds : Nat) (inside : ∀ i, mask.getLsbD i → i < n)
    (enough : n ≤ (markedSet mask).card + rounds) :
    sweep expand n (saturate expand n rounds mask) = saturate expand n rounds mask := by
  induction rounds generalizing mask with
  | zero =>
    -- every index is marked already
    have all : markedSet mask = Finset.range n := by
      refine Finset.eq_of_subset_of_card_le (fun i member => ?_) (by simpa using enough)
      exact Finset.mem_range.mpr (inside i (mem_markedSet_iff.mp member))
    refine BitVec.eq_of_getLsbD_eq fun i _ => Bool.eq_iff_iff.mpr ?_
    rw [saturate, getLsbD_sweep_iff expands]
    refine ⟨?_, .inl⟩
    rintro (set | ⟨bound, -⟩)
    · exact set
    · exact mem_markedSet_iff.mp (all ▸ Finset.mem_range.mpr bound)
  | succ rounds ih =>
    rw [saturate]
    split_ifs with same
    · exact same
    refine ih (fun i set => ?_) ?_
    · rcases (getLsbD_sweep_iff expands).mp set with before | ⟨bound, -⟩
      · exact inside i before
      · exact bound
    · have more := card_lt_card_sweep expands same
      omega

/-- Marks stay, and what is marked is reached. -/
theorem getLsbD_saturate_of (rounds : Nat) :
    (mask.getLsbD j → (saturate expand n rounds mask).getLsbD j) ∧
      ((saturate expand n rounds mask).getLsbD j →
        ∃ i, mask.getLsbD i ∧ ReflTransGen (fun a b => b < n ∧ leads a b) i j) := by
  induction rounds generalizing mask with
  | zero => exact ⟨id, fun set => ⟨j, set, .refl⟩⟩
  | succ rounds ih =>
    rw [saturate]
    split_ifs with same
    · exact ⟨id, fun set => ⟨j, set, .refl⟩⟩
    refine ⟨fun set => ih.1 ((getLsbD_sweep_iff expands).mpr (.inl set)), fun set => ?_⟩
    obtain ⟨i, marked, path⟩ := ih.2 set
    rcases (getLsbD_sweep_iff expands).mp marked with before | ⟨bound, k, -, before, step⟩
    · exact ⟨i, before, path⟩
    · exact ⟨k, before, .head ⟨bound, step⟩ path⟩

/-- **What is marked in the end is what the first marks lead to.** -/
theorem getLsbD_saturate_iff {rounds : Nat} (inside : ∀ i, mask.getLsbD i → i < n)
    (enough : n ≤ rounds) :
    (saturate expand n rounds mask).getLsbD j ↔
      ∃ i, mask.getLsbD i ∧ ReflTransGen (fun a b => b < n ∧ leads a b) i j := by
  refine ⟨(getLsbD_saturate_of expands rounds).2, ?_⟩
  rintro ⟨i, set, path⟩
  have stable := sweep_saturate expands rounds inside (by omega)
  have started := (getLsbD_saturate_of expands rounds).1 set
  have below : i < n := inside i set
  have along : (saturate expand n rounds mask).getLsbD j ∧ j < n := by
    induction path with
    | refl => exact ⟨started, below⟩
    | tail _ step ih =>
      refine ⟨?_, step.1⟩
      rw [← stable]
      exact (getLsbD_sweep_iff expands).mpr (.inr ⟨step.1, _, ih.2, ih.1, step.2⟩)
  exact along.1

end

end Saturation

end Wirelog.Foundations

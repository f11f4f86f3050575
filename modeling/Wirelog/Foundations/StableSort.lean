import Wirelog.Foundations.ArrayFill
import Wirelog.Foundations.RadixSort

/-!
# Stable sorting

A sort is stable when it orders by rank and, among equal ranks, by what came first (`ByRank`).
Insertion sort is (`insertionSortBy_pairwise`), whatever the elements are compared by, and so is a
radix sort over several keys (`byKeysThen_iff` with `radixKeys_pairwise_then`), whose passes write
each element to the next place of its bucket (`countingPass_eq_distribute`).
-/

set_option autoImplicit false

namespace Wirelog.Foundations

open List

variable {α ι κ : Type*}

/-- Ordered by rank, and among equal ranks by a relation. -/
def ByRank [LT κ] (rank : α → κ) (after : α → α → Prop) (x y : α) : Prop :=
  rank x < rank y ∨ rank x = rank y ∧ after x y

/-! ## Insertion sort -/

section Insertion

variable (stop : α → α → Prop) [DecidableRel stop]

/-- Insertion sort: each element moves down past the elements before it, as long as these do not
stop it. -/
def insertionSortBy (xs : List α) : List α :=
  (xs.foldl (fun sorted x => sorted.orderedInsert (fun x y => stop y x) x) []).reverse

theorem insertionSortBy_map (f : ι → α) (xs : List ι) :
    insertionSortBy stop (xs.map f) = (insertionSortBy (fun i j => stop (f i) (f j)) xs).map f := by
  have fold (done : List ι) :
      (xs.map f).foldl (fun sorted x => sorted.orderedInsert (fun x y => stop y x) x) (done.map f) =
      (xs.foldl (fun sorted i => sorted.orderedInsert (fun i j => stop (f j) (f i)) i)
        done).map f := by
    induction xs generalizing done with
    | nil => rfl
    | cons x xs ih =>
      rw [map_cons, foldl_cons, foldl_cons, ← ih]
      congr 1
      exact (map_orderedInsert (fun i j => stop (f j) (f i)) _ f done x
        (fun _ _ => .rfl) (fun _ _ => .rfl)).symm
  rw [insertionSortBy, insertionSortBy, map_reverse]
  exact congrArg List.reverse (fold [])

variable {stop} [LinearOrder κ] {rank : α → κ} {after : α → α → Prop}

/-- An element that came after those that are sorted is put in its place. -/
theorem orderedInsert_byRank (compares : ∀ x y, stop x y ↔ rank x ≤ rank y) {x : α}
    {sorted : List α} (ordered : sorted.Pairwise fun y z => ByRank rank after z y)
    (later : ∀ y ∈ sorted, after y x) :
    (sorted.orderedInsert (fun x y => stop y x) x).Pairwise fun y z => ByRank rank after z y := by
  induction sorted with
  | nil => exact pairwise_singleton _ _
  | cons y rest ih =>
    obtain ⟨below, ordered⟩ := pairwise_cons.mp ordered
    rw [List.orderedInsert]
    split_ifs with stops
    · have low : rank y ≤ rank x := (compares y x).mp stops
      refine pairwise_cons.mpr ⟨fun z member => ?_, pairwise_cons.mpr ⟨below, ordered⟩⟩
      have lower : rank z ≤ rank y := by
        rcases mem_cons.mp member with rfl | inRest
        · exact le_rfl
        rcases below z inRest with less | ⟨same, _⟩
        · exact less.le
        · exact same.le
      rcases (lower.trans low).lt_or_eq with less | same
      · exact .inl less
      · exact .inr ⟨same, later z member⟩
    · refine pairwise_cons.mpr ⟨fun z member => ?_,
        ih ordered fun z member => later z (mem_cons_of_mem _ member)⟩
      rcases mem_orderedInsert _ |>.mp member with rfl | inRest
      · exact .inl (not_le.mp fun low => stops ((compares y z).mpr low))
      · exact below z inRest

theorem insertionSortBy_perm (xs : List α) : (insertionSortBy stop xs).Perm xs := by
  have fold (done : List α) :
      (xs.foldl (fun sorted x => sorted.orderedInsert (fun x y => stop y x) x) done).Perm
        (xs ++ done) := by
    induction xs generalizing done with
    | nil => exact .refl _
    | cons x xs ih =>
      exact (ih _).trans (((perm_orderedInsert _ x done).append_left xs).trans perm_middle)
  refine (reverse_perm _).trans ?_
  simpa using fold []

/-- **Insertion sort is stable.** -/
theorem insertionSortBy_pairwise (compares : ∀ x y, stop x y ↔ rank x ≤ rank y) {xs : List α}
    (ordered : xs.Pairwise after) :
    (insertionSortBy stop xs).Pairwise (ByRank rank after) := by
  have fold (done : List α) (sorted : done.Pairwise fun y z => ByRank rank after z y)
      (later : ∀ y ∈ done, ∀ x ∈ xs, after y x) :
      (xs.foldl (fun sorted x => sorted.orderedInsert (fun x y => stop y x) x) done).Pairwise
        fun y z => ByRank rank after z y := by
    induction xs generalizing done with
    | nil => exact sorted
    | cons x xs ih =>
      obtain ⟨first, ordered⟩ := pairwise_cons.mp ordered
      refine ih ordered _ (orderedInsert_byRank compares sorted fun y member =>
        later y member x mem_cons_self) fun y member z inRest => ?_
      rcases mem_orderedInsert _ |>.mp member with rfl | inDone
      · exact first z inRest
      · exact later y inDone z (mem_cons_of_mem _ inRest)
  rw [insertionSortBy, pairwise_reverse]
  exact fold [] .nil fun y member => absurd member not_mem_nil

end Insertion

/-! ## Several keys -/

theorem byKeysThen_iff {after : α → α → Prop} {keys : List (α → Nat)} {x y : α} :
    ByKeysThen after keys x y ↔ ByRank (fun x => keys.map (· x)) after x y := by
  induction keys with
  | nil => simp [ByKeysThen, ByRank]
  | cons key keys ih =>
    rw [ByKeysThen, ByKey, ih]
    simp only [ByRank, map_cons, cons_lt_cons_iff, List.cons.injEq]
    tauto

/-! ## Passes that write to places -/

section Counting

/-- Where a bucket starts: after the elements of all buckets before it. -/
def bucketStart (digit : α → Nat) (xs : List α) (b : Nat) : Nat :=
  totalSize (fun d => (inBucket digit xs d).length) (List.range b)

/-- The array after each element was written to the next place of its bucket. -/
def countingPass (digit : α → Nat) (xs : List α) (blank : Nat → α) : Nat → α :=
  (fill digit id (fun b j => bucketStart digit xs b + j) blank xs).cells

variable {digit : α → Nat} {xs : List α}

theorem bucketStart_succ (b : Nat) :
    bucketStart digit xs (b + 1) = bucketStart digit xs b + (inBucket digit xs b).length := by
  simp [bucketStart, totalSize, range_succ]

theorem bucketStart_le {b c : Nat} (below : b ≤ c) :
    bucketStart digit xs b ≤ bucketStart digit xs c := by
  induction c, below using Nat.le_induction with
  | base => exact le_rfl
  | succ c _ ih =>
    rw [bucketStart_succ]
    omega

theorem buckets_separate :
    Separate digit (fun b j => bucketStart digit xs b + j) xs := by
  -- a bucket ends before a later one starts
  have ends {b c j : Nat} (below : b < c) (inside : j < (inBucket digit xs b).length) :
      bucketStart digit xs b + j < bucketStart digit xs c := by
    have next : bucketStart digit xs (b + 1) ≤ bucketStart digit xs c := bucketStart_le below
    rw [bucketStart_succ] at next
    omega
  intro b j c k insideB insideC same
  rcases lt_trichotomy b c with below | rfl | above
  · have := ends below insideB
    simp only at same
    omega
  · exact ⟨rfl, by simpa using same⟩
  · have := ends above insideC
    simp only at same
    omega

theorem countingPass_bucket (blank : Nat → α) (b : Nat) :
    (List.range (inBucket digit xs b).length).map
      (fun j => countingPass digit xs blank (bucketStart digit xs b + j)) =
        inBucket digit xs b := by
  refine ext_getElem (by simp) fun j inside inside' => ?_
  rw [getElem_map, getElem_range]
  exact cells_fill buckets_separate (List.getElem?_eq_getElem inside')

/-- What stands before a number in a range is the range up to it. -/
theorem eq_range_of_split {n d : Nat} {before after : List Nat}
    (split : List.range n = before ++ d :: after) : before = List.range d := by
  have inside : before.length < n := by
    have lengths := congrArg List.length split
    simp only [length_range, length_append, length_cons] at lengths
    omega
  have at_place := congrArg (·[before.length]?) split
  have front := congrArg (List.take before.length) split
  simp only [List.getElem?_range inside, List.getElem?_append_right le_rfl, Nat.sub_self,
    List.getElem?_cons_zero, Option.some.injEq] at at_place
  rw [take_range, take_left, Nat.min_eq_left inside.le, at_place] at front
  exact front.symm

/-- **Writing each element to the next place of its bucket distributes the list.** -/
theorem countingPass_eq_distribute {buckets : Nat} (small : ∀ x ∈ xs, digit x < buckets)
    (blank : Nat → α) :
    (List.range xs.length).map (countingPass digit xs blank) = distribute buckets digit xs := by
  have spread : distribute buckets digit xs =
      (List.range buckets).flatMap fun d => inBucket digit xs d := by
    refine flatMap_congr fun d _ => filter_congr fun x _ => ?_
    exact beq_eq_decide _ _
  have places : totalSize (fun d => (inBucket digit xs d).length) (List.range buckets) =
      xs.length := by
    rw [← (distribute_perm small).length_eq, spread, length_flatMap, totalSize]
  rw [← places, spread, map_range_totalSize (g := fun d j =>
    countingPass digit xs blank (bucketStart digit xs d + j))]
  · exact flatMap_congr fun d _ => countingPass_bucket blank d
  · intro before d after split j _
    rw [eq_range_of_split split, bucketStart]

end Counting

end Wirelog.Foundations

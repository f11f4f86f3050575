import Wirelog.Foundations.StableSort

/-!
# Sorting, deduplicating and merging lists

The loops with which a column store keeps its rows sorted, over any linear order: insertion sort
(`insertionSortUp`), the removal of elements that equal their predecessor (`uniqueAdjacent`), the
emission of elements that differ from the last one emitted (`emitDistinct`), and the merge of two
lists by two cursors that takes what both hold only once (`mergeUnique`). The results are
strictly increasing and hold the same elements.
-/

set_option autoImplicit false

namespace Wirelog.Foundations

open List

variable {α : Type*} [LinearOrder α]

variable {xs : List α}

/-! ## Insertion sort -/

/-- Insertion sort from the front: each element moves down past the greater ones before it. -/
def insertionSortUp (xs : List α) : List α :=
  (xs.foldl (fun sorted x => sorted.orderedInsert (· ≥ ·) x) []).reverse

theorem insertionSortUp_sorted (xs : List α) : (insertionSortUp xs).Pairwise (· ≤ ·) := by
  have sorted : (insertionSortUp xs).Pairwise (ByRank id fun _ _ => True) :=
    insertionSortBy_pairwise (fun _ _ => Iff.rfl) (pairwise_of_forall fun _ _ => trivial)
  exact sorted.imp fun ordered => ordered.elim le_of_lt fun same => same.1.le

theorem insertionSortUp_perm (xs : List α) : (insertionSortUp xs).Perm xs :=
  insertionSortBy_perm xs

/-! ## Duplicates -/

/-- The elements that differ from a given last one and from each other's predecessor. -/
def uniqueAfter : α → List α → List α
  | _, [] => []
  | last, x :: xs => if last = x then uniqueAfter x xs else x :: uniqueAfter x xs

/-- The elements that differ from their predecessor. -/
def uniqueAdjacent : List α → List α
  | [] => []
  | x :: xs => x :: uniqueAfter x xs

theorem uniqueAfter_eq_destutter (last : α) (xs : List α) :
    last :: uniqueAfter last xs = xs.destutter' (· ≠ ·) last := by
  induction xs generalizing last with
  | nil => rfl
  | cons x xs ih =>
    rw [uniqueAfter, destutter'_cons]
    by_cases same : last = x
    · rw [if_pos same, if_neg (not_not.mpr same), same, ih]
    · rw [if_neg same, if_pos same, ih]

theorem uniqueAdjacent_eq_destutter (xs : List α) : uniqueAdjacent xs = xs.destutter (· ≠ ·) := by
  cases xs with
  | nil => rfl
  | cons x xs => exact uniqueAfter_eq_destutter x xs

theorem uniqueAfter_sublist (last : α) (xs : List α) : (uniqueAfter last xs).Sublist xs := by
  induction xs generalizing last with
  | nil => exact .refl _
  | cons x xs ih =>
    rw [uniqueAfter]
    split_ifs
    · exact (ih x).cons x
    · exact (ih x).cons_cons x

theorem uniqueAdjacent_sublist (xs : List α) : (uniqueAdjacent xs).Sublist xs := by
  cases xs with
  | nil => exact .refl _
  | cons x xs => exact (uniqueAfter_sublist x xs).cons_cons x

theorem uniqueAfter_lt {last : α} (sorted : (last :: xs).Pairwise (· ≤ ·)) :
    (last :: uniqueAfter last xs).Pairwise (· < ·) := by
  induction xs generalizing last with
  | nil => exact pairwise_singleton _ _
  | cons x xs ih =>
    obtain ⟨first, rest⟩ := pairwise_cons.mp sorted
    have tail := ih rest
    rw [uniqueAfter]
    split_ifs with same
    · rwa [same]
    have before : last < x := lt_of_le_of_ne (first x mem_cons_self) same
    refine pairwise_cons.mpr ⟨?_, tail⟩
    intro y member
    rcases mem_cons.mp member with rfl | later
    · exact before
    · exact before.trans ((pairwise_cons.mp tail).1 y later)

/-- Of a sorted list the elements that differ from their predecessor increase strictly. -/
theorem uniqueAdjacent_lt (sorted : xs.Pairwise (· ≤ ·)) :
    (uniqueAdjacent xs).Pairwise (· < ·) := by
  cases xs with
  | nil => exact .nil
  | cons x xs => exact uniqueAfter_lt sorted

theorem mem_uniqueAfter {last x : α} :
    x ∈ last :: uniqueAfter last xs ↔ x ∈ last :: xs := by
  induction xs generalizing last with
  | nil => rfl
  | cons y ys ih =>
    rw [uniqueAfter]
    split_ifs with same
    · subst same
      rw [ih]
      simp
    · rw [mem_cons, ih, mem_cons (l := y :: ys)]

theorem mem_uniqueAdjacent {x : α} : x ∈ uniqueAdjacent xs ↔ x ∈ xs := by
  cases xs with
  | nil => rfl
  | cons y ys => exact mem_uniqueAfter

/-- A list without duplicates in its first part keeps this part. -/
theorem uniqueAfter_append {last : α} (distinct : (last :: xs).Nodup)
    (ys : List α) : ∃ zs, uniqueAfter last (xs ++ ys) = xs ++ zs := by
  induction xs generalizing last with
  | nil => exact ⟨_, rfl⟩
  | cons x xs ih =>
    obtain ⟨zs, rest⟩ := ih (nodup_cons.mp distinct).2
    have apart : last ≠ x := fun same =>
      (nodup_cons.mp distinct).1 (same ▸ mem_cons_self)
    refine ⟨zs, ?_⟩
    rw [cons_append, uniqueAfter, if_neg apart, rest, cons_append]

theorem uniqueAdjacent_append (distinct : xs.Nodup) (ys : List α) :
    ∃ zs, uniqueAdjacent (xs ++ ys) = xs ++ zs := by
  cases xs with
  | nil => exact ⟨_, rfl⟩
  | cons x xs =>
    obtain ⟨zs, rest⟩ := uniqueAfter_append distinct ys
    exact ⟨zs, by rw [cons_append, uniqueAdjacent, rest, cons_append]⟩

theorem uniqueAdjacent_of_nodup (distinct : xs.Nodup) :
    uniqueAdjacent xs = xs := by
  obtain ⟨more, appended⟩ := uniqueAdjacent_append distinct []
  rw [append_nil] at appended
  have short := (uniqueAdjacent_sublist xs).length_le
  rw [appended, length_append] at short
  have nothing : more = [] := length_eq_zero_iff.mp (by omega)
  rw [appended, nothing, append_nil]

theorem pairwise_le_of_uniqueAfter {last : α}
    (sorted : (last :: uniqueAfter last xs).Pairwise (· ≤ ·)) :
    (last :: xs).Pairwise (· ≤ ·) := by
  induction xs generalizing last with
  | nil => exact pairwise_singleton _ _
  | cons x xs ih =>
    rw [uniqueAfter] at sorted
    split_ifs at sorted with same
    · subst same
      have rest := ih sorted
      refine pairwise_cons.mpr ⟨?_, rest⟩
      intro y member
      rcases mem_cons.mp member with rfl | later
      · exact le_rfl
      · exact (pairwise_cons.mp rest).1 y later
    · obtain ⟨first, others⟩ := pairwise_cons.mp sorted
      have rest := ih others
      have here : last ≤ x := first x mem_cons_self
      refine pairwise_cons.mpr ⟨?_, rest⟩
      intro y member
      rcases mem_cons.mp member with rfl | later
      · exact here
      · exact here.trans ((pairwise_cons.mp rest).1 y later)

theorem pairwise_le_of_uniqueAdjacent
    (sorted : (uniqueAdjacent xs).Pairwise (· ≤ ·)) : xs.Pairwise (· ≤ ·) := by
  cases xs with
  | nil => exact .nil
  | cons x xs => exact pairwise_le_of_uniqueAfter sorted

/-- **Without adjacent repetitions a list increases strictly exactly when it was sorted.** -/
theorem uniqueAdjacent_lt_iff :
    (uniqueAdjacent xs).Pairwise (· < ·) ↔ xs.Pairwise (· ≤ ·) := by
  constructor
  · intro sorted
    exact pairwise_le_of_uniqueAdjacent (sorted.imp le_of_lt)
  · exact uniqueAdjacent_lt

/-- The elements that differ from the last one emitted. -/
def emitDistinct : Option α → List α → List α
  | _, [] => []
  | last, x :: xs => if last = some x then emitDistinct last xs else x :: emitDistinct (some x) xs

theorem emitDistinct_some (last : α) (xs : List α) :
    emitDistinct (some last) xs = uniqueAfter last xs := by
  induction xs generalizing last with
  | nil => rfl
  | cons x xs ih =>
    rw [emitDistinct, uniqueAfter]
    by_cases same : last = x
    · rw [if_pos (congrArg some same), if_pos same, ih, same]
    · rw [if_neg fun equal => same (Option.some.inj equal), if_neg same, ih]

/-- Comparing with the last element emitted and with the predecessor come to the same. -/
theorem emitDistinct_none (xs : List α) : emitDistinct none xs = uniqueAdjacent xs := by
  cases xs with
  | nil => rfl
  | cons x xs => rw [emitDistinct, if_neg (by simp), emitDistinct_some, uniqueAdjacent]

/-! ## Merging two lists -/

/-- The merge with two cursors; what stands at both is taken once. -/
def mergeUnique : List α → List α → List α
  | [], ys => ys
  | x :: xs, [] => x :: xs
  | x :: xs, y :: ys =>
    if x < y then x :: mergeUnique xs (y :: ys)
    else if x = y then x :: mergeUnique xs ys
    else y :: mergeUnique (x :: xs) ys
termination_by xs ys => xs.length + ys.length

theorem mem_mergeUnique {z : α} (xs ys : List α) :
    z ∈ mergeUnique xs ys ↔ z ∈ xs ∨ z ∈ ys := by
  induction xs, ys using mergeUnique.induct with
  | case1 ys => simp [mergeUnique]
  | case2 x xs => simp [mergeUnique]
  | case3 x xs y ys below ih =>
    rw [mergeUnique, if_pos below, mem_cons, ih, mem_cons (l := xs)]
    tauto
  | case4 xs y ys above ih =>
    rw [mergeUnique, if_neg above, if_pos rfl, mem_cons, ih, mem_cons (l := xs), mem_cons (l := ys)]
    tauto
  | case5 x xs y ys above apart ih =>
    rw [mergeUnique, if_neg above, if_neg apart, mem_cons, ih, mem_cons (l := ys)]
    tauto

/-- **Merging strictly increasing lists gives a strictly increasing list.** -/
theorem mergeUnique_lt {ys : List α} (left : xs.Pairwise (· < ·))
    (right : ys.Pairwise (· < ·)) : (mergeUnique xs ys).Pairwise (· < ·) := by
  induction xs, ys using mergeUnique.induct with
  | case1 ys => simpa [mergeUnique] using right
  | case2 x xs => simpa [mergeUnique] using left
  | case3 x xs y ys below ih =>
    obtain ⟨first, rest⟩ := pairwise_cons.mp left
    obtain ⟨second, -⟩ := pairwise_cons.mp right
    rw [mergeUnique, if_pos below]
    refine pairwise_cons.mpr ⟨?_, ih rest right⟩
    intro z member
    rcases (mem_mergeUnique _ _).mp member with inLeft | inRight
    · exact first z inLeft
    rcases mem_cons.mp inRight with rfl | later
    · exact below
    · exact below.trans (second z later)
  | case4 xs y ys above ih =>
    obtain ⟨first, rest⟩ := pairwise_cons.mp left
    obtain ⟨second, rest'⟩ := pairwise_cons.mp right
    rw [mergeUnique, if_neg above, if_pos rfl]
    refine pairwise_cons.mpr ⟨?_, ih rest rest'⟩
    intro z member
    exact ((mem_mergeUnique _ _).mp member).elim (first z) (second z)
  | case5 x xs y ys above apart ih =>
    obtain ⟨first, -⟩ := pairwise_cons.mp left
    obtain ⟨second, rest⟩ := pairwise_cons.mp right
    have below : y < x := lt_of_le_of_ne (not_lt.mp above) (Ne.symm apart)
    rw [mergeUnique, if_neg above, if_neg apart]
    refine pairwise_cons.mpr ⟨?_, ih left rest⟩
    intro z member
    rcases (mem_mergeUnique _ _).mp member with inLeft | inRight
    · rcases mem_cons.mp inLeft with rfl | later
      · exact below
      · exact below.trans (first z later)
    · exact second z inRight

theorem sublist_mergeUnique_left (xs ys : List α) : xs.Sublist (mergeUnique xs ys) := by
  induction xs, ys using mergeUnique.induct with
  | case1 ys => exact nil_sublist _
  | case2 x xs => rw [mergeUnique]
  | case3 x xs y ys below ih =>
    rw [mergeUnique, if_pos below]
    exact ih.cons_cons x
  | case4 xs y ys above ih =>
    rw [mergeUnique, if_neg above, if_pos rfl]
    exact ih.cons_cons y
  | case5 x xs y ys above apart ih =>
    rw [mergeUnique, if_neg above, if_neg apart]
    exact ih.cons y

theorem sublist_mergeUnique_right (xs ys : List α) : ys.Sublist (mergeUnique xs ys) := by
  induction xs, ys using mergeUnique.induct with
  | case1 ys => rw [mergeUnique]
  | case2 x xs => exact nil_sublist _
  | case3 x xs y ys below ih =>
    rw [mergeUnique, if_pos below]
    exact ih.cons x
  | case4 xs y ys above ih =>
    rw [mergeUnique, if_neg above, if_pos rfl]
    exact ih.cons_cons y
  | case5 x xs y ys above apart ih =>
    rw [mergeUnique, if_neg above, if_neg apart]
    exact ih.cons_cons y

/-- **A merge increases strictly exactly when both lists do.** -/
theorem mergeUnique_lt_iff {ys : List α} :
    (mergeUnique xs ys).Pairwise (· < ·) ↔ xs.Pairwise (· < ·) ∧ ys.Pairwise (· < ·) := by
  constructor
  · intro sorted
    exact ⟨sorted.sublist (sublist_mergeUnique_left xs ys),
      sorted.sublist (sublist_mergeUnique_right xs ys)⟩
  · rintro ⟨left, right⟩
    exact mergeUnique_lt left right

end Wirelog.Foundations

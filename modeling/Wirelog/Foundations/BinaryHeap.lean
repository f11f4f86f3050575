import Mathlib

/-!
# Binary heaps and the merge of many sorted lists

A heap in an array: the children of position `i` are `2 * i + 1` and `2 * i + 2`, and no entry
comes after its children. An entry that may come after its children is moved down
(`siftDown`), an array is made a heap from its last parent up (`heapify`). A heap of lists that
is emptied by taking the first element of the root, over and over, merges the lists (`drain`):
the result holds the elements of all lists (`heapMerge_perm`) and is sorted if they are
(`heapMerge_sorted`). Lists that increase by another order than that of the keys are merged in it
when the key of an element is at most that of the first greater element of each other list
(`heapMerge_le`), and only then if they have no element in common (`listsFollow_of_heapMerge_lt`).
-/

set_option autoImplicit false

namespace Wirelog.Foundations

open List Function

section Heap

variable {β κ : Type*} [LinearOrder κ] (key : β → κ) (size : Nat)

/-- Exchange two entries. -/
def exchange (heap : Nat → β) (p c : Nat) : Nat → β := fun i => heap (Equiv.swap p c i)

/-- The child that comes first; the left one if they are equal. -/
def earlierChild (heap : Nat → β) (p : Nat) : Nat :=
  if 2 * p + 2 < size ∧ key (heap (2 * p + 2)) < key (heap (2 * p + 1)) then 2 * p + 2
  else 2 * p + 1

/-- Moves the entry at a position down, for at most as many levels as given. -/
def siftDown : Nat → (Nat → β) → Nat → Nat → β
  | 0, heap, _ => heap
  | levels + 1, heap, p =>
    if 2 * p + 1 < size then
      if key (heap p) ≤ key (heap (earlierChild key size heap p)) then heap
      else siftDown levels (exchange heap p (earlierChild key size heap p))
        (earlierChild key size heap p)
    else heap

/-- Makes a heap of the subtrees at the positions below the given one, the last one first. -/
def heapifyBelow : Nat → (Nat → β) → Nat → β
  | 0, heap => heap
  | p + 1, heap => heapifyBelow p (siftDown key size size heap p)

/-- Makes an array a heap. -/
def heapify (heap : Nat → β) : Nat → β := heapifyBelow key size (size / 2) heap

/-- A position is the parent of another. -/
def IsParent (p c : Nat) : Prop := c = 2 * p + 1 ∨ c = 2 * p + 2

/-- From a position on, no entry comes after its children. -/
def HeapFrom (start : Nat) (heap : Nat → β) : Prop :=
  ∀ p, start ≤ p → ∀ c < size, IsParent p c → key (heap p) ≤ key (heap c)

/-- The heap property but for one position, whose children do not come before its parent. -/
structure HeapBut (start hole : Nat) (heap : Nat → β) : Prop where
  others : ∀ p, start ≤ p → p ≠ hole → ∀ c < size, IsParent p c → key (heap p) ≤ key (heap c)
  across : ∀ p, start ≤ p → IsParent p hole → ∀ c < size, IsParent hole c →
    key (heap p) ≤ key (heap c)

variable {key size} {heap : Nat → β} {p c start levels : Nat}

theorem earlierChild_isParent : IsParent p (earlierChild key size heap p) := by
  unfold earlierChild IsParent
  split_ifs <;> simp

theorem earlierChild_lt (inside : 2 * p + 1 < size) : earlierChild key size heap p < size := by
  unfold earlierChild
  split_ifs with right
  · exact right.1
  · exact inside

theorem earlierChild_le (inside : c < size) (child : IsParent p c) :
    key (heap (earlierChild key size heap p)) ≤ key (heap c) := by
  unfold earlierChild
  split_ifs with right
  · rcases child with rfl | rfl
    · exact right.2.le
    · exact le_rfl
  · rcases child with rfl | rfl
    · exact le_rfl
    · exact not_lt.mp fun below => right ⟨inside, below⟩

theorem exchange_left : exchange heap p c p = heap c := by simp [exchange]

theorem exchange_right : exchange heap p c c = heap p := by simp [exchange]

theorem exchange_other {i : Nat} (notP : i ≠ p) (notC : i ≠ c) : exchange heap p c i = heap i := by
  simp [exchange, Equiv.swap_apply_of_ne_of_ne notP notC]

theorem IsParent.lt (child : IsParent p c) : p < c := by
  unfold IsParent at child
  omega

theorem IsParent.unique {q : Nat} (first : IsParent p c) (second : IsParent q c) : p = q := by
  unfold IsParent at first second
  omega

/-- The exchange of an entry with its earlier child moves the hole down. -/
theorem HeapBut.exchange (but : HeapBut key size start p heap) (inside : 2 * p + 1 < size)
    (above : key (heap (earlierChild key size heap p)) < key (heap p)) :
    HeapBut key size start (earlierChild key size heap p)
      (exchange heap p (earlierChild key size heap p)) := by
  have child : IsParent p (earlierChild key size heap p) := earlierChild_isParent
  have least : ∀ k < size, IsParent p k →
      key (heap (earlierChild key size heap p)) ≤ key (heap k) :=
    fun k inside child => earlierChild_le inside child
  have inHeap : earlierChild key size heap p < size := earlierChild_lt inside
  generalize earlierChild key size heap p = c at *
  constructor
  · intro i from_ notC k kInside iParent
    by_cases iP : i = p
    · subst iP
      rw [exchange_left]
      by_cases kC : k = c
      · rw [kC, exchange_right]
        exact above.le
      · rw [exchange_other iParent.lt.ne' kC]
        exact least k kInside iParent
    · have kC : k ≠ c := fun same => iP ((same ▸ iParent).unique child)
      rw [exchange_other iP notC]
      by_cases kP : k = p
      · rw [kP, exchange_left]
        exact but.across i from_ (kP ▸ iParent) c inHeap child
      · rw [exchange_other kP kC]
        exact but.others i from_ iP k kInside iParent
  · intro i from_ iParent k kInside kChild
    obtain rfl : i = p := iParent.unique child
    rw [exchange_left, exchange_other (child.lt.trans kChild.lt).ne' kChild.lt.ne']
    exact but.others c (from_.trans child.lt.le) child.lt.ne' k kInside kChild

theorem siftDown_heap (but : HeapBut key size start p heap) (enough : size ≤ p + levels) :
    HeapFrom key size start (siftDown key size levels heap p) := by
  induction levels generalizing heap p with
  | zero =>
    intro i from_ k inside child
    by_cases hole : i = p
    · have := child.lt
      omega
    · exact but.others i from_ hole k inside child
  | succ levels ih =>
    rw [siftDown]
    split_ifs with inside below
    · intro i from_ k kInside child
      by_cases hole : i = p
      · subst hole
        exact below.trans (earlierChild_le kInside child)
      · exact but.others i from_ hole k kInside child
    · have deeper : p < earlierChild key size heap p := earlierChild_isParent.lt
      exact ih (but.exchange inside (not_le.mp below)) (by omega)
    · intro i from_ k kInside child
      by_cases hole : i = p
      · subst hole
        unfold IsParent at child
        omega
      · exact but.others i from_ hole k kInside child

theorem HeapFrom.but (below : HeapFrom key size (p + 1) heap) : HeapBut key size p p heap where
  others i from_ notHole k inside child := below i (by omega) k inside child
  across i from_ child := absurd child.lt (by omega)

theorem heapifyBelow_heap (below : HeapFrom key size p heap) :
    HeapFrom key size 0 (heapifyBelow key size p heap) := by
  induction p generalizing heap with
  | zero => exact below
  | succ p ih => exact ih (siftDown_heap below.but (by omega))

theorem heapify_heap (heap : Nat → β) : HeapFrom key size 0 (heapify key size heap) := by
  apply heapifyBelow_heap
  intro i from_ k inside child
  unfold IsParent at child
  omega

theorem HeapFrom.root_le (ordered : HeapFrom key size 0 heap) {i : Nat} (inside : i < size) :
    key (heap 0) ≤ key (heap i) := by
  induction i using Nat.strong_induction_on with
  | _ i ih =>
    obtain _ | i := i
    · exact le_rfl
    have child : IsParent (i / 2) (i + 1) := by
      unfold IsParent
      omega
    exact (ih (i / 2) child.lt (by omega)).trans (ordered _ (Nat.zero_le _) _ inside child)

/-! ## What a heap holds -/

/-- The entries in array order. -/
def entries (heap : Nat → β) (size : Nat) : List β := (List.range size).map heap

theorem exchange_perm (pInside : p < size) (cInside : c < size) :
    (entries (exchange heap p c) size).Perm (entries heap size) := by
  have shuffled : ((List.range size).map (Equiv.swap p c)).Perm (List.range size) := by
    refine (perm_ext_iff_of_nodup (nodup_range.map (Equiv.injective _)) nodup_range).mpr fun i => ?_
    have closed : ∀ j < size, Equiv.swap p c j < size := by
      intro j inside
      rw [Equiv.swap_apply_def]
      split_ifs
      · exact cInside
      · exact pInside
      · exact inside
    simp only [mem_map, mem_range]
    constructor
    · rintro ⟨j, inside, rfl⟩
      exact closed j inside
    · intro inside
      exact ⟨Equiv.swap p c i, closed i inside, Equiv.swap_apply_self p c i⟩
  have mapped := shuffled.map heap
  rwa [map_map] at mapped

theorem siftDown_perm (pInside : p < size) :
    (entries (siftDown key size levels heap p) size).Perm (entries heap size) := by
  induction levels generalizing heap p with
  | zero => exact .refl _
  | succ levels ih =>
    rw [siftDown]
    split_ifs with inside below
    · exact .refl _
    · have cInside : earlierChild key size heap p < size := earlierChild_lt inside
      exact (ih cInside).trans (exchange_perm pInside cInside)
    · exact .refl _

theorem heapifyBelow_perm (inside : p ≤ size) :
    (entries (heapifyBelow key size p heap) size).Perm (entries heap size) := by
  induction p generalizing heap with
  | zero => exact .refl _
  | succ p ih => exact (ih (by omega)).trans (siftDown_perm (by omega))

end Heap

/-! ## Merging -/

section Merge

variable {α κ : Type*} [LinearOrder κ] (key : α → κ)

/-- The key of a list that waits in the heap: that of its first element. -/
def headKey (entry : α × List α) : κ := key entry.1

/-- The array after the first element of the root was taken, and its size: the rest of the list
stays at the root, or the last entry takes its place. -/
def advanceRoot (heap : Nat → α × List α) (size : Nat) : (Nat → α × List α) × Nat :=
  match (heap 0).2 with
  | [] => (update heap 0 (heap (size - 1)), size - 1)
  | x :: rest => (update heap 0 (x, rest), size)

/-- Empties a heap of lists, for at most as many rounds as given. -/
def drain : Nat → (Nat → α × List α) → Nat → List α
  | 0, _, _ => []
  | rounds + 1, heap, size =>
    if size = 0 then []
    else
      let next := advanceRoot heap size
      (heap 0).1 :: drain rounds (siftDown (headKey key) next.2 next.2 next.1 0) next.2

/-- The lists that are not empty, as a first element and the rest. -/
def nonempty : List (List α) → List (α × List α)
  | [] => []
  | [] :: lists => nonempty lists
  | (x :: xs) :: lists => (x, xs) :: nonempty lists

def heapMerge (lists : List (List α)) : List α :=
  match nonempty lists with
  | [] => []
  | entry :: rest =>
    drain key lists.flatten.length
      (heapify (headKey key) (rest.length + 1) fun i => (entry :: rest).getD i entry)
      (rest.length + 1)

def held (heap : Nat → α × List α) (size : Nat) : List α :=
  (entries heap size).flatMap fun entry => entry.1 :: entry.2

variable {key} {heap heap' : Nat → α × List α} {size : Nat}

theorem held_perm (perm : (entries heap' size).Perm (entries heap size)) :
    (held heap' size).Perm (held heap size) := perm.flatMap_right _

theorem entries_succ (heap : Nat → α × List α) (size : Nat) :
    entries heap (size + 1) = heap 0 :: (List.range size).map fun i => heap (i + 1) := by
  simp [entries, range_succ_eq_map, comp_def]

/-- What waits once the first element of the root was taken: the rest of its list, unless that is
empty, and the other lists. -/
def advanced (root : α × List α) (others : List (α × List α)) : List (α × List α) :=
  match root.2 with
  | [] => others
  | x :: rest => (x, rest) :: others

theorem advanced_flatMap (root : α × List α) (others : List (α × List α)) :
    ((advanced root others).flatMap fun entry => entry.1 :: entry.2) =
      root.2 ++ others.flatMap fun entry => entry.1 :: entry.2 := by
  unfold advanced
  cases root.2 with
  | nil => rfl
  | cons x rest => rfl

theorem mem_advanced {root entry : α × List α} {others : List (α × List α)} :
    entry ∈ advanced root others ↔ entry.1 :: entry.2 = root.2 ∨ entry ∈ others := by
  unfold advanced
  cases root.2 with
  | nil => simp
  | cons x rest => simp [Prod.ext_iff]

theorem entries_advanceRoot (heap : Nat → α × List α) (size : Nat) :
    ∃ others, (entries heap (size + 1)).Perm (heap 0 :: others) ∧
      (entries (advanceRoot heap (size + 1)).1 (advanceRoot heap (size + 1)).2).Perm
        (advanced (heap 0) others) := by
  refine ⟨(List.range size).map fun i => heap (i + 1), .of_eq (entries_succ heap size), ?_⟩
  unfold advanceRoot advanced
  cases root : (heap 0).2 with
  | cons x rest =>
    apply List.Perm.of_eq
    simp [entries_succ]
  | nil =>
    simp only [Nat.add_sub_cancel]
    obtain _ | size := size
    · exact .refl _
    -- the last entry moved to the root
    have moved : entries (update heap 0 (heap (size + 1))) (size + 1) =
        heap (size + 1) :: (List.range size).map fun i => heap (i + 1) := by
      simp [entries_succ]
    rw [moved, range_succ, map_append]
    exact (perm_append_singleton _ _).symm

/-- Taking the first element of the root takes it from what is held. -/
theorem advanceRoot_perm (heap : Nat → α × List α) (size : Nat) :
    ((heap 0).1 :: held (advanceRoot heap (size + 1)).1 (advanceRoot heap (size + 1)).2).Perm
      (held heap (size + 1)) := by
  obtain ⟨others, before, after⟩ := entries_advanceRoot heap size
  have all := before.flatMap_right fun entry => entry.1 :: entry.2
  have left := after.flatMap_right fun entry => entry.1 :: entry.2
  rw [advanced_flatMap] at left
  exact (left.cons (heap 0).1).trans all.symm

/-- The heap property holds but for the root when it was replaced. -/
theorem HeapFrom.update (ordered : HeapFrom (headKey key) size 0 heap) {size' : Nat}
    (smaller : size' ≤ size) (entry : α × List α) :
    HeapFrom (headKey key) size' 1 (update heap 0 entry) := by
  intro p from_ c inside child
  have := child.lt
  rw [update_of_ne (by omega), update_of_ne (by omega)]
  exact ordered p (Nat.zero_le p) c (by omega) child

theorem advanceRoot_heap (ordered : HeapFrom (headKey key) (size + 1) 0 heap) :
    HeapFrom (headKey key) (advanceRoot heap (size + 1)).2 1 (advanceRoot heap (size + 1)).1 := by
  unfold advanceRoot
  cases (heap 0).2 with
  | nil => exact ordered.update (Nat.le_succ size) _
  | cons x rest => exact ordered.update le_rfl _

/-! ### Merging by choice -/

/-- The lists that wait are merged by taking the first element of a list over and over, with no
greater key than that of any other first element. -/
inductive Merges (key : α → κ) : List (α × List α) → List α → Prop
  | done : Merges key [] []
  | take {waiting others : List (α × List α)} {root : α × List α} {merged : List α}
      (before : waiting.Perm (root :: others))
      (least : ∀ entry ∈ others, key root.1 ≤ key entry.1)
      (rest : Merges key (advanced root others) merged) : Merges key waiting (root.1 :: merged)

theorem Merges.of_perm {waiting waiting' : List (α × List α)} {merged : List α}
    (merges : Merges key waiting merged) (perm : waiting.Perm waiting') :
    Merges key waiting' merged := by
  cases merges with
  | done =>
    cases perm.nil_eq
    exact .done
  | take before least rest => exact .take (perm.symm.trans before) least rest

/-- Emptying a heap takes the first elements by choice. -/
theorem drain_merges {rounds : Nat} (ordered : HeapFrom (headKey key) size 0 heap)
    (enough : (held heap size).length ≤ rounds) :
    Merges key (entries heap size) (drain key rounds heap size) := by
  induction rounds generalizing heap size with
  | zero =>
    obtain _ | size := size
    · exact .done
    rw [held, entries_succ] at enough
    simp at enough
  | succ rounds ih =>
    obtain _ | size := size
    · exact .done
    obtain ⟨others, before, after⟩ := entries_advanceRoot heap size
    have taken := (advanceRoot_perm heap size).length_eq
    have ordered' := advanceRoot_heap ordered
    rw [drain, if_neg (Nat.succ_ne_zero size)]
    simp only
    generalize advanceRoot heap (size + 1) = next at taken after ordered' ⊢
    have sifted : (entries (siftDown (headKey key) next.2 next.2 next.1 0) next.2).Perm
        (entries next.1 next.2) := by
      by_cases last : next.2 = 0
      · simp [entries, last]
      · exact siftDown_perm (Nat.pos_of_ne_zero last)
    refine .take before ?_ ((ih (siftDown_heap ordered'.but (by omega)) ?_).of_perm
      (sifted.trans after))
    · intro entry member
      obtain ⟨i, inside, rfl⟩ := mem_map.mp (before.mem_iff.mpr (mem_cons_of_mem _ member))
      exact ordered.root_le (mem_range.mp inside)
    · rw [length_cons] at taken
      rw [(held_perm sifted).length_eq]
      omega

section Choice

variable {waiting : List (α × List α)} {merged : List α} (merges : Merges key waiting merged)

include merges

theorem Merges.perm : merged.Perm (waiting.flatMap fun entry => entry.1 :: entry.2) := by
  induction merges with
  | done => exact .refl _
  | take before least rest ih =>
    have all := before.flatMap_right fun entry => entry.1 :: entry.2
    rw [advanced_flatMap] at ih
    exact (ih.cons _).trans all.symm

omit merges in
/-- What is merged after the root was taken. -/
theorem Merges.mem_iff {root : α × List α} {others : List (α × List α)} {x : α}
    (rest : Merges key (advanced root others) merged) :
    x ∈ merged ↔ x ∈ root.2 ∨ ∃ entry ∈ others, x ∈ entry.1 :: entry.2 := by
  rw [rest.perm.mem_iff, advanced_flatMap, mem_append, mem_flatMap]

theorem Merges.sorted
    (sorted : ∀ entry ∈ waiting, (entry.1 :: entry.2).Pairwise (key · ≤ key ·)) :
    merged.Pairwise (key · ≤ key ·) := by
  induction merges with
  | done => exact .nil
  | @take waiting others root merged before least rest ih =>
    have others_ : ∀ entry ∈ others, (entry.1 :: entry.2).Pairwise (key · ≤ key ·) :=
      fun entry member => sorted entry (before.mem_iff.mpr (mem_cons_of_mem _ member))
    have root_ := pairwise_cons.mp (sorted root (before.mem_iff.mpr mem_cons_self))
    refine pairwise_cons.mpr ⟨?_, ih ?_⟩
    · intro x member
      rcases rest.mem_iff.mp member with inRoot | ⟨entry, isOther, inEntry⟩
      · exact root_.1 x inRoot
      rcases mem_cons.mp inEntry with rfl | later
      · exact least entry isOther
      exact (least entry isOther).trans ((pairwise_cons.mp (others_ entry isOther)).1 x later)
    · intro entry member
      rcases mem_advanced.mp member with isRoot | isOther
      · exact isRoot ▸ root_.2
      · exact others_ entry isOther

/-- Every list that waits is taken in its order. -/
theorem Merges.sublist {entry : α × List α} (member : entry ∈ waiting) :
    (entry.1 :: entry.2).Sublist merged := by
  induction merges generalizing entry with
  | done => cases member
  | @take waiting others root merged before least rest ih =>
    rcases mem_cons.mp (before.mem_iff.mp member) with rfl | isOther
    · refine Sublist.cons_cons _ ?_
      cases waits : entry.2 with
      | nil => exact nil_sublist _
      | cons x xs => exact @ih (x, xs) (mem_advanced.mpr (.inl waits.symm))
    · exact (ih (mem_advanced.mpr (.inr isOther))).cons _

end Choice

theorem nonempty_flatten (lists : List (List α)) :
    ((nonempty lists).flatMap fun entry => entry.1 :: entry.2) = lists.flatten := by
  induction lists using nonempty.induct with
  | case1 => rfl
  | case2 lists ih => rw [nonempty, ih, flatten_cons, nil_append]
  | case3 x xs lists ih => rw [nonempty, flatMap_cons, ih, flatten_cons]

variable {lists : List (List α)}

theorem nonempty_mem {entry : α × List α} (member : entry ∈ nonempty lists) :
    entry.1 :: entry.2 ∈ lists := by
  induction lists using nonempty.induct with
  | case1 => cases member
  | case2 lists ih => exact mem_cons_of_mem _ (ih member)
  | case3 x xs lists ih =>
    rcases mem_cons.mp member with rfl | later
    · exact mem_cons_self
    · exact mem_cons_of_mem _ (ih later)

/-- The array that holds the entries of a list. -/
theorem entries_getD {β : Type*} (xs : List β) (default : β) :
    entries (fun i => xs.getD i default) xs.length = xs := by
  apply ext_getElem
  · simp [entries]
  · intro i _ inside
    simp [entries, List.getElem?_eq_getElem inside]

/-- The heap that the merge starts from holds the lists that are not empty. -/
theorem entries_heapify (key : α → κ) (entry : α × List α) (rest : List (α × List α)) :
    (entries (heapify (headKey key) (rest.length + 1) fun i => (entry :: rest).getD i entry)
      (rest.length + 1)).Perm (entry :: rest) :=
  (heapifyBelow_perm (Nat.div_le_self _ _)).trans (.of_eq (entries_getD (entry :: rest) entry))

theorem heapMerge_merges (lists : List (List α)) :
    Merges key (nonempty lists) (heapMerge key lists) := by
  rw [heapMerge, ← nonempty_flatten lists]
  cases nonempty lists with
  | nil => exact .done
  | cons entry rest =>
    have perm := entries_heapify key entry rest
    have all := perm.flatMap_right fun entry => entry.1 :: entry.2
    exact (drain_merges (heapify_heap _) all.length_eq.le).of_perm perm

/-- **The merge holds the elements of all lists.** -/
theorem heapMerge_perm (lists : List (List α)) : (heapMerge key lists).Perm lists.flatten :=
  (heapMerge_merges lists).perm.trans (.of_eq (nonempty_flatten lists))

/-- **The merge of sorted lists is sorted.** -/
theorem heapMerge_sorted (sorted : ∀ list ∈ lists, list.Pairwise (key · ≤ key ·)) :
    (heapMerge key lists).Pairwise (key · ≤ key ·) :=
  (heapMerge_merges lists).sorted fun _ member => sorted _ (nonempty_mem member)

theorem mem_nonempty {x : α} {xs : List α} (member : x :: xs ∈ lists) :
    (x, xs) ∈ nonempty lists := by
  induction lists using nonempty.induct with
  | case1 => cases member
  | case2 lists ih => exact ih ((mem_cons.mp member).resolve_left (cons_ne_nil x xs))
  | case3 y ys lists ih =>
    rcases mem_cons.mp member with same | later
    · rw [nonempty, (List.cons.inj same).1, (List.cons.inj same).2]
      exact mem_cons_self
    · exact mem_cons_of_mem _ (ih later)

/-- **Each list is merged in its order.** -/
theorem sublist_heapMerge {list : List α} (member : list ∈ lists) :
    list.Sublist (heapMerge key lists) := by
  cases list with
  | nil => exact nil_sublist _
  | cons x xs => exact (heapMerge_merges lists).sublist (mem_nonempty member)

/-! ### The order of the lists in the merge -/

def waitingLists (waiting : List (α × List α)) : List (List α) :=
  waiting.map fun entry => entry.1 :: entry.2

theorem waitingLists_nonempty (lists : List (List α)) :
    waitingLists (nonempty lists) = lists.filter fun list => !list.isEmpty := by
  induction lists using nonempty.induct with
  | case1 => rfl
  | case2 lists ih => simpa [nonempty] using ih
  | case3 x xs lists ih => simpa [nonempty, waitingLists] using ih

section Interleaving

variable [LinearOrder α]

/-- The key of an element is at most that of the first greater element of another list. -/
def Follows (key : α → κ) (list other : List α) : Prop :=
  ∀ a ∈ list, ∀ b ∈ other.find? fun b => decide (a < b), key a ≤ key b

def ListsFollow (key : α → κ) (lists : List (List α)) : Prop :=
  lists.Pairwise fun list other => Follows key list other ∧ Follows key other list

theorem follows_nil_left (list : List α) : Follows key [] list := by
  intro a absent
  cases absent

theorem follows_nil_right (list : List α) : Follows key list [] := by
  intro a _ b found
  cases found

/-- An element below all of a list is followed by it, given the key of the first. -/
theorem follows_cons_left {a x : α} {list other : List α} (below : a < x)
    (first : key a ≤ key x) (rest : Follows key list (x :: other)) :
    Follows key (a :: list) (x :: other) := by
  intro b member c found
  rcases mem_cons.mp member with rfl | later
  · rw [List.find?_cons_of_pos (by simpa using below)] at found
    exact Option.mem_some_iff.mp found ▸ first
  · exact rest b later c found

/-- A first element that is not greater than any of a list does not matter to it. -/
theorem follows_cons_right {x : α} {list other : List α} (least : ∀ a ∈ list, x ≤ a) :
    Follows key list (x :: other) ↔ Follows key list other := by
  refine forall₂_congr fun a member => ?_
  rw [List.find?_cons_of_neg (by simpa using least a member)]

theorem ListsFollow.perm {lists lists' : List (List α)} (follow : ListsFollow key lists)
    (perm : lists.Perm lists') : ListsFollow key lists' :=
  perm.pairwise follow fun both => ⟨both.2, both.1⟩

variable {others : List (α × List α)} {root : α × List α}

theorem listsFollow_cons :
    ListsFollow key (waitingLists (root :: others)) ↔
      (∀ entry ∈ others, Follows key (root.1 :: root.2) (entry.1 :: entry.2) ∧
        Follows key (entry.1 :: entry.2) (root.1 :: root.2)) ∧
      ListsFollow key (waitingLists others) := by
  simp only [ListsFollow, waitingLists, pairwise_map, pairwise_cons]

theorem listsFollow_advanced :
    ListsFollow key (waitingLists (advanced root others)) ↔
      (∀ entry ∈ others, Follows key root.2 (entry.1 :: entry.2) ∧
        Follows key (entry.1 :: entry.2) root.2) ∧
      ListsFollow key (waitingLists others) := by
  unfold advanced
  cases root.2 with
  | nil =>
    refine (and_iff_right ?_).symm
    intro entry _
    exact ⟨follows_nil_left _, follows_nil_right _⟩
  | cons x rest => exact listsFollow_cons

/-- The least of the keys of the first elements belongs to the least of them. -/
theorem root_le_of_follow (injective : Function.Injective key)
    (follow : ListsFollow key (waitingLists (root :: others)))
    (least : ∀ entry ∈ others, key root.1 ≤ key entry.1) : ∀ entry ∈ others, root.1 ≤ entry.1 := by
  intro entry member
  by_contra above
  have before : entry.1 < root.1 := not_le.mp above
  have found : root.1 ∈ (root.1 :: root.2).find? fun b => decide (entry.1 < b) :=
    List.find?_cons_of_pos (by simpa using before)
  have later := ((listsFollow_cons.mp follow).1 entry member).2 entry.1 mem_cons_self root.1 found
  exact before.ne (injective (le_antisymm later (least entry member)))

def Increasing (waiting : List (α × List α)) : Prop :=
  ∀ list ∈ waitingLists waiting, list.Pairwise (· < ·)

theorem Increasing.perm {waiting waiting' : List (α × List α)} (increasing : Increasing waiting)
    (perm : waiting.Perm waiting') : Increasing waiting' := fun list member =>
  increasing list ((perm.map _).mem_iff.mpr member)

theorem Increasing.advanced (increasing : Increasing (root :: others)) :
    Increasing (advanced root others) := by
  intro list member
  obtain ⟨entry, waits, rfl⟩ := mem_map.mp member
  rcases mem_advanced.mp waits with isRoot | isOther
  · exact isRoot ▸ (pairwise_cons.mp (increasing _ mem_cons_self)).2
  · exact increasing _ (mem_cons_of_mem _ (mem_map_of_mem isOther))

section Choice

variable {waiting : List (α × List α)} {merged : List α} (merges : Merges key waiting merged)

include merges

theorem Merges.le (injective : Function.Injective key) (increasing : Increasing waiting)
    (follow : ListsFollow key (waitingLists waiting)) : merged.Pairwise (· ≤ ·) := by
  induction merges with
  | done => exact .nil
  | @take waiting others root merged before least rest ih =>
    have increasing' := increasing.perm before
    have follow' := follow.perm (before.map _)
    have first := root_le_of_follow injective follow' least
    -- the root is at most every element of the other lists
    have below : ∀ entry ∈ others, ∀ a ∈ entry.1 :: entry.2, root.1 ≤ a := by
      intro entry member a inEntry
      rcases mem_cons.mp inEntry with rfl | later
      · exact first entry member
      have sorted := increasing' _ (mem_cons_of_mem _ (mem_map_of_mem member))
      exact (first entry member).trans ((pairwise_cons.mp sorted).1 a later).le
    refine pairwise_cons.mpr ⟨?_, ih increasing'.advanced (listsFollow_advanced.mpr ⟨?_, ?_⟩)⟩
    · intro x member
      rcases rest.mem_iff.mp member with inRoot | ⟨entry, isOther, inEntry⟩
      · exact ((pairwise_cons.mp (increasing' _ mem_cons_self)).1 x inRoot).le
      · exact below entry isOther x inEntry
    · intro entry member
      obtain ⟨left, right⟩ := (listsFollow_cons.mp follow').1 entry member
      refine ⟨fun a inRest => left a (mem_cons_of_mem _ inRest), ?_⟩
      exact (follows_cons_right (below entry member)).mp right
    · exact (listsFollow_cons.mp follow').2

theorem Merges.listsFollow (sorted : merged.Pairwise (· < ·)) :
    ListsFollow key (waitingLists waiting) := by
  induction merges with
  | done => exact .nil
  | @take waiting others root merged before least rest ih =>
    rw [pairwise_cons] at sorted
    obtain ⟨cross, later⟩ := listsFollow_advanced.mp (ih sorted.2)
    -- everything else that waits is taken after the root
    have below : ∀ entry ∈ others, ∀ a ∈ entry.1 :: entry.2, root.1 < a := by
      intro entry member a inEntry
      exact sorted.1 a (rest.mem_iff.mpr (.inr ⟨entry, member, inEntry⟩))
    refine ListsFollow.perm (listsFollow_cons.mpr ⟨?_, later⟩) (before.map _).symm
    intro entry member
    obtain ⟨left, right⟩ := cross entry member
    refine ⟨follows_cons_left (below entry member _ mem_cons_self) (least entry member)
      left, (follows_cons_right ?_).mpr right⟩
    intro a inEntry
    exact (below entry member a inEntry).le

end Choice

/-- Empty lists follow all others and are followed by them. -/
theorem listsFollow_nonempty (lists : List (List α)) :
    ListsFollow key (waitingLists (nonempty lists)) ↔ ListsFollow key lists := by
  rw [waitingLists_nonempty, ListsFollow, pairwise_filter]
  refine ⟨fun follow => follow.imp ?_, fun follow => follow.imp fun both _ _ => both⟩
  intro list other both
  cases list with
  | nil => exact ⟨follows_nil_left _, follows_nil_right _⟩
  | cons x xs =>
    cases other with
    | nil => exact ⟨follows_nil_right _, follows_nil_left _⟩
    | cons y ys => exact both rfl rfl

/-- **The merge of increasing lists that follow each other is sorted**, whatever order the key
gives to elements that the merge never compares. -/
theorem heapMerge_le (injective : Function.Injective key) {lists : List (List α)}
    (increasing : ∀ list ∈ lists, list.Pairwise (· < ·)) (follow : ListsFollow key lists) :
    (heapMerge key lists).Pairwise (· ≤ ·) := by
  have waiting : Increasing (nonempty lists) := by
    intro list member
    obtain ⟨entry, inLists, rfl⟩ := mem_map.mp member
    exact increasing _ (nonempty_mem inLists)
  exact (heapMerge_merges lists).le injective waiting ((listsFollow_nonempty lists).mpr follow)

/-- **Lists whose merge increases strictly follow each other.** -/
theorem listsFollow_of_heapMerge_lt {lists : List (List α)}
    (sorted : (heapMerge key lists).Pairwise (· < ·)) : ListsFollow key lists :=
  (listsFollow_nonempty lists).mp ((heapMerge_merges lists).listsFollow sorted)

end Interleaving

end Merge

end Wirelog.Foundations

import Wirelog.Columnar.DeltaExact

/-!
# What the consolidate operators leave

`col_op_consolidate` and `col_op_consolidate_diff` take the relation on top of the evaluation stack
and leave its different rows in strictly increasing order. They do so in four ways: by a hash table,
by merging the segments of a concatenation, by merging a sorted part with the sorted rest, and by
sorting everything.

None of the four looks at what the sort returns. They leave the right rows exactly when each sort
that is made has memory or finds its rows in order (`SortsHold`, `consolidate_exact`). The rows are
then the same on all ways: `sortDistinct`, which mentions none of them.
-/

set_option autoImplicit false

namespace Wirelog.Columnar

open Foundations List

variable {types : List ColumnType}

/-! ## The purpose -/

variable (rows : List (TypedRow types))

/-- The different rows in strictly increasing order. -/
def sortDistinct : List (TypedRow types) :=
  rows.toFinset.sort (· ≤ ·)

theorem consolidated_sortDistinct : Consolidated rows (sortDistinct rows) where
  sorted := Finset.sortedLT_sort _ |>.pairwise
  same row := by rw [sortDistinct, Finset.mem_sort, mem_toFinset]

/-- There is one way to consolidate rows. -/
theorem consolidated_iff {rows out : List (TypedRow types)} :
    Consolidated rows out ↔ out = sortDistinct rows := by
  constructor
  · intro done
    have spec := consolidated_sortDistinct rows
    refine List.Perm.eq_of_pairwise' (done.sorted.imp le_of_lt) (spec.sorted.imp le_of_lt) ?_
    refine (perm_ext_iff_of_nodup (done.sorted.imp ne_of_lt) (spec.sorted.imp ne_of_lt)).mpr ?_
    intro row
    exact (done.same row).trans (spec.same row).symm
  · rintro rfl
    exact consolidated_sortDistinct rows

/-! ## The hash table -/

local instance typedRowLawful : LawfulBEq (TypedRow types) := inferInstance

def addNew (row : TypedRow types) : List (TypedRow types) :=
  if row ∈ rows then rows else rows ++ [row]

/-- The different rows in the order in which they are first met. -/
def firstOccurrences : List (TypedRow types) :=
  rows.foldl addNew []

theorem mem_foldl_addNew {row : TypedRow types} (rows seen : List (TypedRow types)) :
    row ∈ rows.foldl addNew seen ↔ row ∈ seen ∨ row ∈ rows := by
  induction rows generalizing seen with
  | nil => simp
  | cons first rows ih =>
    have here : row ∈ addNew seen first ↔ row ∈ seen ∨ row = first := by
      unfold addNew
      split_ifs with old
      · refine (or_iff_left_of_imp ?_).symm
        rintro rfl
        exact old
      · rw [mem_append, mem_singleton]
    rw [foldl_cons, ih, here, mem_cons, or_assoc]

theorem mem_firstOccurrences {row : TypedRow types} {rows : List (TypedRow types)} :
    row ∈ firstOccurrences rows ↔ row ∈ rows := by
  rw [firstOccurrences, mem_foldl_addNew]
  simp

def homeSlot (capacity : Nat) (row : TypedRow types) : Nat := (hashRow row).toNat % capacity

theorem storeRow_hashed {capacity : Nat} {slots : Nat → Option (TypedRow types)}
    {rows : List (TypedRow types)}
    (hashed : Hashed capacity (homeSlot capacity) slots (· ∈ rows)) (few : rows.length < capacity)
    {row : TypedRow types} (fresh : row ∉ rows) :
    Hashed capacity (homeSlot capacity) (storeRow capacity slots row) (· ∈ rows ++ [row]) := by
  have inside : homeSlot capacity row < capacity := Nat.mod_lt _ (by omega)
  have never : ∀ other, other ∈ rows → (fun _ => false : TypedRow types → Bool) other = false :=
    fun _ _ => rfl
  obtain ⟨d, within, found, free, occupied⟩ := hashed.lookupSlot_absent never
    (hashed.exists_free_of_length few) inside
  have stored : storeRow capacity slots row =
      Function.update slots (slotAt capacity (homeSlot capacity row) d) (some row) := by
    unfold storeRow
    rw [homeSlot] at found
    rw [found, homeSlot]
  rw [stored]
  refine (hashed.insert fresh within free occupied).congr ?_ fun _ _ => rfl
  intro other
  rw [mem_append, mem_singleton]

/-- A table holds the rows found so far. -/
structure UniqueRows.Valid (t : UniqueRows types) : Prop where
  several : 2 ≤ t.capacity
  room : t.rows.length < t.capacity
  hashed : Hashed t.capacity (homeSlot t.capacity) t.slots (· ∈ t.rows)

variable {t : UniqueRows types}

theorem UniqueRows.Valid.positive (valid : t.Valid) : 0 < t.capacity :=
  Nat.lt_of_lt_of_le Nat.zero_lt_two valid.several

/-- The slots of the larger table after the first slots of the old one were moved. -/
def movedSlots (t : UniqueRows types) (p : Nat) : Nat → Option (TypedRow types) :=
  (List.range p).foldl (fun slots p =>
    match t.slots p with
    | none => slots
    | some row => storeRow (t.capacity * 2) slots row) fun _ => none

theorem movedSlots_succ (t : UniqueRows types) (p : Nat) :
    movedSlots t (p + 1) =
      match t.slots p with
      | none => movedSlots t p
      | some row => storeRow (t.capacity * 2) (movedSlots t p) row := by
  rw [movedSlots, range_succ, foldl_append]
  rfl

theorem movedSlots_hashed (valid : t.Valid) {p : Nat} (inside : p ≤ t.capacity) :
    Hashed (t.capacity * 2) (homeSlot (t.capacity * 2)) (movedSlots t p)
      (· ∈ (List.range p).filterMap t.slots) := by
  induction p with
  | zero => exact .empty fun _ => not_mem_nil
  | succ p ih =>
    have before := ih (by omega)
    rw [movedSlots_succ, range_succ, filterMap_append]
    cases slot : t.slots p with
    | none => simpa [slot] using before
    | some row =>
      have short : ((List.range p).filterMap t.slots).length ≤ p := by
        simpa using length_filterMap_le t.slots (List.range p)
      have fresh : row ∉ (List.range p).filterMap t.slots := by
        intro earlier
        obtain ⟨q, below, same⟩ := mem_filterMap.mp earlier
        have lt := mem_range.mp below
        have := valid.hashed.unique q (by omega) p (by omega) row same slot
        omega
      have added := storeRow_hashed before (by omega) fresh
      simpa [slot] using added

theorem growTable_valid (valid : t.Valid) : (growTable t).Valid where
  several := by
    have := valid.several
    change 2 ≤ t.capacity * 2
    omega
  room := by
    have := valid.room
    change t.rows.length < t.capacity * 2
    omega
  hashed := by
    refine (movedSlots_hashed valid le_rfl).congr ?_ fun _ _ => rfl
    intro row
    rw [mem_filterMap]
    constructor
    · rintro ⟨p, below, stored⟩
      exact valid.hashed.sound p (mem_range.mp below) row stored
    · intro member
      obtain ⟨d, -, stored, -⟩ := valid.hashed.placed row member
      exact ⟨_, mem_range.mpr (slotAt_lt valid.positive), stored⟩

variable {faults : HashFaults} {t t' : UniqueRows types}

theorem addUnique_spec (valid : t.Valid) (room : t.rows.length + 1 < t.capacity)
    {row : TypedRow types} (fresh : row ∉ t.rows) (done : addUnique faults t row = some t') :
    t'.Valid ∧ t'.rows = t.rows ++ [row] := by
  unfold addUnique at done
  by_cases noBuffer : t.bufferCap ≤ t.rows.length ∧ faults.buffer t.rows.length = true
  · rw [if_pos noBuffer] at done
    cases done
  rw [if_neg noBuffer] at done
  cases done
  refine ⟨⟨valid.several, ?_, storeRow_hashed valid.hashed valid.room fresh⟩, rfl⟩
  change (t.rows ++ [row]).length < t.capacity
  rwa [length_append, length_singleton]

/-- **One round adds the row if it is new.** -/
theorem uniqueStep_spec {nrows : Nat} (valid : t.Valid) {row : TypedRow types}
    (done : uniqueStep faults nrows t row = some t') : t'.Valid ∧ t'.rows = addNew t.rows row := by
  have inside : homeSlot t.capacity row < t.capacity := Nat.mod_lt _ valid.positive
  unfold uniqueStep at done
  rw [← homeSlot] at done
  by_cases old : row ∈ t.rows
  · have only : ∀ other, other ∈ t.rows → (other == row) = true → other = row :=
      fun other _ same => beq_iff_eq.mp same
    obtain ⟨p, -, found⟩ : ∃ p < t.capacity, lookupSlot t.capacity (homeSlot t.capacity row)
        t.slots (fun other => other == row) = some (p, some row) :=
      valid.hashed.lookupSlot_match old (beq_self_eq_true row) only inside
    rw [found] at done
    cases done
    exact ⟨valid, (if_pos old).symm⟩
  · have absent : ∀ other, other ∈ t.rows → (other == row) = false := by
      intro other member
      refine beq_eq_false_iff_ne.mpr ?_
      rintro rfl
      exact old member
    have room := valid.room
    have several := valid.several
    obtain ⟨d, -, found, -⟩ := valid.hashed.lookupSlot_absent absent
      (valid.hashed.exists_free_of_length room) inside
    rw [found] at done
    rw [addNew, if_neg old]
    simp only at done
    split_ifs at done with full
    · refine addUnique_spec (growTable_valid valid) ?_ old done
      change t.rows.length + 1 < t.capacity * 2
      omega
    · exact addUnique_spec valid (by omega) old done

/-- **The loop finds the different rows in the order in which they are first met.** -/
theorem uniqueSteps_spec {nrows : Nat} {rows : List (TypedRow types)} (valid : t.Valid)
    (done : rows.foldlM (uniqueStep faults nrows) t = some t') :
    t'.rows = rows.foldl addNew t.rows := by
  induction rows generalizing t with
  | nil =>
    cases done
    rfl
  | cons row rows ih =>
    rw [foldlM_cons] at done
    obtain ⟨next, step, rest⟩ := Option.bind_eq_some_iff.mp done
    obtain ⟨valid', same⟩ := uniqueStep_spec valid step
    rw [ih valid' rest, same, foldl_cons]

theorem emptyTable_valid :
    UniqueRows.Valid (⟨8192, fun _ => none, 4096, []⟩ : UniqueRows types) where
  several := Nat.le_of_ble_eq_true rfl
  room := Nat.succ_pos 8191
  hashed := .empty fun _ => not_mem_nil

variable {outOfMemory : Bool}

/-- Sorting rows that hold the same as others and dropping adjacent equal ones is right when the
sort has memory or nothing to do. -/
theorem consolidated_sortTyped_iff {rows some : List (TypedRow types)}
    (same : ∀ row, row ∈ some ↔ row ∈ rows) :
    Consolidated rows (uniqueAdjacent (sortTyped outOfMemory some)) ↔
      outOfMemory = false ∨ some.Pairwise (· ≤ ·) := by
  rw [← sortTyped_sorted_iff, ← uniqueAdjacent_lt_iff]
  refine ⟨fun consolidated => consolidated.sorted, fun sorted => ⟨sorted, fun row => ?_⟩⟩
  rw [mem_uniqueAdjacent, (sortTyped_perm _ _).mem_iff, same]

/-- **The hash table leaves the right rows when its sort has memory or nothing to do.** -/
theorem consolidateHashDedup_iff {rows out : List (TypedRow types)}
    (done : consolidateHashDedup faults rows = some out) :
    Consolidated rows out ↔ faults.sort = false ∨ (firstOccurrences rows).Pairwise (· ≤ ·) := by
  unfold consolidateHashDedup at done
  split_ifs at done
  cases loop : rows.foldlM (uniqueStep faults rows.length)
      (⟨8192, fun _ => none, 4096, []⟩ : UniqueRows types) with
  | none => simp [loop] at done
  | some t =>
    have found : t.rows = firstOccurrences rows := uniqueSteps_spec emptyTable_valid loop
    rw [loop] at done
    simp only [found] at done
    split_ifs at done with few
    · cases done
      have single := consolidated_of_le_one few
      refine iff_of_true ⟨single.sorted, fun row => mem_firstOccurrences⟩ (.inr ?_)
      exact single.sorted.imp le_of_lt
    · cases done
      exact consolidated_sortTyped_iff fun row => mem_firstOccurrences

/-! ## The segments -/

variable {segment : List (TypedRow types)}

theorem mem_sortSegment {row : TypedRow types} :
    row ∈ sortSegment outOfMemory segment ↔ row ∈ segment := by
  unfold sortSegment
  split_ifs
  · exact Iff.rfl
  · rw [emitDistinct_none, mem_uniqueAdjacent]
  · rw [emitDistinct_none, mem_uniqueAdjacent, (sortTyped_perm _ _).mem_iff]

/-- A segment in weak order, sorted or not, is in strict order. -/
theorem sortSegment_lt_of_le (sorted : (sortSegment outOfMemory segment).Pairwise (· ≤ ·)) :
    (sortSegment outOfMemory segment).Pairwise (· < ·) := by
  unfold sortSegment at sorted ⊢
  split_ifs at sorted ⊢ with few chain
  · exact (consolidated_of_le_one few).sorted
  · rw [emitDistinct_none] at sorted ⊢
    exact uniqueAdjacent_lt (pairwise_le_of_uniqueAdjacent sorted)
  · rw [emitDistinct_none] at sorted ⊢
    exact uniqueAdjacent_lt (pairwise_le_of_uniqueAdjacent sorted)

theorem sortSegment_sorted_iff :
    (sortSegment outOfMemory segment).Pairwise (· ≤ ·) ↔
      outOfMemory = false ∨ segment.Pairwise (· ≤ ·) := by
  unfold sortSegment
  split_ifs with few chain
  · have sorted := (consolidated_of_le_one few).sorted.imp le_of_lt
    exact iff_of_true sorted (.inr sorted)
  · have sorted := isChain_iff_pairwise.mp chain
    rw [emitDistinct_none]
    exact iff_of_true ((uniqueAdjacent_lt sorted).imp le_of_lt) (.inr sorted)
  · rw [emitDistinct_none, ← sortTyped_sorted_iff]
    constructor
    · exact pairwise_le_of_uniqueAdjacent
    · intro sorted
      exact (uniqueAdjacent_lt sorted).imp le_of_lt

/-- **Merging segments leaves their rows in order exactly when each of them is.** -/
theorem mergeSegments_iff {faults : MergeFaults} {sorted : List (List (TypedRow types))}
    (several : 2 ≤ sorted.length)
    (strict : ∀ segment ∈ sorted, segment.Pairwise (· ≤ ·) → segment.Pairwise (· < ·))
    {out : List (TypedRow types)} (done : mergeSegments faults sorted = .ok out) :
    Consolidated sorted.flatten out ↔ ∀ segment ∈ sorted, segment.Pairwise (· ≤ ·) := by
  have ordered : (∀ segment ∈ sorted, segment.Pairwise (· ≤ ·)) → out.Pairwise (· < ·) := by
    intro each
    exact mergeSegments_sorted (fun segment member => strict segment member (each segment member))
      done
  unfold mergeSegments at done
  match sorted, several with
  | [left, right], _ =>
    simp only at done
    split_ifs at done
    obtain rfl := Except.ok.inj done
    rw [emitDistinct_none] at ordered ⊢
    constructor
    · intro consolidated
      have merged := uniqueAdjacent_lt_iff.mp consolidated.sorted
      rintro segment (_ | ⟨_, _ | ⟨_, absent⟩⟩)
      · exact merged.sublist (sublist_mergeUnique_left left right)
      · exact merged.sublist (sublist_mergeUnique_right left right)
      · cases absent
    · intro each
      refine ⟨ordered each, fun row => ?_⟩
      rw [mem_uniqueAdjacent, mem_mergeUnique]
      simp
  | first :: second :: third :: rest, _ =>
    simp only at done
    split_ifs at done
    obtain rfl := Except.ok.inj done
    rw [emitDistinct_none] at ordered ⊢
    constructor
    · intro consolidated segment member
      have merged := uniqueAdjacent_lt_iff.mp consolidated.sorted
      exact merged.sublist (sublist_heapMerge member)
    · intro each
      refine ⟨ordered each, fun row => ?_⟩
      rw [mem_uniqueAdjacent, (heapMerge_perm _).mem_iff]

/-- Each segment has memory for its sort or is in order. -/
def SegmentsSorted (outOfMemory : Nat → Bool) (parts : List (List (TypedRow types))) : Prop :=
  ∀ s part, parts[s]? = some part → outOfMemory s = false ∨ part.Pairwise (· ≤ ·)

def sortedParts (outOfMemory : Nat → Bool) (parts : List (List (TypedRow types))) :
    List (List (TypedRow types)) :=
  parts.zipIdx.map fun (segment, s) => sortSegment (outOfMemory s) segment

section SortedParts

variable {outOfMemory : Nat → Bool} {parts : List (List (TypedRow types))}

theorem mem_sortedParts {part : List (TypedRow types)} :
    part ∈ sortedParts outOfMemory parts ↔
      ∃ s segment, parts[s]? = some segment ∧ sortSegment (outOfMemory s) segment = part := by
  rw [sortedParts, mem_map]
  constructor
  · rintro ⟨⟨segment, s⟩, member, rfl⟩
    exact ⟨s, segment, mem_zipIdx_iff_getElem?.mp member, rfl⟩
  · rintro ⟨s, segment, here, rfl⟩
    exact ⟨(segment, s), mem_zipIdx_iff_getElem?.mpr here, rfl⟩

theorem sortedParts_sorted_iff :
    (∀ part ∈ sortedParts outOfMemory parts, part.Pairwise (· ≤ ·)) ↔
      SegmentsSorted outOfMemory parts := by
  constructor
  · intro each s segment here
    exact sortSegment_sorted_iff.mp (each _ (mem_sortedParts.mpr ⟨s, segment, here, rfl⟩))
  · intro each part member
    obtain ⟨s, segment, here, rfl⟩ := mem_sortedParts.mp member
    exact sortSegment_sorted_iff.mpr (each s segment here)

theorem mem_sortedParts_flatten {row : TypedRow types} :
    row ∈ (sortedParts outOfMemory parts).flatten ↔ row ∈ parts.flatten := by
  simp only [mem_flatten, mem_sortedParts]
  constructor
  · rintro ⟨part, ⟨s, segment, here, rfl⟩, member⟩
    exact ⟨segment, mem_of_getElem? here, mem_sortSegment.mp member⟩
  · rintro ⟨segment, isPart, member⟩
    obtain ⟨s, here⟩ := mem_iff_getElem?.mp isPart
    exact ⟨_, ⟨s, segment, here, rfl⟩, mem_sortSegment.mpr member⟩

end SortedParts

/-- The sorts of `col_op_consolidate_kway_merge` that are made hold. -/
structure MergeSortsHold (faults : MergeFaults) (parts : List (List (TypedRow types)))
    (rows : List (TypedRow types)) : Prop where
  hashed : (hashManyRows faults.hash rows).isSome = true →
    faults.hash.sort = false ∨ (firstOccurrences rows).Pairwise (· ≤ ·)
  merged : hashManyRows faults.hash rows = none → SegmentsSorted faults.sort parts

theorem consolidateKwayMerge_iff {faults : MergeFaults} {stops : List Nat}
    {rows out : List (TypedRow types)} (several : 2 ≤ stops.length)
    (whole : (segments rows 0 stops).flatten = rows) (many : ¬ rows.length ≤ 1)
    (done : consolidateKwayMerge faults 0 stops rows = .ok out) :
    Consolidated rows out ↔ MergeSortsHold faults (segments rows 0 stops) rows := by
  unfold consolidateKwayMerge at done
  rw [if_neg many] at done
  cases hashed : hashManyRows faults.hash rows with
  | some unique =>
    rw [hashed] at done
    obtain rfl := Except.ok.inj done
    have found := hashed
    unfold hashManyRows at found
    split_ifs at found
    rw [consolidateHashDedup_iff found]
    constructor
    · intro sorts
      refine ⟨fun _ => sorts, fun none => ?_⟩
      rw [hashed] at none
      cases none
    · intro sorts
      exact sorts.hashed (by rw [hashed]; rfl)
  | none =>
    rw [hashed] at done
    by_cases fails : faults.bounds = true
    · simp [fails] at done
    rw [if_neg fails] at done
    have strict : ∀ part ∈ sortedParts faults.sort (segments rows 0 stops),
        part.Pairwise (· ≤ ·) → part.Pairwise (· < ·) := by
      intro part member
      obtain ⟨s, segment, -, rfl⟩ := mem_sortedParts.mp member
      exact sortSegment_lt_of_le
    have count : 2 ≤ (sortedParts faults.sort (segments rows 0 stops)).length := by
      rw [sortedParts, length_map, length_zipIdx]
      exact several.trans_eq (length_runs ⟨rows, 0, stops⟩).symm
    have merged := mergeSegments_iff count strict done
    rw [sortedParts_sorted_iff] at merged
    have same : Consolidated rows out ↔
        Consolidated (sortedParts faults.sort (segments rows 0 stops)).flatten out := by
      refine ⟨fun all => ⟨all.sorted, fun row => ?_⟩, fun all => ⟨all.sorted, fun row => ?_⟩⟩
      · rw [all.same, mem_sortedParts_flatten, whole]
      · rw [all.same, mem_sortedParts_flatten, whole]
    rw [same, merged]
    constructor
    · intro sorts
      refine ⟨fun some => ?_, fun _ => sorts⟩
      rw [hashed] at some
      cases some
    · intro sorts
      exact sorts.merged hashed

/-! ## The operators -/

/-- An entry of the evaluation stack: a relation, whether the stack owns it, and the segments of
its rows if it is a concatenation. -/
structure StackEntry (types : List ColumnType) where
  rel : OrderedRows types
  owned : Bool
  bounds : Option (Nat × List Nat)

/-- The recorded sorted part is sorted, and the segments cover the rows one after the other. -/
structure StackEntry.Valid (entry : StackEntry types) : Prop where
  sorted_le : entry.rel.sortedNrows ≤ entry.rel.rows.length
  sorted : (entry.rel.rows.take entry.rel.sortedNrows).Pairwise (· < ·)
  covers : ∀ first stops, entry.bounds = some (first, stops) →
    first = 0 ∧ stops.Pairwise (· ≤ ·) ∧ stops.getLastD 0 = entry.rel.rows.length

/-- What the operators consolidate: the relation, or a copy of a borrowed one, about which nothing
is recorded. -/
def StackEntry.work (entry : StackEntry types) : OrderedRows types :=
  if entry.owned then entry.rel else ⟨entry.rel.rows, 0, []⟩

/-- The body that both operators have. -/
def consolidateEntry (faults : ConsolidateFaults) (copyFails : Bool) (entry : StackEntry types) :
    Except Rc (OrderedRows types) :=
  if entry.rel.rows.length ≤ 1 then .ok (.oneRun entry.rel.rows)
  else if !entry.owned && copyFails then .error .enomem
  else opConsolidate faults entry.bounds entry.work

def colOpConsolidate (faults : ConsolidateFaults) (copyFails : Bool) (entry : StackEntry types) :
    Except Rc (OrderedRows types) := consolidateEntry faults copyFails entry

def colOpConsolidateDiff (faults : ConsolidateFaults) (copyFails : Bool)
    (entry : StackEntry types) : Except Rc (OrderedRows types) :=
  consolidateEntry faults copyFails entry

/-- The sort that is made without segments holds: that of the rows behind the sorted ones, or that
of all rows. -/
def RowsSortHolds (outOfMemory : Bool) (r : OrderedRows types) : Prop :=
  outOfMemory = false ∨
    (if 0 < r.sortedNrows ∧ r.sortedNrows < r.rows.length then r.rows.drop r.sortedNrows
      else r.rows).Pairwise (· ≤ ·)

/-- The sorts that are made have memory or find their rows in order. -/
def SortsHold (faults : ConsolidateFaults) (entry : StackEntry types) : Prop :=
  entry.rel.rows.length ≤ 1 ∨
    match entry.bounds with
    | some (first, stops) =>
      if 2 ≤ stops.length then
        MergeSortsHold faults.merge (segments entry.rel.rows first stops) entry.rel.rows
      else RowsSortHolds faults.sort entry.work
    | none => RowsSortHolds faults.sort entry.work

theorem consolidateRows_iff {faults : ConsolidateFaults} {r : OrderedRows types}
    (sorted : (r.rows.take r.sortedNrows).Pairwise (· < ·)) {out : List (TypedRow types)}
    (done : consolidateRows faults r = .ok out) :
    Consolidated r.rows out ↔ RowsSortHolds faults.sort r := by
  unfold consolidateRows at done
  unfold RowsSortHolds
  by_cases part : 0 < r.sortedNrows ∧ r.sortedNrows < r.rows.length
  · rw [if_pos part] at done ⊢
    split_ifs at done
    obtain rfl := Except.ok.inj done
    rw [← sortTyped_sorted_iff]
    constructor
    · intro consolidated
      exact uniqueAdjacent_lt_iff.mp (mergeUnique_lt_iff.mp consolidated.sorted).2
    · intro rest
      refine ⟨mergeUnique_lt sorted (uniqueAdjacent_lt rest), fun row => ?_⟩
      rw [mem_mergeUnique, mem_uniqueAdjacent, (sortTyped_perm _ _).mem_iff, ← mem_append,
        take_append_drop]
  · rw [if_neg part] at done ⊢
    obtain rfl := Except.ok.inj done
    exact consolidated_sortTyped_iff fun row => Iff.rfl

theorem StackEntry.work_rows (entry : StackEntry types) : entry.work.rows = entry.rel.rows := by
  unfold StackEntry.work
  split_ifs <;> rfl

variable {entry : StackEntry types}

theorem StackEntry.Valid.work_sorted (valid : entry.Valid) :
    (entry.work.rows.take entry.work.sortedNrows).Pairwise (· < ·) := by
  unfold StackEntry.work
  split_ifs
  · exact valid.sorted
  · exact .nil

/-- The rows that the operators leave are right exactly when their sorts hold. -/
theorem consolidateMany_iff {faults : ConsolidateFaults} (valid : entry.Valid)
    (many : ¬ entry.rel.rows.length ≤ 1) {out : List (TypedRow types)}
    (done : consolidateMany faults entry.bounds entry.work = .ok out) :
    Consolidated entry.rel.rows out ↔ SortsHold faults entry := by
  have covers := valid.covers
  have rows := entry.work_rows
  unfold SortsHold
  rw [or_iff_right many]
  unfold consolidateMany at done
  cases bounds : entry.bounds with
  | none =>
    rw [bounds] at done
    rw [← rows]
    exact consolidateRows_iff valid.work_sorted done
  | some bound =>
    obtain ⟨first, stops⟩ := bound
    rw [bounds] at done
    simp only at done ⊢
    by_cases several : 2 ≤ stops.length
    · rw [if_pos several] at done ⊢
      obtain ⟨rfl, increasing, last⟩ := covers first stops bounds
      have whole : (segments entry.rel.rows 0 stops).flatten = entry.rel.rows := by
        rw [segments_flatten _ (pairwise_cons.mpr ⟨fun e _ => Nat.zero_le e, increasing⟩),
          last, take_length, drop_zero]
      rw [rows] at done
      exact consolidateKwayMerge_iff several whole many done
    · rw [if_neg several] at done ⊢
      rw [← rows]
      exact consolidateRows_iff valid.work_sorted done

theorem consolidateEntry_iff {faults : ConsolidateFaults} {copyFails : Bool} (valid : entry.Valid)
    {r' : OrderedRows types} (done : consolidateEntry faults copyFails entry = .ok r') :
    r' = .oneRun (sortDistinct entry.rel.rows) ↔ SortsHold faults entry := by
  have inj : ∀ xs ys : List (TypedRow types), OrderedRows.oneRun xs = .oneRun ys ↔ xs = ys :=
    fun xs ys => ⟨congrArg OrderedRows.rows, congrArg _⟩
  unfold consolidateEntry at done
  by_cases few : entry.rel.rows.length ≤ 1
  · rw [if_pos few] at done
    obtain rfl := Except.ok.inj done
    rw [inj, ← consolidated_iff]
    exact iff_of_true (consolidated_of_le_one few) (.inl few)
  · rw [if_neg few] at done
    split_ifs at done
    unfold opConsolidate at done
    rw [entry.work_rows, if_neg few] at done
    cases result : consolidateMany faults entry.bounds entry.work with
    | error rc => simp [result] at done
    | ok out =>
      rw [result] at done
      obtain rfl := Except.ok.inj done
      rw [inj, ← consolidated_iff]
      exact consolidateMany_iff valid few result

/-- **Whenever a consolidate operator reports no error, it leaves the different rows of the
relation in strictly increasing order, recorded as one run, exactly when the sorts that it makes
have memory or find their rows in order.** -/
theorem consolidate_exact (faults : ConsolidateFaults) (copyFails : Bool)
    (entry : StackEntry types) (valid : entry.Valid) :
    (∀ r', colOpConsolidate faults copyFails entry = .ok r' →
      (r' = .oneRun (sortDistinct entry.rel.rows) ↔ SortsHold faults entry)) ∧
    (∀ r', colOpConsolidateDiff faults copyFails entry = .ok r' →
      (r' = .oneRun (sortDistinct entry.rel.rows) ↔ SortsHold faults entry)) :=
  ⟨fun _ done => consolidateEntry_iff valid done, fun _ done => consolidateEntry_iff valid done⟩

/-- All memory, or none for the sort of rows without segments. -/
def onlySortFails (outOfMemory : Bool) : ConsolidateFaults where
  merge := ⟨⟨false, fun _ => false, fun _ => false, false⟩, false, fun _ => false, false, false⟩
  sort := outOfMemory
  buffer := false

/-- Two sorted rows and one behind them. -/
theorem consolidate_exact_sorted_part :
    colOpConsolidate (onlySortFails false) false
        (⟨⟨[integerRow 1, integerRow 3, integerRow 2], 2, [2]⟩, true, none⟩ : StackEntry [.int64]) =
      .ok (.oneRun (sortDistinct [integerRow 1, integerRow 3, integerRow 2])) := by
  have valid : StackEntry.Valid (⟨⟨[integerRow 1, integerRow 3, integerRow 2], 2, [2]⟩, true,
      none⟩ : StackEntry [.int64]) :=
    ⟨by decide, by decide +kernel, fun _ _ bounds => nomatch bounds⟩
  have done : colOpConsolidate (onlySortFails false) false
      (⟨⟨[integerRow 1, integerRow 3, integerRow 2], 2, [2]⟩, true, none⟩ : StackEntry [.int64]) =
      .ok (.oneRun [integerRow 1, integerRow 2, integerRow 3]) := by decide +kernel
  rw [done]
  exact congrArg Except.ok (((consolidate_exact (onlySortFails false) false _ valid).1 _ done).mpr
    (.inr (.inl rfl)))

/-- **Two rows out of order, and no memory for the sort: both operators report no error and record
the rows as one sorted run.** -/
theorem unsorted_rows_consolidated :
    StackEntry.Valid (⟨⟨[integerRow 2, integerRow 1], 0, []⟩, true, none⟩ :
        StackEntry [.int64]) ∧
      colOpConsolidate (onlySortFails true) false
        ⟨⟨[integerRow 2, integerRow 1], 0, []⟩, true, none⟩ =
        .ok (.oneRun [integerRow 2, integerRow 1]) ∧
      colOpConsolidateDiff (onlySortFails true) false
        ⟨⟨[integerRow 2, integerRow 1], 0, []⟩, true, none⟩ =
        .ok (.oneRun [integerRow 2, integerRow 1]) ∧
      ¬ [integerRow 2, integerRow 1].Pairwise (· < ·) := by
  refine ⟨⟨by decide, .nil, fun _ _ bounds => nomatch bounds⟩, ?_, ?_, by decide +kernel⟩
  · rfl
  · rfl

end Wirelog.Columnar

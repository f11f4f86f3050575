import Wirelog.Columnar.OrderMetadata

/-!
# One row for each group

`col_canonicalize_recursive_aggregate_relation` keeps one row for each group of a recursive
aggregate: the first one, in which it replaces the value by a better one of a later row. A table
with open addressing holds the numbers of the rows kept. The table is described by the groups of
these rows, which are all different and of which a lookup finds each one (`GroupTable`).

The function calls its result sorted. This is so when the rows were in strictly increasing order
and the columns of the groups come before the one of the value, or when there is nothing to do
(`canonicalizeAggregates_truthful`).
-/

set_option autoImplicit false

namespace Wirelog.Columnar

open Foundations List

variable {types : List ColumnType} {spec : AggSpec} {capacity : Nat}
  (intern : Cell → Option (List UInt8))

/-! ## The table of groups -/

/-- Where the search for a group starts. -/
def groupHome (capacity : Nat) (groups : List (List Cell)) (k : Nat) : Nat :=
  (groupHash (groups.getD k [])).toNat % capacity

/-- The groups of the rows kept are all different, and the table holds each of them. -/
structure GroupTable (spec : AggSpec) (capacity : Nat) (g : Groups types) : Prop where
  distinct : (g.kept.map (groupOf spec)).Nodup
  hashed : Hashed capacity (groupHome capacity (g.kept.map (groupOf spec))) g.slots
    (· < g.kept.length)

theorem GroupTable.empty : GroupTable spec capacity (⟨fun _ => none, []⟩ : Groups types) :=
  ⟨.nil, .empty fun _ => Nat.not_lt_zero _⟩

/-- The value of an aggregate is in no column of its group. -/
theorem groupOf_copyCell (row source : TypedRow types) :
    groupOf spec (row.copyCell source (spec.column types.length)) = groupOf spec row := by
  refine map_congr_left ?_
  intro c _
  have apart : spec.column types.length ≠ if spec.column types.length ≤ c then c + 1 else c := by
    split_ifs <;> omega
  simp [TypedRow.cell, TypedRow.copyCell, List.getElem?_set_ne apart]

/-- The table of groups is a table of the numbers of their keys. -/
theorem groupTable_iff {g : Groups types} :
    GroupTable spec capacity g ↔ Numbered (fun group => (groupHash group).toNat) capacity g.slots
      (g.kept.map (groupOf spec)) := by
  have length : (g.kept.map (groupOf spec)).length = g.kept.length := length_map ..
  have homes : ∀ k < g.kept.length, groupHome capacity (g.kept.map (groupOf spec)) k =
      (g.kept.map (groupOf spec))[k]?.elim 0 (fun group => (groupHash group).toNat) % capacity := by
    intro k bound
    simp [groupHome, bound]
  constructor
  · rintro ⟨distinct, hashed⟩
    exact ⟨distinct, hashed.congr (fun k => by rw [length]) homes⟩
  · rintro ⟨distinct, hashed⟩
    exact ⟨distinct, hashed.congr (fun k => by rw [length]) fun k bound =>
      (homes k (length ▸ bound)).symm⟩

/-- **A row either belongs to a group that is there, and the groups stay as they are, or it
becomes the first row of its group.** -/
theorem GroupTable.step {g : Groups types} (table : GroupTable spec capacity g)
    (few : g.kept.length < capacity) (row : TypedRow types) :
    GroupTable spec capacity (canonicalizeRow spec intern capacity g row) ∧
      ((groupOf spec row ∈ g.kept.map (groupOf spec) ∧
          (canonicalizeRow spec intern capacity g row).kept.map (groupOf spec) =
            g.kept.map (groupOf spec)) ∨
        (groupOf spec row ∉ g.kept.map (groupOf spec) ∧
          (canonicalizeRow spec intern capacity g row).kept = g.kept ++ [row])) := by
  have numbered := groupTable_iff.mp table
  have tests : ∀ j < (g.kept.map (groupOf spec)).length,
      g.kept[j]?.any (groupOf spec · == groupOf spec row) = true ↔
        (g.kept.map (groupOf spec))[j]? = some (groupOf spec row) := by
    intro j inside
    rw [length_map] at inside
    simp [List.getElem?_eq_getElem inside]
  rw [groupTable_iff]
  by_cases present : groupOf spec row ∈ g.kept.map (groupOf spec)
  · obtain ⟨k, here⟩ := List.getElem?_of_mem present
    obtain ⟨p, found⟩ := numbered.lookupSlot_found (by omega) here tests
    have groups : (canonicalizeRow spec intern capacity g row).kept.map (groupOf spec) =
        g.kept.map (groupOf spec) := by
      simp only [canonicalizeRow, found]
      refine ext_getElem (by simp) ?_
      intro i _ _
      rw [getElem_map, getElem_map, getElem_modify]
      split_ifs
      · exact groupOf_copyCell _ _
      · rfl
      · rfl
    refine ⟨?_, .inl ⟨present, groups⟩⟩
    rw [groups]
    simpa [canonicalizeRow, found] using numbered
  · obtain ⟨p, found, stored⟩ := numbered.lookupSlot_fresh (by simpa using few) present tests
    have step : canonicalizeRow spec intern capacity g row =
        ⟨Function.update g.slots p (some g.kept.length), g.kept ++ [row]⟩ := by
      simp [canonicalizeRow, found]
    rw [step]
    refine ⟨?_, .inr ⟨present, rfl⟩⟩
    simpa using stored

/-! ## All rows -/

theorem canonicalize_fold_distinct {rows : List (TypedRow types)} {g : Groups types}
    (table : GroupTable spec capacity g) (few : g.kept.length + rows.length ≤ capacity)
    (distinct : ((g.kept ++ rows).map (groupOf spec)).Nodup) :
    (rows.foldl (canonicalizeRow spec intern capacity) g).kept = g.kept ++ rows := by
  induction rows generalizing g with
  | nil => exact (append_nil _).symm
  | cons row rows ih =>
    rw [length_cons] at few
    obtain ⟨table', cases⟩ := table.step intern (by omega) row
    have fresh : groupOf spec row ∉ g.kept.map (groupOf spec) := by
      rw [map_append, map_cons] at distinct
      intro member
      exact (nodup_append'.mp distinct).2.2 member mem_cons_self
    obtain ⟨present, -⟩ | ⟨-, kept⟩ := cases
    · exact absurd present fresh
    have assoc : g.kept ++ row :: rows = g.kept ++ [row] ++ rows := by simp
    rw [foldl_cons, ih table' (by rw [kept]; simp; omega) (by rwa [kept, ← assoc]), kept, assoc]

def TypedRow.lead (n : Nat) (row : TypedRow types) : TypedRow (types.take n) :=
  ⟨⟨row.1.cells.take n⟩, by simp [row.2.1], by
    intro i float cell found
    rw [List.getElem?_take] at float found
    split_ifs at float found
    exact row.2.2 i float cell found⟩

theorem TypedRow.rowKeys_lead (n : Nat) (row : TypedRow types) :
    rowKeys (types.take n) (row.lead n).1 = (rowKeys types row.1).take n := by
  simp [rowKeys, TypedRow.lead, take_zipWith]

/-- Lists are in the order of their leading parts, when these differ. -/
theorem lt_of_take_lt {xs ys : List Nat} {n : Nat} (below : xs.take n < ys.take n) : xs < ys := by
  induction n generalizing xs ys with
  | zero => simp at below
  | succ n ih =>
    cases xs with
    | nil =>
      cases ys with
      | nil => simp at below
      | cons y ys => exact nil_lt_cons y ys
    | cons x xs =>
      cases ys with
      | nil => simp at below
      | cons y ys =>
        rw [take_succ_cons, take_succ_cons, cons_lt_cons_iff] at below
        exact cons_lt_cons_iff.mpr (below.imp id fun tail => ⟨tail.1, ih tail.2⟩)

theorem TypedRow.lt_of_lead_lt {a b : TypedRow types} {n : Nat} (below : a.lead n < b.lead n) :
    a < b := by
  have keys := mt TypedRow.le_iff_keys.mpr below.not_ge
  rw [TypedRow.rowKeys_lead, TypedRow.rowKeys_lead, not_le] at keys
  exact not_le.mp (mt TypedRow.le_iff_keys.mp (not_le.mpr (lt_of_take_lt keys)))

theorem TypedRow.lead_le_of_lt {a b : TypedRow types} (n : Nat) (below : a < b) :
    a.lead n ≤ b.lead n :=
  not_lt.mp fun above => below.not_gt (TypedRow.lt_of_lead_lt above)

/-- Rows of one group agree in the leading columns, when the value comes after these. -/
theorem groupOf_eq_iff (leading : spec.groupByCount ≤ spec.column types.length)
    (fits : spec.groupByCount ≤ types.length) {a b : TypedRow types} :
    groupOf spec a = groupOf spec b ↔ a.lead spec.groupByCount = b.lead spec.groupByCount := by
  have cells (row : TypedRow types) :
      groupOf spec row = row.1.cells.take spec.groupByCount := by
    have width := row.2.1
    refine ext_getElem (by simp [groupOf]; omega) ?_
    intro i inGroup _
    have small : i < spec.groupByCount := by simpa [groupOf] using inGroup
    simp only [groupOf, getElem_map, getElem_range, getElem_take]
    rw [if_neg (by omega)]
    exact getD_eq_getElem _ _ _
  rw [cells, cells, Subtype.ext_iff, Row.ext_iff]
  rfl

/-- The groups of the rows kept increase, and come before those of the rows to follow. -/
theorem canonicalize_fold_sorted (leading : spec.groupByCount ≤ spec.column types.length)
    (fits : spec.groupByCount ≤ types.length) {rows : List (TypedRow types)} {g : Groups types}
    (table : GroupTable spec capacity g) (few : g.kept.length + rows.length ≤ capacity)
    (sorted : rows.Pairwise (· < ·))
    (kept : (g.kept.map (TypedRow.lead spec.groupByCount)).Pairwise (· < ·))
    (before : ∀ row ∈ rows, ∀ group ∈ g.kept.map (TypedRow.lead spec.groupByCount),
      group ≤ row.lead spec.groupByCount) :
    ((rows.foldl (canonicalizeRow spec intern capacity) g).kept.map
      (TypedRow.lead spec.groupByCount)).Pairwise (· < ·) := by
  induction rows generalizing g with
  | nil => exact kept
  | cons row rows ih =>
    rw [length_cons] at few
    obtain ⟨after, sorted⟩ := pairwise_cons.mp sorted
    obtain ⟨table', cases⟩ := table.step intern (by omega) row
    rw [foldl_cons]
    obtain ⟨-, groups⟩ | ⟨fresh, appended⟩ := cases
    · -- only a value was replaced: the leading cells are those of the groups
      have count := congrArg List.length groups
      rw [length_map, length_map] at count
      have leads : (canonicalizeRow spec intern capacity g row).kept.map
          (TypedRow.lead spec.groupByCount) = g.kept.map (TypedRow.lead spec.groupByCount) := by
        refine ext_getElem (by simpa using count) ?_
        intro i inside _
        rw [getElem_map, getElem_map, ← groupOf_eq_iff leading fits]
        rw [length_map] at inside
        have same := getElem_of_eq groups (by rwa [length_map])
        rwa [getElem_map, getElem_map] at same
      refine ih table' (by omega) sorted (leads ▸ kept) ?_
      intro later member
      rw [leads]
      exact before later (mem_cons_of_mem _ member)
    · refine ih table' (by rw [appended]; simp; omega) sorted ?_ ?_
      · rw [appended, map_append, map_singleton]
        refine pairwise_append.mpr ⟨kept, pairwise_singleton _ _, ?_⟩
        intro group member last isLast
        rw [mem_singleton.mp isLast]
        refine lt_of_le_of_ne (before row mem_cons_self group member) ?_
        rintro rfl
        obtain ⟨old, inKept, same⟩ := mem_map.mp member
        exact fresh (mem_map.mpr ⟨old, inKept, (groupOf_eq_iff leading fits).mpr same⟩)
      · intro later member group inKept
        rw [appended, map_append, mem_append] at inKept
        rcases inKept with old | new
        · exact before later (mem_cons_of_mem _ member) group old
        rw [map_singleton, mem_singleton] at new
        exact new ▸ TypedRow.lead_le_of_lt _ (after later member)

/-- What the canonical form of an aggregate needs in order to be sorted: no group has two rows, or
the rows increase and the columns of the groups come first. -/
def Canonicalizable (spec : AggSpec) (r : OrderedRows types) : Prop :=
  (r.rows.map (groupOf spec)).Nodup ∨
    (r.rows.Pairwise (· < ·) ∧ spec.groupByCount ≤ spec.column types.length)

/-- **The records are truthful after an aggregate was brought into canonical form.** -/
theorem canonicalizeAggregates_truthful {r : OrderedRows types} (truthful : r.Truthful)
    {outOfMemory : Bool} (condition : Canonicalizable spec r) :
    (canonicalizeAggregates spec intern outOfMemory r).2.Truthful := by
  unfold canonicalizeAggregates
  by_cases small : r.rows.length < 2
  · rwa [if_pos small]
  rw [if_neg small]
  by_cases narrow : types.length ≤ spec.groupByCount
  · rwa [if_pos narrow]
  rw [if_neg narrow]
  by_cases refused : 2 ^ 31 < 2 * r.rows.length ∨ outOfMemory = true
  · rwa [if_pos refused]
  rw [if_neg refused]
  have large : r.rows.length ≤ hashCapacity 1 r.rows.length := by
    have := le_hashCapacity Nat.one_pos r.rows.length
    omega
  have few : (⟨fun _ => none, []⟩ : Groups types).kept.length + r.rows.length ≤
      hashCapacity 1 r.rows.length := by simpa using large
  rcases condition with distinct | ⟨sorted, leading⟩
  · have all := canonicalize_fold_distinct intern .empty few (by simpa using distinct)
    have same : (canonicalRows spec intern (hashCapacity 1 r.rows.length) r.rows).length =
        r.rows.length := congrArg List.length all
    rw [if_pos same]
    exact truthful
  · have leads := canonicalize_fold_sorted intern leading (by omega) .empty few sorted
      .nil fun _ _ _ => nofun
    have kept : (canonicalRows spec intern (hashCapacity 1 r.rows.length) r.rows).Pairwise
        (· < ·) := (pairwise_map.mp leads).imp TypedRow.lt_of_lead_lt
    simp only
    split_ifs
    · exact truthful
    · exact .of_sorted kept le_rfl .nil (by simp)

end Wirelog.Columnar

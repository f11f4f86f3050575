import Wirelog.Columnar.OrderLife

/-!
# Compacting runs

`col_rel_compact_runs` merges the runs of a relation by a heap that compares the leading cells as
signed integers before it asks the typed comparison. It never compares all pairs of rows: the row
that it takes meets the first row after it in each other run. Hence the result is one strictly
increasing run with the rows of all runs when no such row has a smaller leading cell, and for runs
without a common row only then (`compactRuns_oneRun_iff`).
-/

set_option autoImplicit false

namespace Wirelog.Columnar

open Foundations

variable {types : List ColumnType}

/-! ## The leading cell -/

/-- The leading cell of a row as `lead_key` holds it. -/
def lead (row : TypedRow types) : Int := (row.cell 0).toInt

theorem leadKey_injective : Function.Injective (@leadKey types) := by
  intro a b same
  exact congrArg (fun key => (ofLex key).2) same

/-- Rows that meet in the heap are in the typed order, so only their leading cells matter. -/
theorem leadKey_le_iff {a b : TypedRow types} (below : a < b) :
    leadKey a ≤ leadKey b ↔ lead a ≤ lead b := by
  rw [leadKey, leadKey, Prod.Lex.toLex_le_toLex]
  refine Iff.trans (or_congr Iff.rfl ?_) le_iff_lt_or_eq.symm
  exact and_iff_left below.le

theorem listsFollow_leadKey_iff (runs : List (List (TypedRow types))) :
    ListsFollow leadKey runs ↔ ListsFollow lead runs := by
  have each : ∀ run other : List (TypedRow types),
      Follows leadKey run other ↔ Follows lead run other := by
    intro run other
    refine forall₂_congr fun a _ => forall₂_congr fun b found => ?_
    exact leadKey_le_iff (by simpa using List.find?_some found)
  simp [ListsFollow, each]

/-! ## Compaction -/

/-- A relation made of strictly increasing runs, as many as there is room for. -/
structure RunForm (r : OrderedRows types) : Prop where
  few : r.runEnds.length ≤ colMaxRuns
  ends : r.runEnds.Pairwise (· ≤ ·)
  covers : r.runEnds.getLastD 0 = r.rows.length
  increasing : ∀ run ∈ r.runs, run.Pairwise (· < ·)

/-- The rows of all runs of a relation are those of the only run of another, which increases
strictly. -/
structure Compacted (r r' : OrderedRows types) : Prop where
  oneRun : r'.runs.length = min 1 r.runs.length
  whole : r'.runs.flatten = r'.rows
  consolidated : Consolidated r.runs.flatten r'.rows

variable {r : OrderedRows types}

theorem RunForm.flatten (form : RunForm r) : r.runs.flatten = r.rows := by
  have ends : (0 :: r.runEnds).Pairwise (· ≤ ·) :=
    List.pairwise_cons.mpr ⟨fun e _ => Nat.zero_le e, form.ends⟩
  rw [OrderedRows.runs, segments_flatten r.rows ends, form.covers, List.take_length, List.drop_zero]

theorem length_runs (r : OrderedRows types) : r.runs.length = r.runEnds.length := by
  have counted : ∀ (stops : List Nat) (start : Nat),
      (segments r.rows start stops).length = stops.length := by
    intro stops
    induction stops with
    | nil => exact fun _ => rfl
    | cons stop stops ih => exact fun _ => congrArg Nat.succ (ih stop)
  exact counted r.runEnds 0

theorem runs_oneRun (rows : List (TypedRow types)) : (OrderedRows.oneRun rows).runs = [rows] := by
  simp [OrderedRows.runs, OrderedRows.oneRun, segments]

/-- At most one run is left as it is. -/
theorem RunForm.compacted_self (form : RunForm r) (few : r.runEnds.length ≤ 1) : Compacted r r := by
  refine ⟨?_, form.flatten, ?_, fun row => by rw [form.flatten]⟩
  · rw [length_runs]
    exact (Nat.min_eq_right few).symm
  · have single := (length_runs r).trans_le few
    have increasing := form.increasing
    rw [← form.flatten]
    match runs : r.runs, single with
    | [], _ => exact .nil
    | [run], _ =>
      rw [List.flatten_singleton]
      exact increasing run (runs ▸ List.mem_cons_self)

theorem compactRuns_of_few (few : r.runEnds.length ≤ 1) : compactRuns false r = some r := if_pos few

theorem compactRuns_of_many (many : ¬ r.runEnds.length ≤ 1) :
    compactRuns false r = some (.oneRun (compactRows r.rows r.runEnds)) := by
  rw [compactRuns, if_neg many, if_neg Bool.false_ne_true]

theorem compacted_oneRun_iff (many : ¬ r.runEnds.length ≤ 1) (rows : List (TypedRow types)) :
    Compacted r (.oneRun rows) ↔ Consolidated r.runs.flatten rows := by
  constructor
  · intro compacted
    exact compacted.consolidated
  · intro consolidated
    refine ⟨?_, ?_, consolidated⟩
    · rw [runs_oneRun, length_runs, List.length_singleton]
      omega
    · rw [runs_oneRun, List.flatten_singleton]
      rfl

/-- The rows that compaction leaves are always those of the runs. -/
theorem mem_compactRows (row : TypedRow types) :
    row ∈ compactRows r.rows r.runEnds ↔ row ∈ r.runs.flatten := by
  rw [compactRows, emitDistinct_none, mem_uniqueAdjacent]
  exact (heapMerge_perm r.runs).mem_iff

theorem compactRows_sorted (increasing : ∀ run ∈ r.runs, run.Pairwise (· < ·))
    (follow : ListsFollow lead r.runs) : (compactRows r.rows r.runEnds).Pairwise (· < ·) := by
  rw [compactRows, emitDistinct_none]
  apply uniqueAdjacent_lt
  exact heapMerge_le leadKey_injective increasing ((listsFollow_leadKey_iff r.runs).mpr follow)

/-- Runs without a common row are merged in order only when they follow each other. -/
theorem listsFollow_of_compactRows_sorted (increasing : ∀ run ∈ r.runs, run.Pairwise (· < ·))
    (disjoint : r.runs.Pairwise List.Disjoint)
    (sorted : (compactRows r.rows r.runEnds).Pairwise (· < ·)) : ListsFollow lead r.runs := by
  have distinct : (heapMerge leadKey r.runs).Nodup := by
    refine (heapMerge_perm r.runs).nodup_iff.mpr (List.nodup_flatten.mpr ⟨?_, disjoint⟩)
    intro run member
    exact (increasing run member).imp ne_of_lt
  rw [compactRows, emitDistinct_none] at sorted
  have merged : (heapMerge leadKey r.runs).Pairwise (· < ·) := by
    rw [← uniqueAdjacent_of_nodup distinct]
    exact sorted
  exact (listsFollow_leadKey_iff r.runs).mp (listsFollow_of_heapMerge_lt merged)

theorem listsFollow_of_few (few : r.runEnds.length ≤ 1) : ListsFollow lead r.runs := by
  have single := (length_runs r).trans_le few
  unfold ListsFollow
  match r.runs, single with
  | [], _ => exact .nil
  | [run], _ => exact List.pairwise_singleton _ run

/-- **Compaction makes one strictly increasing run of the runs of a relation when the first row
after a row in another run never has a smaller leading cell; when no row is in two runs, only
then.** -/
theorem compactRuns_oneRun_iff (r : OrderedRows types) (form : RunForm r) :
    (ListsFollow lead r.runs → ∃ r', compactRuns false r = some r' ∧ Compacted r r') ∧
      (r.runs.Pairwise List.Disjoint →
        (∃ r', compactRuns false r = some r' ∧ Compacted r r') → ListsFollow lead r.runs) := by
  by_cases few : r.runEnds.length ≤ 1
  · refine ⟨fun _ => ?_, fun _ _ => listsFollow_of_few few⟩
    exact ⟨r, compactRuns_of_few few, form.compacted_self few⟩
  constructor
  · intro follow
    refine ⟨_, compactRuns_of_many few, (compacted_oneRun_iff few _).mpr ⟨?_, mem_compactRows⟩⟩
    exact compactRows_sorted form.increasing follow
  · rintro disjoint ⟨r', done, compacted⟩
    rw [compactRuns_of_many few] at done
    cases done
    have consolidated := (compacted_oneRun_iff few _).mp compacted
    exact listsFollow_of_compactRows_sorted form.increasing disjoint consolidated.sorted

/-- Two runs of integers whose rows alternate. -/
theorem compactRuns_oneRun_iff_integers :
    ∃ r', compactRuns false
        (⟨[integerRow 1, integerRow 3, integerRow 2], 0, [2, 3]⟩ : OrderedRows [.int64]) = some r' ∧
      Compacted ⟨[integerRow 1, integerRow 3, integerRow 2], 0, [2, 3]⟩ r' := by
  refine (compactRuns_oneRun_iff ⟨[integerRow 1, integerRow 3, integerRow 2], 0, [2, 3]⟩
    ⟨by decide, by decide, by decide, by decide +kernel⟩).1 ?_
  unfold ListsFollow Follows
  decide +kernel

def doubleRow (bits : Cell) (valid : floatBitsValid bits = true)
    (notZero : floatBitsZero bits = false) : TypedRow [.float] :=
  ⟨⟨[bits]⟩, rfl, by
    intro i float cell found
    match i with
    | 0 =>
      obtain rfl : bits = cell := Option.some.inj found
      exact ⟨valid, fun zero => absurd zero (by simp [notZero])⟩
    | i + 1 => cases float⟩

def minusTwo : TypedRow [.float] := doubleRow 0xC000000000000000#64 (by decide) (by decide)

def minusOne : TypedRow [.float] := doubleRow 0xBFF0000000000000#64 (by decide) (by decide)

/-- **The runs of `-2.0` and of `-1.0` are compacted to a run in which `-1.0` comes first.** -/
theorem negative_doubles_compacted_in_reverse :
    RunForm (⟨[minusTwo, minusOne], 0, [1, 2]⟩ : OrderedRows [.float]) ∧
      minusTwo < minusOne ∧
      compactRuns false ⟨[minusTwo, minusOne], 0, [1, 2]⟩ = some (.oneRun [minusOne, minusTwo]) ∧
      ¬ Compacted ⟨[minusTwo, minusOne], 0, [1, 2]⟩ (.oneRun [minusOne, minusTwo]) := by
  refine ⟨⟨by decide, by decide, by decide, by decide +kernel⟩, by decide +kernel,
    by decide +kernel, ?_⟩
  intro compacted
  exact absurd compacted.consolidated.sorted (by decide +kernel)

end Wirelog.Columnar

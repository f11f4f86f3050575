import Mathlib

/-!
# Binary search by a three-way comparison

The loop of a binary search over a half-open window `[lo, hi)`, driven by a
comparison of the probed element with the element that is looked for. Nothing is asked
of the order of the list. On the way to a position the loop probes fixed other positions
(`probesTo`), and it finds an accepted element exactly when one of them stands where the
comparison leads: the probed elements before it are below, those after it are above
(`search_iff`).
-/

set_option autoImplicit false

namespace Wirelog.Foundations

universe u

variable {α : Type u}

def searchLoop (cmp : α → Ordering) (xs : List α) : Nat → Nat → Nat → Bool
  | 0, _, _ => false
  | rounds + 1, lo, hi =>
    if lo < hi then
      let mid := lo + (hi - lo) / 2
      match xs[mid]? with
      | none => false
      | some probed =>
        match cmp probed with
        | .eq => true
        | .lt => searchLoop cmp xs rounds (mid + 1) hi
        | .gt => searchLoop cmp xs rounds lo mid
    else false

/-- Search the whole list. Every round shrinks the window, so that as many rounds as there are
elements are enough. -/
def search (cmp : α → Ordering) (xs : List α) : Bool := searchLoop cmp xs xs.length 0 xs.length

/-- The positions that are probed on the way to a position of the window. -/
def probesTo (target : Nat) : Nat → Nat → Nat → List Nat
  | 0, _, _ => []
  | rounds + 1, lo, hi =>
    let mid := lo + (hi - lo) / 2
    if mid < target then mid :: probesTo target rounds (mid + 1) hi
    else if target < mid then mid :: probesTo target rounds lo mid
    else []

variable (cmp : α → Ordering) (xs : List α)

/-- The comparison leads from the probes to the position. -/
def LeadsTo (target : Nat) (probes : List Nat) : Prop :=
  ∀ i ∈ probes, ∀ probed ∈ xs[i]?,
    (i < target → cmp probed = .lt) ∧ (target < i → cmp probed = .gt)

instance (target : Nat) (probes : List Nat) : Decidable (LeadsTo cmp xs target probes) :=
  inferInstanceAs (Decidable (∀ i ∈ probes, ∀ probed ∈ xs[i]?, _))

variable {cmp xs}

theorem leadsTo_cons {target i : Nat} {probes : List Nat} {probed : α}
    (probe : xs[i]? = some probed) :
    LeadsTo cmp xs target (i :: probes) ↔
      ((i < target → cmp probed = .lt) ∧ (target < i → cmp probed = .gt)) ∧
        LeadsTo cmp xs target probes := by
  simp [LeadsTo, probe]

theorem searchLoop_iff {rounds lo hi : Nat} (enough : hi - lo ≤ rounds) (bound : hi ≤ xs.length) :
    searchLoop cmp xs rounds lo hi = true ↔
      ∃ target x, lo ≤ target ∧ target < hi ∧ xs[target]? = some x ∧ cmp x = .eq ∧
        LeadsTo cmp xs target (probesTo target rounds lo hi) := by
  induction rounds generalizing lo hi with
  | zero =>
    refine iff_of_false (by simp [searchLoop]) ?_
    rintro ⟨target, _, above, below, _⟩
    omega
  | succ rounds ih =>
    rw [searchLoop]
    split_ifs with window
    swap
    · refine iff_of_false (by simp) ?_
      rintro ⟨target, _, above, below, _⟩
      omega
    simp only [probesTo]
    have inside : lo + (hi - lo) / 2 < hi := by omega
    have start : lo ≤ lo + (hi - lo) / 2 := by omega
    have right := @ih (lo + (hi - lo) / 2 + 1) hi (by omega) bound
    have left := @ih lo (lo + (hi - lo) / 2) (by omega) (by omega)
    generalize lo + (hi - lo) / 2 = mid at inside start right left ⊢
    obtain ⟨probed, probe⟩ : ∃ probed, xs[mid]? = some probed :=
      ⟨xs[mid], List.getElem?_eq_getElem (by omega)⟩
    have stops {target x} (same : target = mid) (here : xs[target]? = some x)
        (accepted : cmp x = .eq) : cmp probed = .eq :=
      Option.some.inj (here.symm.trans (same ▸ probe)) ▸ accepted
    simp only [probe]
    cases outcome : cmp probed with
    | eq =>
      refine iff_of_true rfl ⟨mid, probed, start, inside, probe, outcome, ?_⟩
      simp [LeadsTo]
    | lt =>
      -- whatever is found, its way leads to the right of the probe
      simp only [right]
      constructor
      · rintro ⟨target, x, above, below, here, accepted, way⟩
        refine ⟨target, x, by omega, below, here, accepted, ?_⟩
        rw [if_pos (by omega), leadsTo_cons probe]
        exact ⟨⟨fun _ => outcome, fun before => by omega⟩, way⟩
      · rintro ⟨target, x, above, below, here, accepted, way⟩
        split_ifs at way with after before
        · exact ⟨target, x, after, below, here, accepted, ((leadsTo_cons probe).mp way).2⟩
        · simp [((leadsTo_cons probe).mp way).1.2 before] at outcome
        · simp [stops (by omega) here accepted] at outcome
    | gt =>
      simp only [left]
      constructor
      · rintro ⟨target, x, above, below, here, accepted, way⟩
        refine ⟨target, x, above, by omega, here, accepted, ?_⟩
        rw [if_neg (by omega), if_pos below, leadsTo_cons probe]
        exact ⟨⟨fun after => by omega, fun _ => outcome⟩, way⟩
      · rintro ⟨target, x, above, below, here, accepted, way⟩
        split_ifs at way with after before
        · simp [((leadsTo_cons probe).mp way).1.1 after] at outcome
        · exact ⟨target, x, above, before, here, accepted, ((leadsTo_cons probe).mp way).2⟩
        · simp [stops (by omega) here accepted] at outcome

/-- **The search finds an accepted element exactly when the comparison leads to one.** -/
theorem search_iff : search cmp xs = true ↔
    ∃ target x, xs[target]? = some x ∧ cmp x = .eq ∧
      LeadsTo cmp xs target (probesTo target xs.length 0 xs.length) := by
  rw [search, searchLoop_iff (by omega) le_rfl]
  constructor
  · rintro ⟨target, x, _, _, found⟩
    exact ⟨target, x, found⟩
  · rintro ⟨target, x, here, found⟩
    exact ⟨target, x, Nat.zero_le _, (List.getElem?_eq_some_iff.mp here).1, here, found⟩

/-- What the search finds is in the list and accepted. -/
theorem search_sound (found : search cmp xs = true) : ∃ x ∈ xs, cmp x = .eq := by
  obtain ⟨_, x, here, accepted, _⟩ := search_iff.mp found
  exact ⟨x, List.mem_of_getElem? here, accepted⟩

end Wirelog.Foundations

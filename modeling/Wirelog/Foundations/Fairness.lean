import Mathlib

/-!
# Runs and fairness

A system is given by its actions: each takes a state to the next one or is not enabled in it.
What every action preserves holds in every reachable state (`Reachable.invariant`).

An infinite run takes an action at each time, or none. It is fair to an action if the action,
when it stays enabled from some time on, is taken later. An action that stays enabled until it
is taken and then leads to a goal lets every fair run reach this goal
(`FairRun.eventually_of_helpful`), and a rank that goes down again and again ends a wait
(`FairRun.eventually_of_rank`).
-/

set_option autoImplicit false

namespace Wirelog.Foundations

variable {α σ : Type*} {next : α → σ → Option σ}

/-! ## Reachable states -/

/-- The states that actions reach from a start state. -/
abbrev Reachable (next : α → σ → Option σ) : σ → σ → Prop :=
  Relation.ReflTransGen fun s s' => ∃ a, next a s = some s'

/-- What holds at the start and is preserved by every action holds in every reachable
state. -/
theorem Reachable.invariant {Inv : σ → Prop} {start s : σ} (initial : Inv start)
    (preserved : ∀ s a s', Inv s → next a s = some s' → Inv s')
    (reachable : Reachable next start s) : Inv s := by
  induction reachable with
  | refl => exact initial
  | tail _ last ih =>
    obtain ⟨a, taken⟩ := last
    exact preserved _ a _ ih taken

/-! ## Runs -/

/-- What happens at one time of a run: an action, or nothing. -/
def Moves (next : α → σ → Option σ) (s : σ) (action : Option α) (s' : σ) : Prop :=
  match action with
  | none => s' = s
  | some a => next a s = some s'

/-- An infinite run that does not neglect the actions in `fair`. -/
structure FairRun (next : α → σ → Option σ) (fair : α → Prop) where
  state : Nat → σ
  action : Nat → Option α
  moves : ∀ i, Moves next (state i) (action i) (state (i + 1))
  weaklyFair : ∀ a, fair a → ∀ i, (∀ j ≥ i, (next a (state j)).isSome) →
    ∃ j ≥ i, action j = some a

namespace FairRun

variable {fair : α → Prop} (run : FairRun next fair)

theorem reachable (i : Nat) : Reachable next (run.state 0) (run.state i) := by
  induction i with
  | zero => exact .refl
  | succ i ih =>
    have moved := run.moves i
    cases taken : run.action i with
    | none =>
      rw [taken] at moved
      rwa [show run.state (i + 1) = run.state i from moved]
    | some a =>
      rw [taken] at moved
      exact ih.tail ⟨a, moved⟩

/-- A condition under which one fair action is enabled, and that lasts until the goal is
reached, ends: the action is taken and reaches the goal. -/
theorem eventually_of_helpful {P Q : σ → Prop} {a : α} (helpful : fair a)
    (enabled : ∀ s, P s → (next a s).isSome)
    (lasts : ∀ s b s', P s → next b s = some s' → P s' ∨ Q s')
    (reaches : ∀ s s', P s → next a s = some s' → Q s') {i : Nat} (now : P (run.state i)) :
    ∃ j ≥ i, Q (run.state j) := by
  by_contra never
  have notYet (j : Nat) (later : j ≥ i) : ¬ Q (run.state j) := fun goal => never ⟨j, later, goal⟩
  have still (j : Nat) (later : j ≥ i) : P (run.state j) := by
    induction j, later using Nat.le_induction with
    | base => exact now
    | succ j later ih =>
      have moved := run.moves j
      cases taken : run.action j with
      | none =>
        rw [taken] at moved
        rwa [show run.state (j + 1) = run.state j from moved]
      | some b =>
        rw [taken] at moved
        exact (lasts _ b _ ih moved).resolve_right (notYet (j + 1) (Nat.le_succ_of_le later))
  obtain ⟨j, later, taken⟩ :=
    run.weaklyFair a helpful i fun j later => enabled _ (still j later)
  have moved := run.moves j
  rw [taken] at moved
  exact notYet (j + 1) (Nat.le_succ_of_le later) (reaches _ _ (still j later) moved)

/-- A condition whose rank goes down until the goal is reached ends in the goal. -/
theorem eventually_of_rank {P Q : σ → Prop} (rank : σ → Nat)
    (descends : ∀ i, P (run.state i) →
      ∃ j ≥ i, Q (run.state j) ∨ P (run.state j) ∧ rank (run.state j) < rank (run.state i))
    {i : Nat} (now : P (run.state i)) : ∃ j ≥ i, Q (run.state j) := by
  induction bound : rank (run.state i) using Nat.strong_induction_on generalizing i with
  | _ bound' ih =>
    obtain ⟨j, later, goal | ⟨still, lower⟩⟩ := descends i now
    · exact ⟨j, later, goal⟩
    obtain ⟨k, afterwards, goal⟩ := ih _ (bound ▸ lower) still rfl
    exact ⟨k, Nat.le_trans later afterwards, goal⟩

end FairRun

/-! ## Finite schedules -/

/-- The states of a run that takes the actions of a list one after another and then rests. -/
def scheduleState (next : α → σ → Option σ) (start : σ) (schedule : List α) : Nat → σ
  | 0 => start
  | i + 1 =>
    let s := scheduleState next start schedule i
    match schedule[i]? with
    | none => s
    | some a => (next a s).getD s

theorem scheduleState_of_le {start : σ} {schedule : List α} {i : Nat}
    (past : schedule.length ≤ i) :
    scheduleState next start schedule i = scheduleState next start schedule schedule.length := by
  induction i, past using Nat.le_induction with
  | base => rfl
  | succ i past ih => rw [scheduleState, List.getElem?_eq_none past, ih]

/-- A schedule that ends in a state in which no fair action is enabled is a fair run. -/
def FairRun.ofSchedule {fair : α → Prop} (start : σ) (schedule : List α)
    (enabled : ∀ i (inside : i < schedule.length),
      (next schedule[i] (scheduleState next start schedule i)).isSome)
    (final : ∀ a, fair a →
      (next a (scheduleState next start schedule schedule.length)).isSome = false) :
    FairRun next fair where
  state := scheduleState next start schedule
  action i := schedule[i]?
  moves i := by
    by_cases inside : i < schedule.length
    · obtain ⟨s', taken⟩ := Option.isSome_iff_exists.mp (enabled i inside)
      simp [Moves, scheduleState, List.getElem?_eq_getElem inside, taken]
    · simp [Moves, scheduleState, List.getElem?_eq_none (Nat.le_of_not_lt inside)]
  weaklyFair a isFair i stays := by
    have still := stays (max i schedule.length) (le_max_left _ _)
    rw [scheduleState_of_le (le_max_right _ _), final a isFair] at still
    nomatch still

end Wirelog.Foundations

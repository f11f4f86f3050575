import Mathlib

/-!
# Batches that are undone by compensation

A batch of items is applied one call after another. When a call fails, the calls before it are
undone by inverse calls, from the first item on, until all are undone or an inverse call fails
itself. Calls are numbered, so that the environment may treat each of them differently, and a
call may also be broken: it has no defined outcome.

Where it can be foreseen how the calls answer, the end of a batch follows from the answers alone
(`course`). A proof about a batch then shows one thing of each call: that it answers as foreseen and
leads from one stage to the next (`Foreseen`). **The batch then ends as foreseen**
(`applyAll_foreseen`).
-/

set_option autoImplicit false

namespace Wirelog.Foundations

open List

/-- How a call ends. -/
inductive Outcome (ε : Type) where
  | done
  | failed (error : ε)
  | broken
  deriving DecidableEq, Repr

namespace Compensation

variable {α σ ε : Type}

/-- The n-th call, for an item. -/
abbrev Calls (α σ ε : Type) := Nat → α → σ → Outcome ε × σ

/-- Undoes items, from the first one on, until an inverse call fails; false when one is
broken. -/
def rollback (inverse : Calls α σ ε) : Nat → List α → σ → Bool × σ
  | _, [], s => (true, s)
  | n, a :: rest, s =>
    match inverse n a s with
    | (.done, s') => rollback inverse (n + 1) rest s'
    | (.failed _, s') => (true, s')
    | (.broken, s') => (false, s')

/-- How a batch ends that was given up because of an error. -/
def givenUp (error : ε) : Bool × σ → Outcome ε × σ
  | (true, s) => (.failed error, s)
  | (false, s) => (.broken, s)

/-- Applies items, after some that were applied already. -/
def applyAll (op inverse : Calls α σ ε) : List α → List α → σ → Outcome ε × σ
  | _, [], s => (.done, s)
  | applied, a :: rest, s =>
    match op applied.length a s with
    | (.done, s') => applyAll op inverse (applied ++ [a]) rest s'
    | (.failed error, s') => givenUp error (rollback inverse (applied.length + 1) applied s')
    | (.broken, s') => (.broken, s')

/-! ## Answers -/

/-- How many of some calls go through before one does not, and how that one ends. -/
def progress (answer : Nat → Outcome ε) : Nat → Nat × Outcome ε
  | 0 => (0, .done)
  | n + 1 =>
    match answer 0 with
    | .done => ((progress (fun i => answer (i + 1)) n).1 + 1,
        (progress (fun i => answer (i + 1)) n).2)
    | other => (0, other)

/-- Either all calls go through, or the first that does not has the answer that is given. -/
theorem progress_cases (answer : Nat → Outcome ε) (n : Nat) :
    progress answer n = (n, .done) ∨
      ∃ k < n, answer k ≠ .done ∧ progress answer n = (k, answer k) := by
  induction n generalizing answer with
  | zero => exact .inl rfl
  | succ n ih =>
    unfold progress
    cases now : answer 0 with
    | done =>
      rcases ih fun i => answer (i + 1) with all | ⟨k, inside, ends, reached⟩
      · exact .inl (by simp [all])
      · exact .inr ⟨k + 1, Nat.succ_lt_succ inside, ends, by simp [reached]⟩
    | failed error => exact .inr ⟨0, Nat.succ_pos n, by simp [now], by simp [now]⟩
    | broken => exact .inr ⟨0, Nat.succ_pos n, by simp [now], by simp [now]⟩

/-- The end of a batch: its outcome, how many items were applied, and how many of them undone. -/
structure Course (ε : Type) where
  outcome : Outcome ε
  applied : Nat
  undone : Nat

/-- The end of a batch of n items, from the answers to its calls: `verdict j` for the item j, and
`answer k i` for undoing the item i when the call for the item k has failed. -/
def course (verdict : Nat → Outcome ε) (answer : Nat → Nat → Outcome ε) (n : Nat) : Course ε :=
  match progress verdict n with
  | (k, .failed error) =>
    match progress (answer k) k with
    | (u, .broken) => ⟨.broken, k, u⟩
    | (u, _) => ⟨.failed error, k, u⟩
  | (k, outcome) => ⟨outcome, k, 0⟩

/-- The calls for some items answer as foreseen. They lead from stage to stage, and a call that
fails leaves what `Left` says. -/
structure Foreseen (op : Calls α σ ε) (first : Nat) (items : List α) (answer : Nat → Outcome ε)
    (Stage Left : Nat → σ → Prop) : Prop where
  answers : ∀ i a s, items[i]? = some a → Stage i s → (op (first + i) a s).1 = answer i
  advances : ∀ i a s, items[i]? = some a → Stage i s → answer i = .done →
    Stage (i + 1) (op (first + i) a s).2
  leaves : ∀ i a s error, items[i]? = some a → Stage i s → answer i = .failed error →
    Left i (op (first + i) a s).2

variable {op inverse : Calls α σ ε} {first : Nat} {items : List α} {answer : Nat → Outcome ε}
  {Stage Left : Nat → σ → Prop} {s : σ}

theorem Foreseen.tail {a : α} (foreseen : Foreseen op first (a :: items) answer Stage Left) :
    Foreseen op (first + 1) items (fun i => answer (i + 1)) (fun i => Stage (i + 1))
      fun i => Left (i + 1) where
  answers i b s here stage := by
    have now := foreseen.answers (i + 1) b s here stage
    rwa [← Nat.add_assoc, Nat.add_right_comm] at now
  advances i b s here stage done := by
    have now := foreseen.advances (i + 1) b s here stage done
    rwa [← Nat.add_assoc, Nat.add_right_comm first] at now
  leaves i b s error here stage failed := by
    have now := foreseen.leaves (i + 1) b s error here stage failed
    rwa [← Nat.add_assoc, Nat.add_right_comm] at now

/-- **The undoing ends as foreseen.** -/
theorem rollback_foreseen (foreseen : Foreseen inverse first items answer Stage Left)
    (stays : ∀ i s, Stage i s → Left i s) (start : Stage 0 s) :
    ((rollback inverse first items s).1 = true ↔ (progress answer items.length).2 ≠ .broken) ∧
      ((rollback inverse first items s).1 = true →
        Left (progress answer items.length).1 (rollback inverse first items s).2) := by
  induction items generalizing first answer Stage Left s with
  | nil => simp [rollback, progress, stays 0 s start]
  | cons a rest ih =>
    have answered := foreseen.answers 0 a s rfl start
    have advances := foreseen.advances 0 a s rfl start
    have leaves := fun error => foreseen.leaves 0 a s error rfl start
    simp only [Nat.add_zero] at answered advances leaves
    unfold rollback progress
    rcases called : inverse first a s with ⟨outcome, s'⟩
    rw [called] at answered advances leaves
    cases outcome with
    | done =>
      simp only [← answered]
      exact ih foreseen.tail (fun i => stays (i + 1)) (advances answered.symm)
    | failed error => simp [← answered, leaves error answered.symm]
    | broken => simp [← answered]

/-- How far a batch comes, after items that were applied already. -/
theorem applyAll_progress {applied : List α}
    (foreseen : Foreseen op applied.length items answer Stage Left) (start : Stage 0 s) :
    match progress answer items.length with
    | (k, .done) => ∃ s', applyAll op inverse applied items s = (.done, s') ∧ Stage k s'
    | (k, .failed error) => ∃ s', Left k s' ∧ applyAll op inverse applied items s =
        givenUp error (rollback inverse (applied.length + k + 1) (applied ++ items.take k) s')
    | (_, .broken) => (applyAll op inverse applied items s).1 = .broken := by
  induction items generalizing applied answer Stage Left s with
  | nil => exact ⟨s, rfl, start⟩
  | cons a rest ih =>
    have answered := foreseen.answers 0 a s rfl start
    have advances := foreseen.advances 0 a s rfl start
    have leaves := fun error => foreseen.leaves 0 a s error rfl start
    simp only [Nat.add_zero] at answered advances leaves
    rw [length_cons]
    unfold applyAll progress
    rcases called : op applied.length a s with ⟨outcome, s'⟩
    rw [called] at answered advances leaves
    cases outcome with
    | done =>
      have later := @ih (fun i => answer (i + 1)) (fun i => Stage (i + 1)) (fun i => Left (i + 1))
        s' (applied ++ [a]) (by simpa using foreseen.tail) (advances answered.symm)
      simp only [← answered]
      rcases reached : progress (fun i => answer (i + 1)) rest.length with ⟨k, last⟩
      rw [reached] at later
      cases last with
      | done => exact later
      | failed error =>
        simpa [Nat.add_assoc, Nat.add_comm 1 k] using later
      | broken => exact later
    | failed error => simpa [← answered] using ⟨s', leaves error answered.symm, rfl⟩
    | broken => simp [← answered]

/-- **A batch ends as foreseen.** -/
theorem applyAll_foreseen {verdict : Nat → Outcome ε} {answer : Nat → Nat → Outcome ε}
    {Back BackLeft : Nat → Nat → σ → Prop}
    (forward : Foreseen op 0 items verdict Stage Left) (start : Stage 0 s)
    (backward : ∀ k error, k < items.length → verdict k = .failed error →
      Foreseen inverse (k + 1) (items.take k) (answer k) (Back k) (BackLeft k) ∧
        (∀ s, Left k s → Back k 0 s) ∧ ∀ i s, Back k i s → BackLeft k i s) :
    (applyAll op inverse [] items s).1 = (course verdict answer items.length).outcome ∧
      ((course verdict answer items.length).outcome = .done →
        Stage items.length (applyAll op inverse [] items s).2) ∧
      ∀ error, (course verdict answer items.length).outcome = .failed error →
        (course verdict answer items.length).undone ≤
            (course verdict answer items.length).applied ∧
          (course verdict answer items.length).applied < items.length ∧
          BackLeft (course verdict answer items.length).applied
            (course verdict answer items.length).undone (applyAll op inverse [] items s).2 := by
  have ended := @applyAll_progress _ _ _ op inverse items verdict Stage Left s [] forward start
  unfold course
  rcases progress_cases verdict items.length with all | ⟨k, inside, unfinished, reached⟩
  · simp only [all] at ended ⊢
    obtain ⟨s', ended, stage⟩ := ended
    simp [ended, stage]
  rw [reached] at ended ⊢
  cases last : verdict k with
  | done => exact absurd last unfinished
  | broken =>
    rw [last] at ended
    simp only at ended ⊢
    simp [ended]
  | failed error =>
    rw [last] at ended
    simp only [length_nil, Nat.zero_add, nil_append] at ended ⊢
    obtain ⟨s', left, ended⟩ := ended
    obtain ⟨foreseen, starts, stays⟩ := backward k error inside last
    have undone := rollback_foreseen foreseen stays (starts s' left)
    rw [length_take, Nat.min_eq_left inside.le] at undone
    have few : (progress (answer k) k).1 ≤ k := by
      rcases progress_cases (answer k) k with all | ⟨u, before, -, stuck⟩
      · rw [all]
      · rw [stuck]
        exact before.le
    rcases far : progress (answer k) k with ⟨u, outcome⟩
    rcases back : rollback inverse (k + 1) (items.take k) s' with ⟨intact, s''⟩
    rw [far, back] at undone
    rw [far] at few
    rw [ended, back]
    cases outcome <;> cases intact <;> simp_all [givenUp]

end Compensation

end Wirelog.Foundations

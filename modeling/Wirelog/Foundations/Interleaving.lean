import Mathlib

/-!
# Interleavings of threads

A system is a shared state and one local state for each thread. In a step one thread changes
the shared state and its own local state. What every step preserves holds in every reachable
state (`Reaches.invariant`).

Quantities that add up over all threads, or over all objects of the shared state, are finite
sums over a type of any size. Changing one summand changes such a sum by the difference
(`FiniteSum.update`).
-/

set_option autoImplicit false

namespace Wirelog.Foundations

open Function

/-! ## Configurations and steps -/

/-- The shared state of a system, and the local state of each thread. -/
structure Config (T σ ℓ : Type*) where
  shared : σ
  locals : T → ℓ

section Steps

variable {T σ ℓ : Type*} [DecidableEq T]

/-- One thread takes a step. -/
inductive Step (act : T → σ → ℓ → σ → ℓ → Prop) : Config T σ ℓ → Config T σ ℓ → Prop
  | mk {config : Config T σ ℓ} (t : T) {shared : σ} {next : ℓ} :
      act t config.shared (config.locals t) shared next →
      Step act config ⟨shared, update config.locals t next⟩

/-- The states that are reached by steps of the threads in any order. -/
abbrev Reaches (act : T → σ → ℓ → σ → ℓ → Prop) : Config T σ ℓ → Config T σ ℓ → Prop :=
  Relation.ReflTransGen (Step act)

/-- What holds at the start and is preserved by every step holds in every reachable state. -/
theorem Reaches.invariant {act : T → σ → ℓ → σ → ℓ → Prop} {Inv : Config T σ ℓ → Prop}
    {start config : Config T σ ℓ} (initial : Inv start)
    (step : ∀ config t shared next, Inv config →
      act t config.shared (config.locals t) shared next →
      Inv ⟨shared, update config.locals t next⟩)
    (reaches : Reaches act start config) : Inv config := by
  induction reaches with
  | refl => exact initial
  | tail _ last ih =>
    cases last with
    | mk t acts => exact step _ t _ _ ih acts

/-- What is reached by some of the steps is reached. -/
theorem Reaches.weaken {act act' : T → σ → ℓ → σ → ℓ → Prop} {start config : Config T σ ℓ}
    (reaches : Reaches act start config)
    (weaker : ∀ t s l s' l', act t s l s' l' → act' t s l s' l') : Reaches act' start config := by
  induction reaches with
  | refl => exact .refl
  | tail _ last ih =>
    cases last with
    | mk t acts => exact ih.tail (.mk t (weaker _ _ _ _ _ acts))

end Steps

/-! ## Finite sums -/

/-- A family of numbers, all but finitely many of them zero, adds up to a number. -/
def FiniteSum {ι : Type*} (weight : ι → Nat) (total : Nat) : Prop :=
  (Function.support weight).Finite ∧ ∑ᶠ i, weight i = total

section Sums

variable {ι : Type*} {weight other : ι → Nat} {total : Nat}

theorem FiniteSum.zero : FiniteSum (fun _ : ι => 0) 0 := by
  simp [FiniteSum, Function.support]

section

variable (sum : FiniteSum weight total)

include sum

theorem FiniteSum.unique {total' : Nat} (sum' : FiniteSum weight total') : total = total' :=
  sum.2.symm.trans sum'.2

theorem FiniteSum.le (i : ι) : weight i ≤ total := by
  obtain ⟨finite, rfl⟩ := sum
  exact single_le_finsum i finite fun _ => Nat.zero_le _

/-- Changing one summand changes the sum by the difference. -/
theorem FiniteSum.update [DecidableEq ι] (i : ι) (value : Nat) :
    FiniteSum (update weight i value) (total - weight i + value) := by
  obtain ⟨finite, rfl⟩ := sum
  -- both families are a common rest and one summand
  have split (w : ι → Nat) :
      w = fun j => update w i 0 j + (Pi.single i (w i) : ι → Nat) j := by
    funext j
    by_cases same : j = i
    · subst same
      simp
    · simp [same]
  have rest : (Function.support (update weight i 0)).Finite := by
    refine finite.subset fun j member => ?_
    by_cases same : j = i
    · subst same
      simp at member
    · simpa [same] using member
  have one (v : Nat) : (Function.support (Pi.single i v : ι → Nat)).Finite :=
    (Set.finite_singleton i).subset Pi.support_single_subset
  have single (v : Nat) : ∑ᶠ j, (Pi.single i v : ι → Nat) j = v := by
    rw [finsum_eq_single _ i fun j differs => by simp [differs], Pi.single_eq_same]
  have sumOf (w : ι → Nat) (same : update w i 0 = update weight i 0) :
      ∑ᶠ j, w j = ∑ᶠ j, update weight i 0 j + w i := by
    conv_lhs => rw [split w]
    rw [finsum_add_distrib (same ▸ rest) (one _), same, single]
  constructor
  · refine (finite.union (Set.finite_singleton i)).subset fun j member => ?_
    by_cases same : j = i
    · exact .inr same
    · exact .inl (by simpa [same] using member)
  · rw [sumOf (update weight i value) (by simp), sumOf weight rfl, update_self, Nat.add_sub_cancel]

theorem FiniteSum.eq_zero (zero : ∀ i, weight i = 0) : total = 0 := by
  have same : weight = fun _ => 0 := funext zero
  exact (same ▸ sum).unique .zero

end

end Sums

end Wirelog.Foundations

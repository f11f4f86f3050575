import Mathlib

/-!
# Chains of indices

A chain is a list of indices that is stored in an array of links: the entry of each index is
the next index or the end of the chain. An array of heads gives one chain for each bucket. A
new index is linked in at the head of a bucket (`IsChain.link`), which keeps all chains that do
not contain it (`IsChain.update`). An entry of the array that was never written is no link. What
can be reached from the heads (`Linked`) is what the chains hold (`Linked.exists_mem`).
-/

set_option autoImplicit false

namespace Wirelog.Foundations

/-- The chain that starts at an index runs through a list of indices and ends. -/
def IsChain (next : Nat → Option (Option Nat)) : Option Nat → List Nat → Prop
  | none, [] => True
  | some i, j :: rest => i = j ∧ ∃ link, next i = some link ∧ IsChain next link rest
  | none, _ :: _ => False
  | some _, [] => False

variable {next : Nat → Option (Option Nat)} {start : Option Nat} {indices : List Nat} {i : Nat}

section

variable (chain : IsChain next start indices)

include chain

/-- The links of other indices do not matter. -/
theorem IsChain.update (outside : i ∉ indices) (link : Option (Option Nat)) :
    IsChain (Function.update next i link) start indices := by
  induction indices generalizing start with
  | nil =>
    cases start with
    | none => trivial
    | some _ => exact chain
  | cons j rest ih =>
    cases start with
    | none => exact chain
    | some start =>
      obtain ⟨rfl, successor, found, tail⟩ := chain
      have apart : start ≠ i := fun same => outside (same ▸ List.mem_cons_self ..)
      refine ⟨rfl, successor, ?_, ih tail fun member => outside (List.mem_cons_of_mem _ member)⟩
      rw [Function.update_of_ne apart, found]

/-- A new index comes before a chain. -/
theorem IsChain.link (outside : i ∉ indices) :
    IsChain (Function.update next i (some start)) (some i) (i :: indices) :=
  ⟨rfl, start, Function.update_self .., chain.update outside _⟩

/-- The indices that can be reached from the heads of the buckets. -/
inductive Linked (nbuckets : Nat) (head : Nat → Option Nat) (next : Nat → Option (Option Nat)) :
    Nat → Prop
  | first {b i : Nat} : b < nbuckets → head b = some i → Linked nbuckets head next i
  | next {i j : Nat} : Linked nbuckets head next i → next i = some (some j) →
      Linked nbuckets head next j

theorem IsChain.linked {nbuckets : Nat} {head : Nat → Option Nat}
    (reached : ∀ i, start = some i → Linked nbuckets head next i) :
    ∀ i ∈ indices, Linked nbuckets head next i := by
  induction indices generalizing start with
  | nil => exact fun i member => absurd member List.not_mem_nil
  | cons j rest ih =>
    cases start with
    | none => exact chain.elim
    | some start =>
      obtain ⟨rfl, successor, found, tail⟩ := chain
      have here := reached start rfl
      refine List.forall_mem_cons.mpr ⟨here, ih tail fun k same => ?_⟩
      exact .next here (same ▸ found)

theorem IsChain.mem_of_next {j : Nat} (member : i ∈ indices) (successor : next i = some (some j)) :
    j ∈ indices := by
  induction indices generalizing start with
  | nil => exact absurd member List.not_mem_nil
  | cons k rest ih =>
    cases start with
    | none => exact chain.elim
    | some start =>
      obtain ⟨rfl, link, found, tail⟩ := chain
      apply List.mem_cons_of_mem
      rcases List.mem_cons.mp member with rfl | later
      · obtain rfl := Option.some.inj (found.symm.trans successor)
        cases rest with
        | nil => exact tail.elim
        | cons k rest => exact tail.1 ▸ List.mem_cons_self ..
      · exact ih tail later

end

/-- Where every bucket has a chain, all indices that can be reached are on one of them. -/
theorem Linked.exists_mem {nbuckets : Nat} {head : Nat → Option Nat} {chains : Nat → List Nat}
    (areChains : ∀ b < nbuckets, IsChain next (head b) (chains b))
    (linked : Linked nbuckets head next i) : ∃ b < nbuckets, i ∈ chains b := by
  induction linked with
  | @first b i bucket start =>
    refine ⟨b, bucket, ?_⟩
    have chain := areChains b bucket
    rw [start] at chain
    cases onChain : chains b with
    | nil =>
      rw [onChain] at chain
      exact chain.elim
    | cons j rest =>
      rw [onChain] at chain
      exact chain.1 ▸ List.mem_cons_self ..
  | next _ successor ih =>
    obtain ⟨b, bucket, member⟩ := ih
    exact ⟨b, bucket, (areChains b bucket).mem_of_next member successor⟩

end Wirelog.Foundations

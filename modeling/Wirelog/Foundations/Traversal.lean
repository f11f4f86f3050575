import Mathlib

/-!
# Traversals that can fail

A traversal `xs.mapM f` in `Option` or `Except` succeeds when `f` succeeds on every element,
and its results are those of the elements in order.
-/

set_option autoImplicit false

namespace Wirelog.Foundations

open List

variable {α β ε : Type*}

/-! ## Sequencing -/

theorem bind_eq_ok_iff {γ : Type*} {first : Except ε α} {next : α → Except ε γ} {result : γ} :
    first.bind next = .ok result ↔ ∃ a, first = .ok a ∧ next a = .ok result := by
  cases first <;> simp [Except.bind]

theorem do_eq_some_iff {γ δ : Type} {first : Option γ} {next : γ → Option δ} {result : δ} :
    (first >>= next) = some result ↔ ∃ a, first = some a ∧ next a = some result :=
  Option.bind_eq_some_iff

theorem pure_eq_some_iff {γ : Type} {a b : γ} : (pure a : Option γ) = some b ↔ a = b :=
  Option.some_inj

theorem toOption_eq_some_iff {found : Except ε α} {a : α} :
    found.toOption = some a ↔ found = .ok a := by
  cases found <;> simp [Except.toOption]

/-! ## Traversals with errors -/

section Errors

variable {γ δ : Type} {f : α → Except δ γ} {x : α} {xs : List α} {y : γ} {ys : List γ}

/-- One round of a traversal that succeeds. -/
theorem mapM_cons_eq_ok_iff :
    (x :: xs).mapM f = .ok ys ↔
      ∃ first, f x = .ok first ∧ ∃ others, xs.mapM f = .ok others ∧ first :: others = ys := by
  rw [mapM_cons]
  refine bind_eq_ok_iff.trans (exists_congr fun first => and_congr_right fun _ => ?_)
  refine bind_eq_ok_iff.trans (exists_congr fun others => and_congr_right fun _ => ?_)
  exact ⟨Except.ok.inj, congrArg Except.ok⟩

/-- A traversal succeeds with the results of the elements. -/
theorem mapM_eq_ok_iff :
    xs.mapM f = .ok ys ↔ List.Forall₂ (fun x y => f x = .ok y) xs ys := by
  induction xs generalizing ys with
  | nil =>
    rw [forall₂_nil_left_iff]
    exact ⟨fun found => (Except.ok.inj found).symm, fun empty => congrArg Except.ok empty.symm⟩
  | cons x rest ih =>
    rw [mapM_cons_eq_ok_iff, forall₂_cons_left_iff]
    apply exists_congr
    intro first
    simp only [ih]
    tauto

/-- A traversal succeeds when every element does. -/
theorem exists_mapM_eq_ok_iff :
    (∃ ys, xs.mapM f = .ok ys) ↔ ∀ x ∈ xs, ∃ y, f x = .ok y := by
  induction xs with
  | nil => exact ⟨fun _ _ member => absurd member not_mem_nil, fun _ => ⟨[], rfl⟩⟩
  | cons x rest ih =>
    rw [forall_mem_cons, ← ih]
    simp only [mapM_cons_eq_ok_iff]
    constructor
    · rintro ⟨-, first, here, others, later, -⟩
      exact ⟨⟨first, here⟩, others, later⟩
    · rintro ⟨⟨first, here⟩, others, later⟩
      exact ⟨_, first, here, others, later, rfl⟩

theorem mem_of_mapM_eq_ok (traversed : xs.mapM f = .ok ys) (member : y ∈ ys) :
    ∃ x ∈ xs, f x = .ok y := by
  obtain ⟨i, bound, found⟩ := getElem_of_mem member
  have related := mapM_eq_ok_iff.mp traversed
  have inside : i < xs.length := related.length_eq ▸ bound
  refine ⟨xs[i], getElem_mem inside, ?_⟩
  rw [← found]
  exact related.get inside bound

end Errors

/-! ## Partial traversals -/

/-- A partial traversal is defined when it is defined on every element. -/
theorem isSome_mapM_iff {β : Type} {f : α → Option β} {xs : List α} :
    (xs.mapM f).isSome ↔ ∀ x ∈ xs, (f x).isSome := by
  induction xs with
  | nil => simp
  | cons x rest ih =>
    rw [mapM_cons, forall_mem_cons, ← ih]
    cases f x <;> cases rest.mapM f <;> simp

/-- One round of a partial traversal. -/
theorem mapM_cons_eq_some_iff {β : Type} {f : α → Option β} {x : α} {xs : List α} {ys : List β} :
    (x :: xs).mapM f = some ys ↔
      ∃ first, f x = some first ∧ ∃ others, xs.mapM f = some others ∧ first :: others = ys := by
  rw [mapM_cons]
  refine Option.bind_eq_some_iff.trans (exists_congr fun first => and_congr_right fun _ => ?_)
  refine Option.bind_eq_some_iff.trans (exists_congr fun others => and_congr_right fun _ => ?_)
  exact ⟨Option.some.inj, congrArg some⟩

/-- The results of a partial traversal stand where their elements do. -/
theorem getElem?_of_mapM_eq_some {β : Type} {f : α → Option β} {xs : List α} {ys : List β}
    (traversed : xs.mapM f = some ys) (i : Nat) : ys[i]? = (xs[i]?).bind f := by
  induction xs generalizing ys i with
  | nil =>
    cases traversed
    rfl
  | cons x rest ih =>
    obtain ⟨first, here, others, later, rfl⟩ := mapM_cons_eq_some_iff.mp traversed
    cases i with
    | zero => exact here.symm
    | succ i => exact ih later i

/-- What a partial traversal keeps of its elements. -/
theorem map_of_mapM_eq_some {β γ : Type} {f : α → Option β} {g : β → γ} {h : α → γ} {xs : List α}
    {ys : List β} (traversed : xs.mapM f = some ys) (keeps : ∀ x y, f x = some y → g y = h x) :
    ys.map g = xs.map h := by
  induction xs generalizing ys with
  | nil =>
    cases traversed
    rfl
  | cons x rest ih =>
    obtain ⟨first, here, others, later, rfl⟩ := mapM_cons_eq_some_iff.mp traversed
    rw [map_cons, map_cons, keeps x first here, ih later]

end Wirelog.Foundations

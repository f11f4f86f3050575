import Mathlib

/-!
# Grouping values by a key

Items are pairs of a key and a value. The state of a group starts with the first value of its
key and takes the others in one after another; a value may be refused. A list of groups belongs
to items when it has one entry for each key that occurs, with the state that the values of this
key lead to (`Grouped`).

A program that goes through the items in order keeps such a list by three rules: the first value
of a key makes a new entry (`Grouped.first`), a further value changes one (`Grouped.next`), and
when a value is refused the state of its group does not exist, whatever follows
(`Grouped.refused`, `groupState_append_of_error`). Two ways to compute the states are compared
value by value (`groupState_agree`).
-/

set_option autoImplicit false

namespace Wirelog.Foundations

open List

/-! ## The values of a key -/

section Values

variable {κ β : Type*} [DecidableEq κ] {items more : List (κ × β)} {key other : κ} {value : β}

/-- The values that come with a key, in order. -/
def valuesOf (items : List (κ × β)) (key : κ) : List β :=
  items.filterMap fun item => if item.1 = key then some item.2 else none

theorem valuesOf_append (items more : List (κ × β)) (key : κ) :
    valuesOf (items ++ more) key = valuesOf items key ++ valuesOf more key :=
  filterMap_append

theorem valuesOf_concat_self (items : List (κ × β)) (key : κ) (value : β) :
    valuesOf (items ++ [(key, value)]) key = valuesOf items key ++ [value] := by
  rw [valuesOf_append]
  simp [valuesOf]

theorem valuesOf_concat_ne (apart : key ≠ other) :
    valuesOf (items ++ [(key, value)]) other = valuesOf items other := by
  rw [valuesOf_append]
  simp [valuesOf, apart]

theorem valuesOf_eq_nil (absent : key ∉ items.map Prod.fst) : valuesOf items key = [] := by
  refine filterMap_eq_nil_iff.mpr ?_
  intro item member
  refine if_neg ?_
  rintro rfl
  exact absent (mem_map_of_mem member)

/-- The values of a key are those of the elements with this key. -/
theorem valuesOf_map {ρ : Type*} (rows : List ρ) (keyed : ρ → κ) (valued : ρ → β) (key : κ) :
    valuesOf (rows.map fun row => (keyed row, valued row)) key =
      (rows.filter fun row => keyed row = key).map valued := by
  induction rows with
  | nil => rfl
  | cons row rows ih =>
    by_cases same : keyed row = key
    · simpa [valuesOf, same] using ih
    · simpa [valuesOf, same] using ih

/-- The values of a key do not depend on the order of the items but for their own order. -/
theorem valuesOf_perm (same : items.Perm more) (key : κ) :
    (valuesOf items key).Perm (valuesOf more key) := same.filterMap _

end Values

/-! ## The state of a group -/

section State

variable {β σ ε : Type} {start : β → σ} {step : σ → β → Except ε σ}

/-- One more value of a group, whose first value starts its state. -/
def addValue (start : β → σ) (step : σ → β → Except ε σ) : Option σ → β → Except ε (Option σ)
  | none, value => .ok (some (start value))
  | some state, value => (step state value).map some

/-- The state that values lead to, none without a value. -/
def groupState (start : β → σ) (step : σ → β → Except ε σ) (values : List β) :
    Except ε (Option σ) :=
  values.foldlM (addValue start step) none

theorem groupState_concat (values : List β) (value : β) :
    groupState start step (values ++ [value]) =
      (groupState start step values).bind fun state => addValue start step state value := by
  rw [groupState, foldlM_append, ← groupState]
  cases groupState start step values with
  | error e => rfl
  | ok state =>
    change (addValue start step state value >>= pure) = addValue start step state value
    exact bind_pure _

/-- A group whose values were refused has no state, whatever follows. -/
theorem groupState_append_of_error {values : List β} {e : ε}
    (failed : groupState start step values = .error e) (more : List β) :
    groupState start step (values ++ more) = .error e := by
  rw [groupState, foldlM_append, ← groupState, failed]
  rfl

/-- Two computations that may fail give related results or the same error. -/
def Agree {τ : Type} (related : σ → τ → Prop) : Except ε σ → Except ε τ → Prop
  | .ok s, .ok t => related s t
  | .error e, .error e' => e = e'
  | _, _ => False

/-- **Related values lead to related states**, when the first ones do and every further one. -/
theorem groupState_agree {γ τ : Type} {start' : γ → τ} {step' : τ → γ → Except ε τ}
    {related : σ → τ → Prop} {same : β → γ → Prop}
    (starts : ∀ v w, same v w → related (start v) (start' w))
    (steps : ∀ s t v w, related s t → same v w → Agree related (step s v) (step' t w))
    {values : List β} {others : List γ} (pairs : List.Forall₂ same values others) :
    Agree (Option.Rel related) (groupState start step values) (groupState start' step' others) := by
  have run (x : Option σ) (y : Option τ) (here : Option.Rel related x y) :
      Agree (Option.Rel related) (values.foldlM (addValue start step) x)
        (others.foldlM (addValue start' step') y) := by
    induction pairs generalizing x y with
    | nil => exact here
    | @cons v w values others pair _ ih =>
      rw [foldlM_cons, foldlM_cons]
      cases here with
      | none => exact ih _ _ (.some (starts v w pair))
      | @some s t here =>
        have next := steps s t v w here pair
        rw [addValue, addValue]
        cases left : step s v with
        | ok s' =>
          cases right : step' t w with
          | ok t' =>
            rw [left, right] at next
            exact ih _ _ (.some next)
          | error e => rw [left, right] at next; exact next.elim
        | error e =>
          cases right : step' t w with
          | ok t' => rw [left, right] at next; exact next.elim
          | error e' =>
            rw [left, right] at next
            exact next
  exact run none none .none

end State

/-! ## Lists of groups -/

section Groups

variable {κ β σ ε : Type} [DecidableEq κ] {start : β → σ} {step : σ → β → Except ε σ}
  {items : List (κ × β)} {groups : List (κ × σ)} {key : κ} {value : β}

/-- One entry for each key that occurs, with the state that its values lead to. -/
structure Grouped (start : β → σ) (step : σ → β → Except ε σ) (items : List (κ × β))
    (groups : List (κ × σ)) : Prop where
  distinct : (groups.map Prod.fst).Nodup
  keys : ∀ key, key ∈ groups.map Prod.fst ↔ key ∈ items.map Prod.fst
  states : ∀ group ∈ groups, groupState start step (valuesOf items group.1) = .ok (some group.2)

theorem Grouped.nil : Grouped start step ([] : List (κ × β)) [] where
  distinct := nodup_nil
  keys _ := Iff.rfl
  states _ member := absurd member not_mem_nil

section

variable (grouped : Grouped start step items groups)

include grouped

theorem Grouped.first (fresh : key ∉ groups.map Prod.fst) (value : β) :
    Grouped start step (items ++ [(key, value)]) (groups ++ [(key, start value)]) where
  distinct := by
    rw [map_append]
    refine nodup_append'.mpr ⟨grouped.distinct, nodup_singleton _, ?_⟩
    exact disjoint_singleton.mpr fresh
  keys other := by
    simp [grouped.keys other]
  states group member := by
    rcases mem_append.mp member with old | new
    · have apart : key ≠ group.1 := by
        rintro rfl
        exact fresh (mem_map_of_mem old)
      rw [valuesOf_concat_ne apart]
      exact grouped.states group old
    · obtain rfl := mem_singleton.mp new
      have nothing : valuesOf items key = [] :=
        valuesOf_eq_nil fun occurs => fresh ((grouped.keys key).mpr occurs)
      rw [valuesOf_concat_self, nothing]
      rfl

theorem Grouped.next {k : Nat} {state state' : σ} (here : groups[k]? = some (key, state))
    (taken : step state value = .ok state') :
    Grouped start step (items ++ [(key, value)]) (groups.set k (key, state')) := by
  obtain ⟨bound, entry⟩ := List.getElem?_eq_some_iff.mp here
  have sameKeys : (groups.set k (key, state')).map Prod.fst = groups.map Prod.fst := by
    rw [map_set]
    refine ext_getElem? fun i => ?_
    by_cases same : k = i
    · subst same
      simp [bound, entry]
    · rw [List.getElem?_set_ne same]
  refine ⟨sameKeys ▸ grouped.distinct, fun other => ?_, fun group member => ?_⟩
  · have occurs : key ∈ items.map Prod.fst :=
      (grouped.keys key).mp (mem_map.mpr ⟨_, mem_of_getElem? here, rfl⟩)
    rw [sameKeys, grouped.keys other, map_append, mem_append]
    refine ⟨Or.inl, ?_⟩
    rintro (old | new)
    · exact old
    · rw [mem_singleton.mp new]
      exact occurs
  · obtain ⟨i, inside, rfl⟩ := getElem_of_mem member
    have inside' : i < groups.length := by simpa using inside
    rw [getElem_set]
    split_ifs with same
    · have before := grouped.states _ (mem_of_getElem? here)
      rw [valuesOf_concat_self, groupState_concat, before]
      change (step state value).map some = _
      rw [taken]
      rfl
    · -- another entry has another key
      have apart : key ≠ groups[i].1 := by
        intro equal
        have twice : (groups.map Prod.fst)[k]? = (groups.map Prod.fst)[i]? := by
          rw [List.getElem?_map, List.getElem?_map, here, List.getElem?_eq_getElem inside']
          exact congrArg some equal
        exact same ((List.getElem?_inj (by simpa using bound) grouped.distinct).mp twice)
      rw [valuesOf_concat_ne apart]
      exact grouped.states _ (getElem_mem inside')

theorem Grouped.refused {state : σ} {e : ε} (here : (key, state) ∈ groups)
    (failed : step state value = .error e) :
    groupState start step (valuesOf (items ++ [(key, value)]) key) = .error e := by
  rw [valuesOf_concat_self, groupState_concat, grouped.states _ here]
  change (step state value).map some = _
  rw [failed]
  rfl

end

end Groups

end Wirelog.Foundations

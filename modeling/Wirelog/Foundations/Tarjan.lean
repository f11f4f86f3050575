import Mathlib

/-!
# Strongly connected components by an iterative depth-first search

The algorithm of Tarjan over any type of vertices, with an explicit stack of frames in
place of recursion: a frame holds a vertex and its neighbours that are still to be
looked at. A vertex gets a discovery index and a low link, lies on the component stack
until its component is complete, and then gets the number of that component.

`Core` is the invariant of the search, in terms of the *gray* vertices (those with a
frame): every vertex of the component stack is reached from those below it and reaches
a gray vertex at or below it, low links are discovery indices of reachable stack
vertices, and what is no longer gray has nothing left to explore. `Processed` says what
is known of the neighbours that a frame has already looked at. Each kind of step has
its own preservation lemma (`Core.discover`, `Core.lower`, `Core.retire`, `Core.close`).

The results are about the finished search: two vertices get one number exactly when each
reaches the other (`number_eq_iff`), and an edge never leads to a higher number
(`number_le_of_edge`), so that the numbers are an order in which components come after
those they lead to.
-/

set_option autoImplicit false

namespace Wirelog.Foundations.Tarjan

open Relation List Function

variable {V : Type}

variable {v u : V} {below rest : List V}

structure State (V : Type) where
  /-- The discovery index of a vertex, once it is discovered. -/
  disc : V → Option Nat
  low : V → Nat
  onStack : V → Bool
  /-- The component stack, top first. -/
  stack : List V
  /-- The frames, innermost first: a vertex and its neighbours still to be looked at. -/
  frames : List (V × List V)
  timer : Nat
  sccId : V → Nat
  sccCount : Nat

namespace State

/-- Nothing is discovered. -/
def initial : State V :=
  ⟨fun _ => none, fun _ => 0, fun _ => false, [], [], 0, fun _ => 0, 0⟩

section Rounds

variable [DecidableEq V]

variable (adj : V → List V)

/-- Discover a vertex and open a frame for it. -/
def discover (s : State V) (w : V) : State V :=
  { s with
    disc := update s.disc w (some s.timer)
    low := update s.low w s.timer
    onStack := update s.onStack w true
    stack := w :: s.stack
    frames := (w, adj w) :: s.frames
    timer := s.timer + 1 }

/-- Pop the component stack down to and including `v`, numbering what is popped. -/
def popComponent (v : V) (s : State V) : List V → State V
  | [] => { s with stack := [] }
  | w :: rest =>
    let s := { s with
      stack := rest
      onStack := update s.onStack w false
      sccId := update s.sccId w s.sccCount }
    if w = v then s else popComponent v s rest

/-- A component is complete when its first vertex has no lower link than its own index. -/
def closeComponent (s : State V) (v : V) : State V :=
  if s.disc v = some (s.low v) then
    let s := popComponent v s s.stack
    { s with sccCount := s.sccCount + 1 }
  else s

/-- Leave the frame of `v`, with the frames below it, and hand its low link to its parent. -/
def leave (s : State V) (v : V) (below : List (V × List V)) : State V :=
  match below with
  | [] => { s with frames := below }
  | (parent, _) :: _ =>
    if s.low v < s.low parent then
      { s with frames := below, low := update s.low parent (s.low v) }
    else { s with frames := below }

/-- One round of the loop over the frames. -/
def step (s : State V) : State V :=
  match s.frames with
  | [] => s
  | (v, w :: rest) :: below =>
    let s := { s with frames := (v, rest) :: below }
    match s.disc w with
    | none => s.discover adj w
    | some d =>
      if s.onStack w ∧ d < s.low v then { s with low := update s.low v d } else s
  | (v, []) :: below => (s.closeComponent v).leave v below

/-- The loop over the frames, with a bound on the number of rounds. -/
def search : Nat → State V → State V
  | 0, s => s
  | rounds + 1, s => if s.frames.isEmpty then s else search rounds (s.step adj)

/-- Start a search from every vertex of a list that is not discovered by then. -/
def searchFrom (rounds : Nat) : List V → State V → State V
  | [], s => s
  | v :: rest, s =>
    searchFrom rounds rest (if s.disc v = none then search adj rounds (s.discover adj v) else s)

end Rounds

end State

variable (adj : V → List V)

/-- The number of rounds that a search over the vertices of a list takes at most. -/
def roundBound (vertices : List V) : Nat :=
  (vertices.map fun v => (adj v).length + 1).sum

/-- The whole algorithm over the vertices of a list. -/
def components [DecidableEq V] (adj : V → List V) (vertices : List V) : State V :=
  State.initial.searchFrom adj (roundBound adj vertices) vertices

/-! ## The invariant of the search -/

/-- There is an edge from the first vertex to the second. -/
def Edge (u w : V) : Prop := w ∈ adj u

/-- The second vertex is reached from the first along edges. -/
def Reaches : V → V → Prop := ReflTransGen (Edge adj)

theorem Reaches.trans {adj : V → List V} {w : V} (first : Reaches adj u v)
    (second : Reaches adj v w) : Reaches adj u w :=
  ReflTransGen.trans first second

theorem Reaches.tail {adj : V → List V} {w : V} (path : Reaches adj u v)
    (edge : w ∈ adj v) : Reaches adj u w :=
  ReflTransGen.tail path edge

namespace State

/-- The discovery index, with a value for undiscovered vertices that is never looked at. -/
def rank (s : State V) (v : V) : Nat := (s.disc v).getD 0

/-- The vertex is discovered and its component is complete. -/
def Done (s : State V) (v : V) : Prop := s.disc v ≠ none ∧ v ∉ s.stack

/-- The gray vertex `g` is the highest one at or below `x` on the component stack. -/
def Owner (s : State V) (gray : List V) (g x : V) : Prop :=
  g ∈ gray ∧ s.rank g ≤ s.rank x ∧ ∀ h ∈ gray, s.rank h ≤ s.rank x → s.rank h ≤ s.rank g

/-- The neighbour `y` is discovered, and its index is not below `bound` if it is still on
the component stack. -/
def Seen (s : State V) (bound : Nat) (y : V) : Prop :=
  s.disc y ≠ none ∧ (y ∈ s.stack → bound ≤ s.rank y)

theorem disc_eq_rank {s : State V} (discovered : s.disc v ≠ none) :
    s.disc v = some (s.rank v) := by
  obtain ⟨d, found⟩ := Option.ne_none_iff_exists'.mp discovered
  simp [rank, found]

end State

/-- What holds of the search between two rounds, for the gray vertices, innermost first. -/
structure Core (adj : V → List V) (s : State V) (gray : List V) : Prop where
  rank_lt : ∀ v, s.disc v ≠ none → s.rank v < s.timer
  rank_inj : ∀ v w, s.disc v ≠ none → s.disc w ≠ none → s.rank v = s.rank w → v = w
  onStack_iff : ∀ v, s.onStack v = true ↔ v ∈ s.stack
  discovered : ∀ v ∈ s.stack, s.disc v ≠ none
  stack_sorted : s.stack.Pairwise fun a b => s.rank b < s.rank a
  gray_mem : ∀ g ∈ gray, g ∈ s.stack
  gray_sorted : gray.Pairwise fun a b => s.rank b < s.rank a
  connected : ∀ u ∈ s.stack, ∀ w ∈ s.stack, s.rank u ≤ s.rank w → Reaches adj u w
  toGray : ∀ v ∈ s.stack, ∃ g ∈ gray, s.rank g ≤ s.rank v ∧ Reaches adj v g
  low_le : ∀ g ∈ gray, s.low g ≤ s.rank g
  low_mem : ∀ g ∈ gray, ∃ u ∈ s.stack, s.rank u = s.low g ∧ Reaches adj g u
  explored : ∀ x ∈ s.stack, x ∉ gray → ∀ g, s.Owner gray g x → ∀ y ∈ adj x, s.Seen (s.low g) y
  done_edge : ∀ u, s.Done u → ∀ w ∈ adj u, s.Done w ∧ s.sccId w ≤ s.sccId u
  done_iff : ∀ u w, s.Done u → s.Done w →
    (s.sccId u = s.sccId w ↔ Reaches adj u w ∧ Reaches adj w u)
  done_lt : ∀ u, s.Done u → s.sccId u < s.sccCount

/-- What is known of a frame: the neighbours before those still to be looked at are seen. -/
def Processed (s : State V) (frame : V × List V) : Prop :=
  ∃ looked, adj frame.1 = looked ++ frame.2 ∧ ∀ y ∈ looked, s.Seen (s.low frame.1) y

structure Invariant (adj : V → List V) (s : State V) : Prop where
  core : Core adj s (s.frames.map Prod.fst)
  processed : ∀ frame ∈ s.frames, Processed adj s frame

theorem core_initial : Core adj (State.initial : State V) [] := by
  constructor <;> simp [State.initial, State.Done]

namespace Core

variable {adj : V → List V} {s : State V} {gray : List V}

/-- Completed components lead only to completed components. -/
theorem done_of_reaches (core : Core adj s gray) {w : V} (done : s.Done u)
    (path : Reaches adj u w) : s.Done w := by
  induction path with
  | refl => exact done
  | tail _ edge ih => exact (core.done_edge _ ih _ edge).1

/-- Everything on the component stack reaches the innermost gray vertex. -/
theorem reaches_top (core : Core adj s (v :: below)) (member : u ∈ s.stack) : Reaches adj u v := by
  obtain ⟨g, isGray, _, path⟩ := core.toGray u member
  rcases mem_cons.mp isGray with rfl | isBelow
  · exact path
  have lower := (pairwise_cons.mp core.gray_sorted).1 g isBelow
  exact path.trans (core.connected g (core.gray_mem g isGray) v
    (core.gray_mem v (mem_cons_self ..)) lower.le)

/-- The innermost gray vertex owns everything above it. -/
theorem owner_top (core : Core adj s (v :: below)) {x : V}
    (above : s.rank v ≤ s.rank x) : s.Owner (v :: below) v x := by
  refine ⟨mem_cons_self .., above, fun h isGray _ => ?_⟩
  rcases mem_cons.mp isGray with rfl | isBelow
  · exact le_rfl
  · exact ((pairwise_cons.mp core.gray_sorted).1 h isBelow).le

/-- Below the innermost gray vertex, ownership does not depend on it. -/
theorem owner_of_below {g x : V} (under : s.rank x < s.rank v)
    (owner : s.Owner below g x) : s.Owner (v :: below) g x := by
  obtain ⟨member, le, max⟩ := owner
  refine ⟨mem_cons_of_mem _ member, le, fun h isGray hle => ?_⟩
  rcases mem_cons.mp isGray with rfl | isBelow
  · exact absurd hle (not_le.mpr under)
  · exact max h isBelow hle

end Core

/-! ## Discovering a vertex -/

section Discover

variable [DecidableEq V] {adj : V → List V} {s : State V} {w : V}

theorem State.disc_discover (s : State V) (w v : V) :
    (s.discover adj w).disc v = if v = w then some s.timer else s.disc v := by
  simp [State.discover, update_apply]

theorem State.rank_discover (s : State V) (w v : V) :
    (s.discover adj w).rank v = if v = w then s.timer else s.rank v := by
  simp only [State.rank, State.disc_discover]
  split <;> rfl

theorem State.rank_discover_of_ne (other : v ≠ w) :
    (s.discover adj w).rank v = s.rank v := by
  rw [State.rank_discover, if_neg other]

theorem State.low_discover_of_ne (other : v ≠ w) :
    (s.discover adj w).low v = s.low v := by
  simp [State.discover, other]

theorem State.mem_stack_discover :
    v ∈ (s.discover adj w).stack ↔ v = w ∨ v ∈ s.stack := mem_cons

theorem State.Seen.discover {bound : Nat} {y : V} (fresh : s.disc w = none)
    (seen : s.Seen bound y) : (s.discover adj w).Seen bound y := by
  have other : y ≠ w := fun same => seen.1 (same ▸ fresh)
  refine ⟨by rw [State.disc_discover, if_neg other]; exact seen.1, fun member => ?_⟩
  rw [State.rank_discover_of_ne other]
  exact seen.2 ((State.mem_stack_discover.mp member).resolve_left other)

theorem State.done_discover_iff (fresh : s.disc w = none) :
    (s.discover adj w).Done v ↔ s.Done v := by
  unfold State.Done
  rw [State.disc_discover, State.mem_stack_discover]
  by_cases same : v = w
  · simp [same, fresh]
  · simp [same]

/-- Discovering a vertex that everything on the component stack reaches keeps the
invariant, with that vertex as the innermost gray one. -/
theorem Core.discover {gray : List V} (core : Core adj s gray) (fresh : s.disc w = none)
    (reach : ∀ u ∈ s.stack, Reaches adj u w) : Core adj (s.discover adj w) (w :: gray) := by
  have notOn : w ∉ s.stack := fun member => core.discovered w member fresh
  have other : ∀ {v}, v ∈ s.stack → v ≠ w := fun member same => notOn (same ▸ member)
  have otherGray : ∀ {v}, v ∈ gray → v ≠ w := fun member => other (core.gray_mem _ member)
  have rankOf : ∀ {v}, v ∈ s.stack → (s.discover adj w).rank v = s.rank v :=
    fun member => State.rank_discover_of_ne (other member)
  have rankSelf : (s.discover adj w).rank w = s.timer := by
    rw [State.rank_discover, if_pos rfl]
  have below : ∀ {v}, v ∈ s.stack → s.rank v < s.timer :=
    fun member => core.rank_lt _ (core.discovered _ member)
  have onTop : ∀ {l : List V}, (∀ v ∈ l, v ∈ s.stack) →
      l.Pairwise (fun a b => s.rank b < s.rank a) →
      (w :: l).Pairwise fun a b => (s.discover adj w).rank b < (s.discover adj w).rank a := by
    intro l inside sorted
    refine pairwise_cons.mpr ⟨fun v member => ?_, ?_⟩
    · rw [rankSelf, rankOf (inside v member)]
      exact below (inside v member)
    · exact sorted.imp_of_mem fun ha hb lt => by rwa [rankOf (inside _ ha), rankOf (inside _ hb)]
  constructor
  case rank_lt =>
    intro v discovered
    change _ < s.timer + 1
    by_cases same : v = w
    · rw [same, rankSelf]; omega
    rw [State.disc_discover, if_neg same] at discovered
    rw [State.rank_discover_of_ne same]
    exact Nat.lt_succ_of_lt (core.rank_lt v discovered)
  case rank_inj =>
    intro u v discU discV same
    rw [State.disc_discover] at discU discV
    rw [State.rank_discover, State.rank_discover] at same
    split_ifs at discU discV same with isU isV isV
    · exact isU.trans isV.symm
    · exact absurd (core.rank_lt v discV) (by omega)
    · exact absurd (core.rank_lt u discU) (by omega)
    · exact core.rank_inj u v discU discV same
  case onStack_iff =>
    intro v
    rw [State.mem_stack_discover, ← core.onStack_iff]
    simp only [State.discover, update_apply]
    split <;> simp_all
  case discovered =>
    intro v member
    rw [State.disc_discover]
    rcases State.mem_stack_discover.mp member with rfl | old
    · simp
    rw [if_neg (other old)]
    exact core.discovered v old
  case stack_sorted => exact onTop (fun _ => id) core.stack_sorted
  case gray_mem =>
    intro g isGray
    rcases mem_cons.mp isGray with rfl | old
    · exact mem_cons_self ..
    · exact mem_cons_of_mem _ (core.gray_mem g old)
  case gray_sorted => exact onTop core.gray_mem core.gray_sorted
  case connected =>
    intro u memU v memV le
    rcases State.mem_stack_discover.mp memU with rfl | oldU <;>
      rcases State.mem_stack_discover.mp memV with rfl | oldV
    · exact ReflTransGen.refl
    · rw [rankSelf, rankOf oldV] at le
      exact absurd (below oldV) (by omega)
    · exact reach u oldU
    · rw [rankOf oldU, rankOf oldV] at le
      exact core.connected u oldU v oldV le
  case toGray =>
    intro v member
    rcases State.mem_stack_discover.mp member with rfl | old
    · exact ⟨v, mem_cons_self .., le_rfl, ReflTransGen.refl⟩
    obtain ⟨g, isGray, le, path⟩ := core.toGray v old
    refine ⟨g, mem_cons_of_mem _ isGray, ?_, path⟩
    rwa [rankOf (core.gray_mem g isGray), rankOf old]
  case low_le =>
    intro g isGray
    rcases mem_cons.mp isGray with rfl | old
    · rw [rankSelf]; simp [State.discover]
    rw [rankOf (core.gray_mem g old), State.low_discover_of_ne (otherGray old)]
    exact core.low_le g old
  case low_mem =>
    intro g isGray
    rcases mem_cons.mp isGray with rfl | old
    · exact ⟨g, mem_cons_self .., by rw [rankSelf]; simp [State.discover], .refl⟩
    obtain ⟨u, member, same, path⟩ := core.low_mem g old
    refine ⟨u, mem_cons_of_mem _ member, ?_, path⟩
    rw [rankOf member, State.low_discover_of_ne (otherGray old), same]
  case explored =>
    intro x memX notGray g owner y edge
    have neX : x ≠ w := fun same => notGray (same ▸ mem_cons_self ..)
    have oldX := (State.mem_stack_discover.mp memX).resolve_left neX
    obtain ⟨isGray, le, max⟩ := owner
    rw [rankOf oldX] at le max
    -- the new vertex is above everything, so that the owner of an old one is an old one
    have neG : g ≠ w := by
      rintro rfl
      rw [rankSelf] at le
      exact absurd (below oldX) (by omega)
    have oldG := (mem_cons.mp isGray).resolve_left neG
    rw [State.rank_discover_of_ne neG] at le max
    have oldOwner : s.Owner gray g x := ⟨oldG, le, fun h isH leH => by
      have := max h (mem_cons_of_mem _ isH)
      rw [rankOf (core.gray_mem h isH)] at this
      exact this leH⟩
    rw [State.low_discover_of_ne neG]
    exact (core.explored x oldX (fun old => notGray (mem_cons_of_mem _ old)) g oldOwner y
      edge).discover fresh
  case done_edge =>
    simp only [State.done_discover_iff fresh]
    exact core.done_edge
  case done_iff =>
    simp only [State.done_discover_iff fresh]
    exact core.done_iff
  case done_lt =>
    simp only [State.done_discover_iff fresh]
    exact core.done_lt

end Discover

/-! ## Lowering a link and leaving a frame -/

section Leave

variable {adj : V → List V} {s : State V}

theorem State.Seen.mono {bound lower : Nat} {y : V} (le : lower ≤ bound)
    (seen : s.Seen bound y) : s.Seen lower y :=
  ⟨seen.1, fun member => le.trans (seen.2 member)⟩

/-- Links of gray vertices may be lowered to indices of reachable stack vertices. -/
theorem Core.lower {gray : List V} (core : Core adj s gray) (low : V → Nat)
    (frames : List (V × List V)) (le : ∀ g ∈ gray, low g ≤ s.low g)
    (mem : ∀ g ∈ gray, ∃ u ∈ s.stack, s.rank u = low g ∧ Reaches adj g u) :
    Core adj { s with low := low, frames := frames } gray :=
  { core with
    low_le := fun g isGray => (le g isGray).trans (core.low_le g isGray)
    low_mem := mem
    explored := fun x member notGray g owner y edge =>
      (core.explored x member notGray g owner y edge).mono (le g owner.1) }

theorem Core.withFrames {gray : List V} (core : Core adj s gray)
    (frames : List (V × List V)) : Core adj { s with frames := frames } gray :=
  core.lower s.low frames (fun _ _ => le_rfl) core.low_mem

/-- The innermost gray vertex may turn black when it has seen all its neighbours, has a
link below its own index and has handed that link to the next gray vertex. -/
theorem Core.retire (core : Core adj s (v :: below))
    (seen : ∀ y ∈ adj v, s.Seen (s.low v) y) (notRoot : s.low v < s.rank v)
    (handed : ∀ p ∈ below.head?, s.low p ≤ s.low v) : Core adj s below := by
  refine { core with
    gray_mem := fun g isGray => core.gray_mem g (mem_cons_of_mem _ isGray)
    gray_sorted := (pairwise_cons.mp core.gray_sorted).2
    low_le := fun g isGray => core.low_le g (mem_cons_of_mem _ isGray)
    low_mem := fun g isGray => core.low_mem g (mem_cons_of_mem _ isGray)
    toGray := ?_
    explored := ?_ }
  · intro x member
    obtain ⟨g, isGray, le, path⟩ := core.toGray x member
    rcases mem_cons.mp isGray with rfl | isBelow
    · obtain ⟨u, onStack, rankU, pathU⟩ := core.low_mem g isGray
      obtain ⟨h, isGrayH, leH, pathH⟩ := core.toGray u onStack
      rcases mem_cons.mp isGrayH with rfl | isBelowH
      · omega
      · exact ⟨h, isBelowH, by omega, path.trans (pathU.trans pathH)⟩
    · exact ⟨g, isBelow, le, path⟩
  · intro x member notBelow g owner y edge
    have lower := (pairwise_cons.mp core.gray_sorted).1
    by_cases above : s.rank v ≤ s.rank x
    · -- what `v` owned now belongs to the next gray vertex, which has the link of `v`
      have handedOver : s.low g ≤ s.low v := by
        cases below with
        | nil => cases owner.1
        | cons p rest =>
          have top := owner.2.2 p (mem_cons_self ..) ((lower p (mem_cons_self ..)).le.trans above)
          rcases mem_cons.mp owner.1 with rfl | deeper
          · exact handed g rfl
          have sorted := (pairwise_cons.mp core.gray_sorted).2
          have := (pairwise_cons.mp sorted).1 g deeper
          omega
      have seenBelow : s.Seen (s.low v) y := by
        by_cases same : x = v
        · exact seen y (same ▸ edge)
        · exact core.explored x member (by simp [same, notBelow]) v (core.owner_top above) y edge
      exact seenBelow.mono handedOver
    · have under : s.rank x < s.rank v := not_le.mp above
      have other : x ≠ v := fun same => by simp [same] at under
      exact core.explored x member (by simp [other, notBelow]) g
        (Core.owner_of_below under owner) y edge

end Leave

/-! ## Completing a component -/

section Close

variable {adj : V → List V} {s : State V}

/-- The component stack splits at a vertex by the discovery indices. -/
theorem Core.mem_split {gray above : List V} (core : Core adj s gray)
    (split : s.stack = above ++ v :: rest) :
    (∀ x, x ∈ above ++ [v] ↔ x ∈ s.stack ∧ s.rank v ≤ s.rank x) ∧
      ∀ x, x ∈ rest ↔ x ∈ s.stack ∧ s.rank x < s.rank v := by
  have sorted := core.stack_sorted
  rw [split, pairwise_append, pairwise_cons] at sorted
  obtain ⟨_, ⟨underV, _⟩, aboveV⟩ := sorted
  have overV : ∀ x ∈ above, s.rank v < s.rank x :=
    fun x member => aboveV x member v (mem_cons_self ..)
  constructor <;> intro x <;> rw [split] <;>
    simp only [mem_append, mem_cons, not_mem_nil, or_false] <;> constructor
  · rintro (member | rfl)
    · exact ⟨.inl member, (overV x member).le⟩
    · exact ⟨.inr (.inl rfl), le_rfl⟩
  · rintro ⟨member | rfl | member, le⟩
    · exact .inl member
    · exact .inr rfl
    · exact absurd (underV x member) (not_lt.mpr le)
  · exact fun member => ⟨.inr (.inr member), underV x member⟩
  · rintro ⟨member | rfl | member, lt⟩
    · exact absurd (overV x member) (not_lt.mpr lt.le)
    · exact absurd lt (lt_irrefl _)
    · exact member

/-- Edges out of what a finished root owns lead to what it owns or to completed components. -/
theorem Core.edge_of_root (core : Core adj s (v :: below))
    (seen : ∀ y ∈ adj v, s.Seen (s.low v) y) (root : s.low v = s.rank v) {x y : V}
    (member : x ∈ s.stack) (owned : s.rank v ≤ s.rank x) (edge : y ∈ adj x) :
    s.Done y ∨ y ∈ s.stack ∧ s.rank v ≤ s.rank y := by
  have seenY : s.Seen (s.low v) y := by
    by_cases same : x = v
    · exact seen y (same ▸ edge)
    refine core.explored x member (fun isGray => ?_) v (core.owner_top owned) y edge
    have isBelow := (mem_cons.mp isGray).resolve_left same
    exact absurd ((pairwise_cons.mp core.gray_sorted).1 x isBelow) (not_lt.mpr owned)
  by_cases onStack : y ∈ s.stack
  · exact .inr ⟨onStack, root ▸ seenY.2 onStack⟩
  · exact .inl ⟨seenY.1, onStack⟩

variable [DecidableEq V]

/-- The state after the vertices of a list are popped and numbered, leaving `rest`. -/
def State.popped (s : State V) (popped rest : List V) : State V :=
  { s with
    stack := rest
    onStack := fun x => if x ∈ popped then false else s.onStack x
    sccId := fun x => if x ∈ popped then s.sccCount else s.sccId x }

theorem State.popComponent_eq (v : V) (s : State V) (above rest : List V) (first : v ∉ above) :
    s.popComponent v (above ++ v :: rest) = s.popped (above ++ [v]) rest := by
  induction above generalizing s with
  | nil =>
    rw [nil_append, State.popComponent, if_pos rfl]
    simp only [State.popped, nil_append, mem_singleton, State.mk.injEq, true_and, and_true]
    constructor <;> funext x <;> exact update_apply ..
  | cons w above ih =>
    simp only [mem_cons, not_or] at first
    rw [cons_append, State.popComponent, if_neg (Ne.symm first.1), ih _ first.2]
    simp only [State.popped, mem_append, mem_cons, State.mk.injEq, true_and, and_true]
    constructor <;> funext x <;> rw [update_apply] <;> grind

/-- A gray vertex that has seen all its neighbours and links no lower than itself is the
first vertex of a component, and the component is what lies on the stack from it upwards. -/
theorem Core.close {above : List V} (core : Core adj s (v :: below))
    (seen : ∀ y ∈ adj v, s.Seen (s.low v) y) (root : s.low v = s.rank v)
    (split : s.stack = above ++ v :: rest) :
    Core adj { s.popped (above ++ [v]) rest with sccCount := s.sccCount + 1 } below := by
  obtain ⟨memPopped, memRest⟩ := core.mem_split split
  have topMem : v ∈ s.stack := core.gray_mem v (mem_cons_self ..)
  have lower := (pairwise_cons.mp core.gray_sorted).1
  have restStack : ∀ x ∈ rest, x ∈ s.stack := fun x member => ((memRest x).mp member).1
  have belowRest : ∀ g ∈ below, g ∈ rest := fun g isBelow =>
    (memRest g).mpr ⟨core.gray_mem g (mem_cons_of_mem _ isBelow), lower g isBelow⟩
  -- a vertex is completed now exactly if it was before or is popped
  have doneIff : ∀ x, ({ s.popped (above ++ [v]) rest with sccCount := s.sccCount + 1 } :
      State V).Done x ↔ s.Done x ∨ x ∈ above ++ [v] := by
    intro x
    have disjoint := memPopped x
    have remaining := memRest x
    have discovered := core.discovered x
    simp only [State.Done, State.popped]
    grind
  have notBoth : ∀ x, s.Done x → x ∉ above ++ [v] :=
    fun x done popped => done.2 ((memPopped x).mp popped).1
  constructor
  case rank_lt => exact core.rank_lt
  case rank_inj => exact core.rank_inj
  case onStack_iff =>
    intro x
    have disjoint := memPopped x
    have remaining := memRest x
    have flag := core.onStack_iff x
    simp only [State.popped]
    grind
  case discovered => exact fun x member => core.discovered x (restStack x member)
  case stack_sorted =>
    have sorted := core.stack_sorted
    rw [split, pairwise_append, pairwise_cons] at sorted
    exact sorted.2.1.2
  case gray_mem => exact belowRest
  case gray_sorted => exact (pairwise_cons.mp core.gray_sorted).2
  case connected =>
    exact fun u memU w memW le => core.connected u (restStack u memU) w (restStack w memW) le
  case toGray =>
    intro x member
    obtain ⟨g, isGray, le, path⟩ := core.toGray x (restStack x member)
    rcases mem_cons.mp isGray with rfl | isBelow
    · exact absurd ((memRest x).mp member).2 (not_lt.mpr le)
    · exact ⟨g, isBelow, le, path⟩
  case low_le => exact fun g isGray => core.low_le g (mem_cons_of_mem _ isGray)
  case low_mem =>
    intro g isGray
    obtain ⟨u, member, same, path⟩ := core.low_mem g (mem_cons_of_mem _ isGray)
    have lowLe := core.low_le g (mem_cons_of_mem _ isGray)
    have rankLt := lower g isGray
    exact ⟨u, (memRest u).mpr ⟨member, by omega⟩, same, path⟩
  case explored =>
    intro x member notBelow g owner y edge
    obtain ⟨onStack, under⟩ := (memRest x).mp member
    have other : x ≠ v := fun same => by simp [same] at under
    have seenY := core.explored x onStack (by simp [other, notBelow]) g
      (Core.owner_of_below under owner) y edge
    exact ⟨seenY.1, fun memY => seenY.2 (restStack y memY)⟩
  case done_edge =>
    intro u done w edge
    rw [doneIff] at done ⊢
    rcases done with done | popped
    · have next := core.done_edge u done w edge
      refine ⟨.inl next.1, ?_⟩
      simp only [State.popped, if_neg (notBoth u done), if_neg (notBoth w next.1)]
      exact next.2
    · obtain ⟨memU, owned⟩ := (memPopped u).mp popped
      rcases core.edge_of_root seen root memU owned edge with doneW | ownedW
      · refine ⟨.inl doneW, ?_⟩
        simp only [State.popped, if_pos popped, if_neg (notBoth w doneW)]
        exact (core.done_lt w doneW).le
      · have poppedW := (memPopped w).mpr ownedW
        refine ⟨.inr poppedW, ?_⟩
        simp only [State.popped, if_pos popped, if_pos poppedW, le_refl]
  case done_iff =>
    have separate : ∀ a b, s.Done a → b ∈ above ++ [v] → ¬ Reaches adj a b :=
      fun a b done popped path => notBoth b (core.done_of_reaches done path) popped
    have together : ∀ a b, a ∈ above ++ [v] → b ∈ above ++ [v] → Reaches adj a b := by
      intro a b popA popB
      obtain ⟨memA, _⟩ := (memPopped a).mp popA
      obtain ⟨memB, ownedB⟩ := (memPopped b).mp popB
      exact (core.reaches_top memA).trans (core.connected v topMem b memB ownedB)
    intro u w doneU doneW
    rw [doneIff] at doneU doneW
    rcases doneU with doneU | popU <;> rcases doneW with doneW | popW
    · simp only [State.popped, if_neg (notBoth u doneU), if_neg (notBoth w doneW)]
      exact core.done_iff u w doneU doneW
    · simp only [State.popped, if_neg (notBoth u doneU), if_pos popW]
      exact iff_of_false (core.done_lt u doneU).ne fun both => separate u w doneU popW both.1
    · simp only [State.popped, if_pos popU, if_neg (notBoth w doneW)]
      exact iff_of_false (core.done_lt w doneW).ne' fun both => separate w u doneW popU both.2
    · simp only [State.popped, if_pos popU, if_pos popW]
      exact iff_of_true trivial ⟨together u w popU popW, together w u popW popU⟩
  case done_lt =>
    intro u done
    rw [doneIff] at done
    rcases done with done | popped
    · simp only [State.popped, if_neg (notBoth u done)]
      exact Nat.lt_succ_of_lt (core.done_lt u done)
    · simp only [State.popped, if_pos popped]
      exact Nat.lt_succ_self _

end Close

/-! ## One round -/

section Round

variable {adj : V → List V} {s : State V}

theorem Processed.lower {frame : V × List V} (processed : Processed adj s frame) {low : V → Nat}
    {frames : List (V × List V)} (le : low frame.1 ≤ s.low frame.1) :
    Processed adj { s with low := low, frames := frames } frame := by
  obtain ⟨looked, split, seen⟩ := processed
  exact ⟨looked, split, fun y member => State.Seen.mono le (seen y member)⟩

/-- A frame moves on to its next neighbour once the one it looked at is seen. -/
theorem Processed.advance {w : V} (processed : Processed adj s (v, w :: rest))
    (seen : s.Seen (s.low v) w) : Processed adj s (v, rest) := by
  obtain ⟨looked, split, before⟩ := processed
  refine ⟨looked ++ [w], by simpa using split, fun y member => ?_⟩
  rcases mem_append.mp member with old | new
  · exact before y old
  · exact mem_singleton.mp new ▸ seen

/-- A frame with nothing left to look at has seen all its neighbours. -/
theorem Processed.all_seen (processed : Processed adj s (v, [])) :
    ∀ y ∈ adj v, s.Seen (s.low v) y := by
  obtain ⟨looked, split, seen⟩ := processed
  rw [append_nil] at split
  exact split ▸ seen

theorem Invariant.core_open {below : List (V × List V)} (inv : Invariant adj s)
    (open_ : s.frames = (v, rest) :: below) : Core adj s (v :: below.map Prod.fst) := by
  simpa [open_] using inv.core

theorem Invariant.edge {w : V} {below : List (V × List V)} (inv : Invariant adj s)
    (open_ : s.frames = (v, w :: rest) :: below) : w ∈ adj v := by
  obtain ⟨looked, split, _⟩ := inv.processed (v, w :: rest) (by simp [open_])
  exact split ▸ (by simp)

/-- A round that looks at a discovered neighbour. -/
theorem Invariant.look_next {w : V} {below : List (V × List V)}
    (inv : Invariant adj s) (open_ : s.frames = (v, w :: rest) :: below) {low : V → Nat}
    (discovered : s.disc w ≠ none) (le : ∀ g, low g ≤ s.low g)
    (seen : w ∈ s.stack → low v ≤ s.rank w)
    (value : ∀ g, low g = s.low g ∨ g = v ∧ w ∈ s.stack ∧ low v = s.rank w) :
    Invariant adj { s with low := low, frames := (v, rest) :: below } := by
  have core := inv.core_open open_
  have frameTop := inv.processed (v, w :: rest) (by simp [open_])
  refine ⟨core.lower low _ (fun g _ => le g) fun g isGray => ?_, fun frame member => ?_⟩
  · rcases value g with same | ⟨rfl, onStack, same⟩
    · rw [same]
      exact core.low_mem g isGray
    · exact ⟨w, onStack, same.symm, ReflTransGen.single (inv.edge open_)⟩
  · rcases mem_cons.mp member with rfl | deeper
    · exact (frameTop.lower (le v)).advance ⟨discovered, seen⟩
    · exact (inv.processed frame (by simp [open_, deeper])).lower (le _)

variable [DecidableEq V]

theorem Processed.discover {frame : V × List V} {w : V} (processed : Processed adj s frame)
    (fresh : s.disc w = none) (other : frame.1 ≠ w) :
    Processed adj (s.discover adj w) frame := by
  obtain ⟨looked, split, seen⟩ := processed
  refine ⟨looked, split, fun y member => ?_⟩
  rw [State.low_discover_of_ne other]
  exact (seen y member).discover fresh

section

variable (inv : Invariant adj s)

include inv

/-- Starting a search from an undiscovered vertex when no frame is open. -/
theorem Invariant.start (idle : s.frames = []) (fresh : s.disc v = none) :
    Invariant adj (s.discover adj v) := by
  have core : Core adj s [] := by simpa [idle] using inv.core
  refine ⟨?_, ?_⟩
  · have empty : ∀ u, u ∉ s.stack := fun u member => by simpa using core.toGray u member
    simpa [State.discover, idle] using core.discover fresh fun u member => absurd member (empty u)
  · intro frame member
    have same : frame = (v, adj v) := by simpa [State.discover, idle] using member
    exact same ▸ ⟨[], rfl, by simp⟩

/-- A round that discovers the next neighbour. -/
theorem Invariant.discover_next {w : V} {below : List (V × List V)}
    (open_ : s.frames = (v, w :: rest) :: below) (fresh : s.disc w = none) :
    Invariant adj (({ s with frames := (v, rest) :: below } : State V).discover adj w) := by
  have core := inv.core_open open_
  have otherThan : ∀ g ∈ v :: below.map Prod.fst, g ≠ w :=
    fun g isGray same => core.discovered g (core.gray_mem g isGray) (same ▸ fresh)
  have moved := core.withFrames ((v, rest) :: below)
  refine ⟨moved.discover fresh fun u member => (core.reaches_top member).tail (inv.edge open_), ?_⟩
  intro frame member
  rcases mem_cons.mp member with rfl | member
  · exact ⟨[], rfl, by simp⟩
  rcases mem_cons.mp member with rfl | deeper
  · have other := otherThan v (mem_cons_self ..)
    obtain ⟨looked, split, seen⟩ := inv.processed (v, w :: rest) (by simp [open_])
    have old : Processed adj { s with frames := (v, rest) :: below } (v, w :: rest) :=
      ⟨looked, split, seen⟩
    refine (old.discover fresh other).advance ⟨by simp [State.disc_discover], fun _ => ?_⟩
    rw [State.low_discover_of_ne other, State.rank_discover, if_pos rfl]
    have inStack := core.gray_mem v (mem_cons_self ..)
    have lt := core.rank_lt v (core.discovered v inStack)
    exact ((core.low_le v (mem_cons_self ..)).trans_lt lt).le
  · have old : Processed adj { s with frames := (v, rest) :: below } frame :=
      (inv.processed frame (by simp [open_, deeper])).lower le_rfl
    exact old.discover fresh (otherThan _ (mem_cons_of_mem _ (mem_map_of_mem deeper)))

/-- A round that leaves a frame whose vertex is not the first of its component. -/
theorem Invariant.leave_inner {below : List (V × List V)} (open_ : s.frames = (v, []) :: below)
    (notRoot : s.low v < s.rank v) : Invariant adj (s.leave v below) := by
  have core := inv.core_open open_
  have seen := (inv.processed (v, []) (by simp [open_])).all_seen
  cases below with
  | nil =>
    refine ⟨(core.withFrames []).retire seen notRoot (by simp), by simp [State.leave]⟩
  | cons parent below =>
    obtain ⟨p, rest⟩ := parent
    have under := (pairwise_cons.mp core.gray_sorted).1 p (by simp)
    have other : v ≠ p := fun same => by simp [same] at under
    simp only [State.leave]
    split
    · rename_i lower
      have le : ∀ g, update s.low p (s.low v) g ≤ s.low g := by
        intro g
        rw [update_apply]
        split
        · rename_i same
          exact same ▸ lower.le
        · exact le_rfl
      obtain ⟨u, onStack, rankU, path⟩ := core.low_mem v (mem_cons_self ..)
      have reach : Reaches adj p v := core.connected p (core.gray_mem p (by simp)) v
        (core.gray_mem v (by simp)) under.le
      have lowered := core.lower (update s.low p (s.low v)) ((p, rest) :: below)
        (fun g _ => le g) fun g isGray => by
          by_cases same : g = p
          · subst same
            exact ⟨u, onStack, by simp [rankU], reach.trans path⟩
          · simpa [update_apply, same] using core.low_mem g isGray
      have keep : update s.low p (s.low v) v = s.low v :=
        update_of_ne other ..
      refine ⟨lowered.retire ?_ ?_ ?_, fun frame member => ?_⟩
      · change ∀ y ∈ adj v, s.Seen (update s.low p (s.low v) v) y
        rwa [keep]
      · change update s.low p (s.low v) v < s.rank v
        rwa [keep]
      · simp [keep]
      · exact (inv.processed frame (by simp [open_, mem_cons.mp member])).lower (le _)
    · rename_i notLower
      refine ⟨(core.withFrames _).retire seen notRoot (by simpa using notLower), ?_⟩
      exact fun frame member =>
        (inv.processed frame (by simp [open_, mem_cons.mp member])).lower le_rfl

/-- A round that leaves the frame of the first vertex of a component. -/
theorem Invariant.leave_root {below : List (V × List V)} (open_ : s.frames = (v, []) :: below)
    (root : s.low v = s.rank v) : Invariant adj ((s.closeComponent v).leave v below) := by
  have core := inv.core_open open_
  have seen := (inv.processed (v, []) (by simp [open_])).all_seen
  have topMem : v ∈ s.stack := core.gray_mem v (mem_cons_self ..)
  obtain ⟨above, rest, split, first⟩ := eq_append_cons_of_mem topMem
  have isRoot : s.disc v = some (s.low v) :=
    root ▸ State.disc_eq_rank (core.discovered v topMem)
  have closed := core.close seen root split
  have popped : s.closeComponent v =
      { s.popped (above ++ [v]) rest with sccCount := s.sccCount + 1 } := by
    rw [State.closeComponent, if_pos isRoot, split, State.popComponent_eq v s above rest first]
    rfl
  -- the parent has a lower link than a root, so that nothing is handed to it
  have kept : (s.closeComponent v).leave v below =
      { s.popped (above ++ [v]) rest with sccCount := s.sccCount + 1, frames := below } := by
    cases below with
    | nil => rw [popped]; rfl
    | cons parent below =>
      have under := (pairwise_cons.mp core.gray_sorted).1 parent.1 (by simp)
      have lowLe := core.low_le parent.1 (by simp)
      have notLower : ¬ s.low v < s.low parent.1 := by omega
      rw [popped, State.leave]
      exact if_neg notLower
  rw [kept]
  refine ⟨closed.withFrames below, fun frame member => ?_⟩
  obtain ⟨looked, splitAdj, before⟩ := inv.processed frame (by simp [open_, member])
  refine ⟨looked, splitAdj, fun y isLooked => ⟨(before y isLooked).1, fun onStack => ?_⟩⟩
  exact (before y isLooked).2 (by simp [split, show y ∈ rest from onStack])

/-- **Every round keeps the invariant.** -/
theorem Invariant.step : Invariant adj (s.step adj) := by
  unfold State.step
  split
  · exact inv
  · rename_i v w rest below open_
    dsimp only
    cases found : s.disc w with
    | none => exact inv.discover_next open_ found
    | some d =>
      have discovered : s.disc w ≠ none := by simp [found]
      have rankW : s.rank w = d := by simp [State.rank, found]
      have flag := inv.core.onStack_iff w
      dsimp only
      split
      · rename_i lower
        refine inv.look_next open_ discovered (fun g => ?_) (fun _ => by simp [rankW]) fun g => ?_
        · rw [update_apply]
          split
          · rename_i same
            exact same ▸ lower.2.le
          · exact le_rfl
        · rcases eq_or_ne g v with same | other
          · exact .inr ⟨same, flag.mp lower.1, by simp [rankW]⟩
          · exact .inl (update_of_ne other ..)
      · rename_i notLower
        refine inv.look_next open_ discovered (fun _ => le_rfl) (fun onStack => ?_)
          fun _ => .inl rfl
        have atLeast : ¬ d < s.low v := fun lt => notLower ⟨flag.mpr onStack, lt⟩
        exact rankW ▸ not_lt.mp atLeast
  · rename_i v below open_
    have core := inv.core_open open_
    have discV := State.disc_eq_rank (core.discovered v (core.gray_mem v (by simp)))
    rcases (core.low_le v (by simp)).eq_or_lt with root | inner
    · exact inv.leave_root open_ root
    have notRoot : s.disc v ≠ some (s.low v) := by simp [discV, inner.ne']
    rw [State.closeComponent, if_neg notRoot]
    exact inv.leave_inner open_ inner

end

end Round

/-! ## The whole search -/

section Search

variable [DecidableEq V] {adj : V → List V} {vertices : List V} {s : State V}

/-- How many rounds may still follow: a vertex costs one round and one for each edge. -/
def State.remaining (adj : V → List V) (vertices : List V) (s : State V) : Nat :=
  ((vertices.filter fun v => s.disc v = none).map fun v => (adj v).length + 1).sum +
    (s.frames.map fun frame => frame.2.length + 1).sum

/-- Discovering a vertex takes its cost from the undiscovered ones. -/
theorem undiscovered_discover (adj : V → List V) {w : V} (fresh : s.disc w = none)
    (member : w ∈ vertices) :
    ((vertices.filter fun v => (s.discover adj w).disc v = none).map
        fun v => (adj v).length + 1).sum + ((adj w).length + 1) ≤
      ((vertices.filter fun v => s.disc v = none).map fun v => (adj v).length + 1).sum := by
  have fewer : ∀ l : List V,
      ((l.filter fun v => (s.discover adj w).disc v = none).map fun v => (adj v).length + 1).sum ≤
      ((l.filter fun v => s.disc v = none).map fun v => (adj v).length + 1).sum := by
    intro l
    refine List.Sublist.sum_le_sum (List.Sublist.map _ (monotone_filter_right l ?_)) ?_
    · intro v still
      simp only [State.disc_discover, decide_eq_true_eq] at still ⊢
      split at still
      · cases still
      · exact still
    · simp
  induction vertices with
  | nil => cases member
  | cons v rest ih =>
    rcases eq_or_ne v w with rfl | other
    · have tail := fewer rest
      simp only [filter_cons, State.disc_discover, if_true, fresh, decide_true,
        map_cons, sum_cons] at tail ⊢
      simp only [reduceCtorEq, decide_false, Bool.false_eq_true, if_false]
      omega
    · have later := ih ((mem_cons.mp member).resolve_left other.symm)
      have same : (s.discover adj w).disc v = s.disc v := by
        rw [State.disc_discover, if_neg other]
      simp only [filter_cons, same]
      split
      · simp only [map_cons, sum_cons]
        omega
      · exact later

theorem State.disc_popComponent (v : V) (s : State V) (stack : List V) :
    (s.popComponent v stack).disc = s.disc := by
  induction stack generalizing s with
  | nil => rfl
  | cons w rest ih =>
    rw [State.popComponent]
    split
    · rfl
    · exact ih _

theorem State.disc_closeComponent (s : State V) (v : V) : (s.closeComponent v).disc = s.disc := by
  rw [State.closeComponent]
  split
  · exact State.disc_popComponent v s s.stack
  · rfl

theorem State.leave_eq (s : State V) (v : V) (below : List (V × List V)) :
    ∃ low, s.leave v below = { s with frames := below, low := low } := by
  unfold State.leave
  split
  · exact ⟨_, rfl⟩
  · split <;> exact ⟨_, rfl⟩

theorem State.remaining_discover (adj : V → List V) (fresh : s.disc v = none)
    (member : v ∈ vertices) :
    (s.discover adj v).remaining adj vertices ≤ s.remaining adj vertices := by
  have paid := undiscovered_discover adj fresh member
  simp only [State.remaining, State.discover, map_cons, sum_cons] at paid ⊢
  omega

/-- A round brings the end of the search nearer. -/
theorem State.remaining_step (inv : Invariant adj s) (closed : ∀ v, ∀ w ∈ adj v, w ∈ vertices)
    (busy : s.frames ≠ []) :
    (s.step adj).remaining adj vertices + 1 ≤ s.remaining adj vertices := by
  unfold State.step
  split
  · rename_i idle
    exact absurd idle busy
  · rename_i v w rest below open_
    dsimp only
    cases found : s.disc w with
    | none =>
      let moved : State V := { s with frames := (v, rest) :: below }
      have advanced : moved.remaining adj vertices + 1 = s.remaining adj vertices := by
        simp only [moved, State.remaining, open_, map_cons, sum_cons, length_cons]
        omega
      have paid := State.remaining_discover (s := moved) adj found (closed v w (inv.edge open_))
      exact (Nat.succ_le_succ paid).trans advanced.le
    | some d =>
      dsimp only
      split <;>
        · simp only [State.remaining, open_, map_cons, sum_cons, length_cons]
          omega
  · rename_i v below open_
    obtain ⟨low, left⟩ := (s.closeComponent v).leave_eq v below
    simp only [left, State.remaining, State.disc_closeComponent, open_, map_cons, sum_cons,
      length_nil]
    omega

theorem State.discovered_step (discovered : s.disc v ≠ none) :
    (s.step adj).disc v ≠ none := by
  unfold State.step
  split
  · exact discovered
  · dsimp only
    split
    · rw [State.disc_discover]
      split
      · simp
      · exact discovered
    · split <;> exact discovered
  · rename_i v below _
    obtain ⟨low, left⟩ := (s.closeComponent v).leave_eq v below
    rw [left, State.disc_closeComponent]
    exact discovered

section

variable (closed : ∀ v, ∀ w ∈ adj v, w ∈ vertices)

include closed

/-- **A search with enough rounds closes all its frames**, keeps the invariant and forgets
no discovered vertex. -/
theorem State.search_spec (rounds : Nat) (inv : Invariant adj s)
    (enough : s.remaining adj vertices ≤ rounds) :
    Invariant adj (s.search adj rounds) ∧ (s.search adj rounds).frames = [] ∧
      (s.search adj rounds).remaining adj vertices ≤ s.remaining adj vertices ∧
      ∀ v, s.disc v ≠ none → (s.search adj rounds).disc v ≠ none := by
  induction rounds generalizing s with
  | zero =>
    refine ⟨inv, ?_, le_rfl, fun _ => id⟩
    cases frames : s.frames with
    | nil => exact frames
    | cons frame below =>
      simp only [State.remaining, frames, map_cons, sum_cons] at enough
      omega
  | succ rounds ih =>
    rw [State.search]
    split
    · rename_i idle
      exact ⟨inv, isEmpty_iff.mp idle, le_rfl, fun _ => id⟩
    rename_i busy
    have shorter := State.remaining_step inv closed fun idle => busy (by simp [idle])
    obtain ⟨invariant, idle, less, keeps⟩ := ih inv.step (by omega)
    exact ⟨invariant, idle, by omega, fun v old => keeps v (State.discovered_step old)⟩

theorem State.searchFrom_spec (rounds : Nat) (starts : List V)
    (among : ∀ v ∈ starts, v ∈ vertices) (inv : Invariant adj s) (idle : s.frames = [])
    (enough : s.remaining adj vertices ≤ rounds) :
    Invariant adj (s.searchFrom adj rounds starts) ∧
      (s.searchFrom adj rounds starts).frames = [] ∧
      (∀ v, s.disc v ≠ none → (s.searchFrom adj rounds starts).disc v ≠ none) ∧
      ∀ v ∈ starts, (s.searchFrom adj rounds starts).disc v ≠ none := by
  induction starts generalizing s with
  | nil => exact ⟨inv, idle, fun _ => id, by simp⟩
  | cons v rest ih =>
    have amongRest : ∀ w ∈ rest, w ∈ vertices := fun w h => among w (mem_cons_of_mem _ h)
    rw [State.searchFrom]
    by_cases fresh : s.disc v = none
    · rw [if_pos fresh]
      have less := State.remaining_discover adj fresh (among v (mem_cons_self ..))
      obtain ⟨invariant, stopped, fewer, keeps⟩ :=
        State.search_spec closed rounds (inv.start idle fresh) (less.trans enough)
      obtain ⟨final, done, later, found⟩ :=
        ih amongRest invariant stopped ((fewer.trans less).trans enough)
      have self : (s.discover adj v).disc v ≠ none := by simp [State.disc_discover]
      refine ⟨final, done, fun w old => later w (keeps w ?_), fun w member => ?_⟩
      · rw [State.disc_discover]
        split
        · simp
        · exact old
      · rcases mem_cons.mp member with rfl | inRest
        · exact later w (keeps w self)
        · exact found w inRest
    · rw [if_neg fresh]
      obtain ⟨final, done, later, found⟩ := ih amongRest inv idle enough
      refine ⟨final, done, later, fun w member => ?_⟩
      rcases mem_cons.mp member with rfl | inRest
      · exact later w fresh
      · exact found w inRest

/-- The finished search: the invariant holds, no frame is open, everything is discovered. -/
theorem components_spec :
    Core adj (components adj vertices) [] ∧ ∀ v ∈ vertices, (components adj vertices).Done v := by
  have start : Invariant adj (State.initial : State V) :=
    ⟨core_initial adj, by simp [State.initial]⟩
  have enough : (State.initial : State V).remaining adj vertices ≤ roundBound adj vertices := by
    simp [State.remaining, State.initial, roundBound]
  obtain ⟨final, done, _, found⟩ :=
    State.searchFrom_spec closed _ vertices (fun _ => id) start rfl enough
  have core : Core adj (components adj vertices) [] := by
    have := final.core
    rw [done] at this
    exact this
  refine ⟨core, fun v member => ⟨found v member, fun onStack => ?_⟩⟩
  obtain ⟨g, isGray, _⟩ := core.toGray v onStack
  cases isGray

end

/-- **Two vertices get one number exactly when each reaches the other.** -/
theorem number_eq_iff (closed : ∀ v, ∀ w ∈ adj v, w ∈ vertices) {w : V}
    (memU : u ∈ vertices) (memW : w ∈ vertices) :
    (components adj vertices).sccId u = (components adj vertices).sccId w ↔
      Reaches adj u w ∧ Reaches adj w u :=
  have spec := components_spec closed
  spec.1.done_iff u w (spec.2 u memU) (spec.2 w memW)

/-- **An edge never leads to a component with a higher number.** -/
theorem number_le_of_edge (closed : ∀ v, ∀ w ∈ adj v, w ∈ vertices) {w : V}
    (memU : u ∈ vertices) (edge : w ∈ adj u) :
    (components adj vertices).sccId w ≤ (components adj vertices).sccId u :=
  have spec := components_spec closed
  (spec.1.done_edge u (spec.2 u memU) w edge).2

theorem number_lt_count (closed : ∀ v, ∀ w ∈ adj v, w ∈ vertices) (memU : u ∈ vertices) :
    (components adj vertices).sccId u < (components adj vertices).sccCount :=
  have spec := components_spec closed
  spec.1.done_lt u (spec.2 u memU)

end Search

end Wirelog.Foundations.Tarjan

import Wirelog.Columnar.NameTable

/-!
# Looking relations up by name

As long as the chains lead to slots that hold registered relations or nothing (`Good`), looking
a name up ends, reads no destroyed relation, and returns the relation that is registered under
this name (`Good.findRel_spec`): what a chain leads to is compared by name, and where the chains
know nothing the array is searched. Building the chains makes them hold all relations, and
where there is no memory for this they are left as they were, or empty (`relBuildHash_spec`).
-/

set_option autoImplicit false

namespace Wirelog.Columnar.NameTable

open Wirelog.Foundations List

/-! ## The invariant -/

/-- A relation is in one of the slots in use. -/
def Registered (s : Registry) (r : Rel) : Prop := ∃ i < s.nrels, s.rels i = some r

/-- The slots in use hold live relations with different names and identities. -/
structure Slots (s : Registry) : Prop where
  inside : s.nrels ≤ s.relCap
  alive : ∀ r, Registered s r → r.id ∉ s.destroyed
  distinct : ∀ i < s.nrels, ∀ j < s.nrels, ∀ r r', s.rels i = some r → s.rels j = some r' →
    r.name = r'.name ∨ r.id = r'.id → i = j

/-- The chains end, and what they lead to is registered. -/
def Chains (s : Registry) : Prop :=
  ∀ b < s.nbuckets, ∃ indices, IsChain s.next (s.head b) indices ∧
    ∀ i ∈ indices, i < s.relCap ∧ i < s.chainCap ∧ ∀ r, s.rels i = some r → Registered s r

/-- What lookups rely on. -/
structure Good (s : Registry) : Prop where
  slots : Slots s
  chains : Chains s

/-- All indices in the chains are below the number of relations. -/
def Current (s : Registry) : Prop := ∀ i, Linked s.nbuckets s.head s.next i → i < s.nrels

section Lookup

variable {s : Registry} {name : Name}

theorem Good.create : Good .create where
  slots :=
    { inside := Nat.zero_le _
      alive := fun _ _ => not_mem_nil
      distinct := fun i inside => absurd inside (Nat.not_lt_zero i) }
  chains b inside := absurd inside (Nat.not_lt_zero b)

/-- Whether a slot holds a relation of a name. -/
def holds (s : Registry) (name : Name) (i : Nat) : Bool := (s.rels i).any fun r => r.name = name

section

variable (slots : Slots s)

include slots

/-- A relation is registered under a name at most once. -/
theorem Slots.unique {r r' : Rel} (first : Registered s r) (second : Registered s r')
    (same : r.name = r'.name) : r = r' := by
  obtain ⟨i, inside, found⟩ := first
  obtain ⟨j, inside', found'⟩ := second
  obtain rfl := slots.distinct i inside j inside' r r' found found' (.inl same)
  exact Option.some.inj (found.symm.trans found')

/-! ## Linear search -/

theorem Slots.readRel_eq {i : Nat} (inside : i < s.relCap)
    (registered : ∀ r, s.rels i = some r → Registered s r) : readRel s i = .ok (s.rels i) := by
  rw [readRel, if_neg (Nat.not_le_of_lt inside)]
  cases found : s.rels i with
  | none => rfl
  | some r => exact if_neg (slots.alive r (registered r found))

theorem Slots.readRel_slot {i : Nat} (inside : i < s.nrels) : readRel s i = .ok (s.rels i) :=
  slots.readRel_eq (Nat.lt_of_lt_of_le inside slots.inside) fun _ found => ⟨i, inside, found⟩

omit slots in
theorem holds_iff {i : Nat} :
    holds s name i = true ↔ ∃ r, s.rels i = some r ∧ r.name = name := by
  simp [holds, Option.any_eq_true]

/-- A linear search finds the first slot that holds the name. -/
theorem Slots.scanSlots_eq (name : Name) {indices : List Nat}
    (inside : ∀ i ∈ indices, i < s.nrels) :
    scanSlots s name indices = .ok (indices.find? (holds s name)) := by
  induction indices with
  | nil => rfl
  | cons i rest ih =>
    obtain ⟨here, later⟩ := forall_mem_cons.mp inside
    rw [scanSlots, slots.readRel_slot here, find?_cons, holds]
    cases s.rels i with
    | none => exact ih later
    | some r =>
      by_cases named : r.name = name
      · simp [named]
      · simpa [named] using ih later

theorem Slots.scan_spec (name : Name) :
    (∃ i < s.nrels, ∃ r, scan s name = .ok (some i) ∧ s.rels i = some r ∧ r.name = name) ∨
    scan s name = .ok none ∧ ∀ r, Registered s r → r.name ≠ name := by
  rw [scan, slots.scanSlots_eq name fun i => mem_range.mp]
  cases search : (List.range s.nrels).find? (holds s name) with
  | some i =>
    obtain ⟨r, found, named⟩ := holds_iff.mp (find?_some search)
    exact .inl ⟨i, mem_range.mp (mem_of_find?_eq_some search), r, rfl, found, named⟩
  | none =>
    refine .inr ⟨rfl, ?_⟩
    rintro r ⟨i, inside, found⟩ named
    exact find?_eq_none.mp search i (mem_range.mpr inside) (holds_iff.mpr ⟨r, found, named⟩)

/-- An answer is right: it is the relation that is registered under the name. -/
def Answers (s : Registry) (name : Name) (answer : Option Rel) : Prop :=
  ∀ r, answer = some r ↔ Registered s r ∧ r.name = name

theorem Slots.answers_some {r : Rel} (registered : Registered s r) (named : r.name = name) :
    Answers s name (some r) := by
  intro other
  rw [Option.some.injEq]
  constructor
  · rintro rfl
    exact ⟨registered, named⟩
  · rintro ⟨registered', named'⟩
    exact slots.unique registered registered' (named.trans named'.symm)

end

theorem answers_none (absent : ∀ r, Registered s r → r.name ≠ name) : Answers s name none := by
  intro r
  constructor
  · nofun
  · rintro ⟨registered, named⟩
    exact absurd named (absent r registered)

theorem Slots.linearSearch_spec (slots : Slots s) (name : Name) :
    ∃ answer, linearSearch s name = .ok answer ∧ Answers s name answer := by
  rcases slots.scan_spec name with ⟨i, inside, r, hit, found, named⟩ | ⟨none, absent⟩
  · refine ⟨some r, ?_, slots.answers_some ⟨i, inside, found⟩ named⟩
    simp [linearSearch, hit, found]
  · exact ⟨.none, by rw [linearSearch, none], answers_none absent⟩

/-! ## Walking a chain -/

/-- A walk along a chain ends. It finds the relation in the first slot that holds the name. -/
theorem Slots.walk_eq (slots : Slots s) (name : Name) {start : Option Nat} {indices : List Nat}
    (chain : IsChain s.next start indices)
    (leads : ∀ i ∈ indices, i < s.relCap ∧ i < s.chainCap ∧
      ∀ r, s.rels i = some r → Registered s r) :
    walk s name indices.length start = some (.ok ((indices.find? (holds s name)).bind s.rels)) := by
  induction indices generalizing start with
  | nil =>
    cases start with
    | none => rfl
    | some i => exact chain.elim
  | cons i rest ih =>
    cases start with
    | none => exact chain.elim
    | some start =>
      obtain ⟨rfl, successor, link, tail⟩ := chain
      obtain ⟨⟨inside, written, registered⟩, later⟩ := forall_mem_cons.mp leads
      rw [length_cons, walk, slots.readRel_eq inside registered, find?_cons, holds,
        if_neg (Nat.not_le_of_lt written), link]
      cases found : s.rels start with
      | none => exact ih tail later
      | some r =>
        by_cases named : r.name = name
        · simp [named, found]
        · simpa [named] using ih tail later

/-- A walk finds a registered relation of the name, or no slot on the chain holds one. -/
theorem Slots.walk_spec (slots : Slots s) (name : Name) {start : Option Nat} {indices : List Nat}
    (chain : IsChain s.next start indices)
    (leads : ∀ i ∈ indices, i < s.relCap ∧ i < s.chainCap ∧
      ∀ r, s.rels i = some r → Registered s r) :
    (∃ r, walk s name indices.length start = some (.ok (some r)) ∧ Registered s r ∧ r.name = name) ∨
    walk s name indices.length start = some (.ok none) ∧
      ∀ i ∈ indices, ∀ r, s.rels i = some r → r.name ≠ name := by
  rw [slots.walk_eq name chain leads]
  cases search : indices.find? (holds s name) with
  | some i =>
    obtain ⟨r, found, named⟩ := holds_iff.mp (find?_some search)
    have registered := (leads i (mem_of_find?_eq_some search)).2.2 r found
    exact .inl ⟨r, by rw [Option.bind_some, found], registered, named⟩
  | none =>
    exact .inr ⟨rfl, fun i member r found named =>
      find?_eq_none.mp search i member (holds_iff.mpr ⟨r, found, named⟩)⟩

theorem relHashString_lt {nbuckets : Nat} (positive : 0 < nbuckets) (name : Name) :
    relHashString name nbuckets < nbuckets := by
  have bound : relHashString name nbuckets ≤ nbuckets - 1 := Nat.and_le_right
  omega

/-! ## Building the chains -/

/-- The relation array and the destroyed objects are the same. -/
structure SameSlots (s s' : Registry) : Prop where
  rels : s'.rels = s.rels
  nrels : s'.nrels = s.nrels
  relCap : s'.relCap = s.relCap
  destroyed : s'.destroyed = s.destroyed

theorem SameSlots.registered {s' : Registry} (same : SameSlots s s') (r : Rel) :
    Registered s' r ↔ Registered s r := by
  rw [Registered, Registered, same.rels, same.nrels]

theorem SameSlots.answers {s' : Registry} (same : SameSlots s s') {answer : Option Rel}
    (answers : Answers s' name answer) : Answers s name answer := by
  intro r
  rw [answers r, same.registered]

theorem SameSlots.slots {s' : Registry} (same : SameSlots s s') (slots : Slots s) : Slots s' where
  inside := by
    rw [same.nrels, same.relCap]
    exact slots.inside
  alive r registered := by
    rw [same.destroyed]
    exact slots.alive r ((same.registered r).mp registered)
  distinct := by
    rw [same.rels, same.nrels]
    exact slots.distinct

/-- The chains hold the relations in the first slots, each in the bucket of its name. -/
def Indexed (s : Registry) (m : Nat) : Prop :=
  ∀ b < s.nbuckets, ∃ indices, IsChain s.next (s.head b) indices ∧ (∀ i ∈ indices, i < m) ∧
    ∀ i < m, ∀ r, s.rels i = some r → relHashString r.name s.nbuckets = b → i ∈ indices

theorem Indexed.link {m : Nat} (indexed : Indexed s m) {r : Rel} (found : s.rels m = some r) :
    Indexed (link s r.name m) (m + 1) := by
  intro b inside
  obtain ⟨indices, chain, below, complete⟩ := indexed b inside
  have fresh : m ∉ indices := fun member => Nat.lt_irrefl m (below m member)
  by_cases here : relHashString r.name s.nbuckets = b
  · refine ⟨m :: indices, ?_, ?_, ?_⟩
    · simp only [NameTable.link, here, Function.update_self]
      exact chain.link fresh
    · exact forall_mem_cons.mpr ⟨Nat.lt_succ_self m, fun i member =>
        Nat.lt_succ_of_lt (below i member)⟩
    · intro i upTo other present bucket
      rcases Nat.lt_succ_iff_lt_or_eq.mp upTo with before | rfl
      · exact mem_cons_of_mem _ (complete i before other present bucket)
      · exact mem_cons_self ..
  · refine ⟨indices, ?_, fun i member => Nat.lt_succ_of_lt (below i member), ?_⟩
    · simp only [NameTable.link, Function.update_of_ne (Ne.symm here)]
      exact chain.update fresh _
    · intro i upTo other present bucket
      rcases Nat.lt_succ_iff_lt_or_eq.mp upTo with before | rfl
      · exact complete i before other present bucket
      obtain rfl := Option.some.inj (present.symm.trans found)
      exact absurd bucket here

theorem Indexed.skip {m : Nat} (indexed : Indexed s m) (free : s.rels m = none) :
    Indexed s (m + 1) := by
  intro b inside
  obtain ⟨indices, chain, below, complete⟩ := indexed b inside
  refine ⟨indices, chain, fun i member => Nat.lt_succ_of_lt (below i member), ?_⟩
  intro i upTo r present bucket
  rcases Nat.lt_succ_iff_lt_or_eq.mp upTo with before | rfl
  · exact complete i before r present bucket
  rw [free] at present
  nomatch present

/-- The loop of the build indexes one slot after another. -/
theorem foldl_indexRel (s : Registry) (empty : ∀ b < s.nbuckets, s.head b = none) (m : Nat) :
    SameSlots s ((List.range m).foldl indexRel s) ∧
      ((List.range m).foldl indexRel s).nbuckets = s.nbuckets ∧
      ((List.range m).foldl indexRel s).chainCap = s.chainCap ∧
      Indexed ((List.range m).foldl indexRel s) m := by
  induction m with
  | zero =>
    refine ⟨⟨rfl, rfl, rfl, rfl⟩, rfl, rfl, fun b inside => ⟨[], ?_, ?_, ?_⟩⟩
    · have none : s.head b = .none := empty b inside
      rw [show ((List.range 0).foldl indexRel s).head b = .none from none]
      trivial
    · exact fun i member => absurd member not_mem_nil
    · exact fun i upTo => absurd upTo (Nat.not_lt_zero i)
  | succ m ih =>
    obtain ⟨same, nbuckets, chainCap, indexed⟩ := ih
    rw [range_succ, foldl_append, foldl_cons, foldl_nil]
    generalize (List.range m).foldl indexRel s = before at *
    cases found : before.rels m with
    | none =>
      have unchanged : indexRel before m = before := by rw [indexRel, found]
      rw [unchanged]
      exact ⟨same, nbuckets, chainCap, indexed.skip found⟩
    | some r =>
      have linked : indexRel before m = link before r.name m := by rw [indexRel, found]
      rw [linked]
      exact ⟨⟨same.rels, same.nrels, same.relCap, same.destroyed⟩, nbuckets, chainCap,
        indexed.link found⟩

/-- Slots in use hold registered relations. -/
theorem Slots.leads (slots : Slots s) (links : s.nrels ≤ s.chainCap) {i : Nat}
    (below : i < s.nrels) :
    i < s.relCap ∧ i < s.chainCap ∧ ∀ r, s.rels i = some r → Registered s r :=
  ⟨Nat.lt_of_lt_of_le below slots.inside, Nat.lt_of_lt_of_le below links,
    fun _ found => ⟨i, below, found⟩⟩

theorem Indexed.chains (indexed : Indexed s s.nrels) (slots : Slots s)
    (links : s.nrels ≤ s.chainCap) : Chains s := by
  intro b inside
  obtain ⟨indices, chain, below, _⟩ := indexed b inside
  exact ⟨indices, chain, fun i member => slots.leads links (below i member)⟩

/-- The chains hold all relations. -/
structure Complete (s : Registry) : Prop where
  positive : 0 < s.nbuckets
  indexed : Indexed s s.nrels
  links : s.nrels ≤ s.chainCap

theorem current_of_chains (below : ∀ b < s.nbuckets, ∃ indices,
    IsChain s.next (s.head b) indices ∧ ∀ i ∈ indices, i < s.nrels) : Current s := by
  intro i linked
  choose! chains areChains below using below
  obtain ⟨b, bucket, member⟩ := linked.exists_mem areChains
  exact below b bucket i member

/-- Chains that were just built are up to date. -/
theorem Complete.current (complete : Complete s) : Current s := by
  apply current_of_chains
  intro b bucket
  obtain ⟨indices, chain, below, _⟩ := complete.indexed b bucket
  exact ⟨indices, chain, below⟩

theorem current_of_empty (empty : ∀ b < s.nbuckets, s.head b = none) : Current s := by
  apply current_of_chains
  intro b bucket
  refine ⟨[], ?_, fun i member => absurd member not_mem_nil⟩
  rw [empty b bucket]
  trivial

theorem fillChains_spec (slots : Slots s) (empty : ∀ b < s.nbuckets, s.head b = none)
    (positive : 0 < s.nbuckets) (failures : Failures) :
    SameSlots s (fillChains s failures).2 ∧ Chains (fillChains s failures).2 ∧
      Current (fillChains s failures).2 ∧
      ((fillChains s failures).1 = true → Complete (fillChains s failures).2) := by
  have filled (s₀ : Registry) (empty : ∀ b < s₀.nbuckets, s₀.head b = none)
      (positive : 0 < s₀.nbuckets) (links : s₀.nrels ≤ s₀.chainCap) :
      SameSlots s₀ ((List.range s₀.nrels).foldl indexRel s₀) ∧
        Complete ((List.range s₀.nrels).foldl indexRel s₀) := by
    obtain ⟨same, nbuckets, chainCap, indexed⟩ := foldl_indexRel s₀ empty s₀.nrels
    refine ⟨same, ?_, ?_, ?_⟩
    · rwa [nbuckets]
    · rwa [same.nrels]
    · rwa [same.nrels, chainCap]
  unfold fillChains
  split_ifs with short failed
  · refine ⟨⟨rfl, rfl, rfl, rfl⟩, fun b inside => ⟨[], ?_, ?_⟩, current_of_empty empty, nofun⟩
    · rw [empty b inside]
      trivial
    · exact fun i member => absurd member not_mem_nil
  · have grown : SameSlots s (growLinks s) := ⟨rfl, rfl, rfl, rfl⟩
    obtain ⟨same, complete⟩ := filled (growLinks s) empty positive (Nat.le_refl _)
    exact ⟨⟨same.rels, same.nrels, same.relCap, same.destroyed⟩,
      complete.indexed.chains (same.slots (grown.slots slots)) complete.links, complete.current,
      fun _ => complete⟩
  · obtain ⟨same, complete⟩ := filled s empty positive (Nat.le_of_not_lt short)
    exact ⟨same, complete.indexed.chains (same.slots slots) complete.links, complete.current,
      fun _ => complete⟩

/-- **Building the chains.** It changes no slot. If it succeeds the chains hold all relations;
if it fails they are as before, or empty. -/
theorem relBuildHash_spec (slots : Slots s) (failures : Failures) :
    SameSlots s (relBuildHash s failures).2 ∧
      (Chains s → Chains (relBuildHash s failures).2) ∧
      (Current s → Current (relBuildHash s failures).2) ∧
      ((relBuildHash s failures).1 = true → Complete (relBuildHash s failures).2) := by
  unfold relBuildHash
  split_ifs with many overflow failed
  · exact ⟨⟨rfl, rfl, rfl, rfl⟩, id, id, nofun⟩
  · exact ⟨⟨rfl, rfl, rfl, rfl⟩, id, id, nofun⟩
  · exact ⟨⟨rfl, rfl, rfl, rfl⟩, id, id, nofun⟩
  have cleared : SameSlots s (clearHeads s (bucketCount s)) := ⟨rfl, rfl, rfl, rfl⟩
  obtain ⟨same, chains, current, complete⟩ := fillChains_spec (cleared.slots slots)
    (fun _ _ => rfl) (Nat.pos_of_ne_zero overflow) failures
  exact ⟨⟨same.rels, same.nrels, same.relCap, same.destroyed⟩, fun _ => chains,
    fun _ => current, complete⟩

/-! ## Lookups -/

/-- **A lookup is right**: it ends, without a fault, and returns the relation that is
registered under the name. -/
theorem Good.findRel_spec (good : Good s) (failures : Failures) (name : Name) :
    ∃ rounds answer s', findRel s rounds failures name = some (.ok answer, s') ∧
      Answers s name answer ∧ Good s' := by
  obtain ⟨answer, searched, answers⟩ := good.slots.linearSearch_spec name
  unfold findRel
  by_cases built : s.nbuckets > 0
  · obtain ⟨indices, chain, leads⟩ := good.chains _ (relHashString_lt built name)
    have lookup : relHashLookup s indices.length name =
        walk s name indices.length (s.head (relHashString name s.nbuckets)) :=
      if_neg (Nat.ne_of_gt built)
    refine ⟨indices.length, ?_⟩
    rw [if_pos built, lookup]
    rcases good.slots.walk_spec name chain leads with ⟨r, walked, registered, named⟩ | ⟨walked, _⟩
    · rw [walked]
      exact ⟨some r, s, rfl, good.slots.answers_some registered named, good⟩
    · rw [walked]
      exact ⟨answer, s, by rw [searched], answers, good⟩
  · by_cases some : s.nrels > 0
    · obtain ⟨same, keeps, _, complete⟩ := relBuildHash_spec good.slots failures
      rcases outcome : relBuildHash s failures with ⟨ok, s'⟩
      rw [outcome] at same keeps complete
      have good' : Good s' := ⟨same.slots good.slots, keeps good.chains⟩
      cases ok with
      | false =>
        obtain ⟨answer', searched', answers'⟩ := good'.slots.linearSearch_spec name
        refine ⟨0, answer', s', ?_, same.answers answers', good'⟩
        rw [if_neg built, if_pos some]
        simp [searched']
      | true =>
        -- the chains hold all relations, so there is no search after this
        obtain ⟨positive, indexed, links⟩ := complete rfl
        obtain ⟨indices, chain, below, all⟩ := indexed _ (relHashString_lt positive name)
        have lookup : relHashLookup s' indices.length name =
            walk s' name indices.length (s'.head (relHashString name s'.nbuckets)) :=
          if_neg (Nat.ne_of_gt positive)
        have leads := fun i member => good'.slots.leads links (below i member)
        refine ⟨indices.length, ?_⟩
        rw [if_neg built, if_pos some]
        simp only [lookup]
        rcases good'.slots.walk_spec name chain leads with
          ⟨r, walked, registered, named⟩ | ⟨walked, absent⟩
        · rw [walked]
          exact ⟨.some r, s', rfl, same.answers (good'.slots.answers_some registered named), good'⟩
        · rw [walked]
          refine ⟨none, s', rfl, same.answers (answers_none ?_), good'⟩
          rintro r ⟨i, inside, found⟩ named
          exact absent i (all i inside r found (by rw [named])) r found named
    · refine ⟨0, answer, s, ?_, answers, good⟩
      rw [if_neg built, if_neg some, searched]

/-- A lookup changes the chains only, and does not outdate them. -/
theorem Good.of_findRel (good : Good s) {rounds : Nat} {failures : Failures}
    {answer : Except Fault (Option Rel)} {s' : Registry}
    (found : findRel s rounds failures name = some (answer, s')) :
    SameSlots s s' ∧ Good s' ∧ (Current s → Current s') := by
  have unchanged : SameSlots s s ∧ Good s ∧ (Current s → Current s) :=
    ⟨⟨rfl, rfl, rfl, rfl⟩, good, id⟩
  obtain ⟨same, keeps, current, _⟩ := relBuildHash_spec good.slots failures
  unfold findRel at found
  split at found
  · split at found
    · nomatch found
    all_goals
      obtain ⟨_, rfl⟩ := Prod.mk.inj (Option.some.inj found)
      exact unchanged
  · split at found
    · rcases outcome : relBuildHash s failures with ⟨ok, built⟩
      rw [outcome] at same keeps current
      have after : SameSlots s built ∧ Good built ∧ (Current s → Current built) :=
        ⟨same, ⟨same.slots good.slots, keeps good.chains⟩, current⟩
      cases ok with
      | true =>
        simp only [outcome, Option.map_eq_some_iff] at found
        obtain ⟨_, _, ended⟩ := found
        obtain ⟨_, rfl⟩ := Prod.mk.inj ended
        exact after
      | false =>
        simp only [outcome] at found
        obtain ⟨_, rfl⟩ := Prod.mk.inj (Option.some.inj found)
        exact after
    · obtain ⟨_, rfl⟩ := Prod.mk.inj (Option.some.inj found)
      exact unchanged

end Lookup

end Wirelog.Columnar.NameTable

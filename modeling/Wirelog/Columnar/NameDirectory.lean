import Wirelog.Columnar.NameLookup

/-!
# The directory of relations

What the table of names is for: a directory, that is, a partial map from names to relations.
Registering, removing and failing snapshots change the table as they change the directory, and
keep what lookups rely on, if the chains are up to date (`Current`).

A snapshot that fails moves relations to the front of the array and leaves the chains as they
are. They then hold indices beyond the last relation. Registering the next relation can link
such an index a second time, which closes the chain to a circle: looking a name up does not end
(`exists_endless_lookup`). In every run in which relations are registered, and snapshots fail,
only while all indices in the chains are below the number of relations, a lookup returns what
the directory holds (`lookup_correct`).
-/

set_option autoImplicit false

namespace Wirelog.Columnar.NameTable

open Wirelog.Foundations List Function

/-! ## The directory

What the table is for: a partial map from names to relations. -/

/-- The relation of each name. -/
abbrev Directory := Name → Option Rel

namespace Directory

/-- A relation takes the place of the one of its name. -/
def register (m : Directory) (r : Rel) : Directory := update m r.name (some r)

def unregister (m : Directory) (name : Name) : Directory := update m name none

def dropDeltas (m : Directory) : Directory := fun name => if isDelta name then none else m name

end Directory

/-- A table stands for the directory of its registered relations. -/
def StandsFor (s : Registry) (m : Directory) : Prop := ∀ name, Answers s name (m name)

section Mutators

variable {s s' : Registry} {m : Directory} {i : Nat} {r : Rel}

theorem StandsFor.registered (stands : StandsFor s m) (r : Rel) :
    Registered s r ↔ m r.name = some r := by
  rw [stands r.name r]
  exact ⟨fun registered => ⟨registered, rfl⟩, And.left⟩

theorem StandsFor.create : StandsFor .create fun _ => none := by
  intro name
  apply answers_none
  rintro r ⟨i, inside, _⟩
  exact absurd inside (Nat.not_lt_zero i)

theorem SameSlots.standsFor (same : SameSlots s s') (stands : StandsFor s m) :
    StandsFor s' m := by
  intro name r
  rw [same.registered r]
  exact stands name r

/-! ## Filling a slot -/

/-- A relation that may be registered: it is alive, and no other registered relation is the
same object. -/
def Offered (s : Registry) (r : Rel) : Prop :=
  r.id ∉ s.destroyed ∧ ∀ r', Registered s r' → r'.id = r.id → r' = r

/-- A relation is written into a slot that is free or beyond the slots in use. -/
structure Fills (s s' : Registry) (i : Nat) (r : Rel) : Prop where
  rels : s'.rels = update s.rels i (some r)
  destroyed : s'.destroyed = s.destroyed
  inside : s'.nrels ≤ s'.relCap
  used : i < s'.nrels
  others : ∀ j ≠ i, j < s'.nrels ↔ j < s.nrels
  free : i < s.nrels → s.rels i = none

theorem Fills.registered (fills : Fills s s' i r) (r' : Rel) :
    Registered s' r' ↔ Registered s r' ∨ r' = r := by
  constructor
  · rintro ⟨j, inside, found⟩
    rw [fills.rels, update_apply] at found
    split at found
    · exact .inr (Option.some.inj found).symm
    rename_i apart
    exact .inl ⟨j, (fills.others j apart).mp inside, found⟩
  · rintro (⟨j, inside, found⟩ | rfl)
    · have apart : j ≠ i := by
        rintro rfl
        rw [fills.free inside] at found
        nomatch found
      refine ⟨j, (fills.others j apart).mpr inside, ?_⟩
      rw [fills.rels, update_of_ne apart, found]
    · refine ⟨i, fills.used, ?_⟩
      rw [fills.rels, update_self]

/-- The name of the relation must be new. -/
theorem Fills.slots (fills : Fills s s' i r) (slots : Slots s) (offered : Offered s r)
    (fresh : ∀ r', Registered s r' → r'.name ≠ r.name) : Slots s' where
  inside := fills.inside
  alive r' registered := by
    rw [fills.destroyed]
    rcases (fills.registered r').mp registered with old | rfl
    · exact slots.alive r' old
    · exact offered.1
  distinct j insideJ k insideK q q' foundJ foundK same := by
    have apart {r' : Rel} (registered : Registered s r')
        (clash : r'.name = r.name ∨ r'.id = r.id) : False := by
      rcases clash with named | sameId
      · exact fresh r' registered named
      · exact fresh r' registered (congrArg Rel.name (offered.2 r' registered sameId))
    rw [fills.rels, update_apply] at foundJ foundK
    split at foundJ
    · rename_i hereJ
      split at foundK
      · rename_i hereK
        rw [hereJ, hereK]
      rename_i otherK
      cases foundJ
      have registered : Registered s q' := ⟨k, (fills.others k otherK).mp insideK, foundK⟩
      exact (apart registered (same.imp Eq.symm Eq.symm)).elim
    · rename_i otherJ
      have insideJ := (fills.others j otherJ).mp insideJ
      split at foundK
      · cases foundK
        exact (apart ⟨j, insideJ, foundJ⟩ same).elim
      rename_i otherK
      have insideK := (fills.others k otherK).mp insideK
      exact slots.distinct j insideJ k insideK q q' foundJ foundK same

theorem Fills.standsFor (fills : Fills s s' i r) (stands : StandsFor s m)
    (fresh : ∀ r', Registered s r' → r'.name ≠ r.name) : StandsFor s' (m.register r) := by
  intro name r'
  rw [fills.registered r', Directory.register, update_apply]
  split
  · rename_i named
    subst named
    constructor
    · rintro found
      cases found
      exact ⟨.inr rfl, rfl⟩
    · rintro ⟨old | rfl, same⟩
      · exact absurd same (fresh r' old)
      · rfl
  · rename_i other
    rw [stands name r']
    constructor
    · rintro ⟨old, named⟩
      exact ⟨.inl old, named⟩
    · rintro ⟨old | rfl, named⟩
      · exact ⟨old, named⟩
      · exact absurd named.symm other

/-! ## Emptying a slot -/

theorem Slots.registered_destroyAt (slots : Slots s) (inside : i < s.nrels)
    (found : s.rels i = some r) (r' : Rel) :
    Registered (destroyAt s i) r' ↔ Registered s r' ∧ r'.name ≠ r.name := by
  constructor
  · rintro ⟨j, inside', found'⟩
    simp only [NameTable.destroyAt, found, update_apply] at found' inside'
    split at found'
    · nomatch found'
    rename_i apart
    refine ⟨⟨j, inside', found'⟩, ?_⟩
    intro same
    exact apart (slots.distinct j inside' i inside r' r found' found (.inl same))
  · rintro ⟨⟨j, inside', found'⟩, other⟩
    have apart : j ≠ i := by
      rintro rfl
      exact other (congrArg Rel.name (Option.some.inj (found'.symm.trans found)))
    refine ⟨j, by rwa [NameTable.destroyAt, found], ?_⟩
    simp [NameTable.destroyAt, found, update_of_ne apart, found']

/-- Destroying a relation leaves the others alive. -/
theorem Slots.destroyAt (slots : Slots s) (inside : i < s.nrels) (found : s.rels i = some r) :
    Slots (destroyAt s i) := by
  refine ⟨?_, fun r' registered => ?_, ?_⟩
  · rw [NameTable.destroyAt, found]
    exact slots.inside
  · obtain ⟨old, other⟩ := (slots.registered_destroyAt inside found r').mp registered
    simp only [NameTable.destroyAt, found, mem_cons, not_or]
    refine ⟨fun sameId => ?_, slots.alive r' old⟩
    obtain ⟨j, inside', found'⟩ := old
    obtain rfl := slots.distinct j inside' i inside r' r found' found (.inr sameId)
    exact other (congrArg Rel.name (Option.some.inj (found'.symm.trans found)))
  · simp only [NameTable.destroyAt, found]
    intro j insideJ k insideK q q' foundJ foundK same
    simp only [update_apply] at foundJ foundK
    split at foundJ
    · nomatch foundJ
    split at foundK
    · nomatch foundK
    · exact slots.distinct j insideJ k insideK q q' foundJ foundK same

theorem StandsFor.destroyAt (stands : StandsFor s m) (slots : Slots s) (inside : i < s.nrels)
    (found : s.rels i = some r) : StandsFor (destroyAt s i) (m.unregister r.name) := by
  intro name r'
  rw [slots.registered_destroyAt inside found r', Directory.unregister, update_apply]
  split
  · rename_i named
    constructor
    · intro absurd
      nomatch absurd
    · rintro ⟨⟨_, other⟩, same⟩
      exact absurd (same.trans named) other
  · rename_i other
    rw [stands name r']
    constructor
    · rintro ⟨registered, rfl⟩
      exact ⟨⟨registered, other⟩, rfl⟩
    · rintro ⟨⟨registered, _⟩, named⟩
      exact ⟨registered, named⟩

/-! ## Registering -/

theorem Slots.relFreeHash_spec (slots : Slots s) : Good (relFreeHash s) ∧ Current (relFreeHash s) :=
  ⟨⟨⟨slots.inside, slots.alive, slots.distinct⟩, fun b inside => absurd inside (Nat.not_lt_zero b)⟩,
    current_of_empty fun _ _ => rfl⟩

/-- Chains that are built, or given up where this fails. -/
theorem Slots.rebuild_spec (slots : Slots s) (failures : Failures) :
    SameSlots s (hashResultOrFallback (relBuildHash s failures)) ∧
      Good (hashResultOrFallback (relBuildHash s failures)) ∧
      Current (hashResultOrFallback (relBuildHash s failures)) := by
  obtain ⟨same, _, _, complete⟩ := relBuildHash_spec slots failures
  rcases outcome : relBuildHash s failures with ⟨ok, built⟩
  rw [outcome] at same complete
  have slots' := same.slots slots
  cases ok with
  | true =>
    have complete := complete rfl
    exact ⟨same, ⟨slots', complete.indexed.chains slots' complete.links⟩, complete.current⟩
  | false => exact ⟨⟨same.rels, same.nrels, same.relCap, same.destroyed⟩, slots'.relFreeHash_spec⟩

/-- Chains whose indices are below the number of relations may be kept as long as these slots
lead to registered relations. -/
theorem Chains.of_current (chains : Chains s) (current : Current s)
    (head : s'.head = s.head) (next : s'.next = s.next) (nbuckets : s'.nbuckets = s.nbuckets)
    (chainCap : s'.chainCap = s.chainCap)
    (leads : ∀ i < s.nrels, i < s'.relCap ∧ ∀ r, s'.rels i = some r → Registered s' r) :
    Chains s' := by
  intro b bucket
  rw [nbuckets] at bucket
  obtain ⟨indices, chain, old⟩ := chains b bucket
  rw [head, next, chainCap]
  refine ⟨indices, chain, fun i member => ?_⟩
  have linked := chain.linked (fun i start => .first bucket start) i member
  obtain ⟨inside, registered⟩ := leads i (current i linked)
  exact ⟨inside, (old i member).2.1, registered⟩

/-- A new last index can be linked in if all others are below it. -/
theorem Chains.link (chains : Chains s) (slots : Slots s) (links : i < s.chainCap)
    (last : s.nrels = i + 1) (below : ∀ j, Linked s.nbuckets s.head s.next j → j < i)
    (name : Name) {b : Nat} (bucket : b < s.nbuckets) :
    ∃ indices, IsChain (link s name i).next ((link s name i).head b) indices ∧
      ∀ j ∈ indices, j < s.nrels ∧ j < s.relCap ∧ j < s.chainCap ∧
        ∀ r, s.rels j = some r → Registered s r := by
  have leads (j : Nat) (upTo : j < s.nrels) :
      j < s.relCap ∧ ∀ r, s.rels j = some r → Registered s r :=
    ⟨Nat.lt_of_lt_of_le upTo slots.inside, fun _ found => ⟨j, upTo, found⟩⟩
  obtain ⟨indices, chain, old⟩ := chains b bucket
  have linked := chain.linked (fun i start => .first bucket start)
  have fresh : i ∉ indices := fun member => Nat.lt_irrefl i (below i (linked i member))
  have old' : ∀ j ∈ indices, j < s.nrels ∧ j < s.relCap ∧ j < s.chainCap ∧
      ∀ r, s.rels j = some r → Registered s r := by
    intro j member
    have before := below j (linked j member)
    exact ⟨by omega, old j member⟩
  by_cases here : relHashString name s.nbuckets = b
  · refine ⟨i :: indices, ?_, forall_mem_cons.mpr ⟨?_, old'⟩⟩
    · simp only [NameTable.link, here, update_self]
      exact chain.link fresh
    · have upTo : i < s.nrels := by omega
      obtain ⟨inside, registered⟩ := leads i upTo
      exact ⟨upTo, inside, links, registered⟩
  · refine ⟨indices, ?_, old'⟩
    simp only [NameTable.link, update_of_ne (Ne.symm here)]
    exact chain.update fresh _

/-- **Linking a new last relation.** -/
theorem Slots.relHashInsert_spec (slots : Slots s) (chains : Chains s) (last : s.nrels = i + 1)
    (below : ∀ j, Linked s.nbuckets s.head s.next j → j < i) (failures : Failures) :
    SameSlots s (hashResultOrFallback (relHashInsert s failures i)) ∧
      Good (hashResultOrFallback (relHashInsert s failures i)) ∧
      Current (hashResultOrFallback (relHashInsert s failures i)) := by
  have unchanged : SameSlots s s := ⟨rfl, rfl, rfl, rfl⟩
  have freed : SameSlots s (relFreeHash s) := ⟨rfl, rfl, rfl, rfl⟩
  have current : Current s := fun j linked => by
    have before := below j linked
    omega
  have rebuilt := slots.rebuild_spec failures
  unfold relHashInsert
  split
  · exact ⟨unchanged, ⟨slots, chains⟩, current⟩
  split
  · exact ⟨unchanged, ⟨slots, chains⟩, current⟩
  rename_i r found
  dsimp only
  split_ifs with absent many overflow resize
  · exact rebuilt
  · exact ⟨freed, slots.relFreeHash_spec⟩
  · exact ⟨freed, slots.relFreeHash_spec⟩
  · exact rebuilt
  have same : SameSlots s (NameTable.link s r.name i) := ⟨rfl, rfl, rfl, rfl⟩
  have links : i < s.chainCap := by omega
  have linked := fun b bucket => chains.link slots links last below r.name (b := b) bucket
  refine ⟨same, ⟨same.slots slots, fun b bucket => ?_⟩, current_of_chains fun b bucket => ?_⟩
  · obtain ⟨indices, chain, leads⟩ := linked b bucket
    exact ⟨indices, chain, fun j member => (leads j member).2⟩
  · obtain ⟨indices, chain, leads⟩ := linked b bucket
    exact ⟨indices, chain, fun j member => (leads j member).1⟩

/-- Replacing the relation in a slot. -/
theorem Good.replace (good : Good s) (current : Current s) (offered : Offered s r)
    (stands : StandsFor s m) (inside : i < s.nrels) {old : Rel} (found : s.rels i = some old)
    (named : old.name = r.name) (other : old ≠ r) :
    (Good (setRel (destroyAt s i) i r) ∧ Current (setRel (destroyAt s i) i r)) ∧
      StandsFor (setRel (destroyAt s i) i r) (m.register r) := by
  have slots := good.slots.destroyAt inside found
  have stands' := stands.destroyAt good.slots inside found
  have registered := good.slots.registered_destroyAt inside found
  have fresh : ∀ r', Registered (destroyAt s i) r' → r'.name ≠ r.name := by
    intro r' remains
    rw [← named]
    exact ((registered r').mp remains).2
  have offered' : Offered (destroyAt s i) r := by
    constructor
    · simp only [destroyAt, found, mem_cons, not_or]
      refine ⟨fun sameId => other ?_, offered.1⟩
      exact offered.2 old ⟨i, inside, found⟩ sameId.symm
    · exact fun r' remains => offered.2 r' ((registered r').mp remains).1
  have fills : Fills (destroyAt s i) (setRel (destroyAt s i) i r) i r := by
    refine ⟨rfl, rfl, slots.inside, ?_, fun _ _ => Iff.rfl, fun _ => ?_⟩
    · simp [setRel, destroyAt, found, inside]
    · simp [destroyAt, found]
  have slots' := fills.slots slots offered' fresh
  refine ⟨⟨⟨slots', ?_⟩, ?_⟩, ?_⟩
  · apply good.chains.of_current current
    · simp [setRel, destroyAt, found]
    · simp [setRel, destroyAt, found]
    · simp [setRel, destroyAt, found]
    · simp [setRel, destroyAt, found]
    · intro j below
      have below' : j < (setRel (destroyAt s i) i r).nrels := by
        simpa [setRel, destroyAt, found] using below
      exact ⟨Nat.lt_of_lt_of_le below' slots'.inside, fun _ present => ⟨j, below', present⟩⟩
  · simpa [Current, setRel, destroyAt, found] using current
  · have replaced := fills.standsFor stands' fresh
    rwa [Directory.register, Directory.unregister, named, update_idem] at replaced

/-- A relation with a new name takes a free slot. -/
theorem Good.fillHole (good : Good s) (offered : Offered s r) (stands : StandsFor s m)
    (fresh : ∀ r', Registered s r' → r'.name ≠ r.name) (inside : i < s.nrels)
    (free : s.rels i = none) (failures : Failures) :
    (Good (hashResultOrFallback (relBuildHash (setRel s i r) failures)) ∧
        Current (hashResultOrFallback (relBuildHash (setRel s i r) failures))) ∧
      StandsFor (hashResultOrFallback (relBuildHash (setRel s i r) failures)) (m.register r) := by
  have fills : Fills s (setRel s i r) i r :=
    ⟨rfl, rfl, good.slots.inside, inside, fun _ _ => Iff.rfl, fun _ => free⟩
  obtain ⟨same, good'⟩ := (fills.slots good.slots offered fresh).rebuild_spec failures
  exact ⟨good', same.standsFor (fills.standsFor stands fresh)⟩

/-- A relation with a new name takes a slot at the end of the array. -/
theorem Good.appendRel (good : Good s) (current : Current s) (offered : Offered s r)
    (stands : StandsFor s m) (fresh : ∀ r', Registered s r' → r'.name ≠ r.name)
    (room : s.relCap < 2 ^ 31) (failures : Failures) :
    ∃ ok s', appendRel s failures r = .ok (ok, s') ∧ (Good s' ∧ Current s') ∧
      StandsFor s' (if ok then m.register r else m) := by
  have inside := good.slots.inside
  unfold NameTable.appendRel
  dsimp only
  split
  · exact ⟨false, s, rfl, ⟨good, current⟩, stands⟩
  generalize growth : (if decide (s.nrels ≥ s.relCap) = true then
      if s.relCap = 0 then 16 else s.relCap * 2 % 2 ^ 32 else s.relCap) = cap
  have fits : s.nrels < cap ∧ s.relCap ≤ cap := by
    simp only [ge_iff_le, decide_eq_true_eq] at growth
    split_ifs at growth <;> omega
  rw [if_neg (Nat.not_le_of_lt fits.1)]
  have fills : Fills s (setRel { s with relCap := cap, nrels := s.nrels + 1 } s.nrels r)
      s.nrels r := by
    refine ⟨rfl, rfl, fits.1, Nat.lt_succ_self _, ?_, fun below => absurd below (Nat.lt_irrefl _)⟩
    intro j apart
    simp only [setRel]
    omega
  have slots' := fills.slots good.slots offered fresh
  have chains' :
      Chains (setRel { s with relCap := cap, nrels := s.nrels + 1 } s.nrels r) := by
    refine good.chains.of_current current rfl rfl rfl rfl fun j below => ?_
    exact ⟨Nat.lt_of_lt_of_le below (Nat.le_trans inside fits.2),
      fun _ present => ⟨j, Nat.lt_succ_of_lt below, present⟩⟩
  obtain ⟨same, good'⟩ := slots'.relHashInsert_spec chains' rfl current failures
  exact ⟨true, _, rfl, good', same.standsFor (fills.standsFor stands fresh)⟩

theorem firstHole_spec {i : Nat} (hole : firstHole s = some i) :
    i < s.nrels ∧ s.rels i = none := by
  have found := List.find?_some hole
  have member := mem_of_find?_eq_some hole
  exact ⟨mem_range.mp member, Option.isNone_iff_eq_none.mp found⟩

/-- **Registering a relation**, while the chains are up to date. -/
theorem Good.addRel (good : Good s) (current : Current s) (offered : Offered s r)
    (stands : StandsFor s m) (room : s.relCap < 2 ^ 31) (failures : Failures) :
    ∃ ok s', addRel s failures r = .ok (ok, s') ∧ (Good s' ∧ Current s') ∧
      StandsFor s' (if ok then m.register r else m) := by
  unfold NameTable.addRel
  split
  · exact ⟨false, s, rfl, ⟨good, current⟩, stands⟩
  rcases good.slots.scan_spec r.name with ⟨i, inside, old, scanned, found, named⟩ | ⟨none, fresh⟩
  · rw [scanned]
    dsimp only
    split
    · rename_i here
      have unchanged : m.register r = m := by
        have present : m r.name = some r := (stands.registered r).mp ⟨i, inside, here⟩
        rw [Directory.register, ← present, update_eq_self]
      exact ⟨true, s, rfl, ⟨good, current⟩, by rwa [if_pos rfl, unchanged]⟩
    · rename_i elsewhere
      have other : old ≠ r := fun same => elsewhere (same ▸ found)
      exact ⟨true, _, rfl, good.replace current offered stands inside found named other⟩
  · rw [none]
    dsimp only
    cases hole : firstHole s with
    | some i =>
      obtain ⟨inside, free⟩ := firstHole_spec hole
      exact ⟨true, _, rfl, good.fillHole offered stands fresh inside free failures⟩
    | none => exact good.appendRel current offered stands fresh room failures

/-- **Removing a relation.** -/
theorem Good.removeRel (good : Good s) (stands : StandsFor s m) (name : Name) :
    ∃ s', removeRel s name = .ok s' ∧ (Good s' ∧ (Current s → Current s')) ∧
      StandsFor s' (m.unregister name) := by
  unfold NameTable.removeRel
  rcases good.slots.scan_spec name with ⟨i, inside, r, scanned, found, named⟩ | ⟨none, absent⟩
  · rw [scanned]
    have freed : SameSlots (destroyAt s i) (relFreeHash (destroyAt s i)) := ⟨rfl, rfl, rfl, rfl⟩
    obtain ⟨good', current'⟩ := (good.slots.destroyAt inside found).relFreeHash_spec
    refine ⟨_, rfl, ⟨good', fun _ => current'⟩, ?_⟩
    rw [← named]
    exact freed.standsFor (stands.destroyAt good.slots inside found)
  · rw [none]
    have unchanged : m.unregister name = m := by
      have missing : m name = .none := by
        by_contra present
        obtain ⟨r, found⟩ := Option.ne_none_iff_exists'.mp present
        obtain ⟨registered, named⟩ := (stands name r).mp found
        exact absent r registered named
      rw [Directory.unregister, ← missing, update_eq_self]
    exact ⟨s, rfl, ⟨good, id⟩, by rwa [unchanged]⟩

/-! ## A snapshot that fails -/

/-- The relations of the first slots moved to the front: how many they are, what the slots hold
now, and where it came from. -/
structure Gathers (rels : Nat → Option Rel) (upTo out : Nat) (slots : Nat → Option Rel)
    (source : Nat → Nat) : Prop where
  count : out ≤ upTo
  rest : ∀ j ≥ out, slots j = rels j
  moved : ∀ j < out, source j < upTo ∧ slots j = rels (source j)
  increasing : ∀ j k, j < k → k < out → source j < source k
  all : ∀ i < upTo, ∀ r, rels i = some r → ∃ j < out, source j = i

section Gathers

variable {rels slots : Nat → Option Rel} {upTo out : Nat} {source : Nat → Nat}

theorem Gathers.skip (gathers : Gathers rels upTo out slots source) (free : rels upTo = none) :
    Gathers rels (upTo + 1) out slots source where
  count := Nat.le_succ_of_le gathers.count
  rest := gathers.rest
  moved j below :=
    ⟨Nat.lt_succ_of_lt (gathers.moved j below).1, (gathers.moved j below).2⟩
  increasing := gathers.increasing
  all i below r found := by
    rcases Nat.lt_succ_iff_lt_or_eq.mp below with before | rfl
    · exact gathers.all i before r found
    rw [free] at found
    nomatch found

theorem Gathers.move (gathers : Gathers rels upTo out slots source)
    (found : rels upTo = some r) :
    Gathers rels (upTo + 1) (out + 1) (update slots out (some r)) (update source out upTo) where
  count := Nat.succ_le_succ gathers.count
  rest j after := by
    rw [update_of_ne (Nat.ne_of_gt after)]
    exact gathers.rest j (Nat.le_of_succ_le after)
  moved j below := by
    rcases Nat.lt_succ_iff_lt_or_eq.mp below with before | rfl
    · have apart : j ≠ out := Nat.ne_of_lt before
      rw [update_of_ne apart, update_of_ne apart]
      exact ⟨Nat.lt_succ_of_lt (gathers.moved j before).1, (gathers.moved j before).2⟩
    · rw [update_self, update_self]
      exact ⟨Nat.lt_succ_self upTo, found.symm⟩
  increasing j k before below := by
    have apart : j ≠ out := by omega
    rw [update_of_ne apart]
    rcases Nat.lt_succ_iff_lt_or_eq.mp below with earlier | rfl
    · rw [update_of_ne (Nat.ne_of_lt earlier)]
      exact gathers.increasing j k before earlier
    · rw [update_self]
      exact (gathers.moved j before).1
  all i below r' present := by
    rcases Nat.lt_succ_iff_lt_or_eq.mp below with before | rfl
    · obtain ⟨j, inside, origin⟩ := gathers.all i before r' present
      refine ⟨j, Nat.lt_succ_of_lt inside, ?_⟩
      rw [update_of_ne (Nat.ne_of_lt inside), origin]
    · exact ⟨out, Nat.lt_succ_self _, update_self ..⟩

end Gathers

theorem exists_gathers (rels : Nat → Option Rel) (upTo : Nat) :
    ∃ source, Gathers rels upTo ((List.range upTo).foldl compactSlot (0, rels)).1
      ((List.range upTo).foldl compactSlot (0, rels)).2 source := by
  induction upTo with
  | zero =>
    refine ⟨id, Nat.le_refl 0, fun _ _ => rfl, ?_, ?_, ?_⟩
    · exact fun j below => absurd below (Nat.not_lt_zero j)
    · exact fun _ k _ below => absurd below (Nat.not_lt_zero k)
    · exact fun i below => absurd below (Nat.not_lt_zero i)
  | succ upTo ih =>
    obtain ⟨source, gathers⟩ := ih
    rw [range_succ, foldl_append, foldl_cons, foldl_nil]
    generalize (List.range upTo).foldl compactSlot (0, rels) = filled at gathers ⊢
    have here := gathers.rest upTo gathers.count
    cases found : rels upTo with
    | none =>
      rw [compactSlot, here, found]
      exact ⟨source, gathers.skip found⟩
    | some r =>
      rw [compactSlot, here, found]
      exact ⟨_, gathers.move found⟩

/-- Moving the relations to the front keeps them, and the slots in use before lead to them. -/
theorem Slots.compact (slots : Slots s) :
    Slots (compact s) ∧ (∀ r, Registered (compact s) r ↔ Registered s r) ∧
      ∀ i < s.nrels, ∀ r, (compact s).rels i = some r → Registered (compact s) r := by
  obtain ⟨source, gathers⟩ := exists_gathers s.rels s.nrels
  have registered : ∀ r, Registered (NameTable.compact s) r ↔ Registered s r := by
    intro r
    constructor
    · rintro ⟨j, inside, found⟩
      obtain ⟨below, moved⟩ := gathers.moved j inside
      exact ⟨source j, below, moved.symm.trans found⟩
    · rintro ⟨i, inside, found⟩
      obtain ⟨j, below, rfl⟩ := gathers.all i inside r found
      exact ⟨j, below, (gathers.moved j below).2.trans found⟩
  refine ⟨⟨Nat.le_trans gathers.count slots.inside, ?_, ?_⟩, registered, ?_⟩
  · exact fun r present => slots.alive r ((registered r).mp present)
  · intro j insideJ k insideK q q' foundJ foundK same
    obtain ⟨belowJ, movedJ⟩ := gathers.moved j insideJ
    obtain ⟨belowK, movedK⟩ := gathers.moved k insideK
    have sameSource : source j = source k :=
      slots.distinct _ belowJ _ belowK q q' (movedJ.symm.trans foundJ) (movedK.symm.trans foundK)
        same
    rcases Nat.lt_trichotomy j k with before | equal | after
    · exact absurd sameSource (Nat.ne_of_lt (gathers.increasing j k before insideK))
    · exact equal
    · exact absurd sameSource (Nat.ne_of_gt (gathers.increasing k j after insideJ))
  · intro i below r found
    by_cases inside : i < (NameTable.compact s).nrels
    · exact ⟨i, inside, found⟩
    -- a slot beyond the last relation still holds what it held before
    have old := gathers.rest i (Nat.le_of_not_lt inside)
    exact (registered r).mpr ⟨i, below, old.symm.trans found⟩

def holdsDelta (slot : Option Rel) : Bool := slot.any fun r => isDelta r.name

/-- The deltas in the first slots were dropped. -/
structure Drops (s s' : Registry) (upTo : Nat) : Prop where
  slots : Slots s'
  rels : ∀ i, s'.rels i = if i < upTo ∧ holdsDelta (s.rels i) then none else s.rels i
  nrels : s'.nrels = s.nrels
  relCap : s'.relCap = s.relCap
  head : s'.head = s.head
  next : s'.next = s.next
  nbuckets : s'.nbuckets = s.nbuckets
  chainCap : s'.chainCap = s.chainCap

theorem Drops.dropDelta {upTo : Nat} (drops : Drops s s' upTo) (inside : upTo < s.nrels) :
    ∃ s'', dropDelta s' upTo = .ok s'' ∧ Drops s s'' (upTo + 1) := by
  have inside' : upTo < s'.nrels := drops.nrels ▸ inside
  have here : s'.rels upTo = s.rels upTo := by
    rw [drops.rels, if_neg fun below => Nat.lt_irrefl _ below.1]
  -- the slots other than this one need no change
  have others (i : Nat) (apart : i ≠ upTo) :
      s'.rels i = if i < upTo + 1 ∧ holdsDelta (s.rels i) then none else s.rels i := by
    rw [drops.rels]
    exact if_congr (and_congr_left fun _ => by omega) rfl rfl
  have kept (plain : holdsDelta (s.rels upTo) = false) : Drops s s' (upTo + 1) := by
    refine { drops with rels := fun i => ?_ }
    by_cases same : i = upTo
    · rw [same, here, plain, if_neg (by simp)]
    · exact others i same
  rw [NameTable.dropDelta, drops.slots.readRel_slot inside', here]
  cases found : s.rels upTo with
  | none => exact ⟨s', rfl, kept (by rw [found]; rfl)⟩
  | some r =>
    dsimp only
    cases delta : isDelta r.name with
    | false => exact ⟨s', rfl, kept (by rw [found]; exact delta)⟩
    | true =>
      have found' : s'.rels upTo = some r := here.trans found
      refine ⟨_, rfl, drops.slots.destroyAt inside' found', fun i => ?_, ?_, ?_, ?_, ?_, ?_, ?_⟩
      · simp only [if_true, destroyAt, found', update_apply]
        split
        · rename_i same
          have dropped : holdsDelta (s.rels i) = true := by
            rw [same, found]
            exact delta
          rw [if_pos ⟨same ▸ Nat.lt_succ_self _, dropped⟩]
        · rename_i apart
          exact others i apart
      all_goals simp only [if_true, destroyAt, found']
      · exact drops.nrels
      · exact drops.relCap
      · exact drops.head
      · exact drops.next
      · exact drops.nbuckets
      · exact drops.chainCap

theorem Slots.drops (slots : Slots s) {upTo : Nat} (inside : upTo ≤ s.nrels) :
    ∃ s', (List.range upTo).foldlM dropDelta s = .ok s' ∧ Drops s s' upTo := by
  induction upTo with
  | zero =>
    refine ⟨s, rfl, slots, fun i => ?_, rfl, rfl, rfl, rfl, rfl, rfl⟩
    rw [if_neg fun below => Nat.not_lt_zero _ below.1]
  | succ upTo ih =>
    obtain ⟨s', folded, drops⟩ := ih (Nat.le_of_succ_le inside)
    obtain ⟨s'', dropped, drops'⟩ := drops.dropDelta inside
    refine ⟨s'', ?_, drops'⟩
    rw [range_succ, foldlM_append, folded]
    simp [bind, Except.bind, dropped, pure, Except.pure]

theorem Drops.registered (drops : Drops s s' s.nrels) (r : Rel) :
    Registered s' r ↔ Registered s r ∧ isDelta r.name = false := by
  constructor
  · rintro ⟨i, inside, found⟩
    rw [drops.nrels] at inside
    rw [drops.rels] at found
    split at found
    · nomatch found
    rename_i plain
    refine ⟨⟨i, inside, found⟩, ?_⟩
    rw [found] at plain
    exact Bool.eq_false_iff.mpr fun delta => plain ⟨inside, delta⟩
  · rintro ⟨⟨i, inside, found⟩, plain⟩
    refine ⟨i, drops.nrels ▸ inside, ?_⟩
    rw [drops.rels, found]
    exact if_neg fun dropped => Bool.eq_false_iff.mp plain dropped.2

/-- **A failing snapshot**, while the chains are up to date. -/
theorem Good.failedSnapshot (good : Good s) (current : Current s) (stands : StandsFor s m) :
    ∃ s', failedSnapshot s = .ok s' ∧ Good s' ∧ StandsFor s' m.dropDeltas := by
  obtain ⟨s', folded, drops⟩ := good.slots.drops (Nat.le_refl s.nrels)
  obtain ⟨slots, registered, leads⟩ := drops.slots.compact
  refine ⟨compact s', by rw [NameTable.failedSnapshot, folded], ⟨slots, ?_⟩, ?_⟩
  · refine good.chains.of_current current ?_ ?_ ?_ ?_ fun i below => ?_
    · exact drops.head
    · exact drops.next
    · exact drops.nbuckets
    · exact drops.chainCap
    · have inside : i < s'.relCap :=
        drops.relCap.symm ▸ Nat.lt_of_lt_of_le below good.slots.inside
      exact ⟨inside, leads i (drops.nrels.symm ▸ below)⟩
  · intro name r
    rw [registered r, drops.registered r, Directory.dropDeltas]
    split
    · rename_i delta
      constructor
      · intro found
        nomatch found
      · rintro ⟨⟨_, plain⟩, rfl⟩
        exact absurd delta (Bool.eq_false_iff.mp plain)
    · rename_i plain
      rw [stands name r]
      constructor
      · rintro ⟨present, rfl⟩
        exact ⟨⟨present, Bool.eq_false_iff.mpr plain⟩, rfl⟩
      · rintro ⟨⟨present, _⟩, named⟩
        exact ⟨present, named⟩

end Mutators

/-! ## Runs -/

/-- The runs of a session and of its directory in which the chains are up to date whenever a
relation is registered or a snapshot fails, and the array of relations does not outgrow its
counter. Any allocation may fail. -/
inductive Reached : Registry → Directory → Prop
  | create : Reached .create fun _ => none
  | find {s s' m rounds failures name answer} : Reached s m →
      findRel s rounds failures name = some (answer, s') → Reached s' m
  | add {s s' m failures r ok} : Reached s m → Offered s r → Current s → s.relCap < 2 ^ 31 →
      addRel s failures r = .ok (ok, s') → Reached s' (if ok then m.register r else m)
  | remove {s s' m name} : Reached s m → removeRel s name = .ok s' → Reached s' (m.unregister name)
  | failSnapshot {s s' m} : Reached s m → Current s → failedSnapshot s = .ok s' →
      Reached s' m.dropDeltas

/-- The invariant of the runs. -/
theorem Reached.good {s : Registry} {m : Directory} (reached : Reached s m) :
    Good s ∧ StandsFor s m := by
  induction reached with
  | create => exact ⟨Good.create, StandsFor.create⟩
  | find _ found ih =>
    obtain ⟨same, good, _⟩ := ih.1.of_findRel found
    exact ⟨good, same.standsFor ih.2⟩
  | @add _ _ _ failures _ _ _ offered current room added ih =>
    obtain ⟨_, _, added', after⟩ := ih.1.addRel current offered ih.2 room failures
    obtain ⟨rfl, rfl⟩ := Prod.mk.inj (Except.ok.inj (added.symm.trans added'))
    exact ⟨after.1.1, after.2⟩
  | @remove _ _ _ name _ removed ih =>
    obtain ⟨_, removed', after⟩ := ih.1.removeRel ih.2 name
    obtain rfl := Except.ok.inj (removed.symm.trans removed')
    exact ⟨after.1.1, after.2⟩
  | failSnapshot _ current failed ih =>
    obtain ⟨_, failed', after⟩ := ih.1.failedSnapshot current ih.2
    obtain rfl := Except.ok.inj (failed.symm.trans failed')
    exact after

theorem Current.create : Current .create := current_of_empty fun _ _ => rfl

theorem Offered.create (r : Rel) : Offered .create r := by
  refine ⟨not_mem_nil, ?_⟩
  rintro r' ⟨i, inside, _⟩
  exact absurd inside (Nat.not_lt_zero i)

/-- **Lookups are right.** In every state of these runs, looking any name up ends, whatever
allocations fail, reads no destroyed relation, and returns the relation that is registered
under the name, or nothing if there is none. The steps of the runs have no fault either, and
only failing snapshots can outdate the chains. -/
theorem lookup_correct {s : Registry} {m : Directory} (reached : Reached s m) :
    (∀ failures name, ∃ rounds s', findRel s rounds failures name = some (.ok (m name), s') ∧
      (Current s → Current s')) ∧
    (∀ failures r, Offered s r → Current s → s.relCap < 2 ^ 31 →
      ∃ ok s', addRel s failures r = .ok (ok, s') ∧ Current s') ∧
    (∀ name, ∃ s', removeRel s name = .ok s' ∧ (Current s → Current s')) ∧
    (Current s → ∃ s', failedSnapshot s = .ok s') := by
  obtain ⟨good, stands⟩ := reached.good
  refine ⟨fun failures name => ?_, fun failures r offered current room => ?_, fun name => ?_,
    fun current => ?_⟩
  · obtain ⟨rounds, answer, s', found, answers, _⟩ := good.findRel_spec failures name
    have same : answer = m name := by
      apply Option.ext
      intro r
      exact (answers r).trans (stands name r).symm
    obtain ⟨_, _, current⟩ := good.of_findRel found
    exact ⟨rounds, s', same ▸ found, current⟩
  · obtain ⟨ok, s', added, ⟨_, current'⟩, _⟩ := good.addRel current offered stands room failures
    exact ⟨ok, s', added, current'⟩
  · obtain ⟨s', removed, ⟨_, current⟩, _⟩ := good.removeRel stands name
    exact ⟨s', removed, current⟩
  · obtain ⟨s', failed, _⟩ := good.failedSnapshot current stands
    exact ⟨s', failed⟩

/-- A call in which no allocation fails. -/
def noFailures : Failures := ⟨false, false, false, false⟩

/-- A relation and its delta are registered and found; a failing snapshot loses the delta only. -/
theorem lookup_correct_delta :
    ∃ s₁ s₂ s₃, addRel .create noFailures ⟨0, [97]⟩ = .ok (true, s₁) ∧
      addRel s₁ noFailures ⟨1, [36, 100, 36, 97]⟩ = .ok (true, s₂) ∧
      failedSnapshot s₂ = .ok s₃ ∧
      (∃ rounds s', findRel s₂ rounds noFailures [36, 100, 36, 97] =
        some (.ok (some ⟨1, [36, 100, 36, 97]⟩), s')) ∧
      (∃ rounds s', findRel s₃ rounds noFailures [97] = some (.ok (some ⟨0, [97]⟩), s')) ∧
      ∃ rounds s', findRel s₃ rounds noFailures [36, 100, 36, 97] = some (.ok none, s') := by
  let a : Rel := ⟨0, [97]⟩
  let delta : Rel := ⟨1, [36, 100, 36, 97]⟩
  have register {s s' : Registry} {m : Directory} {r : Rel} (run : Reached s m)
      (offered : Offered s r) (current : Current s) (room : s.relCap < 2 ^ 31)
      (added : addRel s noFailures r = .ok (true, s')) :
      Reached s' (m.register r) ∧ Current s' := by
    obtain ⟨_, add, _⟩ := lookup_correct run
    obtain ⟨_, _, added', current'⟩ := add noFailures r offered current room
    cases added.symm.trans added'
    exact ⟨.add run offered current room added, current'⟩
  obtain ⟨run₁, current₁⟩ := register .create (.create a) .create (by decide) rfl
  have offered {s : Registry} (run : Reached s (Directory.register (fun _ => none) a))
      (fresh : s.destroyed = []) : Offered s delta := by
    refine ⟨by simp [fresh], fun r registered same => ?_⟩
    have listed := (run.good.2 r.name r).mpr ⟨registered, rfl⟩
    simp only [Directory.register, update_apply] at listed
    split_ifs at listed
    cases listed
    exact absurd same (by decide)
  obtain ⟨run₂, current₂⟩ := register run₁ (offered run₁ rfl) current₁ (by decide) rfl
  obtain ⟨find₂, _, _, fail⟩ := lookup_correct run₂
  obtain ⟨s₃, failed⟩ := fail current₂
  obtain ⟨find₃, _⟩ := lookup_correct (Reached.failSnapshot run₂ current₂ failed)
  obtain ⟨rounds₁, s', found, _⟩ := find₂ noFailures delta.name
  obtain ⟨rounds₂, s'', kept, _⟩ := find₃ noFailures a.name
  obtain ⟨rounds₃, s''', lost, _⟩ := find₃ noFailures delta.name
  exact ⟨_, _, s₃, rfl, rfl, failed, ⟨rounds₁, s', found⟩, ⟨rounds₂, s'', kept⟩, rounds₃, s''',
    lost⟩

/-- The relations `e` and `a` are registered, with the delta of `e` between them, and a snapshot
fails. The names `a` and `q` are in one bucket. When `q` is registered, its index is the one
that `a` had, so its link leads to itself: looking `a` up does not end. -/
theorem exists_endless_lookup :
    ∃ s₁ s₂ s₃ s₄ s₅, addRel .create noFailures ⟨0, [101]⟩ = .ok (true, s₁) ∧
      addRel s₁ noFailures ⟨1, [36, 100, 36, 101]⟩ = .ok (true, s₂) ∧
      addRel s₂ noFailures ⟨2, [97]⟩ = .ok (true, s₃) ∧
      failedSnapshot s₃ = .ok s₄ ∧
      addRel s₄ noFailures ⟨3, [113]⟩ = .ok (true, s₅) ∧
      Registered s₅ ⟨2, [97]⟩ ∧
      ∀ rounds failures, findRel s₅ rounds failures [97] = none := by
  refine ⟨_, _, _, _, _, rfl, rfl, rfl, rfl, rfl, ⟨1, by decide, rfl⟩, ?_⟩
  generalize state : hashResultOrFallback _ = s₅
  intro rounds failures
  -- the chain of `a` and `q` starts at the slot of `q` and stays there
  have circle (rounds : Nat) : walk s₅ [97] rounds (some 2) = none := by
    induction rounds with
    | zero => rfl
    | succ rounds ih =>
      subst state
      exact ih
  have lookup : relHashLookup s₅ rounds [97] = none := by
    subst state
    exact circle rounds
  have built : s₅.nbuckets > 0 := by
    subst state
    decide
  rw [findRel, if_pos built, lookup]

end Wirelog.Columnar.NameTable

import Wirelog.Arena.Handles

/-!
# The counter of live handles

The arena counts its handles of positive multiplicity as they are made, retained and released.
The end of an epoch drops the entries of a generation, and leaves the counter alone: a handle that
is still held then stays in the counter for good (`live_handles_left_behind`). The counter is right
throughout a run exactly when no collection drops a handle that is held (`live_handles_iff`).
-/

set_option autoImplicit false

namespace Wirelog.Arena

open Function List

/-- How many handles of a generation have a positive multiplicity. -/
def Gen.held (gen : Gen) : Nat := gen.multiplicity.countP (0 < ·)

/-- How many handles have a positive multiplicity, over the generations that were not collected. -/
def CompoundArena.held (arena : CompoundArena) : Nat :=
  ∑ epoch ∈ Finset.Ico arena.currentEpoch arena.maxEpochs, (arena.gens epoch).held

/-- The counter is right. -/
def CompoundArena.Counted (arena : CompoundArena) : Prop := arena.liveHandles = arena.held

/-- A collection that takes effect finds no handle that is still held. -/
def DropsNothing (arena : CompoundArena) : Operation → Prop
  | .gcEpochBoundary => arena.readers = 0 → arena.currentEpoch < arena.maxEpochs →
      arena.frozen = false → (arena.gens arena.currentEpoch).held = 0
  | _ => True

/-! ## Steps -/

def Paired (gens : Nat → Gen) : Prop :=
  ∀ epoch, (gens epoch).multiplicity.length = (gens epoch).entryOffsets.length

theorem Paired.update {gens : Nat → Gen} (paired : Paired gens) {epoch : Nat} {gen : Gen}
    (own : gen.multiplicity.length = gen.entryOffsets.length) : Paired (update gens epoch gen) :=
  (forall_update_iff gens fun _ (gen : Gen) =>
    gen.multiplicity.length = gen.entryOffsets.length).mpr ⟨own, fun other _ => paired other⟩

structure SameEntries (arena arena' : CompoundArena) : Prop where
  counter : arena'.liveHandles = arena.liveHandles
  epoch : arena'.currentEpoch = arena.currentEpoch
  epochs : arena'.maxEpochs = arena.maxEpochs
  entries : ∀ epoch, (arena'.gens epoch).entryOffsets = (arena.gens epoch).entryOffsets ∧
    (arena'.gens epoch).multiplicity = (arena.gens epoch).multiplicity

/-- An operation that leaves the entries alone. -/
theorem SameEntries.keeps {arena arena' : CompoundArena} (same : SameEntries arena arena')
    (paired : Paired arena.gens) (counted : arena.Counted) :
    Paired arena'.gens ∧ (arena'.Counted ↔ True) := by
  have held : arena'.held = arena.held := by
    rw [CompoundArena.held, same.epoch, same.epochs]
    exact Finset.sum_congr rfl fun epoch _ => by rw [Gen.held, (same.entries epoch).2, Gen.held]
  refine ⟨fun epoch => ?_, iff_of_true ?_ trivial⟩
  · rw [(same.entries epoch).1, (same.entries epoch).2, paired]
  · rw [CompoundArena.Counted, held, same.counter, counted]

section Steps

variable {arena : CompoundArena} {past live : List Issued} (inv : Inv arena past live)

include inv

/-- A handle that is found is one of the current generation. -/
theorem Inv.locateEntry_spec {handle i : Nat} (located : locateEntry arena handle = some i) :
    handleEpoch handle = arena.currentEpoch ∧ arena.currentEpoch < arena.maxEpochs ∧
      i < (arena.gens arena.currentEpoch).entryOffsets.length := by
  unfold locateEntry at located
  split_ifs at located with null session saturated outside
  have here : handleEpoch handle = arena.currentEpoch := by
    by_contra other
    exact outside ((inv.others _ other).1 ▸ Nat.zero_le _)
  rw [here] at located saturated
  exact ⟨here, not_le.mp saturated, (findIdx?_eq_some_iff_findIdx_eq.mp located).1⟩

variable (paired : Paired arena.gens)

include paired

theorem Inv.held_other {epoch : Nat} (other : epoch ≠ arena.currentEpoch) :
    (arena.gens epoch).held = 0 := by
  have none : (arena.gens epoch).multiplicity = [] := by
    rw [← length_eq_zero_iff, paired epoch, (inv.others epoch other).2, length_nil]
  rw [Gen.held, none, countP_nil]

/-- Only the current generation has handles. -/
theorem Inv.held_update (room : arena.currentEpoch < arena.maxEpochs) (gen : Gen) :
    ∑ epoch ∈ Finset.Ico arena.currentEpoch arena.maxEpochs,
      (update arena.gens arena.currentEpoch gen epoch).held = gen.held := by
  rw [Finset.sum_eq_single_of_mem _ (Finset.left_mem_Ico.mpr room), update_self]
  intro epoch _ other
  rw [update_of_ne other, inv.held_other paired other]

theorem Inv.held_eq (room : arena.currentEpoch < arena.maxEpochs) :
    arena.held = (arena.gens arena.currentEpoch).held := by
  rw [← inv.held_update paired room, update_eq_self, CompoundArena.held]

theorem Inv.held_later {start : Nat} (later : arena.currentEpoch < start) (gen : Gen) :
    ∑ epoch ∈ Finset.Ico start arena.maxEpochs,
      (update arena.gens arena.currentEpoch gen epoch).held = 0 := by
  refine Finset.sum_eq_zero fun epoch member => ?_
  have other : epoch ≠ arena.currentEpoch := by
    have := (Finset.mem_Ico.mp member).1
    omega
  rw [update_of_ne other, inv.held_other paired other]

/-- There are fewer handles than 32 bits count. -/
theorem Inv.held_lt : (arena.gens arena.currentEpoch).held < 2 ^ 32 := by
  have entries : (arena.gens arena.currentEpoch).multiplicity.length = live.length := by
    rw [paired, inv.offsets]
    simp
  have sizes : live.length ≤ (payloadSizes live).sum := by
    rw [← length_payloadSizes]
    exact length_le_sum_of_one_le _ inv.sizes_positive
  have used := inv.used
  have fits := inv.fits
  have capacity := inv.capacity arena.currentEpoch
  calc (arena.gens arena.currentEpoch).held ≤ live.length := entries ▸ countP_le_length
    _ < 2 ^ 32 := by
      by_cases none : live = []
      · simp [none]
      rw [if_neg none] at used
      omega

variable (counted : arena.Counted)

include counted

theorem Inv.liveHandles_eq (room : arena.currentEpoch < arena.maxEpochs) :
    arena.liveHandles = (arena.gens arena.currentEpoch).held :=
  counted.trans (inv.held_eq paired room)

theorem counted_alloc (size : UInt32) (faults : GrowthFaults) (fresh : Nat → UInt8) :
    Paired (alloc arena size faults fresh).2.gens ∧
      ((alloc arena size faults fresh).2.Counted ↔ True) := by
  rcases alloc_cases arena size faults fresh with
    failed | ⟨need, gen, -, room, -, reserved, published⟩
  · rw [failed]
    exact ⟨paired, iff_of_true counted trivial⟩
  obtain ⟨-, offsets, multiplicity, -⟩ :=
    genReserve_spec inv.fits (inv.capacity _) inv.defaultCap.2 reserved
  rw [published]
  refine ⟨paired.update ?_, iff_of_true ?_ trivial⟩
  · simp [Gen.push, multiplicity, offsets, paired arena.currentEpoch]
  · have small := inv.held_lt paired
    have before := inv.liveHandles_eq paired counted room
    have held (offset : Nat) : (gen.push offset (alignUp size.toNat)).held =
        (arena.gens arena.currentEpoch).held + 1 := by
      simp [Gen.held, Gen.push, multiplicity]
    refine Eq.trans ?_ (inv.held_update paired room _).symm
    rw [held, ← before]
    exact Nat.mod_eq_of_lt (by omega)

/-- A multiplicity that crosses zero is counted. -/
theorem counted_retain (handle : Nat) (delta : Int) :
    Paired (retain arena handle delta).gens ∧ ((retain arena handle delta).Counted ↔ True) := by
  have same : Paired arena.gens ∧ (arena.Counted ↔ True) := ⟨paired, iff_of_true counted trivial⟩
  unfold retain
  split_ifs
  · exact same
  · exact same
  cases located : locateEntry arena handle with
  | none => exact same
  | some i =>
    obtain ⟨here, room, inside⟩ := inv.locateEntry_spec located
    rw [← paired] at inside
    have small := inv.held_lt paired
    have before := inv.liveHandles_eq paired counted room
    simp only [here]
    refine ⟨paired.update ?_, iff_of_true ?_ trivial⟩
    · rw [length_set, paired]
    · refine Eq.trans ?_ (inv.held_update paired room _).symm
      have some : 0 < (arena.gens arena.currentEpoch).multiplicity[i] →
          0 < (arena.gens arena.currentEpoch).held := fun positive =>
        countP_pos_iff.mpr ⟨_, getElem_mem inside, by simpa using positive⟩
      rw [Gen.held] at *
      rw [countP_set inside, getD_eq_getElem _ _ inside, before]
      simp only [decide_eq_true_eq]
      generalize int64 _ = after
      split_ifs <;> omega

/-- A collection that takes effect leaves a right counter if nothing was held. -/
theorem counted_gcEpochBoundary : Paired (gcEpochBoundary arena).gens ∧
    ((gcEpochBoundary arena).Counted ↔ DropsNothing arena .gcEpochBoundary) := by
  unfold gcEpochBoundary DropsNothing
  split_ifs with busy saturated frozen
  · exact ⟨paired, iff_of_true counted fun idle => absurd idle busy⟩
  · exact ⟨paired, iff_of_true counted fun _ room => absurd saturated (not_le.mpr room)⟩
  · exact ⟨paired, iff_of_true counted fun _ _ thawed => absurd frozen (by simp [thawed])⟩
  all_goals
    have room := not_le.mp saturated
    refine ⟨paired.update rfl, Iff.trans (Eq.congr (inv.liveHandles_eq paired counted room)
      (inv.held_later paired (by simp only; omega) _)) ?_⟩
    exact ⟨fun none _ _ _ => none,
      fun drops => drops (not_not.mp busy) room (eq_false_of_ne_true frozen)⟩

end Steps

/-- **One operation** keeps the counter right, unless it drops a handle that is held. -/
theorem counted_step {history : History} (sound : history.Sound)
    (paired : Paired history.arena.gens) (counted : history.arena.Counted)
    (operation : Operation) : Paired (step history operation).arena.gens ∧
      ((step history operation).arena.Counted ↔ DropsNothing history.arena operation) := by
  obtain ⟨past, live, -, inv⟩ := sound
  have same : SameEntries history.arena history.arena := ⟨rfl, rfl, rfl, fun _ => ⟨rfl, rfl⟩⟩
  cases operation with
  | alloc size faults fresh => exact counted_alloc inv paired counted size faults fresh
  | retain handle delta => exact counted_retain inv paired counted handle.toNat delta
  | gcEpochBoundary => exact counted_gcEpochBoundary inv paired counted
  | setFrozen frozen =>
    refine SameEntries.keeps ?_ paired counted
    simp only [step, setFrozen]
    split_ifs <;> exact { same with }
  | borrow | borrowRelease =>
    refine SameEntries.keeps ?_ paired counted
    simp only [step, borrow, borrowRelease]
    split_ifs <;> exact { same with }
  | write handle i byte =>
    refine SameEntries.keeps ?_ paired counted
    simp only [step, write]
    split
    · exact same
    split_ifs
    · refine { same with entries := ?_ }
      exact (forall_update_iff _ fun epoch (gen : Gen) =>
        gen.entryOffsets = (history.arena.gens epoch).entryOffsets ∧
          gen.multiplicity = (history.arena.gens epoch).multiplicity).mpr
        ⟨⟨rfl, rfl⟩, fun _ _ => ⟨rfl, rfl⟩⟩
    · exact same

/-! ## Runs -/

/-- From a state with a right counter. -/
theorem counted_run_iff {history : History} (sound : history.Sound)
    (paired : Paired history.arena.gens) (counted : history.arena.Counted)
    (operations : List Operation) : (∀ k, ((operations.take k).foldl step history).arena.Counted) ↔
      ∀ k operation, operations[k]? = some operation →
        DropsNothing ((operations.take k).foldl step history).arena operation := by
  induction operations generalizing history with
  | nil => simpa using counted
  | cons operation rest ih =>
    obtain ⟨nextPaired, nextCounted⟩ := counted_step sound paired counted operation
    constructor
    · intro all
      have next : (step history operation).arena.Counted := all 1
      have later := (ih (sound.step operation) nextPaired next).mp fun k => all (k + 1)
      rintro (_ | k) other found
      · cases found
        exact nextCounted.mp next
      · exact later k other found
    · intro drops
      have next := nextCounted.mpr (drops 0 operation rfl)
      have later := (ih (sound.step operation) nextPaired next).mpr fun k => drops (k + 1)
      rintro (_ | k)
      · exact counted
      · exact later k

/-- **The counter of live handles** is right in every state of a run exactly when every collection
that takes effect finds no handle that is still held. -/
theorem live_handles_iff {seed defaultGenCap maxEpochs : UInt32} {managed : Bool}
    {arena : CompoundArena} (created : create seed defaultGenCap maxEpochs managed = some arena)
    (operations : List Operation) :
    (∀ k, (run arena (operations.take k)).arena.Counted) ↔
      ∀ k operation, operations[k]? = some operation →
        DropsNothing (run arena (operations.take k)).arena operation := by
  refine counted_run_iff ⟨[], [], rfl, .create created⟩ ?_ ?_ operations
  all_goals
    unfold create at created
    split_ifs at created
    cases created
  · exact fun _ => rfl
  · simp [CompoundArena.Counted, CompoundArena.held, Gen.held, Gen.empty]

/-- The handle `1 <<< 44` is released before its generation is collected. -/
theorem live_handles_iff_released :
    ∃ arena, create 1 16 2 false = some arena ∧
      ∀ k, (run arena (take k [.alloc 8 noFaults fun _ => 0, .retain 0x100000000000 (-1),
        .gcEpochBoundary])).arena.Counted := by
  refine ⟨_, rfl, (live_handles_iff (rfl : create 1 16 2 false = _) _).mpr ?_⟩
  rintro (_ | _ | _ | k) operation found
  · cases found
    trivial
  · cases found
    trivial
  · cases found
    intro _ _ _
    decide +kernel
  · cases found

/-- A handle is made and its generation collected: it is still in the counter. -/
theorem live_handles_left_behind :
    (create 1 16 2 false).map (fun arena =>
      (run arena [.alloc 8 noFaults fun _ => 0, .gcEpochBoundary]).arena.liveHandles) = some 1 ∧
    (create 1 16 2 false).map (fun arena =>
      (run arena [.alloc 8 noFaults fun _ => 0, .gcEpochBoundary]).arena.held) = some 0 := by
  decide +kernel

end Wirelog.Arena

import Wirelog.Foundations.BumpAllocation
import Wirelog.Arena.Compound

/-!
# Handles and payloads over whole runs

What the arena is for is said by a ledger: the handles that were returned, the sizes that were
asked for, and the bytes that were written (`Issued`). A run of operations keeps the ledger beside
the arena (`step`, `run`).

The invariant `Inv` splits the ledger into the handles of collected generations and those of the
current one. The payloads of the latter lie one after the other in the buffer, in the order in
which they were issued; the first one starts at 8 rather than 0 where its handle would be null.

**In every state of every run** the handles are different and not null, a handle whose generation
was not collected leads to its own payload with the bytes written to it, payloads do not overlap,
and an allocation that fails changes nothing (`compound_arena_handles`).
-/

set_option autoImplicit false

namespace Wirelog.Arena

open Foundations List Function

/-! ## The parts of a handle -/

theorem handlePack_eq {seed epoch offset : Nat} (smallSeed : seed < 2 ^ 20)
    (smallEpoch : epoch < 2 ^ 12) (smallOffset : offset < 2 ^ 32) :
    handlePack seed epoch offset = seed * 2 ^ 44 + epoch * 2 ^ 32 + offset := by
  have maskSeed : seed &&& 0xFFFFF = seed := by
    have := Nat.and_two_pow_sub_one_eq_mod seed 20
    rwa [Nat.mod_eq_of_lt smallSeed] at this
  have maskEpoch : epoch &&& 0xFFF = epoch := by
    have := Nat.and_two_pow_sub_one_eq_mod epoch 12
    rwa [Nat.mod_eq_of_lt smallEpoch] at this
  have upper : seed <<< 44 ||| epoch <<< 32 = (seed * 2 ^ 12 + epoch) <<< 32 := by
    rw [← Nat.shiftLeft_add_eq_or_of_lt (by rw [Nat.shiftLeft_eq]; omega), Nat.shiftLeft_eq,
      Nat.shiftLeft_eq, Nat.shiftLeft_eq]
    omega
  rw [handlePack, maskSeed, maskEpoch, upper, ← Nat.shiftLeft_add_eq_or_of_lt smallOffset,
    Nat.shiftLeft_eq]
  omega

theorem handleSession_eq (handle : Nat) : handleSession handle = handle / 2 ^ 44 % 2 ^ 20 := by
  rw [handleSession, Nat.shiftRight_eq_div_pow]
  exact Nat.and_two_pow_sub_one_eq_mod _ 20

theorem handleEpoch_eq (handle : Nat) : handleEpoch handle = handle / 2 ^ 32 % 2 ^ 12 := by
  rw [handleEpoch, Nat.shiftRight_eq_div_pow]
  exact Nat.and_two_pow_sub_one_eq_mod _ 12

theorem handleOffset_eq (handle : Nat) : handleOffset handle = handle % 2 ^ 32 :=
  Nat.and_two_pow_sub_one_eq_mod _ 32

section Parts

variable {seed epoch offset : Nat} (smallSeed : seed < 2 ^ 20) (smallEpoch : epoch < 2 ^ 12)
  (smallOffset : offset < 2 ^ 32)

include smallSeed smallEpoch smallOffset

theorem handleSession_pack : handleSession (handlePack seed epoch offset) = seed := by
  rw [handleSession_eq, handlePack_eq smallSeed smallEpoch smallOffset]
  omega

theorem handleEpoch_pack : handleEpoch (handlePack seed epoch offset) = epoch := by
  rw [handleEpoch_eq, handlePack_eq smallSeed smallEpoch smallOffset]
  omega

theorem handleOffset_pack : handleOffset (handlePack seed epoch offset) = offset := by
  rw [handleOffset_eq, handlePack_eq smallSeed smallEpoch smallOffset]
  omega

end Parts

theorem handlePack_parts {handle : Nat} (small : handle < 2 ^ 64) :
    handlePack (handleSession handle) (handleEpoch handle) (handleOffset handle) = handle := by
  rw [handleSession_eq, handleEpoch_eq, handleOffset_eq, handlePack_eq] <;> omega

/-! ## The ledger -/

/-- A handle that was returned, the size that was asked for, and the bytes written since. -/
structure Issued where
  handle : Nat
  size : Nat
  written : Nat → Option UInt8

def roundUp (size : Nat) : Nat := (size + 7) / 8 * 8

/-- What a client does with an arena. -/
inductive Operation where
  | alloc (size : UInt32) (faults : GrowthFaults) (fresh : Nat → UInt8)
  | retain (handle : UInt64) (delta : Int)
  | setFrozen (frozen : Bool)
  | gcEpochBoundary
  | borrow
  | borrowRelease
  | write (handle : UInt64) (i : Nat) (byte : UInt8)

/-- An arena with the ledger of what was done with it. -/
structure History where
  arena : CompoundArena
  issued : List Issued

def Issued.note (handle i : Nat) (byte : UInt8) (entry : Issued) : Issued :=
  if entry.handle = handle then
    { entry with written := update entry.written i (some byte) }
  else entry

def step (history : History) : Operation → History
  | .alloc size faults fresh =>
    let (handle, arena) := alloc history.arena size faults fresh
    ⟨arena, if handle = handleNull then history.issued
      else history.issued ++ [⟨handle, size.toNat, fun _ => none⟩]⟩
  | .retain handle delta => { history with arena := retain history.arena handle.toNat delta }
  | .setFrozen frozen => { history with arena := setFrozen history.arena frozen }
  | .gcEpochBoundary => { history with arena := gcEpochBoundary history.arena }
  | .borrow => { history with arena := borrow history.arena }
  | .borrowRelease => { history with arena := borrowRelease history.arena }
  | .write handle i byte =>
    ⟨write history.arena handle.toNat i byte,
      if (lookup history.arena handle.toNat).any (i < ·.size) then
        history.issued.map (Issued.note handle.toNat i byte)
      else history.issued⟩

def run (arena : CompoundArena) (operations : List Operation) : History :=
  operations.foldl step ⟨arena, []⟩

/-! ## The invariant -/

/-- Where the first payload of the current generation starts. -/
def firstOffset (arena : CompoundArena) : Nat :=
  if arena.sessionSeed = 0 ∧ arena.currentEpoch = 0 then 8 else 0

def payloadSizes (issued : List Issued) : List Nat := issued.map fun entry => roundUp entry.size

/-- The ledger consists of the handles of collected generations and those of the current one. -/
structure Inv (arena : CompoundArena) (past live : List Issued) : Prop where
  seed : arena.sessionSeed < 2 ^ 20
  epochs : arena.maxEpochs ≤ 2 ^ 12
  current : arena.currentEpoch ≤ arena.maxEpochs
  room : live ≠ [] → arena.currentEpoch < arena.maxEpochs
  defaultCap : 0 < arena.defaultGenCap ∧ arena.defaultGenCap < 2 ^ 32
  others : ∀ epoch ≠ arena.currentEpoch,
    (arena.gens epoch).used = 0 ∧ (arena.gens epoch).entryOffsets = []
  fits : (arena.gens arena.currentEpoch).used ≤ (arena.gens arena.currentEpoch).capacity
  capacity : ∀ epoch, (arena.gens epoch).capacity < 2 ^ 32
  used : (arena.gens arena.currentEpoch).used =
    if live = [] then 0 else firstOffset arena + (payloadSizes live).sum
  offsets : (arena.gens arena.currentEpoch).entryOffsets =
    offsetsFrom (firstOffset arena) (payloadSizes live)
  positive : ∀ entry ∈ live, 0 < entry.size
  handles : live.map Issued.handle =
    (offsetsFrom (firstOffset arena) (payloadSizes live)).map
      (handlePack arena.sessionSeed arena.currentEpoch)
  pastDistinct : (past.map Issued.handle).Nodup
  pastHandles : ∀ entry ∈ past, entry.handle ≠ handleNull ∧
    handleEpoch entry.handle < arena.currentEpoch
  bytes : ∀ (k : Nat) (entry : Issued), live[k]? = some entry →
    ∀ i byte, entry.written i = some byte → i < roundUp entry.size ∧
      (arena.gens arena.currentEpoch).base
        (firstOffset arena + ((payloadSizes live).take k).sum + i) = byte

variable {arena : CompoundArena}

theorem Inv.create {seed defaultGenCap maxEpochs : UInt32} {managed : Bool}
    (created : create seed defaultGenCap maxEpochs managed = some arena) : Inv arena [] [] := by
  unfold Arena.create at created
  split_ifs at created with zero
  cases created
  have masked : seed.toNat &&& 0xFFFFF < 2 ^ 20 := by
    have mask : seed.toNat &&& 0xFFFFF = seed.toNat % 2 ^ 20 := Nat.and_two_pow_sub_one_eq_mod _ 20
    omega
  have positive : 0 < defaultGenCap.toNat := by
    refine Nat.pos_of_ne_zero ?_
    intro none
    exact zero (UInt32.toNat_inj.mp none)
  have epochs : normalizeMaxEpochs maxEpochs ≤ 2 ^ 12 := by
    unfold normalizeMaxEpochs defaultMaxEpochs
    split_ifs <;> omega
  exact
    { seed := masked
      epochs := epochs
      current := Nat.zero_le _
      room := fun some => absurd rfl some
      defaultCap := ⟨positive, defaultGenCap.toNat_lt⟩
      others := fun _ _ => ⟨rfl, rfl⟩
      fits := le_rfl
      capacity := by simp [Gen.empty]
      used := rfl
      offsets := rfl
      positive := nofun
      handles := rfl
      pastDistinct := .nil
      pastHandles := nofun
      bytes := nofun }

section Invariant

variable {arena : CompoundArena} {past live : List Issued}

@[simp] theorem length_payloadSizes : (payloadSizes live).length = live.length := by
  simp [payloadSizes]

theorem roundUp_pos {size : Nat} (positive : 0 < size) : 0 < roundUp size := by
  unfold roundUp
  omega

theorem Inv.sizes_positive (inv : Inv arena past live) :
    ∀ size ∈ payloadSizes live, 0 < size := by
  intro size member
  obtain ⟨entry, inLive, rfl⟩ := mem_map.mp member
  exact roundUp_pos (inv.positive entry inLive)

def payloadStart (arena : CompoundArena) (live : List Issued) (k : Nat) : Nat :=
  firstOffset arena + ((payloadSizes live).take k).sum

variable {k : Nat}

section

variable (inv : Inv arena past live) (inside : k < live.length)

include inv inside

theorem Inv.payload_le :
    payloadStart arena live k + roundUp live[k].size ≤ (arena.gens arena.currentEpoch).used := by
  have bound : k < (payloadSizes live).length := by rwa [length_payloadSizes]
  have := block_le_end (firstOffset arena) bound
  rw [inv.used, if_neg (ne_nil_of_length_pos (Nat.zero_lt_of_lt inside))]
  simpa [payloadSizes, payloadStart] using this

theorem Inv.start_lt :
    payloadStart arena live k < (arena.gens arena.currentEpoch).used ∧
      payloadStart arena live k < 2 ^ 32 := by
  have := inv.payload_le inside
  have := roundUp_pos (inv.positive _ (getElem_mem inside))
  have := inv.fits
  have := inv.capacity arena.currentEpoch
  omega

theorem Inv.epoch_lt : arena.currentEpoch < 2 ^ 12 :=
  (inv.room (ne_nil_of_length_pos (Nat.zero_lt_of_lt inside))).trans_le inv.epochs

theorem Inv.handle_eq :
    live[k].handle = handlePack arena.sessionSeed arena.currentEpoch
      (payloadStart arena live k) := by
  have here := getElem_of_eq inv.handles (by rwa [length_map] : k < _)
  rw [getElem_map, getElem_map, getElem_offsetsFrom] at here
  exact here

theorem Inv.handle_parts :
    handleSession live[k].handle = arena.sessionSeed ∧
      handleEpoch live[k].handle = arena.currentEpoch ∧
      handleOffset live[k].handle = payloadStart arena live k := by
  rw [inv.handle_eq inside]
  have epoch := inv.epoch_lt inside
  have offset := (inv.start_lt inside).2
  exact ⟨handleSession_pack inv.seed epoch offset, handleEpoch_pack inv.seed epoch offset,
    handleOffset_pack inv.seed epoch offset⟩

theorem Inv.handle_ne_null : live[k].handle ≠ handleNull := by
  rw [inv.handle_eq inside, handlePack_eq inv.seed (inv.epoch_lt inside) (inv.start_lt inside).2]
  unfold handleNull payloadStart firstOffset
  split_ifs <;> omega

end

theorem payloads_disjoint (arena : CompoundArena) {i j : Nat} (before : i < j)
    (inI : i < live.length) (inJ : j < live.length) :
    payloadStart arena live i + roundUp live[i].size ≤ payloadStart arena live j := by
  have bound : j < (payloadSizes live).length := by rwa [length_payloadSizes]
  have := offsetsFrom_disjoint (firstOffset arena) before bound
  simpa [payloadStart, payloadSizes] using this

/-- Places in two payloads are the same only if the payloads and the positions in them are. -/
theorem place_inj {j k i m : Nat} (inJ : j < live.length) (inK : k < live.length)
    (withinJ : i < roundUp live[j].size) (withinK : m < roundUp live[k].size)
    (same : payloadStart arena live j + i = payloadStart arena live k + m) : j = k ∧ i = m := by
  rcases Nat.lt_trichotomy j k with before | rfl | after
  · have := payloads_disjoint arena before inJ inK
    omega
  · exact ⟨rfl, by omega⟩
  · have := payloads_disjoint arena after inK inJ
    omega

theorem Inv.handle_inj (inv : Inv arena past live) {j k : Nat} (inJ : j < live.length)
    (inK : k < live.length) (same : live[j].handle = live[k].handle) : j = k := by
  have offsets := congrArg handleOffset same
  rw [(inv.handle_parts inJ).2.2, (inv.handle_parts inK).2.2] at offsets
  exact (place_inj (i := 0) (m := 0) inJ inK (roundUp_pos (inv.positive _ (getElem_mem inJ)))
    (roundUp_pos (inv.positive _ (getElem_mem inK))) offsets).1

theorem Inv.live_distinct (inv : Inv arena past live) : (live.map Issued.handle).Nodup := by
  rw [nodup_iff_injective_getElem]
  intro ⟨i, inI⟩ ⟨j, inJ⟩ same
  simp only [getElem_map] at same
  exact Fin.ext (inv.handle_inj (by simpa using inI) (by simpa using inJ) same)

/-- **The handle of the current generation leads to its payload.** -/
theorem Inv.lookup_live (inv : Inv arena past live) (inside : k < live.length) :
    lookup arena live[k].handle =
      some ⟨arena.currentEpoch, payloadStart arena live k, roundUp live[k].size⟩ := by
  obtain ⟨session, epoch, offset⟩ := inv.handle_parts inside
  have room := inv.room (ne_nil_of_length_pos (Nat.zero_lt_of_lt inside))
  have bound : k < (payloadSizes live).length := by rwa [length_payloadSizes]
  have located : locateEntry arena live[k].handle = some k := by
    rw [locateEntry, if_neg (inv.handle_ne_null inside), session, epoch, offset,
      if_neg (not_not.mpr rfl), if_neg (not_le.mpr room),
      if_neg (not_le.mpr (inv.start_lt inside).1), inv.offsets]
    exact scan_offsetsFrom inv.sizes_positive bound
  have used : (arena.gens arena.currentEpoch).used =
      firstOffset arena + (payloadSizes live).sum := by
    rw [inv.used, if_neg (ne_nil_of_length_pos (Nat.zero_lt_of_lt inside))]
  have start : (offsetsFrom (firstOffset arena) (payloadSizes live)).getD k 0 =
      payloadStart arena live k := by
    rw [getD_eq_getElem _ _ (by rwa [length_offsetsFrom]), getElem_offsetsFrom, payloadStart]
  have size : (payloadSizes live)[k] = roundUp live[k].size := by simp [payloadSizes]
  have next : sub32 (payloadStart arena live k + roundUp live[k].size)
      (payloadStart arena live k) = roundUp live[k].size := by
    rw [sub32, if_pos (Nat.le_add_right _ _), Nat.add_sub_cancel_left]
  simp only [lookup, located, epoch, inv.offsets, used, start, block_end bound, size]
  exact congrArg some (congrArg (Area.mk arena.currentEpoch (payloadStart arena live k)) next)

/-- Only handles of the current generation are found. -/
theorem Inv.lookup_sound (inv : Inv arena past live) {handle : Nat} (small : handle < 2 ^ 64)
    {area : Area} (found : lookup arena handle = some area) :
    ∃ (k : Nat) (inside : k < live.length), live[k].handle = handle ∧
      area = ⟨arena.currentEpoch, payloadStart arena live k, roundUp live[k].size⟩ := by
  have again := found
  unfold lookup at found
  split at found
  · cases found
  rename_i k located
  unfold locateEntry at located
  split_ifs at located with null foreign late unused
  have current : handleEpoch handle = arena.currentEpoch := by
    by_contra other
    rw [(inv.others _ other).1] at unused
    exact unused (Nat.zero_le _)
  rw [current, inv.offsets, List.findIdx?_eq_some_iff_getElem] at located
  obtain ⟨bound, here, -⟩ := located
  rw [getElem_offsetsFrom, beq_iff_eq] at here
  have inside : k < live.length := by simpa using bound
  have same : live[k].handle = handle := by
    rw [inv.handle_eq inside, ← handlePack_parts small, not_not.mp foreign, current, ← here,
      payloadStart]
  rw [← same, inv.lookup_live inside] at again
  exact ⟨k, inside, same, (Option.some.inj again).symm⟩

/-! ## Growth -/

theorem growLoop_spec {used need rounds capacity grown : Nat} (small : capacity < 2 ^ 32)
    (fits : used ≤ capacity) (done : growLoop used need rounds capacity = some grown) :
    used + need ≤ grown ∧ grown < 2 ^ 32 := by
  induction rounds generalizing capacity with
  | zero => cases done
  | succ rounds ih =>
    rw [growLoop] at done
    split_ifs at done with short large
    · unfold uint32Max at large
      exact ih (by omega) (by omega) done
    · have := Option.some.inj done
      omega

theorem growCapacity_spec {current used need defaultCap grown : Nat} (small : current < 2 ^ 32)
    (smallDefault : defaultCap < 2 ^ 32)
    (done : growCapacity current used need defaultCap = some grown) :
    used + need ≤ grown ∧ grown < 2 ^ 32 := by
  unfold growCapacity at done
  simp only at done
  split_ifs at done with some short short
  · exact growLoop_spec small (not_lt.mp short) done
  · exact growLoop_spec smallDefault (not_lt.mp short) done

variable {faults : GrowthFaults} {fresh : Nat → UInt8}

/-- A generation that has grown has room for the bytes, and keeps what it holds. -/
theorem genReserve_spec {managed : Bool} {gen gen' : Gen} {need defaultCap : Nat}
    (fits : gen.used ≤ gen.capacity) (small : gen.capacity < 2 ^ 32)
    (smallDefault : defaultCap < 2 ^ 32)
    (done : genReserve managed faults fresh gen need defaultCap = some gen') :
    gen'.used = gen.used ∧ gen'.entryOffsets = gen.entryOffsets ∧
      gen'.multiplicity = gen.multiplicity ∧ gen.used + need ≤ gen'.capacity ∧
      gen'.capacity < 2 ^ 32 ∧ ∀ i < gen.used, gen'.base i = gen.base i := by
  have free : sub32 gen.capacity gen.used = gen.capacity - gen.used := if_pos fits
  unfold genReserve at done
  simp only at done
  split at done
  · rename_i payloadCap entryCap capacity _
    split_ifs at done
    cases done
    rw [free] at capacity ⊢
    refine ⟨rfl, rfl, rfl, ?_⟩
    by_cases grows : gen.capacity - gen.used < need
    · rw [decide_eq_true grows] at capacity ⊢
      obtain ⟨enough, bounded⟩ := growCapacity_spec small smallDefault capacity
      refine ⟨enough, bounded, ?_⟩
      intro i inUse
      exact if_pos inUse
    · rw [decide_eq_false grows] at capacity ⊢
      cases capacity
      exact ⟨by change gen.used + need ≤ gen.capacity; omega, small, fun _ _ => rfl⟩
  · cases done

/-! ## Allocation -/

/-- An allocation fails and changes nothing, or it puts an entry behind those of the current
generation. -/
theorem alloc_cases (arena : CompoundArena) (size : UInt32) (faults : GrowthFaults)
    (fresh : Nat → UInt8) :
    alloc arena size faults fresh = (handleNull, arena) ∨
      ∃ need gen, size ≠ 0 ∧ arena.currentEpoch < arena.maxEpochs ∧
        reserveNeed arena size = some need ∧
        genReserve arena.managed faults fresh (arena.gens arena.currentEpoch) need
          arena.defaultGenCap = some gen ∧
        alloc arena size faults fresh = publishEntry arena gen (alignUp size.toNat) := by
  generalize result : alloc arena size faults fresh = outcome
  unfold alloc at result
  split_ifs at result with busy refused saturated
  · exact .inl result.symm
  · exact .inl result.symm
  · exact .inl result.symm
  split at result
  · exact .inl result.symm
  rename_i need needed
  split at result
  · exact .inl result.symm
  rename_i gen reserved
  exact .inr ⟨need, gen, fun zero => refused (.inl zero), not_le.mp saturated, needed,
    reserved, result.symm⟩

/-- Nothing is in the other generations, when the current one changes. -/
theorem Inv.others_update (inv : Inv arena past live) (gen : Gen) :
    ∀ epoch ≠ arena.currentEpoch, (update arena.gens arena.currentEpoch gen epoch).used = 0 ∧
      (update arena.gens arena.currentEpoch gen epoch).entryOffsets = [] := by
  intro epoch other
  rw [update_of_ne other]
  exact inv.others epoch other

theorem Inv.capacity_update (inv : Inv arena past live) {gen : Gen}
    (small : gen.capacity < 2 ^ 32) (epoch : Nat) :
    (update arena.gens arena.currentEpoch gen epoch).capacity < 2 ^ 32 :=
  (forall_update_iff arena.gens fun _ (gen : Gen) => gen.capacity < 2 ^ 32).mpr
    ⟨small, fun epoch _ => inv.capacity epoch⟩ epoch

theorem payloadSizes_append (live : List Issued) (entry : Issued) :
    payloadSizes (live ++ [entry]) = payloadSizes live ++ [roundUp entry.size] := by
  simp [payloadSizes]

/-- The next payload starts behind the last one, and the reserved bytes suffice for it. -/
theorem Inv.next_offset (inv : Inv arena past live) {size : UInt32} {need used : Nat}
    (same : used = (arena.gens arena.currentEpoch).used)
    (needed : reserveNeed arena size = some need) :
    (if avoidNullHandle arena then compoundAlign else used) =
        firstOffset arena + (payloadSizes live).sum ∧
      alignUp size.toNat = roundUp size.toNat ∧
      firstOffset arena + (payloadSizes live).sum + roundUp size.toNat ≤ used + need := by
  have used_eq := same.trans inv.used
  have avoid : avoidNullHandle arena = true ↔
      (arena.sessionSeed = 0 ∧ arena.currentEpoch = 0) ∧ used = 0 := by
    rw [same]
    simp [avoidNullHandle]
  unfold reserveNeed at needed
  by_cases large : uint32Max - (compoundAlign - 1) < size.toNat
  · cases (if_pos large).symm.trans needed
  rw [if_neg large] at needed
  have aligned : alignUp size.toNat = roundUp size.toNat := by
    unfold uint32Max compoundAlign at large
    unfold alignUp roundUp compoundAlign
    omega
  split_ifs at needed with null larger
  · -- the generation is empty, and its first payload starts at 8
    obtain ⟨first, zero⟩ := avoid.mp null
    have empty : live = [] := by
      by_contra some
      rw [if_neg some, firstOffset, if_pos first] at used_eq
      omega
    cases needed
    subst empty
    rw [if_pos null, firstOffset, if_pos first, aligned]
    refine ⟨rfl, rfl, ?_⟩
    simp only [payloadSizes, map_nil, sum_nil, compoundAlign]
    omega
  · cases needed
    have offset : used = firstOffset arena + (payloadSizes live).sum := by
      by_cases empty : live = []
      · rw [if_pos empty] at used_eq
        have later : ¬ (arena.sessionSeed = 0 ∧ arena.currentEpoch = 0) :=
          fun first => null (avoid.mpr ⟨first, used_eq⟩)
        rw [used_eq, firstOffset, if_neg later, empty]
        rfl
      · rwa [if_neg empty] at used_eq
    rw [if_neg null]
    exact ⟨offset, aligned, by omega⟩

section Publish

variable (inv : Inv arena past live) {size : UInt32} {need : Nat} {gen : Gen}
  (some : size ≠ 0) (room : arena.currentEpoch < arena.maxEpochs)
  (needed : reserveNeed arena size = .some need)
  (reserved : genReserve arena.managed faults fresh (arena.gens arena.currentEpoch) need
    arena.defaultGenCap = .some gen)

include inv some room needed reserved

/-- **An allocation puts its handle and its payload behind the others.** -/
theorem Inv.publish :
    Inv (publishEntry arena gen (alignUp size.toNat)).2 past
      (live ++ [⟨(publishEntry arena gen (alignUp size.toNat)).1, size.toNat, fun _ => none⟩]) := by
  obtain ⟨used, offsets, -, enough, capacity, bytes⟩ :=
    genReserve_spec inv.fits (inv.capacity _) inv.defaultCap.2 reserved
  obtain ⟨offset, aligned, fits⟩ := inv.next_offset used needed
  have positive : 0 < size.toNat := by
    refine Nat.pos_of_ne_zero ?_
    intro zero
    exact some (UInt32.toNat_inj.mp zero)
  have wrap : (firstOffset arena + (payloadSizes live).sum + roundUp size.toNat) % 2 ^ 32 =
      firstOffset arena + (payloadSizes live).sum + roundUp size.toNat :=
    Nat.mod_eq_of_lt (by omega)
  have published : publishEntry arena gen (alignUp size.toNat) =
      (handlePack arena.sessionSeed arena.currentEpoch
        (firstOffset arena + (payloadSizes live).sum),
      { arena with
        gens := update arena.gens arena.currentEpoch
          (gen.push (firstOffset arena + (payloadSizes live).sum) (roundUp size.toNat))
        liveHandles := (arena.liveHandles + 1) % 2 ^ 64 }) := by
    simp [publishEntry, offset, aligned]
  rw [published]
  exact
    { inv with
      room := fun _ => room
      others := inv.others_update _
      fits := by
        simp only [update_self, Gen.push, wrap]
        omega
      capacity := inv.capacity_update capacity
      used := by
        simp only [update_self, Gen.push, wrap, payloadSizes_append, sum_append, sum_singleton]
        rw [if_neg (by simp), Nat.add_assoc]
        rfl
      offsets := by
        simp only [update_self, Gen.push, payloadSizes_append, offsetsFrom_append,
          offsets, inv.offsets]
        rfl
      positive := by
        intro entry member
        rcases mem_append.mp member with old | new
        · exact inv.positive entry old
        rw [mem_singleton.mp new]
        exact positive
      handles := by
        rw [map_append, inv.handles, payloadSizes_append, offsetsFrom_append, map_append]
        rfl
      bytes := by
        intro k entry found i byte written
        rcases Nat.lt_trichotomy k live.length with old | new | none
        · rw [List.getElem?_append_left old] at found
          obtain ⟨within, same⟩ := inv.bytes k entry found i byte written
          refine ⟨within, ?_⟩
          have start (entry : Issued) : ((payloadSizes (live ++ [entry])).take k).sum =
              ((payloadSizes live).take k).sum := by
            rw [payloadSizes_append, take_append_of_le_length]
            rw [length_payloadSizes]
            exact old.le
          have inUse : payloadStart arena live k + i < (arena.gens arena.currentEpoch).used := by
            have := inv.payload_le old
            rw [List.getElem?_eq_getElem old] at found
            rw [Option.some.inj found] at this
            omega
          simp only [update_self, Gen.push, start]
          exact (bytes _ inUse).trans same
        · subst new
          rw [List.getElem?_append_right le_rfl, Nat.sub_self] at found
          rw [← Option.some.inj found] at written
          cases written
        · rw [List.getElem?_eq_none (by simp; omega)] at found
          cases found }

theorem Inv.published_ne_null :
    (publishEntry arena gen (alignUp size.toNat)).1 ≠ handleNull := by
  have next := inv.publish some room needed reserved
  have inside : live.length < (live ++ [(⟨(publishEntry arena gen (alignUp size.toNat)).1,
      size.toNat, fun _ => none⟩ : Issued)]).length := by simp
  have notNull := next.handle_ne_null inside
  rwa [getElem_concat_length rfl] at notNull

end Publish

/-! ## The other operations -/

section

variable (inv : Inv arena past live)

include inv

/-- What does not touch payloads and offsets keeps the invariant. -/
theorem Inv.congr {gens : Nat → Gen}
    (same : ∀ epoch, (gens epoch).used = (arena.gens epoch).used ∧
      (gens epoch).entryOffsets = (arena.gens epoch).entryOffsets ∧
      (gens epoch).capacity = (arena.gens epoch).capacity ∧
      (gens epoch).base = (arena.gens epoch).base) : Inv { arena with gens := gens } past live := by
  obtain ⟨used, offsets, capacity, base⟩ := same arena.currentEpoch
  exact
    { inv with
      others := fun epoch other =>
        ⟨(same epoch).1.trans (inv.others epoch other).1,
          (same epoch).2.1.trans (inv.others epoch other).2⟩
      fits := used.trans_le (inv.fits.trans capacity.ge)
      capacity := fun epoch => (same epoch).2.2.1.trans_lt (inv.capacity epoch)
      used := used.trans inv.used
      offsets := offsets.trans inv.offsets
      bytes := by
        intro k entry found i byte written
        rw [base]
        exact inv.bytes k entry found i byte written }

theorem Inv.retain (handle : Nat) (delta : Int) : Inv (retain arena handle delta) past live := by
  unfold Arena.retain
  split_ifs
  · exact inv
  · exact inv
  split
  · exact inv
  rename_i i located
  refine { inv.congr ?_ with }
  intro epoch
  by_cases here : epoch = handleEpoch handle
  · subst here
    simp
  · simp [update_of_ne here]

theorem Inv.mem_live {entry : Issued} (member : entry ∈ live) :
    entry.handle ≠ handleNull ∧ handleEpoch entry.handle = arena.currentEpoch := by
  obtain ⟨k, inside, rfl⟩ := getElem_of_mem member
  exact ⟨inv.handle_ne_null inside, (inv.handle_parts inside).2.1⟩

theorem Inv.distinct : ((past ++ live).map Issued.handle).Nodup := by
  rw [map_append]
  refine nodup_append.mpr ⟨inv.pastDistinct, inv.live_distinct, ?_⟩
  intro a inPast b inLive same
  obtain ⟨old, memberOld, rfl⟩ := mem_map.mp inPast
  obtain ⟨new, memberNew, rfl⟩ := mem_map.mp inLive
  have before := (inv.pastHandles old memberOld).2
  rw [same, (inv.mem_live memberNew).2] at before
  exact lt_irrefl _ before

/-- The current generation is emptied, and a later one is used. -/
theorem Inv.close {next : Nat} (later : arena.currentEpoch < next)
    (inside : next ≤ arena.maxEpochs) :
    Inv
      { arena with
        gens := update arena.gens arena.currentEpoch
          { arena.gens arena.currentEpoch with
            used := 0, entryOffsets := [], multiplicity := [] }
        currentEpoch := next } (past ++ live) [] := by
  have fresh := inv.others next later.ne'
  exact
    { inv with
      current := inside
      room := fun some => absurd rfl some
      others := fun epoch _ => (forall_update_iff arena.gens fun _ (gen : Gen) =>
        gen.used = 0 ∧ gen.entryOffsets = []).mpr ⟨⟨rfl, rfl⟩, inv.others⟩ epoch
      fits := by
        simp only [update_of_ne later.ne', fresh.1]
        exact Nat.zero_le _
      capacity := inv.capacity_update (inv.capacity _)
      used := by
        simp [update_of_ne later.ne', fresh.1]
      offsets := by
        simp only [update_of_ne later.ne', fresh.2]
        rfl
      positive := nofun
      handles := rfl
      pastDistinct := inv.distinct
      pastHandles := by
        intro entry member
        rcases mem_append.mp member with old | new
        · exact ⟨(inv.pastHandles entry old).1, (inv.pastHandles entry old).2.trans later⟩
        obtain ⟨some, epoch⟩ := inv.mem_live new
        exact ⟨some, epoch.trans_lt later⟩
      bytes := nofun }

/-- **A collection closes the current generation.** -/
theorem Inv.gcEpochBoundary :
    ∃ past' live', past' ++ live' = past ++ live ∧ Inv (gcEpochBoundary arena) past' live' := by
  unfold Arena.gcEpochBoundary
  split_ifs with busy saturated frozen more
  · exact ⟨past, live, rfl, inv⟩
  · exact ⟨past, live, rfl, inv⟩
  · exact ⟨past, live, rfl, inv⟩
  · exact ⟨past ++ live, [], append_nil _, inv.close (Nat.lt_succ_self _) more.le⟩
  · exact ⟨past ++ live, [], append_nil _, inv.close (not_le.mp saturated) le_rfl⟩

end

variable (handle i : Nat)

variable (byte : UInt8)

theorem Issued.note_handle (entry : Issued) : (entry.note handle i byte).handle = entry.handle := by
  unfold Issued.note
  split_ifs <;> rfl

theorem Issued.note_size (entry : Issued) : (entry.note handle i byte).size = entry.size := by
  unfold Issued.note
  split_ifs <;> rfl

theorem map_note_handle (issued : List Issued) :
    (issued.map (Issued.note handle i byte)).map Issued.handle = issued.map Issued.handle := by
  rw [map_map]
  exact map_congr_left fun entry _ => entry.note_handle handle i byte

theorem payloadSizes_note (issued : List Issued) :
    payloadSizes (issued.map (Issued.note handle i byte)) = payloadSizes issued := by
  unfold payloadSizes
  rw [map_map]
  refine map_congr_left ?_
  intro entry _
  rw [comp_apply, Issued.note_size]

/-- **A byte written to a payload changes this payload only.** -/
theorem Inv.write (inv : Inv arena past live) {k i : Nat} (inside : k < live.length)
    (within : i < roundUp live[k].size) (byte : UInt8) :
    Inv
      { arena with
        gens := update arena.gens arena.currentEpoch
          { arena.gens arena.currentEpoch with
            base := update (arena.gens arena.currentEpoch).base
              (payloadStart arena live k + i) byte } }
      (past.map (Issued.note live[k].handle i byte))
      (live.map (Issued.note live[k].handle i byte)) := by
  have sizes := payloadSizes_note live[k].handle i byte live
  exact
    { inv with
      room := fun some => inv.room fun none => some (map_eq_nil_iff.mpr none)
      others := inv.others_update _
      fits := by
        simp only [update_self]
        exact inv.fits
      capacity := inv.capacity_update (inv.capacity _)
      used := by
        simp only [update_self, sizes, map_eq_nil_iff]
        exact inv.used
      offsets := by
        simp only [update_self, sizes]
        exact inv.offsets
      positive := by
        intro entry member
        obtain ⟨old, inLive, rfl⟩ := mem_map.mp member
        rw [Issued.note_size]
        exact inv.positive old inLive
      handles := by
        rw [map_note_handle, sizes]
        exact inv.handles
      pastDistinct := by
        rw [map_note_handle]
        exact inv.pastDistinct
      pastHandles := by
        intro entry member
        obtain ⟨old, inPast, rfl⟩ := mem_map.mp member
        rw [Issued.note_handle]
        exact inv.pastHandles old inPast
      bytes := by
        intro j entry found m value written
        rw [List.getElem?_map, Option.map_eq_some_iff] at found
        obtain ⟨old, here, rfl⟩ := found
        obtain ⟨inJ, rfl⟩ := List.getElem?_eq_some_iff.mp here
        rw [Issued.note_size]
        simp only [update_self, sizes]
        change m < roundUp live[j].size ∧ update (arena.gens arena.currentEpoch).base
          (payloadStart arena live k + i) byte (payloadStart arena live j + m) = value
        by_cases written' : live[j].handle = live[k].handle ∧ m = i
        · -- the byte itself
          obtain ⟨sameHandle, rfl⟩ := written'
          obtain rfl := inv.handle_inj inJ inside sameHandle
          rw [Issued.note, if_pos rfl] at written
          simp only [update_self, Option.some.injEq] at written
          rw [update_self]
          exact ⟨within, written⟩
        · have before : live[j].written m = some value := by
            rw [Issued.note] at written
            split_ifs at written with sameHandle
            · have other : m ≠ i := fun same => written' ⟨sameHandle, same⟩
              simpa [update_of_ne other] using written
            · exact written
          obtain ⟨inPayload, kept⟩ := inv.bytes j live[j] here m value before
          refine ⟨inPayload, ?_⟩
          rw [update_of_ne]
          · exact kept
          · intro same
            obtain ⟨rfl, rfl⟩ := place_inj inJ inside inPayload within same
            exact written' ⟨rfl, rfl⟩ }

end Invariant

/-! ## Runs -/

/-- The arena of a history keeps the invariant for its ledger. -/
def History.Sound (history : History) : Prop :=
  ∃ past live, history.issued = past ++ live ∧ Inv history.arena past live

variable {history : History}

theorem History.Sound.alloc (sound : history.Sound) (size : UInt32) (faults : GrowthFaults)
    (fresh : Nat → UInt8) : (step history (.alloc size faults fresh)).Sound := by
  obtain ⟨past, live, split, inv⟩ := sound
  rcases alloc_cases history.arena size faults fresh with
    failed | ⟨need, gen, some, room, needed, reserved, published⟩
  · refine ⟨past, live, ?_, ?_⟩
    · simp [step, failed, split]
    · simp only [step, failed]
      exact inv
  · have notNull := inv.published_ne_null some room needed reserved
    refine ⟨past, live ++ [⟨(publishEntry history.arena gen (alignUp size.toNat)).1, size.toNat,
      fun _ => none⟩], ?_, ?_⟩
    · simp [Arena.step, published, if_neg notNull, split]
    · simp only [Arena.step, published]
      exact inv.publish some room needed reserved

theorem History.Sound.write (sound : history.Sound) (handle : UInt64) (i : Nat) (byte : UInt8) :
    (step history (.write handle i byte)).Sound := by
  obtain ⟨past, live, split, inv⟩ := sound
  cases found : lookup history.arena handle.toNat with
  | none =>
    refine ⟨past, live, ?_, ?_⟩
    · simp [step, found, split]
    · simp only [Arena.step, Arena.write, found]
      exact inv
  | some area =>
    by_cases within : i < area.size
    · obtain ⟨k, inside, same, rfl⟩ := inv.lookup_sound handle.toNat_lt found
      refine ⟨past.map (Issued.note handle.toNat i byte),
        live.map (Issued.note handle.toNat i byte), ?_, ?_⟩
      · simp [step, found, decide_eq_true within, split]
      · simp only [step, Arena.write, found, if_pos within]
        rw [← same]
        exact inv.write inside within byte
    · refine ⟨past, live, ?_, ?_⟩
      · simp [step, found, decide_eq_false within, split]
      · simp only [step, Arena.write, found, if_neg within]
        exact inv

theorem History.Sound.step (sound : history.Sound) (operation : Operation) :
    (step history operation).Sound := by
  cases operation with
  | alloc size faults fresh => exact sound.alloc size faults fresh
  | write handle i byte => exact sound.write handle i byte
  | retain handle delta =>
    obtain ⟨past, live, split, inv⟩ := sound
    exact ⟨past, live, split, inv.retain handle.toNat delta⟩
  | gcEpochBoundary =>
    obtain ⟨past, live, split, inv⟩ := sound
    obtain ⟨past', live', same, next⟩ := inv.gcEpochBoundary
    exact ⟨past', live', split.trans same.symm, next⟩
  | setFrozen frozen | borrow | borrowRelease =>
    obtain ⟨past, live, split, inv⟩ := sound
    refine ⟨past, live, split, ?_⟩
    simp only [Arena.step, setFrozen, borrow, borrowRelease]
    split_ifs
    · exact inv
    · exact { inv with }

theorem run_sound (inv : Inv arena [] []) (operations : List Operation) :
    (run arena operations).Sound := by
  have all : ∀ history : History, history.Sound → (operations.foldl step history).Sound := by
    induction operations with
    | nil => exact fun history sound => sound
    | cons operation rest ih => exact fun history sound => ih _ (sound.step operation)
  exact all _ ⟨[], [], rfl, inv⟩

/-! ## The handles of a run -/

/-- The generation of an epoch was collected: the current epoch has gone past it. -/
def CompoundArena.Collected (arena : CompoundArena) (epoch : Nat) : Prop :=
  epoch < arena.currentEpoch

/-- Two areas share no byte. -/
def Area.Disjoint (a b : Area) : Prop :=
  a.epoch ≠ b.epoch ∨ a.offset + a.size ≤ b.offset ∨ b.offset + b.size ≤ a.offset

/-- What the ledger promises about a handle: it leads to an area of the size that was asked for,
rounded up, inside the buffer, which holds the bytes written. -/
def Issued.Kept (entry : Issued) (arena : CompoundArena) : Prop :=
  ∃ area, lookup arena entry.handle = some area ∧ area.size = roundUp entry.size ∧
    area.offset + area.size ≤ (arena.gens area.epoch).capacity ∧
    ∀ i byte, entry.written i = some byte → i < area.size ∧ arena.read area i = byte

/-- A handle whose generation was not collected is one of the current generation. -/
theorem Inv.position {past live : List Issued} (inv : Inv arena past live) {entry : Issued}
    (member : entry ∈ past ++ live) (kept : ¬ arena.Collected (handleEpoch entry.handle)) :
    ∃ (k : Nat) (_ : k < live.length), live[k] = entry := by
  rcases mem_append.mp member with old | new
  · exact absurd (inv.pastHandles entry old).2 kept
  · exact getElem_of_mem new

/-- **Handles and payloads, over every run of an arena.** -/
theorem compound_arena_handles {seed defaultGenCap maxEpochs : UInt32} {managed : Bool}
    {arena : CompoundArena} (created : create seed defaultGenCap maxEpochs managed = some arena)
    (operations : List Operation) :
    (∀ entry ∈ (run arena operations).issued, entry.handle ≠ handleNull) ∧
    ((run arena operations).issued.map Issued.handle).Nodup ∧
    (∀ entry ∈ (run arena operations).issued,
      ¬ (run arena operations).arena.Collected (handleEpoch entry.handle) →
        entry.Kept (run arena operations).arena) ∧
    (∀ entry ∈ (run arena operations).issued, ∀ other ∈ (run arena operations).issued,
      entry.handle ≠ other.handle →
      ¬ (run arena operations).arena.Collected (handleEpoch entry.handle) →
      ¬ (run arena operations).arena.Collected (handleEpoch other.handle) →
      ∀ a ∈ lookup (run arena operations).arena entry.handle,
      ∀ b ∈ lookup (run arena operations).arena other.handle, a.Disjoint b) ∧
    (∀ size faults fresh,
      (alloc (run arena operations).arena size faults fresh).1 = handleNull →
        (alloc (run arena operations).arena size faults fresh).2 =
          (run arena operations).arena) := by
  obtain ⟨past, live, split, inv⟩ := run_sound (.create created) operations
  generalize run arena operations = history at *
  rw [split]
  refine ⟨?_, inv.distinct, ?_, ?_, ?_⟩
  · intro entry member
    rcases mem_append.mp member with old | new
    · exact (inv.pastHandles entry old).1
    · exact (inv.mem_live new).1
  · intro entry member kept
    obtain ⟨k, inside, rfl⟩ := inv.position member kept
    refine ⟨_, inv.lookup_live inside, rfl, (inv.payload_le inside).trans inv.fits, ?_⟩
    intro i byte written
    exact inv.bytes k live[k] (List.getElem?_eq_getElem inside) i byte written
  · intro entry member other member' apart kept kept' a found b found'
    obtain ⟨j, inJ, rfl⟩ := inv.position member kept
    obtain ⟨k, inK, rfl⟩ := inv.position member' kept'
    obtain rfl := Option.some.inj ((inv.lookup_live inJ).symm.trans found)
    obtain rfl := Option.some.inj ((inv.lookup_live inK).symm.trans found')
    rcases Nat.lt_trichotomy j k with before | rfl | after
    · exact .inr (.inl (payloads_disjoint _ before inJ inK))
    · exact absurd rfl apart
    · exact .inr (.inr (payloads_disjoint _ after inK inJ))
  · intro size faults fresh null
    rcases alloc_cases history.arena size faults fresh with
      failed | ⟨need, gen, some, room, needed, reserved, published⟩
    · rw [failed]
    rw [published] at null
    exact absurd null (inv.published_ne_null some room needed reserved)

/-- No step of the growth of a generation fails. -/
def noFaults : GrowthFaults :=
  ⟨false, false, false, false, false, false, false, false, false, false, false⟩

/-- With the seed 0 the first of two payloads starts at 8. -/
theorem compound_arena_handles_of_seed_zero :
    ∃ arena, create 0 16 1 false = some arena ∧
      (run arena [.alloc 5 noFaults fun _ => 0, .alloc 9 noFaults fun _ => 0]).issued.map
        Issued.handle = [8, 16] ∧
      ((run arena [.alloc 5 noFaults fun _ => 0, .alloc 9 noFaults fun _ => 0]).issued.map
        Issued.handle).Nodup :=
  ⟨_, rfl, by decide +kernel, (compound_arena_handles (rfl : create 0 16 1 false = _) _).2.1⟩

end Wirelog.Arena

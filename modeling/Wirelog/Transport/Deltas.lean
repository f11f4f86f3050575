import Mathlib

/-!
# Delta messages

Workers hand the deltas they produce to the coordinator as messages, each with the address of a
relation and with its place in the matrix of workers and relations. A model of
`tdd_reconstruct_delta_matrix_with_destroyer` (`eval_tdd_queue.c`), which rebuilds that matrix from
a list of messages. Messages may be malformed: out of range, without a payload, aimed at one slot,
or naming one payload several times.

**Every payload ends in one slot of the matrix or is destroyed once** (`deltaMatrix_owns`).
-/

set_option autoImplicit false

namespace Wirelog.Transport

open Function List

/-- `wl_delta_msg_t`: the payload is the address of a relation, or null. -/
structure DeltaMsg where
  delta : Option Nat
  workerId : Nat
  relIdx : Nat
  deriving DecidableEq

/-! ## Rebuilding the matrix -/

/-- The slots `ctxs[w].delta_rels[ri]`. -/
abbrev DeltaMatrix := Nat × Nat → Option Nat

variable (numWorkers nrels : Nat)

variable (matrix : DeltaMatrix)

/-- `tdd_matrix_contains_payload`. -/
def matrixContainsPayload (payload : Nat) : Bool :=
  (range numWorkers).any fun w => (range nrels).any fun ri => matrix (w, ri) == some payload

/-- The first loop: a message writes its slot, unless its payload has an owner. -/
def placeMsg (msg : DeltaMsg) : DeltaMatrix :=
  match msg.delta with
  | none => matrix
  | some payload =>
    if numWorkers ≤ msg.workerId ∨ nrels ≤ msg.relIdx then matrix
    else if matrixContainsPayload numWorkers nrels matrix payload then matrix
    else update matrix (msg.workerId, msg.relIdx) (some payload)

/-- The second loop: the payloads that it destroys, in order. `earlier` are the messages before. -/
def destroyRejected : List DeltaMsg → List DeltaMsg → List Nat
  | _, [] => []
  | earlier, msg :: rest =>
    let later := destroyRejected (earlier ++ [msg]) rest
    match msg.delta with
    | none => later
    | some payload =>
      if matrixContainsPayload numWorkers nrels matrix payload then later
      else if earlier.any (·.delta == some payload) then later
      else payload :: later

/-- `tdd_reconstruct_delta_matrix_with_destroyer`, from an empty matrix: the matrix, and the
payloads that were destroyed. -/
def reconstructDeltaMatrix (msgs : List DeltaMsg) : DeltaMatrix × List Nat :=
  let matrix := msgs.foldl (placeMsg numWorkers nrels) fun _ => none
  (matrix, destroyRejected numWorkers nrels matrix [] msgs)

/-! ## Owners -/

/-- The matrix is empty outside its bounds, no payload has two slots, and every payload comes from
a message. -/
structure Owns (numWorkers nrels : Nat) (msgs : List DeltaMsg) (matrix : DeltaMatrix) : Prop where
  inside : ∀ w ri payload, matrix (w, ri) = some payload → w < numWorkers ∧ ri < nrels
  unique : ∀ slot slot' payload, matrix slot = some payload → matrix slot' = some payload →
    slot = slot'
  named : ∀ slot payload, matrix slot = some payload → ∃ msg ∈ msgs, msg.delta = some payload

section Owners

variable {numWorkers nrels : Nat} {matrix : DeltaMatrix} {msgs : List DeltaMsg}

section

variable (owns : Owns numWorkers nrels msgs matrix)

include owns

theorem Owns.contains_iff (payload : Nat) :
    matrixContainsPayload numWorkers nrels matrix payload = true ↔
      ∃ slot, matrix slot = some payload := by
  simp only [matrixContainsPayload, any_eq_true, mem_range, beq_iff_eq]
  constructor
  · rintro ⟨w, -, ri, -, here⟩
    exact ⟨(w, ri), here⟩
  · rintro ⟨⟨w, ri⟩, here⟩
    obtain ⟨worker, relation⟩ := owns.inside w ri payload here
    exact ⟨w, worker, ri, relation, here⟩

theorem Owns.place (msg : DeltaMsg) :
    Owns numWorkers nrels (msgs ++ [msg]) (placeMsg numWorkers nrels matrix msg) := by
  have kept : Owns numWorkers nrels (msgs ++ [msg]) matrix :=
    ⟨owns.inside, owns.unique, fun slot payload here => by
      obtain ⟨other, member, same⟩ := owns.named slot payload here
      exact ⟨other, mem_append_left _ member, same⟩⟩
  unfold placeMsg
  split
  · exact kept
  rename_i payload same
  split_ifs with outside owned
  · exact kept
  · exact kept
  rw [owns.contains_iff, not_exists] at owned
  refine ⟨?_, ?_, ?_⟩
  · intro w ri other here
    rw [update_apply] at here
    split_ifs at here with written
    · obtain ⟨rfl, rfl⟩ := Prod.mk.inj written
      omega
    · exact owns.inside w ri other here
  · intro slot slot' other here here'
    rw [update_apply] at here here'
    split_ifs at here here' with written written' written'
    · rw [written, written']
    · exact absurd (here'.trans here.symm) (owned slot')
    · exact absurd (here.trans here'.symm) (owned slot)
    · exact owns.unique slot slot' other here here'
  · intro slot other here
    rw [update_apply] at here
    split_ifs at here with written
    · exact ⟨msg, by simp, same.trans here⟩
    · exact kept.named slot other here

theorem Owns.placeAll (more : List DeltaMsg) :
    Owns numWorkers nrels (msgs ++ more) (more.foldl (placeMsg numWorkers nrels) matrix) := by
  induction more generalizing msgs matrix with
  | nil => simpa using owns
  | cons msg rest ih => simpa using ih (owns.place msg)

/-- The payloads without an owner are destroyed at their first mention. -/
theorem Owns.mem_destroyed {payload : Nat} {rest : List DeltaMsg} : ∀ earlier : List DeltaMsg,
    payload ∈ destroyRejected numWorkers nrels matrix earlier rest ↔
      (∀ slot, matrix slot ≠ some payload) ∧ (∀ msg ∈ earlier, msg.delta ≠ some payload) ∧
        ∃ msg ∈ rest, msg.delta = some payload := by
  induction rest with
  | nil => simp [destroyRejected]
  | cons msg rest ih =>
    intro earlier
    have later := ih (earlier ++ [msg])
    simp only [forall_mem_append, forall_mem_singleton] at later
    rw [destroyRejected, exists_mem_cons_iff]
    cases same : msg.delta with
    | none => simpa [same] using later
    | some other =>
      have owned := owns.contains_iff other
      by_cases equal : payload = other
      · subst equal
        have absent : payload ∉ destroyRejected numWorkers nrels matrix (earlier ++ [msg]) rest :=
          fun member => (later.mp member).2.1.2 same
        simp only [true_or, and_true]
        split_ifs with contained seen
        · obtain ⟨slot, here⟩ := owned.mp contained
          exact iff_of_false absent fun free => free.1 slot here
        · obtain ⟨first, member, named⟩ := any_eq_true.mp seen
          exact iff_of_false absent fun free => free.2 first member (beq_iff_eq.mp named)
        · refine iff_of_true mem_cons_self ⟨fun slot here => contained (owned.mpr ⟨slot, here⟩), ?_⟩
          exact fun first member named => seen (any_eq_true.mpr ⟨first, member, by simp [named]⟩)
      · have skip {others : List Nat} : payload ∈ other :: others ↔ payload ∈ others := by
          simp [equal]
        have apart : ¬ some other = some payload := fun named => equal (Option.some.inj named).symm
        simp only [same, apart, false_or, not_false_eq_true, and_true, ne_eq] at later ⊢
        split_ifs
        · exact later
        · exact later
        · exact skip.trans later

theorem Owns.nodup_destroyed {rest : List DeltaMsg} :
    ∀ earlier, (destroyRejected numWorkers nrels matrix earlier rest).Nodup := by
  induction rest with
  | nil => exact fun _ => nodup_nil
  | cons msg rest ih =>
    intro earlier
    have later := ih (earlier ++ [msg])
    rw [destroyRejected]
    cases same : msg.delta with
    | none => exact later
    | some payload =>
      dsimp only
      split_ifs
      · exact later
      · exact later
      refine nodup_cons.mpr ⟨fun member => ?_, later⟩
      exact ((owns.mem_destroyed _).mp member).2.1 msg (by simp) same

end

end Owners

/-- **Every payload is owned by exactly one slot or destroyed exactly once**, and no slot holds a
payload that was destroyed. -/
theorem deltaMatrix_owns (numWorkers nrels : Nat) (msgs : List DeltaMsg) :
    let result := reconstructDeltaMatrix numWorkers nrels msgs
    (∀ payload, (∃ msg ∈ msgs, msg.delta = some payload) →
      (∃! slot, result.1 slot = some payload) ∧ payload ∉ result.2 ∨
        (∀ slot, result.1 slot ≠ some payload) ∧ result.2.count payload = 1) ∧
    (∀ payload ∈ result.2, ∃ msg ∈ msgs, msg.delta = some payload) ∧
    ∀ w ri payload, result.1 (w, ri) = some payload → w < numWorkers ∧ ri < nrels ∧
      payload ∉ result.2 ∧ ∃ msg ∈ msgs, msg.delta = some payload := by
  intro result
  have empty : Owns numWorkers nrels [] fun _ => none := ⟨nofun, nofun, nofun⟩
  have owns : Owns numWorkers nrels msgs result.1 := empty.placeAll msgs
  have destroyed : ∀ payload, payload ∈ result.2 ↔ _ := fun _ => owns.mem_destroyed []
  refine ⟨?_, fun payload member => ((destroyed payload).mp member).2.2, ?_⟩
  · intro payload named
    by_cases owned : ∃ slot, result.1 slot = some payload
    · obtain ⟨slot, here⟩ := owned
      refine .inl ⟨⟨slot, here, fun other there => owns.unique other slot payload there here⟩, ?_⟩
      exact fun member => ((destroyed payload).mp member).1 slot here
    · rw [not_exists] at owned
      exact .inr ⟨owned, count_eq_one_of_mem (owns.nodup_destroyed [])
        ((destroyed payload).mpr ⟨owned, nofun, named⟩)⟩
  · intro w ri payload here
    obtain ⟨worker, relation⟩ := owns.inside w ri payload here
    exact ⟨worker, relation, fun member => ((destroyed payload).mp member).1 (w, ri) here,
      owns.named _ payload here⟩

end Wirelog.Transport

import Wirelog.Memory.Governor

/-!
# Reservations of one thread

The operations on tokens as one thread sees them that shares its tokens with nobody: each
operation is one change of the governor's counter and of the tokens. What a reservation
charges, its release returns (`release_committed`).
-/

set_option autoImplicit false

namespace Wirelog.Memory

/-! ## Sizes -/

/-- `wl_columnar_memory_size_add`. -/
def sizeAdd (left right : Nat) : Option Nat :=
  if left > uint64Max - right then none else some (left + right)

/-- `wl_columnar_memory_size_mul`. -/
def sizeMul (left right : Nat) : Option Nat :=
  if left ≠ 0 ∧ right > uint64Max / left then none else some (left * right)

/-! ## Operations -/

/-- The limit of a governor and the bytes reserved with it. -/
structure Governor where
  usableBytes : Nat
  reservedBytes : Nat
  deriving DecidableEq, Repr

variable (g : Governor)

/-- `wl_columnar_memory_reserve_checked`. -/
def reserveChecked (bytes : Nat) (token : Token Unit) : Bool × Governor × Token Unit :=
  if bytes = 0 then (false, g, token)
  else if token.state ≠ .empty ∧ token.state ≠ .released then (false, g, token)
  else if uint64Max - g.reservedBytes < bytes ∨ g.usableBytes < g.reservedBytes + bytes then
    (false, g, ⟨some (), bytes, 0, .released⟩)
  else
    (true, { g with reservedBytes := g.reservedBytes + bytes }, ⟨some (), bytes, 0, .reserved⟩)

/-- `wl_columnar_memory_reserve_growth`. -/
def reserveGrowth (oldBytes newBytes : Nat) (token : Token Unit) : Bool × Governor × Token Unit :=
  if newBytes < oldBytes then (false, g, token)
  else match token.state with
  | .reserved | .committed => (false, g, token)
  | .empty | .released => reserveChecked g newBytes token
  | .claimed | .committing | .transferring =>
    if newBytes = oldBytes then (false, g, token) else reserveChecked g newBytes token

variable (token : Token Unit)

/-- `wl_columnar_memory_commit`. -/
def commit (owner : Nat) : Bool × Token Unit :=
  if token.state = .reserved then (true, { token with ownerBits := owner, state := .committed })
  else (false, token)

/-- `wl_columnar_memory_reservation_move`. -/
def reservationMove (destination source : Token Unit) : Bool × Token Unit × Token Unit :=
  if destination.state ≠ .empty ∧ destination.state ≠ .released then
    (false, destination, source)
  else if source.state ≠ .reserved ∧ source.state ≠ .committed then
    (false, destination, source)
  else (true, source, .init Unit)

/-- The end of `finish_reservation`, after the token was claimed. -/
def returnBytes : Bool × Governor × Token Unit :=
  if token.bytes > g.reservedBytes then (false, g, { token with state := .released })
  else (true, { g with reservedBytes := g.reservedBytes - token.bytes },
    { token with state := .released })

/-- `wl_columnar_memory_rollback`. -/
def rollback : Bool × Governor × Token Unit :=
  if token.governor = none ∨ token.bytes = 0 ∨ token.state ≠ .reserved then (false, g, token)
  else returnBytes g token

/-- `wl_columnar_memory_release`. A failed first attempt is followed by a rollback. -/
def release : Bool × Governor × Token Unit :=
  if token.governor = none ∨ token.bytes = 0 ∨
      token.state ≠ .reserved ∧ token.state ≠ .committed then rollback g token
  else match returnBytes g token with
  | (true, g, token) => (true, g, token)
  | (false, g, token) => rollback g token

/-! ## What they do to the counter -/

section Counter

variable {g g' : Governor} {token token' : Token Unit} {oldBytes newBytes bytes : Nat}

/-- A refused reservation leaves the counter as it is. -/
theorem reserveChecked_failed (failed : (reserveChecked g bytes token).1 = false) :
    (reserveChecked g bytes token).2.1 = g := by
  unfold reserveChecked at failed ⊢
  split
  · rfl
  split
  · rfl
  split
  · rfl
  · simp_all

theorem reserveGrowth_failed (failed : (reserveGrowth g oldBytes newBytes token).1 = false) :
    (reserveGrowth g oldBytes newBytes token).2.1 = g := by
  unfold reserveGrowth at failed ⊢
  split
  · rfl
  rename_i grows
  rw [if_neg grows] at failed
  cases state : token.state <;> simp only [state] at failed ⊢
  all_goals first
    | rfl
    | exact reserveChecked_failed failed
    | (split at failed
       · rw [if_pos ‹_›]
       · rw [if_neg ‹_›]
         exact reserveChecked_failed failed)

/-- An admitted reservation with a new token charges its bytes. -/
theorem reserveChecked_admitted
    (admitted : reserveChecked g bytes (.init Unit) = (true, g', token')) :
    0 < bytes ∧ g' = { g with reservedBytes := g.reservedBytes + bytes } ∧
      token' = ⟨some (), bytes, 0, .reserved⟩ := by
  unfold reserveChecked at admitted
  split at admitted
  · simp at admitted
  split at admitted
  · simp at admitted
  split at admitted
  · simp at admitted
  simp only [Prod.mk.injEq, true_and] at admitted
  exact ⟨by omega, admitted.1.symm, admitted.2.symm⟩

theorem reserveGrowth_admitted
    (admitted : reserveGrowth g oldBytes newBytes (.init Unit) = (true, g', token')) :
    0 < newBytes ∧ g' = { g with reservedBytes := g.reservedBytes + newBytes } ∧
      token' = ⟨some (), newBytes, 0, .reserved⟩ := by
  unfold reserveGrowth at admitted
  split at admitted
  · simp at admitted
  · exact reserveChecked_admitted admitted

theorem release_committed {owner : Nat} (positive : 0 < bytes)
    (held : bytes ≤ g.reservedBytes) :
    (release g ⟨some (), bytes, owner, .committed⟩).2 =
      ({ g with reservedBytes := g.reservedBytes - bytes },
        ⟨some (), bytes, owner, .released⟩) := by
  have some : ¬ (bytes = 0) := by omega
  have enough : ¬ (g.reservedBytes < bytes) := by omega
  simp [release, returnBytes, some, enough]

end Counter

end Wirelog.Memory

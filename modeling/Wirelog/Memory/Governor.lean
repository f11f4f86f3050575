import Wirelog.Foundations.Interleaving

/-!
# The memory governor

A governor counts the bytes that are reserved with it, up to a usable limit. Reservations are
tokens: reserving claims an empty or released token, charges the governor and publishes the
token; rolling back or releasing claims the token and returns its bytes. Every operation is a
sequence of atomic accesses to the token and to the counter, and the accesses of different
threads interleave in any order. A weak compare-and-exchange may fail for no reason.

The limit of a governor does not change after it was set up. Whether a refused reservation
was an overflow or exceeded the limit, and whether an admitted one was only advisory, is the
caller's business and left out.
-/

set_option autoImplicit false

namespace Wirelog.Memory

open Wirelog.Foundations

/-! ## Tokens -/

/-- `wl_columnar_memory_reservation_state_t`. -/
inductive TokenState where
  | empty | reserved | committed | released | claimed | committing | transferring
  deriving DecidableEq, Repr

/-- `wl_columnar_memory_reservation_t`. The identity of a token is its own name. -/
structure Token (G : Type) where
  governor : Option G
  bytes : Nat
  ownerBits : Nat
  state : TokenState

/-- `wl_columnar_memory_reservation_init`. -/
def Token.init (G : Type) : Token G := ⟨none, 0, 0, .empty⟩

/-- A token in this state holds bytes of its governor. -/
def TokenState.live : TokenState → Bool
  | .reserved | .committed | .committing | .transferring => true
  | .empty | .released | .claimed => false

/-- A token in this state is in the hands of one operation. -/
def TokenState.owned : TokenState → Bool
  | .claimed | .committing | .transferring => true
  | .empty | .reserved | .committed | .released => false

/-- What happens to the counter of a governor. -/
inductive Event (G R : Type) where
  | reserved (r : R) (g : G) (bytes : Nat)
  | returned (r : R) (g : G) (bytes : Nat)
  deriving DecidableEq

/-- The counters, the tokens, and what has happened so far. -/
structure Shared (G R : Type) where
  reservedBytes : G → Nat
  token : R → Token G
  history : List (Event G R)

/-! ## Operations -/

def uint64Max : Nat := 2 ^ 64 - 1

/-- Where `reserve_internal` is. -/
inductive ReservePc where
  | claimEmpty
  | claimReleased
  | writeGovernor
  | writeBytes
  | writeOwner
  | loadTotal
  | choose (old : Nat)
  | overflow (old : Nat)
  | exchange (old : Nat)
  | refuse
  | publish
  deriving DecidableEq

/-- Where `wl_columnar_memory_commit` is. -/
inductive CommitPc where
  | claim | writeOwner | publish
  deriving DecidableEq

/-- Where `wl_columnar_memory_transfer` is. -/
inductive TransferPc where
  | loadState
  | claim (state : TokenState)
  | writeOwner (state : TokenState)
  | publish (state : TokenState)
  deriving DecidableEq

/-- The calls of `finish_reservation`: by a rollback, by a release, and by a release whose
first call failed. -/
inductive FinishCall where
  | rollback | release | releaseAgain
  deriving DecidableEq

/-- Where `finish_reservation` is. -/
inductive FinishPc (G : Type) where
  | readGovernor
  | readBytes (g : Option G)
  | loadState (g : G) (bytes : Nat)
  | claim (g : G) (bytes : Nat) (expected : TokenState)
  | loadTotal (g : G) (bytes : Nat)
  | exchange (g : G) (bytes old : Nat)
  deriving DecidableEq

/-- Where a thread is. -/
inductive Local (G R : Type) where
  | idle
  | reserving (g : G) (bytes : Nat) (r : R) (pc : ReservePc)
  | growing (g : G) (oldBytes newBytes : Nat) (r : R)
  | committing (r : R) (owner : Nat) (pc : CommitPc)
  | transferring (r : R) (owner : Nat) (pc : TransferPc)
  | finishing (r : R) (call : FinishCall) (pc : FinishPc G)
  deriving DecidableEq

/-- The operations on a token. -/
inductive Call (G R : Type) where
  | reserve (g : G) (bytes : Nat) (r : R)
  | reserveGrowth (g : G) (oldBytes newBytes : Nat) (r : R)
  | commit (r : R) (owner : Nat)
  | transfer (r : R) (owner : Nat)
  | rollback (r : R)
  | release (r : R)

section Operations

variable {G R : Type}

/-- The start of `reserve_internal`: no bytes are refused. -/
def startReserve (g : G) (bytes : Nat) (r : R) : Local G R :=
  if bytes = 0 then .idle else .reserving g bytes r .claimEmpty

def Call.start : Call G R → Local G R
  | .reserve g bytes r => startReserve g bytes r
  | .reserveGrowth g oldBytes newBytes r =>
    if newBytes < oldBytes then .idle else .growing g oldBytes newBytes r
  | .commit r owner => .committing r owner .claim
  | .transfer r owner => .transferring r owner .loadState
  | .rollback r => .finishing r .rollback .readGovernor
  | .release r => .finishing r .release .readGovernor

/-- A failed call of `finish_reservation`: a release tries a rollback. -/
def finishFailed (r : R) : FinishCall → Local G R
  | .release => .finishing r .releaseAgain .readGovernor
  | .rollback | .releaseAgain => .idle

variable [DecidableEq G] [DecidableEq R]

variable (s : Shared G R)

def Shared.setToken (r : R) (token : Token G) : Shared G R :=
  { s with token := Function.update s.token r token }

def Shared.setState (r : R) (state : TokenState) : Shared G R :=
  s.setToken r { s.token r with state := state }

/-- Write a counter, for the reason given. -/
def Shared.setReserved (g : G) (bytes : Nat) (event : Event G R) : Shared G R :=
  { s with reservedBytes := Function.update s.reservedBytes g bytes
           history := event :: s.history }

/-- `reserve_internal`, one access at a time. -/
def reserveStep (usableBytes : G → Nat) (spurious : Bool) (s : Shared G R) (g : G)
    (bytes : Nat) (r : R) : ReservePc → Shared G R × Local G R
  | .claimEmpty =>
    if (s.token r).state = .empty then
      (s.setState r .claimed, .reserving g bytes r .writeGovernor)
    else (s, .reserving g bytes r .claimReleased)
  | .claimReleased =>
    if (s.token r).state = .released then
      (s.setState r .claimed, .reserving g bytes r .writeGovernor)
    else (s, .idle)
  | .writeGovernor =>
    (s.setToken r { s.token r with governor := some g }, .reserving g bytes r .writeBytes)
  | .writeBytes =>
    (s.setToken r { s.token r with bytes := bytes }, .reserving g bytes r .writeOwner)
  | .writeOwner =>
    (s.setToken r { s.token r with ownerBits := 0 }, .reserving g bytes r .loadTotal)
  | .loadTotal => (s, .reserving g bytes r (.choose (s.reservedBytes g)))
  | .choose old =>
    if uint64Max - old < bytes then (s, .reserving g bytes r (.overflow old))
    else if usableBytes g < old + bytes then (s, .reserving g bytes r .refuse)
    else (s, .reserving g bytes r (.exchange old))
  | .overflow old =>
    if s.reservedBytes g = old ∧ !spurious then (s, .reserving g bytes r .refuse)
    else (s, .reserving g bytes r (.choose (s.reservedBytes g)))
  | .exchange old =>
    if s.reservedBytes g = old ∧ !spurious then
      (s.setReserved g (old + bytes) (.reserved r g bytes), .reserving g bytes r .publish)
    else (s, .reserving g bytes r (.choose (s.reservedBytes g)))
  | .refuse => (s.setState r .released, .idle)
  | .publish => (s.setState r .reserved, .idle)

/-- `wl_columnar_memory_reserve_growth` reads the state of the token first. -/
def growStep (g : G) (oldBytes newBytes : Nat) (r : R) : Local G R :=
  match (s.token r).state with
  | .reserved | .committed => .idle
  | .empty | .released => startReserve g newBytes r
  | .claimed | .committing | .transferring =>
    if newBytes = oldBytes then .idle else startReserve g newBytes r

/-- `wl_columnar_memory_commit`, one access at a time. -/
def commitStep (r : R) (owner : Nat) : CommitPc → Shared G R × Local G R
  | .claim =>
    if (s.token r).state = .reserved then
      (s.setState r .committing, .committing r owner .writeOwner)
    else (s, .idle)
  | .writeOwner =>
    (s.setToken r { s.token r with ownerBits := owner }, .committing r owner .publish)
  | .publish => (s.setState r .committed, .idle)

/-- `wl_columnar_memory_transfer`, one access at a time. -/
def transferStep (r : R) (owner : Nat) : TransferPc → Shared G R × Local G R
  | .loadState =>
    match (s.token r).state with
    | .reserved => (s, .transferring r owner (.claim .reserved))
    | .committed => (s, .transferring r owner (.claim .committed))
    | _ => (s, .idle)
  | .claim state =>
    if (s.token r).state = state then
      (s.setState r .transferring, .transferring r owner (.writeOwner state))
    else (s, .idle)
  | .writeOwner state =>
    (s.setToken r { s.token r with ownerBits := owner }, .transferring r owner (.publish state))
  | .publish state => (s.setState r state, .idle)

/-- `finish_reservation`, one access at a time. -/
def finishStep (spurious : Bool) (s : Shared G R) (r : R) (call : FinishCall) :
    FinishPc G → Shared G R × Local G R
  | .readGovernor => (s, .finishing r call (.readBytes (s.token r).governor))
  | .readBytes none => (s, finishFailed r call)
  | .readBytes (some g) =>
    if (s.token r).bytes = 0 then (s, finishFailed r call)
    else if call = .release then (s, .finishing r call (.loadState g (s.token r).bytes))
    else (s, .finishing r call (.claim g (s.token r).bytes .reserved))
  | .loadState g bytes =>
    match (s.token r).state with
    | .reserved => (s, .finishing r call (.claim g bytes .reserved))
    | .committed => (s, .finishing r call (.claim g bytes .committed))
    | _ => (s, finishFailed r call)
  | .claim g bytes expected =>
    if (s.token r).state = expected then
      (s.setState r .released, .finishing r call (.loadTotal g bytes))
    else (s, finishFailed r call)
  | .loadTotal g bytes => (s, .finishing r call (.exchange g bytes (s.reservedBytes g)))
  | .exchange g bytes old =>
    if old < bytes then (s, finishFailed r call)
    else if s.reservedBytes g = old ∧ !spurious then
      (s.setReserved g (old - bytes) (.returned r g bytes), .idle)
    else (s, .finishing r call (.exchange g bytes (s.reservedBytes g)))

/-- The next access of a thread, if an operation is under way. -/
def advance (usableBytes : G → Nat) (spurious : Bool) (s : Shared G R) :
    Local G R → Option (Shared G R × Local G R)
  | .idle => none
  | .reserving g bytes r pc => some (reserveStep usableBytes spurious s g bytes r pc)
  | .growing g oldBytes newBytes r => some (s, growStep s g oldBytes newBytes r)
  | .committing r owner pc => some (commitStep s r owner pc)
  | .transferring r owner pc => some (transferStep s r owner pc)
  | .finishing r call pc => some (finishStep spurious s r call pc)

/-- A thread starts an operation, or makes its next access. -/
inductive Acts (usableBytes : G → Nat) : Shared G R → Local G R → Shared G R → Local G R → Prop
  | start (s : Shared G R) (call : Call G R) : Acts usableBytes s .idle s call.start
  | access {s s' : Shared G R} {l l' : Local G R} (spurious : Bool) :
      advance usableBytes spurious s l = some (s', l') → Acts usableBytes s l s' l'

end Operations

end Wirelog.Memory

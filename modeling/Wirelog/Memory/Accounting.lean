import Wirelog.Memory.Governor

/-!
# The governor's accounts

What a governor's counter says is held by tokens, or by operations under way: a thread that
has charged the counter and not yet published its token, or that has claimed a token and not
yet returned its bytes. Every access keeps this balance (`Effect`), for the bytes of a
governor and for every other weight of what tokens hold.

Returning a token reads its governor and its byte count before it claims the token. If the
token is released and reserved again in between, the claim still succeeds and other bytes are
returned than the token holds (`exists_stale_return`). In every run in which each claim finds
the values that were read before, the counter is the sum of the live tokens whenever no
operation is under way, it never exceeds the limit, and the bytes returned are those reserved
(`reservations_exact`).
-/

set_option autoImplicit false

namespace Wirelog.Memory

open Wirelog.Foundations Function

/-! ## What a thread relies on -/

section Reliance

variable {G R : Type}

/-- The token in a thread's hands, and the state it put the token in. -/
def Local.owns : Local G R → Option (R × TokenState)
  | .idle | .growing _ _ _ _ | .finishing _ _ _ => none
  | .reserving _ _ r pc => match pc with
      | .claimEmpty | .claimReleased => none
      | _ => some (r, .claimed)
  | .committing r _ pc => match pc with
      | .claim => none
      | _ => some (r, .committing)
  | .transferring r _ pc => match pc with
      | .loadState | .claim _ => none
      | _ => some (r, .transferring)

/-- The states from which a token is claimed for a transfer or to be returned. -/
def TokenState.settled : TokenState → Bool
  | .reserved | .committed => true
  | _ => false

/-- What a thread knows about the token in its hands and about the values it has read. -/
def Local.Sound (usableBytes : G → Nat) (token : R → Token G) : Local G R → Prop
  | .idle | .growing _ _ _ _ => True
  | .reserving g bytes r pc => match pc with
      | .claimEmpty | .claimReleased => True
      | .writeGovernor => (token r).state = .claimed
      | .writeBytes => (token r).state = .claimed ∧ (token r).governor = some g
      | .exchange old => (token r).state = .claimed ∧ (token r).governor = some g ∧
          (token r).bytes = bytes ∧ old + bytes ≤ usableBytes g
      | _ => (token r).state = .claimed ∧ (token r).governor = some g ∧ (token r).bytes = bytes
  | .committing r _ pc => match pc with
      | .claim => True
      | _ => (token r).state = .committing
  | .transferring r _ pc => match pc with
      | .loadState => True
      | .claim state => state.settled
      | .writeOwner state | .publish state => (token r).state = .transferring ∧ state.settled
  | .finishing _ _ pc => match pc with
      | .claim _ _ expected => expected.settled
      | .exchange _ bytes old => bytes ≤ old
      | _ => True

/-- A weight of the bytes that a token holds of a governor. -/
abbrev Weight (G R : Type) := R → G → Nat → Nat

variable (w : Weight G R)

def tokenWeight (r : R) (token : Token G) : Nat :=
  if token.state.live then token.governor.elim 0 fun g => w r g token.bytes else 0

theorem tokenWeight_of_not_live {w : Weight G R} {r : R} {token : Token G}
    (dead : token.state.live = false) : tokenWeight w r token = 0 := by
  simp [tokenWeight, dead]

/-- Only the governor, the bytes and whether the token is live matter for what it holds. -/
theorem tokenWeight_congr {w : Weight G R} {r : R} {token token' : Token G}
    (governor : token'.governor = token.governor) (bytes : token'.bytes = token.bytes)
    (live : token'.state.live = token.state.live) :
    tokenWeight w r token' = tokenWeight w r token := by
  simp [tokenWeight, governor, bytes, live]

/-- The weight of what a thread has charged and not yet published, or claimed and not yet
returned. -/
def localWeight : Local G R → Nat
  | .reserving g bytes r .publish => w r g bytes
  | .finishing r _ (.loadTotal g bytes) | .finishing r _ (.exchange g bytes _) => w r g bytes
  | _ => 0

def reservedWeight : List (Event G R) → Nat
  | [] => 0
  | .reserved r g bytes :: rest => w r g bytes + reservedWeight rest
  | .returned _ _ _ :: rest => reservedWeight rest

def returnedWeight : List (Event G R) → Nat
  | [] => 0
  | .reserved _ _ _ :: rest => returnedWeight rest
  | .returned r g bytes :: rest => w r g bytes + returnedWeight rest

/-- A claim of a thread that returns a token succeeds only when the token still has the
governor and the byte count that the thread has read. -/
def Fresh (s : Shared G R) : Local G R → Prop
  | .finishing r _ (.claim g bytes expected) =>
    (s.token r).state = expected → (s.token r).governor = some g ∧ (s.token r).bytes = bytes
  | _ => True

variable {usableBytes : G → Nat} {token token' : R → Token G} {l : Local G R}

/-- A thread relies only on the token in its hands. -/
theorem Local.Sound.congr (sound : l.Sound usableBytes token)
    (same : ∀ r state, l.owns = some (r, state) → token' r = token r) :
    l.Sound usableBytes token' := by
  cases l with
  | idle | growing => trivial
  | reserving g bytes r pc =>
    cases pc with
    | claimEmpty | claimReleased => trivial
    | _ =>
      simp only [Local.Sound, same r .claimed rfl] at sound ⊢
      exact sound
  | committing r owner pc =>
    cases pc with
    | claim => trivial
    | _ =>
      simp only [Local.Sound, same r .committing rfl] at sound ⊢
      exact sound
  | transferring r owner pc =>
    cases pc with
    | loadState | claim => exact sound
    | _ =>
      simp only [Local.Sound, same r .transferring rfl] at sound ⊢
      exact sound
  | finishing r call pc => cases pc <;> exact sound

/-- The token in a thread's hands is in the state that the thread put it in. -/
theorem Local.Sound.state (sound : l.Sound usableBytes token) {r : R} {state : TokenState}
    (owns : l.owns = some (r, state)) : (token r).state = state ∧ state.owned := by
  cases l with
  | idle | growing | finishing => cases owns
  | reserving g bytes r' pc | committing r' owner pc | transferring r' owner pc =>
    cases pc <;> cases owns <;> simp only [Local.Sound] at sound <;> simp [sound, TokenState.owned]

end Reliance

/-! ## What an access does -/

section Updates

variable {G R : Type} (s : Shared G R) (r : R) (g : G) (bytes : Nat) (event : Event G R)

@[simp] theorem setReserved_token [DecidableEq G] :
    (s.setReserved g bytes event).token = s.token := rfl

@[simp] theorem setReserved_history [DecidableEq G] :
    (s.setReserved g bytes event).history = event :: s.history := rfl

@[simp] theorem setReserved_reservedBytes [DecidableEq G] :
    (s.setReserved g bytes event).reservedBytes = update s.reservedBytes g bytes := rfl

variable [DecidableEq R] (token : Token G)

@[simp] theorem setToken_token :
    (s.setToken r token).token = update s.token r token := rfl

@[simp] theorem setToken_reservedBytes :
    (s.setToken r token).reservedBytes = s.reservedBytes := rfl

@[simp] theorem setToken_history : (s.setToken r token).history = s.history := rfl

end Updates

section Effects

variable {G R : Type} [DecidableEq G]

def byGovernor (g : G) : Weight G R := fun _ g' bytes => if g' = g then bytes else 0

/-- The counter of every governor is what was reserved with it and not returned. -/
def Counted (s : Shared G R) : Prop :=
  ∀ g, s.reservedBytes g + returnedWeight (byGovernor g) s.history =
    reservedWeight (byGovernor g) s.history

/-- What an access of a thread does: it writes at most one token, which is in the thread's
hands or in nobody's, and what is held changes by what is reserved and returned. -/
structure Effect (usableBytes : G → Nat) (s s' : Shared G R) (l l' : Local G R) (r : R) :
    Prop where
  frame : ∀ other, other ≠ r → s'.token other = s.token other
  touch : s'.token r = s.token r ∨ (∃ state, l.owns = some (r, state)) ∨
    (s.token r).state.owned = false
  owns : ∀ other state, l'.owns = some (other, state) →
    (∃ state', l.owns = some (other, state')) ∨ (s.token other).state.owned = false
  keeps : ∀ other state, l.owns = some (other, state) →
    (∃ state', l'.owns = some (other, state')) ∨ (s'.token other).state.owned = false
  takes : (s'.token r).state.owned → s'.token r = s.token r ∨ ∃ state, l'.owns = some (r, state)
  sound : l'.Sound usableBytes s'.token
  balance : ∀ w : Weight G R, tokenWeight w r (s'.token r) + localWeight w l' +
      (reservedWeight w s.history + returnedWeight w s'.history) =
    tokenWeight w r (s.token r) + localWeight w l +
      (reservedWeight w s'.history + returnedWeight w s.history)
  counted : Counted s → Counted s'
  bounded : (∀ g, s.reservedBytes g ≤ usableBytes g) → ∀ g, s'.reservedBytes g ≤ usableBytes g

variable {usableBytes : G → Nat} {s : Shared G R} {l l' : Local G R} {r : R}

theorem Effect.keep {s' : Shared G R} (tokens : s'.token = s.token) (owns : l'.owns = l.owns)
    (sound : l'.Sound usableBytes s.token)
    (weight : ∀ w : Weight G R,
      localWeight w l' + (reservedWeight w s.history + returnedWeight w s'.history) =
        localWeight w l + (reservedWeight w s'.history + returnedWeight w s.history))
    (counted : Counted s → Counted s')
    (bounded : (∀ g, s.reservedBytes g ≤ usableBytes g) →
      ∀ g, s'.reservedBytes g ≤ usableBytes g) : Effect usableBytes s s' l l' r where
  frame := fun other _ => congrFun tokens other
  touch := .inl (congrFun tokens r)
  owns := fun other state found => .inl ⟨state, owns ▸ found⟩
  keeps := fun other state found => .inl ⟨state, owns ▸ found⟩
  takes := fun _ => .inl (congrFun tokens r)
  sound := tokens ▸ sound
  balance := fun w => by rw [tokens, Nat.add_assoc, weight w, Nat.add_assoc]
  counted := counted
  bounded := bounded

/-- Reading, and deciding what to do next. -/
theorem Effect.read (owns : l'.owns = l.owns) (sound : l'.Sound usableBytes s.token)
    (weight : ∀ w : Weight G R, localWeight w l' = localWeight w l) :
    Effect usableBytes s s l l' r :=
  .keep rfl owns sound (fun w => by rw [weight w]) id id

section Write

variable [DecidableEq R] {token : Token G}
  (access : (∃ state, l.owns = some (r, state)) ∨ l.owns = none ∧ (s.token r).state.owned = false)
  (owns : (∃ state, l'.owns = some (r, state)) ∨ l'.owns = none ∧ token.state.owned = false)
  (sound : l'.Sound usableBytes (update s.token r token))

include access owns sound

theorem Effect.write (weight : ∀ w : Weight G R,
      tokenWeight w r token + localWeight w l' = tokenWeight w r (s.token r) + localWeight w l) :
    Effect usableBytes s (s.setToken r token) l l' r where
  frame := fun other differs => by simp [differs]
  touch := .inr (access.imp_right And.right)
  owns := by
    intro other state found
    rcases owns with ⟨state', same⟩ | ⟨none, -⟩
    · rw [same, Option.some.injEq, Prod.mk.injEq] at found
      exact found.1 ▸ access.imp_right And.right
    · simp [none] at found
  keeps := by
    intro other state found
    rcases access with ⟨state', same⟩ | ⟨none, -⟩
    · rw [same, Option.some.injEq, Prod.mk.injEq] at found
      obtain ⟨rfl, -⟩ := found
      exact owns.imp_right fun settled => by simpa using settled.2
    · simp [none] at found
  takes := by
    intro owned
    rcases owns with own | ⟨-, settled⟩
    · exact .inr own
    · simp [settled] at owned
  sound := sound
  balance := fun w => by simp [weight w]
  counted := id
  bounded := id

/-- Writing the state or the owner of a token, which stays live or stays dead. -/
theorem Effect.mark (governor : token.governor = (s.token r).governor)
    (bytes : token.bytes = (s.token r).bytes) (live : token.state.live = (s.token r).state.live)
    (weight : ∀ w : Weight G R, localWeight w l' = localWeight w l) :
    Effect usableBytes s (s.setToken r token) l l' r :=
  .write access owns sound fun w => by rw [tokenWeight_congr governor bytes live, weight w]

end Write

theorem Effect.charge {old bytes : Nat} {g : G} (owns : l'.owns = l.owns)
    (sound : l'.Sound usableBytes s.token) (room : old + bytes ≤ usableBytes g)
    (current : s.reservedBytes g = old) (weightless : ∀ w : Weight G R, localWeight w l = 0)
    (weight : ∀ w : Weight G R, localWeight w l' = w r g bytes) :
    Effect usableBytes s (s.setReserved g (old + bytes) (.reserved r g bytes)) l l' r := by
  refine .keep rfl owns sound (fun w => ?_) (fun counted other => ?_) fun bounded other => ?_
  · simp only [setReserved_history, reservedWeight, returnedWeight, weight w, weightless w]
    omega
  · have before := counted other
    by_cases same : g = other
    · subst same
      simp only [setReserved_reservedBytes, update_self, setReserved_history,
        returnedWeight, reservedWeight, byGovernor, if_true] at before ⊢
      omega
    · simpa [returnedWeight, reservedWeight, byGovernor, same, Ne.symm same] using before
  · by_cases same : g = other
    · subst same
      simpa using room
    · simpa [Ne.symm same] using bounded other

theorem Effect.refund {old bytes : Nat} {g : G} (owns : l'.owns = l.owns)
    (sound : l'.Sound usableBytes s.token) (enough : bytes ≤ old)
    (current : s.reservedBytes g = old) (weightless : ∀ w : Weight G R, localWeight w l' = 0)
    (weight : ∀ w : Weight G R, localWeight w l = w r g bytes) :
    Effect usableBytes s (s.setReserved g (old - bytes) (.returned r g bytes)) l l' r := by
  refine .keep rfl owns sound (fun w => ?_) (fun counted other => ?_) fun bounded other => ?_
  · simp only [setReserved_history, reservedWeight, returnedWeight, weight w, weightless w]
    omega
  · have before := counted other
    by_cases same : g = other
    · subst same
      simp only [setReserved_reservedBytes, update_self, setReserved_history,
        returnedWeight, reservedWeight, byGovernor, if_true] at before ⊢
      omega
    · simpa [returnedWeight, reservedWeight, byGovernor, same, Ne.symm same] using before
  · have before := bounded other
    by_cases same : g = other
    · subst same
      simp only [setReserved_reservedBytes, update_self]
      omega
    · simpa [Ne.symm same] using before

end Effects

/-! ## The effects of the operations -/

section Accesses

variable {G R : Type} {usableBytes : G → Nat}

variable [DecidableEq G] {s : Shared G R}

/-- A reservation starts in the place of a thread that holds nothing. -/
theorem Effect.starts {l : Local G R} (owns : l.owns = none)
    (weightless : ∀ w : Weight G R, localWeight w l = 0) (g : G) (bytes : Nat) (r : R) :
    Effect usableBytes s s l (startReserve g bytes r) r := by
  unfold startReserve
  split_ifs <;> exact .read owns.symm trivial fun w => (weightless w).symm

variable [DecidableEq R] {spurious : Bool}

/-- A token that nobody holds and that is not live is claimed for a reservation. -/
theorem Effect.claim {g : G} {bytes : Nat} {r : R} {pc : ReservePc}
    (owns : (Local.reserving g bytes r pc : Local G R).owns = none)
    (unowned : (s.token r).state.owned = false) (dead : (s.token r).state.live = false)
    (weightless : ∀ w : Weight G R, localWeight w (.reserving g bytes r pc) = 0) :
    Effect usableBytes s (s.setState r .claimed) (.reserving g bytes r pc)
      (.reserving g bytes r .writeGovernor) r := by
  refine Effect.write (.inr ⟨owns, unowned⟩) (.inl ⟨_, rfl⟩) (by simp [Local.Sound]) fun w => ?_
  rw [tokenWeight_of_not_live rfl, tokenWeight_of_not_live dead, weightless]
  rfl

theorem reserveStep_effect {g : G} {bytes : Nat} {r : R} {pc : ReservePc}
    (sound : (Local.reserving g bytes r pc).Sound usableBytes s.token) :
    Effect usableBytes s (reserveStep usableBytes spurious s g bytes r pc).1
      (.reserving g bytes r pc) (reserveStep usableBytes spurious s g bytes r pc).2 r := by
  cases pc with
  | claimEmpty =>
    simp only [reserveStep]
    split_ifs with empty
    · exact .claim rfl (by simp [empty, TokenState.owned]) (by simp [empty, TokenState.live])
        fun _ => rfl
    · exact .read rfl trivial fun _ => rfl
  | claimReleased =>
    simp only [reserveStep]
    split_ifs with released
    · exact .claim rfl (by simp [released, TokenState.owned]) (by simp [released, TokenState.live])
        fun _ => rfl
    · exact .read rfl trivial fun _ => rfl
  | writeGovernor =>
    have claimed : (s.token r).state = .claimed := sound
    simp only [reserveStep]
    refine .write (.inl ⟨_, rfl⟩) (.inl ⟨_, rfl⟩) (by simp [Local.Sound, claimed]) fun w => ?_
    rw [tokenWeight_of_not_live (by simp [claimed, TokenState.live]),
      tokenWeight_of_not_live (by simp [claimed, TokenState.live])]
    rfl
  | writeBytes =>
    have claimed : (s.token r).state = .claimed := sound.1
    simp only [reserveStep]
    refine .write (.inl ⟨_, rfl⟩) (.inl ⟨_, rfl⟩)
      (by simp [Local.Sound, claimed, sound.2]) fun w => ?_
    rw [tokenWeight_of_not_live (by simp [claimed, TokenState.live]),
      tokenWeight_of_not_live (by simp [claimed, TokenState.live])]
    rfl
  | writeOwner =>
    simp only [reserveStep]
    exact .mark (.inl ⟨_, rfl⟩) (.inl ⟨_, rfl⟩)
      (by simpa [Local.Sound] using sound) rfl rfl rfl fun _ => rfl
  | loadTotal => exact .read rfl sound fun _ => rfl
  | choose old =>
    simp only [reserveStep]
    split_ifs with overflows exceeds
    · exact .read rfl sound fun _ => rfl
    · exact .read rfl sound fun _ => rfl
    exact .read rfl ⟨sound.1, sound.2.1, sound.2.2, Nat.le_of_not_lt exceeds⟩ fun _ => rfl
  | overflow old =>
    simp only [reserveStep]
    split_ifs <;> exact .read rfl sound fun _ => rfl
  | exchange old =>
    obtain ⟨claimed, governor, count, room⟩ := sound
    simp only [reserveStep]
    split_ifs with current
    · exact .charge rfl ⟨claimed, governor, count⟩ room current.1 (fun _ => rfl) fun _ => rfl
    · exact .read rfl ⟨claimed, governor, count⟩ fun _ => rfl
  | refuse =>
    have claimed : (s.token r).state = .claimed := sound.1
    simp only [reserveStep]
    refine .write (.inl ⟨_, rfl⟩) (.inr ⟨rfl, rfl⟩) trivial fun w => ?_
    rw [tokenWeight_of_not_live rfl, tokenWeight_of_not_live (by simp [claimed, TokenState.live])]
    rfl
  | publish =>
    obtain ⟨claimed, governor, count⟩ := sound
    simp only [reserveStep]
    refine .write (.inl ⟨_, rfl⟩) (.inr ⟨rfl, rfl⟩) trivial fun w => ?_
    simp [tokenWeight, TokenState.live, claimed, governor, count, localWeight]

omit [DecidableEq R] in
theorem growStep_effect {g : G} {oldBytes newBytes : Nat} {r : R} :
    Effect usableBytes s s (.growing g oldBytes newBytes r)
      (growStep s g oldBytes newBytes r) r := by
  have idle : Effect usableBytes s s (.growing g oldBytes newBytes r) .idle r :=
    .read rfl trivial fun _ => rfl
  have starts : Effect usableBytes s s (.growing g oldBytes newBytes r)
      (startReserve g newBytes r) r := .starts rfl (fun _ => rfl) g newBytes r
  unfold growStep
  cases (s.token r).state <;> simp only <;> (try split_ifs) <;> assumption

theorem commitStep_effect {r : R} {owner : Nat} {pc : CommitPc}
    (sound : (Local.committing r owner pc).Sound usableBytes s.token) :
    Effect usableBytes s (commitStep s r owner pc).1 (.committing r owner pc)
      (commitStep s r owner pc).2 r := by
  cases pc with
  | claim =>
    simp only [commitStep]
    split_ifs with reserved
    · exact .mark (.inr ⟨rfl, by simp [reserved, TokenState.owned]⟩)
        (.inl ⟨_, rfl⟩) (by simp [Local.Sound]) rfl rfl
        (by simp [reserved, TokenState.live]) fun _ => rfl
    · exact .read rfl trivial fun _ => rfl
  | writeOwner =>
    simp only [commitStep]
    exact .mark (.inl ⟨_, rfl⟩) (.inl ⟨_, rfl⟩)
      (by simpa [Local.Sound] using sound) rfl rfl rfl fun _ => rfl
  | publish =>
    have committing : (s.token r).state = .committing := sound
    simp only [commitStep]
    exact .mark (.inl ⟨_, rfl⟩) (.inr ⟨rfl, rfl⟩) trivial rfl rfl
      (by simp [committing, TokenState.live]) fun _ => rfl

theorem TokenState.settled_spec {state : TokenState} (settled : state.settled) :
    state.live ∧ state.owned = false := by
  cases state <;> simp_all [TokenState.settled, TokenState.live, TokenState.owned]

theorem transferStep_effect {r : R} {owner : Nat} {pc : TransferPc}
    (sound : (Local.transferring r owner pc).Sound usableBytes s.token) :
    Effect usableBytes s (transferStep s r owner pc).1 (.transferring r owner pc)
      (transferStep s r owner pc).2 r := by
  cases pc with
  | loadState =>
    simp only [transferStep]
    split <;> exact .read rfl (by simp [Local.Sound, TokenState.settled]) fun _ => rfl
  | claim state =>
    have settled := TokenState.settled_spec sound
    simp only [transferStep]
    split_ifs with current
    · exact .mark (.inr ⟨rfl, by simp [current, settled]⟩)
        (.inl ⟨_, rfl⟩)
        (by simpa [Local.Sound] using sound) rfl rfl
        (by rw [current, settled.1]; rfl) fun _ => rfl
    · exact .read rfl trivial fun _ => rfl
  | writeOwner state =>
    simp only [transferStep]
    exact .mark (.inl ⟨_, rfl⟩) (.inl ⟨_, rfl⟩)
      (by simpa [Local.Sound] using sound) rfl rfl rfl fun _ => rfl
  | publish state =>
    obtain ⟨transferring, settled⟩ := sound
    simp only [transferStep]
    exact .mark (.inl ⟨_, rfl⟩) (.inr ⟨rfl, (TokenState.settled_spec settled).2⟩) trivial rfl rfl
      (by rw [transferring]; exact (TokenState.settled_spec settled).1) fun _ => rfl

theorem finishStep_effect {r : R} {call : FinishCall} {pc : FinishPc G}
    (sound : (Local.finishing r call pc).Sound usableBytes s.token)
    (fresh : Fresh s (.finishing r call pc))
    (covered : ∀ g, localWeight (byGovernor g) (.finishing r call pc) ≤ s.reservedBytes g) :
    Effect usableBytes s (finishStep spurious s r call pc).1 (.finishing r call pc)
      (finishStep spurious s r call pc).2 r := by
  have failed (weightless : ∀ w : Weight G R, localWeight w (.finishing r call pc) = 0) :
      Effect usableBytes s s (.finishing r call pc) (finishFailed r call) r := by
    cases call <;> exact .read rfl trivial fun w => (weightless w).symm
  cases pc with
  | readGovernor => exact .read rfl trivial fun _ => rfl
  | readBytes g =>
    cases g with
    | none => exact failed fun _ => rfl
    | some g =>
      simp only [finishStep]
      split_ifs
      · exact failed fun _ => rfl
      · exact .read rfl trivial fun _ => rfl
      · exact .read rfl rfl fun _ => rfl
  | loadState g bytes =>
    simp only [finishStep]
    split
    · exact .read rfl rfl fun _ => rfl
    · exact .read rfl rfl fun _ => rfl
    · exact failed fun _ => rfl
  | claim g bytes expected =>
    have settled := TokenState.settled_spec sound
    simp only [finishStep]
    split_ifs with current
    · -- the bytes pass from the token to the thread
      obtain ⟨governor, count⟩ := fresh current
      refine .write (.inr ⟨rfl, by simp [current, settled]⟩) (.inr ⟨rfl, rfl⟩) trivial fun w => ?_
      rw [tokenWeight_of_not_live rfl]
      simp [tokenWeight, current, settled, governor, count, localWeight]
    · exact failed fun _ => rfl
  | loadTotal g bytes =>
    have enough : bytes ≤ s.reservedBytes g := by
      simpa [localWeight, byGovernor] using covered g
    exact .read rfl enough fun _ => rfl
  | exchange g bytes old =>
    have enough : bytes ≤ old := sound
    simp only [finishStep, if_neg (Nat.not_lt.mpr enough)]
    split_ifs with current
    · exact .refund rfl trivial enough current.1 (fun _ => rfl) fun _ => rfl
    have reread : bytes ≤ s.reservedBytes g := by
      simpa [localWeight, byGovernor] using covered g
    exact .read rfl reread fun _ => rfl

omit [DecidableEq R] in
/-- A call has done nothing when it starts. -/
theorem start_effect (s : Shared G R) (call : Call G R) :
    ∃ r, Effect usableBytes s s .idle call.start r := by
  cases call with
  | reserve g bytes r =>
    exact ⟨r, .starts rfl (fun _ => rfl) g bytes r⟩
  | reserveGrowth g oldBytes newBytes r =>
    refine ⟨r, ?_⟩
    simp only [Call.start]
    split_ifs <;> exact .read rfl trivial fun _ => rfl
  | commit r | transfer r | rollback r | release r =>
    exact ⟨r, .read rfl trivial fun _ => rfl⟩

/-- **What one access of a thread does.** -/
theorem advance_effect {l : Local G R} {next : Shared G R × Local G R}
    (sound : l.Sound usableBytes s.token)
    (fresh : Fresh s l) (covered : ∀ g, localWeight (byGovernor g) l ≤ s.reservedBytes g)
    (stepped : advance usableBytes spurious s l = some next) :
    ∃ r, Effect usableBytes s next.1 l next.2 r := by
  cases l with
  | idle => cases stepped
  | reserving g bytes r pc =>
    cases stepped
    exact ⟨r, reserveStep_effect sound⟩
  | growing g oldBytes newBytes r =>
    cases stepped
    exact ⟨r, growStep_effect⟩
  | committing r owner pc =>
    cases stepped
    exact ⟨r, commitStep_effect sound⟩
  | transferring r owner pc =>
    cases stepped
    exact ⟨r, transferStep_effect sound⟩
  | finishing r call pc =>
    cases stepped
    exact ⟨r, finishStep_effect sound fresh covered⟩

end Accesses

/-! ## Runs -/

section Runs

variable {T G R : Type} [DecidableEq T] [DecidableEq G] [DecidableEq R]
  {usableBytes : G → Nat} {config : Config T (Shared G R) (Local G R)}

/-- Nothing is reserved, every token is initialized, and no operation is under way. -/
def Shared.start (T G R : Type) : Config T (Shared G R) (Local G R) where
  shared := ⟨fun _ => 0, fun _ => Token.init G, []⟩
  locals := fun _ => .idle

/-- No operation is under way. -/
def Quiescent (config : Config T (Shared G R) (Local G R)) : Prop :=
  ∀ t, config.locals t = .idle

/-- A thread acts, and a token that it claims in order to return it still has the governor and
the byte count that it has read. -/
def FreshActs (usableBytes : G → Nat) (s : Shared G R) (l : Local G R) (s' : Shared G R)
    (l' : Local G R) : Prop :=
  Acts usableBytes s l s' l' ∧ Fresh s l

/-- What holds in every state of a run. -/
structure Exact (usableBytes : G → Nat) (config : Config T (Shared G R) (Local G R)) :
    Prop where
  sound : ∀ t, (config.locals t).Sound usableBytes config.shared.token
  exclusive : ∀ t t' r state state', (config.locals t).owns = some (r, state) →
    (config.locals t').owns = some (r, state') → t = t'
  owner : ∀ r, (config.shared.token r).state.owned →
    ∃ t state, (config.locals t).owns = some (r, state)
  counted : Counted config.shared
  bounded : ∀ g, config.shared.reservedBytes g ≤ usableBytes g
  held : ∀ w : Weight G R, ∃ tokens threads,
    FiniteSum (fun r => tokenWeight w r (config.shared.token r)) tokens ∧
    FiniteSum (fun t => localWeight w (config.locals t)) threads ∧
    tokens + threads + returnedWeight w config.shared.history =
      reservedWeight w config.shared.history

omit [DecidableEq T] [DecidableEq R] in
theorem exact_start : Exact usableBytes (Shared.start T G R) where
  sound := fun _ => trivial
  exclusive := fun _ _ _ _ _ owns => by cases owns
  owner := fun _ owned => by cases owned
  counted := fun _ => rfl
  bounded := fun _ => Nat.zero_le _
  held := fun _ => ⟨0, 0, .zero, .zero, rfl⟩

omit [DecidableEq T] [DecidableEq R] in
/-- What a thread has charged or claimed is part of the counter. -/
theorem Exact.covered (exact : Exact usableBytes config) (t : T) (g : G) :
    localWeight (byGovernor g) (config.locals t) ≤ config.shared.reservedBytes g := by
  obtain ⟨tokens, threads, -, sum, total⟩ := exact.held (byGovernor g)
  have part := sum.le t
  have counter := exact.counted g
  omega

omit [DecidableEq T] in
/-- Threads that hold other tokens are not disturbed by an access. -/
theorem Exact.sound_of_effect (exact : Exact usableBytes config) {t t' : T} {s : Shared G R}
    {l : Local G R} {r : R} (effect : Effect usableBytes config.shared s (config.locals t) l r)
    (other : t' ≠ t) : (config.locals t').Sound usableBytes s.token := by
  refine (exact.sound t').congr fun r' state owns => ?_
  by_cases same : r' = r
  · subst same
    rcases effect.touch with unchanged | ⟨state', own⟩ | unowned
    · exact unchanged
    · exact absurd (exact.exclusive t' t r' _ _ owns own) other
    have held := (exact.sound t').state owns
    rw [held.1, held.2] at unowned
    cases unowned
  · exact effect.frame r' same

/-- **Every access keeps the invariant.** -/
theorem Exact.of_effect (exact : Exact usableBytes config) {t : T} {s : Shared G R}
    {l : Local G R} {r : R}
    (effect : Effect usableBytes config.shared s (config.locals t) l r) :
    Exact usableBytes ⟨s, update config.locals t l⟩ := by
  -- a token that the thread takes is in no other thread's hands
  have alone : ∀ t' r' state state', t' ≠ t → l.owns = some (r', state) →
      (config.locals t').owns ≠ some (r', state') := by
    intro t' r' state state' other own owns
    rcases effect.owns r' state own with ⟨before, held⟩ | unowned
    · exact other (exact.exclusive t' t r' _ _ owns held)
    have held := (exact.sound t').state owns
    rw [held.1, held.2] at unowned
    cases unowned
  refine ⟨fun t' => ?_, fun t₁ t₂ r' state state' owns₁ owns₂ => ?_, fun r' owned => ?_,
    effect.counted exact.counted, effect.bounded exact.bounded, fun w => ?_⟩
  · by_cases same : t' = t
    · subst same
      simpa using effect.sound
    · simpa [same] using exact.sound_of_effect effect same
  · by_cases first : t₁ = t <;> by_cases second : t₂ = t
    · rw [first, second]
    · subst first
      simp only [update_self, ne_eq, second, not_false_eq_true, update_of_ne] at owns₁ owns₂
      exact absurd owns₂ (alone t₂ r' _ _ second owns₁)
    · subst second
      simp only [update_self, ne_eq, first, not_false_eq_true, update_of_ne] at owns₁ owns₂
      exact absurd owns₁ (alone t₁ r' _ _ first owns₂)
    · simp only [ne_eq, first, second, not_false_eq_true, update_of_ne] at owns₁ owns₂
      exact exact.exclusive t₁ t₂ r' _ _ owns₁ owns₂
  · -- the owner of a token keeps it, unless the thread itself gives it back
    have kept : (config.shared.token r').state.owned → s.token r' = config.shared.token r' →
        ∃ t' state, (update config.locals t l t').owns = some (r', state) := by
      intro before unchanged
      obtain ⟨t', state, owns⟩ := exact.owner r' before
      by_cases same : t' = t
      · subst same
        rcases effect.keeps r' state owns with ⟨state', own⟩ | settled
        · exact ⟨t', state', by simpa using own⟩
        · simp [settled] at owned
      · exact ⟨t', state, by simpa [same] using owns⟩
    by_cases same : r' = r
    · subst same
      rcases effect.takes owned with unchanged | ⟨state, own⟩
      · exact kept (unchanged ▸ owned) unchanged
      · exact ⟨t, state, by simpa using own⟩
    · have unchanged := effect.frame r' same
      exact kept (unchanged ▸ owned) unchanged
  · obtain ⟨tokens, threads, tokenSum, threadSum, total⟩ := exact.held w
    have tokensNow : (fun r' => tokenWeight w r' (s.token r')) =
        update (fun r' => tokenWeight w r' (config.shared.token r')) r
          (tokenWeight w r (s.token r)) := by
      funext r'
      by_cases same : r' = r
      · subst same
        simp
      · simp [same, effect.frame r' same]
    have threadsNow : (fun t' => localWeight w (update config.locals t l t')) =
        update (fun t' => localWeight w (config.locals t')) t (localWeight w l) :=
      comp_update (localWeight w) config.locals t l
    refine ⟨_, _, tokensNow ▸ tokenSum.update r _, threadsNow ▸ threadSum.update t _, ?_⟩
    have ofToken := tokenSum.le r
    have ofThread := threadSum.le t
    have balance := effect.balance w
    simp only at ofToken ofThread ⊢
    omega

theorem Exact.of_reaches (run : Reaches (fun _ => FreshActs usableBytes)
    (Shared.start T G R) config) : Exact usableBytes config := by
  refine Reaches.invariant exact_start (fun config t s l exact acts => ?_) run
  obtain ⟨acts, fresh⟩ := acts
  generalize before : config.locals t = current at acts fresh
  cases acts with
  | start call =>
    obtain ⟨r, effect⟩ : ∃ r, Effect usableBytes config.shared config.shared .idle call.start r :=
      start_effect config.shared call
    exact exact.of_effect (before ▸ effect)
  | access spurious stepped =>
    obtain ⟨r, effect⟩ := advance_effect (before ▸ exact.sound t) fresh
      (fun g => before ▸ exact.covered t g) stepped
    exact exact.of_effect (before ▸ effect)

/-- The bytes of a governor that a token holds: a token holds bytes when it is reserved or
committed. -/
def heldBytes (g : G) (token : Token G) : Nat :=
  if (token.state = .reserved ∨ token.state = .committed) ∧ token.governor = some g then
    token.bytes else 0

/-- Whether a token is reserved or committed, with these bytes of this governor. -/
def Holds (token : Token G) (g : G) (bytes : Nat) : Prop :=
  (token.state = .reserved ∨ token.state = .committed) ∧ token.governor = some g ∧
    token.bytes = bytes

instance (token : Token G) (g : G) (bytes : Nat) : Decidable (Holds token g bytes) :=
  inferInstanceAs (Decidable (_ ∧ _ ∧ _))

def oneToken (r : R) (g : G) (bytes : Nat) : Weight G R :=
  fun r' g' bytes' => if r' = r ∧ g' = g ∧ bytes' = bytes then 1 else 0

theorem tokenWeight_oneToken (r : R) (g : G) (bytes : Nat) (token : Token G) :
    tokenWeight (oneToken r g bytes) r token =
      if token.state.live ∧ token.governor = some g ∧ token.bytes = bytes then 1 else 0 := by
  obtain ⟨governor, bytes', owner, state⟩ := token
  cases governor <;> simp [tokenWeight, oneToken, ite_and]

theorem tokenWeight_oneToken_of_ne {r r' : R} (other : r' ≠ r) (g : G) (bytes : Nat)
    (token : Token G) : tokenWeight (oneToken r g bytes) r' token = 0 := by
  obtain ⟨governor, bytes', owner, state⟩ := token
  cases governor <;> simp [tokenWeight, oneToken, other]

theorem reservedWeight_oneToken (r : R) (g : G) (bytes : Nat) (history : List (Event G R)) :
    reservedWeight (oneToken r g bytes) history = history.count (.reserved r g bytes) := by
  induction history with
  | nil => rfl
  | cons event rest ih =>
    cases event with
    | reserved r' g' bytes' =>
      simp only [reservedWeight, oneToken, ih, List.count_cons, beq_iff_eq, Event.reserved.injEq]
      omega
    | returned r' g' bytes' => simp [reservedWeight, ih]

theorem returnedWeight_oneToken (r : R) (g : G) (bytes : Nat) (history : List (Event G R)) :
    returnedWeight (oneToken r g bytes) history = history.count (.returned r g bytes) := by
  induction history with
  | nil => rfl
  | cons event rest ih =>
    cases event with
    | reserved r' g' bytes' => simp [returnedWeight, ih]
    | returned r' g' bytes' =>
      simp only [returnedWeight, oneToken, ih, List.count_cons, beq_iff_eq, Event.returned.injEq]
      omega

omit [DecidableEq T] [DecidableEq R] in
/-- When no operation is under way, the tokens hold what was reserved and not returned. -/
theorem Exact.held_of_quiescent (exact : Exact usableBytes config) (quiescent : Quiescent config)
    (w : Weight G R) : ∃ tokens,
      FiniteSum (fun r => tokenWeight w r (config.shared.token r)) tokens ∧
        tokens + returnedWeight w config.shared.history =
          reservedWeight w config.shared.history := by
  obtain ⟨tokens, threads, tokenSum, threadSum, total⟩ := exact.held w
  have none : threads = 0 := threadSum.eq_zero fun t => by rw [quiescent t]; rfl
  exact ⟨tokens, tokenSum, by omega⟩

omit [DecidableEq T] [DecidableEq R] in
/-- When no operation is under way, the live tokens are the reserved and the committed ones. -/
theorem Exact.live_iff (exact : Exact usableBytes config) (quiescent : Quiescent config) (r : R) :
    (config.shared.token r).state.live ↔
      (config.shared.token r).state = .reserved ∨ (config.shared.token r).state = .committed := by
  have unowned : ¬ (config.shared.token r).state.owned := by
    intro owned
    obtain ⟨t, state, owns⟩ := exact.owner r owned
    rw [quiescent t] at owns
    cases owns
  cases state : (config.shared.token r).state <;> simp_all [TokenState.live, TokenState.owned]

/-- **Reservations are exact**: in every run in which each claim of a token that is returned
finds the governor and the byte count that were read before, no counter ever exceeds the usable
limit. Whenever no operation is under way, every counter is the sum of the bytes of the
reserved and committed tokens, and for each token and byte count there are as many successful
returns as successful reservations, but for one that is still held. -/
theorem reservations_exact (run : Reaches (fun _ => FreshActs usableBytes)
    (Shared.start T G R) config) :
    (∀ g, config.shared.reservedBytes g ≤ usableBytes g) ∧
      (Quiescent config →
        (∀ g, FiniteSum (fun r => heldBytes g (config.shared.token r))
          (config.shared.reservedBytes g)) ∧
        ∀ r g bytes, config.shared.history.count (.reserved r g bytes) =
          config.shared.history.count (.returned r g bytes) +
            if Holds (config.shared.token r) g bytes then 1 else 0) := by
  have exact := Exact.of_reaches run
  refine ⟨exact.bounded, fun quiescent => ⟨fun g => ?_, fun r g bytes => ?_⟩⟩
  · obtain ⟨tokens, sum, total⟩ := exact.held_of_quiescent quiescent (byGovernor g)
    have counter := exact.counted g
    have same : (fun r => heldBytes g (config.shared.token r)) =
        fun r => tokenWeight (byGovernor g) r (config.shared.token r) := by
      funext r
      have live := exact.live_iff quiescent r
      simp only [heldBytes, tokenWeight, live, byGovernor]
      cases (config.shared.token r).governor <;> simp [ite_and]
    rw [same, show config.shared.reservedBytes g = tokens by omega]
    exact sum
  · obtain ⟨tokens, sum, total⟩ := exact.held_of_quiescent quiescent (oneToken r g bytes)
    -- only the token itself has a weight
    have alone : (fun r' => tokenWeight (oneToken r g bytes) r' (config.shared.token r')) =
        update (fun _ => 0) r (if Holds (config.shared.token r) g bytes then 1 else 0) := by
      funext r'
      by_cases same : r' = r
      · subst same
        have holds : ((config.shared.token r').state.live ∧
            (config.shared.token r').governor = some g ∧
            (config.shared.token r').bytes = bytes) ↔ Holds (config.shared.token r') g bytes := by
          rw [exact.live_iff quiescent r', Holds]
        rw [tokenWeight_oneToken, update_self]
        exact if_congr holds rfl rfl
      · rw [tokenWeight_oneToken_of_ne same, update_of_ne same]
    have one := (alone ▸ sum).unique (FiniteSum.zero.update r _)
    rw [reservedWeight_oneToken, returnedWeight_oneToken] at total
    omega

/-! ## Schedules -/

instance (s : Shared G R) (l : Local G R) : Decidable (Fresh s l) := by
  unfold Fresh
  split <;> infer_instance

/-- One move of a schedule: a thread starts a call, or makes its next access. -/
def perform (usableBytes : G → Nat) (config : Config T (Shared G R) (Local G R))
    (move : T × Option (Call G R)) : Option (Config T (Shared G R) (Local G R)) :=
  match move.2, config.locals move.1 with
  | some call, .idle =>
    some ⟨config.shared, update config.locals move.1 call.start⟩
  | none, l => (advance usableBytes false config.shared l).map fun next =>
    ⟨next.1, update config.locals move.1 next.2⟩
  | _, _ => none

/-- Follow a schedule, as long as every move passes a check. -/
def follow (usableBytes : G → Nat) (check : Shared G R → Local G R → Bool)
    (config : Config T (Shared G R) (Local G R)) (moves : List (T × Option (Call G R))) :
    Option (Config T (Shared G R) (Local G R)) :=
  moves.foldlM (fun config move => if check config.shared (config.locals move.1) then
    perform usableBytes config move else none) config

variable {config' : Config T (Shared G R) (Local G R)}

theorem perform_acts {move : T × Option (Call G R)}
    (performed : perform usableBytes config move = some config') :
    ∃ s l, Acts usableBytes config.shared (config.locals move.1) s l ∧
      config' = ⟨s, update config.locals move.1 l⟩ := by
  unfold perform at performed
  split at performed
  · next call _ idle =>
    cases performed
    exact ⟨_, _, idle ▸ .start _ call, rfl⟩
  · obtain ⟨next, advanced, rfl⟩ := Option.map_eq_some_iff.mp performed
    exact ⟨_, _, .access false advanced, rfl⟩
  · cases performed

theorem reaches_of_follow {check : Shared G R → Local G R → Bool}
    {moves : List (T × Option (Call G R))}
    (followed : follow usableBytes check config moves = some config') :
    Reaches (fun _ s l s' l' => Acts usableBytes s l s' l' ∧ check s l) config config' := by
  induction moves generalizing config with
  | nil =>
    cases followed
    exact .refl
  | cons move rest ih =>
    simp only [follow, List.foldlM_cons, Option.bind_eq_bind, Option.bind_eq_some_iff] at followed
    obtain ⟨next, first, later⟩ := followed
    split_ifs at first with checked
    obtain ⟨s, l, acts, rfl⟩ := perform_acts first
    exact .head (.mk move.1 ⟨acts, checked⟩) (ih later)

end Runs

def callMoves {T G R : Type} (t : T) (call : Call G R) (accesses : Nat) :
    List (T × Option (Call G R)) :=
  (t, some call) :: List.replicate accesses (t, none)

/-- One thread reserves 100 bytes with a token and returns them. -/
def reserveAndRelease : List (Bool × Option (Call Unit Bool)) :=
  callMoves false (.reserve () 100 false) 8 ++ callMoves false (.release false) 6

/-- One thread reserves 100 bytes and 60 bytes with two tokens and starts to release the
first. When it has read the byte count, another thread releases this token and reserves 50
bytes with it; then the first thread goes on. -/
def staleRelease : List (Bool × Option (Call Unit Bool)) :=
  callMoves false (.reserve () 100 false) 8 ++ callMoves false (.reserve () 60 true) 8 ++
    callMoves false (.release false) 2 ++ callMoves true (.release false) 6 ++
    callMoves true (.reserve () 50 false) 9 ++ List.replicate 4 (false, none)

/-- The state after a schedule of two threads with two tokens and a limit of 1000 bytes. -/
def afterMoves (check : Shared Unit Bool → Local Unit Bool → Bool)
    (moves : List (Bool × Option (Call Unit Bool))) :
    Option (Config Bool (Shared Unit Bool) (Local Unit Bool)) :=
  follow (fun _ => 1000) check (Shared.start Bool Unit Bool) moves

theorem reaches_afterMoves {check : Shared Unit Bool → Local Unit Bool → Bool}
    {moves : List (Bool × Option (Call Unit Bool))}
    {config : Config Bool (Shared Unit Bool) (Local Unit Bool)}
    (after : afterMoves check moves = some config) :
    Reaches (fun _ s l s' l' => Acts (fun _ => 1000) s l s' l' ∧ check s l)
      (Shared.start Bool Unit Bool) config := reaches_of_follow after

theorem reservations_exact_release :
    ∃ config, Reaches (fun _ => FreshActs fun _ => 1000) (Shared.start Bool Unit Bool) config ∧
      config.shared.history = [.returned false () 100, .reserved false () 100] ∧
      config.shared.reservedBytes () ≤ 1000 := by
  have followed : ((afterMoves (fun s l => decide (Fresh s l)) reserveAndRelease).map
      fun config => config.shared.history) =
      some [.returned false () 100, .reserved false () 100] := by decide +kernel
  obtain ⟨config, after, history⟩ := Option.map_eq_some_iff.mp followed
  have run : Reaches (fun _ => FreshActs fun _ => 1000) (Shared.start Bool Unit Bool) config :=
    Reaches.weaken (reaches_afterMoves after) fun _ _ _ _ _ acts =>
      ⟨acts.1, of_decide_eq_true acts.2⟩
  exact ⟨config, run, history, (reservations_exact run).1 ()⟩

/-- The thread that goes on returns 100 bytes for a token that holds 50: the counter says 10
although the other token holds 60. -/
theorem exists_stale_return :
    ∃ config, Reaches (fun _ => Acts fun _ => 1000) (Shared.start Bool Unit Bool) config ∧
      Quiescent config ∧
      ¬ FiniteSum (fun r => heldBytes () (config.shared.token r))
        (config.shared.reservedBytes ()) := by
  have followed : ((afterMoves (fun _ _ => true) staleRelease).map fun config =>
      (config.locals false, config.locals true, config.shared.reservedBytes (),
        heldBytes () (config.shared.token true))) = some (.idle, .idle, 10, 60) := by
    decide +kernel
  obtain ⟨config, after, values⟩ := Option.map_eq_some_iff.mp followed
  simp only [Prod.mk.injEq] at values
  obtain ⟨first, second, counter, held⟩ := values
  refine ⟨config, Reaches.weaken (reaches_afterMoves after) fun _ _ _ _ _ acts => acts.1, ?_,
    fun sum => ?_⟩
  · intro t
    cases t
    · exact first
    · exact second
  · have part := sum.le true
    omega

end Wirelog.Memory

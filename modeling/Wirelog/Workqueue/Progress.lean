import Wirelog.Workqueue.Safety

/-!
# Every call on the work queue returns

In a run in which every thread that can go on does so sooner or later, callbacks included, the
client does not wait forever (`eventually_idle`, `eventually_destroyed`). What is left of a
batch is a number that no action raises (`rank_next`) and that some thread is always able to
lower: a thread with an item in its hands, or a worker that finds the gate open and the ring
filled. When nothing is left the client is awake.

With the invariant this gives what the queue promises (`workqueue_correct`).
-/

set_option autoImplicit false

namespace Wirelog.Workqueue

open Wirelog.Foundations List Function

/-! ## What is left of a batch -/

/-- The actions of a worker until the item in its hands is counted. -/
def WorkerPc.effort : WorkerPc → Nat
  | .running _ => 2
  | .returned => 1
  | _ => 0

def ClientPc.effort : ClientPc → Nat
  | .drainRunning _ => 2
  | .drainReturned => 1
  | _ => 0

/-- The actions until every item of the batch is counted. -/
def rank {n : Nat} (s : State n) : Nat :=
  3 * s.ring.count + workersSum WorkerPc.effort s.workers + s.client.effort

/-- The client is in `wait_all` or in `drain`. -/
def ClientPc.inBatch : ClientPc → Bool
  | .waitCheck | .waitAsleep | .drainRunning _ | .drainReturned | .drainCheck | .drainAsleep =>
    true
  | .idle | .joining | .destroyed => false

theorem ClientPc.wake_inBatch (pc : ClientPc) : pc.wake.inBatch = pc.inBatch := by
  cases pc <;> rfl

theorem ClientPc.wake_effort (pc : ClientPc) : pc.wake.effort = pc.effort := by
  cases pc <;> rfl

section Rank

variable {n capacity : Nat} {s s' : State n} {w : Fin n}

theorem signalDone_client (s : State n) :
    s.signalDone.client = s.client ∨ s.signalDone.client = s.client.wake := by
  unfold State.signalDone
  split
  · exact .inr rfl
  · exact .inl rfl

theorem signalDone_inBatch (s : State n) :
    s.signalDone.client.inBatch = s.client.inBatch ∧
      s.signalDone.client.effort = s.client.effort := by
  rcases signalDone_client s with same | same
  · rw [same]
    exact ⟨rfl, rfl⟩
  · rw [same]
    exact ⟨s.client.wake_inBatch, s.client.wake_effort⟩

theorem signalDone_workers (s : State n) :
    s.signalDone.workers = s.workers ∧ s.signalDone.ring = s.ring := by
  unfold State.signalDone
  split <;> exact ⟨rfl, rfl⟩

/-- A worker lowers what is left, unless it has no item and finds none. -/
theorem rank_workerMove (move : WorkerMove capacity s w s') :
    s'.client.inBatch = s.client.inBatch ∧
      (rank s' < rank s ∨ rank s' = rank s ∧ s'.ring.count = s.ring.count ∧
        (s.workers w).effort = 0 ∧ (s.ring.count = 0 ∨ s.dispatchEnabled = false)) := by
  have moved (pc : WorkerPc) := workersSum_update WorkerPc.effort s.workers w pc
  cases move with
  | sleep ready reason =>
    have same := moved .asleep
    simp only [ready, WorkerPc.effort] at same
    refine ⟨rfl, .inr ⟨?_, rfl, by rw [ready]; rfl, reason.1⟩⟩
    simp only [rank, State.setWorker]
    omega
  | exit ready reason =>
    have same := moved .exited
    simp only [ready, WorkerPc.effort] at same
    refine ⟨rfl, .inr ⟨?_, rfl, by rw [ready]; rfl, .inl reason.2⟩⟩
    simp only [rank, State.setWorker]
    omega
  | take ready pending allowed =>
    have more := moved (.running s.ring.front)
    simp only [ready, WorkerPc.effort] at more
    refine ⟨rfl, .inl ?_⟩
    simp only [rank, State.setWorker, State.take, RingBuffer.dequeue]
    omega
  | finish running =>
    have less := moved .returned
    simp only [running, WorkerPc.effort] at less
    refine ⟨rfl, .inl ?_⟩
    simp only [rank, State.setWorker]
    omega
  | complete returned =>
    have less := moved .check
    simp only [returned, WorkerPc.effort] at less
    obtain ⟨inBatch, effort⟩ := signalDone_inBatch s.complete
    obtain ⟨workers, ring⟩ := signalDone_workers s.complete
    refine ⟨inBatch, .inl ?_⟩
    simp only [rank, State.setWorker, workers, ring, effort]
    simp only [State.complete]
    omega

theorem rank_drainWait (s : State n) (free : 0 < s.client.effort) :
    (drainWait s).client = .idle ∨ (drainWait s).client.inBatch ∧ rank (drainWait s) < rank s := by
  unfold drainWait
  split
  · refine .inr ⟨rfl, ?_⟩
    simp only [rank, ClientPc.effort] at free ⊢
    omega
  · exact .inl rfl

/-- The client goes on with a batch: it lowers what is left if it has an item in its hands,
and otherwise it returns or falls asleep. -/
theorem rank_clientStep (inBatch : s.client.inBatch) (taken : clientStep capacity s = some s') :
    s'.client = .idle ∨ s'.client.inBatch ∧
      (rank s' < rank s ∨ rank s' = rank s ∧ s'.ring.count = s.ring.count ∧
        s.client.effort = 0 ∧ s.completed < s.submitted) := by
  cases pc : s.client with
  | idle | waitAsleep | drainAsleep | destroyed => simp [clientStep, pc] at taken
  | joining => simp [pc, ClientPc.inBatch] at inBatch
  | waitCheck =>
    simp only [clientStep, pc] at taken
    cases taken
    unfold waitLoop
    split
    · rename_i remaining
      exact .inr ⟨rfl, .inr ⟨by simp [rank, pc, ClientPc.effort], rfl, rfl, remaining⟩⟩
    · exact .inl rfl
  | drainRunning item =>
    simp only [clientStep, pc] at taken
    cases taken
    refine .inr ⟨rfl, .inl ?_⟩
    simp only [rank, pc, ClientPc.effort]
    omega
  | drainReturned =>
    simp only [clientStep, pc] at taken
    cases taken
    unfold drainLoop
    split
    · have left : rank s.complete = rank s := rfl
      have effort : 0 < s.complete.client.effort := by
        rw [show s.complete.client = s.client from rfl, pc]
        exact Nat.zero_lt_one
      rcases rank_drainWait s.complete effort with idle | ⟨inBatch, less⟩
      · exact .inl idle
      · exact .inr ⟨inBatch, .inl (left ▸ less)⟩
    · rename_i pending
      refine .inr ⟨rfl, .inl ?_⟩
      simp only [rank, pc, ClientPc.effort, State.take, RingBuffer.dequeue]
      simp only [State.complete] at pending ⊢
      omega
  | drainCheck =>
    simp only [clientStep, pc] at taken
    cases taken
    unfold drainWait
    split
    · rename_i remaining
      exact .inr ⟨rfl, .inr ⟨by simp [rank, pc, ClientPc.effort], rfl, rfl, remaining⟩⟩
    · exact .inl rfl

variable {action : Action n}

/-- No action raises what is left of a batch. -/
theorem rank_next (inBatch : s.client.inBatch) (taken : next capacity action s = some s') :
    s'.client = .idle ∨ s'.client.inBatch ∧
      (rank s' < rank s ∨ rank s' = rank s ∧ s'.ring.count = s.ring.count) := by
  cases action with
  | worker w =>
    obtain ⟨same, less | ⟨equal, count, _⟩⟩ := rank_workerMove (.of_workerStep taken)
    · exact .inr ⟨same ▸ inBatch, .inl less⟩
    · exact .inr ⟨same ▸ inBatch, .inr ⟨equal, count⟩⟩
  | client =>
    rcases rank_clientStep inBatch taken with idle | ⟨still, less | ⟨equal, count, _⟩⟩
    · exact .inl idle
    · exact .inr ⟨still, .inl less⟩
    · exact .inr ⟨still, .inr ⟨equal, count⟩⟩
  | wakeWorker w =>
    cases taken
    have moved := workersSum_update WorkerPc.effort s.workers w (s.workers w).wake
    have same : (s.workers w).wake.effort = (s.workers w).effort := by
      cases s.workers w <;> rfl
    refine .inr ⟨inBatch, .inr ⟨?_, rfl⟩⟩
    simp only [rank, State.setWorker]
    omega
  | wakeClient =>
    cases taken
    refine .inr ⟨s.client.wake_inBatch ▸ inBatch, .inr ⟨?_, rfl⟩⟩
    simp [rank, s.client.wake_effort]
  | call call =>
    simp only [next] at taken
    split at taken
    · rename_i idle
      simp [idle, ClientPc.inBatch] at inBatch
    · cases taken

/-! ## What the other threads leave alone -/

theorem drainWait_workers (s : State n) : (drainWait s).workers = s.workers := by
  unfold drainWait
  split <;> rfl

/-- The client moves no worker while it goes on with a call. -/
theorem clientStep_workers (taken : clientStep capacity s = some s') :
    s'.workers = s.workers := by
  cases pc : s.client with
  | idle | waitAsleep | drainAsleep | destroyed => simp [clientStep, pc] at taken
  | waitCheck =>
    simp only [clientStep, pc] at taken
    cases taken
    unfold waitLoop
    split <;> rfl
  | drainRunning item =>
    simp only [clientStep, pc] at taken
    cases taken
    rfl
  | drainReturned =>
    simp only [clientStep, pc] at taken
    cases taken
    unfold drainLoop
    split
    · exact drainWait_workers s.complete
    · rfl
  | drainCheck =>
    simp only [clientStep, pc] at taken
    cases taken
    exact drainWait_workers s
  | joining =>
    simp only [clientStep, pc] at taken
    split at taken
    · cases taken
      rfl
    · cases taken

/-- Only its own action moves a worker that is awake, while the client is in a call. -/
theorem worker_frame (inside : s.client ≠ .idle) (awake : s.workers w ≠ .asleep)
    (other : action ≠ .worker w) (taken : next capacity action s = some s') :
    s'.workers w = s.workers w := by
  have wake : (s.workers w).wake = s.workers w := by
    cases pc : s.workers w <;> simp_all [WorkerPc.wake]
  cases action with
  | worker v =>
    have apart : w ≠ v := fun same => other (same ▸ rfl)
    cases WorkerMove.of_workerStep taken with
    | complete returned =>
      exact (update_of_ne apart _ _).trans (congrFun (signalDone_workers s.complete).1 w)
    | _ => exact update_of_ne apart _ _
  | client =>
    rw [clientStep_workers taken]
  | wakeWorker v =>
    cases taken
    simp only [State.setWorker, update_apply]
    split
    · rename_i same
      rw [← same, wake]
    · rfl
  | wakeClient =>
    cases taken
    rfl
  | call call => simp [next, inside] at taken

/-- In a call, only its own action moves the client, apart from waking it up. -/
theorem client_frame (inside : s.client ≠ .idle) (other : action ≠ .client)
    (taken : next capacity action s = some s') :
    s'.client = s.client ∨ s'.client = s.client.wake := by
  cases action with
  | worker w =>
    cases WorkerMove.of_workerStep taken with
    | complete returned => exact signalDone_client s.complete
    | _ => exact .inl rfl
  | client => exact absurd rfl other
  | wakeWorker w =>
    cases taken
    exact .inl rfl
  | wakeClient =>
    cases taken
    exact .inr rfl
  | call call => simp [next, inside] at taken

/-- The client stays in `wait_all` until it returns. -/
theorem waiting_next (waiting : s.client.waiting) (taken : next capacity action s = some s') :
    s'.client = .idle ∨ s'.client.waiting := by
  have inside : s.client ≠ .idle := by
    intro idle
    simp [idle, ClientPc.waiting] at waiting
  by_cases own : action = .client
  · subst own
    cases pc : s.client with
    | waitCheck =>
      simp only [next, clientStep, pc] at taken
      cases taken
      unfold waitLoop
      split
      · exact .inr rfl
      · exact .inl rfl
    | waitAsleep => simp [next, clientStep, pc] at taken
    | _ => simp [pc, ClientPc.waiting] at waiting
  · rcases client_frame inside own taken with same | same
    · exact .inr (same ▸ waiting)
    rw [same]
    cases pc : s.client <;> simp_all [ClientPc.waiting, ClientPc.wake]

end Rank

/-! ## The end of a batch -/

section Runs

variable {n capacity : Nat}

/-- The actions that no run neglects: a thread that can go on does so. A callback that runs
returns, as this is what its thread does next. -/
def GoesOn : Action n → Prop
  | .worker _ | .client => True
  | .wakeWorker _ | .wakeClient | .call _ => False

variable (run : FairRun (next (n := n) capacity) GoesOn)

/-- Later on the client has returned, or less of its batch is left. -/
def Descends (i : Nat) : Prop :=
  ∃ j ≥ i, (run.state j).client = .idle ∨
    (run.state j).client.inBatch ∧ rank (run.state j) < rank (run.state i)

variable {i : Nat}

/-- A thread that is able to lower what is left, and that stays so as long as nothing changes,
makes the client return or lowers what is left. -/
theorem descends_of_helpful (helpful : Action n) (C : State n → Prop) (small : capacity < 2 ^ 32)
    (goesOn : GoesOn helpful)
    (enabled : ∀ s, Inv capacity s → s.client.inBatch → C s → (next capacity helpful s).isSome)
    (kept : ∀ s action s', Inv capacity s → s.client.inBatch → C s → action ≠ helpful →
      next capacity action s = some s' → s'.client.inBatch → s'.ring.count = s.ring.count →
      rank s' = rank s → C s')
    (lowers : ∀ s s', Inv capacity s → s.client.inBatch → C s →
      next capacity helpful s = some s' → s'.client = .idle ∨ rank s' < rank s)
    (inv : Inv capacity (run.state i)) (inBatch : (run.state i).client.inBatch)
    (now : C (run.state i)) : Descends run i := by
  refine run.eventually_of_helpful (a := helpful)
    (P := fun s => Inv capacity s ∧ s.client.inBatch ∧ rank s = rank (run.state i) ∧ C s)
    (Q := fun s => s.client = .idle ∨ s.client.inBatch ∧ rank s < rank (run.state i))
    goesOn (fun s P => enabled s P.1 P.2.1 P.2.2.2) ?_ ?_ ⟨inv, inBatch, rfl, now⟩
  · rintro s action s' ⟨inv, inBatch, level, helps⟩ taken
    rcases rank_next inBatch taken with idle | ⟨still, less | ⟨equal, count⟩⟩
    · exact .inr (.inl idle)
    · exact .inr (.inr ⟨still, level ▸ less⟩)
    by_cases same : action = helpful
    · subst same
      rcases lowers s s' inv inBatch helps taken with idle | less
      · exact .inr (.inl idle)
      · exact .inr (.inr ⟨still, level ▸ less⟩)
    · exact .inl ⟨inv.next small taken, still, equal.trans level,
        kept s action s' inv inBatch helps same taken still count equal⟩
  · rintro s s' ⟨inv, inBatch, level, helps⟩ taken
    rcases lowers s s' inv inBatch helps taken with idle | less
    · exact .inl idle
    rcases rank_next inBatch taken with idle | ⟨still, _⟩
    · exact .inl idle
    · exact .inr ⟨still, level ▸ less⟩

theorem ne_idle_of_inBatch {pc : ClientPc} (inBatch : pc.inBatch) : pc ≠ .idle := by
  rintro rfl
  simp [ClientPc.inBatch] at inBatch

/-- A worker with an item in its hands lowers what is left. -/
theorem descends_of_worker (small : capacity < 2 ^ 32) {w : Fin n}
    (inv : Inv capacity (run.state i)) (inBatch : (run.state i).client.inBatch)
    (works : 0 < ((run.state i).workers w).effort) : Descends run i := by
  refine descends_of_helpful run (.worker w) (fun s => 0 < (s.workers w).effort) small trivial
    ?_ ?_ ?_
    inv inBatch works
  · intro s _ _ works
    cases pc : s.workers w <;> simp_all [next, workerStep, WorkerPc.effort]
  · intro s action s' _ inBatch works other taken _ _ _
    have awake : s.workers w ≠ .asleep := by
      intro asleep
      simp [asleep, WorkerPc.effort] at works
    rwa [worker_frame (ne_idle_of_inBatch inBatch) awake other taken]
  · intro s s' _ _ works taken
    obtain ⟨_, less | ⟨_, _, free, _⟩⟩ := rank_workerMove (.of_workerStep taken)
    · exact .inr less
    · omega

/-- While the client waits in `wait_all`, no worker sleeps on a filled ring, and the first
worker that looks takes an item. -/
theorem descends_of_pending (small : capacity < 2 ^ 32) {w : Fin n}
    (inv : Inv capacity (run.state i)) (waiting : (run.state i).client.waiting)
    (ready : (run.state i).workers w = .check) (pending : (run.state i).ring.count ≠ 0) :
    Descends run i := by
  have inBatch (pc : ClientPc) (waiting : pc.waiting) : pc.inBatch := by
    cases pc <;> simp_all [ClientPc.waiting, ClientPc.inBatch]
  refine descends_of_helpful run (.worker w)
    (fun s => s.client.waiting ∧ s.workers w = .check ∧ s.ring.count ≠ 0) small trivial
    ?_ ?_ ?_ inv (inBatch _ waiting) ⟨waiting, ready, pending⟩
  · rintro s _ _ ⟨_, ready, _⟩
    simp only [next, workerStep, ready]
    split
    · rfl
    · split <;> rfl
  · rintro s action s' _ inBatch ⟨waiting, ready, pending⟩ other taken still count _
    have awake : s.workers w ≠ .asleep := by simp [ready]
    refine ⟨(waiting_next waiting taken).resolve_left (ne_idle_of_inBatch still), ?_,
      count ▸ pending⟩
    rw [worker_frame (ne_idle_of_inBatch inBatch) awake other taken, ready]
  · rintro s s' inv _ ⟨waiting, ready, pending⟩ taken
    have opened : s.dispatchEnabled = true := inv.gate.trans waiting
    obtain ⟨_, less | ⟨_, _, _, empty | closed⟩⟩ := rank_workerMove (.of_workerStep taken)
    · exact .inr less
    · exact absurd empty pending
    · simp [opened] at closed

/-- When nothing is left, every item of the batch has been counted. -/
theorem counted_of_rank_eq_zero {s : State n} (inv : Inv capacity s) (nothing : rank s = 0) :
    ¬ s.completed < s.submitted := by
  have batch := inv.accounts.batch
  have workers : workersSum WorkerPc.busy s.workers ≤ workersSum WorkerPc.effort s.workers :=
    workersSum_mono _ fun pc => by cases pc <;> simp [WorkerPc.busy, WorkerPc.effort]
  have client : s.client.busy ≤ s.client.effort := by
    cases s.client <;> simp [ClientPc.busy, ClientPc.effort]
  simp only [rank] at nothing
  omega

/-- A client that is awake and has an item in its hands, or finds the batch done, goes on. -/
theorem descends_of_client (small : capacity < 2 ^ 32) {pc : ClientPc}
    (inv : Inv capacity (run.state i)) (inBatch : pc.inBatch) (awake : pc.wake = pc)
    (here : (run.state i).client = pc) (goesOn : 0 < pc.effort ∨ rank (run.state i) = 0) :
    Descends run i := by
  refine descends_of_helpful run .client
    (fun s => s.client = pc ∧ (0 < pc.effort ∨ rank s = 0)) small trivial ?_ ?_ ?_ inv
    (here ▸ inBatch) ⟨here, goesOn⟩
  · rintro s _ _ ⟨here, _⟩
    simp only [next, clientStep, here]
    cases pc <;> simp_all [ClientPc.inBatch, ClientPc.wake]
  · rintro s action s' _ inBatch ⟨here, goesOn⟩ other taken _ _ equal
    refine ⟨?_, equal ▸ goesOn⟩
    rcases client_frame (ne_idle_of_inBatch inBatch) other taken with same | same
    · rw [same, here]
    · rw [same, here, awake]
  · rintro s s' inv inBatch ⟨here, goesOn⟩ taken
    rcases rank_clientStep inBatch taken with idle | ⟨_, less | ⟨_, _, free, remaining⟩⟩
    · exact .inl idle
    · exact .inr less
    rcases goesOn with works | nothing
    · rw [here] at free
      omega
    · exact absurd remaining (counted_of_rank_eq_zero inv nothing)

/-- As long as the client is in a batch, some thread is able to lower what is left. -/
theorem descends (small : capacity < 2 ^ 32) (workers : 0 < n) (inv : Inv capacity (run.state i))
    (inBatch : (run.state i).client.inBatch) : Descends run i := by
  by_cases works : 0 < (run.state i).client.effort
  · refine descends_of_client run small inv inBatch ?_ rfl (.inl works)
    cases pc : (run.state i).client <;> simp_all [ClientPc.effort, ClientPc.wake]
  by_cases someone : ∃ w, 0 < ((run.state i).workers w).effort
  · obtain ⟨w, works⟩ := someone
    exact descends_of_worker run small inv inBatch works
  have nobody : ∀ w, ((run.state i).workers w).effort = 0 := fun w =>
    Nat.eq_zero_of_not_pos fun works => someone ⟨w, works⟩
  by_cases empty : (run.state i).ring.count = 0
  · -- nothing is left, so the client has no reason to sleep
    have nothing : rank (run.state i) = 0 := by
      have sum := (workersSum_eq_zero_iff WorkerPc.effort (run.state i).workers).mpr nobody
      simp only [rank]
      omega
    have counted := counted_of_rank_eq_zero inv nothing
    have awake : (run.state i).client.wake = (run.state i).client := by
      have asleep := mt inv.clientAsleep counted
      cases pc : (run.state i).client <;> simp_all [ClientPc.wake]
    exact descends_of_client run small inv inBatch awake rfl (.inr nothing)
  · -- the ring is filled, so the client is in `wait_all` and the gate is open
    have waiting : (run.state i).client.waiting := by
      have drained := mt inv.drained empty
      cases pc : (run.state i).client <;>
        simp_all [ClientPc.waiting, ClientPc.inBatch, ClientPc.effort]
    have opened : (run.state i).dispatchEnabled = true := inv.gate.trans waiting
    have running : (run.state i).shutdown = false := by
      rw [inv.stopped]
      cases pc : (run.state i).client <;> simp_all [ClientPc.leaving, ClientPc.inBatch]
    have ready : (run.state i).workers ⟨0, workers⟩ = .check := by
      have free := nobody ⟨0, workers⟩
      have asleep := inv.accounts.workerAsleep ⟨0, workers⟩
      have exited := inv.accounts.workerExited ⟨0, workers⟩
      cases pc : (run.state i).workers ⟨0, workers⟩ <;> simp_all [WorkerPc.effort]
    exact descends_of_pending run small inv waiting ready empty

/-- **A batch ends.** In a fair run the client returns from `wait_all` and from `drain`. -/
theorem eventually_idle (small : capacity < 2 ^ 32) (workers : 0 < n)
    (invariant : ∀ i, Inv capacity (run.state i)) (inBatch : (run.state i).client.inBatch) :
    ∃ j ≥ i, (run.state j).client = .idle :=
  run.eventually_of_rank (P := fun s => s.client.inBatch) (Q := fun s => s.client = .idle) rank
    (fun _ inBatch => descends run small workers (invariant _) inBatch) inBatch

/-! ## The end of the queue -/

/-- The actions of a worker until it exits. -/
def WorkerPc.toil : WorkerPc → Nat
  | .running _ => 4
  | .returned => 3
  | .asleep => 2
  | .check => 1
  | .exited => 0

/-- The actions until all workers have exited. -/
def toil (s : State n) : Nat := 5 * s.ring.count + workersSum WorkerPc.toil s.workers

/-- During shutdown every action of a worker brings its exit nearer. -/
theorem toil_workerMove {s s' : State n} {w : Fin n} (stopped : s.shutdown = true)
    (move : WorkerMove capacity s w s') : toil s' < toil s := by
  have moved (pc : WorkerPc) := workersSum_update WorkerPc.toil s.workers w pc
  cases move with
  | sleep ready reason => simp [stopped] at reason
  | exit ready reason =>
    have less := moved .exited
    simp only [ready, WorkerPc.toil] at less
    simp only [toil, State.setWorker]
    omega
  | take ready pending allowed =>
    have more := moved (.running s.ring.front)
    simp only [ready, WorkerPc.toil] at more
    simp only [toil, State.setWorker, State.take, RingBuffer.dequeue]
    omega
  | finish running =>
    have less := moved .returned
    simp only [running, WorkerPc.toil] at less
    simp only [toil, State.setWorker]
    omega
  | complete returned =>
    have less := moved .check
    simp only [returned, WorkerPc.toil] at less
    obtain ⟨workers, ring⟩ := signalDone_workers s.complete
    simp only [toil, State.setWorker, workers, ring]
    simp only [State.complete]
    omega

/-- While the client joins the workers, no action delays their exit. -/
theorem toil_next {action : Action n} {s s' : State n} (inv : Inv capacity s)
    (joining : s.client = .joining) (taken : next capacity action s = some s') :
    s'.client = .destroyed ∨ s'.client = .joining ∧ toil s' ≤ toil s := by
  have inside : s.client ≠ .idle := by simp [joining]
  have stopped : s.shutdown = true := by rw [inv.stopped, joining]; rfl
  by_cases own : action = .client
  · subst own
    simp only [next, clientStep, joining] at taken
    split at taken
    · cases taken
      exact .inl rfl
    · cases taken
  · have still : s'.client = .joining := by
      rcases client_frame inside own taken with same | same <;> rw [same, joining]
      rfl
    refine .inr ⟨still, ?_⟩
    cases action with
    | worker w => exact Nat.le_of_lt (toil_workerMove stopped (.of_workerStep taken))
    | client => exact absurd rfl own
    | wakeWorker w =>
      cases taken
      have awake : (s.workers w).wake = s.workers w := by
        have asleep := inv.accounts.workerAsleep w
        cases pc : s.workers w <;> simp_all [WorkerPc.wake]
      simp [State.setWorker, awake]
    | wakeClient =>
      cases taken
      exact Nat.le_refl _
    | call call => simp [next, inside] at taken

/-- A worker that has not exited brings the end nearer, and when all have exited the client
is done. -/
theorem toil_descends (small : capacity < 2 ^ 32) (inv : Inv capacity (run.state i))
    (joining : (run.state i).client = .joining) :
    ∃ j ≥ i, (run.state j).client = .destroyed ∨
      (run.state j).client = .joining ∧ toil (run.state j) < toil (run.state i) := by
  by_cases gone : ∀ w, (run.state i).workers w = .exited
  · refine run.eventually_of_helpful (a := .client)
      (P := fun s => Inv capacity s ∧ s.client = .joining ∧ ∀ w, s.workers w = .exited)
      (Q := fun s => s.client = .destroyed ∨ s.client = .joining ∧ toil s < toil (run.state i))
      trivial ?_ ?_ ?_ ⟨inv, joining, gone⟩
    · rintro s ⟨_, joining, gone⟩
      simp [next, clientStep, joining, gone]
    · rintro s action s' ⟨inv, joining, gone⟩ taken
      rcases toil_next inv joining taken with destroyed | ⟨still, _⟩
      · exact .inr (.inl destroyed)
      refine .inl ⟨inv.next small taken, still, fun w => ?_⟩
      rw [worker_frame (by simp [joining]) (by simp [gone]) ?_ taken, gone]
      rintro rfl
      simp [next, workerStep, gone] at taken
    · rintro s s' ⟨_, joining, gone⟩ taken
      simp only [next, clientStep, joining, if_pos gone] at taken
      cases taken
      exact .inl rfl
  · obtain ⟨w, present⟩ := not_forall.mp gone
    have awake {s : State n} (inv : Inv capacity s) (joining : s.client = .joining) :
        s.shutdown = true ∧ s.workers w ≠ .asleep := by
      have stopped : s.shutdown = true := by rw [inv.stopped, joining]; rfl
      exact ⟨stopped, fun asleep => by simpa [stopped] using inv.accounts.workerAsleep w asleep⟩
    refine run.eventually_of_helpful (a := .worker w)
      (P := fun s => Inv capacity s ∧ s.client = .joining ∧ s.workers w ≠ .exited ∧
        toil s = toil (run.state i))
      (Q := fun s => s.client = .destroyed ∨ s.client = .joining ∧ toil s < toil (run.state i))
      trivial ?_ ?_ ?_ ⟨inv, joining, present, rfl⟩
    · rintro s ⟨inv, joining, present, _⟩
      have open_ := (awake inv joining).2
      simp only [next, workerStep]
      cases pc : s.workers w with
      | check =>
        simp only
        split
        · rfl
        · split <;> rfl
      | asleep => exact absurd pc open_
      | running item => rfl
      | returned => rfl
      | exited => exact absurd pc present
    · rintro s action s' ⟨inv, joining, present, level⟩ taken
      rcases toil_next inv joining taken with destroyed | ⟨still, bounded⟩
      · exact .inr (.inl destroyed)
      rcases Nat.lt_or_eq_of_le bounded with less | equal
      · exact .inr (.inr ⟨still, level ▸ less⟩)
      refine .inl ⟨inv.next small taken, still, ?_, equal.trans level⟩
      rwa [worker_frame (by simp [joining]) (awake inv joining).2 ?_ taken]
      rintro rfl
      have less := toil_workerMove (awake inv joining).1 (.of_workerStep taken)
      omega
    · rintro s s' ⟨inv, joining, _, level⟩ taken
      have less := toil_workerMove (awake inv joining).1 (.of_workerStep taken)
      rcases toil_next inv joining taken with destroyed | ⟨still, _⟩
      · exact .inl destroyed
      · exact .inr ⟨still, level ▸ less⟩

/-- **The queue ends.** In a fair run the client returns from `destroy`. -/
theorem eventually_destroyed (small : capacity < 2 ^ 32)
    (invariant : ∀ i, Inv capacity (run.state i)) (joining : (run.state i).client = .joining) :
    ∃ j ≥ i, (run.state j).client = .destroyed :=
  run.eventually_of_rank (P := fun s => s.client = .joining) (Q := fun s => s.client = .destroyed)
    toil
    (fun _ joining => toil_descends run small (invariant _) joining) joining

end Runs

/-! ## What the queue promises -/

section Promises

variable {n capacity : Nat} {s s' : State n}

/-- The client returns from `wait_all`, `drain` or `destroy`. -/
def Returns (action : Action n) (s s' : State n) : Prop :=
  (s.client.inBatch ∨ action = .call .waitAll ∨ action = .call .drain) ∧ s'.client = .idle ∨
    s.client = .joining ∧ s'.client = .destroyed

/-- The client is in a call that waits for other threads. -/
def ClientPc.blocked (pc : ClientPc) : Bool := pc.inBatch || pc == .joining

theorem Inv.atMostOnce (inv : Inv capacity s) (item : Nat) :
    s.finished.count item ≤ s.started.count item ∧ s.started.count item ≤ 1 ∧
      (item ∈ s.started → item < s.issued) := by
  obtain ⟨items, holds, order⟩ := inv.accounts.order
  have executed := inv.accounts.executed item
  have within : s.started.reverse.Sublist (List.range s.issued) :=
    order ▸ sublist_append_left _ _
  refine ⟨by omega, ?_, fun member => ?_⟩
  · rw [← count_reverse]
    exact nodup_iff_count_le_one.mp (within.nodup nodup_range) item
  · exact mem_range.mp (within.subset (mem_reverse.mpr member))

/-- When the ring is empty and nobody is at work, every issued item has finished once. -/
theorem Inv.all_finished (inv : Inv capacity s) (empty : s.ring.count = 0)
    (rest : workersSum WorkerPc.busy s.workers = 0) (free : s.client.busy = 0) :
    ∀ item < s.issued, s.finished.count item = 1 := by
  intro item issued
  obtain ⟨items, holds, order⟩ := inv.accounts.order
  have none : items = [] := length_eq_zero_iff.mp (holds.count_eq.symm.trans empty)
  rw [none, append_nil] at order
  have once : s.started.count item = 1 := by
    rw [← count_reverse, order]
    exact count_eq_one_of_mem nodup_range (mem_range.mpr issued)
  have executed := inv.accounts.executed item
  have workers := workersSum_mono s.workers (WorkerPc.executes_le_busy item)
  have client : s.client.executes item ≤ s.client.busy := by
    cases s.client with
    | drainRunning other =>
      simp only [ClientPc.executes, ClientPc.busy]
      split <;> omega
    | _ => exact Nat.zero_le _
  omega

theorem waitLoop_idle (s : State n) (idle : (waitLoop s).client = .idle) :
    (waitLoop s).submitted = 0 := by
  unfold waitLoop at idle ⊢
  split
  · rename_i remaining
    simp [remaining] at idle
  · rfl

theorem drainWait_idle (s : State n) (idle : (drainWait s).client = .idle) :
    (drainWait s).submitted = 0 := by
  unfold drainWait at idle ⊢
  split
  · rename_i remaining
    simp [remaining] at idle
  · rfl

theorem drainLoop_idle (s : State n) (idle : (drainLoop capacity s).client = .idle) :
    (drainLoop capacity s).submitted = 0 := by
  unfold drainLoop at idle ⊢
  split
  · rename_i empty
    rw [if_pos empty] at idle
    exact drainWait_idle s idle
  · rename_i pending
    simp [pending] at idle

variable {action : Action n}

/-- A batch that returns has started the counters anew. -/
theorem submitted_of_returns (taken : next capacity action s = some s')
    (call : s.client.inBatch ∨ action = .call .waitAll ∨ action = .call .drain)
    (idle : s'.client = .idle) : s'.submitted = 0 := by
  rcases call with inBatch | rfl | rfl
  · by_cases own : action = .client
    · subst own
      cases pc : s.client with
      | idle | waitAsleep | drainAsleep | destroyed => simp [next, clientStep, pc] at taken
      | joining => simp [pc, ClientPc.inBatch] at inBatch
      | waitCheck =>
        simp only [next, clientStep, pc] at taken
        cases taken
        exact waitLoop_idle s idle
      | drainRunning item =>
        simp only [next, clientStep, pc] at taken
        cases taken
        cases idle
      | drainReturned =>
        simp only [next, clientStep, pc] at taken
        cases taken
        exact drainLoop_idle s.complete idle
      | drainCheck =>
        simp only [next, clientStep, pc] at taken
        cases taken
        exact drainWait_idle s idle
    · rcases client_frame (ne_idle_of_inBatch inBatch) own taken with same | same
      · exact absurd (same ▸ idle) (ne_idle_of_inBatch inBatch)
      · exact absurd (same ▸ idle) (ne_idle_of_inBatch (s.client.wake_inBatch ▸ inBatch))
  · simp only [next] at taken
    split at taken
    · cases taken
      exact waitLoop_idle _ idle
    · cases taken
  · simp only [next] at taken
    split at taken
    · cases taken
      exact drainLoop_idle _ idle
    · cases taken

/-- When the client returns, every item that was ever submitted has finished once. -/
theorem Inv.finished_of_returns (inv : Inv capacity s) (small : capacity < 2 ^ 32)
    (threads : 0 < n) (taken : Workqueue.next capacity action s = some s')
    (returns : Returns action s s') : ∀ item < s'.issued, s'.finished.count item = 1 := by
  have after := inv.next small taken
  rcases returns with ⟨call, idle⟩ | ⟨joining, destroyed⟩
  · obtain ⟨_, rest⟩ := after.rested idle
    have batch := after.accounts.batch
    rw [submitted_of_returns taken call idle] at batch
    exact after.all_finished (by omega) rest (by rw [idle]; rfl)
  · have gone : ∀ w, s'.workers w = .exited := by
      by_cases own : action = .client
      · subst own
        rw [clientStep_workers taken]
        simp only [Workqueue.next, Workqueue.clientStep, joining] at taken
        split at taken
        · assumption
        · cases taken
      · rcases client_frame (by simp [joining]) own taken with same | same
        · simp [same, joining] at destroyed
        · simp [same, joining, ClientPc.wake] at destroyed
    refine after.all_finished (after.accounts.workerExited ⟨0, threads⟩ (gone _)).2 ?_
      (by rw [destroyed]; rfl)
    exact (workersSum_eq_zero_iff _ _).mpr fun w => by rw [gone w]; rfl

theorem running_of_wake {pc : WorkerPc} {item : Nat} (running : pc.wake = .running item) :
    pc = .running item := by
  cases pc <;> simp_all [WorkerPc.wake]

theorem running_of_startCall {call : Call} {w : Fin n} {item : Nat}
    (running : (startCall capacity s call).workers w = .running item) :
    s.workers w = .running item := by
  cases call with
  | submit =>
    simp only [startCall, submit] at running
    split at running <;> exact running
  | waitAll =>
    simp only [startCall, waitLoop] at running
    split at running <;> exact running_of_wake running
  | drain =>
    simp only [startCall, drainLoop] at running
    split at running
    · rwa [drainWait_workers] at running
    · exact running
  | destroy => exact running_of_wake running

/-- A worker that starts an item does so while the client is in `wait_all`, or during
shutdown. -/
theorem Inv.start_allowed {w : Fin n} {item : Nat} (inv : Inv capacity s)
    (taken : Workqueue.next capacity action s = some s') (running : s'.workers w = .running item) :
    s.workers w = .running item ∨ s.client.waiting ∨ s.shutdown = true := by
  cases action with
  | worker v =>
    cases WorkerMove.of_workerStep taken with
    | sleep ready reason => exact .inl (of_update _ WorkerPc.noConfusion running)
    | exit ready reason => exact .inl (of_update _ WorkerPc.noConfusion running)
    | take ready pending allowed => exact .inr (inv.gate ▸ allowed)
    | finish before => exact .inl (of_update _ WorkerPc.noConfusion running)
    | complete returned =>
      rw [← show s.complete.signalDone.workers = s.workers from
        (signalDone_workers s.complete).1]
      exact .inl (of_update _ WorkerPc.noConfusion running)
  | client => exact .inl (clientStep_workers taken ▸ running)
  | wakeWorker v =>
    cases taken
    simp only [State.setWorker, update_apply] at running
    split at running
    · rename_i same
      exact .inl (same ▸ running_of_wake running)
    · exact .inl running
  | wakeClient =>
    cases taken
    exact .inl running
  | call call =>
    simp only [Workqueue.next] at taken
    split at taken
    · cases taken
      exact .inl (running_of_startCall running)
    · cases taken

/-- **The work queue.** In every reachable state of a queue with at least one worker thread,
each item has been started and has finished at most once. Whenever the client returns from
`wait_all`, `drain` or `destroy`, every item it has submitted has finished exactly once. An
item starts on a worker only while the client is in `wait_all` or destroys the queue. And in
every run in which threads go on when they can, each call of the client returns. -/
theorem workqueue_correct {requested : Nat} (threads : 0 < n)
    (created : workqueueRingCapacity requested = some capacity) :
    (∀ s, Reachable (next capacity) (State.create n) s →
      (∀ item, s.finished.count item ≤ s.started.count item ∧ s.started.count item ≤ 1 ∧
        (item ∈ s.started → item < s.issued)) ∧
      ∀ action s', next capacity action s = some s' →
        (Returns action s s' → ∀ item < s'.issued, s'.finished.count item = 1) ∧
        ∀ w item, s'.workers w = .running item →
          s.workers w = .running item ∨ s.client.waiting ∨ s.shutdown = true) ∧
    ∀ run : FairRun (next capacity) GoesOn, run.state 0 = State.create n →
      ∀ i, (run.state i).client.blocked →
        ∃ j ≥ i, ((run.state j).client = .idle ∨ (run.state j).client = .destroyed) := by
  obtain ⟨_, large, small⟩ := workqueueRingCapacity_spec created
  have invariant (s : State n) (reachable : Reachable (next capacity) (State.create n) s) :
      Inv capacity s :=
    reachable.invariant (.create (by omega)) fun _ _ _ inv taken => inv.next small taken
  refine ⟨fun s reachable => ?_, fun run start i blocked => ?_⟩
  · have inv := invariant s reachable
    exact ⟨inv.atMostOnce, fun action s' taken =>
      ⟨inv.finished_of_returns small threads taken, fun w item => inv.start_allowed taken⟩⟩
  · have always (i : Nat) : Inv capacity (run.state i) := invariant _ (start ▸ run.reachable i)
    rw [ClientPc.blocked, Bool.or_eq_true, beq_iff_eq] at blocked
    rcases blocked with inBatch | joining
    · obtain ⟨j, later, idle⟩ := eventually_idle run small threads always inBatch
      exact ⟨j, later, .inl idle⟩
    · obtain ⟨j, later, destroyed⟩ := eventually_destroyed run small always joining
      exact ⟨j, later, .inr destroyed⟩

/-- The client submits an item and waits for it; one worker executes it. -/
def oneItem : List (Action 1) :=
  [.call .submit, .call .waitAll, .worker 0, .worker 0, .worker 0, .client, .worker 0]

/-- The schedule with one item is a fair run: at its end the worker sleeps. -/
def oneItemRun : FairRun (next (n := 1) 256) GoesOn :=
  .ofSchedule (State.create 1) oneItem (by decide +kernel) fun action goesOn => by
    cases action with
    | worker w =>
      clear goesOn
      revert w
      decide +kernel
    | client => decide +kernel
    | wakeWorker w => exact goesOn.elim
    | wakeClient => exact goesOn.elim
    | call call => exact goesOn.elim

theorem workqueue_correct_one_item :
    (oneItemRun.state 2).client = .waitAsleep ∧
      ∃ j ≥ 2, ((oneItemRun.state j).client = .idle ∨ (oneItemRun.state j).client = .destroyed) :=
  ⟨by decide +kernel,
    (workqueue_correct Nat.one_pos (show workqueueRingCapacity 1 = some 256 by decide)).2
      oneItemRun rfl 2 (by decide +kernel)⟩

end Promises

end Wirelog.Workqueue

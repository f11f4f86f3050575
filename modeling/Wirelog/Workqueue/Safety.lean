import Wirelog.Foundations.Fairness
import Wirelog.Workqueue.Queue

/-!
# The invariant of the work queue

Every item that has been issued is in the ring or has been started, in the order of submission,
and every started item is being executed or has finished. The batch counters agree with the
ring and with the threads at work, so that no counter wraps around and `completed` reaches
`submitted` exactly when the ring is empty and nobody works. The gate is open while the client
is in `wait_all`, and a thread that sleeps has a reason to (`Inv`). Every action preserves this
(`Inv.next`).
-/

set_option autoImplicit false

namespace Wirelog.Workqueue

open Wirelog.Foundations Function

/-! ## Sums over the workers -/

section Sums

variable {n : Nat} (weight : WorkerPc → Nat) (workers : Fin n → WorkerPc)

/-- What the workers weigh together. -/
def workersSum : Nat := ∑ w, weight (workers w)

/-- Moving one worker changes the sum by the difference. -/
theorem workersSum_update (w : Fin n) (pc : WorkerPc) :
    workersSum weight (update workers w pc) + weight (workers w) =
      workersSum weight workers + weight pc := by
  have split (family : Fin n → WorkerPc) : workersSum weight family =
      weight (family w) + ∑ v ∈ Finset.univ.erase w, weight (family v) :=
    (Finset.add_sum_erase _ _ (Finset.mem_univ w)).symm
  have rest : ∑ v ∈ Finset.univ.erase w, weight (update workers w pc v) =
      ∑ v ∈ Finset.univ.erase w, weight (workers v) :=
    Finset.sum_congr rfl fun v member => by
      rw [update_of_ne (Finset.ne_of_mem_erase member)]
  rw [split (update workers w pc), split workers, rest, update_self]
  omega

theorem le_workersSum (w : Fin n) : weight (workers w) ≤ workersSum weight workers :=
  Finset.single_le_sum (f := fun v => weight (workers v)) (fun _ _ => Nat.zero_le _)
    (Finset.mem_univ w)

theorem workersSum_mono {weight weight' : WorkerPc → Nat} (below : ∀ pc, weight pc ≤ weight' pc) :
    workersSum weight workers ≤ workersSum weight' workers :=
  Finset.sum_le_sum fun w _ => below (workers w)

/-- Waking the workers changes no weight that sleep has no part in. -/
theorem workersSum_wake (same : weight .asleep = weight .check) :
    workersSum weight (fun w => (workers w).wake) = workersSum weight workers := by
  have each (pc : WorkerPc) : weight pc.wake = weight pc := by
    cases pc with
    | asleep => exact same.symm
    | _ => rfl
  exact Finset.sum_congr rfl fun w _ => each (workers w)

theorem workersSum_eq_zero_iff :
    workersSum weight workers = 0 ↔ ∀ w, weight (workers w) = 0 := by
  simp [workersSum]

/-- A worker other than the one that moves is where it was. -/
theorem of_update {w v : Fin n} {pc target : WorkerPc} (elsewhere : pc ≠ target)
    (found : update workers w pc v = target) : workers v = target := by
  rw [update_apply] at found
  split at found
  · exact absurd found elsewhere
  · exact found

end Sums

/-! ## What a worker can do -/

/-- The actions of a worker, each with its guard. -/
inductive WorkerMove {n : Nat} (capacity : Nat) (s : State n) (w : Fin n) : State n → Prop
  | sleep (ready : s.workers w = .check)
      (reason : (s.ring.count = 0 ∨ s.dispatchEnabled = false) ∧ s.shutdown = false) :
      WorkerMove capacity s w (s.setWorker w .asleep)
  | exit (ready : s.workers w = .check) (reason : s.shutdown = true ∧ s.ring.count = 0) :
      WorkerMove capacity s w (s.setWorker w .exited)
  | take (ready : s.workers w = .check) (pending : s.ring.count ≠ 0)
      (allowed : s.dispatchEnabled = true ∨ s.shutdown = true) :
      WorkerMove capacity s w ((s.take capacity).setWorker w (.running s.ring.front))
  | finish {item : Nat} (running : s.workers w = .running item) :
      WorkerMove capacity s w ({ s with finished := item :: s.finished }.setWorker w .returned)
  | complete (returned : s.workers w = .returned) :
      WorkerMove capacity s w (s.complete.signalDone.setWorker w .check)

theorem WorkerMove.of_workerStep {n capacity : Nat} {s s' : State n} {w : Fin n}
    (taken : workerStep capacity s w = some s') : WorkerMove capacity s w s' := by
  cases pc : s.workers w with
  | check =>
    simp only [workerStep, pc] at taken
    split at taken
    · rename_i reason
      cases taken
      exact .sleep pc reason
    rename_i awake
    split at taken
    · rename_i reason
      cases taken
      exact .exit pc reason
    · rename_i stays
      cases taken
      refine .take pc (fun empty => ?_) ?_
      · cases stop : s.shutdown <;> simp_all
      · cases stop : s.shutdown <;> simp_all
  | asleep => simp [workerStep, pc] at taken
  | exited => simp [workerStep, pc] at taken
  | running item =>
    simp only [workerStep, pc] at taken
    cases taken
    exact .finish pc
  | returned =>
    simp only [workerStep, pc] at taken
    cases taken
    exact .complete pc

/-! ## Who is at work -/

/-- A worker that has taken an item and not yet counted it. -/
def WorkerPc.busy : WorkerPc → Nat
  | .running _ | .returned => 1
  | _ => 0

def WorkerPc.executes (item : Nat) : WorkerPc → Nat
  | .running other => if other = item then 1 else 0
  | _ => 0

def ClientPc.busy : ClientPc → Nat
  | .drainRunning _ | .drainReturned => 1
  | _ => 0

def ClientPc.executes (item : Nat) : ClientPc → Nat
  | .drainRunning other => if other = item then 1 else 0
  | _ => 0

theorem WorkerPc.executes_le_busy (item : Nat) (pc : WorkerPc) : pc.executes item ≤ pc.busy := by
  cases pc with
  | running other =>
    simp only [executes, busy]
    split <;> omega
  | _ => exact Nat.zero_le _

/-- The client is in `wait_all`. -/
def ClientPc.waiting : ClientPc → Bool
  | .waitCheck | .waitAsleep => true
  | _ => false

def ClientPc.leaving : ClientPc → Bool
  | .joining | .destroyed => true
  | _ => false

/-! ## The invariant -/

/-- What the counters, the ring and the workers agree on, with the client at a given point. -/
structure Accounts {n : Nat} (capacity : Nat) (client : ClientPc) (s : State n) : Prop where
  /-- The ring holds the items that have been issued and not been started. -/
  order : ∃ items, s.ring.Holds capacity items ∧
    s.started.reverse ++ items = List.range s.issued
  /-- A started item is being executed or has finished. -/
  executed : ∀ item, s.finished.count item + workersSum (WorkerPc.executes item) s.workers +
    client.executes item = s.started.count item
  batch : s.submitted = s.completed + s.ring.count + workersSum WorkerPc.busy s.workers +
    client.busy
  bounded : s.submitted ≤ capacity
  workerAsleep : ∀ w, s.workers w = .asleep →
    (s.ring.count = 0 ∨ s.dispatchEnabled = false) ∧ s.shutdown = false
  workerExited : ∀ w, s.workers w = .exited → s.shutdown = true ∧ s.ring.count = 0

/-- What holds in every reachable state of a queue. -/
structure Inv {n : Nat} (capacity : Nat) (s : State n) : Prop where
  accounts : Accounts capacity s.client s
  rested : s.client = .idle → s.completed = 0 ∧ workersSum WorkerPc.busy s.workers = 0
  gate : s.dispatchEnabled = s.client.waiting
  stopped : s.shutdown = s.client.leaving
  clientAsleep : s.client = .waitAsleep ∨ s.client = .drainAsleep → s.completed < s.submitted
  drained : s.client = .drainCheck ∨ s.client = .drainAsleep → s.ring.count = 0

section Preservation

variable {n capacity : Nat} {s : State n} {client : ClientPc}

theorem Inv.create (positive : 0 < capacity) : Inv capacity (State.create n) where
  accounts :=
    { order := ⟨[], .empty positive _, rfl⟩
      executed := fun item => by
        simp [State.create, workersSum, WorkerPc.executes, ClientPc.executes]
      batch := by simp [State.create, workersSum, WorkerPc.busy, ClientPc.busy]
      bounded := Nat.zero_le _
      workerAsleep := fun w asleep => nomatch asleep
      workerExited := fun w exited => nomatch exited }
  rested _ := ⟨rfl, by simp [State.create, workersSum, WorkerPc.busy]⟩
  gate := rfl
  stopped := rfl
  clientAsleep := by simp [State.create]
  drained := by simp [State.create]

/-! ## Taking an item -/

section

variable (accounts : Accounts capacity client s)

include accounts

/-- The item at the head of the ring is the next one in the order of submission. -/
theorem Accounts.order_take (pending : s.ring.count ≠ 0) :
    ∃ items, (s.ring.dequeue capacity).Holds capacity items ∧
      (s.ring.front :: s.started).reverse ++ items = List.range s.issued := by
  obtain ⟨items, holds, order⟩ := accounts.order
  cases items with
  | nil => exact absurd holds.count_eq pending
  | cons item items =>
    refine ⟨items, holds.dequeue, ?_⟩
    rw [holds.front, List.reverse_cons, List.append_assoc, List.singleton_append, order]

/-! ## Moves of a worker -/

/-- A worker that is not at work falls asleep, wakes up or exits. -/
theorem Accounts.setWorker {w : Fin n} {pc : WorkerPc} (busy : pc.busy = (s.workers w).busy)
    (executes : ∀ item, pc.executes item = (s.workers w).executes item)
    (asleep : pc = .asleep → (s.ring.count = 0 ∨ s.dispatchEnabled = false) ∧ s.shutdown = false)
    (exited : pc = .exited → s.shutdown = true ∧ s.ring.count = 0) :
    Accounts capacity client (s.setWorker w pc) where
  order := accounts.order
  executed item := by
    have moved := workersSum_update (WorkerPc.executes item) s.workers w pc
    have before := accounts.executed item
    have same := executes item
    simp only [State.setWorker]
    omega
  batch := by
    have moved := workersSum_update WorkerPc.busy s.workers w pc
    have before := accounts.batch
    simp only [State.setWorker]
    omega
  bounded := accounts.bounded
  workerAsleep v sleeps := by
    simp only [State.setWorker, update_apply] at sleeps
    split at sleeps
    · exact asleep sleeps
    · exact accounts.workerAsleep v sleeps
  workerExited v gone := by
    simp only [State.setWorker, update_apply] at gone
    split at gone
    · exact exited gone
    · exact accounts.workerExited v gone

theorem Accounts.workerTake {w : Fin n} (at_check : s.workers w = .check)
    (pending : s.ring.count ≠ 0) :
    Accounts capacity client ((s.take capacity).setWorker w (.running s.ring.front)) where
  order := accounts.order_take pending
  executed item := by
    have moved := workersSum_update (WorkerPc.executes item) s.workers w (.running s.ring.front)
    have before := accounts.executed item
    simp only [at_check, WorkerPc.executes] at moved
    simp only [State.setWorker, State.take, List.count_cons, beq_iff_eq]
    omega
  batch := by
    have moved := workersSum_update WorkerPc.busy s.workers w (.running s.ring.front)
    have before := accounts.batch
    simp only [at_check, WorkerPc.busy] at moved
    simp only [State.setWorker, State.take, RingBuffer.dequeue]
    omega
  bounded := accounts.bounded
  workerAsleep v sleeps :=
    have before := accounts.workerAsleep v (of_update _ WorkerPc.noConfusion sleeps)
    ⟨.inr (before.1.resolve_left pending), before.2⟩
  workerExited v gone :=
    absurd (accounts.workerExited v (of_update _ WorkerPc.noConfusion gone)).2 pending

theorem Accounts.workerFinish {w : Fin n} {item : Nat} (running : s.workers w = .running item) :
    Accounts capacity client ({ s with finished := item :: s.finished }.setWorker w .returned) where
  order := accounts.order
  executed other := by
    have moved := workersSum_update (WorkerPc.executes other) s.workers w .returned
    have before := accounts.executed other
    simp only [running, WorkerPc.executes] at moved
    simp only [State.setWorker, List.count_cons, beq_iff_eq]
    omega
  batch := by
    have moved := workersSum_update WorkerPc.busy s.workers w .returned
    have before := accounts.batch
    simp only [running, WorkerPc.busy] at moved
    simp only [State.setWorker]
    omega
  bounded := accounts.bounded
  workerAsleep v sleeps := accounts.workerAsleep v (of_update _ WorkerPc.noConfusion sleeps)
  workerExited v gone := accounts.workerExited v (of_update _ WorkerPc.noConfusion gone)

/-- No counter wraps around while somebody is at work. -/
theorem Accounts.completed_lt (atWork : 0 < workersSum WorkerPc.busy s.workers + client.busy) :
    s.completed < s.submitted := by
  have before := accounts.batch
  omega

theorem Accounts.complete_eq (small : capacity < 2 ^ 32)
    (atWork : 0 < workersSum WorkerPc.busy s.workers + client.busy) :
    s.complete = { s with completed := s.completed + 1 } := by
  have below := accounts.completed_lt atWork
  have bounded := accounts.bounded
  rw [State.complete, Nat.mod_eq_of_lt (by omega)]

/-- A worker counts the item it has executed. -/
theorem Accounts.workerComplete {w : Fin n} (returned : s.workers w = .returned) :
    Accounts capacity client ({ s with completed := s.completed + 1 }.setWorker w .check) where
  order := accounts.order
  executed item := by
    have moved := workersSum_update (WorkerPc.executes item) s.workers w .check
    have before := accounts.executed item
    simp only [returned, WorkerPc.executes] at moved
    simp only [State.setWorker]
    omega
  batch := by
    have moved := workersSum_update WorkerPc.busy s.workers w .check
    have before := accounts.batch
    simp only [returned, WorkerPc.busy] at moved
    simp only [State.setWorker]
    omega
  bounded := accounts.bounded
  workerAsleep v sleeps := accounts.workerAsleep v (of_update _ WorkerPc.noConfusion sleeps)
  workerExited v gone := accounts.workerExited v (of_update _ WorkerPc.noConfusion gone)

end

variable {w : Fin n}

/-- While the client is outside of the queue no worker is at work. -/
theorem Inv.not_idle (inv : Inv capacity s) (atWork : (s.workers w).busy = 1) :
    s.client ≠ .idle := by
  intro idle
  have part := le_workersSum WorkerPc.busy s.workers w
  have none := (inv.rested idle).2
  omega

/-- A worker that is not at work falls asleep, wakes up or exits. -/
theorem Inv.setWorker {pc : WorkerPc} (inv : Inv capacity s) (busy : pc.busy = (s.workers w).busy)
    (executes : ∀ item, pc.executes item = (s.workers w).executes item)
    (asleep : pc = .asleep → (s.ring.count = 0 ∨ s.dispatchEnabled = false) ∧ s.shutdown = false)
    (exited : pc = .exited → s.shutdown = true ∧ s.ring.count = 0) :
    Inv capacity (s.setWorker w pc) where
  accounts := inv.accounts.setWorker busy executes asleep exited
  rested idle := by
    have moved := workersSum_update WorkerPc.busy s.workers w pc
    obtain ⟨completed, none⟩ := inv.rested idle
    refine ⟨completed, ?_⟩
    simp only [State.setWorker]
    omega
  gate := inv.gate
  stopped := inv.stopped
  clientAsleep := inv.clientAsleep
  drained := inv.drained

/-- The accounts do not depend on where the client waits. -/
theorem Accounts.setClient {client' pc : ClientPc} (accounts : Accounts capacity client s)
    (busy : client'.busy = client.busy)
    (executes : ∀ item, client'.executes item = client.executes item) :
    Accounts capacity client' { s with client := pc } where
  order := accounts.order
  executed item := by
    rw [executes]
    exact accounts.executed item
  batch := by
    rw [busy]
    exact accounts.batch
  bounded := accounts.bounded
  workerAsleep := accounts.workerAsleep
  workerExited := accounts.workerExited

/-- The client wakes up, whether or not it has a reason to sleep. -/
theorem Accounts.wakeClient (accounts : Accounts capacity s.client s)
    (rested : s.client = .idle → s.completed = 0 ∧ workersSum WorkerPc.busy s.workers = 0)
    (gate : s.dispatchEnabled = s.client.waiting) (stopped : s.shutdown = s.client.leaving)
    (drained : s.client = .drainCheck ∨ s.client = .drainAsleep → s.ring.count = 0) :
    Inv capacity { s with client := s.client.wake } := by
  -- waking moves the client within the call it is in
  have kept : s.client.wake.busy = s.client.busy ∧
      (∀ item, s.client.wake.executes item = s.client.executes item) ∧
      s.client.wake.waiting = s.client.waiting ∧ s.client.wake.leaving = s.client.leaving := by
    cases s.client <;> exact ⟨rfl, fun _ => rfl, rfl, rfl⟩
  have idle : s.client.wake = .idle → s.client = .idle := by
    cases s.client <;> simp [ClientPc.wake]
  have awake : ¬ (s.client.wake = .waitAsleep ∨ s.client.wake = .drainAsleep) := by
    cases s.client <;> simp [ClientPc.wake]
  have inDrain : s.client.wake = .drainCheck ∨ s.client.wake = .drainAsleep →
      s.client = .drainCheck ∨ s.client = .drainAsleep := by
    cases s.client <;> simp [ClientPc.wake]
  exact
    { accounts := accounts.setClient kept.1 kept.2.1
      rested := fun outside => rested (idle outside)
      gate := gate.trans kept.2.2.1.symm
      stopped := stopped.trans kept.2.2.2.symm
      clientAsleep := fun asleep => absurd asleep awake
      drained := fun wait => drained (inDrain wait) }

/-- A worker counts the item it has executed. If it was the last one the client wakes up. -/
theorem Inv.workerComplete (inv : Inv capacity s) (small : capacity < 2 ^ 32)
    (returned : s.workers w = .returned) :
    Inv capacity (s.complete.signalDone.setWorker w .check) := by
  have busy : (s.workers w).busy = 1 := by rw [returned]; rfl
  have part := le_workersSum WorkerPc.busy s.workers w
  have inside := inv.not_idle busy
  have atWork : 0 < workersSum WorkerPc.busy s.workers + s.client.busy := by omega
  have below := inv.accounts.completed_lt atWork
  have accounts := inv.accounts.workerComplete returned
  rw [inv.accounts.complete_eq small atWork, State.signalDone]
  split
  · exact Accounts.wakeClient (s := { s with completed := s.completed + 1 }.setWorker w .check)
      accounts (fun idle => absurd idle inside) inv.gate inv.stopped inv.drained
  rename_i remaining
  exact
    { inv with
      accounts := accounts
      rested := fun idle => absurd idle inside
      clientAsleep := fun _ => Nat.lt_of_le_of_ne below remaining }

theorem Inv.workerMove {s' : State n} (inv : Inv capacity s) (small : capacity < 2 ^ 32)
    (move : WorkerMove capacity s w s') : Inv capacity s' := by
  cases move with
  | sleep ready reason =>
    exact inv.setWorker (by rw [ready]; rfl) (fun _ => by rw [ready]; rfl) (fun _ => reason)
      WorkerPc.noConfusion
  | exit ready reason =>
    exact inv.setWorker (by rw [ready]; rfl) (fun _ => by rw [ready]; rfl)
      WorkerPc.noConfusion fun _ => reason
  | take ready pending allowed =>
    have inside : s.client ≠ .idle := by
      intro idle
      rw [inv.gate, inv.stopped, idle] at allowed
      simp [ClientPc.waiting, ClientPc.leaving] at allowed
    exact
      { inv with
        accounts := inv.accounts.workerTake ready pending
        rested := fun idle => absurd idle inside
        drained := fun wait => absurd (inv.drained wait) pending }
  | finish running =>
    have inside := inv.not_idle (w := w) (by rw [running]; rfl)
    exact
      { inv with
        accounts := inv.accounts.workerFinish running
        rested := fun idle => absurd idle inside }
  | complete returned => exact inv.workerComplete small returned

/-! ## Moves of the client -/

/-- When the counters meet, the ring is empty and nobody is at work. -/
theorem Accounts.batch_done (accounts : Accounts capacity client s)
    (done : ¬ s.completed < s.submitted) :
    s.ring.count = 0 ∧ workersSum WorkerPc.busy s.workers = 0 := by
  have before := accounts.batch
  omega

section

variable (accounts : Accounts capacity .idle s)

include accounts

/-- A batch that is done leaves counters that can start from zero. -/
theorem Accounts.endBatch (done : ¬ s.completed < s.submitted) (running : s.shutdown = false) :
    Inv capacity
      { s with dispatchEnabled := false, submitted := 0, completed := 0, client := .idle } where
  accounts :=
    { order := accounts.order
      executed := accounts.executed
      batch := by
        obtain ⟨empty, none⟩ := accounts.batch_done done
        simp [empty, none, ClientPc.busy]
      bounded := Nat.zero_le _
      workerAsleep := fun w sleeps => ⟨.inr rfl, (accounts.workerAsleep w sleeps).2⟩
      workerExited := accounts.workerExited }
  rested _ := ⟨rfl, (accounts.batch_done done).2⟩
  gate := rfl
  stopped := running
  clientAsleep := by simp
  drained := by simp

/-- The client tests whether the batch is done, in `wait_all`. -/
theorem Accounts.waitLoop (gate : s.dispatchEnabled = true) (running : s.shutdown = false) :
    Inv capacity (waitLoop s) := by
  unfold Workqueue.waitLoop
  split
  · rename_i remaining
    exact
      { accounts := accounts.setClient rfl fun _ => rfl
        rested := fun idle => nomatch idle
        gate := gate
        stopped := running
        clientAsleep := fun _ => remaining
        drained := by simp }
  · rename_i done
    exact accounts.endBatch done running

/-- The client tests whether the batch is done, in `drain`. -/
theorem Accounts.drainWait (gate : s.dispatchEnabled = false) (running : s.shutdown = false)
    (empty : s.ring.count = 0) : Inv capacity (drainWait s) := by
  unfold Workqueue.drainWait
  split
  · rename_i remaining
    exact
      { accounts := accounts.setClient rfl fun _ => rfl
        rested := fun idle => nomatch idle
        gate := gate
        stopped := running
        clientAsleep := fun _ => remaining
        drained := fun _ => empty }
  · rename_i done
    have ended := accounts.endBatch done running
    rwa [← gate] at ended

theorem Accounts.clientTake (pending : s.ring.count ≠ 0) :
    Accounts capacity (.drainRunning s.ring.front)
      { s.take capacity with client := .drainRunning s.ring.front } where
  order := accounts.order_take pending
  executed item := by
    have before := accounts.executed item
    simp only [ClientPc.executes] at before
    simp only [State.take, List.count_cons, beq_iff_eq, ClientPc.executes]
    omega
  batch := by
    have before := accounts.batch
    simp only [ClientPc.busy] at before
    simp only [State.take, RingBuffer.dequeue, ClientPc.busy]
    omega
  bounded := accounts.bounded
  workerAsleep w sleeps :=
    have before := accounts.workerAsleep w sleeps
    ⟨.inr (before.1.resolve_left pending), before.2⟩
  workerExited w gone := absurd (accounts.workerExited w gone).2 pending

theorem Accounts.drainLoop (gate : s.dispatchEnabled = false) (running : s.shutdown = false) :
    Inv capacity (drainLoop capacity s) := by
  unfold Workqueue.drainLoop
  split
  · rename_i empty
    exact accounts.drainWait gate running empty
  rename_i pending
  exact
    { accounts := accounts.clientTake pending
      rested := fun idle => nomatch idle
      gate := gate
      stopped := running
      clientAsleep := by simp
      drained := by simp }

end

theorem Inv.clientStep {s' : State n} (inv : Inv capacity s) (small : capacity < 2 ^ 32)
    (taken : clientStep capacity s = some s') : Inv capacity s' := by
  have accounts := inv.accounts
  have gate := inv.gate
  have stopped := inv.stopped
  cases pc : s.client with
  | idle | waitAsleep | drainAsleep | destroyed => simp [Workqueue.clientStep, pc] at taken
  | waitCheck =>
    simp only [Workqueue.clientStep, pc] at taken
    cases taken
    rw [pc] at accounts gate stopped
    have outside : Accounts capacity .idle s := accounts.setClient rfl fun _ => rfl
    exact outside.waitLoop gate stopped
  | drainRunning item =>
    simp only [Workqueue.clientStep, pc] at taken
    cases taken
    rw [pc] at accounts gate stopped
    exact
      { accounts :=
          { accounts with
            executed := fun other => by
              have before := accounts.executed other
              simp only [ClientPc.executes] at before
              simp only [List.count_cons, beq_iff_eq, ClientPc.executes]
              omega }
        rested := fun idle => nomatch idle
        gate := gate
        stopped := stopped
        clientAsleep := by simp
        drained := by simp }
  | drainReturned =>
    simp only [Workqueue.clientStep, pc] at taken
    cases taken
    rw [pc] at accounts gate stopped
    rw [accounts.complete_eq small (by simp [ClientPc.busy])]
    refine Accounts.drainLoop { accounts with batch := ?_ } gate stopped
    have before := accounts.batch
    simp only [ClientPc.busy] at before
    simp only [ClientPc.busy]
    omega
  | drainCheck =>
    simp only [Workqueue.clientStep, pc] at taken
    cases taken
    have empty := inv.drained (.inl pc)
    rw [pc] at accounts gate stopped
    have outside : Accounts capacity .idle s := accounts.setClient rfl fun _ => rfl
    exact outside.drainWait gate stopped empty
  | joining =>
    simp only [Workqueue.clientStep, pc] at taken
    split at taken
    · cases taken
      rw [pc] at accounts gate stopped
      exact
        { accounts := accounts.setClient rfl fun _ => rfl
          rested := fun idle => nomatch idle
          gate := gate
          stopped := stopped
          clientAsleep := by simp
          drained := by simp }
    · nomatch taken

/-! ## Calls -/

/-- After a broadcast no worker is asleep. -/
theorem Accounts.broadcast (accounts : Accounts capacity client s) (open' stop' : Bool)
    (stays : s.shutdown = true → stop' = true) :
    Accounts capacity client { s with dispatchEnabled := open', shutdown := stop' }.broadcast where
  order := accounts.order
  executed item := by
    simp only [State.broadcast, workersSum_wake (WorkerPc.executes item) s.workers rfl]
    exact accounts.executed item
  batch := by
    simp only [State.broadcast, workersSum_wake WorkerPc.busy s.workers rfl]
    exact accounts.batch
  bounded := accounts.bounded
  workerAsleep w sleeps := by
    simp only [State.broadcast] at sleeps
    cases pc : s.workers w <;> simp [pc, WorkerPc.wake] at sleeps
  workerExited w gone := by
    have before : s.workers w = .exited := by
      simp only [State.broadcast] at gone
      cases pc : s.workers w <;> simp [pc, WorkerPc.wake] at gone
      rfl
    exact ⟨stays (accounts.workerExited w before).1, (accounts.workerExited w before).2⟩

section

variable (inv : Inv capacity s) (small : capacity < 2 ^ 32)

include inv small

/-- Submitting an item. While the client is outside of the queue, the batch is what the ring
holds, so the counter of submitted items stays within the capacity. -/
theorem Inv.submit (idle : s.client = .idle) : Inv capacity (submit capacity s) := by
  unfold Workqueue.submit
  split
  · exact inv
  rename_i room
  obtain ⟨completed, none⟩ := inv.rested idle
  have batch := inv.accounts.batch
  have counted : (s.submitted + 1) % 2 ^ 32 = s.ring.count + 1 := by
    rw [idle, completed, none] at batch
    simp only [ClientPc.busy] at batch
    rw [Nat.mod_eq_of_lt (by omega)]
    omega
  have closed : s.dispatchEnabled = false := by rw [inv.gate, idle]; rfl
  have running : s.shutdown = false := by rw [inv.stopped, idle]; rfl
  refine { accounts := ?_, rested := inv.rested, gate := inv.gate, stopped := inv.stopped,
           clientAsleep := ?_, drained := ?_ }
  · refine
      { order := ?_
        executed := inv.accounts.executed
        batch := ?_
        bounded := ?_
        workerAsleep := fun w sleeps => ⟨.inr closed, running⟩
        workerExited := fun w gone => ?_ }
    · obtain ⟨items, holds, order⟩ := inv.accounts.order
      refine ⟨items ++ [s.issued], holds.enqueue (Nat.lt_of_not_ge room) _, ?_⟩
      rw [← List.append_assoc, order, List.range_succ]
    · simp only [counted, completed, none, idle, ClientPc.busy, RingBuffer.enqueue]
      omega
    · simp only [counted]
      omega
    · have stopped := (inv.accounts.workerExited w gone).1
      simp [running] at stopped
  · intro asleep
    simp [idle] at asleep
  · intro wait
    simp [idle] at wait

theorem Inv.startCall {call : Call} (idle : s.client = .idle) :
    Inv capacity (startCall capacity s call) := by
  have accounts := inv.accounts
  have gate := inv.gate
  have stopped := inv.stopped
  cases call with
  | submit => exact inv.submit small idle
  | waitAll =>
    rw [idle] at accounts stopped
    exact (accounts.broadcast true s.shutdown fun stop => stop).waitLoop rfl stopped
  | drain =>
    rw [idle] at accounts gate stopped
    refine Accounts.drainLoop { accounts with workerAsleep := ?_ } rfl stopped
    exact fun w sleeps => ⟨.inr rfl, stopped⟩
  | destroy =>
    rw [idle] at accounts gate
    exact
      { accounts :=
          (accounts.broadcast s.dispatchEnabled true fun _ => rfl).setClient rfl fun _ => rfl
        rested := fun idle => nomatch idle
        gate := gate
        stopped := rfl
        clientAsleep := by simp [Workqueue.startCall]
        drained := by simp [Workqueue.startCall] }

/-- **Every action preserves the invariant.** -/
theorem Inv.next {action : Action n} {s' : State n} (taken : next capacity action s = some s') :
    Inv capacity s' := by
  cases action with
  | worker w => exact inv.workerMove small (.of_workerStep taken)
  | client => exact inv.clientStep small taken
  | wakeWorker w =>
    cases taken
    refine inv.setWorker ?_ (fun item => ?_) ?_ ?_ <;>
      cases pc : s.workers w <;> simp [WorkerPc.wake, WorkerPc.busy, WorkerPc.executes]
    exact inv.accounts.workerExited w pc
  | wakeClient =>
    cases taken
    exact inv.accounts.wakeClient inv.rested inv.gate inv.stopped inv.drained
  | call call =>
    simp only [Workqueue.next] at taken
    split at taken
    · rename_i idle
      cases taken
      exact inv.startCall small idle
    · nomatch taken

end

end Preservation

/-- **Items start in the order of their submission.** In every reachable state the items that have
been started are the first ones, the ring holds the others in their order, no counter has wrapped
around, and a thread sleeps only while there is nothing for it to do. -/
theorem workqueue_orderly {n capacity requested : Nat} {s : State n}
    (created : workqueueRingCapacity requested = some capacity)
    (reachable : Reachable (next capacity) (State.create n) s) :
    s.started.reverse = List.range s.started.length ∧
      s.started.length + s.ring.count = s.issued ∧
      (∀ i < s.ring.count,
        s.ring.slots ((s.ring.head + i) % capacity) = s.started.length + i) ∧
      (s.completed ≤ s.submitted ∧ s.submitted ≤ capacity) ∧
      (∀ w, s.workers w = .asleep → s.ring.count = 0 ∨ s.dispatchEnabled = false) ∧
      (s.client = .waitAsleep ∨ s.client = .drainAsleep → s.completed < s.submitted) := by
  obtain ⟨_, large, small⟩ := workqueueRingCapacity_spec created
  have inv : Inv capacity s :=
    reachable.invariant (.create (by omega)) fun _ _ _ inv taken => inv.next small taken
  obtain ⟨items, holds, order⟩ := inv.accounts.order
  rw [List.range_eq_range', eq_comm, List.range'_eq_append_iff] at order
  obtain ⟨k, below, started, rfl⟩ := order
  have length : s.started.length = k := by simpa using congrArg List.length started
  have count := holds.count_eq
  rw [List.length_range'] at count
  refine ⟨by rw [length, started, List.range_eq_range'], by omega, fun i inside => ?_,
    ⟨?_, inv.accounts.bounded⟩, fun w asleep => (inv.accounts.workerAsleep w asleep).1,
    inv.clientAsleep⟩
  · rw [holds.slot i (by simpa using count ▸ inside)]
    simp [length]
  · have batch := inv.accounts.batch
    omega

/-- Two items are submitted and waited for, and one of two workers has taken the first. -/
theorem workqueue_orderly_submitted : ∃ s : State 2, Reachable (next 256) (State.create 2) s ∧
    s.started = [0] ∧ s.ring.slots (s.ring.head % 256) = 1 ∧ s.client = .waitAsleep ∧
    s.completed < s.submitted := by
  have run : Reachable (next 256) (State.create 2) _ :=
    ((Relation.ReflTransGen.single ⟨.call .submit, rfl⟩).tail ⟨.call .submit, rfl⟩).tail
      ⟨.call .waitAll, rfl⟩ |>.tail ⟨.worker 0, rfl⟩
  obtain ⟨-, -, slots, -, -, waits⟩ :=
    workqueue_orderly (show workqueueRingCapacity 2 = some 256 by decide) run
  exact ⟨_, run, rfl, slots 0 (by decide), rfl, waits (.inl rfl)⟩

end Wirelog.Workqueue

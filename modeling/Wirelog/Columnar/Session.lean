import Wirelog.Foundations.SlotTable
import Wirelog.Columnar.Relation

/-!
# The session of the columnar backend
-/

set_option autoImplicit false

namespace Wirelog.Columnar

open Foundations

/-- One call of the delta callback: a row that a relation gains (`1`) or loses (`-1`). -/
structure DeltaEvent where
  relation : String
  row : Row
  diff : Int
  deriving DecidableEq

/-- The outcome of an operation whose code is known. -/
theorem outcome_eq {α : Type} {out : Rc × α} {rc : Rc} (code : out.1 = rc) : out = (rc, out.2) :=
  Prod.ext code rfl

/-- The part of `wl_col_session_t` that the operations on its relations read and write. -/
structure Session where
  /-- The relation table `rels`, searched by name. -/
  rels : SlotTable ColRel.name
  /-- A delta callback is set. -/
  deltaCb : Bool
  lastRemovedRelation : Option String
  outerEpoch : BitVec 32
  pendingInputChange : Bool
  snapshotStableValid : Bool
  /-- The buffered events, in the order in which they were appended. -/
  deltaEvents : List DeltaEvent
  /-- Publication is left to the end of the whole step. -/
  deltaEventTransaction : Bool
  /-- The calls that the callback has received so far. -/
  delivered : List DeltaEvent

namespace Session

variable (s : Session)

variable (name : String)

/-- `session_find_rel`. -/
def findRel : Option ColRel := s.rels.find name

/-- `session_add_rel` on a heap relation: replace the relation of that name, or take a free
slot, or grow the table. -/
def addRel (r : ColRel) : Session := { s with rels := s.rels.put r }

/-- `session_remove_rel`. -/
def removeRel : Session := { s with rels := s.rels.erase name }

/-- Work on the relation of a name in place. -/
def mapRel (f : ColRel → ColRel) (keeps : ∀ r, (f r).name = r.name) : Session :=
  { s with rels := s.rels.modify name f fun r named => (keeps r).trans named }

@[simp] theorem findRel_addRel (r : ColRel) (name : String) :
    (s.addRel r).findRel name = if name = r.name then some r else s.findRel name :=
  SlotTable.find_put _ _ _

@[simp] theorem findRel_removeRel (gone name : String) :
    (s.removeRel gone).findRel name = if name = gone then none else s.findRel name :=
  SlotTable.find_erase _ _ _

@[simp] theorem findRel_mapRel (at_ name : String) (f : ColRel → ColRel)
    (keeps : ∀ r, (f r).name = r.name) :
    (s.mapRel at_ f keeps).findRel name =
      if name = at_ then (s.findRel at_).map f else s.findRel name :=
  SlotTable.find_modify _ _ _ _ fun r named => (keeps r).trans named

/-- Work on every relation of the given names in place. -/
def updateAll (names : List String) (f : ColRel → ColRel) (keeps : ∀ r, (f r).name = r.name) :
    Session :=
  { s with
    rels := s.rels.mapValues (fun r => if r.name ∈ names then f r else r) fun r => by
      split
      · exact keeps r
      · rfl }

@[simp] theorem findRel_updateAll (names : List String) (f : ColRel → ColRel)
    (keeps : ∀ r, (f r).name = r.name) (name : String) :
    (s.updateAll names f keeps).findRel name =
      if name ∈ names then (s.findRel name).map f else s.findRel name := by
  simp only [updateAll, findRel, SlotTable.find_mapValues]
  cases found : s.rels.find name with
  | none => simp
  | some r => by_cases member : name ∈ names <;> simp [SlotTable.key_of_find found, member]

/-- `wl_delta_event_append`, for a list of events. -/
def appendEvents (events : List DeltaEvent) : Session :=
  { s with deltaEvents := s.deltaEvents ++ events }

@[simp] theorem findRel_appendEvents (events : List DeltaEvent) (name : String) :
    (s.appendEvents events).findRel name = s.findRel name := rfl

/-- `wl_columnar_delta_events_clear`. -/
def clearEvents : Session := { s with deltaEvents := [] }

/-- `wl_columnar_delta_events_publish`. -/
def publishEvents : Session :=
  if s.deltaCb then { s with delivered := s.delivered ++ s.deltaEvents } else s

/-- The rows stored under a name, none when there is no such relation. -/
def rowsOf : List Row := ((s.findRel name).map ColRel.rows).getD []

theorem rowsOf_of_findRel {s : Session} {name : String} {r : ColRel}
    (found : s.findRel name = some r) : s.rowsOf name = r.rows := by simp [rowsOf, found]

theorem name_of_findRel {s : Session} {name : String} {r : ColRel}
    (found : s.findRel name = some r) : r.name = name := SlotTable.key_of_find found

end Session

/-- Rows of one integer each. -/
def integerRows (cells : List Cell) : List Row := cells.map fun cell => ⟨[cell]⟩

theorem length_of_mem_integerRows {cells : List Cell} :
    ∀ row ∈ integerRows cells, row.cells.length = 1 := by simp [integerRows]

/-- A relation of one integer column. -/
def ColRel.integers (name : String) (cells : List Cell) : ColRel where
  name := name
  ncols := 1
  columnTypes := []
  rows := integerRows cells
  allocated := true
  baseNrows := cells.length
  width := length_of_mem_integerRows
  stored := fun _ _ => rfl
  canonical := fun row _ => floatCanonical_nil row

/-- A session at rest that holds one relation. -/
def Session.holding (r : ColRel) (deltaCb : Bool) : Session where
  rels := SlotTable.empty.put r
  deltaCb := deltaCb
  lastRemovedRelation := none
  outerEpoch := 0
  pendingInputChange := false
  snapshotStableValid := true
  deltaEvents := []
  deltaEventTransaction := false
  delivered := []

end Wirelog.Columnar

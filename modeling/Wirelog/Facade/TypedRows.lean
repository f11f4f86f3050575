import Wirelog.Foundations.ByteFields
import Wirelog.Foundations.Compensation
import Wirelog.Columnar.Insertion

/-!
# Typed rows of the advanced facade

`wirelog_session_insert_typed` and `wirelog_session_remove_typed` take a batch of rows that
describe themselves: their types, the places of their columns, and their cells. The facade
compares every descriptor with the layout of the relation, converts the cells, and then hands
the rows to the session one at a time (`session_typed_rows`). When the session refuses one, the
rows before it are undone by the inverse operation.

The session and the name of the relation are not null here. Arrays that a descriptor points to
are as long as the code reads them.
-/

set_option autoImplicit false

namespace Wirelog.Facade

open Wirelog.Columnar
open Wirelog.Foundations Wirelog.Foundations.Compensation

/-! ## Layouts -/

/-- `wirelog_compound_kind_t`. -/
inductive CompoundKind where
  | none
  | inline
  | side
  deriving DecidableEq, Repr

/-- `wirelog_column_t`, as far as layouts depend on it. -/
structure Column where
  type : ColumnType
  compoundKind : CompoundKind
  compoundArity : Nat
  compoundInlineColOffset : Nat

/-- `wl_ir_relation_info_t`, as far as layouts depend on it. A slot has a type of its own where
one was declared. -/
structure RelationInfo where
  columns : List Column
  slotType : Nat → Option ColumnType

def Column.width (column : Column) : Nat :=
  if column.compoundKind = .inline then column.compoundArity else 1

/-- `wl_ir_relation_physical_width`. -/
def RelationInfo.physicalWidth (info : RelationInfo) : Nat :=
  (info.columns.map Column.width).sum

/-- `struct typed_layout`. -/
structure TypedLayout where
  logicalNcols : Nat
  physicalNlanes : Nat
  types : List ColumnType
  laneOffsets : List Nat
  physicalTypes : List ColumnType

/-- What the loop over the columns keeps: the end of the columns so far, where they start, and
the types of the lanes. -/
structure LayoutState where
  cursor : Nat
  laneOffsets : List Nat
  physicalTypes : List ColumnType

/-- One round of the loop of `typed_layout_init`; nothing when a slot is beyond the lanes. -/
def layoutColumn (info : RelationInfo) (state : LayoutState) (column : Column × Nat) :
    Option LayoutState :=
  let (column, c) := column
  let offset :=
    if column.compoundKind = .inline then column.compoundInlineColOffset else state.cursor
  let typed := (List.range column.width).foldlM (fun types s =>
    if offset + s ≥ info.physicalWidth then none
    else some (types.set (offset + s) ((info.slotType (c * 4 + s)).getD column.type)))
      state.physicalTypes
  typed.map fun types =>
    { cursor := offset + column.width
      laneOffsets := state.laneOffsets ++ [offset]
      physicalTypes := types }

/-- Why there is no layout: the relation has no schema, or no memory is left. -/
inductive LayoutError where
  | schema
  | memory
  deriving DecidableEq, Repr

/-- The layout of a relation of the program. Lanes that no column covers keep the type 0. -/
def layoutOfInfo (fails : Bool) (info : RelationInfo) : Except LayoutError TypedLayout :=
  if info.columns.length = 0 ∨ info.physicalWidth = 0 then .error .schema
  else if fails then .error .memory
  else
    let start : LayoutState := ⟨0, [], List.replicate info.physicalWidth .int32⟩
    match info.columns.zipIdx.foldlM (layoutColumn info) start with
    | none => .error .schema
    | some state =>
      .ok
        { state with
          logicalNcols := info.columns.length
          physicalNlanes := info.physicalWidth
          types := info.columns.map Column.type }

/-- The layout of a relation that only the plan knows. -/
def layoutOfTypes (fails : Bool) (types : List ColumnType) : Except LayoutError TypedLayout :=
  if types.length = 0 then .error .schema
  else if fails then .error .memory
  else .ok ⟨types.length, types.length, types, List.range types.length, types⟩

/-- An advanced session (`wirelog_session_t`): the session of the backend, whether loading its
input has failed, and what the program and the plan say about relations. -/
structure AdvancedSession where
  inner : Session
  inputLoadFailed : Bool
  declaredNcols : String → Nat
  info : String → Option RelationInfo
  planTypes : String → Option (List ColumnType)

def AdvancedSession.typedLayoutInit (fails : Bool) (f : AdvancedSession) (relation : String) :
    Except LayoutError TypedLayout :=
  match f.info relation with
  | some info => layoutOfInfo fails info
  | none =>
    match f.planTypes relation with
    | some types => layoutOfTypes fails types
    | none => .error .schema

variable (layout : TypedLayout)

/-- `typed_layout_logical_for_slot`. -/
def TypedLayout.logicalForSlot (slot : Nat) : Nat :=
  ((List.range layout.logicalNcols).find? fun c =>
    let next :=
      if c + 1 < layout.logicalNcols then layout.laneOffsets.getD (c + 1) 0
      else layout.physicalNlanes
    decide (slot ≥ layout.laneOffsets.getD c 0) && decide (slot < next)).getD uint32Max

/-! ## Descriptors and errors -/

/-- The values of `wirelog_column_type_t`. -/
def typeCode : ColumnType → Nat
  | .int32 => 0
  | .int64 => 1
  | .uint32 => 2
  | .uint64 => 3
  | .float => 4
  | .string => 5
  | .bool => 6

/-- `wirelog_typed_row_v1_t`; a null pointer is `none`. -/
structure TypedRow where
  structSize : Nat
  abiVersion : Nat
  reserved : Nat
  logicalNcols : Nat
  physicalNlanes : Nat
  physicalStride : Nat
  types : Option (Nat → Nat)
  laneOffsets : Option (Nat → Nat)
  physicalTypes : Option (Nat → Nat)
  lanes : Option (Nat → Cell)

/-- `wirelog_typed_error_code_t`. -/
inductive TypedErrorCode where
  | none
  | descriptor
  | schema
  | value
  deriving DecidableEq, Repr

/-- `wirelog_typed_error_v1_t`; the text in the buffer, if there is one. -/
structure TypedError where
  structSize : Nat
  code : TypedErrorCode
  rowIndex : Nat
  logicalCol : Nat
  message : Option (List Char)
  messageCapacity : Nat
  deriving DecidableEq, Repr

/-- The sizes of the two structures on a 64-bit host. -/
def sizeofTypedRow : Nat := 56

def sizeofTypedError : Nat := 32

/-- What is wrong with a batch. -/
structure Complaint where
  code : TypedErrorCode
  row : Nat
  column : Nat
  message : String

/-- `typed_error_set`. The text is cut to the buffer. -/
def typedErrorSet (complaint : Complaint) (error : TypedError) : TypedError :=
  if error.structSize < sizeofTypedError then error
  else
    { error with
      code := complaint.code
      rowIndex := complaint.row
      logicalCol := complaint.column
      message :=
        if error.messageCapacity > 0 then
          error.message.map fun _ => complaint.message.toList.take (error.messageCapacity - 1)
        else error.message }

/-- The error at the start of a call. -/
def typedErrorReset (error : TypedError) : TypedError :=
  typedErrorSet ⟨.none, uint32Max, uint32Max, ""⟩ error

/-! ## Checking and converting a batch -/

/-- What the descriptor of a row must look like. -/
def descriptorInvalid (row : TypedRow) : Bool :=
  row.structSize < sizeofTypedRow || row.abiVersion ≠ 1 || row.reserved ≠ 0 ||
    row.logicalNcols ≠ layout.logicalNcols || row.physicalNlanes = 0 ||
    row.physicalNlanes ≠ layout.physicalNlanes || row.physicalStride ≠ row.physicalNlanes ||
    row.types.isNone || row.laneOffsets.isNone || row.physicalTypes.isNone || row.lanes.isNone

def entry {α : Type} (array : Option (Nat → α)) (default : α) (n : Nat) : α :=
  (array.map fun values => values n).getD default

def TypedLayout.laneType (c : Nat) : ColumnType :=
  layout.physicalTypes.getD c .int32

def laneValid (type : ColumnType) (lane : Cell) : Bool :=
  match type with
  | .int32 => decide (-2 ^ 31 ≤ lane.toInt ∧ lane.toInt ≤ 2 ^ 31 - 1)
  | .uint32 => decide (lane.toNat ≤ uint32Max)
  | .bool => decide (lane.toNat ≤ 1)
  | .float => floatBitsValid lane
  | .int64 | .uint64 | .string => true

def checkColumn (r : Nat) (row : TypedRow) (c : Nat) : Option Complaint :=
  if entry row.types 0 c ≠ typeCode (layout.types.getD c .int32) ∨
      entry row.laneOffsets 0 c ≠ layout.laneOffsets.getD c 0 then
    some ⟨.schema, r, c, "typed row schema mismatch"⟩
  else none

def checkLane (r : Nat) (row : TypedRow) (c : Nat) : Option Complaint :=
  if entry row.physicalTypes 0 c ≠ typeCode (layout.laneType c) then
    some ⟨.schema, r, uint32Max, "typed physical schema mismatch"⟩
  else if laneValid (layout.laneType c) (entry row.lanes 0 c) = false then
    some ⟨.value, r, layout.logicalForSlot c,
      if layout.laneType c = .float then "non-finite float" else "invalid typed lane"⟩
  else none

/-- The checks of one row; `width` is the width of the first row. -/
def checkRow (width r : Nat) (row : TypedRow) : Option Complaint :=
  if descriptorInvalid layout row then
    some ⟨.descriptor, r, uint32Max, "invalid typed row descriptor"⟩
  else if row.physicalNlanes ≠ width then
    some ⟨.schema, r, uint32Max, "inconsistent physical row width"⟩
  else
    (List.range layout.logicalNcols).findSome? (checkColumn layout r row) <|>
      (List.range layout.physicalNlanes).findSome? (checkLane layout r row)

/-- The first complaint about a batch. -/
def checkRows (rows : List TypedRow) : Option Complaint :=
  let width := (rows.head?.map TypedRow.physicalNlanes).getD 0
  rows.zipIdx.findSome? fun (row, r) => checkRow layout width r row

/-- A negative zero becomes the positive one. -/
def convertLane (type : ColumnType) (lane : Cell) : Cell :=
  if type = .float ∧ floatBitsZero lane then 0 else lane

def convertRow (width : Nat) (row : TypedRow) : Row :=
  ⟨(List.range width).map fun c => convertLane (layout.laneType c) (entry row.lanes 0 c)⟩

/-- Which allocations of a call fail: the layout, the converted rows, and those of the n-th call
of the session. -/
structure TypedFaults where
  layout : Bool
  converted : Bool
  insert : Nat → InsertFaults
  remove : Nat → RemoveFaults

/-- `wirelog_error_t`, as far as the call returns it. -/
inductive Result where
  | ok
  | exec
  | memory
  | undefined
  deriving DecidableEq, Repr

variable (faults : TypedFaults)

/-- The part of `session_typed_rows` after the checks. The index of a converted lane is always
below the number of lanes, so the check of it is left out. -/
def convertRows (layout : TypedLayout) (rows : List TypedRow) :
    Except (Result × Option Complaint) (List Row) :=
  let width := (rows.head?.map TypedRow.physicalNlanes).getD 0
  if rows.length = 0 then .ok []
  else if rows.length > (2 ^ 64 - 1) / width ∨ rows.length * width > (2 ^ 64 - 1) / 8 then
    .error (.exec, some ⟨.descriptor, uint32Max, uint32Max, "typed row batch is too large"⟩)
  else if faults.converted then .error (.memory, none)
  else .ok (rows.map (convertRow layout width))

variable (f : AdvancedSession) (relation : String) (rows : Option (List TypedRow))

/-- The part of `session_typed_rows` before the first row is handed over: the rows to hand over,
or how the call ends without them. -/
def prepareRows : Except (Result × Option Complaint) (List Row) :=
  match rows with
  | none =>
    .error (.exec, some ⟨.descriptor, uint32Max, uint32Max, "null typed row batch"⟩)
  | some rows =>
    match f.typedLayoutInit faults.layout relation with
    | .error .memory => .error (.memory, none)
    | .error .schema =>
      .error (.exec, some ⟨.schema, uint32Max, uint32Max, "unknown relation schema"⟩)
    | .ok layout =>
      match checkRows layout rows with
      | some complaint => .error (.exec, some complaint)
      | none => convertRows faults layout rows

/-! ## Handing the rows over -/

/-- How a call of the session ends. A failed call has a code, or it is -1. -/
def ofRc : Rc → Outcome (Option Rc)
  | .ok => .done
  | .undefined => .broken
  | rc => .failed (some rc)

/-- `wl_session_insert` for one row, as the n-th call. -/
def insertCall : Calls Row AdvancedSession (Option Rc) :=
  fun n row f =>
    if f.inputLoadFailed then (.failed none, f)
    else
      let out := colSessionInsert (faults.insert n) f.declaredNcols f.inner relation (oneRow row)
      (ofRc out.1, { f with inner := out.2 })

/-- `wl_session_remove` for one row, as the n-th call. -/
def removeCall : Calls Row AdvancedSession (Option Rc) :=
  fun n row f =>
    let out := colSessionRemove (faults.remove n) f.inner relation (oneRow row)
    (ofRc out.1, { f with inner := out.2 })

/-- The calls of a batch and those that undo them. -/
def typedCalls (remove : Bool) : Calls Row AdvancedSession (Option Rc) :=
  if remove then removeCall faults relation else insertCall faults relation

/-- What the caller gets for the outcome of the batch. -/
def resultOf : Outcome (Option Rc) → Result
  | .done => .ok
  | .failed (some .enomem) => .memory
  | .failed _ => .exec
  | .broken => .undefined

variable (error : Option TypedError)

def sessionTypedRows (remove : Bool) : Result × Option TypedError × AdvancedSession :=
  let error := error.map typedErrorReset
  match prepareRows faults f relation rows with
  | .error (result, none) => (result, error, f)
  | .error (result, some complaint) => (result, error.map (typedErrorSet complaint), f)
  | .ok batch =>
    let out := applyAll (typedCalls faults relation remove) (typedCalls faults relation !remove)
      [] batch f
    (resultOf out.1, error, out.2)

def wirelogSessionInsertTyped : Result × Option TypedError × AdvancedSession :=
  sessionTypedRows faults f relation rows error false

def wirelogSessionRemoveTyped : Result × Option TypedError × AdvancedSession :=
  sessionTypedRows faults f relation rows error true

end Wirelog.Facade

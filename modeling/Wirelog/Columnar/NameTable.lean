import Wirelog.Foundations.ByteFields
import Wirelog.Foundations.Chains

/-!
# The table of relation names

A session keeps its relations in an array and finds them by name, through hash chains of
indices into this array or else by searching it from the start (`session_hash.c`,
`session_find_rel`). Relations are registered, replaced and removed, and a snapshot that fails
drops the relations of its deltas and closes the gaps in the array.

The chains are rebuilt from the array on most changes. Every allocation may fail. Relations are
objects with an identity; a destroyed one must not be read any more, so reading one is a fault,
and so is the use of a place outside of an array or of a link that was never written. A walk
along a chain that never ends returns nothing, however long it may take.
-/

set_option autoImplicit false

namespace Wirelog.Columnar.NameTable

open Wirelog.Foundations Function

/-- The bytes of a name, without the terminating zero. -/
abbrev Name := List UInt8

/-- A relation object: its identity and its name. -/
structure Rel where
  id : Nat
  name : Name
  deriving DecidableEq, Repr

/-- The part of `wl_col_session_t` that finds relations, and the objects destroyed so far. In
the chains `UINT32_MAX`, the end of a chain, is `none`; an entry of the links that was not
written since the array was allocated is `none` as well. -/
structure Registry where
  rels : Nat → Option Rel
  nrels : Nat
  relCap : Nat
  destroyed : List Nat
  head : Nat → Option Nat
  nbuckets : Nat
  next : Nat → Option (Option Nat)
  chainCap : Nat

/-- A new session. -/
def Registry.create : Registry where
  rels := fun _ => none
  nrels := 0
  relCap := 16
  destroyed := []
  head := fun _ => none
  nbuckets := 0
  next := fun _ => none
  chainCap := 0

/-- What must not happen. -/
inductive Fault where
  | destroyedRelation
  | unwrittenLink
  | outOfBounds
  deriving DecidableEq, Repr

/-- Which allocations of a call fail: the promotion of the relation to the heap, the relation
array, the heads of the buckets, and the links. -/
structure Failures where
  promote : Bool
  grow : Bool
  heads : Bool
  links : Bool
  deriving DecidableEq, Repr

/-! ## Hashing -/

/-- `session_rel_hash_string`. -/
def relHashString (name : Name) (nbuckets : Nat) : Nat :=
  (name.foldl (fun (h : UInt64) byte => (h ^^^ byte.toUInt64) * 1099511628211)
    14695981039346656037).toNat &&& (nbuckets - 1)

/-- `session_rel_next_pow2`: 0 on overflow. -/
def relNextPow2 (n : Nat) : Nat :=
  if n < 16 then 16
  else if n > uint32Max / 2 + 1 then 0
  else
    let n := n - 1
    let n := n ||| (n >>> 1)
    let n := n ||| (n >>> 2)
    let n := n ||| (n >>> 4)
    let n := n ||| (n >>> 8)
    let n := n ||| (n >>> 16)
    n + 1

section Operations

variable (s : Registry)

/-! ## The hash chains -/

variable (name : Name)

/-- Puts an index at the head of the chain of a name. -/
def link (i : Nat) : Registry :=
  { s with
    next := update s.next i (some (s.head (relHashString name s.nbuckets)))
    head := update s.head (relHashString name s.nbuckets) (some i) }

/-- One round of the loop of `session_rel_build_hash`. -/
def indexRel (s : Registry) (i : Nat) : Registry :=
  match s.rels i with
  | none => s
  | some r => link s r.name i

/-- Heads of empty chains, in an array of the given size. -/
def clearHeads (nbuckets : Nat) : Registry :=
  { s with head := fun _ => none, nbuckets := nbuckets }

/-- A new array of links. -/
def growLinks : Registry := { s with next := fun _ => none, chainCap := s.nrels }

/-- The number of buckets for the relations; 0 on overflow. -/
def bucketCount : Nat := relNextPow2 (if s.nrels > 0 then s.nrels * 2 else 16)

variable (failures : Failures)

/-- The part of `session_rel_build_hash` after the heads were cleared. -/
def fillChains : Bool × Registry :=
  if s.nrels > s.chainCap then
    if failures.links then (false, s)
    else (true, (List.range s.nrels).foldl indexRel (growLinks s))
  else (true, (List.range s.nrels).foldl indexRel s)

/-- `session_rel_build_hash`. It fails before it has changed anything, or with empty chains. -/
def relBuildHash : Bool × Registry :=
  if s.nrels > uint32Max / 2 then (false, s)
  else if bucketCount s = 0 then (false, s)
  else if bucketCount s ≠ s.nbuckets ∧ failures.heads then (false, s)
  else fillChains (clearHeads s (bucketCount s)) failures

/-- `session_rel_free_hash`. -/
def relFreeHash : Registry :=
  { s with head := fun _ => none, next := fun _ => none, nbuckets := 0, chainCap := 0 }

/-- `session_rel_hash_insert`. -/
def relHashInsert (i : Nat) : Bool × Registry :=
  if i ≥ s.nrels then (true, s)
  else match s.rels i with
  | none => (true, s)
  | some r =>
    if s.nbuckets = 0 then relBuildHash s failures
    else if s.nrels > uint32Max / 2 then (false, s)
    else
      let needed := relNextPow2 (s.nrels * 2)
      if needed = 0 then (false, s)
      else if needed ≠ s.nbuckets ∨ i ≥ s.chainCap then relBuildHash s failures
      else (true, link s r.name i)

/-- `session_hash_result_or_fallback`: without memory for the chains there are none. -/
def hashResultOrFallback : Bool × Registry → Registry
  | (true, s) => s
  | (false, s) => relFreeHash s

/-! ## Looking a name up -/

def readRel (i : Nat) : Except Fault (Option Rel) :=
  if i ≥ s.relCap then .error .outOfBounds
  else match s.rels i with
  | none => .ok none
  | some r => if r.id ∈ s.destroyed then .error .destroyedRelation else .ok (some r)

/-- The loop of `session_rel_hash_lookup`, for at most as many rounds as given. -/
def walk : Nat → Option Nat → Option (Except Fault (Option Rel))
  | _, none => some (.ok none)
  | 0, some _ => none
  | rounds + 1, some i =>
    let continue_ :=
      if i ≥ s.chainCap then some (.error .outOfBounds)
      else match s.next i with
      | none => some (.error .unwrittenLink)
      | some successor => walk rounds successor
    match readRel s i with
    | .error fault => some (.error fault)
    | .ok none => continue_
    | .ok (some r) => if r.name = name then some (.ok (some r)) else continue_

/-- `session_rel_hash_lookup`. -/
def relHashLookup (rounds : Nat) (name : Name) : Option (Except Fault (Option Rel)) :=
  if s.nbuckets = 0 then some (.ok none)
  else walk s name rounds (s.head (relHashString name s.nbuckets))

/-- The first of some slots that holds a relation of a name. -/
def scanSlots : List Nat → Except Fault (Option Nat)
  | [] => .ok none
  | i :: rest => match readRel s i with
    | .error fault => .error fault
    | .ok none => scanSlots rest
    | .ok (some r) => if r.name = name then .ok (some i) else scanSlots rest

/-- The slot of the relation of a name, found by linear search. -/
def scan : Except Fault (Option Nat) := scanSlots s name (List.range s.nrels)

/-- The linear search at the end of `session_find_rel`. -/
def linearSearch : Except Fault (Option Rel) :=
  match scan s name with
  | .error fault => .error fault
  | .ok none => .ok none
  | .ok (some i) => .ok (s.rels i)

/-- `session_find_rel`: what it returns, and the session after it. -/
def findRel (rounds : Nat) (failures : Failures) (name : Name) :
    Option (Except Fault (Option Rel) × Registry) :=
  if s.nbuckets > 0 then
    match relHashLookup s rounds name with
    | none => none
    | some (.ok none) => some (linearSearch s name, s)
    | some answer => some (answer, s)
  else if s.nrels > 0 then
    match relBuildHash s failures with
    | (true, built) => (relHashLookup built rounds name).map fun answer => (answer, built)
    | (false, built) => some (linearSearch built name, built)
  else some (linearSearch s name, s)

/-! ## Registering and removing -/

/-- The first slot below `nrels` that is free. -/
def firstHole : Option Nat := (List.range s.nrels).find? fun i => (s.rels i).isNone

/-- Destroys the relation in a slot. -/
def destroyAt (i : Nat) : Registry :=
  match s.rels i with
  | none => s
  | some r => { s with destroyed := r.id :: s.destroyed, rels := update s.rels i none }

/-- Writes a relation into a slot. -/
def setRel (i : Nat) (r : Rel) : Registry := { s with rels := update s.rels i (some r) }

/-- The end of `session_add_rel`: the relation takes a new slot at the end of the array, which
is doubled when it is full. -/
def appendRel (r : Rel) : Except Fault (Bool × Registry) :=
  let full := decide (s.nrels ≥ s.relCap)
  if full ∧ failures.grow then .ok (false, s)
  else
    let cap := if full then (if s.relCap = 0 then 16 else s.relCap * 2 % 2 ^ 32) else s.relCap
    if s.nrels ≥ cap then .error .outOfBounds
    else
      let extended := setRel { s with relCap := cap, nrels := s.nrels + 1 } s.nrels r
      .ok (true, hashResultOrFallback (relHashInsert extended failures s.nrels))

/-- `session_add_rel`: whether the relation was registered, and the session after it. -/
def addRel (r : Rel) : Except Fault (Bool × Registry) :=
  if failures.promote then .ok (false, s)
  else match scan s r.name with
  | .error fault => .error fault
  | .ok (some i) =>
    if s.rels i = some r then .ok (true, s) else .ok (true, setRel (destroyAt s i) i r)
  | .ok none => match firstHole s with
    | some i => .ok (true, hashResultOrFallback (relBuildHash (setRel s i r) failures))
    | none => appendRel s failures r

/-- `session_remove_rel`. -/
def removeRel : Except Fault Registry :=
  match scan s name with
  | .error fault => .error fault
  | .ok none => .ok s
  | .ok (some i) => .ok (relFreeHash (destroyAt s i))

/-! ## A snapshot that fails -/

/-- The name of a delta relation starts with `$d$`. -/
def isDelta : Bool := [36, 100, 36].isPrefixOf name

def dropDelta (s : Registry) (i : Nat) : Except Fault Registry :=
  match readRel s i with
  | .error fault => .error fault
  | .ok none => .ok s
  | .ok (some r) => .ok (if isDelta r.name then destroyAt s i else s)

/-- One round of the loop that closes the gaps: the number of slots filled so far, and the
slots. -/
def compactSlot (filled : Nat × (Nat → Option Rel)) (i : Nat) : Nat × (Nat → Option Rel) :=
  match filled.2 i with
  | none => filled
  | some r => (filled.1 + 1, update filled.2 filled.1 (some r))

/-- Moves the relations to the front of the array. -/
def compact : Registry :=
  let filled := (List.range s.nrels).foldl compactSlot (0, s.rels)
  { s with rels := filled.2, nrels := filled.1 }

/-- The error path of `col_session_snapshot`. -/
def failedSnapshot : Except Fault Registry :=
  match (List.range s.nrels).foldlM dropDelta s with
  | .error fault => .error fault
  | .ok s => .ok (compact s)

end Operations

end Wirelog.Columnar.NameTable

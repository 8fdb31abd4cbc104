import DeltaChain.Lib.Table

/-!
# chainbase `generic_index`

The object store under the chain database: a table of objects under ids that
the index hands out, and a stack of undo states that record, for each session,
just enough to go back. Only the primary id is modelled as a uniqueness
constraint, and an object is the value under its id, so constructors and
modifiers cannot touch the id (the index "assigns and manages" it).

The deque `_stack` is kept with its back (the current session) at the head of
the list. A call that would throw, or that would follow an end iterator, is
`none`.
-/

namespace DeltaChain.Chainbase

open Lib

/-- `undo_state`: what one session recorded. The set `new_ids` is a table of
units. -/
structure UndoState (V : Type) where
  oldValues : Table Nat V
  removedValues : Table Nat V
  newIds : Table Nat Unit
  oldNextId : Nat
  revision : Int

structure GenericIndex (V : Type) where
  stack : List (UndoState V)
  revision : Int
  nextId : Nat
  indices : Table Nat V

variable {V : Type}

-- # Recording a change in the current session

variable (head : UndoState V)

/-- `on_create`, on the undo state it writes to. -/
def UndoState.onCreate (id : Nat) : UndoState V :=
  { head with newIds := head.newIds.emplace id () }

/-- Only the first old value of an object that is not new is kept. -/
def UndoState.onModify (id : Nat) (v : V) : UndoState V :=
  if (head.newIds.find? id).isSome then head
  else if (head.oldValues.find? id).isSome then head
  else { head with oldValues := head.oldValues.emplace id v }

def UndoState.onRemove (id : Nat) (v : V) : UndoState V :=
  if (head.newIds.find? id).isSome then
    { head with newIds := head.newIds.erase id }
  else match head.oldValues.find? id with
    | some was =>
      { head with
        removedValues := head.removedValues.emplace id was
        oldValues := head.oldValues.erase id }
    | none =>
      if (head.removedValues.find? id).isSome then head
      else { head with removedValues := head.removedValues.emplace id v }

-- # Merging two undo states

variable (prev : UndoState V)

/-- The first loop of `squash`: `state.old_values` into `prev_state`. -/
def UndoState.squashOld (item : Nat × V) : UndoState V :=
  if (prev.newIds.find? item.1).isSome then prev
  else if (prev.oldValues.find? item.1).isSome then prev
  else { prev with oldValues := prev.oldValues.emplace item.1 item.2 }

/-- The second loop of `squash`: `state.new_ids` into `prev_state`. -/
def UndoState.squashNew (item : Nat × Unit) : UndoState V :=
  { prev with newIds := prev.newIds.emplace item.1 () }

/-- The third loop of `squash`: `state.removed_values` into `prev_state`. -/
def UndoState.squashRemoved (item : Nat × V) : UndoState V :=
  if (prev.newIds.find? item.1).isSome then
    { prev with newIds := prev.newIds.erase item.1 }
  else match prev.oldValues.find? item.1 with
    | some was =>
      { prev with
        removedValues := prev.removedValues.emplace item.1 was
        oldValues := prev.oldValues.erase item.1 }
    | none => { prev with removedValues := prev.removedValues.emplace item.1 item.2 }

/-- The merge of `squash`: `prev_state` after absorbing `state`. -/
def UndoState.merge (prev state : UndoState V) : UndoState V :=
  let prev := state.oldValues.entries.foldl UndoState.squashOld prev
  let prev := state.newIds.entries.foldl UndoState.squashNew prev
  state.removedValues.entries.foldl UndoState.squashRemoved prev

variable (g : GenericIndex V)

namespace GenericIndex

/-- A freshly constructed index. -/
def init : GenericIndex V :=
  { stack := [], revision := 0, nextId := 0, indices := Table.empty }

/-- Apply `f` to the undo state of the current session, if there is one. -/
def onHead (f : UndoState V → UndoState V) : GenericIndex V :=
  { g with stack := match g.stack with
      | [] => []
      | head :: rest => f head :: rest }

/-- `emplace`; the constructor sees the id it gets. -/
def emplace (c : Nat → V) : Option (GenericIndex V) := do
  let newId := g.nextId
  let indices ← g.indices.insert? newId (c newId)
  return { g with indices := indices, nextId := newId + 1 }.onHead (·.onCreate newId)

/-- `modify` of the object under `id`. -/
def modify (id : Nat) (m : V → V) : Option (GenericIndex V) := do
  let obj ← g.indices.find? id
  let indices ← g.indices.modify? id m
  return { g.onHead (·.onModify id obj) with indices := indices }

/-- `remove` of the object under `id`. -/
def remove (id : Nat) : Option (GenericIndex V) := do
  let obj ← g.indices.find? id
  let indices ← g.indices.erase? id
  return { g.onHead (·.onRemove id obj) with indices := indices }

def startUndoSession : GenericIndex V :=
  { g with
    stack :=
      { oldValues := Table.empty, removedValues := Table.empty, newIds := Table.empty,
        oldNextId := g.nextId, revision := g.revision + 1 } :: g.stack
    revision := g.revision + 1 }

/-- The three loops of `undo` over the rows of the index. -/
def restore (indices : Table Nat V) : Option (Table Nat V) := do
  let indices ← head.oldValues.entries.foldlM (fun t item => t.modify? item.1 fun _ => item.2)
    indices
  let indices ← head.newIds.entries.foldlM (fun t item => t.erase? item.1) indices
  head.removedValues.entries.foldlM (fun t item => t.insert? item.1 item.2) indices

def undo : Option (GenericIndex V) :=
  match g.stack with
  | [] => some g
  | head :: rest => do
    let indices ← restore head g.indices
    return { stack := rest, revision := g.revision - 1, nextId := head.oldNextId,
             indices := indices }

/-- `squash`. A single undo state is dropped and the revision stays. -/
def squash : GenericIndex V :=
  match g.stack with
  | [] => g
  | [_] => { g with stack := [] }
  | state :: prev :: rest =>
    { g with stack := prev.merge state :: rest, revision := g.revision - 1 }

/-- `commit`: undo states are dropped from the front of the deque as long as
their revision is at most `revision`. -/
def commit (revision : Int) : GenericIndex V :=
  { g with stack := g.stack.rdropWhile fun s => decide (s.revision ≤ revision) }

/-- The calls that touch the objects or the undo stack. -/
inductive Op (V : Type) where
  | startUndoSession
  | emplace (c : Nat → V)
  | modify (id : Nat) (m : V → V)
  | remove (id : Nat)
  | undo
  | squash
  | commit (revision : Int)

/-- One call; `none` when it does not succeed. -/
def step : Op V → Option (GenericIndex V)
  | .startUndoSession => some g.startUndoSession
  | .emplace c => g.emplace c
  | .modify id m => g.modify id m
  | .remove id => g.remove id
  | .undo => g.undo
  | .squash => some g.squash
  | .commit revision => some (g.commit revision)

end GenericIndex

end DeltaChain.Chainbase

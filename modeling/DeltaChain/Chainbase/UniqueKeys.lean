import DeltaChain.Chainbase.GenericIndex

/-!
# chainbase `generic_index` with unique secondary keys

The same index, with keys besides the id that no two objects may share. Insertions and
modifications can then fail. The container takes a modified object that collides with another one
out (`Table.modifyKeyed`), and `modify` of the index throws after that, with the old value on
record.

The maps and the set of an undo state are gone through in the order of the ids.
-/

namespace DeltaChain.Lib.Table

variable {V : Type}

/-- The rows in the order of the ids. -/
def sorted (t : Table Nat V) : Table Nat V where
  entries := t.entries.insertionSort fun e f => e.1 ≤ f.1
  nodup := ((List.perm_insertionSort _ t.entries).map Prod.fst).nodup_iff.mpr t.nodup

section Keys

variable {K : Type} [DecidableEq K] (keys : List (V → K))

/-- Two objects have a key in common. -/
def Clash (v w : V) : Prop := ∃ key ∈ keys, key v = key w

instance (v w : V) : Decidable (Clash keys v w) :=
  inferInstanceAs (Decidable (∃ key ∈ keys, key v = key w))

/-- The object `v` under `id` would collide with another one. -/
def Collides (t : Table Nat V) (id : Nat) (v : V) : Prop :=
  ∃ e ∈ t.entries, e.1 ≠ id ∧ Clash keys v e.2

instance (t : Table Nat V) (id : Nat) (v : V) : Decidable (Collides keys t id v) :=
  inferInstanceAs (Decidable (∃ e ∈ t.entries, e.1 ≠ id ∧ Clash keys v e.2))

/-- `emplace` of the container. -/
def insertKeyed (t : Table Nat V) (id : Nat) (v : V) : Option (Table Nat V) :=
  if Collides keys t id v then none else t.insert? id v

/-- `modify` of the container, and whether it succeeds. -/
def modifyKeyed (t : Table Nat V) (id : Nat) (m : V → V) : Option (Table Nat V × Bool) := do
  let v ← t.find? id
  if Collides keys t id (m v) then return (t.erase id, false) else return (t.modify id m, true)

end Keys

end DeltaChain.Lib.Table

namespace DeltaChain.Chainbase

open Lib

variable {V : Type}

/-- The maps and the set in the order of the ids. -/
def UndoState.sorted (u : UndoState V) : UndoState V :=
  { u with
    oldValues := u.oldValues.sorted
    removedValues := u.removedValues.sorted
    newIds := u.newIds.sorted }

namespace GenericIndex

variable {K : Type} [DecidableEq K] (keys : List (V → K))

/-- `emplace`. -/
def emplaceKeyed (g : GenericIndex V) (c : Nat → V) : Option (GenericIndex V) := do
  let newId := g.nextId
  let indices ← g.indices.insertKeyed keys newId (c newId)
  return { g with indices := indices, nextId := newId + 1 }.onHead (·.onCreate newId)

/-- `modify`: the index after it, and whether it returns or throws. -/
def modifyKeyed (g : GenericIndex V) (id : Nat) (m : V → V) : Option (GenericIndex V × Bool) := do
  let obj ← g.indices.find? id
  let g := g.onHead (·.onModify id obj)
  let (indices, ok) ← g.indices.modifyKeyed keys id m
  return ({ g with indices := indices }, ok)

/-- One round of the first loop of `undo`. -/
def restoreOld (t : Table Nat V) (item : Nat × V) : Option (Table Nat V) := do
  let (t, ok) ← t.modifyKeyed keys item.1 fun _ => item.2
  if ok then return t else none

/-- The three loops of `undo` over the rows of the index. -/
def restoreKeyed (head : UndoState V) (indices : Table Nat V) : Option (Table Nat V) := do
  let indices ← head.oldValues.sorted.entries.foldlM (restoreOld keys) indices
  let indices ← head.newIds.sorted.entries.foldlM (fun t item => t.erase? item.1) indices
  head.removedValues.sorted.entries.foldlM (fun t item => t.insertKeyed keys item.1 item.2) indices

/-- `undo`. -/
def undoKeyed (g : GenericIndex V) : Option (GenericIndex V) :=
  match g.stack with
  | [] => some g
  | head :: rest => do
    let indices ← restoreKeyed keys head g.indices
    return { stack := rest, revision := g.revision - 1, nextId := head.oldNextId,
             indices := indices }

def undoAll (g : GenericIndex V) : Option (GenericIndex V) :=
  g.stack.foldlM (fun g _ => g.undoKeyed keys) g

/-- One call; `none` when it throws. -/
def stepKeyed (g : GenericIndex V) : Op V → Option (GenericIndex V)
  | .startUndoSession => some g.startUndoSession
  | .emplace c => g.emplaceKeyed keys c
  | .modify id m => do
    let (g, ok) ← g.modifyKeyed keys id m
    if ok then return g else none
  | .remove id => g.remove id
  | .undo => g.undoKeyed keys
  | .squash => some g.squash
  | .commit revision => some (g.commit revision)

end GenericIndex

end DeltaChain.Chainbase

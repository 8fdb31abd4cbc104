import Mathlib

/-!
# Undo by copying

What the undo stack of a chainbase index is for, said without undo states: a
session starts by taking a copy of the whole state, `undo` puts the newest copy
back, `squash` forgets the newest copy, and `commit` forgets the oldest ones.
The index refines this (`Chainbase.Undo`), and the chain database is modelled
on top of it.
-/

namespace DeltaChain.Chainbase

open List

/-- A state with the copies taken when its open sessions started, newest first,
each under the revision of its session. -/
structure UndoStack (σ : Type) where
  cur : σ
  saved : List (Int × σ)
  revision : Int
deriving DecidableEq

namespace UndoStack

variable {σ : Type} (u : UndoStack σ)

/-- No open session. -/
def init (s : σ) (revision : Int) : UndoStack σ := ⟨s, [], revision⟩

/-- Change the current state inside the current session. -/
def set (s : σ) : UndoStack σ := { u with cur := s }

def startUndoSession : UndoStack σ :=
  { u with saved := (u.revision + 1, u.cur) :: u.saved, revision := u.revision + 1 }

def undo : UndoStack σ :=
  match u.saved with
  | [] => u
  | (_, s) :: rest => ⟨s, rest, u.revision - 1⟩

/-- The merged session counts as started when the older one was; a single
session is forgotten without lowering the revision. -/
def squash : UndoStack σ :=
  match u.saved with
  | [] => u
  | [_] => { u with saved := [] }
  | _ :: rest => { u with saved := rest, revision := u.revision - 1 }

def commit (revision : Int) : UndoStack σ :=
  { u with saved := u.saved.rdropWhile fun e => decide (e.1 ≤ revision) }

theorem undo_set_startUndoSession (s : σ) : (u.startUndoSession.set s).undo = u := by
  cases u
  simp [startUndoSession, set, undo]

theorem squash_set_startUndoSession {u : UndoStack σ} (h : u.saved ≠ []) (s : σ) :
    (u.startUndoSession.set s).squash = u.set s := by
  obtain ⟨cur, saved, revision⟩ := u
  cases saved with
  | nil => exact absurd rfl h
  | cons e saved => simp [startUndoSession, set, squash]

theorem length_saved_undo : u.undo.saved.length = u.saved.length - 1 := by
  unfold undo
  split <;> simp_all

theorem rdropWhile_cons {α : Type} (p : α → Bool) (a : α) (l : List α) :
    (a :: l).rdropWhile p =
      if l.rdropWhile p = [] then (if p a then [] else [a]) else a :: l.rdropWhile p := by
  induction l using List.reverseRecOn with
  | nil => rw [rdropWhile_nil, if_pos rfl, rdropWhile_singleton]
  | append_singleton l x ih =>
    rw [← cons_append, rdropWhile_concat, rdropWhile_concat]
    by_cases hx : p x = true
    · rw [if_pos hx, if_pos hx, ih]
    · rw [if_neg hx, if_neg hx, if_neg (by simp), cons_append]

end UndoStack

end DeltaChain.Chainbase

import DeltaChain.Chainbase.Undo
import DeltaChain.Chainbase.UniqueKeys

/-!
# Revisions

The revisions of the undo states are consecutive, and the newest one is the revision of the
index, after any calls that do not throw. `commit` therefore keeps exactly the states it should.
`squash` lowers the revision like `undo` does, but not when it drops the only undo state
(`revisions_consecutive`).
-/

namespace DeltaChain.Chainbase

open Lib List Option

variable {V K : Type} [DecidableEq K] {keys : List (V → K)} {g g' : GenericIndex V} {r : Int}

-- # Calls

namespace GenericIndex

def setRevision (g : GenericIndex V) (revision : Int) : Option (GenericIndex V) :=
  if g.stack ≠ [] then none else some { g with revision := revision }

/-- All calls of an index. -/
inductive Call (V : Type) where
  | op (op : Op V)
  | undoAll
  | setRevision (revision : Int)

/-- One call; `none` when it throws. -/
def call (keys : List (V → K)) (g : GenericIndex V) : Call V → Option (GenericIndex V)
  | .op op => g.stepKeyed keys op
  | .undoAll => g.undoAll keys
  | .setRevision revision => g.setRevision revision

/-- The calls that change objects and leave the stack alone. -/
def Op.changesObjects : Op V → Bool
  | .emplace _ | .modify _ _ | .remove _ => true
  | _ => false

end GenericIndex

-- # Consecutive revisions

/-- The revisions of the undo states, from the newest on, are `r`, `r - 1` and so on. -/
def CountsDown : Int → List (UndoState V) → Prop
  | _, [] => True
  | r, s :: stack => s.revision = r ∧ CountsDown (r - 1) stack

variable {stack : List (UndoState V)} {op : GenericIndex.Op V} {s : UndoState V}

theorem CountsDown.getElem? {i : Nat} (h : CountsDown r stack)
    (hs : stack[i]? = some s) : s.revision = r - i := by
  induction stack generalizing r i with
  | nil => cases hs
  | cons s₀ stack ih =>
    cases i with
    | zero =>
      rw [getElem?_cons_zero, Option.some.injEq] at hs
      rw [← hs, h.1]
      simp
    | succ i =>
      rw [ih h.2 hs]
      omega

theorem CountsDown.le (h : CountsDown r stack) (hs : s ∈ stack) : s.revision ≤ r := by
  obtain ⟨i, hi⟩ := getElem?_of_mem hs
  rw [h.getElem? hi]
  omega

/-- Dropping old states from the old end keeps exactly the others. -/
theorem CountsDown.rdropWhile (h : CountsDown r stack) (revision : Int) :
    stack.rdropWhile (fun s => decide (s.revision ≤ revision)) =
      stack.filter fun s => decide (revision < s.revision) := by
  induction stack generalizing r with
  | nil => rfl
  | cons s stack ih =>
    rw [UndoStack.rdropWhile_cons, ih h.2, filter_cons]
    by_cases hs : revision < s.revision
    · have hkeep : decide (s.revision ≤ revision) = false := decide_eq_false (by omega)
      rw [if_pos (decide_eq_true hs)]
      split
      · next hnil => rw [hnil, if_neg (by simp [hkeep])]
      · rfl
    · -- the older ones have smaller revisions still
      have hnil : stack.filter (fun s => decide (revision < s.revision)) = [] := by
        rw [filter_eq_nil_iff]
        intro s' hs'
        have hle := h.2.le hs'
        have hnewest := h.1
        simp only [decide_eq_true_eq]
        omega
      rw [hnil, if_pos rfl, if_pos (decide_eq_true (by omega)), if_neg (by simpa using hs)]

theorem CountsDown.rdropWhile_countsDown (h : CountsDown r stack) (p : UndoState V → Bool) :
    CountsDown r (stack.rdropWhile p) := by
  induction stack generalizing r with
  | nil => trivial
  | cons s stack ih =>
    rw [UndoStack.rdropWhile_cons]
    split
    · split
      · trivial
      · exact ⟨h.1, trivial⟩
    · exact ⟨h.1, ih h.2⟩

theorem CountsDown.onHead {f : UndoState V → UndoState V} (h : CountsDown r g.stack)
    (hf : ∀ s, (f s).revision = s.revision) : CountsDown r (g.onHead f).stack := by
  unfold GenericIndex.onHead
  cases hstack : g.stack with
  | nil => trivial
  | cons s stack =>
    rw [hstack] at h
    exact ⟨(hf s).trans h.1, h.2⟩

/-- What a call that changes objects does to the stack and the revision. -/
theorem changesObjects_stack (hop : op.changesObjects = true)
    (h : g.stepKeyed keys op = some g') : g'.revision = g.revision ∧
      ∃ f, (∀ s, (f s).revision = s.revision) ∧ g'.stack = (g.onHead f).stack := by
  cases op with
  | emplace c =>
    obtain ⟨t, -, heq⟩ := bind_eq_some_iff.mp h
    cases heq
    exact ⟨rfl, (·.onCreate g.nextId), fun _ => rfl, rfl⟩
  | modify id m =>
    obtain ⟨⟨g₁, ok⟩, hmodify, hok⟩ := bind_eq_some_iff.mp h
    obtain ⟨v, -, hmodify⟩ := bind_eq_some_iff.mp hmodify
    obtain ⟨⟨t, ok'⟩, -, heq⟩ := bind_eq_some_iff.mp hmodify
    cases heq
    dsimp only at hok
    split at hok
    · cases hok
      exact ⟨rfl, (·.onModify id v), fun s => (squashOld_header s (id, v)).1, rfl⟩
    · cases hok
  | remove id =>
    obtain ⟨v, -, hremove⟩ := bind_eq_some_iff.mp h
    obtain ⟨t, -, heq⟩ := bind_eq_some_iff.mp hremove
    cases heq
    refine ⟨rfl, (·.onRemove id v), fun s => ?_, rfl⟩
    exact (congrArg UndoState.revision (onRemove_eq s id v)).trans (squashRemoved_header s (id, v)).1
  | startUndoSession | undo | squash | commit revision => exact absurd hop Bool.false_ne_true

section

variable (h : CountsDown g.revision g.stack)

include h

theorem CountsDown.undo (hg : g.undoKeyed keys = some g') : CountsDown g'.revision g'.stack := by
  unfold GenericIndex.undoKeyed at hg
  split at hg
  · cases hg
    exact h
  · next hstack =>
    obtain ⟨t, -, heq⟩ := bind_eq_some_iff.mp hg
    cases heq
    rw [hstack] at h
    exact h.2

theorem CountsDown.squash : CountsDown g.squash.revision g.squash.stack := by
  unfold GenericIndex.squash
  split
  · exact h
  · trivial
  · next state prev rest hstack =>
    rw [hstack] at h
    refine ⟨?_, h.2.2⟩
    rw [(Prod.mk.inj (merge_kept prev state)).1]
    exact h.2.1

theorem CountsDown.step (hg : g.stepKeyed keys op = some g') : CountsDown g'.revision g'.stack := by
  by_cases hop : op.changesObjects = true
  · obtain ⟨hrevision, f, hf, hstack⟩ := changesObjects_stack hop hg
    rw [hrevision, hstack]
    exact h.onHead hf
  · cases op with
    | startUndoSession =>
      cases hg
      refine ⟨rfl, ?_⟩
      have hsame : g.startUndoSession.revision - 1 = g.revision :=
        add_sub_cancel_right g.revision 1
      rw [hsame]
      exact h
    | undo => exact h.undo hg
    | squash =>
      cases hg
      exact h.squash
    | commit revision =>
      cases hg
      exact h.rdropWhile_countsDown _
    | emplace c | modify id m | remove id => exact absurd rfl hop

theorem CountsDown.call {c : GenericIndex.Call V}
    (hg : g.call keys c = some g') : CountsDown g'.revision g'.stack := by
  cases c with
  | op op => exact h.step hg
  | undoAll =>
    exact Run.exec_induct (fun g : GenericIndex V => CountsDown g.revision g.stack)
      (fun _ _ _ h hundo => h.undo hundo) h hg
  | setRevision revision =>
    simp only [GenericIndex.call, GenericIndex.setRevision] at hg
    split at hg
    · cases hg
    · next hstack =>
      cases hg
      rw [not_not] at hstack
      rw [hstack]
      trivial

end

-- # Opening a session and squashing it

/-- **Revisions.** After any calls that do not throw, the revisions of the undo states are
consecutive up to the revision of the index, and `commit` keeps exactly the states with larger
revisions. A session that is opened and squashed, with whatever changes of objects in between,
leaves the revision as it was if and only if it was opened inside another one. -/
theorem revisions_consecutive {calls : List (GenericIndex.Call V)}
    (hrun : Run.exec (GenericIndex.call keys) GenericIndex.init calls = some g) :
    (∀ (i : Nat) s, g.stack[i]? = some s → s.revision = g.revision - i) ∧
    (∀ r, (g.commit r).stack = g.stack.filter fun s => decide (r < s.revision)) ∧
    ∀ (ops : List (GenericIndex.Op V)) g', (∀ op ∈ ops, op.changesObjects = true) →
      Run.exec (GenericIndex.stepKeyed keys) g.startUndoSession ops = some g' →
      (g'.squash.revision = g.revision ↔ g.stack ≠ []) := by
  have hinit : CountsDown (0 : Int) ([] : List (UndoState V)) := trivial
  have hdown : CountsDown g.revision g.stack :=
    Run.exec_induct (fun g : GenericIndex V => CountsDown g.revision g.stack)
      (fun _ _ _ h hcall => h.call hcall) hinit hrun
  refine ⟨fun i s hs => hdown.getElem? hs, fun r => hdown.rdropWhile r, ?_⟩
  intro ops g' hops hexec
  -- the changes only write to the newest undo state
  have hopen : g'.revision = g.revision + 1 ∧ ∃ s, g'.stack = s :: g.stack := by
    refine Run.exec_induct_mem (fun g' : GenericIndex V =>
      g'.revision = g.revision + 1 ∧ ∃ s, g'.stack = s :: g.stack) ?_ ⟨rfl, _, rfl⟩ hexec
    rintro op hop g₁ g₂ ⟨hrevision, s, hstack⟩ hstep
    obtain ⟨hsame, f, -, hhead⟩ := changesObjects_stack (hops op hop) hstep
    refine ⟨hsame.trans hrevision, f s, ?_⟩
    rw [hhead]
    unfold GenericIndex.onHead
    rw [hstack]
  obtain ⟨hrevision, s, hstack⟩ := hopen
  unfold GenericIndex.squash
  rw [hstack]
  cases hbefore : g.stack with
  | nil => simp [hrevision]
  | cons s' stack => simp [hrevision]

/-- **A single session that is squashed leaves the revision raised.** -/
theorem squash_raises_revision :
    (GenericIndex.init : GenericIndex Nat).startUndoSession.squash.revision = 1 ∧
      (GenericIndex.init : GenericIndex Nat).revision = 0 ∧
      (GenericIndex.init : GenericIndex Nat).startUndoSession.squash.stack = [] := ⟨rfl, rfl, rfl⟩

/-- Two sessions are open, and one of three is undone. -/
theorem revisions_consecutive_nested : ∃ g, Run.exec (GenericIndex.call [fun v : Nat => v])
      GenericIndex.init [.setRevision 7, .op .startUndoSession, .op (.emplace fun _ => 0),
        .op .startUndoSession, .op .startUndoSession, .op .undo] = some g ∧
    g.revision = 9 ∧ g.stack.length = 2 ∧
    (∀ (i : Nat) s, g.stack[i]? = some s → s.revision = g.revision - i) := by
  refine Run.exists_end (P := fun g => g.revision = 9 ∧ g.stack.length = 2) (by decide +kernel) ?_
  exact fun g hg hvalues => ⟨hvalues.1, hvalues.2, (revisions_consecutive hg).1⟩

end DeltaChain.Chainbase

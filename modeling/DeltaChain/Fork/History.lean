import DeltaChain.Fork.Replay

/-!
# The undo stack as a history of blocks

Between calls, the undo stack of the chain database holds the states of
consecutive blocks, newest first, each the state its branch prescribes
(`History`). Undoing goes one block down, committing shortens the history from
below and applying a block in a session extends it.
-/

namespace DeltaChain.Fork

open Chainbase Function

variable {ρ : Type}

section

variable (exec : Exec ρ) (start : ChainState ρ)

/-- The saved states lead, block by block, to the state `s`. -/
def Descends (s : ChainState ρ) : List (Int × ChainState ρ) → Prop
  | [] => True
  | (r, c) :: rest =>
    (∃ b, Database.execBlock exec c b = some s) ∧ r = s.headBlockNum ∧
      stateAt exec start c.headBlockId = some c ∧ Descends c rest

/-- The stack holds the states of consecutive blocks, under their block numbers
as revisions. -/
structure History (u : UndoStack (ChainState ρ)) : Prop where
  revision : u.revision = u.cur.headBlockNum
  cur : stateAt exec start u.cur.headBlockId = some u.cur
  saved : Descends exec start u.cur u.saved

end

variable {exec : Exec ρ} {start : ChainState ρ} {u : UndoStack (ChainState ρ)}

theorem history_init (s : ChainState ρ) : History exec s (UndoStack.init s s.headBlockNum) :=
  ⟨rfl, stateAt_self, trivial⟩

/-- The number of blocks that can be undone. -/
def depth (u : UndoStack (ChainState ρ)) : Nat := u.saved.length

theorem history_undo (h : History exec start u) : History exec start u.undo := by
  obtain ⟨hrev, hcur, hsaved⟩ := h
  unfold UndoStack.undo
  match hs : u.saved, hsaved with
  | [], _ => exact ⟨hrev, hcur, by rw [hs]; trivial⟩
  | (r, c) :: rest, hsaved =>
    obtain ⟨⟨b, hexec⟩, -, hc, hrest⟩ := hsaved
    refine ⟨?_, hc, hrest⟩
    have := execBlock_num hexec
    show u.revision - 1 = (c.headBlockNum : Int)
    omega

theorem undo_headBlockId (h : History exec start u) (hd : 0 < depth u) :
    u.undo.cur.headBlockId = u.cur.headBlockId.up ∧
      u.cur.headBlockNum = u.undo.cur.headBlockNum + 1 := by
  obtain ⟨-, -, hsaved⟩ := h
  unfold UndoStack.undo
  match hs : u.saved, hsaved with
  | [], _ => simp [depth, hs] at hd
  | (r, c) :: rest, hsaved =>
    obtain ⟨⟨b, hexec⟩, -, -, -⟩ := hsaved
    obtain ⟨hprev, hhead⟩ := execBlock_eq_some hexec
    refine ⟨?_, execBlock_num hexec⟩
    rw [hhead]
    exact hprev

theorem undo_of_depth_zero (hd : depth u = 0) : u.undo = u := by
  unfold UndoStack.undo
  rw [List.length_eq_zero_iff.mp hd]

theorem history_iterate (h : History exec start u) : ∀ j, History exec start (UndoStack.undo^[j] u)
  | 0 => h
  | j + 1 => by
    rw [iterate_succ_apply']
    exact history_undo (history_iterate h j)

theorem depth_iterate (u : UndoStack (ChainState ρ)) :
    ∀ j, depth (UndoStack.undo^[j] u) = depth u - j
  | 0 => rfl
  | j + 1 => by
    rw [iterate_succ_apply']
    have hlen : depth (UndoStack.undo^[j] u).undo = depth (UndoStack.undo^[j] u) - 1 :=
      (UndoStack.undo^[j] u).length_saved_undo
    rw [hlen, depth_iterate u j]
    omega

theorem headBlockId_iterate (h : History exec start u) :
    ∀ {j : Nat}, j ≤ depth u →
      (UndoStack.undo^[j] u).cur.headBlockId = BlockId.up^[j] u.cur.headBlockId ∧
      (UndoStack.undo^[j] u).cur.headBlockNum + j = u.cur.headBlockNum
  | 0, _ => ⟨rfl, rfl⟩
  | j + 1, hj => by
    obtain ⟨hid, hnum⟩ := headBlockId_iterate h (Nat.le_of_succ_le hj)
    have hpos : 0 < depth (UndoStack.undo^[j] u) := by
      rw [depth_iterate]
      omega
    obtain ⟨hup, hstep⟩ := undo_headBlockId (history_iterate h j) hpos
    rw [iterate_succ_apply', iterate_succ_apply']
    refine ⟨by rw [hup, hid], ?_⟩
    omega

theorem iterate_of_depth_le (u : UndoStack (ChainState ρ)) :
    ∀ {j : Nat}, depth u ≤ j → UndoStack.undo^[j] u = UndoStack.undo^[depth u] u
  | 0, hj => by rw [Nat.le_zero.mp hj]
  | j + 1, hj => by
    rcases Nat.lt_or_ge (depth u) (j + 1) with hlt | hge
    · rw [iterate_succ_apply', undo_of_depth_zero, iterate_of_depth_le u (by omega)]
      rw [depth_iterate]
      omega
    · rw [le_antisymm hj hge]

/-- The oldest state the history reaches back to. -/
def oldest (u : UndoStack (ChainState ρ)) : ChainState ρ := (UndoStack.undo^[depth u] u).cur

theorem history_push {b : Block} {s : ChainState ρ} (h : History exec start u)
    (hexec : Database.execBlock exec u.cur b = some s) :
    History exec start (u.startUndoSession.set s) ∧
      depth (u.startUndoSession.set s) = depth u + 1 := by
  have hnum := execBlock_num hexec
  obtain ⟨hprev, hhead⟩ := execBlock_eq_some hexec
  have hcur := hprev ▸ h.cur
  have hstate : stateAt exec start s.headBlockId = some s := by
    rw [hhead, stateAt_block (stateAt_num_le hcur), hcur]
    exact hexec
  refine ⟨⟨?_, hstate, ⟨⟨b, hexec⟩, ?_, h.cur, h.saved⟩⟩, rfl⟩ <;>
  · show u.revision + 1 = (s.headBlockNum : Int)
    rw [h.revision, hnum]
    rfl

/-- What `commit` keeps of a history: the states above the committed block. -/
theorem saved_commit (r : Nat) :
    ∀ {s : ChainState ρ} {saved : List (Int × ChainState ρ)}, Descends exec start s saved →
      saved.rdropWhile (fun e => decide (e.1 ≤ (r : Int))) = saved.take (s.headBlockNum - r)
  | s, [], _ => by simp
  | s, (q, c) :: rest, h => by
    obtain ⟨⟨b, hexec⟩, rfl, -, hrest⟩ := h
    have ih := saved_commit r hrest
    have hnum := execBlock_num hexec
    rw [UndoStack.rdropWhile_cons, ih]
    by_cases hr : s.headBlockNum ≤ r
    · -- the newest state goes, and so do the older ones
      have h₁ : s.headBlockNum - r = 0 := by omega
      have h₂ : c.headBlockNum - r = 0 := by omega
      simp [h₁, h₂, hr]
    · have h₁ : s.headBlockNum - r = c.headBlockNum - r + 1 := by omega
      have hdec : decide ((s.headBlockNum : Int) ≤ (r : Int)) = false := by
        simpa using hr
      rw [h₁, List.take_succ_cons]
      split
      · next hnil =>
        rw [hnil]
        simp only [hdec]
        rfl
      · rfl

theorem descends_take :
    ∀ {s : ChainState ρ} {saved : List (Int × ChainState ρ)} (n : Nat),
      Descends exec start s saved → Descends exec start s (saved.take n)
  | _, [], n, _ => by simp [Descends]
  | _, _ :: _, 0, _ => trivial
  | s, (q, c) :: rest, n + 1, h => by
    obtain ⟨hexec, hq, hc, hrest⟩ := h
    exact ⟨hexec, hq, hc, descends_take n hrest⟩

theorem history_commit (r : Nat) (h : History exec start u) :
    History exec start (u.commit r) ∧
      depth (u.commit r) = min (depth u) (u.cur.headBlockNum - r) := by
  have hsaved : (u.commit r).saved = u.saved.take (u.cur.headBlockNum - r) :=
    saved_commit r h.saved
  refine ⟨⟨h.revision, h.cur, ?_⟩, ?_⟩
  · rw [hsaved]
    exact descends_take _ h.saved
  · unfold depth
    rw [hsaved, List.length_take, min_comm]

end DeltaChain.Fork

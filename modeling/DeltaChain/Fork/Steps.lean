import DeltaChain.Fork.History
import DeltaChain.Fork.Walk

/-!
# What the loops of `_push_block` do

One lemma for every part of `push_block`, in terms of the head block ids it
moves over:

* `popTo_reach`, `popTo_stuck` — the pop loop reaches its target, or uses up the
  undo history and then the links of the fork head, and throws;
* `applyInSession_cases` — applying a block in a session changes nothing or
  extends the history by one state;
* `pushItems_spec` — pushing the items of a branch, up to the first that throws.
-/

namespace DeltaChain.Fork

open Chainbase List ForkDatabase Option

namespace Database

variable {ρ : Type} {db : Database ρ} {target : BlockId} {h : ForkItem}

-- # The pop loop

/-- The database with `n` blocks undone and the fork head moved to `h`. -/
def popped (db : Database ρ) (h : ForkItem) (n : Nat) : Database ρ :=
  { db with forkDb := db.forkDb.setHead h, chain := UndoStack.undo^[n] db.chain }

/-- The head block is known to the fork database. -/
def HeadKnown (db : Database ρ) : Prop := ∃ x, db.forkDb.index.find? db.headBlockId = some x

/-- `pop_block` undoes one block and moves the fork head to its first live link. -/
theorem popBlock_eq (hknown : db.HeadKnown) (hh : db.forkDb.head = some h) (hwf : h.WF) :
    db.popBlock = match db.forkDb.live h with
      | [] => .error .popLastItem db
      | p :: _ => .ok () (db.popped p 1) := by
  obtain ⟨x, hx⟩ := hknown
  unfold popBlock fetchBlockById
  rw [show db.forkDb.fetchBlock db.headBlockId = some x from hx, db.forkDb.popBlock_eq hh hwf]
  cases db.forkDb.live h <;> rfl

/-- One round of the loop. -/
theorem popTo_step {p : ForkItem} {ps : List ForkItem} (hne : db.headBlockId ≠ target)
    (hknown : db.HeadKnown) (hh : db.forkDb.head = some h) (hwf : h.WF)
    (hlive : db.forkDb.live h = p :: ps) : popTo target h db = popTo target p (db.popped p 1) := by
  have hprev := (live_cons hlive).1
  cases h with
  | unlinked ref data => exact absurd hprev (by simp [ForkItem.prev?])
  | linked ref data prev =>
    obtain rfl : prev = p := some.inj hprev
    rw [popTo, if_neg hne, popBlock_eq hknown hh hwf, hlive]

theorem popped_zero (hh : db.forkDb.head = some h) : db.popped h 0 = db := by
  unfold popped setHead
  rw [← hh]
  rfl

theorem popped_popped (db : Database ρ) (h h' : ForkItem) (m n : Nat) :
    (db.popped h m).popped h' n = db.popped h' (n + m) := by
  unfold popped setHead
  rw [Function.iterate_add_apply]

/-- The loop stops at the first state of the history with the target as its
head, if the fork head has enough live links. -/
theorem popTo_reach :
    ∀ {n : Nat} {db : Database ρ} {h : ForkItem}, db.forkDb.head = some h → h.WF →
      n ≤ (db.forkDb.live h).length →
      (∀ j < n, (db.popped h j).headBlockId ≠ target ∧ (db.popped h j).HeadKnown) →
      (db.popped h n).headBlockId = target →
      ∃ h', (h' = h ∨ h' ∈ db.forkDb.live h) ∧ popTo target h db = .ok () (db.popped h' n)
  | 0, db, h, hh, _, _, _, heq => by
    rw [popped_zero hh] at heq
    refine ⟨h, Or.inl rfl, ?_⟩
    rw [popTo, if_pos heq, popped_zero hh]
  | n + 1, db, h, hh, hwf, hlen, hbelow, heq => by
    cases hlive : db.forkDb.live h with
    | nil => simp [hlive] at hlen
    | cons p ps =>
      obtain ⟨hprev, -, hps⟩ := live_cons hlive
      obtain ⟨hne, hknown⟩ := hbelow 0 (Nat.succ_pos n)
      rw [popped_zero hh] at hne hknown
      rw [popTo_step hne hknown hh hwf hlive]
      have hlive' : (db.popped p 1).forkDb.live p = ps :=
        (db.forkDb.live_setHead (some p) p).trans hps
      have hmove : ∀ j, (db.popped p 1).popped p j = db.popped p (j + 1) :=
        fun j => popped_popped db p p 1 j
      have hlen' : n ≤ ((db.popped p 1).forkDb.live p).length := by
        rw [hlive, length_cons] at hlen
        rw [hlive']
        omega
      obtain ⟨h', hh', heq'⟩ := popTo_reach rfl (hwf.of_prev hprev).2 hlen'
        (fun j hj => by rw [hmove]; exact hbelow (j + 1) (by omega))
        (by rw [hmove]; exact heq)
      refine ⟨h', Or.inr ?_, ?_⟩
      · rcases hh' with rfl | hmem
        · exact mem_cons_self ..
        · exact mem_cons_of_mem _ (hlive' ▸ hmem)
      · rw [heq', popped_popped]

/-- A target that is not met as long as the fork head has live links: the loop
throws with the fork head at the end of these. -/
theorem popTo_stuck :
    ∀ {db : Database ρ} {h : ForkItem} {ps : List ForkItem}, db.forkDb.live h = ps →
      db.forkDb.head = some h → h.WF →
      (∀ j ≤ ps.length, (db.popped h j).headBlockId ≠ target ∧ (db.popped h j).HeadKnown) →
      popTo target h db =
        .error .popLastItem (db.popped (ps.getLastD h) ps.length)
  | db, h, [], hlive, hh, hwf, hall => by
    obtain ⟨hne, hknown⟩ := hall 0 (Nat.zero_le _)
    rw [popped_zero hh] at hne hknown
    rw [popTo, if_neg hne, popBlock_eq hknown hh hwf, hlive, getLastD_nil, length_nil,
      popped_zero hh]
  | db, h, p :: ps, hlive, hh, hwf, hall => by
    obtain ⟨hprev, -, hps⟩ := live_cons hlive
    obtain ⟨hne, hknown⟩ := hall 0 (Nat.zero_le _)
    rw [popped_zero hh] at hne hknown
    rw [popTo_step hne hknown hh hwf hlive]
    have hlive' : (db.popped p 1).forkDb.live p = ps :=
      (db.forkDb.live_setHead (some p) p).trans hps
    have hmove : ∀ j, (db.popped p 1).popped p j = db.popped p (j + 1) :=
      fun j => popped_popped db p p 1 j
    rw [popTo_stuck hlive' rfl (hwf.of_prev hprev).2
      (fun j hj => by rw [hmove]; exact hall (j + 1) (Nat.succ_le_succ hj)), popped_popped,
      getLastD_cons, length_cons]

-- # Applying a block in a session

variable {exec : Exec ρ} {start s : ChainState ρ} {blocks : List ForkItem}

/-- The database with `_fork_db.set_head( x )`. -/
def setForkHead (db : Database ρ) (x : ForkItem) : Database ρ :=
  { db with forkDb := db.forkDb.setHead x }

/-- The database inside the session of the block that made the state `s`, before
`migrate_irreversible_state`. -/
def during (db : Database ρ) (s : ChainState ρ) : Database ρ :=
  { db with chain := db.chain.startUndoSession.set s }

/-- The database after a block that made the state `s`, with `blocks` written to
the block log. -/
def applied (db : Database ρ) (s : ChainState ρ) (blocks : List ForkItem) : Database ρ :=
  { forkDb := db.forkDb.setMaxSize (s.headBlockNum - s.lastIrreversibleBlockNum + 1)
    chain := (db.chain.startUndoSession.set s).commit s.lastIrreversibleBlockNum
    blockLog := db.blockLog ++ blocks.map ForkItem.data }

/-- The block is accepted: it makes the state `s`, and `blocks` become
irreversible with it. -/
structure Accepts (exec : Exec ρ) (db : Database ρ) (b : Block) (s : ChainState ρ)
    (blocks : List ForkItem) : Prop where
  exec : execBlock exec db.chain.cur b = some s
  forkHead : ∀ {h}, db.forkDb.head = some h → h.num = s.headBlockNum
  blocks : (db.during s).blocksToWrite = some blocks

/-- `migrate_irreversible_state`, where the fork head is the block that was applied. -/
theorem migrate_ok (hhead : ∀ {h}, db.forkDb.head = some h → h.num = s.headBlockNum)
    (hblocks : (db.during s).blocksToWrite = some blocks) :
    (db.during s).migrateIrreversibleState = .ok () (db.applied s blocks) := by
  unfold migrateIrreversibleState
  have hany : ((db.during s).forkDb.head.any fun h => decide (h.num ≠ (db.during s).headBlockNum))
      = false := by
    show (db.forkDb.head.any fun h => decide (h.num ≠ s.headBlockNum)) = false
    cases hh : db.forkDb.head with
    | none => rfl
    | some h => simp [hhead hh]
  rw [hany, hblocks]
  rfl

/-- The session is undone when the block throws, so it can be left out. -/
theorem applyInSession_eq (exec : Exec ρ) (db : Database ρ) (b : Block) :
    db.applyInSession exec b =
      if db.headBlockId ≠ b.previous then .error .notOnHead db
      else match execBlock exec db.chain.cur b with
        | none => .error .rejected db
        | some s => match (db.during s).migrateIrreversibleState with
          | .ok _ s => .ok () s
          | .error e s => .error e { s with chain := s.chain.undo } := by
  have hback : ({ db with chain := db.chain.startUndoSession.undo } : Database ρ) = db := by
    rw [show db.chain.startUndoSession.undo = db.chain from
      db.chain.undo_set_startUndoSession db.chain.cur]
  by_cases hprev : db.headBlockId = b.previous
  · rw [if_neg (not_not.mpr hprev)]
    have hstart : ({ db with chain := db.chain.startUndoSession } : Database ρ).applyBlock exec b =
        match execBlock exec db.chain.cur b with
        | none => .error .rejected { db with chain := db.chain.startUndoSession }
        | some s => (db.during s).migrateIrreversibleState := if_neg (not_not.mpr hprev)
    unfold applyInSession
    rw [hstart]
    cases execBlock exec db.chain.cur b with
    | none => exact congrArg _ hback
    | some s => rfl
  · rw [if_pos hprev]
    have hstart : ({ db with chain := db.chain.startUndoSession } : Database ρ).applyBlock exec b =
        .error .notOnHead { db with chain := db.chain.startUndoSession } := if_pos hprev
    unfold applyInSession
    rw [hstart]
    exact congrArg _ hback

theorem applyInSession_ok {b : Block} (h : Accepts exec db b s blocks) :
    db.applyInSession exec b = .ok () (db.applied s blocks) := by
  have hprev : db.headBlockId = b.previous := (execBlock_eq_some h.exec).1
  rw [applyInSession_eq, if_neg (not_not.mpr hprev), h.exec]
  simp only
  rw [migrate_ok h.forkHead h.blocks]

/-- `migrate_irreversible_state` throws before it has changed anything. -/
theorem migrate_cases (db : Database ρ) (s : ChainState ρ) :
    (∃ e, (db.during s).migrateIrreversibleState = .error e (db.during s)) ∨
      (∀ {h}, db.forkDb.head = some h → h.num = s.headBlockNum) ∧
        ∃ blocks, (db.during s).blocksToWrite = some blocks := by
  by_cases hhead : ∀ {h}, db.forkDb.head = some h → h.num = s.headBlockNum
  · cases hblocks : (db.during s).blocksToWrite with
    | some blocks => exact Or.inr ⟨hhead, blocks, rfl⟩
    | none =>
      left
      unfold migrateIrreversibleState
      rw [hblocks]
      split
      · exact ⟨_, rfl⟩
      · exact ⟨_, rfl⟩
  · left
    have hany : ((db.during s).forkDb.head.any
        fun h => decide (h.num ≠ (db.during s).headBlockNum)) = true := by
      show (db.forkDb.head.any fun h => decide (h.num ≠ s.headBlockNum)) = true
      cases hh : db.forkDb.head with
      | none => exact absurd (fun {h} hh' => absurd (hh.symm.trans hh') (by simp)) hhead
      | some h =>
        rw [any_some, decide_eq_true_eq]
        intro heq
        refine hhead fun {h'} hh' => ?_
        obtain rfl : h = h' := mem_unique hh hh'
        exact heq
    unfold migrateIrreversibleState
    rw [hany]
    exact ⟨_, rfl⟩

/-- **A block applied in a session either changes nothing or is accepted.** -/
theorem applyInSession_cases (exec : Exec ρ) (db : Database ρ) (b : Block) :
    (∃ e, db.applyInSession exec b = .error e db) ∨
      ∃ s blocks, Accepts exec db b s blocks ∧
        db.applyInSession exec b = .ok () (db.applied s blocks) := by
  rw [applyInSession_eq]
  by_cases hprev : db.headBlockId = b.previous
  · rw [if_neg (not_not.mpr hprev)]
    cases hexec : execBlock exec db.chain.cur b with
    | none => exact Or.inl ⟨_, rfl⟩
    | some s =>
      rcases migrate_cases db s with ⟨e, he⟩ | ⟨hhead, blocks, hblocks⟩
      · refine Or.inl ⟨e, ?_⟩
        simp only
        rw [he]
        simp only [during, UndoStack.undo_set_startUndoSession]
      · refine Or.inr ⟨s, blocks, ⟨hexec, hhead, hblocks⟩, ?_⟩
        simp only
        rw [migrate_ok hhead hblocks]
  · rw [if_pos hprev]
    exact Or.inl ⟨_, rfl⟩

-- # Pushing the items of a branch

/-- Well-formed items are accepted one after the other, each as the fork head. -/
inductive Pushes (exec : Exec ρ) : Database ρ → List ForkItem → Database ρ → Prop
  | nil {db : Database ρ} : Pushes exec db [] db
  | cons {db db' : Database ρ} {x : ForkItem} {xs : List ForkItem} {s : ChainState ρ}
      {blocks : List ForkItem} : x.WF → Accepts exec (db.setForkHead x) x.data s blocks →
      Pushes exec ((db.setForkHead x).applied s blocks) xs db' → Pushes exec db (x :: xs) db'

/-- **The loop over a branch** pushes all its items, or those before the first that throws. -/
theorem pushItems_spec (exec : Exec ρ) :
    ∀ (items : List ForkItem) (db : Database ρ), (∀ x ∈ items, x.WF) →
      (∃ db', db.pushItems exec items = (db', none) ∧ Pushes exec db items db') ∨
      ∃ done x rest mid e, items = done ++ x :: rest ∧ Pushes exec db done mid ∧
        (mid.setForkHead x).applyInSession exec x.data = .error e (mid.setForkHead x) ∧
        db.pushItems exec items = (mid.setForkHead x, some (e, x :: rest))
  | [], db, _ => Or.inl ⟨db, rfl, .nil⟩
  | x :: xs, db, hwf => by
    obtain ⟨hx, hxs⟩ := forall_mem_cons.mp hwf
    rcases applyInSession_cases exec (db.setForkHead x) x.data with ⟨e, he⟩ | ⟨s, blocks, hacc, hok⟩
    · refine Or.inr ⟨[], x, xs, db, e, rfl, .nil, he, ?_⟩
      rw [pushItems, show ({ db with forkDb := db.forkDb.setHead x } : Database ρ) =
        db.setForkHead x from rfl, he]
    · have hpush : db.pushItems exec (x :: xs) =
          ((db.setForkHead x).applied s blocks).pushItems exec xs := by
        rw [pushItems, show ({ db with forkDb := db.forkDb.setHead x } : Database ρ) =
          db.setForkHead x from rfl, hok]
      rw [hpush]
      rcases pushItems_spec exec xs ((db.setForkHead x).applied s blocks) hxs with
        ⟨db', heq, hpushes⟩ | ⟨done, y, rest, mid, e, rfl, hpushes, he, heq⟩
      · exact Or.inl ⟨db', heq, .cons hx hacc hpushes⟩
      · exact Or.inr ⟨x :: done, y, rest, mid, e, rfl, .cons hx hacc hpushes, he, heq⟩

end Database

end DeltaChain.Fork

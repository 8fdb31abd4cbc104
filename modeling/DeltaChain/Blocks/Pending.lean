import DeltaChain.Blocks.Duplicates

/-!
# Pending transactions

`push_transaction` applies a transaction on top of the head block, in a session of its own, and
`push_block` takes all pending transactions away, pushes the block and then tries them again,
after those of the blocks that were popped.

`Synced` is what holds between the calls: under the open session there is the clean state of the
head block, and the pending transactions lead from it to the visible state.
-/

namespace DeltaChain.Fork.Database

variable {ρ : Type} (exec : Exec ρ)

-- # The blocks that are popped

/-- The blocks that `popTo` pops, in the order of the chain: `pop_block` puts the transactions of
a block before those popped so far. -/
def popToBlocks (target : BlockId) : ForkItem → Database ρ → List Block
  | head, db =>
    if db.headBlockId = target then []
    else match db.fetchBlockById db.headBlockId, db.popBlock with
      | some b, .ok _ s => match head with
        | .unlinked _ _ => [b]
        | .linked _ _ prev => popToBlocks target prev s ++ [b]
      | _, _ => []

/-- The blocks that `popLoop` pops. -/
def popLoopBlocks (db : Database ρ) (target : BlockId) : List Block :=
  match db.forkDb.head with
  | some head => popToBlocks target head db
  | none => []

/-- The blocks that `switchTo` pops; those of a branch that is given up come first. -/
def switchBlocks (db : Database ρ) (target : BlockId) (first : List ForkItem) : List Block :=
  match db.popLoop target with
  | .error _ _ => db.popLoopBlocks target
  | .ok _ s => match s.pushItems exec first.reverse with
    | (_, none) => db.popLoopBlocks target
    | (s, some (_, invalid)) =>
      (s.removeItems invalid).popLoopBlocks target ++ db.popLoopBlocks target

/-- The blocks that `_push_block` pops. -/
def poppedBlocks (db : Database ρ) (block : Block) : List Block :=
  match db.forkDb.pushBlock block with
  | .error _ => []
  | .ok (newHead, f) =>
    let db := { db with forkDb := f }
    if newHead.previousId ≠ db.headBlockId ∧ newHead.num > db.headBlockNum then
      match db.forkDb.fetchBranchFrom newHead.id db.headBlockId with
      | none => []
      | some (first, second) => match second.getLast? with
        | none => []
        | some last => (db.hold (first ++ second)).switchBlocks exec last.previousId first
    else []

end DeltaChain.Fork.Database

namespace DeltaChain.Blocks

open Lib Ledger Fork Chainbase List Option

variable {Op ω : Type}

-- # The calls

/-- The database with `_pending_tx`, and whether there is a `_pending_tx_session`. -/
structure Pool (Op ω : Type) where
  db : Fork.Database (State ω)
  pendingTx : List (SignedTransaction Op)
  pendingSession : Bool

namespace Pool

/-- The state that can be read. -/
def visible (p : Pool Op ω) : ChainState (State ω) := p.db.chain.cur

/-- The same with another undo stack. -/
def withChain (p : Pool Op ω) (chain : UndoStack (ChainState (State ω))) : Pool Op ω :=
  { p with db := { p.db with chain := chain } }

/-- The first transaction after a block starts the pending session. -/
def openSession (p : Pool Op ω) : Pool Op ω :=
  if p.pendingSession then p
  else { p.withChain p.db.chain.startUndoSession with pendingSession := true }

variable (R : Rules Op ω)

/-- `_push_transaction`, and whether it returns. -/
def pushTx (pending : Bool) (p : Pool Op ω) (tx : SignedTransaction Op) : Pool Op ω × Bool :=
  let p := p.openSession
  let temp := p.db.chain.startUndoSession
  match applyTransaction R pending temp.cur.headBlockNum temp.cur.rest tx with
  | none => (p.withChain temp.undo, false)
  | some s =>
    ({ p.withChain (temp.set { temp.cur with rest := s }).squash with
      pendingTx := p.pendingTx ++ [tx] }, true)

/-- `push_transaction`, and whether it returns. -/
def pushTransaction (p : Pool Op ω) (tx : SignedTransaction Op) : Pool Op ω × Bool :=
  if R.packSize tx ≤ R.maximumBlockSize p.visible.rest.world - 256 then p.pushTx R true tx
  else (p, false)

def clearPending (p : Pool Op ω) : Pool Op ω :=
  { p.withChain (if p.pendingSession then p.db.chain.undo else p.db.chain) with
    pendingTx := []
    pendingSession := false }

/-- A transaction is pushed again, unless it is known. What it throws is caught. -/
def repush (p : Pool Op ω) (tx : SignedTransaction Op) : Pool Op ω :=
  if (p.visible.rest.transactions.find? (R.transactionId tx.toTransaction)).isSome then p else (p.pushTx R false tx).1

/-- `_popped_tx`, after `_push_block`. -/
def poppedTx (p : Pool Op ω) (b : Block) : List (SignedTransaction Op) :=
  (p.clearPending.db.poppedBlocks (exec R) b).flatMap fun b => (R.contents b.payload).transactions

/-- `push_block`, whether it returns or throws. -/
def pushBlock (p : Pool Op ω) (b : Block) : Pool Op ω :=
  let cleared := p.clearPending
  let pushed := { cleared with db := Fork.Database.after (cleared.db.pushBlock (exec R) b) }
  p.pendingTx.foldl (repush R) ((p.poppedTx R b).foldl (repush R) pushed)

inductive Call (Op : Type) where
  | pushBlock (b : Block)
  | pushTransaction (tx : SignedTransaction Op)

/-- One call, returning or throwing. -/
def step (p : Pool Op ω) : Call Op → Pool Op ω
  | .pushBlock b => p.pushBlock R b
  | .pushTransaction tx => (p.pushTransaction R tx).1

-- # Transactions on top of the head block

/-- The state behind transactions that were tried again after a block, and others that were pushed
after that. Only the latter were applied with the flags for pending transactions. -/
def applyPending (num : Nat) (s : State ω) (restored pushed : List (SignedTransaction Op)) :
    Option (State ω) := do
  let s ← restored.foldlM (applyTransaction R false num) s
  pushed.foldlM (applyTransaction R true num) s

variable {R} {start : ChainState (State ω)} {p p' : Pool Op ω}
  {restored pushed : List (SignedTransaction Op)} {base : Fork.Database (State ω)}

/-- **What holds between the calls.** Without the pending session the database is one that
`push_block` can reach, and the pending transactions lead from its state to the visible one. -/
structure Synced (R : Rules Op ω) (start : ChainState (State ω)) (p : Pool Op ω)
    (base : Fork.Database (State ω)) (restored pushed : List (SignedTransaction Op)) :
    Prop where
  reachable : Fork.Database.Reachable (exec R) start base
  db : p.db = if p.pendingSession then
      { base with chain := base.chain.startUndoSession.set p.visible } else base
  pendingTx : p.pendingTx = restored ++ pushed
  closed : p.pendingSession = false → p.pendingTx = []
  visible : ∃ s, p.visible = { base.chain.cur with rest := s } ∧
    applyPending R base.chain.cur.headBlockNum base.chain.cur.rest restored pushed = some s

theorem Synced.openSession (h : Synced R start p base restored pushed) :
    Synced R start p.openSession base restored pushed ∧
      p.openSession.pendingSession = true ∧ p.openSession.visible = p.visible ∧
      p.openSession.pendingTx = p.pendingTx := by
  unfold Pool.openSession
  split
  · next hopen => exact ⟨h, hopen, rfl, rfl⟩
  · next hclosed =>
    have hdb : p.db = base := by
      rw [h.db, if_neg hclosed]
    refine ⟨⟨h.reachable, ?_, h.pendingTx, fun hfalse => absurd hfalse (by simp), h.visible⟩,
      rfl, rfl, rfl⟩
    unfold Pool.withChain Pool.visible
    simp only [hdb]
    rfl

theorem Synced.chain (h : Synced R start p base restored pushed) (hopen : p.pendingSession = true) :
    p.db.chain = base.chain.startUndoSession.set p.visible := by
  have hdb := h.db
  rw [if_pos hopen] at hdb
  exact congrArg Fork.Database.chain hdb

variable {s : State ω} {tx : SignedTransaction Op} {num : Nat} {s' : State ω}

/-- **`_push_transaction`.** It throws and changes nothing that can be seen, or the transaction is
pending and its changes are visible. -/
theorem Synced.pushTx (h : Synced R start p base restored pushed) (pending : Bool)
    (tx : SignedTransaction Op) :
    (p.pushTx R pending tx).2 = false ∧
      Synced R start (p.pushTx R pending tx).1 base restored pushed ∧
      (p.pushTx R pending tx).1.visible = p.visible ∧
      (p.pushTx R pending tx).1.pendingTx = p.pendingTx ∨
    (p.pushTx R pending tx).2 = true ∧
      (p.pushTx R pending tx).1.pendingTx = p.pendingTx ++ [tx] ∧
      ∃ s, applyTransaction R pending base.chain.cur.headBlockNum p.visible.rest tx = some s ∧
        (p.pushTx R pending tx).1.visible = { p.visible with rest := s } ∧
        (p.pushTx R pending tx).1.pendingSession = true ∧
        (p.pushTx R pending tx).1.db =
          { base with chain := base.chain.startUndoSession.set { p.visible with rest := s } } := by
  obtain ⟨hopened, hsession, hvisible, hpending⟩ := h.openSession
  have hchain := hopened.chain hsession
  have hdb := hopened.db
  rw [if_pos hsession] at hdb
  have hnum : p.visible.headBlockNum = base.chain.cur.headBlockNum := by
    obtain ⟨s, hs, -⟩ := h.visible
    rw [hs]
    rfl
  have hcur : p.openSession.db.chain.startUndoSession.cur = p.visible := hvisible
  unfold Pool.pushTx
  simp only
  rw [hcur, hnum]
  cases happly : applyTransaction R pending base.chain.cur.headBlockNum p.visible.rest tx with
  | none =>
    refine .inl ⟨rfl, ?_⟩
    have hsame : p.openSession.withChain p.openSession.db.chain.startUndoSession.undo =
        p.openSession := by
      have hundo := UndoStack.undo_set_startUndoSession p.openSession.db.chain
        p.openSession.db.chain.cur
      exact congrArg (fun c => ({ p.openSession with
        db := { p.openSession.db with chain := c } } : Pool Op ω)) hundo
    rw [hsame]
    exact ⟨hopened, hvisible, hpending⟩
  | some s =>
    refine .inr ⟨rfl, congrArg (· ++ [tx]) hpending, s, rfl, ?_⟩
    have hsaved : p.openSession.db.chain.saved ≠ [] := by
      rw [hchain]
      exact cons_ne_nil _ _
    have hsquash := UndoStack.squash_set_startUndoSession hsaved { p.visible with rest := s }
    have hafter : ((p.openSession.db.chain.startUndoSession).set
        { p.visible with rest := s }).squash =
        base.chain.startUndoSession.set { p.visible with rest := s } := by
      rw [hsquash, hchain]
      rfl
    refine ⟨congrArg UndoStack.cur hafter, hsession, ?_⟩
    unfold Pool.withChain
    dsimp only
    rw [hafter, hdb]

/-- A transaction that is applied leads on from the pending ones. -/
theorem Synced.applied {q : Pool Op ω} {restored' pushed' : List (SignedTransaction Op)}
    (h : Synced R start p base restored pushed) (hpending : q.pendingTx = p.pendingTx ++ [tx])
    (hlist : restored ++ pushed ++ [tx] = restored' ++ pushed')
    (hvisible : q.visible = { p.visible with rest := s }) (hsession : q.pendingSession = true)
    (hdb : q.db = { base with
      chain := base.chain.startUndoSession.set { p.visible with rest := s } })
    (happlied : ∀ s₁, applyPending R base.chain.cur.headBlockNum base.chain.cur.rest restored
      pushed = some s₁ → p.visible.rest = s₁ →
      applyPending R base.chain.cur.headBlockNum base.chain.cur.rest restored' pushed' = some s) :
    Synced R start q base restored' pushed' := by
  obtain ⟨s₁, hbefore, hs₁⟩ := h.visible
  refine ⟨h.reachable, ?_, ?_, fun hfalse => ?_, s, ?_, ?_⟩
  · rw [if_pos hsession, hdb, hvisible]
  · rw [hpending, h.pendingTx, hlist]
  · rw [hsession] at hfalse
    cases hfalse
  · rw [hvisible, hbefore]
  · exact happlied s₁ hs₁ (by rw [hbefore])

theorem Synced.pushTransaction (h : Synced R start p base restored pushed)
    (tx : SignedTransaction Op) : ∃ pushed',
      Synced R start (p.pushTransaction R tx).1 base restored pushed' := by
  unfold Pool.pushTransaction
  split
  · rcases h.pushTx true tx with ⟨-, hsynced, -⟩ | ⟨-, hpending, s, happly, hrest⟩
    · exact ⟨pushed, hsynced⟩
    · obtain ⟨hvisible, hsession, hdb⟩ := hrest
      refine ⟨pushed ++ [tx], h.applied hpending (append_assoc _ _ _) hvisible hsession hdb ?_⟩
      rintro s₁ hs₁ hrest
      rw [hrest] at happly
      obtain ⟨s₀, hrestored, hpushed⟩ := bind_eq_some_iff.mp hs₁
      refine bind_eq_some_iff.mpr ⟨s₀, hrestored, ?_⟩
      rw [foldlM_append, hpushed]
      exact (congrArg (bind · some) happly).trans rfl
  · exact ⟨pushed, h⟩

-- # Trying transactions again

theorem Synced.repush (h : Synced R start p base restored []) (tx : SignedTransaction Op) :
    Synced R start (p.repush R tx) base restored [] ∨
      Synced R start (p.repush R tx) base (restored ++ [tx]) [] := by
  unfold Pool.repush
  split
  · exact .inl h
  · rcases h.pushTx false tx with ⟨-, hsynced, -⟩ | ⟨-, hpending, s, happly, hrest⟩
    · exact .inl hsynced
    · obtain ⟨hvisible, hsession, hdb⟩ := hrest
      refine .inr (h.applied hpending (by simp) hvisible hsession hdb ?_)
      rintro s₁ hs₁ hrest
      rw [hrest] at happly
      obtain ⟨s₀, hrestored, hnil⟩ := bind_eq_some_iff.mp hs₁
      cases hnil
      refine bind_eq_some_iff.mpr ⟨s, ?_, rfl⟩
      rw [foldlM_append, hrestored]
      exact (congrArg (bind · some) happly).trans rfl

theorem Synced.foldl_repush (h : Synced R start p base restored [])
    (txs : List (SignedTransaction Op)) : ∃ extra, extra.Sublist txs ∧
      Synced R start (txs.foldl (Pool.repush R) p) base (restored ++ extra) [] := by
  induction txs generalizing p restored with
  | nil => exact ⟨[], Sublist.refl _, by rwa [append_nil]⟩
  | cons tx txs ih =>
    rcases h.repush tx with hskip | htaken
    · obtain ⟨extra, hsub, hsynced⟩ := ih hskip
      exact ⟨extra, hsub.cons tx, hsynced⟩
    · obtain ⟨extra, hsub, hsynced⟩ := ih htaken
      rw [append_assoc] at hsynced
      exact ⟨tx :: extra, hsub.cons_cons tx, hsynced⟩

section

variable (h : Synced R start p base restored pushed)

include h

theorem Synced.clearPending : p.clearPending = ⟨base, [], false⟩ := by
  unfold Pool.clearPending Pool.withChain
  have hdb := h.db
  cases hsession : p.pendingSession with
  | false =>
    rw [hsession] at hdb
    simp only [Bool.false_eq_true, if_false] at hdb ⊢
    rw [hdb]
  | true =>
    rw [hsession, if_pos rfl] at hdb
    simp only [if_true]
    rw [hdb]
    simp only [UndoStack.undo_set_startUndoSession]

/-- **`push_block`.** Whether it returns or throws, the pending transactions are then some of the
popped ones, and after them some of those that were pending before, both in their order. -/
theorem Synced.pushBlock (b : Block) :
    ∃ a c, a.Sublist (p.poppedTx R b) ∧ c.Sublist p.pendingTx ∧
      Synced R start (p.pushBlock R b) (Fork.Database.after (base.pushBlock (exec R) b))
        (a ++ c) [] := by
  unfold Pool.pushBlock
  rw [h.clearPending]
  have hclean : Synced R start ⟨Fork.Database.after (base.pushBlock (exec R) b), [], false⟩
      (Fork.Database.after (base.pushBlock (exec R) b)) [] [] :=
    ⟨.push b h.reachable, rfl, rfl, fun _ => rfl, _, rfl, rfl⟩
  obtain ⟨a, ha, hpopped⟩ := hclean.foldl_repush (p.poppedTx R b)
  obtain ⟨c, hc, hall⟩ := hpopped.foldl_repush p.pendingTx
  exact ⟨a, c, ha, hc, hall⟩

theorem Synced.step (call : Call Op) :
    ∃ base' restored' pushed', Synced R start (p.step R call) base' restored' pushed' := by
  cases call with
  | pushBlock b =>
    obtain ⟨a, c, -, -, hsynced⟩ := h.pushBlock b
    exact ⟨_, _, _, hsynced⟩
  | pushTransaction tx =>
    obtain ⟨pushed', hsynced⟩ := h.pushTransaction tx
    exact ⟨_, _, _, hsynced⟩

theorem Synced.run (calls : List (Call Op)) :
    ∃ base' restored' pushed',
      Synced R start (calls.foldl (Pool.step R) p) base' restored' pushed' := by
  induction calls generalizing p base restored pushed with
  | nil => exact ⟨base, restored, pushed, h⟩
  | cons call calls ih =>
    obtain ⟨base', restored', pushed', hstep⟩ := h.step call
    exact ih hstep

end

-- # Pending transactions are new

/-- Transactions that apply one after the other were not in the index before. -/
theorem foldlM_new {pending : Bool} {txs : List (SignedTransaction Op)}
    (h : txs.foldlM (applyTransaction R pending num) s = some s') :
    (∀ tx ∈ txs, s.transactions.find? (R.transactionId tx.toTransaction) = none) ∧
      (∀ id, s'.transactions.find? id = none → s.transactions.find? id = none) ∧
      s'.headBlockTime = s.headBlockTime := by
  induction txs generalizing s with
  | nil =>
    cases h
    exact ⟨fun tx htx => absurd htx (by simp), fun _ hid => hid, rfl⟩
  | cons tx txs ih =>
    obtain ⟨s₁, hfirst, hrest⟩ := bind_eq_some_iff.mp h
    obtain ⟨hnew, hmono, htime⟩ := ih hrest
    obtain ⟨hnone, -, world, rfl⟩ := applyTransaction_eq_some hfirst
    have hback : ∀ id, (s.transactions.emplace (R.transactionId tx.toTransaction) tx.expiration).find? id = none →
        s.transactions.find? id = none := by
      intro id hid
      rw [Table.find?_emplace] at hid
      split at hid
      · cases hid
      · exact hid
    refine ⟨fun tx' htx' => ?_, fun id hid => hback id (hmono id hid), htime⟩
    rcases mem_cons.mp htx' with rfl | htx'
    · exact hnone
    · exact hback _ (hnew tx' htx')

/-- What is on the chain and has not expired is not pending. -/
theorem Synced.fresh (h : Synced R start p base restored pushed) (htx : tx ∈ p.pendingTx)
    {blocks : List Block} (hpath : Path start.headBlockId blocks p.visible.headBlockId)
    (happlied : tx.toTransaction ∈ blocks.flatMap (transactionsOf R)) :
    tx.expiration < p.visible.rest.headBlockTime := by
  obtain ⟨s, hvisible, hpending⟩ := h.visible
  obtain ⟨s₁, hrestored, hpushed⟩ := bind_eq_some_iff.mp hpending
  obtain ⟨hnew₁, hmono, htime₁⟩ := foldlM_new hrestored
  obtain ⟨hnew₂, -, htime₂⟩ := foldlM_new hpushed
  have htime := htime₂.trans htime₁
  have hnew : ∀ tx ∈ restored ++ pushed,
      base.chain.cur.rest.transactions.find? (R.transactionId tx.toTransaction) = none :=
    fun tx htx => (mem_append.mp htx).elim (hnew₁ tx) fun htx => hmono _ (hnew₂ tx htx)
  rw [h.pendingTx] at htx
  rw [hvisible] at hpath ⊢
  have hreplay := replay_of_reachable h.reachable hpath
  have hstart : Remembered R start.headBlockNum start.rest [] := fun tx htx => absurd htx (by simp)
  obtain ⟨hremembered, -⟩ := hstart.replay nodup_nil hreplay
  rcases hremembered _ happlied with hin | ⟨-, hexpired⟩
  · rw [hnew tx htx] at hin
    cases hin
  · exact hexpired.trans_eq htime.symm

-- # All calls

/-- **Pending transactions along every run.** After any calls of `push_block` and
`push_transaction`, returning or throwing: the visible state is the clean state of the head block
with the pending transactions applied in order; none of them has been applied on the chain, unless
it has expired; after another `push_block` some of the transactions it popped are pending, followed
by some of those pending before, both in their order; and a `push_transaction` that throws changes
nothing. -/
theorem pending_consistent {blockLog : List Block} {db : Fork.Database (State ω)}
    (hlog : Fork.Database.LogNumbered blockLog)
    (hopen : Fork.Database.openOn start blockLog = some db) (calls : List (Call Op))
    (hp : calls.foldl (Pool.step R) ⟨db, [], false⟩ = p) :
    (∃ clean restored pushed s, stateAt (exec R) start p.visible.headBlockId = some clean ∧
      p.pendingTx = restored ++ pushed ∧
      applyPending R clean.headBlockNum clean.rest restored pushed = some s ∧
      p.visible = { clean with rest := s }) ∧
    (∀ tx ∈ p.pendingTx, ∀ blocks, Path start.headBlockId blocks p.visible.headBlockId →
      tx.toTransaction ∈ blocks.flatMap (transactionsOf R) →
      tx.expiration < p.visible.rest.headBlockTime) ∧
    (∀ b, ∃ a c, (p.pushBlock R b).pendingTx = a ++ c ∧ a.Sublist (p.poppedTx R b) ∧
      c.Sublist p.pendingTx) ∧
    ∀ tx, (p.pushTransaction R tx).2 = false →
      (p.pushTransaction R tx).1.visible = p.visible ∧
        (p.pushTransaction R tx).1.pendingTx = p.pendingTx := by
  have hinit : Synced R start ⟨db, [], false⟩ db [] [] :=
    ⟨.opened hlog hopen, rfl, rfl, fun _ => rfl, _, rfl, rfl⟩
  obtain ⟨base, restored, pushed, hsynced⟩ := hinit.run calls
  rw [hp] at hsynced
  refine ⟨?_, fun tx htx blocks => hsynced.fresh htx, fun b => ?_, fun tx hthrows => ?_⟩
  · obtain ⟨s, hvisible, hpending⟩ := hsynced.visible
    refine ⟨base.chain.cur, restored, pushed, s, ?_, hsynced.pendingTx, hpending, hvisible⟩
    rw [hvisible]
    exact (Fork.Database.reachable_inv hsynced.reachable).history.cur
  · obtain ⟨a, c, ha, hc, hafter⟩ := hsynced.pushBlock b
    refine ⟨a, c, ?_, ha, hc⟩
    rw [hafter.pendingTx, append_nil]
  · unfold Pool.pushTransaction at hthrows ⊢
    split
    · next hsize =>
      rw [if_pos hsize] at hthrows
      rcases hsynced.pushTx true tx with ⟨-, -, hsame⟩ | ⟨hreturns, -⟩
      · exact hsame
      · rw [hreturns] at hthrows
        cases hthrows
    · exact ⟨rfl, rfl⟩

/-- A transaction that is in no block. -/
def sampleTx : SignedTransaction Nat where
  refBlockNum := 0
  refBlockPrefix := 0
  expiration := 20
  operations := [7]
  signatures := []

/-- A transaction is pending when the node switches from one block to a branch of two. -/
def switchCalls : List (Call Nat) :=
  [.pushBlock ⟨.zero, 0⟩, .pushTransaction sampleTx, .pushBlock ⟨.zero, 1⟩,
    .pushBlock ⟨.ofBlock .zero 1, 2⟩]

/-- The transaction of the block that was popped is pending, before the other one. -/
theorem pending_consistent_switch : ∃ db p, Fork.Database.openOn sampleStart [] = some db ∧
    switchCalls.foldl (Pool.step sampleRules) ⟨db, [], false⟩ = p ∧
    p.pendingTx.map (·.operations) = [[0], [7]] ∧
    ∃ clean restored pushed s, stateAt (exec sampleRules) sampleStart p.visible.headBlockId =
        some clean ∧ p.pendingTx = restored ++ pushed ∧
      applyPending sampleRules clean.headBlockNum clean.rest restored pushed = some s ∧
      p.visible = { clean with rest := s } := by
  refine ⟨_, _, rfl, rfl, by decide +kernel, ?_⟩
  have hlog : Fork.Database.LogNumbered [] := rfl
  exact (pending_consistent hlog rfl switchCalls rfl).1

end Pool

end DeltaChain.Blocks

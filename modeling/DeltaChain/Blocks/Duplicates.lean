import DeltaChain.Blocks.Model
import DeltaChain.Fork.Moves

/-!
# No transaction twice

A transaction leaves the index of transactions only when its expiration has passed, and what has
expired is not applied again. So along every chain of blocks each transaction is applied at most
once (`Remembered`), and the chain that any fork switches have led to is such a chain.
-/

namespace DeltaChain.Blocks

open Lib Fork List Option

variable {Op ω : Type} {R : Rules Op ω}

-- # One transaction, one block

variable {s s' : State ω} {tx : SignedTransaction Op} {pending : Bool} {num : Nat}
  {blocks : List Block}

/-- **What a transaction does.** It was not in the index and has not expired, and is in the index
then. -/
theorem applyTransaction_eq_some (h : applyTransaction R pending num s tx = some s') :
    s.transactions.find? (R.transactionId tx.toTransaction) = none ∧ (0 < num → s.headBlockTime ≤ tx.expiration) ∧
    ∃ world, s' = { s with
      transactions := s.transactions.emplace (R.transactionId tx.toTransaction) tx.expiration
      world := world } := by
  simp only [applyTransaction, bind_eq_bind, bind_eq_some_iff, Option.pure_def,
    Option.some.injEq, guard_eq_some'] at h
  obtain ⟨-, -, -, hnew, -, -, -, htimely, world, -, rfl⟩ := h
  exact ⟨hnew, fun hnum => (htimely hnum).2.2.2, world, rfl⟩

/-- **What comes before the transactions** sets the time straight and leaves the index alone. -/
theorem beginBlock_eq_some {previous : BlockId} {b : Body Op}
    (h : beginBlock R previous s b = some s') : s'.headBlockTime = s.headBlockTime ∧
      s'.transactions = s.transactions ∧ s.headBlockTime < b.timestamp := by
  simp only [beginBlock, bind_eq_bind, bind_eq_some_iff, Option.pure_def,
    Option.some.injEq, guard_eq_some'] at h
  obtain ⟨s₁, hfirst, -, -, -, hheader, -, -, report, -, -, -, rfl⟩ := h
  have hsame : s₁.headBlockTime = s.headBlockTime ∧ s₁.transactions = s.transactions := by
    unfold firstBlock at hfirst
    split at hfirst
    · obtain ⟨r, -, rfl⟩ := map_eq_some_iff.mp hfirst
      exact ⟨rfl, rfl⟩
    · cases hfirst
      exact ⟨rfl, rfl⟩
  exact ⟨hsame.1, hsame.2, hsame.1 ▸ hheader.1⟩

-- # Along a chain

/-- What has been applied before is in the index, or has expired. On the first block, with `num`
blocks before it, nothing has left the index yet. -/
def Remembered (R : Rules Op ω) (num : Nat) (s : State ω) (applied : List (Transaction Op)) : Prop :=
  ∀ tx ∈ applied, s.transactions.find? (R.transactionId tx) = some tx.expiration ∨
    0 < num ∧ tx.expiration < s.headBlockTime

variable {applied : List (Transaction Op)}

theorem Remembered.applyTransaction (h : Remembered R num s applied)
    (happly : applyTransaction R pending num s tx = some s') :
    Remembered R num s' (applied ++ [tx.toTransaction]) := by
  obtain ⟨hnew, htime, world, rfl⟩ := applyTransaction_eq_some happly
  intro tx' htx'
  rcases mem_append.mp htx' with hold | hlast
  · rcases h tx' hold with hin | hexpired
    · -- what is in the index has another id
      have hne : R.transactionId tx' ≠ R.transactionId tx.toTransaction := fun heq => by
        rw [heq, hnew] at hin
        cases hin
      refine .inl ?_
      rw [Table.find?_emplace, if_neg hne]
      exact hin
    · exact .inr hexpired
  · rw [mem_singleton.mp hlast]
    refine .inl ?_
    rw [Table.find?_emplace, if_pos rfl, hnew]
    rfl

theorem Remembered.applyTransactions
    {txs : List (SignedTransaction Op)} (h : Remembered R num s applied) (hnodup : applied.Nodup)
    (happly : txs.foldlM (Blocks.applyTransaction R pending num) s = some s') :
    Remembered R num s' (applied ++ txs.map SignedTransaction.toTransaction) ∧
      (applied ++ txs.map SignedTransaction.toTransaction).Nodup ∧ s'.headBlockTime = s.headBlockTime := by
  induction txs generalizing s applied with
  | nil =>
    cases happly
    rw [map_nil, append_nil]
    exact ⟨h, hnodup, rfl⟩
  | cons tx txs ih =>
    obtain ⟨s₁, hfirst, hrest⟩ := bind_eq_some_iff.mp happly
    have hnew : (applied ++ [tx.toTransaction]).Nodup := by
      rw [nodup_append]
      refine ⟨hnodup, nodup_singleton _, ?_⟩
      rintro tx' hold tx'' hlast rfl
      rw [mem_singleton.mp hlast] at hold
      obtain ⟨hnew, htime, -⟩ := applyTransaction_eq_some hfirst
      rcases h _ hold with hin | ⟨hnum, hexpired⟩
      · rw [hnew] at hin
        cases hin
      · exact absurd (htime hnum) (not_le.mpr hexpired)
    obtain ⟨hremembered, hall, htime⟩ := ih (h.applyTransaction hfirst) hnew hrest
    rw [append_assoc] at hremembered hall
    obtain ⟨-, -, world, rfl⟩ := applyTransaction_eq_some hfirst
    exact ⟨hremembered, hall, htime⟩

theorem Remembered.clearExpired {time : Nat} (h : Remembered R num s applied)
    (htime : s.headBlockTime ≤ time) :
    Remembered R (num + 1) (clearExpiredTransactions { s with headBlockTime := time }) applied := by
  intro tx htx
  by_cases hexpired : tx.expiration < time
  · exact .inr ⟨Nat.succ_pos num, hexpired⟩
  · rcases h tx htx with hin | ⟨-, hbefore⟩
    · refine .inl ?_
      have hrow : (s.transactions.filter fun _ expiration => decide (¬ expiration < time)).find?
          (R.transactionId tx) = some tx.expiration := by
        rw [Table.find?_filter, hin, filter_some, if_pos (decide_eq_true hexpired)]
      exact hrow
    · exact absurd (hbefore.trans_le htime) hexpired

def transactionsOf (R : Rules Op ω) (b : Block) : List (Transaction Op) :=
  (R.contents b.payload).transactions.map SignedTransaction.toTransaction

/-- **One block.** -/
theorem Remembered.execBlock {s s' : ChainState (State ω)} {b : Block}
    (h : Remembered R s.headBlockNum s.rest applied) (hnodup : applied.Nodup)
    (hexec : Database.execBlock (exec R) s b = some s') :
    Remembered R s'.headBlockNum s'.rest (applied ++ transactionsOf R b) ∧
      (applied ++ transactionsOf R b).Nodup := by
  have hnum := execBlock_num hexec
  obtain ⟨hprev, -⟩ := execBlock_eq_some hexec
  unfold Database.execBlock at hexec
  rw [if_pos hprev] at hexec
  obtain ⟨r, happly, rfl⟩ := map_eq_some_iff.mp hexec
  have hheight : s.headBlockNum = b.previous.num := congrArg BlockId.num hprev
  rw [hheight] at h hnum
  simp only [exec, applyBlock, Blocks.applyTransactions, bind_eq_bind,
    bind_eq_some_iff, Option.pure_def, Option.some.injEq] at happly
  obtain ⟨s₂, ⟨s₁, hbegin, htxs⟩, ⟨lib, world⟩, -, rfl⟩ := happly
  obtain ⟨htime, hindex, hlater⟩ := beginBlock_eq_some hbegin
  have hbefore : Remembered R b.previous.num s₁ applied := by
    intro tx htx
    rw [hindex, htime]
    exact h tx htx
  obtain ⟨hremembered, hall, hsame⟩ := hbefore.applyTransactions hnodup htxs
  refine ⟨?_, hall⟩
  refine hremembered.clearExpired ?_
  rw [hsame, htime]
  exact hlater.le

/-- **A chain of blocks.** -/
theorem Remembered.replay {s s' : ChainState (State ω)}
    (h : Remembered R s.headBlockNum s.rest applied) (hnodup : applied.Nodup)
    (hreplay : Fork.replay (exec R) s blocks = some s') :
    Remembered R s'.headBlockNum s'.rest (applied ++ blocks.flatMap (transactionsOf R)) ∧
      (applied ++ blocks.flatMap (transactionsOf R)).Nodup := by
  induction blocks generalizing s applied with
  | nil =>
    cases hreplay
    rw [flatMap_nil, append_nil]
    exact ⟨h, hnodup⟩
  | cons b blocks ih =>
    unfold Fork.replay at hreplay
    obtain ⟨s₁, hfirst, hrest⟩ := bind_eq_some_iff.mp hreplay
    obtain ⟨hremembered, hall⟩ := h.execBlock hnodup hfirst
    have htail := ih hremembered hall hrest
    rw [append_assoc, ← flatMap_cons] at htail
    exact htail

theorem replay_of_reachable {start : ChainState (State ω)} {db : Database (State ω)}
    (hreach : Database.Reachable (exec R) start db)
    (hpath : Path start.headBlockId blocks db.headBlockId) :
    Fork.replay (exec R) start blocks = some db.chain.cur := by
  have hcur := (Database.reachable_inv hreach).history.cur
  have hstate : stateAt (exec R) start db.headBlockId =
      (stateAt (exec R) start start.headBlockId).bind (Fork.replay (exec R) · blocks) :=
    stateAt_path hpath (Nat.le_refl _)
  rw [stateAt_self, bind_some] at hstate
  exact hstate.symm.trans hcur

/-- **No transaction is applied twice.** Not on any chain of blocks that is accepted one after the
other from any state, and so not on the chain that a database is on after any calls of `push_block`
and `pop_block`, however it got there. -/
theorem no_transaction_twice (R : Rules Op ω) :
    (∀ (start s : ChainState (State ω)) (blocks : List Block),
      Fork.replay (exec R) start blocks = some s → (blocks.flatMap (transactionsOf R)).Nodup) ∧
    ∀ (start : ChainState (State ω)) (db : Database (State ω)) (blocks : List Block),
      Database.Reachable (exec R) start db → Path start.headBlockId blocks db.headBlockId →
        (blocks.flatMap (transactionsOf R)).Nodup := by
  have hchain : ∀ (start s : ChainState (State ω)) (blocks : List Block),
      Fork.replay (exec R) start blocks = some s → (blocks.flatMap (transactionsOf R)).Nodup := by
    intro start s blocks hreplay
    have hstart : Remembered R start.headBlockNum start.rest [] :=
      fun tx htx => absurd htx (by simp)
    exact (hstart.replay nodup_nil hreplay).2
  refine ⟨hchain, fun start db blocks hreach hpath => ?_⟩
  exact hchain start _ blocks (replay_of_reachable hreach hpath)

/-- Two blocks with a transaction each are accepted. -/
theorem no_transaction_twice_sample : ∃ s, Fork.replay (exec sampleRules) sampleStart
      [⟨.zero, 0⟩, ⟨.ofBlock .zero 0, 1⟩] = some s ∧
    ([⟨.zero, 0⟩, ⟨.ofBlock .zero 0, 1⟩].flatMap (transactionsOf sampleRules)).length = 2 ∧
    ([⟨.zero, 0⟩, ⟨.ofBlock .zero 0, 1⟩].flatMap (transactionsOf sampleRules)).Nodup := by
  refine Run.exists_end (P := fun _ => True) (by decide +kernel) fun s hs _ => ?_
  exact ⟨by decide +kernel, (no_transaction_twice sampleRules).1 _ _ _ hs⟩

end DeltaChain.Blocks

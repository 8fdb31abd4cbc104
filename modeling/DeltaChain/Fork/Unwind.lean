import DeltaChain.Fork.Switch

/-!
# When a throwing `push_block` leaves the state alone

`push_block` promises that every partial change is unwound when it throws. Blocks
at irreversible heights do stay in place whatever happens, but the promise itself
needs that the pop loop of a switch can get back to the fork point, and that a
new branch that fails has not made a block above the fork point irreversible.
`pushBlock_unwinds_iff` gives the exact condition, `Unwinds`.
-/

namespace DeltaChain.Fork

open Chainbase

namespace Database

variable {ρ : Type} {exec : Exec ρ} {start : ChainState ρ} {db db' : Database ρ}

/-- Where a switch of `push_block( b )` would have to pop blocks, it can pop all of
them or none; and where a block of the new branch then throws, no block above the
fork point has become irreversible by then (or exactly the old head has, with the
new branch passing through it). -/
def Unwinds (exec : Exec ρ) (db : Database ρ) (b : Block) : Prop :=
  match db.forkDb.pushBlock b with
  | .error _ => True
  | .ok (newHead, f) =>
    newHead.previousId = db.headBlockId ∨ newHead.num ≤ db.headBlockNum ∨
      match f.fetchBranchFrom newHead.id db.headBlockId with
      | none => True
      | some (first, second) =>
        let db := { db with forkDb := f }
        db.canPop newHead = 0 ∨ second.length ≤ db.canPop newHead ∧
          match db.tryBranch exec first second with
          | (_, none) => True
          | (mid, some _) =>
            mid.lib ≤ db.headBlockNum - second.length ∨
              (oldest mid.chain).headBlockId = db.headBlockId

instance (exec : Exec ρ) (db : Database ρ) (b : Block) : Decidable (db.Unwinds exec b) := by
  unfold Unwinds
  rcases db.forkDb.pushBlock b with _ | ⟨newHead, f⟩
  · exact instDecidableTrue
  · refine @instDecidableOr _ _ inferInstance (@instDecidableOr _ _ inferInstance ?_)
    rcases f.fetchBranchFrom newHead.id db.headBlockId with _ | ⟨first, second⟩
    · exact instDecidableTrue
    · refine @instDecidableOr _ _ inferInstance (@instDecidableAnd _ _ inferInstance ?_)
      rcases tryBranch exec { db with forkDb := f } first second with ⟨mid, _ | _⟩
      · exact instDecidableTrue
      · exact instDecidableOr

/-- A switch that throws leaves the state alone exactly under the condition of
`Unwinds`. -/
theorem switchTo_unwinds {h last : ForkItem} {first second : List ForkItem}
    (hlib : LibSound exec start) (hset : db.Settled)
    (hs : Switching exec start db h first second last) :
    (∀ e db', (db.hold (first ++ second)).switchTo exec last.previousId first second = .error e db' →
      db'.chain.cur = db.chain.cur) ↔
    (db.canPop h = 0 ∨ second.length ≤ db.canPop h ∧
      match db.tryBranch exec first second with
      | (_, none) => True
      | (mid, some _) =>
        mid.lib ≤ db.headBlockNum - second.length ∨
          (oldest mid.chain).headBlockId = db.headBlockId) := by
  have hfork : last.previousId.num = db.headBlockNum - second.length := by
    have := hs.second_spec.2.2.2.1
    omega
  have hpos : 0 < second.length := by
    have := hs.last
    cases second with
    | nil => exact absurd this (by simp)
    | cons y ys => simp
  rcases switchTo_cases hset hs with ⟨hpop, heq⟩ | ⟨hpop, ⟨h', db', -, -, htry, heq⟩ |
    ⟨done, x, rest, mid, e, hr, -, htry, heq⟩⟩
  · -- stuck in the pop loop, with `canPop` blocks undone
    have hnum := (headBlockId_iterate hs.inv.history (canPop_le_depth db h)).2
    rw [heq]
    constructor
    · intro hsame
      left
      have hcur := hsame _ _ rfl
      have hcur' : (UndoStack.undo^[db.canPop h] db.chain).cur = db.chain.cur := hcur
      rw [hcur'] at hnum
      omega
    · rintro (hzero | ⟨hle, -⟩) e db' herr
      · obtain ⟨-, rfl⟩ := EStateM.Result.error.inj herr
        rw [hzero]
        rfl
      · omega
  · rw [heq, htry]
    simp [hpop]
  · have hcond : (match db.tryBranch exec first second with
        | (_, none) => True
        | (mid, some _) => mid.lib ≤ db.headBlockNum - second.length ∨
            (oldest mid.chain).headBlockId = db.headBlockId) ↔
        (mid.lib ≤ last.previousId.num ∨ (oldest mid.chain).headBlockId = db.headBlockId) := by
      rw [htry, hfork]
      rfl
    have hnonzero : ¬ db.canPop h = 0 := by omega
    simp only [hnonzero, false_or, hpop, true_and]
    rw [hcond, heq]
    rcases Nat.lt_or_ge last.previousId.num mid.lib with hlt | hle
    · -- stuck in the second pop loop, at the oldest state of the new history
      rw [restoreBranch_stuck hlib hr hlt e]
      constructor
      · intro hsame
        right
        have hcur : (oldest mid.chain) = db.chain.cur := hsame _ _ rfl
        rw [hcur]
        rfl
      · rintro (hle | hold) e' db' herr
        · omega
        · obtain ⟨-, rfl⟩ := EStateM.Result.error.inj herr
          have hstate : stateAt exec start (oldest mid.chain).headBlockId = some (oldest mid.chain) :=
            (history_iterate (hr.mid_spec hlib).1.history _).cur
          rw [hold, show stateAt exec start db.headBlockId = _ from hs.inv.history.cur] at hstate
          exact (Option.some.inj hstate).symm
    · obtain ⟨h', db', hwf', hpush, hback, hhead⟩ := restoreBranch_back hlib hr hle e
      have hinv' : db'.Inv exec start := by
        obtain ⟨hdinv, -⟩ := hr.dropped_inv hlib
        have hmoves : Moves exec _ ((mid.dropped x rest).popped h' done.length) :=
          popped_moves hdinv.fork hwf' done.length
        exact (hpush.moves hmoves.2).inv (hmoves.inv hdinv)
      rw [hback]
      refine ⟨fun _ => Or.inl hle, fun _ e' db'' herr => ?_⟩
      obtain ⟨-, rfl⟩ := EStateM.Result.error.inj herr
      have hcur := hinv'.history.cur
      rw [headBlockId, headBlockId] at hhead
      rw [hhead, hs.inv.history.cur] at hcur
      exact (Option.some.inj hcur).symm

theorem release_eq_error {α : Type} {r : Result ρ α} {P : ChainState ρ → Prop} :
    (∀ e db', release r = .error e db' → P db'.chain.cur) ↔
      ∀ e db', r = .error e db' → P db'.chain.cur := by
  cases r with
  | ok a s => simp [release]
  | error e s =>
    constructor
    · intro h e' db' herr
      obtain ⟨rfl, rfl⟩ := EStateM.Result.error.inj herr
      exact h e (s.hold []) rfl
    · intro h e' db' herr
      obtain ⟨rfl, rfl⟩ := EStateM.Result.error.inj herr
      exact h e s rfl

/-- In every reachable state and for every block: a `push_block` that throws leaves
the head block id and the chain state as they were, and no call changes a block
at an irreversible height, if and only if `Unwinds` holds of the state and the
block. -/
theorem pushBlock_unwinds_iff (hlib : LibSound exec start) (hreach : Reachable exec start db)
    (b : Block) :
    ((∀ e db', db.pushBlock exec b = .error e db' →
        db'.headBlockId = db.headBlockId ∧ db'.chain.cur = db.chain.cur) ∧
      ∀ n ≤ db.lib,
        (after (db.pushBlock exec b)).headBlockId.atNum n = db.headBlockId.atNum n) ↔
    db.Unwinds exec b := by
  have hinv := reachable_inv hreach
  have hset := reachable_settled hlib hreach
  have hheld := reachable_held hreach
  -- the irreversible heights and the head block id need no condition of their own
  have hsimp : ((∀ e db', db.pushBlock exec b = .error e db' →
        db'.headBlockId = db.headBlockId ∧ db'.chain.cur = db.chain.cur) ∧
      ∀ n ≤ db.lib,
        (after (db.pushBlock exec b)).headBlockId.atNum n = db.headBlockId.atNum n) ↔
      ∀ e db', db.pushBlock exec b = .error e db' → db'.chain.cur = db.chain.cur := by
    constructor
    · exact fun h e db' herr => (h.1 e db' herr).2
    · refine fun h => ⟨fun e db' herr => ⟨?_, h e db' herr⟩, fun n hn => ?_⟩
      · unfold headBlockId
        rw [h e db' herr]
      · have hinv := reachable_inv hreach
        have hcom := (reachable_settled hlib hreach).committed
        have hroot := rooted_self (n := n) hinv.history (by omega)
        exact ((pushBlock_moves hinv.fork b).rooted hinv hroot _ (Or.inl rfl)).2
  rw [hsimp]
  unfold Unwinds
  cases hpush : db.forkDb.pushBlock b with
  | error e => simp [pushBlock, hpush]
  | ok r =>
    obtain ⟨newHead, f⟩ := r
    simp only [pushBlock_linked hpush]
    by_cases hprev : newHead.previousId = db.headBlockId
    · rw [if_neg (not_not.mpr hprev)]
      refine iff_of_true (fun e db' herr => ?_) (Or.inl hprev)
      rcases applyInSession_cases exec { db with forkDb := f } b with ⟨e', he⟩ | ⟨s, blocks, -, hok⟩
      · rw [he] at herr
        obtain ⟨-, rfl⟩ := EStateM.Result.error.inj herr
        rfl
      · rw [hok] at herr
        cases herr
    · rw [if_pos hprev]
      by_cases hnum : newHead.num > db.headBlockNum
      · rw [if_pos hnum]
        have hnle : ¬ newHead.num ≤ db.headBlockNum := by omega
        simp only [hprev, hnle, false_or]
        rcases switchForks_cases hinv hheld hpush hnum with ⟨hbr, heq⟩ |
          ⟨first, second, last, hbr, hs, heq⟩
        · rw [heq, hbr]
          refine iff_of_true (fun e db' herr => ?_) trivial
          obtain ⟨-, rfl⟩ := EStateM.Result.error.inj herr
          rfl
        · rw [heq, hbr, release_eq_error (P := fun s => s = db.chain.cur)]
          have hset' : ({ db with forkDb := f } : Database ρ).Settled :=
            ⟨hset.committed, hset.logged⟩
          exact switchTo_unwinds hlib hset' hs
      · rw [if_neg hnum]
        exact iff_of_true (fun e db' herr => absurd herr (by simp)) (Or.inr (Or.inl (by omega)))

/-- Block 1 and two blocks 2 on it, the first of which is the head. -/
def twoBranches : Database (List Nat) :=
  sampleOpened.feed sampleExec [⟨.zero, 1⟩, ⟨.ofBlock .zero 1, 1⟩, ⟨.ofBlock .zero 1, 2⟩]

/-- Block 3 on the other block 2 is rejected: the switch has popped one block and pushed one by
then, and both are taken back. -/
theorem pushBlock_unwinds_switch :
    (∃ db', twoBranches.pushBlock sampleExec ⟨.ofBlock (.ofBlock .zero 1) 2, 10⟩ =
      .error .rejected db') ∧
    (∀ e db', twoBranches.pushBlock sampleExec ⟨.ofBlock (.ofBlock .zero 1) 2, 10⟩ = .error e db' →
        db'.headBlockId = twoBranches.headBlockId ∧ db'.chain.cur = twoBranches.chain.cur) ∧
      ∀ n ≤ twoBranches.lib,
        (after (twoBranches.pushBlock sampleExec
          ⟨.ofBlock (.ofBlock .zero 1) 2, 10⟩)).headBlockId.atNum n =
          twoBranches.headBlockId.atNum n :=
  ⟨⟨_, eq_error_of_thrown? (by decide +kernel)⟩,
    (pushBlock_unwinds_iff sampleExec_libSound (reachable_feed sampleOpened_reachable) _).mpr
      (by decide +kernel)⟩

/-- Blocks 1 to 4, the last of which makes block 3 irreversible, and blocks 3 and 4
of another branch from block 2. -/
def lateBranch : List Block :=
  let one : Block := ⟨.zero, 1⟩
  let two : Block := ⟨one.id, 1⟩
  let three : Block := ⟨two.id, 1⟩
  let four : Block := ⟨three.id, 31⟩
  let three' : Block := ⟨two.id, 2⟩
  [one, two, three, four, three', ⟨three'.id, 2⟩]

/-- Block 5 on top of the other branch. -/
def lateBlock : Block :=
  ⟨.ofBlock (.ofBlock (.ofBlock (.ofBlock .zero 1) 1) 2) 2, 2⟩

/-- Block 2 is still in the fork database, so the longer branch from it is tried,
but block 3 can no longer be undone: the call throws with block 4 undone. -/
theorem pushBlock_late_moves_head :
    Reachable sampleExec sampleGenesis (sampleOpened.feed sampleExec lateBranch) ∧
    (sampleOpened.feed sampleExec lateBranch).headBlockNum = 4 ∧
    ∃ e db', (sampleOpened.feed sampleExec lateBranch).pushBlock sampleExec lateBlock = .error e db' ∧
      db'.headBlockNum = 3 := by
  refine ⟨reachable_feed sampleOpened_reachable, by decide +kernel, .popLastItem, _,
    eq_error_of_thrown? (by decide +kernel), by decide +kernel⟩

end Database

end DeltaChain.Fork

import DeltaChain.Rewards.Books
import DeltaChain.Vesting.Run

/-!
# Rewards, run by run

The pending shares and the pending DELTA of the global properties are those of all accounts,
and the supply is what `validate_invariants` counts, along every run of the reward path in which
no call of `create_vesting2` is for something that rounds to no shares (`rewards_balanced`).

Such a call breaks both equations: `modify_reward_balance` looks at the shares and credits the
account with DELTA, `create_vesting2` itself adds the DELTA to those pending for shares
(`rewards_unbalanced_rounding`).
-/

namespace DeltaChain.Rewards

open Lib Protocol Ledger Ledger.Database
open Voting Checked

variable {db db' start : Database}

-- # The lines of rewards

/-- Claims on rewards are no balances. -/
theorem entry_reward (x : Asset) :
    Asset.entry x .rewardShares = 0 ∧ Asset.entry x .rewardDelta = 0 := by
  unfold Asset.entry
  cases x.symbol <;> exact ⟨rfl, rfl⟩

theorem sum_zero {K V : Type} (t : Table K V) : (t.sum fun _ _ => (0 : Int)) = 0 := by
  simp [Table.sum]

theorem imbalance_rewardShares (db : Database) :
    db.imbalance .rewardShares = db.props.pendingRewardedVestingShares -
      db.accounts.sum fun _ a => a.rewardVestingBalance := by
  unfold imbalance holdings
  simp only [Pi.sub_apply, Pi.add_apply, sum_apply, GlobalProperties.owes, Account.holds,
    LimitOrder.holds, Escrow.holds, RewardFund.holds, entry_reward, sum_zero, add_zero]

theorem imbalance_rewardDelta (db : Database) :
    db.imbalance .rewardDelta = db.props.pendingRewardedVestingDelta -
      db.accounts.sum fun _ a => a.rewardVestingDelta := by
  unfold imbalance holdings
  simp only [Pi.sub_apply, Pi.add_apply, sum_apply, GlobalProperties.owes, Account.holds,
    LimitOrder.holds, Escrow.holds, RewardFund.holds, entry_reward, sum_zero, add_zero]

-- # Runs

/-- What happens on the reward path. `createVesting` is a payment out of a reward fund. Between
blocks the time moves on and the feed changes. -/
inductive Event where
  | createVesting (fund : Nat) (toAccount : AccountName) (liquid : Int)
  | processCommentCashout
  | claimRewardBalance (op : ClaimRewardBalance)
  | nextBlock (time : Nat) (medianHistory : Price) (dbdInterestRate dbdPrintRate : Nat)

/-- Takes DELTA out of a reward fund. -/
def drawFund (db : Database) (fund : Nat) (amount : Int) : Checked Database := do
  let rf ← get (db.rewardFunds.find? fund) "unknown key"
  db.storeFund (fund, ⟨rf.recentClaims, rf.rewardBalance, amount⟩)

/-- One step of a run, with `vest` for `create_vesting2`. -/
def step (vest : Vest) (db : Database) : Event → Checked Database
  | .createVesting fund toAccount liquid => do
    assert (0 < liquid) "liquid.amount > 0"
    let db ← drawFund db fund liquid
    vest db toAccount ⟨liquid, .delta⟩
  | .processCommentCashout => processCommentCashout vest db
  | .claimRewardBalance op => db.claimRewardBalance op
  | .nextBlock time medianHistory dbdInterestRate dbdPrintRate =>
    return { db.modifyProps fun g =>
        { g with time := time, dbdInterestRate := dbdInterestRate, dbdPrintRate := dbdPrintRate } with
      medianHistory := medianHistory }

theorem step_le (db : Database) (e : Event) :
    Le (step carefulVesting db e) (step rewardVesting db e) := by
  cases e with
  | createVesting fund toAccount liquid =>
    exact (Le.refl _).bind fun _ => (Le.refl _).bind fun _ => carefulVesting_le _ _ _
  | processCommentCashout =>
    exact (Le.refl _).bind fun _ => (cashoutDue_le carefulVesting_le _ _).bind fun _ => Le.refl _
  | claimRewardBalance op => exact Le.refl _
  | nextBlock time medianHistory dbdInterestRate dbdPrintRate => exact Le.refl _

theorem step_imbalance {vest : Vest} {e : Event} (hv : Pays vest)
    (h : step vest db e = .ok db') : db'.imbalance = db.imbalance := by
  cases e with
  | createVesting fund toAccount liquid =>
    simp only [step, drawFund, eq_ok] at h
    obtain ⟨-, db₁, ⟨rf, -, hstore⟩, hvest⟩ := h
    rw [hv _ _ _ _ hvest, storeFund_imbalance hstore, entry_eq_deltas, add_sub_cancel_right]
  | processCommentCashout => exact processCommentCashout_imbalance hv h
  | claimRewardBalance op =>
    have hb := (claimRewardBalance_books h).imbalance
    rwa [add_zero] at hb
  | nextBlock time medianHistory dbdInterestRate dbdPrintRate =>
    cases h
    rfl

/-- **Rewards are balanced.** From every state in which `validate_invariants` passes and the votes
are tallied, along every run of the reward path in which no call of `create_vesting2` is for
something that rounds to no shares: the pending shares and DELTA are those of all accounts, and
the supply is the sum of what accounts, orders and funds hold. -/
theorem rewards_balanced (start : Database) (events : List Event)
    (hstart : start.validateInvariants = .ok ()) (hvotes : Tallied start.polls)
    (h : Run.exec (Run.checked (step rewardVesting)) start events = some db)
    (hcareful : (Run.exec (Run.checked (step carefulVesting)) start events).isSome = true) :
    db.props.pendingRewardedVestingShares = db.accounts.sum (fun _ a => a.rewardVestingBalance) ∧
    db.props.pendingRewardedVestingDelta = db.accounts.sum (fun _ a => a.rewardVestingDelta) ∧
    db.props.currentSupply = db.totalSupply := by
  obtain ⟨db₁, hrun⟩ := Option.isSome_iff_exists.mp hcareful
  obtain rfl : db = db₁ := Option.mem_unique h (Run.exec_le step_le hrun)
  have himb : db.imbalance = start.imbalance :=
    Run.checked_induct (fun d => d.imbalance = start.imbalance)
      (fun _ _ _ hs hstep => (step_imbalance carefulVesting_pays hstep).trans hs) rfl hrun
  simp only [validateInvariants, eq_ok] at hstart
  obtain ⟨-, -, -, -, hsupply, -, hshares, htotal, hpending, -⟩ := hstart
  rw [Vesting.sum_vsfVotes hvotes] at htotal
  have hsplit := Table.sum_add start.accounts (fun _ a => a.vestingShares)
    (fun _ a => a.rewardVestingBalance)
  have hline := congrFun himb .rewardShares
  have hline' := congrFun himb .rewardDelta
  have hline'' := congrFun himb .delta
  rw [imbalance_rewardShares, imbalance_rewardShares] at hline
  rw [imbalance_rewardDelta, imbalance_rewardDelta] at hline'
  rw [imbalance_delta, imbalance_delta] at hline''
  exact ⟨by omega, by omega, by omega⟩

/-- A state with a reward fund and a post that is due. `shares` vesting shares stand for `fund`
DELTA. -/
def onePost (shares fund : Int) : Database :=
  { genesis 1000 with
    medianHistory := ⟨⟨1, .dbd⟩, ⟨1, .delta⟩⟩
    accounts := (genesis 1000).accounts.modify tempAccount fun a => { a with vestingShares := shares }
    props := { (genesis 1000).props with
      currentSupply := 2000 + fund
      virtualSupply := 2000 + fund
      totalVestingFundDelta := fund
      totalVestingShares := shares }
    rewardFunds := Table.empty.emplace 0
      { name := postRewardFundName, rewardBalance := 1000, lastUpdate := genesisTime,
        contentConstant := 0, percentCurationRewards := 2500, authorRewardCurve := .linear }
    comments := Table.empty.emplace 0
      { author := initMinerName, netRshares := 100, totalVoteWeight := 10, cashoutTime := genesisTime,
        rewardWeight := percent100, beneficiaries := [⟨tempAccount, 1000⟩] }
    commentVotes := Table.empty.emplace (0, 2) { voter := tempAccount, weight := 10 } }

theorem onePost_tallied (shares fund : Int) : Tallied (onePost shares fund).polls := by
  have hs := genesis_sound 1000
  have htemp : (genesis 1000).accounts.find? tempAccount = some {} := rfl
  have hpolls : (onePost shares fund).polls = (genesis 1000).polls.addShares tempAccount shares :=
    polls_addShares (f := fun a => { a with vestingShares := shares }) htemp rfl
      (zero_add _).symm rfl
  have hproxy : ((genesis 1000).polls.addShares tempAccount shares).proxy tempAccount = none := rfl
  have hgain := hs.tallied.gain (mem_voters.mpr ⟨_, htemp⟩) shares
  have hballots : ∀ w, (tempAccount, w) ∉
      ((genesis 1000).polls.addShares tempAccount shares).ballots := fun w => Finset.notMem_empty _
  rw [Tallied.credit_of_silent hproxy hballots] at hgain
  rw [hpolls]
  exact hgain

/-- A post is paid, to its author, a curator and a beneficiary, and the author claims a part. -/
theorem rewards_balanced_post : ∃ db, Run.exec (Run.checked (step rewardVesting)) (onePost 5000 10)
      [.processCommentCashout, .claimRewardBalance ⟨initMinerName, 0, 300, 1000⟩] = some db ∧
    db.props.pendingRewardedVestingShares = db.accounts.sum (fun _ a => a.rewardVestingBalance) ∧
    db.props.pendingRewardedVestingDelta = db.accounts.sum (fun _ a => a.rewardVestingDelta) ∧
    db.props.currentSupply = db.totalSupply := by
  have hstart : (onePost 5000 10).validateInvariants = .ok () := by decide +kernel
  refine Run.exists_end (P := fun _ => True) (by decide +kernel) fun _ h _ => ?_
  exact rewards_balanced _ _ hstart (onePost_tallied 5000 10) h (by decide +kernel)

/-- **Rewards that round to no shares count twice.** One share stands for 100000 DELTA, and a
post with 1000 DELTA is paid: 626 of them are pending for shares that no account has, and the
supply is short of them. -/
theorem rewards_unbalanced_rounding : (onePost 1 100000).validateInvariants = .ok () ∧
    Tallied (onePost 1 100000).polls ∧
    ∃ db, Run.exec (Run.checked (step rewardVesting)) (onePost 1 100000)
      [.processCommentCashout] = some db ∧
    db.props.pendingRewardedVestingDelta = 626 ∧
    db.accounts.sum (fun _ a => a.rewardVestingDelta) = 0 ∧
    db.props.currentSupply + 626 = db.totalSupply := by
  exact ⟨by decide +kernel, onePost_tallied 1 100000, by decide +kernel⟩

end DeltaChain.Rewards

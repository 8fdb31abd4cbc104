import DeltaChain.Ledger.Vesting
import DeltaChain.Rewards.Curve

/-!
# Paying comments out

`create_dbd`, `pay_curators`, `cashout_comment_helper` and `process_comment_cashout` under the
hardfork 20 rules.

Shares that are paid as a reward are made by `create_vesting2`. The functions here take the
way it is called as an argument, `vest`; the chain calls it as it is (`rewardVesting`).
-/

namespace DeltaChain.Ledger

open Lib Protocol Checked

/-- A way to pay DELTA to an account as shares. -/
abbrev Vest := Database → AccountName → Asset → Checked Database

/-- What `process_comment_cashout` keeps of a fund while it pays. -/
structure RewardFundContext where
  recentClaims : Nat
  rewardBalance : Int
  deltaAwarded : Int := 0
deriving DecidableEq, Repr

variable (db : Database) (vest : Vest)

namespace Database

/-- `create_vesting2` to the reward balance. -/
def rewardVesting : Vest := fun db name liquid => db.createVesting name liquid true

def getComment (id : Nat) : Checked Comment :=
  get (db.comments.find? id) "unknown key"

def modifyComment (id : Nat) (f : Comment → Comment) : Database :=
  { db with comments := db.comments.modify id f }

/-- The fund of posts, with its id. -/
def getRewardFund : Checked (Nat × RewardFund) :=
  get (db.rewardFunds.entries.find? fun e => e.2.name = postRewardFundName) "unknown key"

-- # DBD

/-- The part of `create_dbd` that pays the two amounts. -/
def payDbd (toAccount : AccountName) (dbd delta : Asset)
    (toRewardBalance : Bool) : Checked Database :=
  if toRewardBalance then do
    let db ← db.adjustRewardBalance toAccount dbd ⟨0, .vests⟩
    db.adjustRewardBalance toAccount delta ⟨0, .vests⟩
  else do
    let db ← db.adjustBalance toAccount dbd
    db.adjustBalance toAccount delta

/-- `create_dbd`, with the DBD and the DELTA it paid. -/
def createDbd (toAccount : AccountName) (delta : Asset)
    (toRewardBalance : Bool) : Checked (Database × Asset × Asset) :=
  if delta.amount = 0 then return (db, ⟨0, .dbd⟩, ⟨0, .delta⟩)
  else if db.medianHistory.isNull then do
    let db ← db.adjustBalance toAccount delta
    return (db, ⟨0, .dbd⟩, delta)
  else do
    let toDbd := (db.props.dbdPrintRate * delta.amount).tdiv percent100
    let toDelta := delta.amount - toDbd
    let dbd ← (⟨toDbd, .delta⟩ : Asset).mul db.medianHistory
    let db ← db.payDbd toAccount dbd ⟨toDelta, .delta⟩ toRewardBalance
    let db ← db.adjustSupply ⟨-toDbd, .delta⟩ false
    let db ← db.adjustSupply dbd false
    return (db, dbd, ⟨toDelta, .delta⟩)

-- # Curators

/-- The votes of a comment, in the order curators are paid: the highest weight first, then the
lowest id of the voter. -/
def curators (id : Nat) : List CommentVote :=
  ((db.commentVotes.entries.filter fun e => e.1.1 = id).insertionSort fun e f =>
    f.2.weight < e.2.weight ∨ e.2.weight = f.2.weight ∧ e.1.2 ≤ f.1.2).map Prod.snd

/-- One round of `pay_curators`, with the rewards that are left. -/
def payCurator (maxRewards : Int) (totalWeight : Nat) (s : Database × Int)
    (vote : CommentVote) : Checked (Database × Int) := do
  let claim := u128 (maxRewards * vote.weight) / totalWeight
  assert (claim < 2 ^ 64) "hi == 0"
  if claim > 0 then do
    -- from here on the claim is read with a sign
    let claim := toInt64 claim
    let _ ← s.1.getAccount vote.voter
    let db ← vest s.1 vote.voter ⟨claim, .delta⟩
    let db := db.modifyAccount vote.voter fun a =>
      { a with curationRewards := a.curationRewards + claim }
    return (db, s.2 - claim)
  else return s

/-- `pay_curators` with both of its results: what it leaves in `max_rewards`, and the unclaimed
rewards it returns. -/
def payCuratorsRemainder (db : Database) (id : Nat) (c : Comment) (maxRewards : Int) :
    Checked (Database × Int × Int) :=
  if c.allowCurationRewards then
    if c.totalVoteWeight > 0 then do
      let (db, unclaimed) ← (db.curators id).foldlM
        (payCurator vest maxRewards c.totalVoteWeight) (db, maxRewards)
      return (db, maxRewards - unclaimed, unclaimed)
    else return (db, maxRewards - maxRewards, maxRewards)
  else return (db, 0, 0)

/-- `pay_curators`, with the rewards that were claimed. -/
def payCurators (db : Database) (id : Nat) (c : Comment) (maxRewards : Int) :
    Checked (Database × Int) := do
  let (db, claimed, _) ← payCuratorsRemainder vest db id c maxRewards
  return (db, claimed)

-- # One comment

/-- What an author or a beneficiary is paid: part in DBD, the rest as shares. -/
def payTokens (db : Database) (name : AccountName) (tokens : Int)
    (percentDeltaDollars : Nat) : Checked (Database × Asset × Asset) := do
  let dbdDelta := (tokens * percentDeltaDollars).tdiv (2 * percent100)
  let _ ← db.getAccount name
  let (db, dbdPayout, deltaPayout) ← db.createDbd name ⟨dbdDelta, .delta⟩ true
  let db ← vest db name ⟨tokens - dbdDelta, .delta⟩
  return (db, dbdPayout, ⟨deltaPayout.amount + (tokens - dbdDelta), deltaPayout.symbol⟩)

/-- One round of the loop over the beneficiaries, with what they have been paid so far. -/
def payBeneficiary (c : Comment) (authorTokens : Int) (s : Database × Int)
    (b : Beneficiary) : Checked (Database × Int) := do
  let tokens := (authorTokens * b.weight).tdiv percent100
  let (db, _) ← payTokens vest s.1 b.account tokens c.percentDeltaDollars
  return (db, s.2 + tokens)

/-- DBD that are added to a payout. -/
def addPayout (total : Int) (x : Asset) : Checked Int := do
  assert (x.symbol = .dbd) "a.symbol == b.symbol"
  return total + x.amount

def adjustTotalPayout (id : Nat) (dbdCreated curatorDbdValue beneficiaryValue : Asset) :
    Checked Database := do
  let c ← db.getComment id
  let total ← addPayout c.totalPayoutValue dbdCreated
  let curator ← addPayout c.curatorPayoutValue curatorDbdValue
  let beneficiary ← addPayout c.beneficiaryPayoutValue beneficiaryValue
  return db.modifyComment id fun c =>
    { c with
      totalPayoutValue := total
      curatorPayoutValue := curator
      beneficiaryPayoutValue := beneficiary }

/-- The part of `cashout_comment_helper` for a comment that has a reward, with the reward that
was claimed. -/
def payReward (db : Database) (id : Nat) (c : Comment) (percentCurationRewards : Nat)
    (reward : Nat) : Checked (Database × Int) := do
  let curationTokens := u128 (reward * percentCurationRewards : Nat) / percent100
  assert (curationTokens < 2 ^ 64) "hi == 0"
  let authorTokens : Int := reward - toInt64 curationTokens
  let (db, curationTokens) ← payCurators vest db id c (toInt64 curationTokens)
  let claimedReward := authorTokens + curationTokens
  let (db, totalBeneficiary) ← c.beneficiaries.foldlM (payBeneficiary vest c authorTokens) (db, 0)
  let authorTokens := authorTokens - totalBeneficiary
  let (db, dbdPayout, deltaPayout) ← payTokens vest db c.author authorTokens c.percentDeltaDollars
  let deltaValue ← toDbd db.medianHistory deltaPayout
  let dbdCreated ← addPayout dbdPayout.amount deltaValue
  let curatorValue ← toDbd db.medianHistory ⟨curationTokens, .delta⟩
  let beneficiaryValue ← toDbd db.medianHistory ⟨totalBeneficiary, .delta⟩
  let db ← db.adjustTotalPayout id ⟨dbdCreated, .dbd⟩ curatorValue beneficiaryValue
  -- the value of all of it, for the virtual operation
  let _ ← toDbd db.medianHistory ⟨claimedReward, .delta⟩
  let db := db.modifyComment id fun c => { c with authorRewards := c.authorRewards + authorTokens }
  let db := db.modifyAccount c.author fun a =>
    { a with postingRewards := a.postingRewards + authorTokens }
  return (db, claimedReward)

/-- The part of `cashout_comment_helper` that pays. -/
def payComment (db : Database) (ctx : CommentRewardContext) (id : Nat) (c : Comment) :
    Checked (Database × Int) :=
  if c.netRshares > 0 then do
    let (_, rf) ← db.getRewardFund
    let reward ← getRshareReward
      { ctx with
        rshares := c.netRshares
        rewardWeight := c.rewardWeight
        maxDbd := ⟨c.maxAcceptedPayout, .dbd⟩
        rewardCurve := rf.authorRewardCurve
        contentConstant := rf.contentConstant }
    if reward > 0 then payReward vest db id c rf.percentCurationRewards reward else return (db, 0)
  else return (db, 0)

/-- A comment that has been paid out. -/
def Comment.cashedOut (c : Comment) (now : Nat) : Comment :=
  { c with
    netRshares := if c.netRshares > 0 then 0 else c.netRshares
    childrenAbsRshares := 0
    absRshares := 0
    voteRshares := 0
    totalVoteWeight := 0
    maxCashoutTime := timePointSecMaximum
    cashoutTime := timePointSecMaximum
    lastPayout := now }

/-- `cashout_comment_helper`, with the reward that was claimed. The votes are removed. -/
def cashoutCommentHelper (db : Database) (ctx : CommentRewardContext) (id : Nat) :
    Checked (Database × Int) := do
  let c ← db.getComment id
  let (db, claimedReward) ← payComment vest db ctx id c
  let db := db.modifyComment id fun c => Comment.cashedOut c db.headBlockTime
  return ({ db with commentVotes := db.commentVotes.filter fun k _ => k.1 ≠ id }, claimedReward)

-- # All comments that are due

def byCashoutTime : List (Nat × Nat) :=
  (db.comments.entries.map fun e => (e.2.cashoutTime, e.1)).insertionSort
    fun e f => e.1 < f.1 ∨ e.1 = f.1 ∧ e.2 ≤ f.2

def dueComments : List Nat :=
  ((db.byCashoutTime.takeWhile fun e => e.1 ≤ db.headBlockTime)).map Prod.snd

/-- A fund at the time `now`: old claims count less. -/
def RewardFund.decay (rf : RewardFund) (now : Nat) : RewardFund :=
  let elapsed : Int := now - rf.lastUpdate
  { rf with
    recentClaims := u128 (rf.recentClaims -
      u128 (rf.recentClaims * elapsed) / recentRsharesDecayTime)
    lastUpdate := now }

/-- The claim of a comment that is about to be paid. -/
def addClaim (funds : Table Nat RewardFundContext) (id : Nat) :
    Checked (Table Nat RewardFundContext) := do
  let c ← db.getComment id
  if c.netRshares > 0 then do
    let (fund, rf) ← db.getRewardFund
    let claim ← evaluateRewardCurve (u128 c.netRshares) rf.authorRewardCurve rf.contentConstant
    return funds.modify fund fun f => { f with recentClaims := u128 (f.recentClaims + claim) }
  else return funds

/-- The loop of `process_comment_cashout`, at most `rounds` times. -/
def cashoutDue (vest : Vest) : Nat → Database → Table Nat RewardFundContext →
    Checked (Database × Table Nat RewardFundContext)
  | 0, db, funds => return (db, funds)
  | rounds + 1, db, funds =>
    match db.dueComments.head? with
    | none => return (db, funds)
    | some id => do
      let (fund, rf) ← db.getRewardFund
      let f ← get (funds.find? fund) "out of range"
      let (db, reward) ← cashoutCommentHelper vest db
        { rshares := 0
          rewardWeight := 0
          maxDbd := ⟨0, .delta⟩
          totalRewardShares2 := f.recentClaims
          totalRewardFundDelta := f.rewardBalance
          currentDeltaPrice := db.medianHistory
          rewardCurve := rf.authorRewardCurve
          contentConstant := rf.contentConstant } id
      let funds := funds.modify fund fun f => { f with deltaAwarded := f.deltaAwarded + reward }
      cashoutDue vest rounds db funds

/-- What is written back to a fund. -/
def storeFund (e : Nat × RewardFundContext) : Checked Database := do
  let _ ← get (db.rewardFunds.find? e.1) "unknown key"
  return { db with rewardFunds := db.rewardFunds.modify e.1 fun rf =>
    { rf with
      recentClaims := e.2.recentClaims
      rewardBalance := rf.rewardBalance - e.2.deltaAwarded } }

/-- `process_comment_cashout`. A comment that has been paid is due no more, so there is at most
one round for every comment. -/
def processCommentCashout (db : Database) : Checked Database := do
  let db := { db with rewardFunds := db.rewardFunds.map fun rf => RewardFund.decay rf db.headBlockTime }
  let funds : Table Nat RewardFundContext :=
    db.rewardFunds.map fun rf => ⟨rf.recentClaims, rf.rewardBalance, 0⟩
  let funds ← db.dueComments.foldlM (addClaim db) funds
  let (db, funds) ← cashoutDue vest db.comments.entries.length db funds
  funds.entries.foldlM storeFund db

end Database

end DeltaChain.Ledger

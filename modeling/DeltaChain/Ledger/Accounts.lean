import DeltaChain.Ledger.Vesting

/-!
# New accounts and the null account

`account_create`, and the end of every block at which whatever the null account holds is
taken out of the supply. The hardfork 20 rules are in force.
-/

namespace DeltaChain.Ledger.Database

open Lib Protocol Checked

/-- `account_create_operation::validate` and its evaluator. The fee is burnt. -/
def accountCreate (db : Database) (creator newAccountName : AccountName) (fee : Int) :
    Checked Database := do
  assert (fee ≥ 0) "Account creation fee cannot be negative"
  let a ← db.getAccount creator
  assert (a.balance ≥ fee) "Insufficient balance to create account."
  assert (fee ≤ maxAccountCreationFee) "Account creation fee cannot be too large"
  assert (fee = db.accountCreationFee) "Must pay the exact account creation fee."
  let db ← db.adjustBalance creator ⟨-fee, .delta⟩
  let db ← db.adjustBalance nullAccount ⟨fee, .delta⟩
  let account : Account := { votingManabar := { lastUpdateTime := db.headBlockTime } }
  let accounts ← get (db.accounts.insert? newAccountName account)
    "could not insert object, most likely a uniqueness constraint was violated"
  return { db with accounts := accounts }

/-- A step that is only made if the amount it is about is positive. -/
def whenPositive (amount : Int) (db : Database) (step : Database → Checked Database) :
    Checked Database := if amount > 0 then step db else return db

/-- The part of an amount that is cleared. -/
def positivePart (amount : Int) : Int := if amount > 0 then amount else 0

/-- The DELTA that shares stand for. -/
def sharesDeltaValue (db : Database) (shares : Int) : Checked Int :=
  if shares > 0 then do
    let sharePrice ← db.props.vestingSharePrice
    let value ← (⟨shares, .vests⟩ : Asset).mul sharePrice
    return value.amount
  else return 0

/-- The DELTA in shares that were not claimed. -/
def rewardVestingValue (a : Account) : Int :=
  if a.rewardVestingBalance > 0 then a.rewardVestingDelta else 0

def clearNullAccountBalance (db : Database) : Checked Database := do
  let a ← db.getAccount nullAccount
  let sharesValue ← db.sharesDeltaValue a.vestingShares
  let totalDelta := positivePart a.balance + positivePart a.savingsBalance + sharesValue +
    positivePart a.rewardDeltaBalance + rewardVestingValue a
  let totalDbd := positivePart a.dbdBalance + positivePart a.savingsDbdBalance +
    positivePart a.rewardDbdBalance
  let totalVests := positivePart a.vestingShares + positivePart a.rewardVestingBalance
  if totalDelta = 0 ∧ totalDbd = 0 ∧ totalVests = 0 then return db
  else do
    let db ← whenPositive a.balance db fun db =>
      db.adjustBalance nullAccount ⟨-a.balance, .delta⟩
    let db ← whenPositive a.savingsBalance db fun db =>
      db.adjustSavingsBalance nullAccount ⟨-a.savingsBalance, .delta⟩
    let db ← whenPositive a.dbdBalance db fun db =>
      db.adjustBalance nullAccount ⟨-a.dbdBalance, .dbd⟩
    let db ← whenPositive a.savingsDbdBalance db fun db =>
      db.adjustSavingsBalance nullAccount ⟨-a.savingsDbdBalance, .dbd⟩
    let db ← whenPositive a.vestingShares db fun db => do
      let db := db.modifyProps fun g =>
        { g with
          totalVestingShares := g.totalVestingShares - a.vestingShares
          totalVestingFundDelta := g.totalVestingFundDelta - sharesValue }
      -- no votes are adjusted: nobody can sign for this account
      return db.modifyAccount nullAccount fun a => { a with vestingShares := 0 }
    let db ← whenPositive a.rewardDeltaBalance db fun db =>
      db.adjustRewardBalance nullAccount ⟨-a.rewardDeltaBalance, .delta⟩ ⟨0, .vests⟩
    let db ← whenPositive a.rewardDbdBalance db fun db =>
      db.adjustRewardBalance nullAccount ⟨-a.rewardDbdBalance, .dbd⟩ ⟨0, .vests⟩
    let db ← whenPositive a.rewardVestingBalance db fun db => do
      let db := db.modifyProps fun g =>
        { g with
          pendingRewardedVestingShares := g.pendingRewardedVestingShares - a.rewardVestingBalance
          pendingRewardedVestingDelta := g.pendingRewardedVestingDelta - a.rewardVestingDelta }
      return db.modifyAccount nullAccount fun a =>
        { a with rewardVestingDelta := 0, rewardVestingBalance := 0 }
    let db ← whenPositive totalDelta db fun db => db.adjustSupply ⟨-totalDelta, .delta⟩ false
    whenPositive totalDbd db fun db => db.adjustSupply ⟨-totalDbd, .dbd⟩ false

/-- The state that `init_genesis` makes. -/
def genesis (supply : Int) : Database where
  props := { currentSupply := supply, virtualSupply := supply }
  medianHistory := default
  currentVirtualTime := 0
  accountCreationFee := minAccountCreationFee
  schedule := { currentShuffledWitnesses := (Vector.replicate maxWitnesses "").set 0 initMinerName }
  hardforks := {}
  accounts := (((Table.empty.emplace minerAccount {}).emplace nullAccount {}).emplace
    tempAccount {}).emplace initMinerName { balance := supply }
  nextWitnessId := 1
  witnesses := Table.empty.emplace initMinerName { signingKey := some 0, schedule := .miner }
  witnessVotes := Table.empty
  declineVotingRightsRequests := Table.empty
  withdrawVestingRoutes := Table.empty
  vestingDelegations := Table.empty
  nextDelegationExpirationId := 0
  vestingDelegationExpirations := Table.empty
  nextLimitOrderId := 0
  limitOrders := Table.empty
  convertRequests := Table.empty
  escrows := Table.empty
  savingsWithdraws := Table.empty
  rewardFunds := Table.empty
  comments := Table.empty
  commentVotes := Table.empty

end DeltaChain.Ledger.Database

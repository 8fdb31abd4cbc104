import DeltaChain.Ledger.Balance
import DeltaChain.Ledger.WitnessVotes

/-!
# Vesting

How accounts gain and lose vesting shares: `create_vesting`, the power-down with its
routes, claimed rewards and the account whose balances are burnt. Each of them passes the
change on to the witnesses' votes. The hardfork 20 rules are in force.
-/

namespace DeltaChain.Ledger.Database

open Lib Protocol Checked

-- # Gains

variable (db : Database)

/-- The part of `create_vesting2` that stores new shares as a reward to be claimed. -/
def addRewardVesting (toAccount : AccountName) (liquid newVesting : Asset) : Checked Database := do
  let db ← db.adjustRewardBalance toAccount liquid newVesting
  return db.modifyProps fun g =>
    { g with
      pendingRewardedVestingShares := g.pendingRewardedVestingShares + newVesting.amount
      pendingRewardedVestingDelta := g.pendingRewardedVestingDelta + liquid.amount }

/-- The part of `create_vesting2` that stores new shares at once. -/
def addVesting (toAccount : AccountName) (liquid newVesting : Asset) : Checked Database := do
  let a ← db.getAccount toAccount
  let a ← a.gainVotingMana newVesting.amount db.headBlockTime
  let db := db.modifyAccount toAccount fun _ => a
  let db ← db.adjustBalance toAccount newVesting
  let db := db.modifyProps fun g =>
    { g with
      totalVestingFundDelta := g.totalVestingFundDelta + liquid.amount
      totalVestingShares := g.totalVestingShares + newVesting.amount }
  db.adjustProxiedWitnessVotes1 toAccount newVesting.amount

/-- Where `create_vesting2` stores the new shares. -/
def storeVesting (toAccount : AccountName) (liquid newVesting : Asset)
    (toRewardBalance : Bool) : Checked Database :=
  if toRewardBalance then db.addRewardVesting toAccount liquid newVesting
  else db.addVesting toAccount liquid newVesting

/-- `create_vesting2`: `liquid` is exchanged for shares at the current price, either at once
or as a reward to be claimed. -/
def createVesting2 (toAccount : AccountName) (liquid : Asset)
    (toRewardBalance : Bool) : Checked (Database × Asset) := do
  assert (liquid.symbol = .delta) "liquid.symbol == DELTA_SYMBOL"
  let sharePrice ← db.props.newSharePrice toRewardBalance
  let newVesting ← liquid.mul sharePrice
  let db ← db.storeVesting toAccount liquid newVesting toRewardBalance
  return (db, newVesting)

def createVesting (toAccount : AccountName) (liquid : Asset)
    (toRewardBalance : Bool) : Checked Database := do
  let (db, _) ← db.createVesting2 toAccount liquid toRewardBalance
  return db

/-- `transfer_to_vesting_operation::validate` and its evaluator. -/
def transferToVesting (fromAccount toAccount : AccountName) (amount : Asset) :
    Checked Database := do
  assert (amount.symbol = .delta) "Amount must be DELTA or SMT liquid"
  assert (amount.amount > 0) "Must transfer a nonzero amount"
  let toAccount := if toAccount = "" then fromAccount else toAccount
  let _ ← db.getAccount toAccount
  let balance ← db.getBalance fromAccount amount.symbol
  assert (balance ≥ amount.amount) "Account does not have sufficient liquid amount for transfer."
  let db ← db.adjustBalance fromAccount (-amount)
  db.createVesting toAccount amount false

/-- `claim_reward_balance_operation`: amounts of the three symbols. -/
structure ClaimRewardBalance where
  account : AccountName
  rewardDelta : Int
  rewardDbd : Int
  rewardVests : Int

/-- The DELTA that moves to the vesting fund with the claimed shares. -/
def rewardVestingDeltaToMove (a : Account) (rewardVests : Int) : Checked Int :=
  if rewardVests = a.rewardVestingBalance then return a.rewardVestingDelta
  else do
    assert (u128 a.rewardVestingBalance ≠ 0) "Division by zero."
    let part := u128 (u128 rewardVests * u128 a.rewardVestingDelta : Nat) / u128 a.rewardVestingBalance
    assert (part < 2 ^ 64) "hi == 0"
    return toInt64 part

/-- `claim_reward_balance_operation::validate` and its evaluator. -/
def claimRewardBalance (op : ClaimRewardBalance) : Checked Database := do
  assert (op.rewardDelta ≥ 0) "Cannot claim a negative amount"
  assert (op.rewardDbd ≥ 0) "Cannot claim a negative amount"
  assert (op.rewardVests ≥ 0) "Cannot claim a negative amount"
  assert (op.rewardDelta > 0 ∨ op.rewardDbd > 0 ∨ op.rewardVests > 0) "Must claim something."
  let a ← db.getAccount op.account
  assert (op.rewardDelta ≤ a.rewardDeltaBalance) "Cannot claim that much DELTA."
  assert (op.rewardDbd ≤ a.rewardDbdBalance) "Cannot claim that much DBD."
  assert (op.rewardVests ≤ a.rewardVestingBalance) "Cannot claim that much VESTS."
  let toMove ← rewardVestingDeltaToMove a op.rewardVests
  let db ← db.adjustRewardBalance op.account ⟨-op.rewardDelta, .delta⟩ ⟨0, .vests⟩
  let db ← db.adjustRewardBalance op.account ⟨-op.rewardDbd, .dbd⟩ ⟨0, .vests⟩
  let db ← db.adjustBalance op.account ⟨op.rewardDelta, .delta⟩
  let db ← db.adjustBalance op.account ⟨op.rewardDbd, .dbd⟩
  let a ← db.getAccount op.account
  let a ← a.gainVotingMana op.rewardVests db.headBlockTime
  let db := db.modifyAccount op.account fun _ =>
    { a with
      vestingShares := a.vestingShares + op.rewardVests
      rewardVestingBalance := a.rewardVestingBalance - op.rewardVests
      rewardVestingDelta := a.rewardVestingDelta - toMove }
  let db := db.modifyProps fun g =>
    { g with
      totalVestingShares := g.totalVestingShares + op.rewardVests
      totalVestingFundDelta := g.totalVestingFundDelta + toMove
      pendingRewardedVestingShares := g.pendingRewardedVestingShares - op.rewardVests
      pendingRewardedVestingDelta := g.pendingRewardedVestingDelta - toMove }
  db.adjustProxiedWitnessVotes1 op.account op.rewardVests

-- # Power-down

/-- `withdraw_vesting_evaluator`, after block 23847548. -/
def withdrawVesting (account : AccountName) (vestingShares : Int) : Checked Database := do
  let a ← db.getAccount account
  assert (¬ vestingShares < 0) "Cannot withdraw negative VESTS."
  assert (a.vestingShares ≥ 0) "Account does not have sufficient DeltaX for withdraw."
  assert (a.vestingShares - a.delegatedVestingShares ≥ vestingShares)
    "Account does not have sufficient DeltaX for withdraw."
  if vestingShares = 0 then do
    assert (a.vestingWithdrawRate ≠ 0) "This operation would not change the vesting withdraw rate."
    return db.modifyAccount account fun a =>
      { a with
        vestingWithdrawRate := 0
        nextVestingWithdrawal := timePointSecMaximum
        toWithdraw := 0
        withdrawn := 0 }
  else do
    let rate := vestingShares.tdiv vestingWithdrawIntervals
    let rate := if rate = 0 then 1 else rate
    assert (a.vestingWithdrawRate ≠ rate) "This operation would not change the vesting withdraw rate."
    return db.modifyAccount account fun a =>
      { a with
        vestingWithdrawRate := rate
        nextVestingWithdrawal := db.headBlockTime + vestingWithdrawIntervalSeconds
        toWithdraw := vestingShares
        withdrawn := 0 }

/-- The routes of an account, in the order of the accounts they lead to. -/
def routesFrom (account : AccountName) : List (AccountName × WithdrawVestingRoute) :=
  ((db.withdrawVestingRoutes.entries.filter fun e => e.1.1 = account).map fun e =>
    (e.1.2, e.2)).insertionSort fun e f => e.1 ≤ f.1

/-- The part of `set_withdraw_vesting_route_evaluator` that makes, drops or changes a route. -/
def storeRoute (fromAccount toAccount : AccountName) (withdrawRoutes : Nat)
    (route : WithdrawVestingRoute) : Checked Database :=
  if db.withdrawVestingRoutes.find? (fromAccount, toAccount) = none then do
    assert (route.percent ≠ 0) "Cannot create a 0% destination."
    assert (withdrawRoutes < maxWithdrawRoutes) "Account already has the maximum number of routes."
    let routes := db.withdrawVestingRoutes.emplace (fromAccount, toAccount) route
    return { db with withdrawVestingRoutes := routes }.modifyAccount fromAccount fun a =>
      { a with withdrawRoutes := a.withdrawRoutes + 1 }
  else if route.percent = 0 then
    let routes := db.withdrawVestingRoutes.erase (fromAccount, toAccount)
    return { db with withdrawVestingRoutes := routes }.modifyAccount fromAccount fun a =>
      { a with withdrawRoutes := a.withdrawRoutes - 1 }
  else
    let routes := db.withdrawVestingRoutes.modify (fromAccount, toAccount) fun _ => route
    return { db with withdrawVestingRoutes := routes }

/-- `set_withdraw_vesting_route_operation::validate` and its evaluator. -/
def setWithdrawVestingRoute (fromAccount toAccount : AccountName)
    (percent : Nat) (autoVest : Bool) : Checked Database := do
  let route ← WithdrawVestingRoute.make percent autoVest
  let a ← db.getAccount fromAccount
  let _ ← db.getAccount toAccount
  let db ← db.storeRoute fromAccount toAccount a.withdrawRoutes route
  let totalPercent := ((db.routesFrom fromAccount).map fun e => e.2.percent).sum % 2 ^ 16
  assert (totalPercent ≤ percent100)
    "More than 100% of vesting withdrawals allocated to destinations."
  return db

/-- The shares a power-down pays this week. -/
def toWithdrawNow (a : Account) : Checked Int :=
  if a.toWithdraw - a.withdrawn < a.vestingWithdrawRate then do
    assert (a.vestingWithdrawRate ≠ 0) "divide by zero"
    return min a.vestingShares (a.toWithdraw.tmod a.vestingWithdrawRate)
  else return min a.vestingShares a.vestingWithdrawRate

/-- The part of a payment that goes over a route. It is no more than the payment, so that it
is the same number in 64 bits with and without a sign. -/
def routed (toWithdraw : Int) (route : WithdrawVestingRoute) : Checked Int := do
  let part := u128 (u128 toWithdraw * route.percent : Nat) / percent100
  assert (part < 2 ^ 64) "hi == 0"
  return part

/-- The first pass over the routes: shares that stay shares. The sum of the deposits is
carried along. -/
def depositVests (toWithdraw : Int) (s : Database × Int) (e : AccountName × WithdrawVestingRoute) :
    Checked (Database × Int) :=
  if e.2.autoVest then do
    let toDeposit ← routed toWithdraw e.2
    if toDeposit > 0 then do
      let _ ← s.1.getAccount e.1
      let db := s.1.modifyAccount e.1 fun a => { a with vestingShares := a.vestingShares + toDeposit }
      let db ← db.adjustProxiedWitnessVotes1 e.1 toDeposit
      return (db, s.2 + toDeposit)
    else return (s.1, s.2 + toDeposit)
  else return s

/-- The second pass over the routes: shares that are paid out as DELTA. -/
def depositDelta (toWithdraw : Int) (s : Database × Int) (e : AccountName × WithdrawVestingRoute) :
    Checked (Database × Int) :=
  if e.2.autoVest then return s
  else do
    let _ ← s.1.getAccount e.1
    let toDeposit ← routed toWithdraw e.2
    let sharePrice ← s.1.props.vestingSharePrice
    let converted ← (⟨toDeposit, .vests⟩ : Asset).mul sharePrice
    if toDeposit > 0 then do
      let db := s.1.modifyAccount e.1 fun a => { a with balance := a.balance + converted.amount }
      let db := db.modifyProps fun g =>
        { g with
          totalVestingFundDelta := g.totalVestingFundDelta - converted.amount
          totalVestingShares := g.totalVestingShares - toDeposit }
      return (db, s.2 + toDeposit)
    else return (s.1, s.2 + toDeposit)

/-- What a payment leaves of the account it is made from. The last one ends the power-down. -/
def paidOut (a : Account) (toWithdraw converted : Int) : Account :=
  let shares := a.vestingShares - toWithdraw
  let withdrawn := a.withdrawn + toWithdraw
  let done := withdrawn ≥ a.toWithdraw ∨ shares = 0
  { a with
    vestingShares := shares
    balance := a.balance + converted
    withdrawn := withdrawn
    vestingWithdrawRate := if done then 0 else a.vestingWithdrawRate
    nextVestingWithdrawal := if done then timePointSecMaximum
      else a.nextVestingWithdrawal + vestingWithdrawIntervalSeconds }

/-- One round of `process_vesting_withdrawals`: this week's payment of one account. -/
def payVestingWithdrawal (fromAccount : AccountName) : Checked Database := do
  let a ← db.getAccount fromAccount
  let toWithdraw ← toWithdrawNow a
  let routes := db.routesFrom fromAccount
  let (db, depositedAsVests) ← routes.foldlM (depositVests toWithdraw) (db, 0)
  let (db, depositedAsDelta) ← routes.foldlM (depositDelta toWithdraw) (db, 0)
  let toConvert := toWithdraw - depositedAsDelta - depositedAsVests
  assert (toConvert ≥ 0) "Deposited more vests than were supposed to be withdrawn"
  let sharePrice ← db.props.vestingSharePrice
  let converted ← (⟨toConvert, .vests⟩ : Asset).mul sharePrice
  let db := db.modifyAccount fromAccount fun a => paidOut a toWithdraw converted.amount
  let db := db.modifyProps fun g =>
    { g with
      totalVestingFundDelta := g.totalVestingFundDelta - converted.amount
      totalVestingShares := g.totalVestingShares - toConvert }
  if toWithdraw > 0 then db.adjustProxiedWitnessVotes1 fromAccount (-toWithdraw)
  else return db

/-- The order of `by_next_vesting_withdrawal`. -/
def dueBefore (e f : Nat × AccountName) : Prop := e.1 < f.1 ∨ e.1 = f.1 ∧ e.2 < f.2

instance (e f : Nat × AccountName) : Decidable (dueBefore e f) :=
  inferInstanceAs (Decidable (_ ∨ _ ∧ _))

def byNextVestingWithdrawal : List (Nat × AccountName) :=
  (db.accounts.entries.map fun e => (e.2.nextVestingWithdrawal, e.1)).insertionSort
    fun e f => ¬ dueBefore f e

/-- The loop of `process_vesting_withdrawals`, at most `rounds` times, with its iterator. -/
def payVestingWithdrawals : Nat → Database → Option (Nat × AccountName) → Checked Database
  | 0, db, _ => return db
  | _ + 1, db, none => return db
  | rounds + 1, db, some current =>
    if current.1 ≤ db.headBlockTime then do
      -- the iterator moves on before the account is paid and takes its new place
      let next := db.byNextVestingWithdrawal.find? fun e => dueBefore current e
      let db ← db.payVestingWithdrawal current.2
      payVestingWithdrawals rounds db next
    else return db

/-- `process_vesting_withdrawals`. A round moves the account on by a week or to the end of
time, so there is at most one round for every week an account is late. -/
def processVestingWithdrawals : Checked Database :=
  let late := db.accounts.entries.map fun e =>
    (db.headBlockTime + vestingWithdrawIntervalSeconds - e.2.nextVestingWithdrawal) /
      vestingWithdrawIntervalSeconds
  payVestingWithdrawals late.sum db db.byNextVestingWithdrawal.head?

end DeltaChain.Ledger.Database

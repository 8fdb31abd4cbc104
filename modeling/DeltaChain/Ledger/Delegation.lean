import DeltaChain.Ledger.Vesting

/-!
# Delegations

`delegate_vesting_shares`: an account lends shares to another one, which votes with them. The
delegator keeps them, but can neither power them down nor lend them twice. Shares that are
taken back return to the delegator after some days (`clear_expired_delegations`). The hardfork
20 rules are in force.
-/

namespace DeltaChain.Ledger

open Lib Protocol Checked

namespace Account

/-- What an account with regenerated mana may lend. -/
def availableShares (a : Account) (maxMana : Int) : Int :=
  -- received shares are used first, and cannot be lent
  let available := min a.votingManabar.currentMana (maxMana - a.receivedVestingShares)
  if a.nextVestingWithdrawal < timePointSecMaximum ∧
      a.toWithdraw - a.withdrawn > a.vestingWithdrawRate then
    -- the mana leaves out this week's part of a power-down, all of it cannot be lent
    let weeklyWithdraw := min a.vestingWithdrawRate (a.toWithdraw - a.withdrawn)
    available + (weeklyWithdraw - (a.toWithdraw - a.withdrawn))
  else available

/-- What a decreased delegation does to the delegatee. -/
def loseReceived (a : Account) (shares : Int) : Account :=
  let bar := a.votingManabar.useMana shares
  { a with
    receivedVestingShares := a.receivedVestingShares - shares
    votingManabar := { bar with currentMana := if bar.currentMana < 0 then 0 else bar.currentMana } }

end Account

variable (db : Database)

namespace Database

-- # Lending

/-- The shares that a part of the account creation fee buys. -/
def feeShares (part : Int) : Checked Int := do
  let sharePrice ← db.props.vestingSharePrice
  let shares ← (⟨db.accountCreationFee.tdiv part, .delta⟩ : Asset).mul sharePrice
  return shares.amount

/-- What a new and an increased delegation do to the two accounts. -/
def lendShares (delegator delegatee : AccountName) (shares : Int) : Checked Database := do
  let db := db.modifyAccount delegator fun a =>
    { a with
      delegatedVestingShares := a.delegatedVestingShares + shares
      votingManabar := a.votingManabar.useMana shares }
  let a ← db.getAccount delegatee
  let a ← a.gainVotingMana shares db.headBlockTime
  return db.modifyAccount delegatee fun _ =>
    { a with receivedVestingShares := a.receivedVestingShares + shares }

/-- The branch of `delegate_vesting_shares_evaluator` that makes a delegation. -/
def createDelegation (delegator delegatee : AccountName)
    (shares available minDelegation : Int) : Checked Database := do
  assert (available ≥ shares) "Account does not have enough mana to delegate."
  assert (shares ≥ minDelegation) "Account must delegate a minimum"
  let delegations := db.vestingDelegations.emplace (delegator, delegatee) ⟨shares, db.headBlockTime⟩
  { db with vestingDelegations := delegations }.lendShares delegator delegatee shares

/-- The branch that increases a delegation. -/
def increaseDelegation (delegator delegatee : AccountName)
    (d : VestingDelegation) (shares available minUpdate : Int) : Checked Database := do
  let delta := shares - d.vestingShares
  assert (delta ≥ minUpdate) "DeltaX increase is not enough of a difference."
  assert (available ≥ delta) "Account does not have enough mana to delegate."
  let db ← db.lendShares delegator delegatee delta
  let delegations := db.vestingDelegations.modify (delegator, delegatee) fun d =>
    { d with vestingShares := shares }
  return { db with vestingDelegations := delegations }

/-- What the branch that decreases a delegation asserts. -/
def checkDecrease (d : VestingDelegation) (shares minDelegation minUpdate : Int) : Checked Unit :=
  if shares > 0 then do
    assert (d.vestingShares - shares ≥ minUpdate) "DeltaX decrease is not enough of a difference."
    assert (shares ≥ minDelegation) "Delegation must be removed or leave minimum delegation amount"
  else assert (d.vestingShares > 0)
    "Delegation would set vesting_shares to zero, but it is already zero"

/-- The branch that decreases or ends a delegation. The delegatee loses the shares at once, the
delegator gets them back when they expire. -/
def decreaseDelegation (delegator delegatee : AccountName)
    (d : VestingDelegation) (shares minDelegation minUpdate : Int) : Checked Database := do
  let delta := d.vestingShares - shares
  checkDecrease d shares minDelegation minUpdate
  let expiration : VestingDelegationExpiration :=
    { delegator := delegator
      vestingShares := delta
      expiration := max (db.headBlockTime + db.props.delegationReturnPeriod) d.minDelegationTime }
  let expirations := db.vestingDelegationExpirations.emplace db.nextDelegationExpirationId expiration
  let db := db.modifyAccount delegatee fun a => a.loseReceived delta
  let delegations :=
    if shares > 0 then
      db.vestingDelegations.modify (delegator, delegatee) fun d => { d with vestingShares := shares }
    else db.vestingDelegations.erase (delegator, delegatee)
  return { db with
    vestingDelegations := delegations
    vestingDelegationExpirations := expirations
    nextDelegationExpirationId := db.nextDelegationExpirationId + 1 }

/-- Which branch of `delegate_vesting_shares_evaluator` is taken. -/
def storeDelegation (delegator delegatee : AccountName)
    (shares available minDelegation minUpdate : Int) : Checked Database :=
  match db.vestingDelegations.find? (delegator, delegatee) with
  | none => db.createDelegation delegator delegatee shares available minDelegation
  | some d =>
    if shares ≥ d.vestingShares then
      db.increaseDelegation delegator delegatee d shares available minUpdate
    else db.decreaseDelegation delegator delegatee d shares minDelegation minUpdate

/-- `delegate_vesting_shares_operation::validate` and its evaluator. -/
def delegateVestingShares (delegator delegatee : AccountName)
    (vestingShares : Int) : Checked Database := do
  assert (delegator ≠ delegatee) "You cannot delegate VESTS to yourself"
  assert (vestingShares ≥ 0) "Delegation cannot be negative"
  let a ← db.getAccount delegator
  let _ ← db.getAccount delegatee
  let maxMana := a.effectiveVestingShares
  let a ← a.regenerateVotingMana db.headBlockTime
  let db := db.modifyAccount delegator fun _ => a
  let minDelegation ← db.feeShares 3
  let minUpdate ← db.feeShares 30
  db.storeDelegation delegator delegatee vestingShares (a.availableShares maxMana) minDelegation
    minUpdate

def accountCreateWithDelegation (_ : Database) : Checked Database :=
  .error "Account creation with delegation is deprecated as of Hardfork 20"

-- # Shares that return

/-- One round of `clear_expired_delegations`. -/
def returnDelegation (e : Nat × VestingDelegationExpiration) : Checked Database := do
  let a ← db.getAccount e.2.delegator
  let a ← a.gainVotingMana e.2.vestingShares db.headBlockTime
  let db := db.modifyAccount e.2.delegator fun _ =>
    { a with delegatedVestingShares := a.delegatedVestingShares - e.2.vestingShares }
  return { db with vestingDelegationExpirations := db.vestingDelegationExpirations.erase e.1 }

/-- `clear_expired_delegations`. Every round takes the first entry of `by_expiration` and
removes it, so each entry that has expired gets its round. -/
def clearExpiredDelegations : Checked Database :=
  let expired := db.vestingDelegationExpirations.entries.filter fun e =>
    decide (e.2.expiration < db.headBlockTime)
  (expired.insertionSort fun e f =>
    e.2.expiration < f.2.expiration ∨ e.2.expiration = f.2.expiration ∧ e.1 ≤ f.1).foldlM
    returnDelegation db

end Database

end DeltaChain.Ledger

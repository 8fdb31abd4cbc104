import DeltaChain.Ledger.Objects

/-!
# Balances and supplies

`modify_balance`, `adjust_savings_balance`, `modify_reward_balance` and `adjust_supply`
under the hardfork 20 rules, where no balance and no supply may become negative.

DBD in a balance or in savings earn interest. Every change of such a balance first brings
the time they were held up to date and, once a month, pays the interest into the balance
and the supply. Both balances work the same way (`Deposit.accrue`).
-/

namespace DeltaChain.Ledger

open Lib Protocol Checked

/-- A DBD balance with the fields its interest is computed from. -/
structure Deposit where
  balance : Int
  seconds : Nat
  secondsLastUpdate : Nat
  lastInterestPayment : Nat

/-- The interest for holding `seconds` DBD seconds. -/
def interestFor (seconds rate : Nat) : Nat :=
  u128 (seconds / secondsPerYear * rate : Nat) / percent100

/-- The holding time up to `now`, and the interest that is due, if it is paid now. -/
def Deposit.accrue (d : Deposit) (now rate : Nat) : Checked (Deposit × Option Int) :=
  if d.secondsLastUpdate ≠ now then do
    let held : Int := now - d.secondsLastUpdate
    let seconds := u128 (d.seconds + u128 (d.balance * held))
    let d := { d with seconds := seconds, secondsLastUpdate := now }
    if d.seconds > 0 ∧ (now : Int) - d.lastInterestPayment > dbdInterestCompoundIntervalSec then do
      let interest := interestFor d.seconds rate
      assert (interest < 2 ^ 64) "hi == 0"
      let paid := toInt64 interest
      return ({ d with balance := d.balance + paid, seconds := 0, lastInterestPayment := now },
        some paid)
    else return (d, none)
  else return (d, none)

variable (a : Account)

namespace Account

/-- The liquid DBD. -/
def dbdDeposit : Deposit :=
  ⟨a.dbdBalance, a.dbdSeconds, a.dbdSecondsLastUpdate, a.dbdLastInterestPayment⟩

def withDbdDeposit (d : Deposit) : Account :=
  { a with
    dbdBalance := d.balance
    dbdSeconds := d.seconds
    dbdSecondsLastUpdate := d.secondsLastUpdate
    dbdLastInterestPayment := d.lastInterestPayment }

/-- The DBD in savings. -/
def savingsDbdDeposit : Deposit :=
  ⟨a.savingsDbdBalance, a.savingsDbdSeconds, a.savingsDbdSecondsLastUpdate,
    a.savingsDbdLastInterestPayment⟩

def withSavingsDbdDeposit (d : Deposit) : Account :=
  { a with
    savingsDbdBalance := d.balance
    savingsDbdSeconds := d.seconds
    savingsDbdSecondsLastUpdate := d.secondsLastUpdate
    savingsDbdLastInterestPayment := d.lastInterestPayment }

end Account

variable (db : Database)

namespace Database

/-- Interest that is paid becomes part of the supplies. -/
def payInterest : Option Int → Checked Database
  | none => return db
  | some paid => do
    let value ← (⟨paid, .dbd⟩ : Asset).mul db.medianHistory
    return db.modifyProps fun g =>
      { g with
        currentDbdSupply := g.currentDbdSupply + paid
        virtualSupply := g.virtualSupply + value.amount }

/-- `modify_balance` and `adjust_balance`. -/
def adjustBalance (name : AccountName) (delta : Asset) : Checked Database := do
  let a ← db.getAccount name
  match delta.symbol with
  | .delta =>
    assert (0 ≤ a.balance + delta.amount) "Insufficient DELTA funds"
    return db.modifyAccount name fun a => { a with balance := a.balance + delta.amount }
  | .dbd =>
    let (d, paid) ← a.dbdDeposit.accrue db.headBlockTime db.props.dbdInterestRate
    let db ← db.payInterest paid
    assert (0 ≤ d.balance + delta.amount) "Insufficient DBD funds"
    return db.modifyAccount name fun a =>
      a.withDbdDeposit { d with balance := d.balance + delta.amount }
  | .vests =>
    assert (0 ≤ a.vestingShares + delta.amount) "Insufficient VESTS funds"
    return db.modifyAccount name fun a => { a with vestingShares := a.vestingShares + delta.amount }

def adjustSavingsBalance (name : AccountName) (delta : Asset) : Checked Database := do
  let a ← db.getAccount name
  match delta.symbol with
  | .delta =>
    assert (0 ≤ a.savingsBalance + delta.amount) "Insufficient savings DELTA funds"
    return db.modifyAccount name fun a => { a with savingsBalance := a.savingsBalance + delta.amount }
  | .dbd =>
    let (d, paid) ← a.savingsDbdDeposit.accrue db.headBlockTime db.props.dbdInterestRate
    let db ← db.payInterest paid
    assert (0 ≤ d.balance + delta.amount) "Insufficient savings DBD funds"
    return db.modifyAccount name fun a =>
      a.withSavingsDbdDeposit { d with balance := d.balance + delta.amount }
  | .vests => .error "invalid symbol"

/-- `adjust_reward_balance` and `modify_reward_balance`. Which of the two DELTA balances a
reward goes to is decided by the shares that come with it. -/
def adjustRewardBalance (name : AccountName) (valueDelta shareDelta : Asset) :
    Checked Database := do
  assert (valueDelta.symbol ≠ .vests ∧ shareDelta.symbol = .vests)
    "value_delta.symbol.is_vesting() == false && share_delta.symbol.is_vesting()"
  let a ← db.getAccount name
  match valueDelta.symbol with
  | .delta =>
    if shareDelta.amount = 0 then do
      assert (0 ≤ a.rewardDeltaBalance + valueDelta.amount) "Insufficient reward DELTA funds"
      return db.modifyAccount name fun a =>
        { a with rewardDeltaBalance := a.rewardDeltaBalance + valueDelta.amount }
    else do
      assert (0 ≤ a.rewardVestingBalance + shareDelta.amount) "Insufficient reward VESTS funds"
      return db.modifyAccount name fun a =>
        { a with
          rewardVestingDelta := a.rewardVestingDelta + valueDelta.amount
          rewardVestingBalance := a.rewardVestingBalance + shareDelta.amount }
  | .dbd =>
    assert (shareDelta.amount = 0) "share_delta.amount.value == 0"
    assert (0 ≤ a.rewardDbdBalance + valueDelta.amount) "Insufficient reward DBD funds"
    return db.modifyAccount name fun a =>
      { a with rewardDbdBalance := a.rewardDbdBalance + valueDelta.amount }
  | .vests => .error "invalid symbol"

/-- `adjust_supply`. With `adjustVesting`, and not in the first week, nine times as much
new DELTA goes to the vesting fund. -/
def adjustSupply (delta : Asset) (adjustVesting : Bool) : Checked Database := do
  let g := db.props
  match delta.symbol with
  | .delta =>
    let newVesting := if adjustVesting ∧ g.headBlockNumber ≥ blocksPerDay * 7 ∧ delta.amount > 0
      then delta.amount * 9 else 0
    assert (0 ≤ g.currentSupply + (delta.amount + newVesting)) "props.current_supply.amount.value >= 0"
    return db.modifyProps fun g =>
      { g with
        currentSupply := g.currentSupply + (delta.amount + newVesting)
        virtualSupply := g.virtualSupply + (delta.amount + newVesting)
        totalVestingFundDelta := g.totalVestingFundDelta + newVesting }
  | .dbd =>
    let value ← (⟨g.currentDbdSupply + delta.amount, .dbd⟩ : Asset).mul db.medianHistory
    assert (0 ≤ g.currentDbdSupply + delta.amount) "props.current_dbd_supply.amount.value >= 0"
    return db.modifyProps fun g =>
      { g with
        currentDbdSupply := g.currentDbdSupply + delta.amount
        virtualSupply := value.amount + g.currentSupply }
  | .vests => .error "invalid symbol"

def getBalance (name : AccountName) (symbol : Symbol) : Checked Int := do
  let a ← db.getAccount name
  match symbol with
  | .delta => return a.balance
  | .dbd => return a.dbdBalance
  | .vests => .error "invalid symbol"

end Database

end DeltaChain.Ledger

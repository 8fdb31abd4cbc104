import DeltaChain.Ledger.Objects

/-!
# Resource credits

The RC plugin gives every account a manabar that its transactions are paid from. Its maximum is made
up of the vesting shares an account can use and of an adjustment for the fee it was created with
(`getMaximumRc`). The mana grows back over five days; unlike voting mana, it grows for all the time
since the last update, however long that is. A block may take an account below zero, down to a small
part of the maximum.
-/

namespace DeltaChain.Ledger

open Lib Checked

/-- The signed 64 bit number that is left of a result. -/
def wrap64 (x : Int) : Int := x.bmod (2 ^ 64)

namespace Manabar

def hasMana (m : Manabar) (manaNeeded : Int) : Bool :=
  decide (manaNeeded ≤ 0 ∨ m.currentMana ≥ manaNeeded)

end Manabar

end DeltaChain.Ledger

namespace DeltaChain.Rc

open Lib Protocol Ledger Checked

/-- `DELTA_RC_REGEN_TIME`. -/
def regenTime : Nat := 60 * 60 * 24 * 5

/-- `DELTA_RC_MAX_NEGATIVE_PERCENT`. -/
def maxNegativePercent : Int := 166

/-- Before this time an account could not go below zero. -/
def cutoffTime : Nat := 1538211600

/-- `rc_plugin_skip_flags`. -/
structure SkipFlags where
  skipRejectNotEnoughRc : Bool := false
  skipDeductRc : Bool := false
  skipNegativeRcBalance : Bool := false
  skipRejectUnknownDeltaVests : Bool := false

structure RcAccount where
  rcManabar : Manabar := {}
  maxRcCreationAdjustment : Int := 0
  lastMaxRc : Int := 0
deriving DecidableEq, Repr

def nextVestingWithdrawal (a : Account) : Int :=
  if a.nextVestingWithdrawal = timePointSecMaximum then 0
  else min a.vestingWithdrawRate (a.toWithdraw - a.withdrawn)

def getMaximumRc (a : Account) (rc : RcAccount) : Int :=
  let result := signedSatSub a.vestingShares a.delegatedVestingShares
  let result := signedSatAdd result a.receivedVestingShares
  let result := signedSatAdd result rc.maxRcCreationAdjustment
  signedSatSub result (nextVestingWithdrawal a)

/-- The ledger with the objects of the plugin. -/
structure State where
  db : Database
  rcAccounts : Table AccountName RcAccount
  isProducing : Bool

namespace State

def hasHardfork (s : State) (n : Nat) : Prop := n < s.db.hardforks.processedHardforks.length

instance (s : State) (n : Nat) : Decidable (s.hasHardfork n) := Nat.decLt _ _

/-- How far below zero a transaction may take an account, in 64 bit arithmetic. -/
def minMana (maxMana : Int) : Int :=
  (wrap64 (-1 * wrap64 (maxNegativePercent * maxMana))).tdiv percent100

/-- What `use_account_rcs` makes of the object. -/
def deduct (s : State) (skip : SkipFlags) (maxRc : Int) (rca : RcAccount) (rc : Int) :
    Checked RcAccount := do
  let bar ← rca.rcManabar.regenerateMana ⟨maxRc, regenTime⟩ s.db.headBlockTime true
  let rca := { rca with rcManabar := bar }
  assert (¬ (skip.skipRejectNotEnoughRc = false ∧ s.hasHardfork hardfork020 ∧
    s.isProducing = true) ∨ bar.hasMana rc = true)
    "Account: $\x7baccount\x7d has $\x7brc_current\x7d RC, needs $\x7brc_needed\x7d RC. Please wait to transact, or power up DELTA."
  if bar.hasMana rc = false ∧
      (skip.skipNegativeRcBalance = true ∨ s.db.headBlockTime ≤ cutoffTime) then return rca
  else if skip.skipDeductRc then return rca
  else return { rca with rcManabar := bar.useMana rc (minMana maxRc) }

def useAccountRcs (s : State) (skip : SkipFlags) (name : AccountName) (rc : Int) : Checked State :=
  if name = "" then do
    assert (s.isProducing = false) "Tried to execute transaction with no resource user"
    return s
  else do
    let account ← s.db.getAccount name
    let rca ← get (s.rcAccounts.find? name) "unknown key"
    let rca ← s.deduct skip (getMaximumRc account rca) rca rc
    return { s with rcAccounts := s.rcAccounts.modify name fun _ => rca }

end State

end DeltaChain.Rc

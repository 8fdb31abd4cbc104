import DeltaChain.Ledger.Dynamics
import DeltaChain.Ledger.Manabar
import DeltaChain.Lib.Table
import DeltaChain.Protocol.Asset

/-!
# The objects of the state

The tables that the modelled operations work on, with the fields they use, and the access
functions of `database`. An amount whose symbol is fixed by its field is an integer; an
`Asset` is used where the code decides by the symbol. Times are seconds.
-/

namespace DeltaChain.Ledger

open Lib Protocol Checked

structure Account where
  proxy : AccountName := proxyToSelfAccount
  canVote : Bool := true
  votingManabar : Manabar := {}
  balance : Int := 0
  savingsBalance : Int := 0
  dbdBalance : Int := 0
  dbdSeconds : Nat := 0
  dbdSecondsLastUpdate : Nat := 0
  dbdLastInterestPayment : Nat := 0
  savingsDbdBalance : Int := 0
  savingsDbdSeconds : Nat := 0
  savingsDbdSecondsLastUpdate : Nat := 0
  savingsDbdLastInterestPayment : Nat := 0
  rewardDbdBalance : Int := 0
  rewardDeltaBalance : Int := 0
  rewardVestingBalance : Int := 0
  rewardVestingDelta : Int := 0
  curationRewards : Int := 0
  postingRewards : Int := 0
  vestingShares : Int := 0
  delegatedVestingShares : Int := 0
  receivedVestingShares : Int := 0
  vestingWithdrawRate : Int := 0
  nextVestingWithdrawal : Nat := timePointSecMaximum
  withdrawn : Int := 0
  toWithdraw : Int := 0
  withdrawRoutes : Nat := 0
  proxiedVsfVotes : Fin maxProxyRecursionDepth → Int := fun _ => 0
  witnessesVotedFor : Nat := 0

namespace Account

def witnessVoteWeight (a : Account) : Int := a.vestingShares + ∑ i, a.proxiedVsfVotes i

def effectiveVestingShares (a : Account) : Int :=
  let effective := a.vestingShares + a.receivedVestingShares - a.delegatedVestingShares
  -- a power-down takes this week's part away in advance
  if a.nextVestingWithdrawal ≠ timePointSecMaximum then
    effective - min a.vestingWithdrawRate (a.toWithdraw - a.withdrawn)
  else effective

/-- The mana an account has at `now`. -/
def regenerateVotingMana (a : Account) (now : Nat) : Checked Account := do
  let params := ⟨a.effectiveVestingShares, votingManaRegenerationSeconds⟩
  let bar ← a.votingManabar.regenerateMana params now
  return { a with votingManabar := bar }

/-- What the operations that add `shares` to an account do to its manabar first. -/
def gainVotingMana (a : Account) (shares : Int) (now : Nat) : Checked Account := do
  let a ← a.regenerateVotingMana now
  return { a with votingManabar := a.votingManabar.useMana (-shares) }

variable {a a' : Account} {shares : Int} {now : Nat}

theorem regenerateVotingMana_eq (h : a.regenerateVotingMana now = .ok a') :
    ∃ bar, a' = { a with votingManabar := bar } ∧
      (0 ≤ a.votingManabar.currentMana → 0 ≤ bar.currentMana) := by
  simp only [regenerateVotingMana, eq_ok] at h
  obtain ⟨bar, hbar, rfl⟩ := h
  exact ⟨bar, rfl, fun hmana => Manabar.regenerateMana_nonneg hmana hbar⟩

theorem gainVotingMana_eq (h : a.gainVotingMana shares now = .ok a') :
    ∃ bar, a' = { a with votingManabar := bar } ∧ 0 ≤ bar.currentMana := by
  simp only [gainVotingMana, eq_ok] at h
  obtain ⟨a₁, hregen, rfl⟩ := h
  obtain ⟨bar, rfl, -⟩ := regenerateVotingMana_eq hregen
  exact ⟨_, rfl, Manabar.useMana_nonneg _ _⟩

end Account

/-- `chain_properties`: what a witness proposes. `witness_set_properties_operation::validate` keeps
the subsidies within their bounds. -/
structure ChainProperties where
  accountCreationFee : Int := minAccountCreationFee
  maximumBlockSize : Nat := minBlockSizeLimit * 2
  dbdInterestRate : Nat := defaultDbdInterestRate
  accountSubsidyBudget : Int := defaultAccountSubsidyBudget
  accountSubsidyDecay : Nat := defaultAccountSubsidyDecay
  budget_bounds : rdMinBudget ≤ accountSubsidyBudget ∧ accountSubsidyBudget ≤ rdMaxBudget := by
    decide
  decay_bounds : rdMinDecay ≤ accountSubsidyDecay ∧ accountSubsidyDecay ≤ rdMaxDecay := by decide
deriving DecidableEq, Repr

/-- Of a new witness. -/
def ChainProperties.initial : ChainProperties := {}

/-- `witness_schedule_type`: how a witness was scheduled the last time it was. -/
inductive ScheduleType where
  | elected
  | timeshare
  | miner
  | none
deriving DecidableEq, Repr

/-- `witness_object`. The null key is `none`. -/
structure Witness where
  id : Nat := 0
  powWorker : Nat := 0
  signingKey : Option Nat := none
  props : ChainProperties := .initial
  votes : Int := 0
  schedule : ScheduleType := .none
  virtualPosition : Nat := 0
  virtualLastUpdate : Nat := 0
  virtualScheduledTime : Nat := 2 ^ 128 - 1
  runningVersion : Nat := 0
  hardforkVersionVote : Nat := 0
  hardforkTimeVote : Nat := genesisTime
  availableWitnessAccountSubsidies : Int := 0
deriving DecidableEq, Repr

/-- The parameters by which the subsidies of one witness are bounded. -/
def ChainProperties.perWitness (budget : Int) (decay : Nat) : RdUserParams where
  budgetPerTimeUnit := min (budget * witnessSubsidyBudgetPercent / percent100) (2 ^ 31 - 1)
  decayPerTimeUnit := min (decay * witnessSubsidyDecayPercent / percent100) (2 ^ 32 - 1)

/-- `witness_schedule_object`, without the virtual time and the account creation fee. -/
structure WitnessSchedule where
  nextShuffleBlockNum : Nat := 1
  currentShuffledWitnesses : Vector AccountName maxWitnesses
  numScheduledWitnesses : Nat := 1
  electedWeight : Nat := 1
  timeshareWeight : Nat := 5
  minerWeight : Nat := 1
  witnessPayNormalizationFactor : Nat := 25
  medianMaximumBlockSize : Nat := minBlockSizeLimit * 2
  medianDbdInterestRate : Nat := defaultDbdInterestRate
  medianAccountSubsidyBudget : Int := defaultAccountSubsidyBudget
  medianAccountSubsidyDecay : Nat := defaultAccountSubsidyDecay
  majorityVersion : Nat := 0
  maxVotedWitnesses : Nat := maxVotedWitnessesHf0
  maxMinerWitnesses : Nat := maxMinerWitnessesHf0
  hardforkRequiredWitnesses : Nat := Protocol.hardforkRequiredWitnesses
  accountSubsidyRd : RdDynamicsParams :=
    (RdUserParams.mk defaultAccountSubsidyBudget defaultAccountSubsidyDecay).dynamics
  accountSubsidyWitnessRd : RdDynamicsParams :=
    (ChainProperties.perWitness defaultAccountSubsidyBudget defaultAccountSubsidyDecay).dynamics

/-- `hardfork_property_object`, as `init_genesis` makes it. -/
structure HardforkProperties where
  processedHardforks : List Nat := [genesisTime]
  lastHardfork : Nat := 0
  currentHardforkVersion : Nat := 0
  nextHardfork : Nat := 0
  nextHardforkTime : Nat := 0
deriving DecidableEq, Repr

/-- `withdraw_vesting_route_object`, without its two names. -/
structure WithdrawVestingRoute where
  percent : Nat
  autoVest : Bool
  percent_le : percent ≤ percent100
deriving DecidableEq, Repr

/-- The check of `set_withdraw_vesting_route_operation::validate`. -/
def WithdrawVestingRoute.make (percent : Nat) (autoVest : Bool) : Checked WithdrawVestingRoute :=
  if h : percent ≤ percent100 then .ok ⟨percent, autoVest, h⟩
  else .error "Percent must be valid delta percent"

/-- `vesting_delegation_object`, without its two names. -/
structure VestingDelegation where
  vestingShares : Int
  minDelegationTime : Nat
deriving DecidableEq, Repr

/-- `vesting_delegation_expiration_object`: shares on their way back to the delegator. -/
structure VestingDelegationExpiration where
  delegator : AccountName
  vestingShares : Int
  expiration : Nat
deriving DecidableEq, Repr

structure LimitOrder where
  created : Nat
  expiration : Nat
  seller : AccountName
  orderid : Nat
  forSale : Int
  sellPrice : Price
deriving DecidableEq, Repr

namespace LimitOrder

def amountForSale (o : LimitOrder) : Asset := ⟨o.forSale, o.sellPrice.base.symbol⟩

def amountToReceive (o : LimitOrder) : Checked Asset := o.amountForSale.mul o.sellPrice

end LimitOrder

/-- `escrow_object`: the amounts it holds. -/
structure Escrow where
  deltaBalance : Int
  dbdBalance : Int
  pendingFee : Asset
deriving DecidableEq, Repr

/-- `curve_id`. -/
inductive Curve where
  | quadratic
  | quadraticCuration
  | linear
  | squareRoot
deriving DecidableEq, Repr

structure RewardFund where
  name : String
  rewardBalance : Int := 0
  recentClaims : Nat := 0
  lastUpdate : Nat
  contentConstant : Nat
  percentCurationRewards : Nat
  authorRewardCurve : Curve
deriving DecidableEq, Repr

/-- `beneficiary_route_type`. -/
structure Beneficiary where
  account : AccountName
  weight : Nat
deriving DecidableEq, Repr

/-- `comment_object`: what its payout reads and writes. -/
structure Comment where
  author : AccountName
  lastPayout : Nat := 0
  netRshares : Int := 0
  absRshares : Int := 0
  voteRshares : Int := 0
  childrenAbsRshares : Int := 0
  cashoutTime : Nat
  maxCashoutTime : Nat := timePointSecMaximum
  totalVoteWeight : Nat := 0
  rewardWeight : Nat := 0
  totalPayoutValue : Int := 0
  curatorPayoutValue : Int := 0
  beneficiaryPayoutValue : Int := 0
  authorRewards : Int := 0
  maxAcceptedPayout : Int := 1000000000
  percentDeltaDollars : Nat := percent100
  allowCurationRewards : Bool := true
  beneficiaries : List Beneficiary := []
deriving DecidableEq, Repr

/-- `comment_vote_object`. Its key has the ids of the comment and of the voter; the name of the
voter is kept with it. -/
structure CommentVote where
  voter : AccountName
  weight : Nat := 0
deriving DecidableEq, Repr

/-- `dynamic_global_property_object`. -/
structure GlobalProperties where
  headBlockNumber : Nat := 0
  time : Nat := genesisTime
  virtualSupply : Int := 0
  currentSupply : Int := 0
  currentDbdSupply : Int := 0
  totalVestingFundDelta : Int := 0
  totalVestingShares : Int := 0
  totalRewardFundDelta : Int := 0
  pendingRewardedVestingShares : Int := 0
  pendingRewardedVestingDelta : Int := 0
  dbdInterestRate : Nat := 0
  dbdPrintRate : Nat := percent100
  delegationReturnPeriod : Nat := delegationReturnPeriodHf20
  maximumBlockSize : Nat := maxBlockSize
  numPowWitnesses : Nat := 0
deriving DecidableEq, Repr

variable (g : GlobalProperties)

namespace GlobalProperties

def vestingSharePrice : Checked Price :=
  if g.totalVestingFundDelta = 0 ∨ g.totalVestingShares = 0 then
    Price.make ⟨1000, .delta⟩ ⟨1000000, .vests⟩
  else Price.make ⟨g.totalVestingShares, .vests⟩ ⟨g.totalVestingFundDelta, .delta⟩

def rewardVestingSharePrice : Checked Price :=
  Price.make ⟨g.totalVestingShares + g.pendingRewardedVestingShares, .vests⟩
    ⟨g.totalVestingFundDelta + g.pendingRewardedVestingDelta, .delta⟩

/-- The price at which new shares are made. -/
def newSharePrice (toRewardBalance : Bool) : Checked Price :=
  if toRewardBalance then g.rewardVestingSharePrice else g.vestingSharePrice

end GlobalProperties

/-- The state. `witnessVotes` holds the pairs of an account and a witness it votes for,
`declineVotingRightsRequests` the date a request takes effect, the routes are keyed
by the account that withdraws and the one that is paid, and the delegations by the delegator
and the delegatee. The virtual time and the median account creation fee of
`witness_schedule_object` are kept apart from the rest of it. -/
structure Database where
  props : GlobalProperties
  medianHistory : Price
  currentVirtualTime : Nat
  accountCreationFee : Int
  schedule : WitnessSchedule
  hardforks : HardforkProperties
  accounts : Table AccountName Account
  nextWitnessId : Nat
  witnesses : Table AccountName Witness
  witnessVotes : Table (AccountName × AccountName) Unit
  declineVotingRightsRequests : Table AccountName Nat
  withdrawVestingRoutes : Table (AccountName × AccountName) WithdrawVestingRoute
  vestingDelegations : Table (AccountName × AccountName) VestingDelegation
  nextDelegationExpirationId : Nat
  vestingDelegationExpirations : Table Nat VestingDelegationExpiration
  nextLimitOrderId : Nat
  limitOrders : Table Nat LimitOrder
  convertRequests : Table Nat Asset
  escrows : Table Nat Escrow
  savingsWithdraws : Table Nat Asset
  rewardFunds : Table Nat RewardFund
  comments : Table Nat Comment
  commentVotes : Table (Nat × Nat) CommentVote

namespace Database

def headBlockTime (db : Database) : Nat := db.props.time

/-- `get_account`; throws for an unknown name. -/
def getAccount (db : Database) (name : AccountName) : Checked Account :=
  get (db.accounts.find? name) "unknown key"

/-- `get_witness`; throws for an unknown name. -/
def getWitness (db : Database) (name : AccountName) : Checked Witness :=
  get (db.witnesses.find? name) "unknown key"

def modifyAccount (db : Database) (name : AccountName) (f : Account → Account) : Database :=
  { db with accounts := db.accounts.modify name f }

def modifyWitness (db : Database) (name : AccountName) (f : Witness → Witness) : Database :=
  { db with witnesses := db.witnesses.modify name f }

def modifyProps (db : Database) (f : GlobalProperties → GlobalProperties) : Database :=
  { db with props := f db.props }

variable {name : AccountName} {db : Database}

@[simp] theorem getAccount_eq_ok {a : Account} :
    db.getAccount name = .ok a ↔ db.accounts.find? name = some a := get_eq_ok

@[simp] theorem getWitness_eq_ok {w : Witness} :
    db.getWitness name = .ok w ↔ db.witnesses.find? name = some w := get_eq_ok

end Database

end DeltaChain.Ledger

import DeltaChain.Recovery.Model
import DeltaChain.Rewards.Curve

/-!
# The operations of Smart Media Tokens

`smt_operations.hpp` and the `validate` of each operation. The symbol of a token is its `asset_num`:
the digits of its number (NAI), a bit that is always set, and four bits for its decimal places; the
lowest bit of the number tells the vesting variant from the liquid one. The check digit of a printed
NAI is computed from the others and not part of the model. What the hash of a revealed cap is, is a
parameter.
-/

namespace DeltaChain.Smt

open Lib Protocol Ledger Checked
open Recovery.State (validateAccountName)

-- # Symbols

/-- `asset_symbol_type`: the `asset_num`. -/
abbrev SymbolNum := Nat

def assetMaxDecimals : Nat := 12

def smtMinNai : Nat := 1

def smtMaxNai : Nat := 99999999

def maxShareSupply : Int := 1000000000000000

variable (n : SymbolNum)

namespace SymbolNum

/-- The symbols of `legacy_space`. -/
def isLegacy : Prop :=
  n = Symbol.delta.assetNum ∨ n = Symbol.dbd.assetNum ∨ n = Symbol.vests.assetNum

instance (n : SymbolNum) : Decidable (isLegacy n) := inferInstanceAs (Decidable (_ ∨ _ ∨ _))

def decimals : Nat := n % 16

/-- `get_stripped_precision_smt_num`. -/
def strippedPrecision : Nat := n / 16 * 16

def isVesting : Prop :=
  if isLegacy n then n = Symbol.vests.assetNum else n / 32 % 2 = 1

instance (n : SymbolNum) : Decidable (isVesting n) :=
  inferInstanceAs (Decidable (if isLegacy n then _ else _))

def validate : Checked Unit :=
  whenever (¬ isLegacy n) do
    assert (smtMinNai ≤ n / 32 ∧ n / 32 ≤ smtMaxNai ∧ n / 16 % 2 = 1 ∧ decimals n ≤ assetMaxDecimals)
      "Cannot determine space for asset"

/-- `to_nai`, without the check digit. -/
def toNai : Nat :=
  if n = Symbol.delta.assetNum then 2
  else if n = Symbol.dbd.assetNum then 1
  else if n = Symbol.vests.assetNum then 3
  else n / 32

/-- `from_nai`, without the check digit. Three numbers stand for the core symbols. -/
def fromNai (nai decimalPlaces : Nat) : Checked SymbolNum := do
  assert (smtMinNai ≤ nai ∧ nai ≤ smtMaxNai) "NAI out of range"
  if nai = 2 then
    assert (decimalPlaces = 3) "decimal_places == DELTA_PRECISION_DELTA"
    return Symbol.delta.assetNum
  else if nai = 1 then
    assert (decimalPlaces = 3) "decimal_places == DELTA_PRECISION_DBD"
    return Symbol.dbd.assetNum
  else if nai = 3 then
    assert (decimalPlaces = 6) "decimal_places == DELTA_PRECISION_VESTS"
    return Symbol.vests.assetNum
  else
    assert (decimalPlaces ≤ assetMaxDecimals) "Invalid decimal_places"
    return nai * 32 + 16 + decimalPlaces

end SymbolNum

/-- `asset`, with any symbol. -/
abbrev SmtAsset := AssetOf SymbolNum

def commonSymbolValidation (symbol : SymbolNum) : Checked Unit := do
  symbol.validate
  assert (¬ symbol.isLegacy) "legacy symbol used instead of NAI"
  assert (¬ symbol.isVesting) "liquid variant of NAI expected"

-- # Generation policies

structure GenerationUnit where
  deltaUnit : List (AccountName × Nat) := []
  tokenUnit : List (AccountName × Nat) := []
deriving DecidableEq

structure RevealedCap where
  amount : Int
  nonce : Nat := 0
deriving DecidableEq

abbrev Digest := Nat

structure CapCommitment where
  lowerBound : Int := 0
  upperBound : Int := 0
  hash : Digest := 0
deriving DecidableEq

structure CappedGenerationPolicy where
  preSoftCapUnit : GenerationUnit := {}
  postSoftCapUnit : GenerationUnit := {}
  minDeltaUnitsCommitment : CapCommitment := {}
  hardCapDeltaUnitsCommitment : CapCommitment := {}
  softCapPercent : Nat := 0
  minUnitRatio : Nat := 0
  maxUnitRatio : Nat := 0
deriving DecidableEq

def maxUnitRoutes : Nat := 10

def maxUnitCount : Nat := 20

def isValidUnitTarget (name : AccountName) : Bool :=
  isValidAccountName name || name == "$from" || name == "$from.vesting"

/-- `delta_unit_sum` and `token_unit_sum`. -/
def unitSum (unit : List (AccountName × Nat)) : Nat := (unit.map Prod.snd).sum

/-- The check of one side of a unit. -/
def validateUnit (unit : List (AccountName × Nat)) (msg : String) : Checked Unit := do
  assert (unit.length ≤ maxUnitRoutes) msg
  unit.forM fun e => do
    assert (isValidUnitTarget e.1 = true) "is_valid_unit_target( e.first )"
    assert (e.2 > 0) "e.second > 0"

def GenerationUnit.validate (u : GenerationUnit) : Checked Unit := do
  validateUnit u.deltaUnit "delta_unit.size() <= SMT_MAX_UNIT_ROUTES"
  validateUnit u.tokenUnit "token_unit.size() <= SMT_MAX_UNIT_ROUTES"

variable (hash : RevealedCap → Digest)

def CapCommitment.validate (c : CapCommitment) : Checked Unit := do
  assert (0 < c.lowerBound) "lower_bound > 0"
  assert (c.upperBound ≤ maxShareSupply) "upper_bound <= DELTA_MAX_SHARE_SUPPLY"
  assert (c.lowerBound ≤ c.upperBound) "lower_bound <= upper_bound"
  whenever (c.lowerBound = c.upperBound) do
    assert (c.hash = hash { amount := c.lowerBound }) "hash == h"

def RevealedCap.validate (cap : RevealedCap) (commitment : CapCommitment) : Checked Unit := do
  assert (commitment.lowerBound ≤ cap.amount) "amount >= commitment.lower_bound"
  assert (cap.amount ≤ commitment.upperBound) "amount <= commitment.upper_bound"
  assert (hash cap = commitment.hash) "reveal_hash == commitment.hash"

/-- `smt_capped_generation_policy::validate`. All products are below 2 ^ 128. -/
def CappedGenerationPolicy.validate (p : CappedGenerationPolicy) : Checked Unit := do
  p.preSoftCapUnit.validate
  p.postSoftCapUnit.validate
  assert (p.softCapPercent > 0) "soft_cap_percent > 0"
  assert (p.softCapPercent ≤ percent100) "soft_cap_percent <= DELTA_100_PERCENT"
  assert (p.preSoftCapUnit.deltaUnit.length > 0) "pre_soft_cap_unit.delta_unit.size() > 0"
  assert (p.preSoftCapUnit.tokenUnit.length > 0) "pre_soft_cap_unit.token_unit.size() > 0"
  assert (p.preSoftCapUnit.deltaUnit.length ≤ maxUnitCount)
    "pre_soft_cap_unit.delta_unit.size() <= SMT_MAX_UNIT_COUNT"
  assert (p.preSoftCapUnit.tokenUnit.length ≤ maxUnitCount)
    "pre_soft_cap_unit.token_unit.size() <= SMT_MAX_UNIT_COUNT"
  assert (p.postSoftCapUnit.deltaUnit.length ≤ maxUnitCount)
    "post_soft_cap_unit.delta_unit.size() <= SMT_MAX_UNIT_COUNT"
  assert (p.postSoftCapUnit.tokenUnit.length ≤ maxUnitCount)
    "post_soft_cap_unit.token_unit.size() <= SMT_MAX_UNIT_COUNT"
  if p.softCapPercent = percent100 then
    assert (p.postSoftCapUnit.deltaUnit.length = 0) "post_soft_cap_unit.delta_unit.size() == 0"
    assert (p.postSoftCapUnit.tokenUnit.length = 0) "post_soft_cap_unit.token_unit.size() == 0"
  else assert (p.postSoftCapUnit.deltaUnit.length > 0) "post_soft_cap_unit.delta_unit.size() > 0"
  p.minDeltaUnitsCommitment.validate hash
  p.hardCapDeltaUnitsCommitment.validate hash
  let minCap := p.minDeltaUnitsCommitment
  let hardCap := p.hardCapDeltaUnitsCommitment
  assert (minCap.lowerBound ≤ hardCap.lowerBound)
    "min_delta_units_commitment.lower_bound <= hard_cap_delta_units_commitment.lower_bound"
  assert (minCap.upperBound ≤ hardCap.upperBound)
    "min_delta_units_commitment.upper_bound <= hard_cap_delta_units_commitment.upper_bound"
  assert (10000 ≤ hardCap.lowerBound)
    "hard_cap_delta_units_commitment.lower_bound >= SMT_MIN_HARD_CAP_DELTA_UNITS"
  assert (1000 * p.maxUnitRatio ≤ hardCap.lowerBound)
    "hard_cap_delta_units_commitment.lower_bound >= SMT_MIN_SATURATION_DELTA_UNITS * uint64_t( max_unit_ratio )"
  let minSoftCap := hardCap.lowerBound * p.softCapPercent / percent100
  let maxSoftCap := hardCap.upperBound * p.softCapPercent / percent100
  assert (1000 ≤ minSoftCap) "min_soft_cap >= SMT_MIN_SOFT_CAP_DELTA_UNITS"
  let rest := hardCap.upperBound - maxSoftCap
  let maxTokensCreated :=
    (unitSum p.preSoftCapUnit.tokenUnit * maxSoftCap + unitSum p.postSoftCapUnit.tokenUnit * rest) *
      p.minUnitRatio
  assert (maxTokensCreated ≤ maxShareSupply) "max_tokens_created <= max_share_supply_u128"
  let maxDeltaAccepted :=
    unitSum p.preSoftCapUnit.deltaUnit * maxSoftCap + unitSum p.postSoftCapUnit.deltaUnit * rest
  assert (maxDeltaAccepted ≤ maxShareSupply) "max_delta_accepted <= max_share_supply_u128"

-- # Operations

/-- What `smt_setup` writes, the decimal places apart. -/
structure Generation where
  maxSupply : Int := 0
  policy : CappedGenerationPolicy := {}
  generationBeginTime : Nat := 0
  generationEndTime : Nat := 0
  announcedLaunchTime : Nat := 0
  launchExpirationTime : Nat := 0
deriving DecidableEq

/-- What `smt_setup_emissions` writes. -/
structure Emissions where
  scheduleTime : Nat := genesisTime
  emissionsUnit : List (AccountName × Nat) := []
  intervalSeconds : Nat := 0
  intervalCount : Nat := 0
  lepTime : Nat := genesisTime
  repTime : Nat := genesisTime
  lepAbsAmount : SmtAsset := ⟨0, Symbol.delta.assetNum⟩
  repAbsAmount : SmtAsset := ⟨0, Symbol.delta.assetNum⟩
  lepRelAmountNumerator : Nat := 0
  repRelAmountNumerator : Nat := 0
  relAmountDenomBits : Nat := 0
deriving DecidableEq

inductive SetupParameter where
  | allowVesting (value : Bool)
  | allowVoting (value : Bool)
deriving DecidableEq

inductive RuntimeParameter where
  | windows (cashoutWindowSeconds reverseAuctionWindowSeconds : Nat)
  | voteRegeneration (voteRegenerationPeriodSeconds votesPerRegenerationPeriod : Nat)
  | rewards (contentConstant percentCurationRewards percentContentRewards : Nat)
      (authorRewardCurve curationRewardCurve : Curve)
deriving DecidableEq

/-- The operations. All but `smt_refund` name the account that controls the token. -/
inductive Operation where
  | create (controlAccount : AccountName) (symbol : SymbolNum) (smtCreationFee : Asset)
      (precision : Nat)
  | setup (controlAccount : AccountName) (symbol : SymbolNum) (decimalPlaces : Nat)
      (generation : Generation)
  | capReveal (controlAccount : AccountName) (symbol : SymbolNum) (cap : RevealedCap)
  | refund (executor : AccountName) (symbol : SymbolNum) (contributor : AccountName) (amount : Asset)
  | setupEmissions (controlAccount : AccountName) (symbol : SymbolNum) (emissions : Emissions)
  | setSetupParameters (controlAccount : AccountName) (symbol : SymbolNum)
      (setupParameters : List SetupParameter)
  | setRuntimeParameters (controlAccount : AccountName) (symbol : SymbolNum)
      (runtimeParameters : List RuntimeParameter)

/-- `smt_base_operation::validate`. -/
def validateBase (account : AccountName) (symbol : SymbolNum) : Checked Unit := do
  validateAccountName account
  commonSymbolValidation symbol

def smtVestingWithdrawIntervalSeconds : Nat := 60 * 60 * 24 * 7

def smtUpvoteLockout : Nat := 60 * 60 * 12

/-- `smt_set_runtime_parameters_operation_visitor`. The sum is one of 32 bits. -/
def RuntimeParameter.validate : RuntimeParameter → Checked Unit
  | .windows cashout reverseAuction => do
    assert (cashout > (reverseAuction + smtUpvoteLockout) % 2 ^ 32)
      "Cashout window must be greater than 'reverse auction window + upvote lockout' interval."
    assert (cashout < smtVestingWithdrawIntervalSeconds)
      "Cashout window second must be less than 'vesting withdraw' interval."
  | .voteRegeneration seconds _ =>
    assert (seconds > 0 ∧ seconds < smtVestingWithdrawIntervalSeconds)
      "Vote regeneration period must be greater than 0 and less than 'vesting withdraw' interval."
  | .rewards .. => .ok ()

def Operation.validate : Operation → Checked Unit
  | .create control symbol fee precision => do
    validateBase control symbol
    assert (0 ≤ fee.amount) "fee cannot be negative"
    assert (fee.amount ≤ maxShareSupply) "Fee must be smaller than DELTA_MAX_SHARE_SUPPLY"
    assert (fee.symbol = .delta ∨ fee.symbol = .dbd) "Fee must be DELTA or DBD"
    assert (symbol.decimals = precision) "Mismatch between redundantly provided precision"
  | .setup control symbol decimalPlaces g => do
    validateBase control symbol
    assert (decimalPlaces ≤ 8) "decimal_places <= SMT_MAX_DECIMAL_PLACES"
    assert (0 < g.maxSupply) "max_supply > 0"
    assert (g.maxSupply ≤ maxShareSupply) "max_supply <= DELTA_MAX_SHARE_SUPPLY"
    g.policy.validate hash
    assert (genesisTime < g.generationBeginTime) "generation_begin_time > DELTA_GENESIS_TIME"
    assert (g.generationBeginTime < g.generationEndTime) "generation_end_time > generation_begin_time"
    assert (g.generationEndTime ≤ g.announcedLaunchTime) "announced_launch_time >= generation_end_time"
    assert (g.announcedLaunchTime ≤ g.launchExpirationTime)
      "launch_expiration_time >= announced_launch_time"
  | .capReveal control symbol _ => validateBase control symbol
  | .refund executor symbol contributor amount => do
    validateBase executor symbol
    assert (isValidAccountName contributor = true) "is_valid_account_name( contributor )"
    assert (amount.symbol = .delta) "amount.symbol == DELTA_SYMBOL"
  | .setupEmissions control symbol e => do
    validateBase control symbol
    assert (genesisTime < e.scheduleTime) "schedule_time > DELTA_GENESIS_TIME"
    assert (e.emissionsUnit ≠ []) "emissions_unit.token_unit.empty() == false"
    assert (e.lepTime ≤ e.repTime) "lep_time <= rep_time"
    assert (e.scheduleTime ≤ e.lepTime ∨ e.lepTime = e.repTime)
      "schedule_time <= lep_time || lep_time == rep_time"
    assert (¬ e.lepAbsAmount.symbol.isVesting)
      "Use liquid variant of SMT symbol to specify emission amounts"
    assert (e.lepAbsAmount.symbol = e.repAbsAmount.symbol)
      "lep_abs_amount.symbol == rep_abs_amount.symbol"
    assert (0 ≤ e.lepAbsAmount.amount ∧ 0 ≤ e.repAbsAmount.amount)
      "lep_abs_amount.amount >= 0 && rep_abs_amount.amount >= 0"
    assert (e.lepAbsAmount.amount ≠ e.repAbsAmount.amount ∨ 0 < e.lepAbsAmount.amount)
      "lep_abs_amount.amount != rep_abs_amount.amount || lep_abs_amount.amount > 0"
  | .setSetupParameters control symbol _ => validateBase control symbol
  | .setRuntimeParameters control symbol params => do
    validateBase control symbol
    assert (params ≠ []) "!runtime_parameters.empty()"
    params.forM RuntimeParameter.validate

end DeltaChain.Smt

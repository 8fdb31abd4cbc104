import DeltaChain.Ledger.Balance
import DeltaChain.Ledger.Schedule
import DeltaChain.Lib.Trace
import DeltaChain.Smt.Operations

/-!
# The evaluators of Smart Media Tokens

`smt_evaluator.cpp`, for a build with `DELTA_ENABLE_SMT`. Four of the operations on an existing token
look it up with `get_controlled_smt`, which compares its control account with the one that the
operation names; `smt_setup` looks it up itself. Nothing but `smt_setup` moves the phase of a token.
-/

namespace DeltaChain.Smt

open Lib Protocol Ledger Checked

-- # Tokens

inductive Phase where
  | accountElevated
  | setupCompleted
  | contributionBeginTimeCompleted
  | contributionEndTimeCompleted
  | launchTimeCompleted
  | launchFailed
  | launchSuccess
deriving DecidableEq

/-- The order of the phases. -/
def Phase.index : Phase → Nat
  | .accountElevated => 0
  | .setupCompleted => 1
  | .contributionBeginTimeCompleted => 2
  | .contributionEndTimeCompleted => 3
  | .launchTimeCompleted => 4
  | .launchFailed => 5
  | .launchSuccess => 6

/-- What `smt_set_setup_parameters` writes. -/
structure SetupParameters where
  allowVoting : Bool := false
  allowVesting : Bool := false
deriving DecidableEq

/-- What `smt_set_runtime_parameters` writes. -/
structure RuntimeParameters where
  cashoutWindowSeconds : Nat := 0
  reverseAuctionWindowSeconds : Nat := 0
  voteRegenerationPeriodSeconds : Nat := 0
  votesPerRegenerationPeriod : Nat := 0
  contentConstant : Nat := 0
  percentCurationRewards : Nat := 0
  percentContentRewards : Nat := 0
  authorRewardCurve : Curve := .quadratic
  curationRewardCurve : Curve := .quadratic
deriving DecidableEq

/-- `smt_token_object`, without its supply, its vesting funds and its market maker. -/
structure Token where
  liquidSymbol : SymbolNum
  controlAccount : AccountName
  phase : Phase := .accountElevated
  setupParameters : SetupParameters := {}
  runtimeParameters : RuntimeParameters := {}
  emissions : Emissions := {}
  generation : Generation := {}
  deltaUnitsMinCap : Int := -1
  deltaUnitsHardCap : Int := -1
deriving DecidableEq

/-- The symbol of a token with the decimal places. -/
def Token.withDecimals (t : Token) (decimalPlaces : Nat) : Checked SymbolNum :=
  if t.liquidSymbol.decimals ≠ decimalPlaces then
    SymbolNum.fromNai t.liquidSymbol.toNai decimalPlaces
  else return t.liquidSymbol

structure EventToken where
  parent : Nat
  phase : Phase := .setupCompleted
  generationBeginTime : Nat
  generationEndTime : Nat
  announcedLaunchTime : Nat
  launchExpirationTime : Nat
deriving DecidableEq

/-- The state. Tokens are found by their id. -/
structure State where
  db : Database
  smtCreationFee : Asset := ⟨1000000, .dbd⟩
  nextTokenId : Nat := 0
  tokens : Table Nat Token := Table.empty
  eventTokens : List EventToken := []

variable (s : State)

namespace State

/-- `find< smt_token_object, by_symbol >`: the id of the token and the token. -/
def findBySymbol (symbol : SymbolNum) : Option (Nat × Token) :=
  s.tokens.entries.find? fun e => e.2.liquidSymbol = symbol

/-- `modify`, which must not give a token the symbol of another one. -/
def modifyToken (id : Nat) (f : Token → Token) : Checked State := do
  let tokens := s.tokens.modify id f
  assert (tokens.entries.all fun e =>
      tokens.entries.all fun e' => e.2.liquidSymbol = e'.2.liquidSymbol → e.1 = e'.1)
    "Could not modify object, most likely a uniqueness constraint was violated"
  return { s with tokens }

def getControlledSmt (controlAccount : AccountName) (symbol : SymbolNum) :
    Checked (Nat × Token) := do
  let (id, smt) ← get (s.findBySymbol symbol) "SMT numerical asset identifier not found"
  assert (smt.controlAccount = controlAccount) "The account does NOT control the SMT"
  return (id, smt)

def commonPreSetupEvaluation (symbol : SymbolNum) (controlAccount : AccountName) :
    Checked (Nat × Token) := do
  let (id, smt) ← s.getControlledSmt controlAccount symbol
  assert (smt.phase.index < Phase.setupCompleted.index)
    "SMT pre-setup operation no longer allowed after setup phase is over"
  return (id, smt)

/-- `lower_bound` of a number in the index by symbol. -/
def lowerBound (n : Nat) : Option Token :=
  ((s.tokens.entries.map Prod.snd).filter fun t => n ≤ t.liquidSymbol).argmin (·.liquidSymbol)

/-- `get_balance`, of a core symbol. -/
def getBalance (a : Account) : Symbol → Checked Int
  | .delta => .ok a.balance
  | .dbd => .ok a.dbdBalance
  | .vests => .error "invalid symbol"

/-- `operator >=` of assets. -/
def assetGe (a b : Asset) (msg : String) : Checked Unit := do
  assert (a.symbol = b.symbol) "a.symbol == b.symbol"
  assert (b.amount ≤ a.amount) msg

/-- The fee that is asked for. In the other symbol it is the offered fee that is converted, so that
the two are then compared across symbols. -/
def effectiveElevationFee (smtCreationFee : Asset) : Checked Asset :=
  if smtCreationFee.symbol = s.smtCreationFee.symbol then return s.smtCreationFee
  else do
    assert (¬ s.db.medianHistory.isNull)
      "Cannot pay the fee using DBD because there is no price feed."
    if smtCreationFee.symbol = .delta then toDbd s.db.medianHistory smtCreationFee
    else toDelta s.db.medianHistory smtCreationFee

def smtCreate (controlAccount : AccountName) (symbol : SymbolNum)
    (smtCreationFee : Asset) : Checked State := do
  assert (s.db.hasHardfork 21) "SMT functionality not enabled until hardfork"
  let stripped := symbol.strippedPrecision
  assert ((s.lowerBound stripped).all fun t => t.liquidSymbol.strippedPrecision ≠ stripped)
    "SMT has already been created."
  assert (s.smtCreationFee.symbol = .delta ∨ s.smtCreationFee.symbol = .dbd)
    "Unexpected internal error - wrong symbol of SMT creation fee."
  assert (smtCreationFee.symbol = .delta ∨ smtCreationFee.symbol = .dbd)
    "Asset fee must be DELTA or DBD"
  let effectiveElevationFee ← s.effectiveElevationFee smtCreationFee
  assetGe smtCreationFee effectiveElevationFee "Fee is too small"
  let account ← s.db.getAccount controlAccount
  let balance ← getBalance account smtCreationFee.symbol
  assert (smtCreationFee.amount ≤ balance) "Account does not have sufficient funds for specified fee"
  let db ← s.db.adjustBalance controlAccount (-smtCreationFee)
  let db ← db.adjustBalance nullAccount smtCreationFee
  assert (s.findBySymbol symbol = none)
    "could not insert object, most likely a uniqueness constraint was violated"
  let tokens ← get (s.tokens.insert? s.nextTokenId { liquidSymbol := symbol, controlAccount })
    "could not insert object, most likely a uniqueness constraint was violated"
  return { s with db, nextTokenId := s.nextTokenId + 1, tokens }

/-- What `smt_setup` does to a token. If it changes the decimal places, so it does in the symbols
of the emissions. -/
def setUp (controlAccount : AccountName) (decimalPlaces : Nat) (generation : Generation)
    (newSymbol : SymbolNum) (t : Token) : Token :=
  let t := { t with phase := .setupCompleted, controlAccount, generation }
  if t.liquidSymbol.decimals ≠ decimalPlaces then
    { t with
      liquidSymbol := newSymbol
      emissions := { t.emissions with
        lepAbsAmount := ⟨t.emissions.lepAbsAmount.amount, newSymbol⟩
        repAbsAmount := ⟨t.emissions.repAbsAmount.amount, newSymbol⟩ } }
  else t

def smtSetup (controlAccount : AccountName) (symbol : SymbolNum) (decimalPlaces : Nat)
    (generation : Generation) : Checked State := do
  assert (s.db.hasHardfork 21) "SMT functionality not enabled until hardfork"
  let (id, token) ← get (s.findBySymbol symbol) "SMT not elevated yet."
  let newSymbol ← token.withDecimals decimalPlaces
  let s ← s.modifyToken id (setUp controlAccount decimalPlaces generation newSymbol)
  return { s with eventTokens := s.eventTokens ++ [
    { parent := id
      generationBeginTime := generation.generationBeginTime
      generationEndTime := generation.generationEndTime
      announcedLaunchTime := generation.announcedLaunchTime
      launchExpirationTime := generation.launchExpirationTime }] }

variable (hash : RevealedCap → Digest)

/-- `smt_cap_reveal_evaluator`. A cap that does not fit the commitment of the minimum may be the hard
cap, if that is not revealed yet. -/
def smtCapReveal (controlAccount : AccountName) (symbol : SymbolNum) (cap : RevealedCap) :
    Checked State := do
  assert (s.db.hasHardfork 21) "SMT functionality not enabled until hardfork"
  let (id, smt) ← s.getControlledSmt controlAccount symbol
  assert (Phase.setupCompleted.index ≤ smt.phase.index)
    "SMT setup operation must succeed before cap reveal operaton is allowed"
  assert (smt.phase.index < Phase.launchFailed.index)
    "Cap reveal operaton is allowed only until SMT ICO is concluded"
  assert (smt.deltaUnitsMinCap < 0 ∨ smt.deltaUnitsHardCap < 0)
    "Both min cap and max hard cap have already been revealed"
  let hardCap : Checked State := do
    cap.validate hash smt.generation.policy.hardCapDeltaUnitsCommitment
    s.modifyToken id fun t => { t with deltaUnitsHardCap := cap.amount }
  if smt.deltaUnitsMinCap < 0 then
    match cap.validate hash smt.generation.policy.minDeltaUnitsCommitment with
    | .ok _ => s.modifyToken id fun t => { t with deltaUnitsMinCap := cap.amount }
    | .error e => if 0 ≤ smt.deltaUnitsHardCap then .error e else hardCap
  else hardCap

def smtRefund : Checked State := do
  assert (s.db.hasHardfork 21) "SMT functionality not enabled until hardfork"
  return s

def smtSetupEmissions (controlAccount : AccountName) (symbol : SymbolNum)
    (emissions : Emissions) : Checked State := do
  assert (s.db.hasHardfork 21) "SMT functionality not enabled until hardfork"
  let (id, smt) ← s.commonPreSetupEvaluation symbol controlAccount
  assert (emissions.lepAbsAmount.symbol = smt.liquidSymbol)
    "o.lep_abs_amount.symbol == smt.liquid_symbol"
  s.modifyToken id fun t => { t with emissions }

/-- `smt_setup_parameters_visitor`. -/
def setSetupParameter (p : SetupParameters) : SetupParameter → SetupParameters
  | .allowVoting value => { p with allowVoting := value }
  | .allowVesting value => { p with allowVesting := value }

def smtSetSetupParameters (controlAccount : AccountName) (symbol : SymbolNum)
    (setupParameters : List SetupParameter) : Checked State := do
  assert (s.db.hasHardfork 21) "SMT functionality not enabled until hardfork"
  let (id, _) ← s.commonPreSetupEvaluation symbol controlAccount
  s.modifyToken id fun t =>
    { t with setupParameters := setupParameters.foldl setSetupParameter t.setupParameters }

/-- `smt_set_runtime_parameters_evaluator_visitor`. -/
def setRuntimeParameter (p : RuntimeParameters) : RuntimeParameter → RuntimeParameters
  | .windows cashout reverseAuction =>
    { p with cashoutWindowSeconds := cashout, reverseAuctionWindowSeconds := reverseAuction }
  | .voteRegeneration seconds votes =>
    { p with voteRegenerationPeriodSeconds := seconds, votesPerRegenerationPeriod := votes }
  | .rewards constant curation content authorCurve curationCurve =>
    { p with
      contentConstant := constant
      percentCurationRewards := curation
      percentContentRewards := content
      authorRewardCurve := authorCurve
      curationRewardCurve := curationCurve }

def smtSetRuntimeParameters (controlAccount : AccountName) (symbol : SymbolNum)
    (runtimeParameters : List RuntimeParameter) : Checked State := do
  assert (s.db.hasHardfork 21) "SMT functionality not enabled until hardfork"
  let (id, _) ← s.commonPreSetupEvaluation symbol controlAccount
  s.modifyToken id fun t =>
    { t with runtimeParameters := runtimeParameters.foldl setRuntimeParameter t.runtimeParameters }

end State

-- # Runs

/-- An operation: its `validate`, and its evaluator. -/
def step (hash : RevealedCap → Digest) (s : State) (op : Operation) : Checked State := do
  op.validate hash
  match op with
  | .create control symbol fee _ => s.smtCreate control symbol fee
  | .setup control symbol decimalPlaces generation =>
    s.smtSetup control symbol decimalPlaces generation
  | .capReveal control symbol cap => s.smtCapReveal hash control symbol cap
  | .refund .. => s.smtRefund
  | .setupEmissions control symbol emissions => s.smtSetupEmissions control symbol emissions
  | .setSetupParameters control symbol params => s.smtSetSetupParameters control symbol params
  | .setRuntimeParameters control symbol params => s.smtSetRuntimeParameters control symbol params

/-- The states after runs that were all accepted. -/
abbrev exec (hash : RevealedCap → Digest) : State → List Operation → Option State :=
  Run.exec (Run.checked (step hash))

end DeltaChain.Smt

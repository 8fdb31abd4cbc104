import DeltaChain.Ledger.WitnessVotes

/-!
# `witness_set_properties`

The second operation by which a witness proposes chain properties, next to `witness_update`. Each
entry of its map is optional; one that is there is checked by `validate`, and the fee once more by
the evaluator. The exchange rate and the url are checked and not kept here.
-/

namespace DeltaChain.Ledger

open Lib Protocol Checked

/-- `witness_set_properties_operation`, with the entries of its map unpacked. -/
structure WitnessSetProperties where
  owner : AccountName
  key : Option (Option Nat) := none
  accountCreationFee : Option Asset := none
  maximumBlockSize : Option Nat := none
  dbdInterestRate : Option Nat := none
  newSigningKey : Option (Option Nat) := none
  dbdExchangeRate : Option Price := none
  url : Option String := none
  accountSubsidyBudget : Option Int := none
  accountSubsidyDecay : Option Nat := none

/-- A budget for subsidies that `validate` has passed. -/
abbrev SubsidyBudget := { budget : Int // rdMinBudget ≤ budget ∧ budget ≤ rdMaxBudget }

/-- A decay of subsidies that `validate` has passed. -/
abbrev SubsidyDecay := { decay : Nat // rdMinDecay ≤ decay ∧ decay ≤ rdMaxDecay }

/-- The checks of `account_subsidy_budget`. -/
def validateBudget : Option Int → Checked (Option SubsidyBudget)
  | none => .ok none
  | some budget =>
    if hmin : rdMinBudget ≤ budget then
      if hmax : budget ≤ rdMaxBudget then .ok (some ⟨budget, hmin, hmax⟩)
      else .error ("Budget must be at most " ++ toString rdMaxBudget)
    else .error ("Budget must be at least " ++ toString rdMinBudget)

/-- The checks of `account_subsidy_decay`. -/
def validateDecay : Option Nat → Checked (Option SubsidyDecay)
  | none => .ok none
  | some decay =>
    if hmin : rdMinDecay ≤ decay then
      if hmax : decay ≤ rdMaxDecay then .ok (some ⟨decay, hmin, hmax⟩)
      else .error ("Decay must be at most " ++ toString rdMaxDecay)
    else .error ("Decay must be at least " ++ toString rdMinDecay)

namespace ChainProperties

/-- The budget is set, if there is one to set. -/
def setBudget (p : ChainProperties) : Option SubsidyBudget → ChainProperties
  | none => p
  | some budget => { p with accountSubsidyBudget := budget.1, budget_bounds := budget.2 }

/-- The decay is set, if there is one to set. -/
def setDecay (p : ChainProperties) : Option SubsidyDecay → ChainProperties
  | none => p
  | some decay => { p with accountSubsidyDecay := decay.1, decay_bounds := decay.2 }

end ChainProperties

/-- What the operation sets. -/
def WitnessSetProperties.set (op : WitnessSetProperties) (budget : Option SubsidyBudget)
    (decay : Option SubsidyDecay) (w : Witness) : Witness :=
  let props := { w.props with
    accountCreationFee := (op.accountCreationFee.map AssetOf.amount).getD w.props.accountCreationFee
    maximumBlockSize := op.maximumBlockSize.getD w.props.maximumBlockSize
    dbdInterestRate := op.dbdInterestRate.getD w.props.dbdInterestRate }
  { w with
    props := (props.setBudget budget).setDecay decay
    signingKey := op.newSigningKey.getD w.signingKey }

/-- `witness_set_properties_operation::validate` and its evaluator. Nothing bounds the block size
from above. -/
def Database.witnessSetProperties (db : Database) (op : WitnessSetProperties) :
    Checked Database := do
  assert (op.key ≠ none) "No signing key provided"
  op.accountCreationFee.forM fun fee => do
    assert (fee.symbol = .delta) "account_creation_fee must be in DELTA"
    assert (fee.amount ≥ minAccountCreationFee)
      "account_creation_fee smaller than minimum account creation fee"
  op.maximumBlockSize.forM fun size =>
    assert (size ≥ minBlockSizeLimit) "maximum_block_size smaller than minimum max block size"
  op.dbdInterestRate.forM fun rate =>
    assert (rate ≤ percent100) "dbd_interest_rate must not exceed 100%"
  op.dbdExchangeRate.forM fun rate => do
    assert (rate.base.symbol = .dbd ∧ rate.quote.symbol = .delta)
      "Price feed must be a DELTA/DBD price"
    rate.validate
  op.url.forM fun url => do
    assert (url.utf8ByteSize ≤ maxWitnessUrlLength) "URL is too long"
    assert (url.utf8ByteSize > 0) "URL size must be greater than 0"
  let budget ← validateBudget op.accountSubsidyBudget
  let decay ← validateDecay op.accountSubsidyDecay
  let w ← db.getWitness op.owner
  assert (op.key = some w.signingKey) "'key' does not match witness signing key."
  op.accountCreationFee.forM fun fee =>
    assert (fee.amount ≤ maxAccountCreationFee)
      "account_creation_fee greater than maximum account creation fee"
  return db.modifyWitness op.owner (op.set budget decay)

end DeltaChain.Ledger

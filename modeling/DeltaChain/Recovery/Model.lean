import DeltaChain.Lib.Table
import DeltaChain.Protocol.Authority

/-!
# Authorities of accounts and their recovery

The operations that write the authorities of an account or its recovery account, and what
every block does about them: a recovery request lives for a day, a replaced owner authority can
be used for 30 days to recover the account, and a change of the recovery account takes effect
after 30 days. What the operations that make an account pay for it is not part of this state.
-/

namespace DeltaChain.Recovery

open Lib Protocol Checked

-- # The tables

/-- `account_object`: the fields about recovery. -/
structure Account where
  recoveryAccount : AccountName := ""
  lastAccountRecovery : Nat := 0
deriving DecidableEq

structure AccountAuthority where
  owner : Authority := {}
  active : Authority := {}
  posting : Authority := {}
  lastOwnerUpdate : Nat := 0
deriving DecidableEq

/-- `account_recovery_request_object`. -/
structure RecoveryRequest where
  newOwnerAuthority : Authority
  expires : Nat
deriving DecidableEq

/-- `owner_authority_history_object`. -/
structure OwnerHistory where
  account : AccountName
  previousOwnerAuthority : Authority
  lastValidTime : Nat
deriving DecidableEq

/-- `change_recovery_account_request_object`. -/
structure ChangeRequest where
  recoveryAccount : AccountName
  effectiveOn : Nat
deriving DecidableEq

/-- The state. The history is in the order of the ids; `topWitness` is the first name of
`by_vote_name`. -/
structure State where
  headBlockNumber : Nat
  time : Nat
  hardfork : Nat
  topWitness : AccountName
  accounts : Table AccountName Account
  authorities : Table AccountName AccountAuthority
  recoveryRequests : Table AccountName RecoveryRequest
  ownerHistory : List OwnerHistory
  changeRequests : Table AccountName ChangeRequest

variable (s : State)

namespace State

def getAccount (a : AccountName) : Checked Account :=
  get (s.accounts.find? a) "unknown key"

/-- `get< account_authority_object, by_account >`. -/
def getAuthority (a : AccountName) : Checked AccountAuthority :=
  get (s.authorities.find? a) "unknown key"

def hasHardfork (n : Nat) : Prop := n ≤ s.hardfork

instance (s : State) (n : Nat) : Decidable (s.hasHardfork n) := Nat.decLe _ _

def modifyAuthority (a : AccountName) (f : AccountAuthority → AccountAuthority) : State :=
  { s with authorities := s.authorities.modify a f }

def updateOwnerAuthority (a : AccountName) (owner : Authority) : Checked State := do
  let auth ← s.getAuthority a
  let s :=
    if ownerAuthHistoryTrackingStartBlockNum ≤ s.headBlockNumber then
      { s with ownerHistory := s.ownerHistory ++ [⟨a, auth.owner, s.time⟩] }
    else s
  return s.modifyAuthority a fun auth => { auth with owner := owner, lastOwnerUpdate := s.time }

-- # New accounts

def validateAccountName (name : AccountName) : Checked Unit :=
  assert (isValidAccountName name = true) ("Account name " ++ name ++ " is invalid")

def validateAuthSize (auth : Authority) : Checked Unit :=
  assert (auth.numAuths ≤ maxAuthorityMembership)
    ("Authority membership exceeded. Max: 10 Current: " ++ toString auth.numAuths)

/-- `authority::classification`, of the authorities that an account has. -/
inductive Classification where
  | owner
  | active
  | posting
deriving DecidableEq

def Classification.name : Classification → String
  | .owner => "owner"
  | .active => "active"
  | .posting => "posting"

def verifyAuthorityAccountsExist (auth : Authority) (account : AccountName)
    (cls : Classification) : Checked Unit :=
  auth.accountAuths.forM fun m =>
    assert ((s.accounts.find? m.1).isSome = true)
      ("New " ++ cls.name ++ " authority on account " ++ account ++
        " references non-existing account " ++ m.1)

/-- The loop of `get_account` over the members of an authority. -/
def getMembers (auth : Authority) : Checked Unit :=
  auth.accountAuths.forM fun m => do
    let _ ← s.getAccount m.1

/-- The recovery account that `initialize_account_object` sets. -/
def initialRecoveryAccount (recoveryAccount : AccountName) : AccountName :=
  if s.hasHardfork hardfork011 then
    if ¬ s.hasHardfork hardfork020 ∨ recoveryAccount ≠ tempAccount then recoveryAccount else ""
  else "delta"

/-- The two objects of a new account. -/
def createAccount (name recoveryAccount : AccountName)
    (owner active posting : Authority) : Checked State := do
  let accounts ← get
    (s.accounts.insert? name { recoveryAccount := s.initialRecoveryAccount recoveryAccount })
    "could not insert object, most likely a uniqueness constraint was violated"
  let authorities ← get (s.authorities.insert? name { owner, active, posting })
    "could not insert object, most likely a uniqueness constraint was violated"
  return { s with accounts, authorities }

/-- `account_create_operation::validate` and its evaluator, without the fee. -/
def accountCreate (producing : Bool) (creator newAccountName : AccountName)
    (owner active posting : Authority) : Checked State := do
  validateAccountName newAccountName
  owner.validate
  active.validate
  let _ ← s.getAccount creator
  whenever (producing ∨ s.hasHardfork hardfork020) do
    validateAuthSize owner
    validateAuthSize active
    validateAuthSize posting
  whenever (s.hasHardfork hardfork015) do
    s.verifyAuthorityAccountsExist owner newAccountName .owner
    s.verifyAuthorityAccountsExist active newAccountName .active
    s.verifyAuthorityAccountsExist posting newAccountName .posting
  s.createAccount newAccountName creator owner active posting

/-- `account_create_with_delegation_operation::validate` and its evaluator, without the fee and
the delegation. -/
def accountCreateWithDelegation (producing : Bool)
    (creator newAccountName : AccountName) (owner active posting : Authority) : Checked State := do
  validateAccountName newAccountName
  validateAccountName creator
  owner.validate
  active.validate
  posting.validate
  assert (¬ s.hasHardfork hardfork020)
    "Account creation with delegation is deprecated as of Hardfork 20"
  let _ ← s.getAccount creator
  whenever (producing ∨ s.hasHardfork hardfork020) do
    validateAuthSize owner
    validateAuthSize active
    validateAuthSize posting
  s.getMembers owner
  s.getMembers active
  s.getMembers posting
  s.createAccount newAccountName creator owner active posting

/-- `create_claimed_account_operation::validate` and its evaluator, without the count of claimed
accounts. -/
def createClaimedAccount (creator newAccountName : AccountName)
    (owner active posting : Authority) : Checked State := do
  validateAccountName creator
  validateAccountName newAccountName
  owner.validate
  active.validate
  posting.validate
  validateAuthSize owner
  validateAuthSize active
  validateAuthSize posting
  assert (s.hasHardfork hardfork020)
    "create_claimed_account_operation is not enabled until hardfork 20."
  let _ ← s.getAccount creator
  s.verifyAuthorityAccountsExist owner newAccountName .owner
  s.verifyAuthorityAccountsExist active newAccountName .active
  s.verifyAuthorityAccountsExist posting newAccountName .posting
  s.createAccount newAccountName creator owner active posting

/-- The account that `pow` and `pow2` make for a worker that has none, without the checks of the
work. -/
def mineAccount (worker : AccountName) (key : PublicKey) : Checked State :=
  if (s.accounts.find? worker).isSome then .ok s
  else
    let auth : Authority := { weightThreshold := 1, keyAuths := [(key, 1)] }
    s.createAccount worker "" auth auth auth

-- # Updates and recovery

/-- A check of an authority that an operation may leave out. -/
def whenGiven (auth : Option Authority) (check : Authority → Checked Unit) : Checked Unit :=
  match auth with
  | some auth => check auth
  | none => .ok ()

/-- The part of `account_update` about a new owner authority. -/
def replaceOwner (account : AccountName) (auth : AccountAuthority) :
    Option Authority → Checked State
  | some newOwner => do
    whenever (s.hasHardfork hardfork011) do
      assert (auth.lastOwnerUpdate + ownerUpdateLimit < s.time)
        "Owner authority can only be updated once an hour."
    whenever (s.hasHardfork hardfork015) do
      s.verifyAuthorityAccountsExist newOwner account .owner
    s.updateOwnerAuthority account newOwner
  | none => .ok s

/-- `account_update_operation::validate` and its evaluator. -/
def accountUpdate (producing : Bool) (account : AccountName)
    (owner active posting : Option Authority) : Checked State := do
  validateAccountName account
  whenever (s.hasHardfork hardfork01) do
    assert (account ≠ tempAccount) "Cannot update temp account."
  whenever (s.hasHardfork hardfork015) do
    whenGiven posting Authority.validate
  let _ ← s.getAccount account
  let auth ← s.getAuthority account
  whenever (producing ∨ s.hasHardfork hardfork020) do
    whenGiven owner validateAuthSize
    whenGiven active validateAuthSize
    whenGiven posting validateAuthSize
  let s ← s.replaceOwner account auth owner
  whenever (s.hasHardfork hardfork015) do
    whenGiven active fun auth => s.verifyAuthorityAccountsExist auth account .active
    whenGiven posting fun auth => s.verifyAuthorityAccountsExist auth account .posting
  return s.modifyAuthority account fun auth =>
    { auth with active := active.getD auth.active, posting := posting.getD auth.posting }

/-- Who may request the recovery of an account: its recovery account, or the top witness if it
has none. -/
def recoveryPartner (account : Account) : AccountName :=
  if account.recoveryAccount.length ≠ 0 then account.recoveryAccount else s.topWitness

/-- The message if somebody else asks. -/
def partnerMessage (account : Account) : String :=
  if account.recoveryAccount.length ≠ 0 then
    "Cannot recover an account that does not have you as there recovery partner."
  else "Top witness must recover an account with no recovery partner."

/-- `request_account_recovery_operation::validate` and its evaluator. -/
def requestAccountRecovery (producing : Bool)
    (recoveryAccount accountToRecover : AccountName) (newOwnerAuthority : Authority) :
    Checked State := do
  validateAccountName recoveryAccount
  validateAccountName accountToRecover
  newOwnerAuthority.validate
  let account ← s.getAccount accountToRecover
  assert (s.recoveryPartner account = recoveryAccount) (partnerMessage account)
  let request : RecoveryRequest :=
    ⟨newOwnerAuthority, s.time + accountRecoveryRequestExpirationPeriod⟩
  if (s.recoveryRequests.find? accountToRecover).isNone then
    -- a new request
    assert (newOwnerAuthority.isImpossible = false) "Cannot recover using an impossible authority."
    assert (newOwnerAuthority.weightThreshold ≠ 0) "Cannot recover using an open authority."
    whenever (producing ∨ s.hasHardfork hardfork020) do
      validateAuthSize newOwnerAuthority
    whenever (s.hasHardfork hardfork015) do
      s.getMembers newOwnerAuthority
    return { s with recoveryRequests := s.recoveryRequests.emplace accountToRecover request }
  else if newOwnerAuthority.weightThreshold = 0 then
    -- an open authority cancels the request
    return { s with recoveryRequests := s.recoveryRequests.erase accountToRecover }
  else
    -- a changed request, whose size is not looked at
    assert (newOwnerAuthority.isImpossible = false) "Cannot recover using an impossible authority."
    whenever (s.hasHardfork hardfork015) do
      s.getMembers newOwnerAuthority
    return { s with recoveryRequests := s.recoveryRequests.modify accountToRecover fun _ => request }

/-- `recover_account_operation::validate` and its evaluator. -/
def recoverAccount (accountToRecover : AccountName)
    (newOwnerAuthority recentOwnerAuthority : Authority) : Checked State := do
  validateAccountName accountToRecover
  assert (newOwnerAuthority ≠ recentOwnerAuthority)
    "Cannot set new owner authority to the recent owner authority"
  assert (newOwnerAuthority.isImpossible = false) "new owner authority cannot be impossible"
  assert (recentOwnerAuthority.isImpossible = false) "recent owner authority cannot be impossible"
  assert (newOwnerAuthority.weightThreshold ≠ 0) "new owner authority cannot be trivial"
  newOwnerAuthority.validate
  recentOwnerAuthority.validate
  let account ← s.getAccount accountToRecover
  whenever (s.hasHardfork hardfork012) do
    assert (account.lastAccountRecovery + ownerUpdateLimit < s.time)
      "Owner authority can only be updated once an hour."
  let request ← get (s.recoveryRequests.find? accountToRecover)
    "There are no active recovery requests for this account."
  assert (request.newOwnerAuthority = newOwnerAuthority)
    "New owner authority does not match recovery request."
  assert (s.ownerHistory.any (fun h => h.account = accountToRecover ∧
      h.previousOwnerAuthority = recentOwnerAuthority) = true)
    "Recent authority not found in authority history."
  let s := { s with recoveryRequests := s.recoveryRequests.erase accountToRecover }
  let s ← s.updateOwnerAuthority accountToRecover newOwnerAuthority
  return { s with accounts := s.accounts.modify accountToRecover fun a =>
    { a with lastAccountRecovery := s.time } }

/-- `change_recovery_account_operation::validate` and its evaluator. -/
def changeRecoveryAccount (accountToRecover newRecoveryAccount : AccountName) : Checked State := do
  validateAccountName accountToRecover
  validateAccountName newRecoveryAccount
  let _ ← s.getAccount newRecoveryAccount
  let account ← s.getAccount accountToRecover
  let request : ChangeRequest := ⟨newRecoveryAccount, s.time + ownerAuthRecoveryPeriod⟩
  if (s.changeRequests.find? accountToRecover).isNone then
    return { s with changeRequests := s.changeRequests.emplace accountToRecover request }
  else if account.recoveryAccount ≠ newRecoveryAccount then
    return { s with changeRequests := s.changeRequests.modify accountToRecover fun _ => request }
  else
    return { s with changeRequests := s.changeRequests.erase accountToRecover }

-- # Blocks and hardforks

/-- One round of the last loop of `account_recovery_processing`. -/
def applyChangeRequest (e : AccountName × ChangeRequest) : Checked State := do
  let _ ← s.getAccount e.1
  return { s with
    accounts := s.accounts.modify e.1 fun a => { a with recoveryAccount := e.2.recoveryAccount }
    changeRequests := s.changeRequests.erase e.1 }

/-- `account_recovery_processing`. Requests are indexed by the date they end at, so the first and
the last loop go through all that are due; the history is indexed by id. -/
def accountRecoveryProcessing : Checked State :=
  let s := { s with
    recoveryRequests := s.recoveryRequests.filter fun _ req => decide (s.time < req.expires) }
  let s := { s with
    ownerHistory := s.ownerHistory.dropWhile fun h =>
      decide (h.lastValidTime + ownerAuthRecoveryPeriod < s.time) }
  (s.changeRequests.entries.filter fun e => decide (e.2.effectiveOn ≤ s.time)).foldlM
    applyChangeRequest s

/-- The end of a block: the head moves on, and the requests are processed. -/
def block (time : Nat) : Checked State := do
  assert (s.time < time) "head_block_time() < next_block.timestamp"
  accountRecoveryProcessing { s with headBlockNumber := s.headBlockNumber + 1, time := time }

/-- The key that hardfork 9 means to give to compromised accounts. It has the prefix of another
chain, so `public_key_type` throws. -/
def compromisedKey : String := "STM7sw22HqsXbz7D2CmJfmMwt9rimtk518dRzsR1f8Cgw52dQR1pR"

/-- One round of the loop of hardfork 9 over the compromised accounts. -/
def resetCompromised (a : AccountName) : Checked State := do
  assert (s.hardfork + 1 = hardfork09) "hardfork 9 is being applied"
  if (s.accounts.find? a).isNone then return s
  else
    let key ← publicKeyOfText compromisedKey
    let auth : Authority := { weightThreshold := 1, keyAuths := [(key, 1)] }
    let s ← s.updateOwnerAuthority a auth
    return s.modifyAuthority a ({ · with active := auth, posting := auth })

/-- What the next hardfork does to the tables, apart from the loop of hardfork 9. -/
def applyHardfork : State :=
  let s := { s with hardfork := s.hardfork + 1 }
  if s.hardfork = hardfork012 then
    let close := fun (auth : AccountAuthority) => { auth with posting := { weightThreshold := 1 } }
    ((s.modifyAuthority minerAccount close).modifyAuthority nullAccount close).modifyAuthority
      tempAccount close
  else s

end State

-- # Runs

/-- The operations that write these tables. -/
inductive Operation where
  | accountCreate (creator newAccountName : AccountName) (owner active posting : Authority)
  | accountCreateWithDelegation (creator newAccountName : AccountName)
      (owner active posting : Authority)
  | createClaimedAccount (creator newAccountName : AccountName) (owner active posting : Authority)
  | pow (worker : AccountName) (key : PublicKey)
  | accountUpdate (account : AccountName) (owner active posting : Option Authority)
  | requestAccountRecovery (recoveryAccount accountToRecover : AccountName)
      (newOwnerAuthority : Authority)
  | recoverAccount (accountToRecover : AccountName)
      (newOwnerAuthority recentOwnerAuthority : Authority)
  | changeRecoveryAccount (accountToRecover newRecoveryAccount : AccountName)
deriving DecidableEq

/-- The evaluators. `producing` is `is_producing()`. -/
def State.apply (producing : Bool) : Operation → Checked State
  | .accountCreate creator name owner active posting =>
    s.accountCreate producing creator name owner active posting
  | .accountCreateWithDelegation creator name owner active posting =>
    s.accountCreateWithDelegation producing creator name owner active posting
  | .createClaimedAccount creator name owner active posting =>
    s.createClaimedAccount creator name owner active posting
  | .pow worker key => s.mineAccount worker key
  | .accountUpdate account owner active posting =>
    s.accountUpdate producing account owner active posting
  | .requestAccountRecovery recovery account newOwner =>
    s.requestAccountRecovery producing recovery account newOwner
  | .recoverAccount account newOwner recentOwner => s.recoverAccount account newOwner recentOwner
  | .changeRecoveryAccount account newRecovery => s.changeRecoveryAccount account newRecovery

/-- What happens to the tables: an operation, the end of a block, a round of hardfork 9, a
hardfork, or votes that put another witness on top. -/
inductive Event where
  | operation (producing : Bool) (op : Operation)
  | block (time : Nat)
  | compromised (account : AccountName)
  | hardfork
  | votes (top : AccountName)
deriving DecidableEq

def step : Event → Checked State
  | .operation producing op => s.apply producing op
  | .block time => s.block time
  | .compromised a => s.resetCompromised a
  | .hardfork => .ok s.applyHardfork
  | .votes top => .ok { s with topWitness := top }

/-- The authorities that `init_genesis` gives to the first witness. -/
def initAuthority (key : PublicKey) : Authority where
  weightThreshold := 1
  keyAuths := [(key, 1)]

/-- The tables that `init_genesis` makes: nobody can sign for the miners and the null account, and
anybody for `temp`. -/
def genesis (key : PublicKey) : State where
  headBlockNumber := 0
  time := genesisTime
  hardfork := 0
  topWitness := initMinerName
  accounts := (((Table.empty.emplace minerAccount {}).emplace nullAccount {}).emplace
    tempAccount {}).emplace initMinerName {}
  authorities := (((Table.empty.emplace minerAccount
    { owner := { weightThreshold := 1 }, active := { weightThreshold := 1 } }).emplace nullAccount
    { owner := { weightThreshold := 1 }, active := { weightThreshold := 1 } }).emplace
    tempAccount {}).emplace initMinerName
    { owner := initAuthority key, active := initAuthority key, posting := initAuthority key }
  recoveryRequests := Table.empty
  ownerHistory := []
  changeRequests := Table.empty

/-- The states after runs that were all accepted. -/
abbrev exec : State → List Event → Option State := Run.exec (Run.checked step)

end DeltaChain.Recovery

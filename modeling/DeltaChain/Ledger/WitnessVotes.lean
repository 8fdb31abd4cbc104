import DeltaChain.Ledger.Objects

/-!
# Witness votes

The functions of `database` that keep the witnesses' votes and the votes proxied to an
account up to date, and the operations of accounts that vote, set a proxy or give up their
voting rights. The hardfork 20 rules are in force.

A change of an account's voting power goes up the chain of its proxies. At distance `d + 1`
it is added to the votes that come from `i + d + 1` proxies below, as long as the array
reaches, and the account at the end of the chain passes what it can still see on to the
witnesses it votes for (`adjustProxiedWitnessVotes`).
-/

namespace DeltaChain.Ledger

open Lib Protocol Checked

/-- The changes of the voting power of an account and of what is proxied to it. -/
abbrev VoteDelta := Fin (maxProxyRecursionDepth + 1) → Int

namespace Account

/-- The whole voting power of an account, by distance. -/
def votingPower (a : Account) : VoteDelta := Fin.cons a.vestingShares a.proxiedVsfVotes

/-- The loop over `proxied_vsf_votes` in `adjust_proxied_witness_votes`: entry `i + depth`
changes by `delta[i]`. -/
def addProxied (a : Account) (delta : VoteDelta) (depth : Nat) : Account :=
  { a with proxiedVsfVotes := fun j =>
      if depth ≤ j then
        a.proxiedVsfVotes j + delta ⟨j - depth, Nat.lt_succ_of_le ((Nat.sub_le _ _).trans j.isLt.le)⟩
      else a.proxiedVsfVotes j }

/-- Entry `depth` of `proxied_vsf_votes` changes by `delta`. -/
def addProxied1 (a : Account) (delta : Int) (depth : Nat) : Account :=
  { a with proxiedVsfVotes := fun j =>
      if j.val = depth then a.proxiedVsfVotes j + delta else a.proxiedVsfVotes j }

end Account

variable (db : Database)

namespace Database

-- # Votes of witnesses

/-- What `adjust_witness_vote` makes of a witness at the virtual time `now`: it moves on to `now`
with its old votes and is scheduled again with the new ones. -/
def adjustedWitness (w : Witness) (now : Nat) (delta : Int) : Witness :=
  let elapsed := u128 ((now : Int) - w.virtualLastUpdate)
  let deltaPos := u128 (w.votes * elapsed)
  let virtualPosition := u128 (w.virtualPosition + deltaPos)
  let votes := w.votes + delta
  let lap := u128 ((virtualScheduleLapLength2 : Int) - virtualPosition) / u128 (votes + 1)
  let scheduled := u128 (now + lap)
  { w with
    votes := votes
    virtualPosition := virtualPosition
    virtualLastUpdate := now
    -- a sum that has wrapped around lies in the past
    virtualScheduledTime := if scheduled < now then 2 ^ 128 - 1 else scheduled }

def adjustWitnessVote (witness : AccountName) (delta : Int) : Checked Database := do
  let w ← db.getWitness witness
  assert (w.votes + delta ≤ db.props.totalVestingShares) "w.votes <= total_vesting_shares.amount"
  assert (w.votes + delta + 1 ≠ 0) "Division by zero."
  return db.modifyWitness witness fun _ => adjustedWitness w db.currentVirtualTime delta

/-- The witnesses an account votes for. -/
def votedFor (account : AccountName) : List AccountName :=
  (db.witnessVotes.keys.filter fun k => k.1 = account).map Prod.snd

def adjustWitnessVotes (account : AccountName) (delta : Int) : Checked Database :=
  (db.votedFor account).foldlM (fun db witness => db.adjustWitnessVote witness delta) db

/-- `adjust_proxied_witness_votes` with an array of changes, where `levels` more levels may
be climbed and the depth is what is missing to the maximum. -/
def adjustProxiedLevels (delta : VoteDelta) :
    Nat → Database → AccountName → Checked Database
  | levels, db, account => do
    let a ← db.getAccount account
    let depth := maxProxyRecursionDepth - levels
    if a.proxy ≠ proxyToSelfAccount then
      match levels with
      -- nested proxies are not supported, the vote will not propagate
      | 0 => return db
      | levels + 1 => do
        let _ ← db.getAccount a.proxy
        adjustProxiedLevels delta levels
          (db.modifyAccount a.proxy fun p => p.addProxied delta depth) a.proxy
    else
      db.adjustWitnessVotes account (∑ i, if i.val + depth ≤ maxProxyRecursionDepth then delta i else 0)

/-- `adjust_proxied_witness_votes` with an array of changes. -/
def adjustProxiedWitnessVotes (account : AccountName) (delta : VoteDelta) :
    Checked Database := adjustProxiedLevels delta maxProxyRecursionDepth db account

/-- The second form of `adjust_proxied_witness_votes`, for a change of one account's shares. -/
def adjustProxiedLevels1 (delta : Int) : Nat → Database → AccountName → Checked Database
  | levels, db, account => do
    let a ← db.getAccount account
    if a.proxy ≠ proxyToSelfAccount then
      match levels with
      | 0 => return db
      | levels + 1 => do
        let _ ← db.getAccount a.proxy
        let depth := maxProxyRecursionDepth - (levels + 1)
        adjustProxiedLevels1 delta levels
          (db.modifyAccount a.proxy fun p => p.addProxied1 delta depth) a.proxy
    else db.adjustWitnessVotes account delta

/-- The second form of `adjust_proxied_witness_votes`. -/
def adjustProxiedWitnessVotes1 (account : AccountName) (delta : Int) :
    Checked Database := adjustProxiedLevels1 delta maxProxyRecursionDepth db account

def clearWitnessVotes (account : AccountName) : Database :=
  { db with
    witnessVotes := db.witnessVotes.filter fun k _ => decide (k.1 ≠ account)
    accounts := db.accounts.modify account fun a => { a with witnessesVotedFor := 0 } }

/-- The body of the loop over the accounts in `retally_witness_votes`. -/
def retallyAccount (e : AccountName × Account) : Checked Database :=
  if e.2.proxy ≠ proxyToSelfAccount then return db
  else (db.votedFor e.1).foldlM
    (fun db witness => db.adjustWitnessVote witness e.2.witnessVoteWeight) db

/-- All votes counted from nothing. -/
def retallyWitnessVotes : Checked Database :=
  let witnesses := db.witnesses.map fun w => { w with votes := 0, virtualPosition := 0 }
  db.accounts.entries.foldlM retallyAccount { db with witnesses := witnesses }

-- # Operations

def accountWitnessVote (account witness : AccountName) (approve : Bool) : Checked Database := do
  let voter ← db.getAccount account
  assert (voter.proxy = proxyToSelfAccount)
    "A proxy is currently set, please clear the proxy before voting for a witness."
  assert (approve = true → voter.canVote = true) "Account has declined its voting rights."
  let _ ← db.getWitness witness
  if db.witnessVotes.find? (account, witness) = none then do
    assert (approve = true) "Vote doesn't exist, user must indicate a desire to approve witness."
    assert (voter.witnessesVotedFor < maxAccountWitnessVotes)
      "Account has voted for too many witnesses."
    let db := { db with witnessVotes := db.witnessVotes.emplace (account, witness) () }
    let db ← db.adjustWitnessVote witness voter.witnessVoteWeight
    return db.modifyAccount account fun a => { a with witnessesVotedFor := a.witnessesVotedFor + 1 }
  else do
    assert (approve = false)
      "Vote currently exists, user must indicate a desire to reject witness."
    let db ← db.adjustWitnessVote witness (-voter.witnessVoteWeight)
    let db := db.modifyAccount account fun a =>
      { a with witnessesVotedFor := a.witnessesVotedFor - 1 }
    return { db with witnessVotes := db.witnessVotes.erase (account, witness) }

/-- The loop over the chain of the new proxy: `proxyChain` holds the accounts met so far and
`room` is how many more may be met. -/
def checkProxyChain (db : Database) :
    (room : Nat) → (proxyChain : List AccountName) → (cprox : AccountName) → Checked Unit
  | room, proxyChain, cprox => do
    let a ← db.getAccount cprox
    if a.proxy ≠ proxyToSelfAccount then do
      let _ ← db.getAccount a.proxy
      assert (a.proxy ∉ proxyChain) "This proxy would create a proxy loop."
      match room with
      | 0 => .error "Proxy chain is too long."
      | room + 1 => checkProxyChain db room (a.proxy :: proxyChain) a.proxy
    else return ()

/-- `account_witness_proxy_operation::validate` and its evaluator. -/
def accountWitnessProxy (account proxy : AccountName) : Checked Database := do
  assert (proxy ≠ account) "Cannot proxy to self"
  let a ← db.getAccount account
  assert (a.proxy ≠ proxy) "Proxy must change."
  assert (a.canVote = true) "Account has declined the ability to vote and cannot proxy votes."
  -- remove all current votes
  let db ← db.adjustProxiedWitnessVotes account (-a.votingPower)
  if proxy ≠ proxyToSelfAccount then do
    let _ ← db.getAccount proxy
    db.checkProxyChain (maxProxyRecursionDepth - 2) [proxy, account] proxy
    let db := db.clearWitnessVotes account
    let db := db.modifyAccount account fun a => { a with proxy := proxy }
    -- add all new votes
    db.adjustProxiedWitnessVotes account a.votingPower
  else return db.modifyAccount account fun a => { a with proxy := proxy }

def declineVotingRights (account : AccountName) (decline : Bool) : Checked Database := do
  let _ ← db.getAccount account
  if decline then do
    assert (db.declineVotingRightsRequests.find? account = none)
      "Cannot create new request because one already exists."
    let effectiveDate := db.headBlockTime + ownerAuthRecoveryPeriod
    return { db with declineVotingRightsRequests :=
      db.declineVotingRightsRequests.emplace account effectiveDate }
  else do
    assert (db.declineVotingRightsRequests.find? account ≠ none)
      "Cannot cancel the request because it does not exist."
    return { db with declineVotingRightsRequests := db.declineVotingRightsRequests.erase account }

/-- One round of `process_decline_voting_rights`. -/
def declineVotingRightsNow (account : AccountName) : Checked Database := do
  let a ← db.getAccount account
  -- remove all current votes
  let db ← db.adjustProxiedWitnessVotes account (-a.votingPower)
  let db := db.clearWitnessVotes account
  let db := db.modifyAccount account fun a =>
    { a with canVote := false, proxy := proxyToSelfAccount }
  return { db with declineVotingRightsRequests := db.declineVotingRightsRequests.erase account }

/-- `process_decline_voting_rights`. Every round takes the request with the earliest date,
so each request that is due gets its round; they are taken in that order. -/
def processDeclineVotingRights : Checked Database :=
  let due := db.declineVotingRightsRequests.entries.filter fun e => decide (e.2 ≤ db.headBlockTime)
  (due.insertionSort fun e f => e.2 < f.2 ∨ e.2 = f.2 ∧ e.1 ≤ f.1).foldlM
    (fun db e => db.declineVotingRightsNow e.1) db

/-- `witness_update_operation`, with the three fields of its `legacy_chain_properties`. -/
structure WitnessUpdate where
  owner : AccountName
  blockSigningKey : Option Nat := none
  accountCreationFee : Int := minAccountCreationFee
  maximumBlockSize : Nat := minBlockSizeLimit * 2
  dbdInterestRate : Nat := defaultDbdInterestRate

/-- What the owner of a witness sets. -/
def WitnessUpdate.set (op : WitnessUpdate) (w : Witness) : Witness :=
  { w with
    signingKey := op.blockSigningKey
    props := { w.props with
      accountCreationFee := op.accountCreationFee
      maximumBlockSize := op.maximumBlockSize
      dbdInterestRate := op.dbdInterestRate } }

/-- `witness_update_operation::validate` and its evaluator. -/
def witnessUpdate (op : WitnessUpdate) : Checked Database := do
  assert (op.accountCreationFee ≥ minAccountCreationFee)
    "account_creation_fee.amount >= DELTA_MIN_ACCOUNT_CREATION_FEE"
  assert (op.maximumBlockSize ≥ minBlockSizeLimit) "maximum_block_size >= DELTA_MIN_BLOCK_SIZE_LIMIT"
  assert (op.dbdInterestRate ≤ percent100) "dbd_interest_rate <= DELTA_100_PERCENT"
  let _ ← db.getAccount op.owner
  assert (op.accountCreationFee ≤ maxAccountCreationFee)
    "account_creation_fee greater than maximum account creation fee"
  assert (op.maximumBlockSize ≤ softMaxBlockSize) "Max block size cannot be more than 2MiB"
  if db.witnesses.find? op.owner = none then
    let witness := op.set { id := db.nextWitnessId }
    return { db with
      witnesses := db.witnesses.emplace op.owner witness
      nextWitnessId := db.nextWitnessId + 1 }
  else return db.modifyWitness op.owner op.set

end Database

end DeltaChain.Ledger

import DeltaChain.Lib.Trace
import DeltaChain.Recovery.Model

/-!
# The lookup of accounts by their keys

`account_by_key_plugin`: before an operation that changes authorities the plugin remembers the keys
of the account, and after it it compares them with the new ones and changes its table. What the
operations do to authorities is the model of `Recovery`.

The table is in the undoable state, but the remembered keys are not: what operations that were undone
have left there is arbitrary (`Event.undone`).
-/

namespace DeltaChain.AccountByKey

open Lib Protocol Checked
open Recovery (AccountAuthority Operation)

-- # The plugin

/-- The chain, the table `key_lookup_index` and the set `cached_keys`. -/
structure State where
  chain : Recovery.State
  keyLookup : Table (PublicKey × AccountName) Unit
  cachedKeys : List PublicKey

/-- The keys in the three authorities of an account. -/
def keys (auth : AccountAuthority) : List PublicKey :=
  ((auth.owner.keyAuths ++ (auth.active.keyAuths ++ auth.posting.keyAuths)).map Prod.fst).dedup

variable (s : State) (compromised : List AccountName)

namespace State

def clearCache : State := { s with cachedKeys := [] }

def cacheAuths (auth : AccountAuthority) : State :=
  { s with cachedKeys := s.cachedKeys ∪ keys auth }

/-- One round of the first loop of `update_key_lookup`: a key that was not in the authority is added,
and one that was is not to be deleted. -/
def lookUpKey (account : AccountName) (s : State) (key : PublicKey) : State :=
  if key ∉ s.cachedKeys then { s with keyLookup := s.keyLookup.emplace (key, account) () }
  else { s with cachedKeys := s.cachedKeys.filter (· ≠ key) }

/-- One round of the second loop. -/
def dropKey (account : AccountName) (s : State) (key : PublicKey) : State :=
  { s with keyLookup := s.keyLookup.erase (key, account) }

def updateKeyLookup (account : AccountName) (auth : AccountAuthority) : State :=
  let s := (keys auth).foldl (lookUpKey account) s
  let s := s.cachedKeys.foldl (dropKey account) s
  s.clearCache

/-- Something is done with the authorities of an account, if there is such an account. -/
def withAuths (account : AccountName) (f : State → AccountAuthority → State) : State :=
  match s.chain.authorities.find? account with
  | some auth => f s auth
  | none => s

/-- `pre_operation_visitor`. -/
def preOperation : Operation → State
  | .accountCreate .. => s.clearCache
  | .accountCreateWithDelegation .. => s.clearCache
  | .accountUpdate account .. => s.clearCache.withAuths account cacheAuths
  | .recoverAccount account .. => s.clearCache.withAuths account cacheAuths
  | .pow .. => s.clearCache
  | _ => s

/-- `post_operation_visitor`. -/
def postOperation : Operation → State
  | .accountCreate _ name .. => s.withAuths name (updateKeyLookup · name)
  | .accountCreateWithDelegation _ name .. => s.withAuths name (updateKeyLookup · name)
  | .accountUpdate account .. => s.withAuths account (updateKeyLookup · account)
  | .recoverAccount account .. => s.withAuths account (updateKeyLookup · account)
  | .pow worker _ => s.withAuths worker (updateKeyLookup · worker)
  | _ => s

/-- One round of the loop over the compromised accounts. -/
def lookUpCompromised (account : AccountName) : Checked State :=
  if (s.chain.accounts.find? account).isNone then return s
  else do
    let key ← publicKeyOfText Recovery.State.compromisedKey
    let keyLookup ← get (s.keyLookup.insert? (key, account) ())
      "could not insert object, most likely a uniqueness constraint was violated"
    return { s with keyLookup }

/-- `post_operation_visitor`, for the operation of a hardfork. -/
def postHardfork (s : State) : Checked State :=
  if s.chain.hardfork = hardfork09 then compromised.foldlM lookUpCompromised s else return s

end State

-- # Runs

/-- What happens: an operation is applied; operations are tried and undone, which leaves keys in the
cache; a block ends; the next hardfork is applied; the first witness changes. -/
inductive Event where
  | operation (producing : Bool) (op : Operation)
  | undone (cachedKeys : List PublicKey)
  | block (time : Nat)
  | hardfork
  | votes (top : AccountName)
deriving DecidableEq

/-- `apply_hardfork`, with the loop of hardfork 9. -/
def applyHardfork (chain : Recovery.State) : Checked Recovery.State := do
  let chain ← if chain.hardfork + 1 = hardfork09 then
    compromised.foldlM Recovery.State.resetCompromised chain else pure chain
  return chain.applyHardfork

/-- One step. `compromised` is the list of hardfork 9. -/
def step (s : State) : Event → Checked State
  | .operation producing op => do
    let s := s.preOperation op
    let chain ← s.chain.apply producing op
    return { s with chain }.postOperation op
  | .undone cachedKeys => return { s with cachedKeys }
  | .block time => do
    let chain ← s.chain.block time
    return { s with chain }
  | .hardfork => do
    let chain ← applyHardfork compromised s.chain
    { s with chain }.postHardfork compromised
  | .votes top => return { s with chain := { s.chain with topWitness := top } }

/-- The plugin is on from genesis. -/
def genesis (key : PublicKey) : State := ⟨Recovery.genesis key, Table.empty, []⟩

/-- The states after runs that were all accepted. -/
abbrev exec : State → List Event → Option State :=
  Run.exec (Run.checked (step compromised))

end DeltaChain.AccountByKey

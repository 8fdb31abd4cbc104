import DeltaChain.Protocol.Authority

/-!
# The signature check

`sign_state` and `verify_authority`. The check of an authority goes through its keys and then
through its member accounts, whose own authorities it checks in turn down to `max_recursion`
levels; an account found to have signed is remembered in `approved_by` for the rest of the
transaction. `examined` lists the authorities that were looked at: nothing reads it.
-/

namespace DeltaChain.Signing

open Lib Protocol Checked

/-- `authority_getter`: fails for an account that does not exist. -/
abbrev Getter := AccountName → Checked Authority

/-- The three getters of a check: `get_active`, `get_owner` and `get_posting`. -/
structure Tables where
  active : Getter
  owner : Getter
  posting : Getter

/-- One getter for all three. -/
def Tables.all (getter : Getter) : Tables := ⟨getter, getter, getter⟩

/-- The authorities of a table given by its entries: threshold, accounts and keys. -/
def authoritiesOf (entries : List (AccountName × Authority)) : Getter :=
  fun a => Checked.get (entries.lookup a) "unknown key"

/-- The limits of the check. A limit of zero on members or accounts is no limit. -/
structure Limits where
  maxRecursion : Nat := maxSigCheckDepth
  maxMembership : Nat := maxAuthorityMembership
  maxAccountAuths : Nat := maxSigCheckAccounts

structure SignState where
  providedSignatures : List (PublicKey × Bool)
  approvedBy : List AccountName
  availableKeys : List PublicKey
  examined : List Authority := []

namespace SignState

def init (sigs keys : List PublicKey) : SignState where
  providedSignatures := sigs.map fun k => (k, false)
  approvedBy := [tempAccount]
  availableKeys := keys

/-- Whether there is a signature for the key, which is marked as used. -/
def signedBy (k : PublicKey) (s : SignState) : Bool × SignState :=
  if k ∈ s.providedSignatures.map Prod.fst then
    (true, { s with
      providedSignatures := s.providedSignatures.map fun p => if p.1 = k then (k, true) else p })
  else if k ∈ s.availableKeys then
    (true, { s with providedSignatures := s.providedSignatures ++ [(k, true)] })
  else
    (false, s)

def removeUnusedSignatures (s : SignState) : Bool × SignState :=
  (s.providedSignatures.any fun p => !p.2,
    { s with providedSignatures := s.providedSignatures.filter fun p => p.2 })

end SignState

/-- What a check gives: the answer, the count of accounts looked at so far, and the state. -/
abbrev Outcome := Checked (Bool × Nat × SignState)

/-- A check of a member account, with the count of accounts looked at so far. -/
abbrev MemberCheck := AccountName → Nat → SignState → Outcome

variable (lim : Limits)

/-- Whether a loop over members stops at this count. -/
def Limits.full (membership : Nat) : Bool :=
  decide (0 < lim.maxMembership ∧ lim.maxMembership ≤ membership)

/-- `total_weight += weight` in 32 bits, for a member that counts. -/
def addWeight (counts : Bool) (total weight : Nat) : Nat :=
  if counts then (total + weight) % 2 ^ 32 else total

/-- How the loop over the keys ends: with the result of the check, or with the weight and the
number of members so far. -/
inductive KeysEnd where
  | returned (result : Bool)
  | counted (totalWeight membership : Nat)
  deriving DecidableEq

/-- The loop of `check_authority_impl` over `key_auths`. -/
def checkKeys (lim : Limits) (threshold : Nat) :
    List (PublicKey × Nat) → Nat → Nat → SignState → KeysEnd × SignState
  | [], total, membership, s => (.counted total membership, s)
  | (k, weight) :: rest, total, membership, s =>
    let (signed, s) := s.signedBy k
    let total := addWeight signed total weight
    if signed ∧ threshold ≤ total then (.returned true, s)
    else if lim.full (membership + 1) then (.returned false, s)
    else checkKeys lim threshold rest total (membership + 1) s

/-- The loop of `check_authority_impl` over `account_auths`. `member` checks the authority of a
member account with the count of accounts looked at so far; there is none at the deepest
level. -/
def checkAccounts (lim : Limits) (threshold : Nat)
    (member : Option MemberCheck) :
    List (AccountName × Nat) → Nat → Nat → Nat → SignState → Outcome
  | [], total, _, count, s => .ok (decide (threshold ≤ total), count, s)
  | (a, weight) :: rest, total, membership, count, s =>
    if a ∈ s.approvedBy then
      let total := addWeight true total weight
      if threshold ≤ total then .ok (true, count, s)
      else if lim.full (membership + 1) then .ok (false, count, s)
      else checkAccounts lim threshold member rest total (membership + 1) count s
    else
      match member with
      -- `continue` at the deepest level, before the member is counted
      | none => checkAccounts lim threshold member rest total membership count s
      | some check =>
        if 0 < lim.maxAccountAuths ∧ lim.maxAccountAuths ≤ count then .ok (false, count, s)
        else do
          let (approved, count, s) ← check a (count + 1) s
          let s := if approved then { s with approvedBy := a :: s.approvedBy } else s
          let total := addWeight approved total weight
          if approved ∧ threshold ≤ total then .ok (true, count, s)
          else if lim.full (membership + 1) then .ok (false, count, s)
          else checkAccounts lim threshold member rest total (membership + 1) count s

/-- The body of `check_authority_impl`, with the check of the member accounts. -/
def checkWith (lim : Limits)
    (member : Option MemberCheck)
    (auth : Authority) (count : Nat) (s : SignState) : Outcome :=
  match checkKeys lim auth.weightThreshold auth.keyAuths 0 0
      { s with examined := auth :: s.examined } with
  | (.returned result, s) => .ok (result, count, s)
  | (.counted total membership, s) =>
    checkAccounts lim auth.weightThreshold member auth.accountAuths total membership count s

/-- `check_authority_impl`, with `max_recursion - depth` levels to go. -/
def checkAuthorityImpl (lim : Limits) (getMember : Getter) :
    Nat → Authority → Nat → SignState → Outcome
  | 0 => checkWith lim none
  | levels + 1 => checkWith lim (some fun a count s => do
      let auth ← getMember a
      checkAuthorityImpl lim getMember levels auth count s)

/-- `check_authority` of an authority. -/
def checkAuthority (getMember : Getter) (auth : Authority) (s : SignState) :
    Checked (Bool × SignState) := do
  let (result, _, s) ← checkAuthorityImpl lim getMember lim.maxRecursion auth 0 s
  pure (result, s)

/-- `check_authority` of an account, over a version of `check_authority_impl`. -/
def accountBy (impl : Authority → Nat → SignState → Outcome) (getMember : Getter) (id : AccountName)
    (s : SignState) : Checked (Bool × SignState) :=
  if id ∈ s.approvedBy then .ok (true, s)
  else do
    let auth ← getMember id
    let (result, _, s) ← impl auth 1 s
    pure (result, s)

/-- `check_authority` of an account. -/
def checkAccount (getMember : Getter) (id : AccountName) (s : SignState) :
    Checked (Bool × SignState) :=
  accountBy (checkAuthorityImpl lim getMember lim.maxRecursion) getMember id s

/-- The second check, made only if the first one fails: `||` in the source. -/
def orElse (first second : SignState → Checked (Bool × SignState)) (s : SignState) :
    Checked (Bool × SignState) := do
  let (result, s) ← first s
  if result then pure (true, s) else second s

/-- What an operation asks for: `get_required_*_authorities`. -/
structure AuthContainer where
  active : List AccountName := []
  owner : List AccountName := []
  posting : List AccountName := []
  other : List Authority := []

/-- A `flat_set` of names. -/
def flatSet (names : List AccountName) : List AccountName := names.dedup.insertionSort (· ≤ ·)

@[simp] theorem mem_flatSet {names : List AccountName} {a : AccountName} :
    a ∈ flatSet names ↔ a ∈ names := by
  simp [flatSet]

/-- `get_required_auth_visitor`, over all operations. -/
def requiredAuths (containers : List AuthContainer) : AuthContainer where
  active := flatSet (containers.flatMap (·.active))
  owner := flatSet (containers.flatMap (·.owner))
  posting := flatSet (containers.flatMap (·.posting))
  other := containers.flatMap (·.other)

/-- The explicit approvals. -/
structure Approvals where
  active : List AccountName := []
  owner : List AccountName := []
  posting : List AccountName := []

/-- One assertion of `verify_authority`: the check holds, or the message. -/
def require (check : SignState → Checked (Bool × SignState)) (msg : String) (s : SignState) :
    Checked SignState := do
  let (result, s) ← check s
  assert (result = true) msg
  pure s

/-- The last assertion of `verify_authority`. -/
def finishSignatures (s : SignState) : Checked SignState := do
  let (removed, s) := s.removeUnusedSignatures
  assert (removed = false) "Unnecessary signature(s) detected"
  pure s

/-- The loops of `verify_authority`: every required authority is met. -/
def requireAuths (containers : List AuthContainer) (sigs : List PublicKey)
    (tables : Tables) (approvals : Approvals) : Checked SignState := do
  let required := requiredAuths containers
  if required.posting ≠ [] then
    assert (required.active.length = 0) "required_active.size() == 0"
    assert (required.owner.length = 0) "required_owner.size() == 0"
    assert (required.other.length = 0) "other.size() == 0"
    let s := SignState.init sigs []
    let s := { s with approvedBy := s.approvedBy ++ approvals.posting }
    required.posting.foldlM (fun s id =>
      require (orElse (checkAccount lim tables.posting id)
        (orElse (fun s => do checkAuthority lim tables.posting (← tables.active id) s)
          (fun s => do checkAuthority lim tables.posting (← tables.owner id) s)))
        ("Missing Posting Authority " ++ id) s) s
  else
    let s := SignState.init sigs []
    let s := { s with approvedBy := s.approvedBy ++ approvals.active ++ approvals.owner }
    let s ← required.other.foldlM (fun s auth =>
      require (checkAuthority lim tables.active auth) "Missing Authority" s) s
    let s ← required.active.foldlM (fun s id =>
      require (orElse (checkAccount lim tables.active id)
        (fun s => do checkAuthority lim tables.active (← tables.owner id) s))
        ("Missing Active Authority " ++ id) s) s
    required.owner.foldlM (fun s id =>
      require (fun s =>
        if id ∈ approvals.owner then .ok (true, s)
        else do checkAuthority lim tables.active (← tables.owner id) s)
        ("Missing Owner Authority " ++ id) s) s

/-- `verify_authority`; returns the state of the check where the source returns nothing. -/
def verifyAuthority (containers : List AuthContainer) (sigs : List PublicKey)
    (tables : Tables) (approvals : Approvals) : Checked SignState := do
  let s ← requireAuths lim containers sigs tables approvals
  finishSignatures s

end DeltaChain.Signing

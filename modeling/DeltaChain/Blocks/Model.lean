import DeltaChain.Fork.Database
import DeltaChain.Ledger.Hardforks

/-!
# Blocks and their transactions

`_apply_transaction` and `_apply_block`, with the checks they make and the index of transactions
that keeps duplicates out. What the operations of a transaction do, and what happens at the end of
a block, is left open (`Rules`): deterministic functions of the state that may throw.

Of a witness object, the version it runs and its vote for a hardfork are kept apart from the rest
(`reports`): they are written by the headers of blocks only, and no operation reads them. The hash
that is the id of a transaction is any function (`transactionId`).
-/

namespace DeltaChain.Blocks

open Lib Protocol Fork

structure Transaction (Op : Type) where
  refBlockNum : Nat
  refBlockPrefix : Nat
  expiration : Nat
  operations : List Op
deriving DecidableEq

structure SignedTransaction (Op : Type) extends Transaction Op where
  signatures : List Nat
deriving DecidableEq

/-- `block_header_extensions`. -/
inductive Extension where
  | void
  | version (version : Nat)
  | hardforkVersionVote (version time : Nat)
  | automatedActions
deriving DecidableEq

/-- `block_header`, without the id of the previous block. -/
structure Header where
  timestamp : Nat
  witness : AccountName
  transactionMerkleRoot : Nat
  extensions : List Extension

/-- `signed_block`. -/
structure Body (Op : Type) extends Header where
  witnessSignature : Nat
  transactions : List (SignedTransaction Op)

/-- What the headers of blocks report about a witness. -/
structure Report where
  runningVersion : Nat := 0
  hardforkVersionVote : Nat := 0
  hardforkTimeVote : Nat := genesisTime
deriving DecidableEq

/-- The state behind the head block. -/
structure State (ω : Type) where
  headBlockTime : Nat
  currentWitness : AccountName
  reports : AccountName → Report
  /-- `transaction_index`, with the expirations. -/
  transactions : Table Nat Nat
  world : ω

/-- What operations may read besides the objects they change. -/
structure Env where
  /-- `is_producing` and `is_pending_tx`. -/
  pending : Bool
  headBlockNum : Nat
  headBlockTime : Nat
  currentWitness : AccountName

/-- The rules of a chain. -/
structure Rules (Op ω : Type) where
  /-- The block behind a payload. -/
  contents : Nat → Body Op
  /-- `transaction::id`, which leaves out the signatures. -/
  transactionId : Transaction Op → Nat
  merkleRoot : List (SignedTransaction Op) → Nat
  /-- `get_shared_db_merkle`. -/
  sharedDbMerkle : Nat → Option Nat
  publicKey : Nat → Nat
  sign : BlockId → Header → Nat → Nat
  validateSignee : BlockId → Header → Nat → Nat → Bool
  validateSignee_sign : ∀ previous header key,
    validateSignee previous header (sign previous header key) (publicKey key) = true
  /-- `fc::raw::pack_size` of a transaction. -/
  packSize : SignedTransaction Op → Nat
  validate : Transaction Op → Bool
  authorized : Env → ω → SignedTransaction Op → Bool
  /-- `ref_block_prefix` of the block summary. -/
  blockSummary : ω → Nat → Nat
  hasHardfork : ω → Nat → Bool
  currentHardforkVersion : ω → Nat
  lastHardfork : ω → Nat
  hardforkTimes : Nat → Nat
  currentAslot : ω → Nat
  currentShuffledWitnesses : ω → List AccountName
  /-- Names of accounts have 16 bytes. -/
  length_name : ∀ w, ∀ name ∈ currentShuffledWitnesses w, name.utf8ByteSize ≤ 16
  /-- The signing key, for the name of a witness. -/
  signingKey : ω → AccountName → Option Nat
  maximumBlockSize : ω → Nat
  /-- Witnesses cannot propose less. -/
  le_maximumBlockSize : ∀ w, minBlockSizeLimit ≤ maximumBlockSize w
  /-- The operations of a transaction. -/
  evaluate : Env → ω → Transaction Op → Option ω
  /-- The hardforks that come with the first block. -/
  firstBlock : Nat → ω → (AccountName → Report) → Option (ω × (AccountName → Report))
  /-- What comes after the transactions: the last irreversible block number and the objects. -/
  finish : BlockId → Body Op → ω → Option (Nat × ω)

variable {Op ω : Type} (R : Rules Op ω)

-- # Transactions

variable (s : State ω)

/-- What operations see of the state. -/
def State.env (pending : Bool) (headBlockNum : Nat) : Env where
  pending := pending
  headBlockNum := headBlockNum
  headBlockTime := s.headBlockTime
  currentWitness := s.currentWitness

/-- The reference to a recent block and the expiration are right. -/
def Timely (tx : Transaction Op) : Prop :=
  tx.refBlockPrefix = R.blockSummary s.world tx.refBlockNum ∧
  tx.expiration ≤ s.headBlockTime + maxTimeUntilExpiration ∧
  (R.hasHardfork s.world hardfork09 = true → s.headBlockTime < tx.expiration) ∧
  s.headBlockTime ≤ tx.expiration

instance (s : State ω) (tx : Transaction Op) : Decidable (Timely R s tx) :=
  inferInstanceAs (Decidable (_ ∧ _ ∧ _ ∧ _))

/-- `_apply_transaction`. On the first block nothing can have expired. -/
def applyTransaction (pending : Bool) (headBlockNum : Nat) (s : State ω)
    (tx : SignedTransaction Op) : Option (State ω) := do
  guard (R.validate tx.toTransaction = true)
  guard (s.transactions.find? (R.transactionId tx.toTransaction) = none)
  guard (R.authorized (s.env pending headBlockNum) s.world tx = true)
  guard (0 < headBlockNum → Timely R s tx.toTransaction)
  let world ← R.evaluate (s.env pending headBlockNum) s.world tx.toTransaction
  let transactions := s.transactions.emplace (R.transactionId tx.toTransaction) tx.expiration
  return { s with transactions := transactions, world := world }

-- # The size of a block

/-- The bytes of an `unsigned_int`, 7 bits in each. -/
def packUnsigned (n : Nat) : Nat :=
  if n < 2 ^ 7 then 1 else if n < 2 ^ 14 then 2 else if n < 2 ^ 21 then 3
  else if n < 2 ^ 28 then 4 else 5

/-- The bytes of an extension of the header. Actions cannot be in a block yet. -/
def packExtension : Extension → Nat
  | .void => 1
  | .version _ => 1 + 4
  | .hardforkVersionVote _ _ => 1 + 4 + 4
  | .automatedActions => 2

/-- The bytes of a signed header. -/
def packHeader (h : Header) : Nat :=
  20 + 4 + (packUnsigned h.witness.utf8ByteSize + h.witness.utf8ByteSize) + 20 +
    (packUnsigned h.extensions.length + (h.extensions.map packExtension).sum) + 65

/-- `fc::raw::pack_size` of a block. -/
def packBlock (b : Body Op) : Nat :=
  packHeader b.toHeader + packUnsigned b.transactions.length +
    (b.transactions.map R.packSize).sum

-- # Slots

def slotTime (headBlockNum headBlockTime slotNum : Nat) : Nat :=
  if slotNum = 0 then 0
  else if headBlockNum = 0 then headBlockTime + slotNum * blockInterval
  else headBlockTime / blockInterval * blockInterval + slotNum * blockInterval

def slotAtTime (headBlockNum headBlockTime time : Nat) : Nat :=
  let firstSlotTime := slotTime headBlockNum headBlockTime 1
  if time < firstSlotTime then 0 else (time - firstSlotTime) / blockInterval + 1

def scheduledWitness (w : ω) (slotNum : Nat) : Option AccountName :=
  let names := R.currentShuffledWitnesses w
  names[(R.currentAslot w + slotNum) % names.length]?

-- # Blocks

/-- One extension of `process_header_extensions`. -/
def processExtension (report : Report) : Extension → Option Report
  | .void => some report
  | .version version => some { report with runningVersion := version }
  | .hardforkVersionVote version time =>
    some { report with hardforkVersionVote := version, hardforkTimeVote := time }
  | .automatedActions => none

variable (previous : BlockId)

/-- The merkle check, with the exceptions of a shared database. -/
def MerkleOk (b : Body Op) : Prop :=
  b.transactionMerkleRoot = R.merkleRoot b.transactions ∨
    R.sharedDbMerkle (previous.num + 1) = some (R.merkleRoot b.transactions)

/-- `validate_block_header`, after the id of the previous block. -/
def HeaderOk (s : State ω) (b : Body Op) : Prop :=
  s.headBlockTime < b.timestamp ∧
  (R.signingKey s.world b.witness).any
    (R.validateSignee previous b.toHeader b.witnessSignature) = true ∧
  0 < slotAtTime previous.num s.headBlockTime b.timestamp ∧
  scheduledWitness R s.world (slotAtTime previous.num s.headBlockTime b.timestamp) =
    some b.witness

def SizeOk (b : Body Op) : Prop :=
  R.hasHardfork s.world hardfork012 = true → packBlock R b ≤ R.maximumBlockSize s.world

/-- The witness runs the current hardfork. -/
def VersionOk (b : Body Op) : Prop :=
  R.hasHardfork s.world hardfork05 = true →
    R.currentHardforkVersion s.world ≤ (s.reports b.witness).runningVersion

instance (previous : BlockId) (b : Body Op) : Decidable (MerkleOk R previous b) :=
  inferInstanceAs (Decidable (_ ∨ _))

instance (previous : BlockId) (s : State ω) (b : Body Op) : Decidable (HeaderOk R previous s b) :=
  inferInstanceAs (Decidable (_ ∧ _ ∧ _ ∧ _))

instance (s : State ω) (b : Body Op) : Decidable (SizeOk R s b) :=
  inferInstanceAs (Decidable (_ → _))

instance (s : State ω) (b : Body Op) : Decidable (VersionOk R s b) :=
  inferInstanceAs (Decidable (_ → _))

/-- The hardforks that come with the first block. -/
def firstBlock (s : State ω) (b : Body Op) : Option (State ω) :=
  if previous.num = 0 then
    (R.firstBlock b.timestamp s.world s.reports).map fun r =>
      { s with world := r.1, reports := r.2 }
  else some s

/-- `_apply_block` before the transactions. -/
def beginBlock (s : State ω) (b : Body Op) : Option (State ω) := do
  let s ← firstBlock R previous s b
  guard (MerkleOk R previous b)
  guard (HeaderOk R previous s b)
  guard (SizeOk R s b)
  let report ← b.extensions.foldlM processExtension (s.reports b.witness)
  let s := { s with
    currentWitness := b.witness
    reports := fun name => if name = b.witness then report else s.reports name }
  guard (VersionOk R s b)
  return s

/-- `_apply_block` up to the last transaction. -/
def applyTransactions (s : State ω) (b : Body Op) : Option (State ω) := do
  let s ← beginBlock R previous s b
  b.transactions.foldlM (applyTransaction R false previous.num) s

/-- `clear_expired_transactions`, once the time of the head block is set. -/
def clearExpiredTransactions : State ω :=
  { s with transactions := s.transactions.filter fun _ expiration =>
      decide (¬ expiration < s.headBlockTime) }

def applyBlock (s : State ω) (b : Body Op) : Option (Nat × State ω) := do
  let s ← applyTransactions R previous s b
  let s := clearExpiredTransactions { s with headBlockTime := b.timestamp }
  let (lib, world) ← R.finish previous b s.world
  return (lib, { s with world := world })

/-- What a block does to the state of the chain. -/
def exec : Exec (State ω) := fun s block =>
  applyBlock R block.previous s.rest (R.contents block.payload)

/-- A chain with one witness and operations that do nothing. The block with payload `n` is for
slot `n + 1` and has one transaction. -/
def sampleRules : Rules Nat Unit where
  contents n :=
    { timestamp := (n + 1) * blockInterval
      witness := initMinerName
      transactionMerkleRoot := 0
      extensions := []
      witnessSignature := 0
      transactions := [{
        refBlockNum := 0
        refBlockPrefix := 0
        expiration := n + 10
        operations := [n]
        signatures := [] }] }
  transactionId tx := tx.expiration
  merkleRoot _ := 0
  sharedDbMerkle _ := none
  publicKey key := key
  sign _ _ key := key
  validateSignee _ _ signature key := signature == key
  validateSignee_sign _ _ _ := beq_self_eq_true _
  packSize _ := 100
  validate tx := decide (tx.operations ≠ [])
  authorized _ _ _ := true
  blockSummary _ _ := 0
  hasHardfork _ _ := true
  currentHardforkVersion _ := 0
  lastHardfork _ := 0
  hardforkTimes _ := 0
  currentAslot _ := 0
  currentShuffledWitnesses _ := [initMinerName]
  length_name _ name h := by
    rw [List.mem_singleton.mp h]
    decide
  signingKey _ name := if name = initMinerName then some 0 else none
  maximumBlockSize _ := minBlockSizeLimit
  le_maximumBlockSize _ := Nat.le_refl _
  evaluate _ w _ := some w
  firstBlock _ w reports := some (w, reports)
  finish _ _ w := some (0, w)

/-- The state before the first block. -/
def sampleStart : ChainState (State Unit) where
  headBlockId := .zero
  lastIrreversibleBlockNum := 0
  rest :=
    { headBlockTime := 0
      currentWitness := ""
      reports := fun _ => {}
      transactions := Table.empty
      world := () }

end DeltaChain.Blocks

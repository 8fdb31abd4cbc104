import DeltaChain.Ledger.WitnessVotes
import DeltaChain.Lib.Pick
import DeltaChain.Lib.Rank
import DeltaChain.Lib.Tally

/-!
# The witness schedule

`update_witness_schedule4`: at the end of a round the witnesses of the next one are chosen, by
votes, from the mining queue and by virtual time, the versions they run and vote for are counted,
and they are shuffled.

The loops choose from an index while they mark the witnesses they have chosen. That moves no
witness within the indices, so that all three are read in the state before.
-/

namespace DeltaChain.Ledger.Database

open Lib Protocol Checked

-- # Indices

variable (db : Database)

def hasHardfork (hardfork : Nat) : Bool :=
  decide (db.hardforks.processedHardforks.length > hardfork)

/-- Whether a witness may be scheduled. -/
def eligible (w : Witness) : Bool :=
  !(db.hasHardfork hardfork014 && w.signingKey.isNone)

/-- The order of `by_vote_name`: most votes first. -/
def votedBefore (e f : AccountName × Witness) : Prop :=
  e.2.votes > f.2.votes ∨ e.2.votes = f.2.votes ∧ e.1 ≤ f.1

instance : DecidableRel votedBefore := fun _ _ => inferInstanceAs (Decidable (_ ∨ _ ∧ _))

/-- The order of `by_schedule_time`. -/
def scheduledBefore (e f : AccountName × Witness) : Prop :=
  e.2.virtualScheduledTime < f.2.virtualScheduledTime ∨
    e.2.virtualScheduledTime = f.2.virtualScheduledTime ∧ e.2.id ≤ f.2.id

instance : DecidableRel scheduledBefore := fun _ _ => inferInstanceAs (Decidable (_ ∨ _ ∧ _))

def byVoteName : List (AccountName × Witness) :=
  db.witnesses.entries.insertionSort votedBefore

/-- The index `by_pow` from `upper_bound( 0 )` on. No two witnesses in the queue have the same
place in it. -/
def byPow : List (AccountName × Witness) :=
  (db.witnesses.entries.filter fun e => decide (e.2.powWorker > 0)).insertionSort
    fun e f => e.2.powWorker ≤ f.2.powWorker

def byScheduleTime : List (AccountName × Witness) :=
  db.witnesses.entries.insertionSort scheduledBefore

-- # Selection

/-- The witnesses that the three loops choose, and those they pass. -/
structure Selection where
  elected : List AccountName
  miners : List AccountName
  dequeued : List AccountName
  timeshare : List AccountName
  processed : List (AccountName × Witness)

/-- `active_witnesses`. -/
def Selection.active (s : Selection) : List AccountName := s.elected ++ s.miners ++ s.timeshare

/-- The highest voted witnesses. -/
def elect : List (AccountName × Witness) :=
  (pick (fun e => db.eligible e.2) db.schedule.maxVotedWitnesses db.byVoteName).1

/-- Miners from the top of the mining queue, which is emptied that far. -/
def mine (elected : List AccountName) :
    List (AccountName × Witness) × List (AccountName × Witness) :=
  pick (fun e => decide (e.1 ∉ elected) && db.eligible e.2) db.schedule.maxMinerWitnesses db.byPow

/-- The running witnesses in the lead. -/
def share (chosen : List AccountName) :
    List (AccountName × Witness) × List (AccountName × Witness) :=
  pick (fun e => db.eligible e.2 && decide (e.1 ∉ chosen)) (maxWitnesses - chosen.length)
    db.byScheduleTime

/-- The three loops. -/
def select : Selection :=
  let elected := db.elect.map Prod.fst
  let (miners, dequeued) := db.mine elected
  let (timeshare, processed) := db.share (elected ++ miners.map Prod.fst)
  { elected := elected
    miners := miners.map Prod.fst
    dequeued := dequeued.map Prod.fst
    timeshare := timeshare.map Prod.fst
    processed := processed }

/-- The same write to several witnesses. -/
def markWitnesses (names : List AccountName) (f : Witness → Witness) : Database :=
  names.foldl (fun db name => db.modifyWitness name f) db

/-- What the loops write down about the witnesses. -/
def mark (s : Selection) : Database :=
  let db := db.markWitnesses s.elected fun w => { w with schedule := .elected }
  let db := db.markWitnesses s.miners fun w => { w with schedule := .miner }
  let db := db.markWitnesses s.dequeued fun w => { w with powWorker := 0 }
  let db := db.modifyProps fun g =>
    { g with numPowWitnesses := g.numPowWitnesses - s.dequeued.length }
  db.markWitnesses s.timeshare fun w => { w with schedule := .timeshare }

-- # Virtual time

/-- The virtual time of a lap with these votes. -/
def lapTime (votes : Int) : Nat := virtualScheduleLapLength2 / u128 (votes + 1)

def resetVirtualScheduleTime : Checked Database := do
  assert (∀ e ∈ db.witnesses.entries, e.2.votes + 1 ≠ 0) "Division by zero."
  return { db with
    currentVirtualTime := 0
    witnesses := db.witnesses.map fun w =>
      { w with
        virtualPosition := 0
        virtualLastUpdate := 0
        virtualScheduledTime := lapTime w.votes } }

/-- The next lap of a witness starts at `newVirtualTime`. -/
def startLap (w : Witness) (newVirtualTime : Nat) : Witness :=
  { w with
    virtualPosition := 0
    virtualLastUpdate := newVirtualTime
    virtualScheduledTime := u128 (newVirtualTime + lapTime w.votes) }

/-- The loop over `processed_witnesses`. It stops when a sum has wrapped around. -/
def startLaps (newVirtualTime : Nat) : List (AccountName × Witness) → Database →
    Checked (Option Database)
  | [], db => return some db
  | e :: processed, db => do
    assert (e.2.votes + 1 ≠ 0) "Division by zero."
    if u128 (newVirtualTime + lapTime e.2.votes) < newVirtualTime then return none
    else startLaps newVirtualTime processed (db.modifyWitness e.1 (startLap · newVirtualTime))

/-- The virtual time that everyone advances to. -/
def newVirtualTime (processed : List (AccountName × Witness)) : Nat :=
  match processed.getLast? with
  | none => db.currentVirtualTime
  | some e => e.2.virtualScheduledTime

/-- The virtual schedule of the witnesses that were processed. After an overflow all start anew,
also those that were rescheduled before it. -/
def advance (processed : List (AccountName × Witness)) : Checked Database := do
  let now := db.newVirtualTime processed
  match ← startLaps now processed db with
  | some db => return { db with currentVirtualTime := now }
  | none => db.resetVirtualScheduleTime

-- # Versions

def scheduledNames (s : WitnessSchedule) : List AccountName :=
  s.currentShuffledWitnesses.toList.take s.numScheduledWitnesses

def scheduledWitnesses : Checked (List Witness) :=
  (scheduledNames db.schedule).mapM db.getWitness

/-- The order of a pair of a version and a time. -/
def versionBefore (a b : Nat × Nat) : Bool := decide (a.1 < b.1 ∨ a.1 = b.1 ∧ a.2 < b.2)

/-- The version that enough witnesses run at least, if there is one. -/
def majorityVersion (required : Nat) (witnesses : List Witness) : Option Nat :=
  majority required 0 (tallies (fun a b => decide (a > b)) (witnesses.map Witness.runningVersion))

/-- What a witness votes for: a hardfork and its time. -/
def hardforkVote (w : Witness) : Nat × Nat := (w.hardforkVersionVote, w.hardforkTimeVote)

/-- The hardfork and the time that enough witnesses vote for, if there is one. -/
def majorityHardfork (required : Nat) (witnesses : List Witness) : Option (Nat × Nat) :=
  ((tallies versionBefore (witnesses.map hardforkVote)).find? fun e =>
    decide (e.2 ≥ required)).map Prod.fst

/-- The next hardfork, after the votes were counted. -/
def setNextHardfork (h : HardforkProperties) : Option (Nat × Nat) → HardforkProperties
  | some vote => { h with nextHardfork := vote.1, nextHardforkTime := vote.2 }
  -- we no longer have a majority
  | none => { h with nextHardfork := h.currentHardforkVersion }

/-- The part of `update_witness_schedule4` on versions. -/
def countVersions : Checked Database :=
  if db.hasHardfork hardfork05 then do
    let witnesses ← db.scheduledWitnesses
    let required := db.schedule.hardforkRequiredWitnesses
    let version := (majorityVersion required witnesses).getD db.schedule.majorityVersion
    return { db with
      hardforks := setNextHardfork db.hardforks (majorityHardfork required witnesses)
      schedule := { db.schedule with majorityVersion := version } }
  else return db

-- # Shuffling

/-- The random generator. -/
def xorshift (seed : UInt64) : UInt64 :=
  let k := seed ^^^ (seed >>> 12)
  let k := k ^^^ (k <<< 25)
  let k := k ^^^ (k >>> 27)
  k * 2685821657736338717

/-- With which entry the entry `i` of `count` ones is swapped. -/
def shuffleIndex (now count i : Nat) : Nat :=
  i + (xorshift ((now.toUInt64 <<< 32) + i.toUInt64 * 2685821657736338717)).toNat % (count - i)

/-- The loop that shuffles the first `count` entries. -/
def shuffle (now count : Nat) (names : Vector AccountName maxWitnesses) :
    Vector AccountName maxWitnesses :=
  (List.range count).foldl (fun v i => v.swapIfInBounds i (shuffleIndex now count i)) names

/-- The names as an array, with the empty name after them. -/
def padded (names : List AccountName) : Vector AccountName maxWitnesses :=
  Vector.ofFn fun i => names.getD i.val ""

/-- The schedule of the next round. -/
def storeSchedule (s : Selection) : Database :=
  let count := max s.active.length 1
  { db with schedule := { db.schedule with
      currentShuffledWitnesses := shuffle db.headBlockTime count (padded s.active)
      numScheduledWitnesses := count
      witnessPayNormalizationFactor :=
        db.schedule.electedWeight * s.elected.length + db.schedule.minerWeight * s.miners.length +
          db.schedule.timeshareWeight * s.timeshare.length
      nextShuffleBlockNum := db.props.headBlockNumber + count } }

-- # Medians

/-- The median of what the witnesses propose. -/
def median {α : Type} [LinearOrder α] (witnesses : List Witness) (f : Witness → α) : Checked α :=
  get (Rank.nthElement (witnesses.map f) (witnesses.length / 2)) "out of range"

/-- The least decay of the subsidies of a witness. -/
def minWitnessDecay (rd : RdDynamicsParams) (available : Int) : Int :=
  let medianDecay :=
    max (rdComputePoolDecay rd.decayPerTimeUnit rd.decayPerTimeUnitDenomShift available 1) 0
  medianDecay * decayBackstopPercent / percent100

def updateMedianWitnessProps : Checked Database := do
  let active ← db.scheduledWitnesses
  let fee ← median active (·.props.accountCreationFee)
  let blockSize ← median active (·.props.maximumBlockSize)
  let interestRate ← median active (·.props.dbdInterestRate)
  let budget ← median active (·.props.accountSubsidyBudget)
  let decay ← median active (·.props.accountSubsidyDecay)
  let available ← median active (·.availableWitnessAccountSubsidies)
  rdValidateUserParams ⟨budget, decay⟩
  let rd ← rdSetupDynamicsParams ⟨budget, decay⟩
  let witnessRd ← rdSetupDynamicsParams (ChainProperties.perWitness budget decay)
  return { db with
    accountCreationFee := fee
    schedule := { db.schedule with
      medianMaximumBlockSize := blockSize
      medianDbdInterestRate := interestRate
      medianAccountSubsidyBudget := budget
      medianAccountSubsidyDecay := decay
      accountSubsidyRd := rd
      accountSubsidyWitnessRd := { witnessRd with minDecay := minWitnessDecay witnessRd available } }
    props := { db.props with maximumBlockSize := blockSize, dbdInterestRate := interestRate } }

def updateWitnessSchedule4 : Checked Database := do
  let s := db.select
  let db := db.mark s
  let db ← db.advance s.processed
  assert (s.active.length = min maxWitnesses db.witnesses.keys.length)
    "number of active witnesses does not equal expected_active_witnesses"
  let db ← db.countVersions
  let db := db.storeSchedule s
  db.updateMedianWitnessProps

/-- `update_witness_schedule`, from hardfork 4 on. -/
def updateWitnessSchedule : Checked Database :=
  if db.props.headBlockNumber % maxWitnesses = 0 then db.updateWitnessSchedule4 else return db

end DeltaChain.Ledger.Database

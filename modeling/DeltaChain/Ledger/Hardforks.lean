import DeltaChain.Ledger.Schedule

/-!
# Hardforks

`process_hardforks`, `set_hardfork` and `apply_hardfork`. Up to hardfork 5 a hardfork is applied
when its time has come, after that when the witnesses have agreed on it.

The times are local to the node, where `set_hardfork` may change them. What a hardfork does to
the rest of the state (`Migration`) does not touch the record of the hardforks itself.
-/

namespace DeltaChain.Ledger

open Lib Protocol Checked

/-- `_hardfork_times`, as `init_hardforks` sets them. -/
def initHardforkTimes : List Nat :=
  [genesisTime, 1461605400, 1461693600, 1461762000, 1462028400, 1464714000, 1467295200, 1467590400,
    1467594000, 1468454400, 1468584000, 1468767600, 1469545200, 1471269600, 1474383600, 1478620800,
    1481040000, 1490886000, 1490886000, 1497970800, 1537887600]

/-- `_hardfork_versions`: hardfork `h` is version 0.`h`. -/
def hardforkVersion (hardfork : Nat) : Nat := hardfork * 2 ^ 16

/-- The switch in `apply_hardfork`. -/
structure Migration where
  apply : Nat → Database → Checked Database
  hardforks_eq : ∀ {hardfork db db'}, apply hardfork db = .ok db' → db'.hardforks = db.hardforks

/-- A node: its state, the times of the hardforks and the `hardfork_operation`s it has pushed,
in order. -/
structure Node where
  db : Database
  hardforkTimes : Nat → Nat := fun i => initHardforkTimes.getD i 0
  operations : List Nat := []

variable (m : Migration)

namespace Node

/-- The last part of `apply_hardfork`. -/
def recordHardfork (node : Node) (hardfork : Nat) : Checked Node := do
  let hfp := node.db.hardforks
  assert (hardfork = hfp.lastHardfork + 1) "Hardfork being applied out of order"
  assert (hfp.processedHardforks.length = hardfork) "Hardfork being applied out of order"
  let hfp := { hfp with
    processedHardforks := hfp.processedHardforks ++ [node.hardforkTimes hardfork]
    lastHardfork := hardfork
    currentHardforkVersion := hardforkVersion hardfork }
  assert (hfp.processedHardforks[hfp.lastHardfork]? = some (node.hardforkTimes hfp.lastHardfork))
    "Hardfork processing failed sanity check..."
  return { node with db := { node.db with hardforks := hfp } }

def applyHardfork (node : Node) (hardfork : Nat) : Checked Node := do
  let db ← m.apply hardfork node.db
  let node := { node with db := db, operations := node.operations ++ [hardfork] }
  node.recordHardfork hardfork

/-- The loop of `process_hardforks` over the hardforks that were voted for, with `room` more
hardforks that the node knows. -/
def applyVoted (m : Migration) : (room : Nat) → Node → Checked Node
  | room, node =>
    let hardforks := node.db.hardforks
    if hardforkVersion hardforks.lastHardfork < hardforks.nextHardfork ∧
        hardforks.nextHardforkTime ≤ node.db.headBlockTime then
      match room with
      | 0 => .error "unknown_hardfork_exception"
      | room + 1 => do
        let node ← node.applyHardfork m (hardforks.lastHardfork + 1)
        applyVoted m room node
    else return node

/-- The loop of `process_hardforks` over the hardforks whose time has come. -/
def applyTimed (m : Migration) : (room : Nat) → Node → Checked Node
  | 0, node => return node
  | room + 1, node =>
    let last := node.db.hardforks.lastHardfork
    if node.hardforkTimes (last + 1) ≤ node.db.headBlockTime ∧ last < hardfork05 then do
      let node ← node.applyHardfork m (last + 1)
      applyTimed m room node
    else return node

def processHardforks (node : Node) : Checked Node :=
  let room := numHardforks - node.db.hardforks.lastHardfork
  if node.db.hasHardfork hardfork05 then node.applyVoted m room else node.applyTimed m room

/-- What one round of `set_hardfork` announces. -/
def announce (node : Node) (i : Nat) : Node :=
  let now := node.db.headBlockTime
  if i ≤ hardfork05 then
    { node with hardforkTimes := fun j => if j = i then now else node.hardforkTimes j }
  else
    { node with db := { node.db with hardforks := { node.db.hardforks with
        nextHardfork := hardforkVersion i
        nextHardforkTime := now } } }

/-- One round of `set_hardfork`. -/
def setHardforkRound (applyNow : Bool) (node : Node) (i : Nat) : Checked Node :=
  if applyNow then (node.announce i).applyHardfork m i else return node.announce i

def setHardfork (node : Node) (hardfork : Nat) (applyNow : Bool) : Checked Node :=
  let last := node.db.hardforks.lastHardfork
  (List.range' (last + 1) (min hardfork numHardforks - last)).foldlM
    (setHardforkRound m applyNow) node

/-- The hardforks that are in force from the first block on. -/
def genesisHardforks (node : Node) (timestamp : Nat) : Checked Node :=
  let n := ((List.range numHardforks).takeWhile fun n =>
    decide (node.hardforkTimes (n + 1) ≤ timestamp)).length
  if n > 0 then do
    let node ← node.setHardfork m n true
    assert (node.db.hardforks.currentHardforkVersion = hardforkVersion n)
      "Unexpected genesis hardfork state"
    return node
  else return node

end Node

end DeltaChain.Ledger

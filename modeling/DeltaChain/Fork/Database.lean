import DeltaChain.Chainbase.UndoStack
import DeltaChain.Fork.ForkDatabase

/-!
# `push_block` and `pop_block` of the chain database

The chain state sits in an undo stack of copies, which is what chainbase
implements (`Chainbase.Undo`). `Exec` stands for everything `_apply_block` does
to the state objects after the header check: a deterministic function that may
throw. Of the state, the head block id, the last irreversible block number and
the rest are kept apart; the head block number is the number in the head block
id, as `update_global_dynamic_data` sets both from one block. The pending
session is undone before these calls do anything, so it does not appear; skip
flags and checkpoints are at their defaults.

A call that throws keeps the state it has reached, so results carry the state in
both cases (`EStateM.Result`).
-/

namespace DeltaChain.Fork

open Chainbase

/-- The chain state: `head_block_id`, `last_irreversible_block_num` and the other
objects. -/
structure ChainState (ρ : Type) where
  headBlockId : BlockId
  lastIrreversibleBlockNum : Nat
  rest : ρ
deriving DecidableEq

def ChainState.headBlockNum {ρ : Type} (s : ChainState ρ) : Nat := s.headBlockId.num

/-- What applying a block does to the state: the new last irreversible block
number and the other objects, or `none` if some check throws. -/
abbrev Exec (ρ : Type) := ChainState ρ → Block → Option (Nat × ρ)

structure Database (ρ : Type) where
  forkDb : ForkDatabase
  chain : UndoStack (ChainState ρ)
  /-- `_block_log`, first block first. -/
  blockLog : List Block

/-- The result of a call on the database. -/
abbrev Result (ρ α : Type) := EStateM.Result Error (Database ρ) α

namespace Database

variable {ρ : Type} (db : Database ρ)

def headBlockId : BlockId := db.chain.cur.headBlockId

def headBlockNum : Nat := db.chain.cur.headBlockNum

/-- `_block_log.head()->block_num()`, 0 for an empty log. -/
def logHeadNum : Nat :=
  match db.blockLog.getLast? with
  | none => 0
  | some b => b.blockNum

def readBlockByNum (num : Nat) : Option Block :=
  db.blockLog.find? fun b => decide (b.blockNum = num)

def fetchBlockById (id : BlockId) : Option Block :=
  match db.forkDb.fetchBlock id with
  | some x => some x.data
  | none => (db.readBlockByNum id.num).filter fun b => decide (b.id = id)

def popBlock : Result ρ Unit :=
  match db.fetchBlockById db.headBlockId with
  | none => .error .popEmptyChain db
  | some _ => match db.forkDb.popBlock with
    | .error e => .error e db
    | .ok f => .ok () { db with forkDb := f, chain := db.chain.undo }

/-- The blocks `migrate_irreversible_state` is about to write to the block log. -/
def blocksToWrite : Option (List ForkItem) :=
  (List.range' (db.logHeadNum + 1)
    (db.chain.cur.lastIrreversibleBlockNum - db.logHeadNum)).mapM
      db.forkDb.fetchBlockOnMainBranchByNumber

def migrateIrreversibleState : Result ρ Unit :=
  let lib := db.chain.cur.lastIrreversibleBlockNum
  if db.forkDb.head.any fun h => decide (h.num ≠ db.headBlockNum) then
    .error .forkHeadMismatch db
  else match db.blocksToWrite with
    | none => .error .irreversibleMissing db
    | some blocks =>
      .ok () { forkDb := db.forkDb.setMaxSize (db.headBlockNum - lib + 1)
               chain := db.chain.commit lib
               blockLog := db.blockLog ++ blocks.map ForkItem.data }

section

variable (exec : Exec ρ)

/-- The state after `block`, if `_apply_block` accepts it on `s`. -/
def execBlock (s : ChainState ρ) (block : Block) : Option (ChainState ρ) :=
  if s.headBlockId = block.previous then
    (exec s block).map fun r => ⟨block.id, r.1, r.2⟩
  else none

def applyBlock (block : Block) : Result ρ Unit :=
  if db.headBlockId ≠ block.previous then .error .notOnHead db
  else match execBlock exec db.chain.cur block with
    | none => .error .rejected db
    | some s => { db with chain := db.chain.set s }.migrateIrreversibleState

/-- `start_undo_session`, `apply_block` and `session.push()`; a throw undoes the
session. -/
def applyInSession (block : Block) : Result ρ Unit :=
  match { db with chain := db.chain.startUndoSession }.applyBlock exec block with
  | .ok _ s => .ok () s
  | .error e s => .error e { s with chain := s.chain.undo }

/-- `while( head_block_id() != target ) pop_block();`, on a database whose fork
head is `head`: every iteration moves the fork head to its `prev`. -/
def popTo (target : BlockId) : ForkItem → Database ρ → Result ρ Unit
  | head, db =>
    if db.headBlockId = target then .ok () db
    else match db.popBlock with
      | .error e s => .error e s
      | .ok _ s => match head with
        | .unlinked _ _ => .error .popLastItem s
        | .linked _ _ prev => popTo target prev s

/-- The loop of `popTo`. Without a fork head, `pop_block` throws. -/
def popLoop (target : BlockId) : Result ρ Unit :=
  match db.forkDb.head with
  | some head => popTo target head db
  | none => if db.headBlockId = target then .ok () db else db.popBlock

/-- Push the items one after the other as the new head; stops at the first that
throws, and returns the error with the items from there on. -/
def pushItems (db : Database ρ) : List ForkItem → Database ρ × Option (Error × List ForkItem)
  | [] => (db, none)
  | item :: items =>
    match { db with forkDb := db.forkDb.setHead item }.applyInSession exec item.data with
    | .ok _ s => s.pushItems items
    | .error e s => (s, some (e, item :: items))

/-- Let the running call own the items of two branches. -/
def hold (items : List ForkItem) : Database ρ :=
  { db with forkDb := { db.forkDb with held := items } }

/-- `_fork_db.remove` for every item. -/
def removeItems (items : List ForkItem) : Database ρ :=
  { db with forkDb := items.foldl (fun f x => f.remove x.id) db.forkDb }

/-- What `_push_block` does when a block of the new branch has thrown `e`: drop
the blocks from there on, go back to the fork point and push the old branch
again. -/
def restoreBranch (target : BlockId) (second invalid : List ForkItem) (e : Error) : Result ρ Bool :=
  match (db.removeItems invalid).popLoop target with
  | .error e' s => .error e' s
  | .ok _ s => match s.pushItems exec second.reverse with
    | (s, none) => .error e s
    | (s, some (e', _)) => .error e' s

/-- The fork switch of `_push_block`, with the branches at hand. -/
def switchTo (target : BlockId) (first second : List ForkItem) : Result ρ Bool :=
  match db.popLoop target with
  | .error e s => .error e s
  | .ok _ s => match s.pushItems exec first.reverse with
    | (s, none) => .ok true s
    | (s, some (e, invalid)) => s.restoreBranch exec target second invalid e

/-- A call's result with the items it owned let go. -/
def release {α : Type} : Result ρ α → Result ρ α
  | .ok a s => .ok a (s.hold [])
  | .error e s => .error e (s.hold [])

/-- The branch of `_push_block` that switches forks. -/
def switchForks (newHead : ForkItem) : Result ρ Bool :=
  match db.forkDb.fetchBranchFrom newHead.id db.headBlockId with
  | none => .error .noBranch db
  | some (first, second) => match second.getLast? with
    | none => .error .noBranch db
    | some last => release ((db.hold (first ++ second)).switchTo exec last.previousId first second)

/-- `_push_block`, the body of `push_block`. -/
def pushBlock (block : Block) : Result ρ Bool :=
  match db.forkDb.pushBlock block with
  | .error e => .error e db
  | .ok (newHead, f) =>
    let db := { db with forkDb := f }
    if newHead.previousId ≠ db.headBlockId then
      -- only a longer branch is switched to
      if newHead.num > db.headBlockNum then db.switchForks exec newHead else .ok false db
    else match db.applyInSession exec block with
      | .ok _ s => .ok false s
      | .error e s => .error e { s with forkDb := s.forkDb.remove block.id }

end

/-- The state a call leaves behind, whether it returns or throws. -/
def after {α : Type} : Result ρ α → Database ρ
  | .ok _ s => s
  | .error _ s => s

/-- `open` on the chain state `s`, with all undo state rewound: the fork database
starts at the head block, which the block log must have. -/
def openOn (s : ChainState ρ) (blockLog : List Block) : Option (Database ρ) :=
  let db : Database ρ :=
    { forkDb := ForkDatabase.init, chain := UndoStack.init s s.headBlockNum, blockLog := blockLog }
  if s.headBlockNum = 0 then some db
  else match db.readBlockByNum s.headBlockNum with
    | none => none
    | some b =>
      if b.id = s.headBlockId then some { db with forkDb := db.forkDb.startBlock b } else none

end Database

end DeltaChain.Fork

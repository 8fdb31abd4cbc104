import DeltaChain.Lib.Table

/-!
# `fork_database`

The tree of recent blocks and the walks over it. Blocks are identified by their
ids, taken as collision free: the id of a block holds the id of the previous
block and the rest of the block's contents, and the block number is the number
of the previous id plus one, as `num_from_id` reads it back. Ids that no block
in sight has (`unknown`) can still be named as a `previous`.

A `fork_item` never changes after it is linked, so an item holds the item its
`prev` pointer was set to; `ref` tells two items for one block apart. `prev` is
a weak pointer: it can be followed only while something owns the item, and
`ForkDatabase.lock` says when that is. The flag `invalid` is never set anywhere,
and nothing is ever put into `_unlinked_index` (the insertion follows a
`throw`), so neither is kept.
-/

namespace DeltaChain.Fork

open Lib

/-- `block_id_type`. The zero id is the `previous` of the first block. -/
inductive BlockId where
  | zero
  | unknown (num tag : Nat)
  | ofBlock (previous : BlockId) (payload : Nat)
deriving DecidableEq, Repr

/-- `block_header::num_from_id`. -/
def BlockId.num : BlockId → Nat
  | .zero => 0
  | .unknown num _ => num
  | .ofBlock previous _ => previous.num + 1

/-- `signed_block`: the previous id, and everything else as one payload. -/
structure Block where
  previous : BlockId
  payload : Nat
deriving DecidableEq, Repr

def Block.id (b : Block) : BlockId := .ofBlock b.previous b.payload

def Block.blockNum (b : Block) : Nat := b.previous.num + 1

/-- `fork_item`, with its `prev` pointer if that was set. -/
inductive ForkItem where
  | unlinked (ref : Nat) (data : Block)
  | linked (ref : Nat) (data : Block) (prev : ForkItem)
deriving DecidableEq, Repr

namespace ForkItem

def data : ForkItem → Block
  | unlinked _ data => data
  | linked _ data _ => data

def ref : ForkItem → Nat
  | unlinked ref _ => ref
  | linked ref _ _ => ref

def prev? : ForkItem → Option ForkItem
  | unlinked _ _ => none
  | linked _ _ prev => some prev

def id (x : ForkItem) : BlockId := x.data.id

def num (x : ForkItem) : Nat := x.data.blockNum

def previousId (x : ForkItem) : BlockId := x.data.previous

end ForkItem

/-- What `push_block` and `pop_block` throw. -/
inductive Error where
  /-- "attempting to push a block that is too old" -/
  | tooOld
  /-- `unlinkable_block_exception`, "block does not link to known chain" -/
  | unlinkable
  /-- an assertion of `fetch_branch_from` -/
  | noBranch
  /-- "cannot pop an empty fork database" -/
  | popEmptyForkDb
  /-- "popping head block would leave fork DB empty" -/
  | popLastItem
  /-- `pop_empty_chain`, "there are no blocks to pop" -/
  | popEmptyChain
  /-- `validate_block_header`: the block does not extend the head block -/
  | notOnHead
  /-- any other check made while applying the block -/
  | rejected
  /-- "Fork Head: ${f} Chain Head: ${c}" -/
  | forkHeadMismatch
  /-- "Current fork in the fork database does not contain the last_irreversible_block" -/
  | irreversibleMissing
deriving DecidableEq, Repr

/-- `fork_database`. `held` are the items that local variables of a running call
own; between calls there are none. -/
structure ForkDatabase where
  index : Table BlockId ForkItem
  head : Option ForkItem
  maxSize : Nat
  held : List ForkItem
  nextRef : Nat

variable (f : ForkDatabase)

namespace ForkDatabase

/-- `MAX_BLOCK_REORDERING`, the initial `_max_size`. -/
def maxBlockReordering : Nat := 1024

def init : ForkDatabase :=
  { index := Table.empty, head := none, maxSize := maxBlockReordering, held := [], nextRef := 0 }

/-- The item itself is in `_index`. -/
def contains (x : ForkItem) : Bool := f.index.find? x.id = some x

/-- `weak_ptr::lock`: the item is still owned by the index, by `_head` or by the
running call. -/
def lock (x : ForkItem) : Bool :=
  f.contains x || decide (f.head = some x) || decide (x ∈ f.held)

/-- `prev.lock()`. -/
def lockPrev (x : ForkItem) : Option ForkItem := x.prev?.filter f.lock

def startBlock (b : Block) : ForkDatabase :=
  let item := ForkItem.unlinked f.nextRef b
  { f with index := f.index.emplace item.id item, head := some item, nextRef := f.nextRef + 1 }

/-- The item `_push_block` makes of a block, or why it refuses the block. -/
def link (b : Block) : Except Error ForkItem :=
  match f.head with
  | none => .ok (.unlinked f.nextRef b)
  | some head =>
    -- the block has to be within the range that is cached
    if ¬ b.blockNum > head.num - f.maxSize then .error .tooOld
    else if b.previous = .zero then .ok (.unlinked f.nextRef b)
    else match f.index.find? b.previous with
      | none => .error .unlinkable
      | some prev => .ok (.linked f.nextRef b prev)

/-- The end of `_push_block`. A block that is in the index already is not
inserted again, but its new item can still become the head. -/
def insert (item : ForkItem) : ForkDatabase :=
  { f with
    index := f.index.emplace item.id item
    head := match f.head with
      | none => some item
      | some head => if item.num > head.num then some item else some head
    nextRef := f.nextRef + 1 }

/-- The head after it, and the new fork database. -/
def pushBlock (b : Block) : Except Error (ForkItem × ForkDatabase) := do
  let item ← f.link b
  let f := f.insert item
  return (f.head.getD item, f)

def popBlock : Except Error ForkDatabase :=
  match f.head with
  | none => .error .popEmptyForkDb
  | some head => match f.lockPrev head with
    | none => .error .popLastItem
    | some prev => .ok { f with head := some prev }

/-- Items below the cached range are erased. -/
def setMaxSize (s : Nat) : ForkDatabase :=
  match f.head with
  | none => { f with maxSize := s }
  | some head =>
    { f with maxSize := s, index := f.index.filter fun _ x => ¬ x.num < head.num - s }

def setHead (h : ForkItem) : ForkDatabase := { f with head := some h }

def remove (id : BlockId) : ForkDatabase :=
  { f with index := f.index.erase id }

def fetchBlock (id : BlockId) : Option ForkItem := f.index.find? id

def fetchBlockByNumber (num : Nat) : List ForkItem :=
  (f.index.entries.map Prod.snd).filter fun x => decide (x.num = num)

/-- A loop of `fetch_branch_from`: from `x` down to block number `num`, the items
passed and the item reached. -/
def walkDown (f : ForkDatabase) (num : Nat) : ForkItem → Option (List ForkItem × ForkItem)
  | .unlinked ref data =>
    if data.blockNum > num then none else some ([], .unlinked ref data)
  | .linked ref data prev =>
    if data.blockNum > num then
      if f.lock prev then
        (f.walkDown num prev).map fun r => (.linked ref data prev :: r.1, r.2)
      else none
    else some ([], .linked ref data prev)

/-- The last loop of `fetch_branch_from`: both branches down to the two items
with one previous block. -/
def walkBoth (f : ForkDatabase) : ForkItem → ForkItem → Option (List ForkItem × List ForkItem)
  | .unlinked ref data, second =>
    if data.previous ≠ second.previousId then none else some ([.unlinked ref data], [second])
  | .linked ref data prev, second =>
    if data.previous ≠ second.previousId then
      match f.lock prev, f.lockPrev second with
      | true, some prev₂ =>
        (f.walkBoth prev prev₂).map fun r => (.linked ref data prev :: r.1, second :: r.2)
      | _, _ => none
    else some ([.linked ref data prev], [second])

/-- `fetch_branch_from`: the branches of two blocks, from these down to two
blocks with one previous block. -/
def fetchBranchFrom (first second : BlockId) : Option (List ForkItem × List ForkItem) := do
  let firstBranch ← f.index.find? first
  let secondBranch ← f.index.find? second
  let (passed₁, firstBranch) ← f.walkDown secondBranch.num firstBranch
  let (passed₂, secondBranch) ← f.walkDown firstBranch.num secondBranch
  let (rest₁, rest₂) ← f.walkBoth firstBranch secondBranch
  return (passed₁ ++ rest₁, passed₂ ++ rest₂)

def walkMainBranchToNum (num : Nat) : Option ForkItem :=
  match f.head with
  | none => none
  | some head => if num > head.num then none else (f.walkDown num head).map Prod.snd

def fetchBlockOnMainBranchByNumber (num : Nat) : Option ForkItem :=
  match f.fetchBlockByNumber num with
  | [] => none
  | [x] => some x
  | _ :: _ :: _ => f.walkMainBranchToNum num

end ForkDatabase

end DeltaChain.Fork

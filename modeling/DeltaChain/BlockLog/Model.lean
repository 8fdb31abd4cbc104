import DeltaChain.Lib.Bytes
import DeltaChain.Lib.Checked

/-!
# The block log

`block_log`: two files, one with the blocks, each followed by its position, and one with the
positions alone. The files are byte arrays. A file is open either for reading or for writing at its
end, and is closed and opened again to change between the two; what is written is then in the file.

How blocks are packed is a parameter (`Format`), of which only that unpacking gives back what was
packed is known. A stream that comes to its end too early throws.
-/

namespace DeltaChain.BlockLog

open Lib Checked Bytes

/-- `fc::raw` for blocks, and `block_num`. -/
structure Format (Block : Type) where
  pack : Block → List UInt8
  unpack : List UInt8 → Option (Block × List UInt8)
  unpack_pack : ∀ b rest, unpack (pack b ++ rest) = some (b, rest)
  blockNum : Block → UInt32

/-- `sizeof( uint64_t )`. -/
def posSize : Nat := 8

def npos : Nat := 2 ^ 64 - 1

/-- `block_log_impl`. Of `head_id` only the number in it is used. -/
structure Log (Block : Type) where
  head : Option Block := none
  headNum : UInt32 := 0
  blockFile : List UInt8 := []
  indexFile : List UInt8 := []
  blockWrite : Bool := true
  indexWrite : Bool := true
deriving DecidableEq

def streamError : String := "basic_ios::clear: iostream error"

variable {Block : Type}

namespace Log

variable (s : Log Block)

def checkBlockRead : Log Block := { s with blockWrite := false }

def checkBlockWrite : Log Block := { s with blockWrite := true }

def checkIndexRead : Log Block := { s with indexWrite := false }

def checkIndexWrite : Log Block := { s with indexWrite := true }

end Log

-- # Streams

/-- `read( (char*)&pos, sizeof( pos ) )`: the position, and the rest of the stream. -/
def readPos (stream : List UInt8) : Checked (Nat × List UInt8) := do
  assert (posSize ≤ stream.length) streamError
  return (decode (stream.take posSize), stream.drop posSize)

/-- `seekg( -sizeof( uint64_t ), std::ios::end )` and `read`: the last position of a file. -/
def lastPos (file : List UInt8) : Checked Nat := do
  assert (posSize ≤ file.length) streamError
  let (pos, _) ← readPos (file.drop (file.length - posSize))
  return pos

-- # Reading and writing

variable (f : Format Block) (s : Log Block)

/-- `append`. Both files are written at their end. -/
def append (b : Block) : Checked (Nat × Log Block) := do
  let s := s.checkBlockWrite.checkIndexWrite
  let pos := s.blockFile.length
  assert (s.indexFile.length = posSize * (f.blockNum b - 1).toNat)
    "Append to index file occuring at wrong position."
  return (pos,
    { s with
      blockFile := s.blockFile ++ f.pack b ++ encode posSize pos
      indexFile := s.indexFile ++ encode posSize pos
      head := some b
      headNum := f.blockNum b })

/-- The block at a position, and the position of the next one. -/
def readBlockHelper (pos : Nat) : Checked ((Block × Nat) × Log Block) := do
  let s := s.checkBlockRead
  let (b, rest) ← get (f.unpack (s.blockFile.drop pos)) streamError
  return ((b, s.blockFile.length - rest.length + posSize), s)

def readBlock (pos : Nat) : Checked ((Block × Nat) × Log Block) :=
  readBlockHelper f s pos

def getBlockPosHelper (blockNum : UInt32) : Checked (Nat × Log Block) :=
  let s := s.checkIndexRead
  if s.head.isSome ∧ blockNum ≤ s.headNum ∧ blockNum > 0 then do
    let (pos, _) ← readPos (s.indexFile.drop (posSize * (blockNum - 1).toNat))
    return (pos, s)
  else return (npos, s)

def getBlockPos (blockNum : UInt32) : Checked (Nat × Log Block) :=
  getBlockPosHelper s blockNum

def readBlockByNum (blockNum : UInt32) : Checked (Option Block × Log Block) := do
  let (pos, s) ← getBlockPosHelper s blockNum
  if pos ≠ npos then do
    let ((b, _), s) ← readBlockHelper f s pos
    assert (f.blockNum b = blockNum) "Wrong block was read from block log."
    return (some b, s)
  else return (none, s)

def readHead : Checked (Block × Log Block) := do
  let s := s.checkBlockRead
  let pos ← lastPos s.blockFile
  let ((b, _), s) ← readBlockHelper f s pos
  return (b, s)

-- # Opening

/-- The loop of `construct_index` over the stream of blocks. Every round reads a position, so that
there are fewer rounds than bytes. -/
def indexLoop (endPos : Nat) : Nat → Nat → List UInt8 → List UInt8 → Checked (List UInt8)
  | rounds, pos, stream, index =>
    if pos < endPos then
      match rounds with
      | 0 => .error streamError
      | rounds + 1 => do
        let (_, stream) ← get (f.unpack stream) streamError
        let (pos, stream) ← readPos stream
        indexLoop endPos rounds pos stream (index ++ encode posSize pos)
    else return index

def constructIndex : Checked (Log Block) := do
  let s := { s with indexFile := [], indexWrite := true }.checkBlockRead
  let endPos ← lastPos s.blockFile
  let index ← indexLoop f endPos s.blockFile.length 0 s.blockFile []
  return { s with indexFile := index }

/-- `open`, of a new `block_log` on the two files. A file that is missing is made, and empty. -/
def openLog (blockFile indexFile : List UInt8) : Checked (Log Block) :=
  let s : Log Block := { blockFile, indexFile }
  if s.blockFile.length ≠ 0 then do
    let (b, s) ← readHead f s
    let s := { s with head := some b, headNum := f.blockNum b }
    if s.indexFile.length ≠ 0 then do
      let s := s.checkBlockRead.checkIndexRead
      let blockPos ← lastPos s.blockFile
      let indexPos ← lastPos s.indexFile
      if blockPos < indexPos then constructIndex f s
      else if blockPos > indexPos then constructIndex f s
      else return s
    else constructIndex f s
  else if s.indexFile.length ≠ 0 then return { s with indexFile := [], indexWrite := true }
  else return s

-- # Calls

/-- The calls to a log that is open. -/
inductive Call (Block : Type) where
  | append (b : Block)
  | readBlock (pos : Nat)
  | readBlockByNum (blockNum : UInt32)
  | getBlockPos (blockNum : UInt32)
  | readHead
  | head

inductive Answer (Block : Type) where
  | position (pos : Nat)
  | block (b : Block) (next : Nat)
  | found (b : Option Block)
deriving DecidableEq

def call : Call Block → Checked (Answer Block × Log Block)
  | .append b => do
    let (pos, s) ← append f s b
    return (.position pos, s)
  | .readBlock pos => do
    let ((b, next), s) ← readBlock f s pos
    return (.block b next, s)
  | .readBlockByNum blockNum => do
    let (b, s) ← readBlockByNum f s blockNum
    return (.found b, s)
  | .getBlockPos blockNum => do
    let (pos, s) ← getBlockPos s blockNum
    return (.position pos, s)
  | .readHead => do
    let (b, s) ← readHead f s
    return (.found (some b), s)
  | .head => return (.found s.head, s)

/-- One call after the other, with their answers. -/
def calls (s : Log Block) : List (Call Block) → Checked (List (Answer Block) × Log Block)
  | [] => return ([], s)
  | c :: cs => do
    let (answer, s) ← call f s c
    let (answers, s) ← calls s cs
    return (answer :: answers, s)

end DeltaChain.BlockLog

import DeltaChain.BlockLog.Model

/-!
# What is in the two files

`blockBytes` and `indexBytes` are the two files of a log that holds some blocks. A log `Holds` blocks
if these are its files and its head is the last block. Appending the next block keeps that
(`append_holds`), and every way to read gives the blocks back.
-/

namespace DeltaChain.BlockLog

open Lib Checked Bytes List

variable {Block : Type} (f : Format Block)

/-- The bytes of blocks, the first of which is at a position. -/
def layout : Nat → List Block → List UInt8
  | _, [] => []
  | pos, b :: l => f.pack b ++ (encode posSize pos ++ layout (pos + ((f.pack b).length + posSize)) l)

/-- The positions of blocks, the first of which is known. -/
def positions : Nat → List Block → List Nat
  | _, [] => []
  | pos, b :: l => pos :: positions (pos + ((f.pack b).length + posSize)) l

/-- The file of the blocks. -/
def blockBytes (l : List Block) : List UInt8 := layout f 0 l

/-- The file of their positions. -/
def indexBytes (l : List Block) : List UInt8 := (positions f 0 l).flatMap (encode posSize)

variable {f} {l pre post : List Block} {b : Block} {pos : Nat}

theorem layout_append (l m : List Block) (pos : Nat) :
    layout f pos (l ++ m) = layout f pos l ++ layout f (pos + (layout f pos l).length) m := by
  induction l generalizing pos with
  | nil => rfl
  | cons b l ih =>
    simp only [cons_append, layout, ih, append_assoc, length_append, length_encode]
    congr 4
    omega

theorem positions_append (l m : List Block) (pos : Nat) :
    positions f pos (l ++ m) = positions f pos l ++ positions f (pos + (layout f pos l).length) m := by
  induction l generalizing pos with
  | nil => rfl
  | cons b l ih =>
    simp only [cons_append, positions, layout, ih, length_append, length_encode]
    congr 3
    omega

theorem length_positions (l : List Block) (pos : Nat) : (positions f pos l).length = l.length := by
  induction l generalizing pos with
  | nil => rfl
  | cons b l ih => rw [positions, length_cons, length_cons, ih]

theorem length_indexBytes (l : List Block) : (indexBytes f l).length = posSize * l.length := by
  have hflat : ∀ ps : List Nat, (ps.flatMap (encode posSize)).length = posSize * ps.length := by
    intro ps
    induction ps with
    | nil => rfl
    | cons p ps ih =>
      rw [flatMap_cons, length_append, length_encode, ih, length_cons, Nat.mul_succ,
        Nat.add_comm]
  rw [indexBytes, hflat, length_positions]

theorem blockBytes_split (pre post : List Block) (b : Block) :
    blockBytes f (pre ++ b :: post) = blockBytes f pre ++ (f.pack b ++
      (encode posSize (blockBytes f pre).length ++
        layout f ((blockBytes f pre).length + ((f.pack b).length + posSize)) post)) := by
  rw [blockBytes, layout_append, Nat.zero_add]
  rfl

theorem indexBytes_split (pre post : List Block) (b : Block) :
    indexBytes f (pre ++ b :: post) = indexBytes f pre ++ (encode posSize (blockBytes f pre).length ++
      (positions f ((blockBytes f pre).length + ((f.pack b).length + posSize)) post).flatMap
        (encode posSize)) := by
  rw [indexBytes, positions_append, flatMap_append, Nat.zero_add, positions, flatMap_cons]
  rfl

theorem length_blockBytes_concat (pre : List Block) (b : Block) :
    (blockBytes f (pre ++ [b])).length =
      (blockBytes f pre).length + ((f.pack b).length + posSize) := by
  rw [blockBytes_split, layout, append_nil, length_append, length_append,
    length_encode]

theorem length_blockBytes_lt (pre post : List Block) (b : Block) :
    (blockBytes f pre).length + posSize ≤ (blockBytes f (pre ++ b :: post)).length := by
  rw [blockBytes_split]
  simp only [length_append, length_encode]
  omega

-- # Streams

theorem readPos_encode (hpos : pos < 2 ^ 64) (rest : List UInt8) :
    readPos (encode posSize pos ++ rest) = .ok (pos, rest) := by
  have hlen := length_encode posSize pos
  have hfits : posSize ≤ (encode posSize pos ++ rest).length := by
    rw [length_append, hlen]
    exact Nat.le_add_right _ _
  simp only [readPos, eq_ok]
  refine ⟨hfits, ?_⟩
  rw [take_left' hlen, drop_left' hlen, decode_encode_of_lt hpos]

theorem lastPos_encode (hpos : pos < 2 ^ 64) (bytes : List UInt8) :
    lastPos (bytes ++ encode posSize pos) = .ok pos := by
  have hlen : (bytes ++ encode posSize pos).length - posSize = bytes.length := by
    rw [length_append, length_encode, Nat.add_sub_cancel]
  have hfits : posSize ≤ (bytes ++ encode posSize pos).length := by
    rw [length_append, length_encode]
    exact Nat.le_add_left _ _
  have hread := readPos_encode hpos []
  simp only [lastPos, eq_ok]
  refine ⟨hfits, (pos, []), ?_, rfl⟩
  rw [hlen, drop_left]
  exact hread

-- # Logs

/-- The blocks have the numbers 1, 2 and so on. -/
def Numbered (f : Format Block) (l : List Block) : Prop :=
  ∀ i b, l[i]? = some b → (f.blockNum b).toNat = i + 1

theorem Numbered.split (h : Numbered f (pre ++ b :: post)) :
    (f.blockNum b).toNat = pre.length + 1 := by
  refine h pre.length b ?_
  rw [getElem?_append_right le_rfl, Nat.sub_self, getElem?_cons_zero]

/-- The log holds these blocks. -/
structure Holds (f : Format Block) (l : List Block) (s : Log Block) : Prop where
  blocks : s.blockFile = blockBytes f l
  index : s.indexFile = indexBytes f l
  head : s.head = l.getLast?
  headNum : ∀ b, l.getLast? = some b → s.headNum = f.blockNum b

variable {s : Log Block}

theorem Holds.checkBlockRead (h : Holds f l s) : Holds f l s.checkBlockRead :=
  ⟨h.blocks, h.index, h.head, h.headNum⟩

theorem Holds.checkIndexRead (h : Holds f l s) : Holds f l s.checkIndexRead :=
  ⟨h.blocks, h.index, h.head, h.headNum⟩

theorem holds_nil : Holds f [] ({} : Log Block) := ⟨rfl, rfl, rfl, nofun⟩

/-- **Appending the next block.** -/
theorem append_holds (h : Holds f l s) (hnum : (f.blockNum b).toNat = l.length + 1) :
    ∃ s', append f s b = .ok ((blockBytes f l).length, s') ∧ Holds f (l ++ [b]) s' := by
  have hindex : s.indexFile.length = posSize * (f.blockNum b - 1).toNat := by
    rw [h.index, length_indexBytes, UInt32.toNat_sub_of_le]
    · rw [hnum]
      rfl
    · rw [UInt32.le_iff_toNat_le, hnum]
      exact Nat.le_add_left _ _
  refine ⟨{ s.checkBlockWrite.checkIndexWrite with
      blockFile := s.blockFile ++ f.pack b ++ encode posSize s.blockFile.length
      indexFile := s.indexFile ++ encode posSize s.blockFile.length
      head := some b
      headNum := f.blockNum b }, ?_, ?_, ?_, ?_, ?_⟩
  · simp only [append, eq_ok]
    exact ⟨hindex, by rw [← h.blocks]; rfl⟩
  · rw [blockBytes_split, layout, append_nil, ← append_assoc, ← h.blocks]
  · rw [indexBytes_split, positions, flatMap_nil, append_nil, ← h.index, ← h.blocks]
  · rw [getLast?_concat]
  · intro c hc
    rw [getLast?_concat, Option.some.injEq] at hc
    rw [hc]

/-- **Reading a block** where it is. -/
theorem readBlockHelper_holds (h : s.blockFile = blockBytes f (pre ++ b :: post)) :
    readBlockHelper f s (blockBytes f pre).length =
      .ok ((b, (blockBytes f (pre ++ [b])).length), s.checkBlockRead) := by
  have hdrop : s.blockFile.drop (blockBytes f pre).length = f.pack b ++
      (encode posSize (blockBytes f pre).length ++
        layout f ((blockBytes f pre).length + ((f.pack b).length + posSize)) post) := by
    rw [h, blockBytes_split, drop_left]
  have hunpack := f.unpack_pack b (encode posSize (blockBytes f pre).length ++
    layout f ((blockBytes f pre).length + ((f.pack b).length + posSize)) post)
  rw [← hdrop] at hunpack
  simp only [readBlockHelper, eq_ok, get_eq_ok]
  refine ⟨_, hunpack, ?_⟩
  have hnext : s.checkBlockRead.blockFile.length - (encode posSize (blockBytes f pre).length ++
      layout f ((blockBytes f pre).length + ((f.pack b).length + posSize)) post).length + posSize =
      (blockBytes f (pre ++ [b])).length := by
    rw [length_blockBytes_concat]
    change s.blockFile.length - _ + _ = _
    rw [h, blockBytes_split]
    simp only [length_append, length_encode]
    omega
  rw [hnext]

theorem lastPos_blockBytes (hsize : (blockBytes f (pre ++ [b])).length < 2 ^ 64) :
    lastPos (blockBytes f (pre ++ [b])) = .ok (blockBytes f pre).length := by
  have hpos : (blockBytes f pre).length < 2 ^ 64 :=
    (Nat.le_add_right _ _).trans_lt ((length_blockBytes_lt pre [] b).trans_lt hsize)
  rw [blockBytes_split, layout, append_nil, ← append_assoc]
  exact lastPos_encode hpos _

/-- **Reading the head.** -/
theorem readHead_holds (h : s.blockFile = blockBytes f (pre ++ [b]))
    (hsize : (blockBytes f (pre ++ [b])).length < 2 ^ 64) :
    readHead f s = .ok (b, s.checkBlockRead) := by
  have hblocks : s.checkBlockRead.blockFile = blockBytes f (pre ++ [b]) := h
  have hlast : lastPos s.checkBlockRead.blockFile = .ok (blockBytes f pre).length := by
    rw [hblocks, lastPos_blockBytes hsize]
  simp only [readHead, hlast, ok_bind, readBlockHelper_holds hblocks]
  rfl

/-- **The index** has the position of every block. -/
theorem getBlockPosHelper_holds (h : Holds f (pre ++ b :: post) s)
    (hnum : Numbered f (pre ++ b :: post)) (hsize : (blockBytes f (pre ++ b :: post)).length < 2 ^ 64) :
    getBlockPosHelper s (f.blockNum b) = .ok ((blockBytes f pre).length, s.checkIndexRead) := by
  have hb := hnum.split
  have hpos : (blockBytes f pre).length < 2 ^ 64 :=
    (Nat.le_add_right _ _).trans_lt ((length_blockBytes_lt pre post b).trans_lt hsize)
  obtain ⟨last, hlast⟩ : ∃ last, (pre ++ b :: post).getLast? = some last :=
    ⟨_, getLast?_eq_some_getLast (by simp)⟩
  have hheadNum : f.blockNum b ≤ s.headNum := by
    -- the head is the last block
    rw [h.headNum last hlast, UInt32.le_iff_toNat_le, hb]
    rw [getLast?_eq_getElem?] at hlast
    have := hnum _ _ hlast
    simp only [length_append, length_cons] at this
    omega
  have hread : s.checkIndexRead.head.isSome ∧ f.blockNum b ≤ s.checkIndexRead.headNum ∧
      f.blockNum b > 0 := by
    refine ⟨?_, hheadNum, ?_⟩
    · change s.head.isSome = true
      rw [h.head, hlast]
      rfl
    · change 0 < f.blockNum b
      rw [UInt32.lt_iff_toNat_lt, hb]
      exact Nat.succ_pos _
  have hdrop : s.indexFile.drop (posSize * (f.blockNum b - 1).toNat) =
      encode posSize (blockBytes f pre).length ++
        (positions f ((blockBytes f pre).length + ((f.pack b).length + posSize)) post).flatMap
          (encode posSize) := by
    have hlen : posSize * (f.blockNum b - 1).toNat = (indexBytes f pre).length := by
      rw [length_indexBytes, UInt32.toNat_sub_of_le _ _ (by
        rw [UInt32.le_iff_toNat_le, hb]; exact Nat.le_add_left _ _), hb]
      rfl
    rw [h.index, indexBytes_split, hlen, drop_left]
  have hentry := readPos_encode hpos
    ((positions f ((blockBytes f pre).length + ((f.pack b).length + posSize)) post).flatMap
      (encode posSize))
  rw [← hdrop] at hentry
  rw [getBlockPosHelper, if_pos hread]
  simp only [eq_ok]
  exact ⟨_, hentry, rfl⟩

end DeltaChain.BlockLog

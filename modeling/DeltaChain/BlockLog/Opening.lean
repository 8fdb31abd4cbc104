import DeltaChain.BlockLog.Reading

/-!
# Opening a log again

`open` keeps the index if its last entry is the position of the head, and makes it anew otherwise.
What it makes is right if there are at least two blocks: with one block the head is at position 0,
where the loop of `construct_index` stops before it has read anything (`made`). An index that is shorter than one entry makes `open` throw, and one that
ends as it should is taken as it is. `open_restores_iff` says for which indices the log is afterwards
the one that was closed.
-/

namespace DeltaChain.BlockLog

open Lib Checked Bytes List

variable {Block : Type} {f : Format Block} {l pre : List Block} {b : Block} {s s' : Log Block}

-- # Making the index

/-- The position of the last block, and 0 if there is none. -/
def lastAt (f : Format Block) (l : List Block) : Nat := (blockBytes f l.dropLast).length

theorem lastAt_concat (pre : List Block) (b : Block) :
    lastAt f (pre ++ [b]) = (blockBytes f pre).length := by
  rw [lastAt, dropLast_concat]

/-- As long as blocks are left, the loop is not at the head. -/
theorem lastAt_lt {done rest : List Block} {c : Block} (hl : 2 ≤ (done ++ c :: rest).length) :
    lastAt f done < lastAt f (done ++ c :: rest) := by
  have hlast : (done ++ c :: rest).dropLast = done ++ (c :: rest).dropLast :=
    dropLast_append_of_ne_nil (cons_ne_nil c rest)
  rw [lastAt, lastAt, hlast]
  rcases eq_nil_or_concat' done with rfl | ⟨d, x, rfl⟩
  · -- nothing was read yet, and the first block is not the head
    cases rest with
    | nil => exact absurd hl (Nat.not_succ_le_self 1)
    | cons c' rest =>
      have hroom := length_blockBytes_lt (f := f) [] (c' :: rest).dropLast c
      exact (Nat.lt_add_of_pos_right (by decide)).trans_le hroom
  · rw [dropLast_concat]
    have hroom := length_blockBytes_lt (f := f) d (c :: rest).dropLast x
    rw [append_cons] at hroom
    exact (Nat.lt_add_of_pos_right (by decide)).trans_le hroom

/-- **The loop** makes the index, if there are at least two blocks. -/
theorem indexLoop_holds (done rest : List Block) {rounds : Nat} (hl : 2 ≤ (done ++ rest).length)
    (hsize : (blockBytes f (done ++ rest)).length < 2 ^ 64) (hrounds : rest.length ≤ rounds) :
    indexLoop f (lastAt f (done ++ rest)) rounds (lastAt f done)
      (layout f (blockBytes f done).length rest) (indexBytes f done) =
        .ok (indexBytes f (done ++ rest)) := by
  induction rest generalizing done rounds with
  | nil =>
    rw [append_nil]
    unfold indexLoop
    rw [if_neg (lt_irrefl _)]
    rfl
  | cons c rest ih =>
    obtain ⟨rounds, rfl⟩ := Nat.exists_eq_add_of_le' ((Nat.succ_pos _).trans_le hrounds)
    have hpos : (blockBytes f done).length < 2 ^ 64 :=
      (Nat.le_add_right _ _).trans_lt ((length_blockBytes_lt done rest c).trans_lt hsize)
    have hlt := lastAt_lt (f := f) hl
    rw [append_cons] at hl hsize hlt ⊢
    have ih := ih (done ++ [c]) hl hsize (Nat.le_of_succ_le_succ hrounds)
    rw [lastAt_concat, length_blockBytes_concat, indexBytes_split, positions, flatMap_nil,
      append_nil] at ih
    have hunpack := f.unpack_pack c (encode posSize (blockBytes f done).length ++
      layout f ((blockBytes f done).length + ((f.pack c).length + posSize)) rest)
    unfold indexLoop
    rw [if_pos hlt]
    simp only [layout, get_eq_ok.mpr hunpack, ok_bind, readPos_encode hpos]
    exact ih

/-- The index that is made. -/
def made (f : Format Block) (l : List Block) : List UInt8 :=
  if 2 ≤ l.length then indexBytes f l else []

theorem length_le_blockBytes (l : List Block) : l.length ≤ (blockBytes f l).length := by
  induction l using List.reverseRecOn with
  | nil => exact Nat.zero_le _
  | append_singleton l b ih =>
    rw [length_blockBytes_concat, length_append, length_singleton]
    unfold posSize
    omega

/-- **`construct_index`.** -/
theorem constructIndex_holds (pre : List Block) (b : Block) (h : s.blockFile = blockBytes f (pre ++ [b]))
    (hsize : (blockBytes f (pre ++ [b])).length < 2 ^ 64) :
    constructIndex f s =
      .ok { s with indexFile := made f (pre ++ [b]), indexWrite := true, blockWrite := false } := by
  have hlast : lastPos s.blockFile = .ok (lastAt f (pre ++ [b])) := by
    rw [h, lastPos_blockBytes hsize, lastAt_concat]
  have hloop : indexLoop f (lastAt f (pre ++ [b])) s.blockFile.length 0 s.blockFile [] =
      .ok (made f (pre ++ [b])) := by
    rw [h]
    unfold made
    split
    · next hl =>
      exact indexLoop_holds [] (pre ++ [b]) hl hsize (length_le_blockBytes _)
    · -- the only block is at position 0
      next hl =>
      obtain rfl : pre = [] := by
        rw [length_append, length_singleton] at hl
        exact eq_nil_of_length_eq_zero (by omega)
      unfold indexLoop
      have hend : ¬ 0 < lastAt f ([] ++ [b]) := by
        exact lt_irrefl 0
      rfl
  simp only [constructIndex, Log.checkBlockRead, hlast, hloop, ok_bind]
  rfl

-- # Open

/-- A log without how its files are open. -/
def Log.forget (s : Log Block) : Log Block := { s with blockWrite := false, indexWrite := false }

/-- A log with these blocks and this index. -/
def logOf (f : Format Block) (l : List Block) (index : List UInt8) : Log Block where
  head := l.getLast?
  headNum := (l.getLast?.map f.blockNum).getD 0
  blockFile := blockBytes f l
  indexFile := index
  blockWrite := false
  indexWrite := false

/-- The index after `open`. -/
def indexAfter (f : Format Block) (l : List Block) (index : List UInt8) : Checked (List UInt8) :=
  if l = [] then return []
  else if index = [] then return made f l
  else do
    let pos ← lastPos index
    return if pos = lastAt f l then index else made f l

/-- **What `open` does.** -/
theorem openLog_eq (hsize : (blockBytes f l).length < 2 ^ 64) (index : List UInt8) :
    (openLog f (blockBytes f l) index).map Log.forget = (indexAfter f l index).map (logOf f l) := by
  rcases eq_nil_or_concat' l with rfl | ⟨pre, b, rfl⟩
  · -- no blocks
    cases index with
    | nil => rfl
    | cons x index => rfl
  · have hsome : (blockBytes f (pre ++ [b])).length ≠ 0 := by
      rw [length_blockBytes_concat]
      unfold posSize
      omega
    have hhead := readHead_holds (s := { blockFile := blockBytes f (pre ++ [b]), indexFile := index })
      rfl hsize
    have hlogOf : ∀ i, logOf f (pre ++ [b]) i =
        { head := some b, headNum := f.blockNum b, blockFile := blockBytes f (pre ++ [b]),
          indexFile := i, blockWrite := false, indexWrite := false } := by
      intro i
      rw [logOf, getLast?_concat]
      rfl
    have hl : pre ++ [b] ≠ [] := append_ne_nil_of_right_ne_nil _ (cons_ne_nil b [])
    unfold openLog indexAfter
    simp only [if_pos hsome, if_neg hl, hhead, ok_bind, Log.checkBlockRead, Log.checkIndexRead]
    cases index with
    | nil =>
      simp only [length_nil, ne_eq, not_true_eq_false, if_false, if_true]
      rw [constructIndex_holds pre b rfl hsize]
      exact congrArg Except.ok (hlogOf _).symm
    | cons x index =>
      have hindex : (x :: index).length ≠ 0 := Nat.succ_ne_zero _
      simp only [if_pos hindex, if_neg (cons_ne_nil x index), lastPos_blockBytes hsize, ok_bind,
        lastAt_concat]
      cases hpos : lastPos (x :: index) with
      | error e => rfl
      | ok pos =>
        simp only [ok_bind]
        rcases lt_trichotomy (blockBytes f pre).length pos with hlt | rfl | hgt
        · -- the index is ahead
          rw [if_pos hlt, if_neg hlt.ne', constructIndex_holds pre b rfl hsize]
          exact congrArg Except.ok (hlogOf _).symm
        · rw [if_neg (lt_irrefl _), if_neg (lt_irrefl _), if_pos rfl]
          exact congrArg Except.ok (hlogOf _).symm
        · -- the index is behind
          rw [if_neg hgt.le.not_gt, if_pos hgt, if_neg hgt.ne, constructIndex_holds pre b rfl hsize]
          exact congrArg Except.ok (hlogOf _).symm

-- # The log that was never closed

/-- The answer, and the log without how its files are open. -/
def outcome {α : Type} (r : Checked (α × Log Block)) : Checked (α × Log Block) :=
  r.map (Prod.map id Log.forget)

theorem readBlockHelper_forget (s : Log Block) (pos : Nat) :
    outcome (readBlockHelper f s pos) = outcome (readBlockHelper f s.forget pos) := by
  change outcome (get (f.unpack (s.blockFile.drop pos)) streamError >>= _) =
    outcome (get (f.unpack (s.blockFile.drop pos)) streamError >>= _)
  cases get (f.unpack (s.blockFile.drop pos)) streamError with
  | error e => rfl
  | ok r => rfl

theorem getBlockPosHelper_forget (s : Log Block) (n : UInt32) :
    outcome (getBlockPosHelper s n) = outcome (getBlockPosHelper s.forget n) := by
  change outcome (if s.head.isSome = true ∧ n ≤ s.headNum ∧ n > 0 then _ else _) =
    outcome (if s.head.isSome = true ∧ n ≤ s.headNum ∧ n > 0 then _ else _)
  split
  · change outcome (readPos (s.indexFile.drop (posSize * (n - 1).toNat)) >>= _) =
      outcome (readPos (s.indexFile.drop (posSize * (n - 1).toNat)) >>= _)
    cases readPos (s.indexFile.drop (posSize * (n - 1).toNat)) with
    | error e => rfl
    | ok r => rfl
  · rfl

/-- What comes after a call does not see how the files are open, if what follows does not. -/
theorem outcome_bind {α β : Type} {x y : Checked (α × Log Block)}
    {k : α → Log Block → Checked (β × Log Block)} (hxy : outcome x = outcome y)
    (hk : ∀ a s, outcome (k a s) = outcome (k a s.forget)) :
    outcome (x >>= fun r => k r.1 r.2) = outcome (y >>= fun r => k r.1 r.2) := by
  cases x with
  | error e =>
    cases y with
    | error e' =>
      injection hxy with hxy
      rw [hxy]
    | ok r' => cases hxy
  | ok r =>
    cases y with
    | error e' => cases hxy
    | ok r' =>
      injection hxy with hxy
      obtain ⟨hfst, hsnd⟩ := Prod.mk.inj hxy
      change outcome (k r.1 r.2) = outcome (k r'.1 r'.2)
      rw [hk r.1 r.2, hk r'.1 r'.2]
      change r.1 = r'.1 at hfst
      rw [hfst, hsnd]

/-- **A call** does not see how the files are open. -/
theorem call_forget (s : Log Block) (c : Call Block) :
    outcome (call f s c) = outcome (call f s.forget c) := by
  cases c with
  | append b => rfl
  | readBlock pos =>
    exact outcome_bind (k := fun r s => pure (Answer.block r.1 r.2, s)) (readBlockHelper_forget s pos)
      fun _ _ => rfl
  | readBlockByNum n =>
    refine outcome_bind (k := fun r s => pure (Answer.found r, s)) ?_ fun _ _ => rfl
    refine outcome_bind (k := fun pos s => if pos ≠ npos then do
        let r ← readBlockHelper f s pos
        assert (f.blockNum r.1.1 = n) "Wrong block was read from block log."
        return (some r.1.1, r.2)
      else return (none, s)) (getBlockPosHelper_forget s n) ?_
    intro pos s
    split
    · refine outcome_bind (k := fun r s => do
        assert (f.blockNum r.1 = n) "Wrong block was read from block log."
        return (some r.1, s)) (readBlockHelper_forget s pos) ?_
      intro r s
      cases assert (f.blockNum r.1 = n) "Wrong block was read from block log." with
      | error e => rfl
      | ok u => rfl
    · rfl
  | getBlockPos n =>
    exact outcome_bind (k := fun pos s => pure (Answer.position pos, s)) (getBlockPosHelper_forget s n)
      fun _ _ => rfl
  | readHead =>
    refine outcome_bind (k := fun r s => pure (Answer.found (some r), s)) ?_ fun _ _ => rfl
    change outcome (lastPos s.blockFile >>= _) = outcome (lastPos s.blockFile >>= _)
    cases lastPos s.blockFile with
    | error e => rfl
    | ok pos =>
      refine outcome_bind (k := fun (r : Block × Nat) s => pure (r.1, s)) ?_ fun _ _ => rfl
      rw [readBlockHelper_forget s.checkBlockRead, readBlockHelper_forget s.forget.checkBlockRead]
      rfl
  | head => rfl

/-- **Calls** do not see how the files are open. -/
theorem calls_forget (s : Log Block) (cs : List (Call Block)) :
    outcome (calls f s cs) = outcome (calls f s.forget cs) := by
  induction cs generalizing s with
  | nil => rfl
  | cons c cs ih =>
    refine outcome_bind (k := fun answer s => do
      let r ← calls f s cs
      return (answer :: r.1, r.2)) (call_forget s c) ?_
    intro answer s
    exact outcome_bind (k := fun answers s => pure (answer :: answers, s)) (ih s) fun _ _ => rfl

theorem calls_answers {s₀ : Log Block} (h : s.forget = s₀.forget) (cs : List (Call Block)) :
    (calls f s cs).map Prod.fst = (calls f s₀ cs).map Prod.fst := by
  have hsame : outcome (calls f s cs) = outcome (calls f s₀ cs) := by
    rw [calls_forget s, calls_forget s₀, h]
  have hfst : ∀ r : Checked (List (Answer Block) × Log Block),
      r.map Prod.fst = (outcome r).map Prod.fst := by
    intro r
    cases r with
    | error e => rfl
    | ok r => rfl
  rw [hfst, hsame, ← hfst]

theorem forget_appended {answers : List (Answer Block)} (hnum : Numbered f l)
    (h : calls f {} (l.map .append) = .ok (answers, s)) : s.forget = logOf f l (indexBytes f l) := by
  have hs : Holds f ([] ++ appended (l.map .append)) s :=
    calls_hold holds_nil (by rw [appended_map_append]; exact hnum) h
  rw [appended_map_append, nil_append] at hs
  rcases eq_nil_or_concat' l with rfl | ⟨pre, b, rfl⟩
  · rw [map_nil, calls, pure_eq_ok, Prod.mk.injEq] at h
    rw [← h.2]
    rfl
  · have hlast : (pre ++ [b]).getLast? = some b := getLast?_concat
    rw [Log.forget, logOf, hs.blocks, hs.index, hs.head, hs.headNum b hlast, hlast]
    rfl

/-- The indices with which `open` gives back the log that was closed: the right one; any, if there
are no blocks; and with two blocks or more none at all, or one that does not end with the position
of the head. -/
def Restorable (f : Format Block) (l : List Block) (index : List UInt8) : Prop :=
  index = indexBytes f l ∨ l = [] ∨
    2 ≤ l.length ∧ (index = [] ∨ ∃ pos, lastPos index = .ok pos ∧ pos ≠ lastAt f l)

theorem lastPos_indexBytes (hl : l ≠ []) (hsize : (blockBytes f l).length < 2 ^ 64) :
    lastPos (indexBytes f l) = .ok (lastAt f l) := by
  rcases eq_nil_or_concat' l with rfl | ⟨pre, b, rfl⟩
  · exact absurd rfl hl
  · have hpos : (blockBytes f pre).length < 2 ^ 64 :=
      (Nat.le_add_right _ _).trans_lt ((length_blockBytes_lt pre [] b).trans_lt hsize)
    rw [lastAt_concat, indexBytes_split, positions, flatMap_nil, append_nil,
      lastPos_encode hpos]

theorem indexBytes_ne_nil (hl : l ≠ []) : indexBytes f l ≠ [] := by
  intro hnil
  have hlen := length_indexBytes (f := f) l
  rw [hnil, length_nil] at hlen
  have hpos := length_pos_iff.mpr hl
  unfold posSize at hlen
  omega

theorem made_eq_iff (hl : l ≠ []) : made f l = indexBytes f l ↔ 2 ≤ l.length := by
  unfold made
  constructor
  · intro h
    by_contra hlt
    rw [if_neg hlt] at h
    exact indexBytes_ne_nil hl h.symm
  · intro h
    rw [if_pos h]

theorem indexAfter_eq_iff (index : List UInt8) (hsize : (blockBytes f l).length < 2 ^ 64) :
    indexAfter f l index = .ok (indexBytes f l) ↔ Restorable f l index := by
  unfold indexAfter Restorable
  by_cases hl : l = []
  · subst hl
    exact ⟨fun _ => .inr (.inl rfl), fun _ => rfl⟩
  rw [if_neg hl]
  have hright := lastPos_indexBytes hl hsize
  by_cases hindex : index = []
  · subst hindex
    rw [if_pos rfl, pure_eq_ok, made_eq_iff hl]
    constructor
    · intro h
      exact .inr (.inr ⟨h, .inl rfl⟩)
    · rintro (h | h | h)
      · exact absurd h.symm (indexBytes_ne_nil hl)
      · exact absurd h hl
      · exact h.1
  rw [if_neg hindex]
  cases hpos : lastPos index with
  | error e =>
    -- too short for an entry
    constructor
    · intro h
      cases h
    · rintro (rfl | h | ⟨-, h | ⟨_, h, -⟩⟩)
      · rw [hright] at hpos
        cases hpos
      · exact absurd h hl
      · exact absurd h hindex
      · cases h
  | ok pos =>
    rw [ok_bind, pure_eq_ok]
    by_cases hlast : pos = lastAt f l
    · rw [if_pos hlast]
      constructor
      · exact .inl
      · rintro (h | h | ⟨-, h | ⟨_, h, hne⟩⟩)
        · exact h
        · exact absurd h hl
        · exact absurd h hindex
        · injection h with h
          exact absurd (h.symm.trans hlast) hne
    · rw [if_neg hlast, made_eq_iff hl]
      constructor
      · intro h
        exact .inr (.inr ⟨h, .inr ⟨pos, rfl, hlast⟩⟩)
      · rintro (rfl | h | h)
        · rw [hright] at hpos
          injection hpos with hpos
          exact absurd hpos.symm hlast
        · exact absurd h hl
        · exact h.1

/-- **A log that is opened again.** With blocks 1, 2, …, n in the block file, `open` succeeds and
leaves the index with the positions of the blocks, and every later sequence of calls has the answers
that it has on the log that was never closed, exactly if the index file was `Restorable`. -/
theorem open_restores_iff (f : Format Block) (l : List Block) (index : List UInt8)
    (hnum : Numbered f l) (hsize : (blockBytes f l).length < 2 ^ 64) :
    (∃ s, openLog f (blockBytes f l) index = .ok s ∧ s.indexFile = indexBytes f l ∧
      ∀ answers s₀, calls f {} (l.map .append) = .ok (answers, s₀) →
        ∀ cs, (calls f s cs).map Prod.fst = (calls f s₀ cs).map Prod.fst) ↔
      Restorable f l index := by
  rw [← indexAfter_eq_iff index hsize]
  have hopen := openLog_eq hsize index
  constructor
  · rintro ⟨s, hs, hindex, -⟩
    rw [hs] at hopen
    cases hafter : indexAfter f l index with
    | error e =>
      rw [hafter] at hopen
      cases hopen
    | ok i =>
      rw [hafter] at hopen
      injection hopen with hopen
      have hi : s.forget.indexFile = i := by
        rw [hopen]
        rfl
      rw [← hi, ← hindex]
      rfl
  · intro hafter
    rw [hafter] at hopen
    cases hs : openLog f (blockBytes f l) index with
    | error e =>
      rw [hs] at hopen
      cases hopen
    | ok s =>
      rw [hs] at hopen
      injection hopen with hopen
      refine ⟨s, rfl, congrArg Log.indexFile hopen, ?_⟩
      intro answers s₀ hcalls cs
      exact calls_answers (hopen.trans (forget_appended hnum hcalls).symm) cs

/-- The index of two blocks is lost, and made again. -/
theorem open_restores_two :
    ∃ s, openLog numberFormat (blockBytes numberFormat [1, 2]) [] = .ok s ∧
      s.indexFile = indexBytes numberFormat [1, 2] ∧
      ∀ answers s₀, calls numberFormat {} ([1, 2].map .append) = .ok (answers, s₀) →
        ∀ cs, (calls numberFormat s cs).map Prod.fst = (calls numberFormat s₀ cs).map Prod.fst :=
  (open_restores_iff numberFormat [1, 2] [] numbered_two (by decide +kernel)).mpr
    (.inr (.inr ⟨le_rfl, .inl rfl⟩))

/-- The index of one block is lost and made again: it is empty, and the next block is refused, which
the log that was never closed takes. -/
theorem open_single_block :
    (openLog numberFormat (blockBytes numberFormat [1]) []).map (·.indexFile) = .ok [] ∧
      indexBytes numberFormat [1] = encode posSize 0 ∧
      (do
        let s ← openLog numberFormat (blockBytes numberFormat [1]) []
        calls numberFormat s [.append 2]).map Prod.fst =
          .error "Append to index file occuring at wrong position." ∧
      (calls numberFormat {} [.append 1, .append 2]).map Prod.fst =
        .ok [.position 0, .position 12] := by
  decide +kernel

end DeltaChain.BlockLog

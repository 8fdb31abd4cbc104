import DeltaChain.BlockLog.Layout

/-!
# Reading what was appended

Whatever is read in between, a log to which the blocks 1, 2, …, n were appended gives them back, by
number, one after the other from the start of the file, and the last one as its head
(`log_reads_back`).
-/

namespace DeltaChain.BlockLog

open Lib Checked Bytes List

variable {Block : Type} {f : Format Block} {l : List Block} {b : Block} {s s' : Log Block}

-- # Calls

/-- The blocks that calls append. -/
def appended : List (Call Block) → List Block
  | [] => []
  | .append b :: cs => b :: appended cs
  | _ :: cs => appended cs

theorem appended_of_ne {c : Call Block} (hc : ¬ ∃ b, c = .append b) (cs : List (Call Block)) :
    appended (c :: cs) = appended cs := by
  cases c with
  | append b => exact absurd ⟨b, rfl⟩ hc
  | readBlock _ => rfl
  | readBlockByNum _ => rfl
  | getBlockPos _ => rfl
  | readHead => rfl
  | head => rfl

/-- What a call that only reads leaves behind. -/
theorem call_reads {c : Call Block} {answer : Answer Block} (hc : ∀ b, c ≠ .append b)
    (h : call f s c = .ok (answer, s')) (hs : Holds f l s) : Holds f l s' := by
  have hread : ∀ {s s' : Log Block} {pos : Nat} {r : Block × Nat}, Holds f l s →
      readBlockHelper f s pos = .ok (r, s') → Holds f l s' := by
    intro s s' pos r hs h
    simp only [readBlockHelper, eq_ok, Prod.mk.injEq] at h
    obtain ⟨-, -, -, rfl⟩ := h
    exact hs.checkBlockRead
  have hpos : ∀ {s s' : Log Block} {n : UInt32} {pos : Nat}, Holds f l s →
      getBlockPosHelper s n = .ok (pos, s') → Holds f l s' := by
    intro s s' n pos hs h
    unfold getBlockPosHelper at h
    dsimp only at h
    split at h
    · simp only [eq_ok, Prod.mk.injEq] at h
      obtain ⟨-, -, -, rfl⟩ := h
      exact hs.checkIndexRead
    · rw [pure_eq_ok, Prod.mk.injEq] at h
      exact h.2 ▸ hs.checkIndexRead
  cases c with
  | append b => exact absurd rfl (hc b)
  | readBlock pos =>
    simp only [call, readBlock, eq_ok, Prod.mk.injEq] at h
    obtain ⟨⟨r, s₁⟩, h₁, -, rfl⟩ := h
    exact hread hs h₁
  | readBlockByNum n =>
    simp only [call, readBlockByNum, eq_ok, Prod.mk.injEq] at h
    obtain ⟨⟨r, s₂⟩, ⟨⟨pos, s₁⟩, h₁, h₂⟩, -, rfl⟩ := h
    have hs₁ := hpos hs h₁
    split at h₂
    · simp only [eq_ok, Prod.mk.injEq] at h₂
      obtain ⟨⟨r', s₃⟩, h₃, -, -, rfl⟩ := h₂
      exact hread hs₁ h₃
    · rw [pure_eq_ok, Prod.mk.injEq] at h₂
      exact h₂.2 ▸ hs₁
  | getBlockPos n =>
    simp only [call, getBlockPos, eq_ok, Prod.mk.injEq] at h
    obtain ⟨⟨pos, s₁⟩, h₁, -, rfl⟩ := h
    exact hpos hs h₁
  | readHead =>
    simp only [call, readHead, eq_ok, Prod.mk.injEq] at h
    obtain ⟨⟨r, s₂⟩, ⟨pos, -, ⟨r', s₁⟩, h₁, -, rfl⟩, -, rfl⟩ := h
    exact hread hs.checkBlockRead h₁
  | head =>
    simp only [call, pure_eq_ok, Prod.mk.injEq] at h
    exact h.2 ▸ hs

/-- **Calls keep the log what it should be**, with the blocks that they append. -/
theorem calls_hold {cs : List (Call Block)} {answers : List (Answer Block)}
    (hs : Holds f l s) (hnum : Numbered f (l ++ appended cs))
    (h : calls f s cs = .ok (answers, s')) : Holds f (l ++ appended cs) s' := by
  induction cs generalizing l s answers with
  | nil =>
    rw [calls, pure_eq_ok, Prod.mk.injEq] at h
    rw [appended, append_nil]
    exact h.2 ▸ hs
  | cons c cs ih =>
    simp only [calls, eq_ok, Prod.mk.injEq] at h
    obtain ⟨⟨answer, s₁⟩, h₁, ⟨answers', s₂⟩, h₂, -, rfl⟩ := h
    by_cases hc : ∃ b, c = .append b
    · obtain ⟨b, rfl⟩ := hc
      rw [appended] at hnum ⊢
      obtain ⟨s₁', happend, hs₁⟩ := append_holds hs hnum.split
      simp only [call, happend, ok_bind, pure_eq_ok, Prod.mk.injEq] at h₁
      obtain ⟨-, rfl⟩ := h₁
      rw [append_cons] at hnum ⊢
      exact ih hs₁ hnum h₂
    · rw [appended_of_ne hc] at hnum ⊢
      exact ih (call_reads (fun b hb => hc ⟨b, hb⟩) h₁ hs) hnum h₂

/-- **Appending the blocks** succeeds, and returns where they are. -/
theorem append_all {m : List Block} (hs : Holds f l s) (hnum : Numbered f (l ++ m)) :
    ∃ s', calls f s (m.map .append) =
      .ok ((positions f (blockBytes f l).length m).map .position, s') := by
  induction m generalizing l s with
  | nil => exact ⟨s, rfl⟩
  | cons b m ih =>
    obtain ⟨s₁, happend, hs₁⟩ := append_holds hs hnum.split
    rw [append_cons] at hnum
    obtain ⟨s', hrest⟩ := ih hs₁ hnum
    refine ⟨s', ?_⟩
    rw [length_blockBytes_concat] at hrest
    have hcall : call f s (.append b) = .ok (.position (blockBytes f l).length, s₁) := by
      simp only [call, happend, ok_bind]
      rfl
    simp only [map_cons, calls, hcall, ok_bind, hrest, positions]
    rfl

theorem appended_map_append (m : List Block) : appended (m.map .append) = m := by
  induction m with
  | nil => rfl
  | cons b m ih => rw [map_cons, appended, ih]

-- # Reading

/-- There is no position for a number that no block has. -/
theorem getBlockPosHelper_outside (hs : Holds f l s) (hnum : Numbered f l) {k : UInt32}
    (hk : k = 0 ∨ l.length < k.toNat) : getBlockPosHelper s k = .ok (npos, s.checkIndexRead) := by
  unfold getBlockPosHelper
  rw [if_neg]
  · rfl
  rintro ⟨hhead, hle, hpos⟩
  rcases hk with rfl | hk
  · cases hpos
  · change s.head.isSome = true at hhead
    rw [hs.head] at hhead
    obtain ⟨b, hb⟩ := Option.isSome_iff_exists.mp hhead
    change k ≤ s.headNum at hle
    rw [hs.headNum b hb, UInt32.le_iff_toNat_le] at hle
    rw [getLast?_eq_getElem?] at hb
    have hlast := hnum _ _ hb
    have hlt := (List.getElem?_eq_some_iff.mp hb).1
    omega

/-- **By number.** -/
theorem readBlockByNum_holds (hs : Holds f l s) (hnum : Numbered f l)
    (hsize : (blockBytes f l).length < 2 ^ 64) (k : UInt32) :
    (readBlockByNum f s k).map Prod.fst = .ok (if k = 0 then none else l[k.toNat - 1]?) := by
  by_cases hk : k = 0 ∨ l.length < k.toNat
  · have hnone : (if k = 0 then none else l[k.toNat - 1]?) = none := by
      rcases hk with hk | hk
      · exact if_pos hk
      · rw [getElem?_eq_none (Nat.le_sub_one_of_lt hk), ite_self]
    rw [hnone, readBlockByNum, getBlockPosHelper_outside hs hnum hk, ok_bind]
    dsimp only
    rfl
  · obtain ⟨hzero, hle⟩ := not_or.mp hk
    have hpos : 0 < k.toNat := Nat.pos_of_ne_zero fun h0 => hzero (UInt32.toNat_inj.mp h0)
    have hlt : k.toNat - 1 < l.length := by omega
    -- the block and what is before and after it
    obtain ⟨pre, b, post, rfl, hpre⟩ : ∃ pre b post, l = pre ++ b :: post ∧ pre.length = k.toNat - 1 :=
      ⟨l.take (k.toNat - 1), l[k.toNat - 1], l.drop (k.toNat - 1 + 1),
        by rw [getElem_cons_drop, take_append_drop],
        length_take_of_le hlt.le⟩
    have hb : f.blockNum b = k := UInt32.toNat_inj.mp (by rw [hnum.split]; omega)
    have hentry := getBlockPosHelper_holds hs hnum hsize
    rw [hb] at hentry
    have hne : (blockBytes f pre).length ≠ npos := by
      have hroom := length_blockBytes_lt (f := f) pre post b
      unfold npos
      unfold posSize at hroom
      omega
    rw [if_neg hzero, ← hpre, getElem?_append_right le_rfl, Nat.sub_self,
      getElem?_cons_zero]
    simp only [readBlockByNum, hentry, ok_bind, if_pos hne, readBlockHelper_holds hs.checkIndexRead.blocks,
      assert, if_pos hb]
    rfl

/-- `read_block` again and again, each time at the position that the one before returned. -/
def readOn (f : Format Block) (s : Log Block) (pos : Nat) :
    Nat → Checked (List (Block × Nat) × Log Block)
  | 0 => return ([], s)
  | n + 1 => do
    let ((b, next), s) ← readBlock f s pos
    let (rest, s) ← readOn f s next n
    return ((b, next) :: rest, s)

/-- **One after the other.** -/
theorem readOn_holds {pre post : List Block} (hs : Holds f (pre ++ post) s) :
    (readOn f s (blockBytes f pre).length post.length).map Prod.fst =
      .ok (post.zip ((positions f (blockBytes f pre).length post).tail ++
        [(blockBytes f (pre ++ post)).length])) := by
  induction post generalizing pre s with
  | nil => rfl
  | cons b post ih =>
    have hread := readBlockHelper_holds hs.blocks
    have hrest := hs.checkBlockRead
    rw [append_cons] at hrest
    have ih := ih hrest
    rw [← append_cons] at ih
    rw [length_cons, readOn, readBlock, hread, ok_bind]
    dsimp only
    -- the positions that are left begin with the next one
    have hzip : (b :: post).zip ((positions f (blockBytes f pre).length (b :: post)).tail ++
        [(blockBytes f (pre ++ b :: post)).length]) =
        (b, (blockBytes f (pre ++ [b])).length) ::
          post.zip ((positions f (blockBytes f (pre ++ [b])).length post).tail ++
            [(blockBytes f (pre ++ b :: post)).length]) := by
      rw [positions, tail_cons, ← length_blockBytes_concat]
      cases post with
      | nil => rfl
      | cons c post => rfl
    rw [hzip]
    cases hon : readOn f s.checkBlockRead (blockBytes f (pre ++ [b])).length post.length with
    | error e =>
      rw [hon] at ih
      cases ih
    | ok r =>
      rw [hon] at ih
      injection ih with ih
      rw [ok_bind, ← ih]
      rfl

/-- What a log with the blocks, which are at these positions, answers. -/
structure ReadsBack (f : Format Block) (l : List Block) (ps : List Nat) (s : Log Block) : Prop where
  byNum : ∀ k : UInt32, (readBlockByNum f s k).map Prod.fst =
    .ok (if k = 0 then none else l[k.toNat - 1]?)
  inOrder : (readOn f s 0 l.length).map Prod.fst = .ok (l.zip (ps.tail ++ [s.blockFile.length]))
  head : s.head = l.getLast?
  readHead : ∀ b, l.getLast? = some b → (readHead f s).map Prod.fst = .ok b

theorem Holds.readsBack (hs : Holds f l s) (hnum : Numbered f l)
    (hsize : (blockBytes f l).length < 2 ^ 64) : ReadsBack f l (positions f 0 l) s where
  byNum := readBlockByNum_holds hs hnum hsize
  inOrder := by
    have hall : Holds f ([] ++ l) s := hs
    rw [hs.blocks]
    exact readOn_holds hall
  head := hs.head
  readHead b hb := by
    obtain ⟨pre, rfl⟩ := getLast?_eq_some_iff.mp hb
    rw [readHead_holds hs.blocks hsize]
    rfl

/-- **What was appended is read back.** Blocks numbered 1, 2, …, n can be appended to an empty log.
Each append returns a position, and then, whatever was called in between, the k-th block is read by
its number and no other number gives one, the blocks are read in order from the start of the file,
each with the position of the next, and the head is the last block. -/
theorem log_reads_back (f : Format Block) (l : List Block) (hnum : Numbered f l)
    (hsize : (blockBytes f l).length < 2 ^ 64) :
    ∃ ps s₀, calls f {} (l.map .append) = .ok (ps.map .position, s₀) ∧
      ∀ cs answers s, appended cs = l → calls f {} cs = .ok (answers, s) → ReadsBack f l ps s := by
  obtain ⟨s₀, hall⟩ := append_all (m := l) holds_nil hnum
  refine ⟨positions f 0 l, s₀, hall, ?_⟩
  rintro cs answers s rfl hcalls
  exact (calls_hold holds_nil hnum hcalls).readsBack hnum hsize

/-- Blocks that are nothing but their numbers. -/
def numberFormat : Format UInt32 where
  pack b := encode 4 b.toNat
  unpack stream :=
    if 4 ≤ stream.length then some (UInt32.ofNat (decode (stream.take 4)), stream.drop 4) else none
  unpack_pack b rest := by
    have hlen := length_encode 4 b.toNat
    rw [if_pos (by rw [length_append, hlen]; exact Nat.le_add_right _ _), take_left' hlen,
      drop_left' hlen, decode_encode_of_lt b.toNat_lt, UInt32.ofNat_toNat]
  blockNum b := b

theorem numbered_two : Numbered numberFormat [1, 2] := by
  intro i b hb
  match i with
  | 0 => cases hb; rfl
  | 1 => cases hb; rfl
  | i + 2 => cases hb

/-- Two blocks, of which the first is read before the second is appended. -/
theorem log_reads_back_two :
    ∃ s, calls numberFormat {} [.append 1, .readBlock 0, .append 2] =
        .ok ([.position 0, .block 1 12, .position 12], s) ∧
      ReadsBack numberFormat [1, 2] [0, 12] s := by
  obtain ⟨ps, s₀, hall, hread⟩ := log_reads_back numberFormat [1, 2] numbered_two (by decide +kernel)
  have hps : ps.map .position = [.position 0, (.position 12 : Answer UInt32)] := by
    have hrun : (calls numberFormat {} [.append 1, .append 2]).map Prod.fst =
        .ok [.position 0, .position 12] := by decide +kernel
    change calls numberFormat {} [.append 1, .append 2] = _ at hall
    rw [hall] at hrun
    injection hrun
  have hinj : Function.Injective (Answer.position : Nat → Answer UInt32) :=
    fun _ _ h => Answer.position.inj h
  obtain rfl : ps = [0, 12] := map_injective_iff.mpr hinj hps
  have hcalls : (calls numberFormat {} [.append 1, .readBlock 0, .append 2]).map Prod.fst =
      .ok [.position 0, .block 1 12, .position 12] := by decide +kernel
  cases hrun : calls numberFormat {} [.append 1, .readBlock 0, .append 2] with
  | error e =>
    rw [hrun] at hcalls
    cases hcalls
  | ok r =>
    rw [hrun] at hcalls
    injection hcalls with hcalls
    obtain ⟨answers, s⟩ := r
    obtain rfl : answers = _ := hcalls
    exact ⟨s, rfl, hread _ _ _ rfl hrun⟩

end DeltaChain.BlockLog

import DeltaChain.Fork.Steps

/-!
# Invariants of the chain database

`Inv` holds in every state the calls can reach, whatever was thrown on the way:
the fork database is well formed and the undo stack is a history. `Settled` adds
what the last irreversible block number is for: nothing at or below it can be
undone, and the block log has reached it. It needs `LibSound`: along every branch
the number never goes down and never passes the head (`Chain.Irreversible`
proves this of `update_last_irreversible_block`).
-/

namespace DeltaChain.Fork

open Chainbase Lib List Option ForkDatabase

variable {ρ : Type}

variable {items : List ForkItem} {b : Block} {x : ForkItem}

namespace ForkDatabase

variable {f : ForkDatabase} {item : ForkItem} {f' : ForkDatabase} {n : Nat}

theorem WF.setHead (hf : f.WF) (hx : x.WF) : (f.setHead x).WF :=
  ⟨hf.index, fun h => Option.some.inj h ▸ hx, hf.held, hf.older⟩

theorem WF.remove (hf : f.WF) (id : BlockId) : (f.remove id).WF := by
  have hfind : ∀ {k x}, (f.remove id).index.find? k = some x → f.index.find? k = some x := by
    intro k x h
    have h' : (if k = id then none else f.index.find? k) = some x :=
      (Table.find?_erase f.index id k).symm.trans h
    split at h'
    · cases h'
    · exact h'
  exact ⟨fun h => hf.index (hfind h), hf.head, hf.held, fun h => hf.older (hfind h)⟩

theorem find?_setMaxSize {id : BlockId} (h : (f.setMaxSize n).index.find? id = some x) :
    f.index.find? id = some x := by
  unfold setMaxSize at h
  split at h
  · exact h
  · rw [Table.find?_filter] at h
    exact (filter_eq_some_iff.mp h).1

theorem head_setMaxSize (n : Nat) : (f.setMaxSize n).head = f.head := by
  unfold setMaxSize
  split <;> rfl

theorem held_setMaxSize (n : Nat) : (f.setMaxSize n).held = f.held := by
  unfold setMaxSize
  split <;> rfl

theorem nextRef_setMaxSize (n : Nat) : (f.setMaxSize n).nextRef = f.nextRef := by
  unfold setMaxSize
  split <;> rfl

theorem WF.setMaxSize (hf : f.WF) (n : Nat) : (f.setMaxSize n).WF :=
  ⟨fun h => hf.index (find?_setMaxSize h), fun h => hf.head (head_setMaxSize n ▸ h),
    fun h => hf.held (held_setMaxSize (f := f) n ▸ h),
    fun h => nextRef_setMaxSize (f := f) n ▸ hf.older (find?_setMaxSize h)⟩

theorem WF.hold (hf : f.WF) (hitems : ∀ x ∈ items, x.WF) :
    ({ f with held := items } : ForkDatabase).WF :=
  ⟨hf.index, hf.head, fun h => hitems _ h, hf.older⟩

theorem find?_insert (f : ForkDatabase) (item : ForkItem) (id : BlockId) :
    (f.insert item).index.find? id =
      if id = item.id then some ((f.index.find? item.id).getD item) else f.index.find? id :=
  Table.find?_emplace f.index item.id item id

/-- The item made of a block: its data are the block, and its link is the item of
the previous block in the index. Only a first block, or the first block of an
empty fork database, is not linked. -/
theorem link_spec (hf : f.WF) (h : f.link b = .ok item) :
    item.data = b ∧ item.WF ∧ (∀ p, item.prev? = some p → f.contains p = true) ∧
      (item.prev? = none → f.head = none ∨ b.previous = .zero) := by
  unfold link at h
  split at h
  · next hnone =>
    cases h
    exact ⟨rfl, trivial, by simp [ForkItem.prev?], fun _ => Or.inl hnone⟩
  · split at h
    · cases h
    · split at h
      · next hzero =>
        cases h
        exact ⟨rfl, trivial, by simp [ForkItem.prev?], fun _ => Or.inr hzero⟩
      · split at h
        · cases h
        · next prev hprev =>
          cases h
          obtain ⟨hid, hwf⟩ := hf.index hprev
          refine ⟨rfl, ⟨hid.symm, hwf⟩, ?_, fun hnone => absurd hnone (by simp [ForkItem.prev?])⟩
          intro p hp
          obtain rfl : prev = p := some.inj hp
          exact hf.contains_of_find? hprev

theorem link_ref (h : f.link b = .ok item) : item.ref = f.nextRef := by
  unfold link at h
  split at h
  · cases h
    rfl
  · split_ifs at h
    · cases h
      rfl
    · split at h
      · cases h
      · cases h
        rfl

/-- The index has an item it had before, or the new one. -/
theorem find?_insert_cases {id : BlockId} (h : (f.insert item).index.find? id = some x) :
    f.index.find? id = some x ∨ id = item.id ∧ x = item := by
  rw [find?_insert] at h
  split at h
  · next hid =>
    subst hid
    cases hfind : f.index.find? item.id with
    | none =>
      rw [hfind] at h
      exact Or.inr ⟨rfl, (some.inj h).symm⟩
    | some y =>
      rw [hfind] at h
      exact Or.inl h
  · exact Or.inl h

theorem WF.insert (hf : f.WF) (hlink : f.link b = .ok item) : (f.insert item).WF := by
  obtain ⟨-, hitem, -⟩ := link_spec hf hlink
  refine ⟨fun {id x} h => ?_, fun {h} hh => ?_, hf.held, fun {id x} h => ?_⟩
  · rcases find?_insert_cases h with h | ⟨rfl, rfl⟩
    · exact hf.index h
    · exact ⟨rfl, hitem⟩
  · simp only [ForkDatabase.insert] at hh
    split at hh
    · cases hh
      exact hitem
    · next h₀ hhead =>
      split at hh
      · cases hh
        exact hitem
      · cases hh
        exact hf.head hhead
  · rcases find?_insert_cases h with h | ⟨-, rfl⟩
    · exact Nat.lt_succ_of_lt (hf.older h)
    · exact Nat.lt_succ_of_le (link_ref hlink).le

theorem pushBlock_eq_ok {newHead : ForkItem} (h : f.pushBlock b = .ok (newHead, f')) :
    ∃ item, f.link b = .ok item ∧ f' = f.insert item ∧ f'.head = some newHead := by
  unfold pushBlock at h
  cases hlink : f.link b with
  | error e =>
    rw [hlink] at h
    exact absurd h (by simp [bind, Except.bind])
  | ok item =>
    rw [hlink] at h
    obtain ⟨rfl, rfl⟩ := Prod.mk.inj (Except.ok.inj h)
    refine ⟨item, rfl, rfl, ?_⟩
    unfold insert
    cases f.head with
    | none => rfl
    | some h₀ =>
      simp only
      split <;> rfl

theorem pushBlock_head {h newHead : ForkItem} (hh : f.head = some h)
    (hpush : f.pushBlock b = .ok (newHead, f')) :
    ∃ item, f.link b = .ok item ∧ f' = f.insert item ∧
      (item.num ≤ h.num ∧ newHead = h ∨ h.num < item.num ∧ newHead = item) := by
  obtain ⟨item, hlink, rfl, hhead⟩ := pushBlock_eq_ok hpush
  refine ⟨item, hlink, rfl, ?_⟩
  have hhead' : (if item.num > h.num then some item else some h) = some newHead := by
    rw [← hhead]
    unfold insert
    rw [hh]
  split at hhead'
  · next hlt => exact Or.inr ⟨hlt, (some.inj hhead').symm⟩
  · next hle => exact Or.inl ⟨Nat.le_of_not_lt hle, (some.inj hhead').symm⟩

theorem contains_insert (hx : f.contains x = true) : (f.insert item).contains x = true := by
  rw [contains_iff] at hx ⊢
  rw [find?_insert]
  split
  · next hid =>
    rw [← hid, hx]
    rfl
  · exact hx

end ForkDatabase

namespace Database

variable {exec : Exec ρ} {start s : ChainState ρ} {db db' : Database ρ}

/-- The fork database is well formed and the undo stack is a history. -/
structure Inv (exec : Exec ρ) (start : ChainState ρ) (db : Database ρ) : Prop where
  fork : db.forkDb.WF
  history : History exec start db.chain

/-- Along every branch from `start` the last irreversible block number does not
go down and does not pass the head. -/
structure LibSound (exec : Exec ρ) (start : ChainState ρ) : Prop where
  start_le : start.lastIrreversibleBlockNum ≤ start.headBlockNum
  step : ∀ {s s' : ChainState ρ} {b : Block}, stateAt exec start s.headBlockId = some s →
    execBlock exec s b = some s' → s.lastIrreversibleBlockNum ≤ s'.lastIrreversibleBlockNum ∧
      s'.lastIrreversibleBlockNum ≤ s'.headBlockNum

/-- `last_irreversible_block_num` of the current state. -/
def lib (db : Database ρ) : Nat := db.chain.cur.lastIrreversibleBlockNum

/-- No irreversible block can be undone, and all of them are in the block log. -/
structure Settled (db : Database ρ) : Prop where
  committed : db.lib + depth db.chain ≤ db.headBlockNum
  logged : db.lib ≤ db.logHeadNum

theorem Inv.setForkHead (h : db.Inv exec start) (hx : x.WF) : (db.setForkHead x).Inv exec start :=
  ⟨h.fork.setHead hx, h.history⟩

variable {blocks : List ForkItem} {u : UndoStack (ChainState ρ)} {n : Nat}

theorem Inv.applied (h : db.Inv exec start) (hacc : Accepts exec db b s blocks) :
    (db.applied s blocks).Inv exec start :=
  ⟨h.fork.setMaxSize _, (history_commit _ (history_push h.history hacc.exec).1).1⟩

theorem depth_applied (h : db.Inv exec start) (hacc : Accepts exec db b s blocks) :
    depth (db.applied s blocks).chain =
      min (depth db.chain + 1) (s.headBlockNum - s.lastIrreversibleBlockNum) := by
  obtain ⟨hhist, hdepth⟩ := history_push h.history hacc.exec
  exact (history_commit s.lastIrreversibleBlockNum hhist).2

/-- Pushing the items of a branch moves the head to the last of them. -/
theorem Pushes.headBlockId (h : Pushes exec db items db') :
    db'.headBlockId = items.foldl (fun _ x => x.id) db.headBlockId ∧
      db'.headBlockNum = db.headBlockNum + items.length := by
  induction h with
  | nil => exact ⟨rfl, rfl⟩
  | @cons db db' x xs s blocks _ hacc _ ih =>
    obtain ⟨hid, hnum⟩ := ih
    have hhead : ((db.setForkHead x).applied s blocks).headBlockId = x.id :=
      (execBlock_eq_some hacc.exec).2
    have hheadNum : ((db.setForkHead x).applied s blocks).headBlockNum = db.headBlockNum + 1 :=
      execBlock_num hacc.exec
    refine ⟨?_, ?_⟩
    · rw [hid, hhead]
      rfl
    · rw [hnum, hheadNum, length_cons]
      omega

theorem Pushes.lib_le (hlib : LibSound exec start) (h : Pushes exec db items db')
    (hinv : db.Inv exec start) : db.lib ≤ db'.lib := by
  induction h with
  | nil => exact le_refl _
  | cons hx hacc _ ih =>
    exact (hlib.step hinv.history.cur hacc.exec).1.trans (ih ((hinv.setForkHead hx).applied hacc))

/-- If the last irreversible block number stays at most `n`, the history keeps
reaching back to block `n`. -/
theorem Pushes.reach (hlib : LibSound exec start) (h : Pushes exec db items db')
    (hinv : db.Inv exec start) (hn : db.headBlockNum ≤ n + depth db.chain) (hle : db'.lib ≤ n) :
    db'.headBlockNum ≤ n + depth db'.chain := by
  induction h with
  | nil => exact hn
  | @cons db db' x xs s blocks hx hacc hrest ih =>
    have hinv₁ := hinv.setForkHead hx
    have hinv₂ := hinv₁.applied hacc
    refine ih hinv₂ ?_ hle
    have hs : s.lastIrreversibleBlockNum ≤ n := le_trans (hrest.lib_le hlib hinv₂) hle
    have hnum : s.headBlockNum = db.headBlockNum + 1 := execBlock_num hacc.exec
    rw [depth_applied hinv₁ hacc]
    show s.headBlockNum ≤ n + min (depth db.chain + 1) _
    omega

-- # The block log

/-- `fetch_block_on_main_branch_by_number( n )` returns a block with number `n`. -/
theorem fetchBlockOnMainBranchByNumber_num {f : ForkDatabase} (hf : f.WF)
    (h : f.fetchBlockOnMainBranchByNumber n = some x) : x.num = n := by
  unfold fetchBlockOnMainBranchByNumber at h
  split at h
  · cases h
  · next y hy =>
    obtain rfl := some.inj h
    have hmem : y ∈ f.fetchBlockByNumber n := by rw [hy]; simp
    simpa using (mem_filter.mp hmem).2
  · unfold walkMainBranchToNum at h
    split at h
    · cases h
    · next head hhead =>
      split at h
      · cases h
      · next hle =>
        obtain ⟨⟨passed, y⟩, hwalk, rfl⟩ := map_eq_some_iff.mp h
        obtain ⟨-, -, -, hreach, -⟩ := walkDown_spec (hf.head hhead) hwalk
        exact hreach (Nat.le_of_not_lt hle)

private theorem map_num_of_mapM {g : Nat → Option ForkItem}
    (hg : ∀ {n x}, g n = some x → x.num = n) :
    ∀ {l : List Nat} {xs : List ForkItem}, l.mapM g = some xs → xs.map ForkItem.num = l
  | [], xs, h => by
    obtain rfl : [] = xs := some.inj h
    rfl
  | n :: l, xs, h => by
    rw [mapM_cons] at h
    obtain ⟨x, hx, h⟩ := bind_eq_some_iff.mp h
    obtain ⟨ys, hys, h⟩ := bind_eq_some_iff.mp h
    cases h
    rw [map_cons, hg hx, map_num_of_mapM hg hys]

theorem logHeadNum_append (db : Database ρ) (blocks : List ForkItem) {a k : Nat}
    (h : blocks.map ForkItem.num = List.range' a k) :
    ({ db with blockLog := db.blockLog ++ blocks.map ForkItem.data } : Database ρ).logHeadNum =
      if k = 0 then db.logHeadNum else a + k - 1 := by
  unfold logHeadNum
  have hlen : blocks.length = k := by
    have := congrArg length h
    simpa using this
  rcases eq_nil_or_concat blocks with rfl | ⟨init, x, rfl⟩
  · simp [← hlen]
  · have hk : k = init.length + 1 := by
      rw [← hlen]
      simp
    rw [hk, range'_1_concat, concat_eq_append, map_append] at h
    have hx : x.num = a + init.length := by
      have := append_inj_right' h rfl
      simpa using this
    rw [if_neg (by omega), concat_eq_append, map_append, map_singleton,
      ← append_assoc, getLast?_append]
    show x.num = a + k - 1
    omega

theorem logged_applied (hf : db.forkDb.WF) (hacc : Accepts exec db b s blocks) :
    s.lastIrreversibleBlockNum ≤ (db.applied s blocks).logHeadNum ∧
      db.logHeadNum ≤ (db.applied s blocks).logHeadNum := by
  have hnums : blocks.map ForkItem.num =
      range' (db.logHeadNum + 1) (s.lastIrreversibleBlockNum - db.logHeadNum) :=
    map_num_of_mapM (fun h => fetchBlockOnMainBranchByNumber_num hf h) hacc.blocks
  have hlog := logHeadNum_append db blocks hnums
  have heq : (db.applied s blocks).logHeadNum =
      ({ db with blockLog := db.blockLog ++ blocks.map ForkItem.data } : Database ρ).logHeadNum :=
    rfl
  rw [heq, hlog]
  split <;> omega

section

variable (hlib : LibSound exec start)

include hlib

theorem Settled.applied (hinv : db.Inv exec start)
    (hacc : Accepts exec db b s blocks) : (db.applied s blocks).Settled := by
  refine ⟨?_, (logged_applied hinv.fork hacc).1⟩
  have hle := (hlib.step hinv.history.cur hacc.exec).2
  rw [depth_applied hinv hacc]
  show s.lastIrreversibleBlockNum + min _ (s.headBlockNum - s.lastIrreversibleBlockNum) ≤
    s.headBlockNum
  omega

theorem Pushes.settled (h : Pushes exec db items db') (hinv : db.Inv exec start)
    (hset : db.Settled) : db'.Settled ∧ db.logHeadNum ≤ db'.logHeadNum := by
  induction h with
  | nil => exact ⟨hset, le_refl _⟩
  | cons hx hacc _ ih =>
    have hinv₁ := hinv.setForkHead hx
    obtain ⟨hset', hle⟩ := ih (hinv₁.applied hacc) (Settled.applied hlib hinv₁ hacc)
    exact ⟨hset', le_trans (logged_applied hinv₁.fork hacc).2 hle⟩

theorem lib_undo_le (hist : History exec start u) :
    u.undo.cur.lastIrreversibleBlockNum ≤ u.cur.lastIrreversibleBlockNum := by
  obtain ⟨-, -, hsaved⟩ := hist
  unfold UndoStack.undo
  match u.saved, hsaved with
  | [], _ => exact le_refl _
  | (r, c) :: rest, hsaved =>
    obtain ⟨⟨b, hexec⟩, -, hc, -⟩ := hsaved
    exact (hlib.step hc hexec).1

theorem lib_iterate_le (hist : History exec start u) :
    ∀ j, (UndoStack.undo^[j] u).cur.lastIrreversibleBlockNum ≤ u.cur.lastIrreversibleBlockNum
  | 0 => le_refl _
  | j + 1 => by
    rw [Function.iterate_succ_apply']
    exact le_trans (lib_undo_le hlib (history_iterate hist j)) (lib_iterate_le hist j)

theorem settled_undo (hist : History exec start db.chain)
    (hset : db.Settled) (f : ForkDatabase) :
    ({ db with forkDb := f, chain := db.chain.undo } : Database ρ).Settled := by
  by_cases hd : depth db.chain = 0
  · rw [undo_of_depth_zero hd]
    exact ⟨hset.committed, hset.logged⟩
  · have hnum := (undo_headBlockId hist (by omega)).2
    have hlen : depth db.chain.undo = depth db.chain - 1 := db.chain.length_saved_undo
    have hle : db.chain.undo.cur.lastIrreversibleBlockNum ≤ db.lib := lib_undo_le hlib hist
    have hcom := hset.committed
    have hlog := hset.logged
    refine ⟨?_, le_trans hle hlog⟩
    show db.chain.undo.cur.lastIrreversibleBlockNum + depth db.chain.undo ≤
      db.chain.undo.cur.headBlockNum
    have : db.headBlockNum = db.chain.cur.headBlockNum := rfl
    omega

end

-- # What pushing a branch leaves alone

/-- Pruning after a block keeps the items from the block before the last
irreversible one on. -/
theorem contains_applied {h z : ForkItem} (hacc : Accepts exec db b s blocks)
    (hh : db.forkDb.head = some h)
    (hz : db.forkDb.contains z = true) (hnum : s.lastIrreversibleBlockNum ≤ z.num + 1) :
    (db.applied s blocks).forkDb.contains z = true := by
  have hhead := hacc.forkHead hh
  show (db.forkDb.setMaxSize _).contains z = true
  rw [contains_iff] at hz ⊢
  unfold setMaxSize
  rw [hh]
  rw [Table.find?_filter, hz, filter_some, if_pos (by simp; omega)]

theorem Pushes.contains (hlib : LibSound exec start) {z : ForkItem} (h : Pushes exec db items db')
    (hinv : db.Inv exec start) (hz : db.forkDb.contains z = true) (hnum : db'.lib ≤ z.num + 1) :
    db'.forkDb.contains z = true := by
  induction h with
  | nil => exact hz
  | @cons db db' x xs s blocks hx hacc hrest ih =>
    have hinv' := (hinv.setForkHead hx).applied hacc
    have hle : s.lastIrreversibleBlockNum ≤ db'.lib := hrest.lib_le hlib hinv'
    refine ih hinv' ?_ hnum
    exact contains_applied hacc rfl hz (by omega)

theorem Pushes.held (h : Pushes exec db items db') : db'.forkDb.held = db.forkDb.held := by
  induction h with
  | nil => rfl
  | cons _ _ _ ih =>
    rw [ih]
    exact held_setMaxSize _

theorem Pushes.forkHead (h : Pushes exec db items db') :
    db'.forkDb.head = items.foldl (fun _ x => some x) db.forkDb.head := by
  induction h with
  | nil => rfl
  | cons _ _ _ ih =>
    rw [ih]
    exact congrArg (fun o => foldl _ o _) (head_setMaxSize _)

/-- Items in a row upwards, the first on top of the block `a`. -/
def Ascends : BlockId → List ForkItem → Prop
  | _, [] => True
  | a, x :: xs => x.previousId = a ∧ Ascends x.id xs

/-- Blocks that are known to be good can be pushed again: their states exist and
the log has reached their last irreversible blocks, so nothing can throw. -/
theorem pushItems_known :
    ∀ {items : List ForkItem} {db : Database ρ}, db.Inv exec start → (∀ x ∈ items, x.WF) →
      Ascends db.headBlockId items →
      (∀ x ∈ items, ∃ s, stateAt exec start x.id = some s ∧
        s.lastIrreversibleBlockNum ≤ db.logHeadNum) →
      ∃ db', db.pushItems exec items = (db', none) ∧ Pushes exec db items db'
  | [], db, _, _, _, _ => ⟨db, rfl, .nil⟩
  | x :: xs, db, hinv, hwf, hasc, hgood => by
    obtain ⟨hprev, hrest⟩ := hasc
    obtain ⟨s, hs, hlog⟩ := hgood x (mem_cons_self ..)
    have hexec : execBlock exec db.chain.cur x.data = some s := by
      have hcur : stateAt exec start x.data.previous = some db.chain.cur := by
        rw [show x.data.previous = db.headBlockId from hprev]
        exact hinv.history.cur
      have hblock : stateAt exec start x.data.id =
          (stateAt exec start x.data.previous).bind fun s => execBlock exec s x.data :=
        stateAt_block (stateAt_num_le hcur)
      rw [hcur, bind_some] at hblock
      exact hblock.symm.trans hs
    have hlen : s.lastIrreversibleBlockNum - db.logHeadNum = 0 := by omega
    have hblocks : ((db.setForkHead x).during s).blocksToWrite = some [] := by
      show (range' _ (s.lastIrreversibleBlockNum - db.logHeadNum)).mapM _ = some []
      rw [hlen]
      rfl
    have hnum : x.num = s.headBlockNum := by
      unfold ChainState.headBlockNum
      rw [stateAt_headBlockId hs, ForkItem.num_id]
    have hacc : Accepts exec (db.setForkHead x) x.data s [] :=
      ⟨hexec, fun hh => some.inj hh ▸ hnum, hblocks⟩
    have hlog' : ((db.setForkHead x).applied s []).logHeadNum = db.logHeadNum := by
      unfold logHeadNum applied
      simp [setForkHead]
    have hhead : ((db.setForkHead x).applied s []).headBlockId = x.id :=
      stateAt_headBlockId hs
    obtain ⟨hx, hxs⟩ := forall_mem_cons.mp hwf
    obtain ⟨db', heq, hpush⟩ := pushItems_known ((hinv.setForkHead hx).applied hacc) hxs
      (hhead ▸ hrest) (fun y hy => hlog' ▸ hgood y (mem_cons_of_mem _ hy))
    refine ⟨db', ?_, .cons hx hacc hpush⟩
    rw [pushItems, show ({ db with forkDb := db.forkDb.setHead x } : Database ρ) =
      db.setForkHead x from rfl, applyInSession_ok hacc]
    exact heq

end Database

end DeltaChain.Fork

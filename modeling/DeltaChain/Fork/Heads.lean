import DeltaChain.Fork.Switch

/-!
# When the two heads stay together

The fork database has a head of its own. `HeadsAgree` says that it is an item of
the chain's head block, and this very item is still in the index. The calls do not
always keep this:

* a block that extends the head directly and is then rejected stays the fork head,
  though its item was removed (`heads_part_rejected`);
* a block that was popped and comes again gets a new item, which becomes the fork
  head and is not inserted, since the index still has the old one (`contains_new`);
* a switch that throws before it is complete leaves the fork head anywhere.

`heads_agree_iff` gives the exact conditions, `PushKeepsHeads` and `PopKeepsHeads`.
-/

namespace DeltaChain.Fork

open Chainbase List Option ForkDatabase

namespace Database

variable {ρ : Type} {exec : Exec ρ} {start : ChainState ρ} {db db' : Database ρ}
  {first second : List ForkItem} {h : ForkItem} {x : ForkItem} {b : Block}

/-- The fork head is an item of the head block, and the index has this item. -/
def HeadsAgree (db : Database ρ) : Prop :=
  ∃ h, db.forkDb.head = some h ∧ h.id = db.headBlockId ∧ db.forkDb.contains h = true

theorem HeadsAgree.headKnown (h : db.HeadsAgree) : db.HeadKnown := by
  obtain ⟨h, -, hid, hc⟩ := h
  exact ⟨h, hid ▸ contains_iff.mp hc⟩

/-- The links of the fork head end at an item of this block, which the index has. -/
def LinksEndAt (f : ForkDatabase) (id : BlockId) : Prop :=
  ∃ h, f.head = some h ∧ ((f.live h).getLastD h).id = id ∧
    f.contains ((f.live h).getLastD h) = true

/-- `pop_block` has a block to undo, or nothing to move the fork head to. -/
def PopKeepsHeads (db : Database ρ) : Prop :=
  0 < depth db.chain ∨ ∀ h, db.forkDb.head = some h → db.forkDb.live h = []

/-- What keeps the heads together in a switch: the history reaches the fork point,
and the new branch is accepted or fails before a block above the fork point is
irreversible. Where the history falls short, the heads still meet if it ends at the
very block where the links of the fork head end. -/
def SwitchKeepsHeads (exec : Exec ρ) (db : Database ρ) (first second : List ForkItem) : Prop :=
  if depth db.chain < second.length then
    LinksEndAt db.forkDb (oldest db.chain).headBlockId
  else match db.tryBranch exec first second with
    | (_, none) => True
    | (mid, some (_, invalid)) =>
      mid.lib ≤ db.headBlockNum - second.length ∨
        LinksEndAt (mid.removeItems invalid).forkDb (oldest mid.chain).headBlockId

/-- What keeps the heads together in `push_block( b )`: the fork database refuses
the block, or keeps its head; or the block extends the head, is accepted and was not
in the index before; or the branches of a switch are found and the switch keeps them
together. -/
def PushKeepsHeads (exec : Exec ρ) (db : Database ρ) (b : Block) : Prop :=
  match db.forkDb.pushBlock b with
  | .error _ => True
  | .ok (newHead, f) =>
    newHead.num ≤ db.headBlockNum ∨
      if newHead.previousId = db.headBlockId then
        thrown? ({ db with forkDb := f }.applyInSession exec b) = none ∧
          db.forkDb.index.find? b.id = none
      else match f.fetchBranchFrom newHead.id db.headBlockId with
        | none => False
        | some (first, second) => { db with forkDb := f }.SwitchKeepsHeads exec first second

theorem popBlock_keepsHeads_iff (hinv : db.Inv exec start) (hheld : db.forkDb.held = [])
    (hagree : db.HeadsAgree) : (after db.popBlock).HeadsAgree ↔ db.PopKeepsHeads := by
  have hknown := hagree.headKnown
  obtain ⟨h, hh, hid, hc⟩ := hagree
  have hwf := hinv.fork.head hh
  rw [popBlock_eq hknown hh hwf]
  cases hlive : db.forkDb.live h with
  | nil =>
    refine iff_of_true ⟨h, hh, hid, hc⟩ (Or.inr fun h' hh' => ?_)
    obtain rfl : h = h' := mem_unique hh hh'
    exact hlive
  | cons p ps =>
    obtain ⟨hprev, halive, -⟩ := live_cons hlive
    have hpid : h.previousId = p.id := (hwf.of_prev hprev).1
    have hpc : db.forkDb.contains p = true := by
      simpa [alive, hheld] using halive
    have hright : ¬ ∀ h', db.forkDb.head = some h' → db.forkDb.live h' = [] := by
      intro hall
      rw [hall h hh] at hlive
      cases hlive
    have hiff : (after (.ok () (db.popped p 1) : Result ρ Unit)).HeadsAgree ↔
        p.id = db.chain.undo.cur.headBlockId := by
      constructor
      · rintro ⟨h', hh', hid', -⟩
        obtain rfl : p = h' := some.inj hh'
        exact hid'
      · intro heq
        exact ⟨p, rfl, heq, hpc⟩
    rw [hiff]
    constructor
    · intro heq
      left
      by_contra hzero
      rw [undo_of_depth_zero (by omega)] at heq
      have hnum := hwf.num_prev hprev
      have : p.num = h.num := by
        rw [← ForkItem.num_id, heq, ← ForkItem.num_id, hid]
        rfl
      omega
    · rintro (hpos | hall)
      · rw [(undo_headBlockId hinv.history hpos).1,
          show db.chain.cur.headBlockId = h.id from hid.symm, ForkItem.up_id, hpid]
      · exact absurd hall hright

/-- A block above both heads becomes the fork head as a new item, and its links
are those of the item the index has for it. -/
theorem live_newHead {newHead last : ForkItem} {f : ForkDatabase} (hinv : db.Inv exec start)
    (hh : db.forkDb.head = some h) (hlink : db.forkDb.link b = .ok newHead)
    (hf : f = db.forkDb.insert newHead)
    (hs : Switching exec start { db with forkDb := f } newHead first second last) :
    second.length ≤ (f.live newHead).length := by
  obtain ⟨hfirst, -, hchain, hlen, x, hx₀, hx⟩ := hs.first_spec
  match first, hx₀ with
  | _ :: [], _ => rw [length_singleton] at hlen; omega
  | x' :: p :: ps, hx₀ =>
    obtain rfl : x' = x := some.inj hx₀
    have hxp : x'.prev? = some p := (isChain_cons_cons.mp hchain).1
    have hpc : f.contains p = true := (hfirst p (by simp)).1
    have hxwf := (hfirst x' (by simp)).2
    have hxid : x'.id = newHead.id := (hs.inv.fork.index hx).1
    have hpid : p.id = newHead.previousId := by
      rw [← (hxwf.of_prev hxp).1, ← ForkItem.up_id, hxid, ForkItem.up_id]
    -- the new item is linked, and to the same item
    obtain ⟨hdata, hwf, hprevc, hunlinked⟩ := link_spec hinv.fork hlink
    have hprev : newHead.prev? = some p := by
      cases hnew : newHead with
      | unlinked ref data =>
        exfalso
        rcases hunlinked (by rw [hnew]; rfl) with hnone | hzero
        · rw [hh] at hnone
          cases hnone
        · rw [show newHead.previousId = b.previous from congrArg Block.previous hdata, hzero] at hpid
          exact absurd hpid (by simp [ForkItem.id, Block.id])
      | linked ref data q =>
        have hq : newHead.prev? = some q := by rw [hnew]; rfl
        have hqc : f.contains q = true := by
          rw [hf]
          exact contains_insert (hprevc q hq)
        have hqid : q.id = p.id := by rw [hpid, (hwf.of_prev hq).1]
        rw [eq_of_contains hpc hqc hqid.symm]
        rfl
    obtain ⟨more, hmore⟩ := live_of_isChain (f := f) hchain (fun z hz => by
      unfold alive
      rw [show f.contains z = true from (hfirst z (mem_cons_of_mem _ hz)).1]
      rfl)
    rw [live_congr (hprev.trans hxp.symm), hmore, length_append]
    rw [length_cons] at hlen
    omega

/-- The heads where a pop loop got stuck: the fork head at the end of its links, the
chain at the oldest state it has kept. -/
theorem heads_stuck {n : Nat} (hh : db.forkDb.head = some h) :
    (db.popped ((db.forkDb.live h).getLastD h) n).HeadsAgree ↔
      LinksEndAt db.forkDb (UndoStack.undo^[n] db.chain).cur.headBlockId := by
  constructor
  · rintro ⟨h', hh', hid, hc⟩
    cases hh'
    exact ⟨h, hh, hid, hc⟩
  · rintro ⟨h', hh', hid, hc⟩
    obtain rfl : h = h' := mem_unique hh hh'
    exact ⟨_, rfl, hid, hc⟩

/-- The heads after a branch has been pushed: its last item is the fork head, and
the index keeps it. -/
theorem heads_pushed {xs : List ForkItem} (hlib : LibSound exec start)
    (hinv : db.Inv exec start) (hset : db.Settled)
    (hpush : Pushes exec db (x :: xs).reverse db') (hx : db.forkDb.contains x = true) :
    db'.forkDb.head = some x ∧ x.id = db'.headBlockId ∧ db'.forkDb.contains x = true := by
  have hhead : db'.headBlockId = x.id := by
    rw [hpush.headBlockId.1, reverse_cons, foldl_append]
    rfl
  have hfork : db'.forkDb.head = some x := by
    rw [hpush.forkHead, reverse_cons, foldl_append]
    rfl
  have hcom := (hpush.settled hlib hinv hset).1.committed
  have hnum : db'.headBlockNum = x.num := by
    rw [← ForkItem.num_id, ← hhead]
    rfl
  exact ⟨hfork, hhead.symm, hpush.contains hlib hinv hx (by omega)⟩

/-- The heads after the old branch has been restored: none of its items was among
the dropped ones. -/
theorem heads_restored {h h' last x : ForkItem} {first second done rest : List ForkItem}
    {mid : Database ρ} {e : Error} (hlib : LibSound exec start)
    (hr : Refused exec start db h first second last done x rest mid)
    (he : (mid.setForkHead x).applyInSession exec x.data = .error e (mid.setForkHead x))
    (hle : mid.lib ≤ last.previousId.num) (hwf' : h'.WF)
    (hpush : Pushes exec ((mid.dropped x rest).popped h' done.length) second.reverse db') :
    ∃ y, second.head? = some y ∧ db'.forkDb.head = some y ∧ y.id = db'.headBlockId ∧
      db'.forkDb.contains y = true := by
  obtain ⟨-, hmset, -, -, -, -⟩ := hr.mid_spec hlib
  obtain ⟨hdinv, -⟩ := hr.dropped_inv hlib
  have hmoves : Moves exec _ ((mid.dropped x rest).popped h' done.length) :=
    popped_moves hdinv.fork hwf' done.length
  have hdset : (mid.dropped x rest).Settled := ⟨hmset.committed, hmset.logged⟩
  have hlast := hr.switching.last
  match second, hlast with
  | y :: ys, _ =>
    refine ⟨y, rfl, heads_pushed hlib (hmoves.inv hdinv) (hmoves.settled hlib hdinv hdset) hpush ?_⟩
    exact hr.second_kept hlib he hle y (by simp)

/-- A switch to `h`, with links long enough for the pop loop, keeps the heads together
exactly under the condition of `SwitchKeepsHeads`. -/
theorem switchTo_keepsHeads {h last : ForkItem} (hlib : LibSound exec start) (hset : db.Settled)
    (hs : Switching exec start db h first second last)
    (hlive : second.length ≤ (db.forkDb.live h).length) :
    (after ((db.hold (first ++ second)).switchTo exec last.previousId first second)).HeadsAgree ↔
      db.SwitchKeepsHeads exec first second := by
  unfold SwitchKeepsHeads
  have hfork : last.previousId.num = db.headBlockNum - second.length := by
    have := hs.second_spec.2.2.2.1
    omega
  have hhold : Moves exec db (db.hold (first ++ second)) := .fork (hs.inv.fork.hold hs.held_wf)
  rcases switchTo_cases hset hs with ⟨hpop, heq⟩ | ⟨hpop, ⟨h', db', hwf', hpush, htry, heq⟩ |
    ⟨done, x, rest, mid, e, hr, he, htry, heq⟩⟩
  · -- the links are long enough, so it is the history that ran out
    have hcan : db.canPop h = depth db.chain := by
      unfold canPop at hpop ⊢
      omega
    rw [if_pos (hcan ▸ hpop), heq, hcan]
    rw [← hs.live_eq]
    refine (heads_stuck (show (db.hold (first ++ second)).forkDb.head = some h from hs.head)).trans ?_
    unfold LinksEndAt
    simp only [hs.live_eq]
    exact Iff.rfl
  · have hdepth : ¬ depth db.chain < second.length := by
      have := canPop_le_depth db h
      omega
    rw [if_neg hdepth, heq, htry]
    refine iff_of_true ?_ trivial
    have hmoves := hhold.trans (popped_moves hhold.2 hwf' second.length)
    obtain ⟨hfirst, -, -, -, x, hx₀, hx⟩ := hs.first_spec
    match first, hx₀ with
    | y :: ys, hx₀ =>
      exact ⟨y, heads_pushed hlib (hmoves.inv hs.inv) (hmoves.settled hlib hs.inv hset)
        hpush (hfirst y (by simp)).1⟩
  · have hdepth : ¬ depth db.chain < second.length := by
      have := canPop_le_depth db h
      omega
    rw [if_neg hdepth, heq, htry, ← hfork]
    show _ ↔ mid.lib ≤ last.previousId.num ∨
      LinksEndAt (mid.dropped x rest).forkDb (oldest mid.chain).headBlockId
    rcases Nat.lt_or_ge last.previousId.num mid.lib with hlt | hle
    · rw [restoreBranch_stuck hlib hr hlt e]
      have hnle : ¬ mid.lib ≤ last.previousId.num := by omega
      rw [or_iff_right hnle]
      exact heads_stuck (Refused.dropped_head x rest mid)
    · refine iff_of_true ?_ (Or.inl hle)
      obtain ⟨h', db', hwf', hpush, hback, -⟩ := restoreBranch_back hlib hr hle e
      obtain ⟨y, -, hy⟩ := heads_restored hlib hr he hle hwf' hpush
      rw [hback]
      exact ⟨y, hy⟩

/-- A new item is in the index exactly if no older item of its block was. -/
theorem contains_new {f : ForkDatabase} {item : ForkItem} (hf : f.WF) (hlink : f.link b = .ok item) :
    (f.insert item).contains item = true ↔ f.index.find? b.id = none := by
  have hid : item.id = b.id := congrArg Block.id (link_spec hf hlink).1
  rw [contains_iff, find?_insert, if_pos rfl, hid, some.injEq]
  cases hfind : f.index.find? b.id with
  | none => exact iff_of_true rfl rfl
  | some x =>
    refine iff_of_false (fun hx => ?_) (by simp)
    have hold := hf.older hfind
    rw [show x = item from hx, link_ref hlink] at hold
    exact lt_irrefl _ hold

/-- A block that extends the head: the new fork head is the new head block if the
block is accepted, and a removed block if it throws. -/
theorem heads_direct {item : ForkItem} (hlib : LibSound exec start)
    (hinv : db.Inv exec start) (hlink : db.forkDb.link b = .ok item)
    (hhead : (db.forkDb.insert item).head = some item) (hnum : db.headBlockNum < item.num) :
    (after (match (db.noting item).applyInSession exec b with
      | .ok _ s => (.ok false s : Result ρ Bool)
      | .error e s => .error e { s with forkDb := s.forkDb.remove b.id })).HeadsAgree ↔
    thrown? ((db.noting item).applyInSession exec b) = none ∧
      db.forkDb.index.find? b.id = none := by
  have hdata := (link_spec hinv.fork hlink).1
  have hinv' : (db.noting item).Inv exec start := ⟨hinv.fork.insert hlink, hinv.history⟩
  rcases applyInSession_cases exec (db.noting item) b with
    ⟨e, he⟩ | ⟨s, blocks, hacc, hok⟩
  · rw [he]
    refine iff_of_false ?_ (by simp [thrown?])
    rintro ⟨h, hh, hid, -⟩
    obtain rfl : item = h := mem_unique hhead hh
    have : item.num = db.headBlockNum := congrArg BlockId.num hid
    omega
  · rw [hok, ← contains_new hinv.fork hlink]
    have hid : s.headBlockId = item.id := by
      rw [(execBlock_eq_some hacc.exec).2, ForkItem.id, hdata]
    have hsnum : item.num = s.headBlockNum := by
      unfold ChainState.headBlockNum
      rw [hid, ForkItem.num_id]
    have hle := (hlib.step hinv'.history.cur hacc.exec).2
    have hhead' : ((db.noting item).applied s blocks).forkDb.head = some item :=
      (head_setMaxSize _).trans hhead
    constructor
    · rintro ⟨h, hh, -, hc⟩
      obtain rfl : item = h := mem_unique hhead' hh
      exact ⟨rfl, contains_iff.mpr (find?_setMaxSize (contains_iff.mp hc))⟩
    · rintro ⟨-, hc⟩
      exact ⟨item, hhead', hid.symm, contains_applied hacc hhead hc (by omega)⟩

theorem pushBlock_keepsHeads_iff (hlib : LibSound exec start) (hinv : db.Inv exec start)
    (hset : db.Settled) (hheld : db.forkDb.held = []) (hagree : db.HeadsAgree) (b : Block) :
    (after (db.pushBlock exec b)).HeadsAgree ↔ db.PushKeepsHeads exec b := by
  obtain ⟨h, hh, hid, hc⟩ := id hagree
  have hhnum : h.num = db.headBlockNum := congrArg BlockId.num hid
  unfold PushKeepsHeads
  cases hpush : db.forkDb.pushBlock b with
  | error e =>
    unfold pushBlock
    rw [hpush]
    exact iff_of_true hagree trivial
  | ok r =>
    obtain ⟨newHead, f⟩ := r
    simp only
    obtain ⟨item, hlink, rfl, hhead'⟩ := pushBlock_eq_ok hpush
    obtain ⟨item', hlink', -, hcases⟩ := pushBlock_head hh hpush
    obtain rfl : item = item' := Except.ok.inj (hlink.symm.trans hlink')
    rw [pushBlock_linked hpush]
    rcases hcases with ⟨-, rfl⟩ | ⟨hlt, rfl⟩
    · -- the fork head stays, and it does not extend itself
      have hprev : newHead.previousId ≠ db.headBlockId :=
        hid ▸ newHead.previousId_ne_id newHead (le_refl _)
      rw [if_pos hprev, if_neg (Nat.not_lt.mpr (le_of_eq hhnum))]
      exact iff_of_true ⟨newHead, hhead', hid, contains_insert hc⟩ (Or.inl (le_of_eq hhnum))
    · have hnum : db.headBlockNum < newHead.num := by omega
      rw [or_iff_right (by omega)]
      by_cases hprev : newHead.previousId = db.headBlockId
      · rw [if_neg (not_not.mpr hprev), if_pos hprev]
        exact heads_direct hlib hinv hlink hhead' hnum
      · rw [if_pos hprev, if_neg hprev, if_pos hnum]
        rcases switchForks_cases hinv hheld hpush hnum with ⟨hbr, heq⟩ |
          ⟨first, second, last, hbr, hs, heq⟩
        · rw [heq, hbr]
          -- the fork head has moved, the chain head has not
          refine iff_of_false ?_ not_false
          rintro ⟨h', hh', hid', -⟩
          obtain rfl : newHead = h' := mem_unique hhead' hh'
          have : newHead.num = db.headBlockNum := congrArg BlockId.num hid'
          omega
        · rw [heq, hbr, after_release]
          have hset' : (db.noting newHead).Settled := ⟨hset.committed, hset.logged⟩
          exact switchTo_keepsHeads hlib hset' hs (live_newHead hinv hh hlink rfl hs)

/-- From every reachable state in which the heads agree: they agree after
`push_block( b )` exactly if `PushKeepsHeads` holds of the state and the block, and
after `pop_block` exactly if `PopKeepsHeads` holds of the state, whether the call
returns or throws. -/
theorem heads_agree_iff (hlib : LibSound exec start) (hreach : Reachable exec start db)
    (hagree : db.HeadsAgree) :
    (∀ b, (after (db.pushBlock exec b)).HeadsAgree ↔ db.PushKeepsHeads exec b) ∧
      ((after db.popBlock).HeadsAgree ↔ db.PopKeepsHeads) := by
  have hinv := reachable_inv hreach
  have hheld := reachable_held hreach
  exact ⟨pushBlock_keepsHeads_iff hlib hinv (reachable_settled hlib hreach) hheld hagree,
    popBlock_keepsHeads_iff hinv hheld hagree⟩

/-- The small chain with one block. -/
def oneBlock : Database (List Nat) := sampleOpened.feed sampleExec [⟨.zero, 1⟩]

theorem oneBlock_headsAgree : oneBlock.HeadsAgree :=
  ⟨.unlinked 0 ⟨.zero, 1⟩, by decide +kernel, by decide +kernel, by decide +kernel⟩

theorem heads_agree_second :
    oneBlock.HeadsAgree ∧
      (after (oneBlock.pushBlock sampleExec ⟨.ofBlock .zero 1, 2⟩)).HeadsAgree := by
  refine ⟨oneBlock_headsAgree, ?_⟩
  refine ((heads_agree_iff sampleExec_libSound (reachable_feed sampleOpened_reachable)
    oneBlock_headsAgree).1 ⟨.ofBlock .zero 1, 2⟩).mpr ?_
  refine Or.inr ?_
  rw [if_pos (by decide +kernel)]
  decide +kernel

/-- The same block after a `pop_block`. -/
example : (after ((after (oneBlock.feed sampleExec [⟨.ofBlock .zero 1, 2⟩]).popBlock).pushBlock
    sampleExec ⟨.ofBlock .zero 1, 2⟩)).forkDb.head.map (fun h => (h.num,
      (after ((after (oneBlock.feed sampleExec [⟨.ofBlock .zero 1, 2⟩]).popBlock).pushBlock
        sampleExec ⟨.ofBlock .zero 1, 2⟩)).forkDb.contains h)) = some (2, false) := by decide +kernel

/-- A block on top of the head that is rejected stays the fork head. -/
theorem heads_part_rejected :
    Reachable sampleExec sampleGenesis oneBlock ∧ oneBlock.HeadsAgree ∧
      ¬ (after (oneBlock.pushBlock sampleExec ⟨.ofBlock .zero 1, 10⟩)).HeadsAgree := by
  refine ⟨reachable_feed sampleOpened_reachable, oneBlock_headsAgree, ?_⟩
  rintro ⟨h, hh, hid, -⟩
  have hfork : (after (oneBlock.pushBlock sampleExec ⟨.ofBlock .zero 1, 10⟩)).forkDb.head.map
      ForkItem.num = some 2 := by decide +kernel
  have hchain : (after (oneBlock.pushBlock sampleExec ⟨.ofBlock .zero 1, 10⟩)).headBlockId.num =
      1 := by decide +kernel
  rw [hh, map_some, ← ForkItem.num_id, hid, hchain] at hfork
  exact absurd hfork (by decide)

end Database

end DeltaChain.Fork

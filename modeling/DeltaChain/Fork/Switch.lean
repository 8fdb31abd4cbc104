import DeltaChain.Fork.Moves

/-!
# The fork switch

What the switch of `_push_block` does, case by case. `Switching` is the state at
its start: the fork head is above the chain head and both branches have been
found. The pop loop gets back to the fork point if the undo history and the links
of the fork head are long enough (`popLoop_reach`, `popLoop_stuck`). If a block of
the new branch then throws, the old branch comes back exactly when nothing above
the fork point has become irreversible on the new one (`restoreBranch_back`,
`restoreBranch_stuck`).
-/

namespace DeltaChain.Fork

open Chainbase Lib List Function ForkDatabase

namespace Database

variable {ρ : Type} {exec : Exec ρ} {start : ChainState ρ} {db : Database ρ} {items : List ForkItem}

theorem popped_headBlockId (hist : History exec start db.chain) (h : ForkItem) (j : Nat) :
    (db.popped h j).headBlockId = BlockId.up^[min j (depth db.chain)] db.headBlockId ∧
      (db.popped h j).headBlockNum + min j (depth db.chain) = db.headBlockNum := by
  rcases Nat.le_total j (depth db.chain) with hj | hj
  · rw [Nat.min_eq_left hj]
    exact headBlockId_iterate hist hj
  · rw [Nat.min_eq_right hj]
    have heq : (db.popped h j).chain = UndoStack.undo^[depth db.chain] db.chain :=
      iterate_of_depth_le db.chain hj
    unfold headBlockId headBlockNum
    rw [heq]
    exact headBlockId_iterate hist (le_refl _)

/-- Above the block number `n` levels down, the loop has not come to a block of that number. -/
theorem popped_ne (hist : History exec start db.chain) {target : BlockId} {n j : Nat}
    (hnum : target.num + n = db.headBlockNum) (hj : min j (depth db.chain) < n) (h : ForkItem) :
    (db.popped h j).headBlockId ≠ target := by
  intro heq
  have hpopped := (popped_headBlockId hist h j).2
  have : (db.popped h j).headBlockNum = target.num := by
    rw [← heq]
    rfl
  omega

theorem popped_moves {x : ForkItem} (hf : db.forkDb.WF) (hx : x.WF) :
    ∀ n, Moves exec db (db.popped x n)
  | 0 => .fork (hf.setHead hx)
  | n + 1 => by
    have ih : Moves exec db (db.popped x n) := popped_moves hf hx n
    have hstep : db.popped x (n + 1) =
        { db.popped x n with chain := (db.popped x n).chain.undo } := by
      unfold popped
      rw [Function.iterate_succ_apply']
    rw [hstep]
    exact ⟨ih.1.tail .undo, ih.2⟩

theorem ascends_append {x : ForkItem} :
    ∀ {items : List ForkItem} {a : BlockId}, Ascends a items →
      x.previousId = items.foldl (fun _ y => y.id) a → Ascends a (items ++ [x])
  | [], _, _, hx => ⟨hx, trivial⟩
  | _ :: _, _, h, hx => ⟨h.1, ascends_append h.2 hx⟩

theorem ascends_reverse :
    ∀ {items : List ForkItem} {x last : ForkItem}, (x :: items).IsChain PrevOf → x.WF →
      (x :: items).getLast? = some last → Ascends last.previousId (x :: items).reverse
  | [], x, last, _, _, hlast => by
    obtain rfl : x = last := Option.some.inj hlast
    exact ⟨rfl, trivial⟩
  | y :: ys, x, last, hchain, hx, hlast => by
    obtain ⟨hxy, hrest⟩ := isChain_cons_cons.mp hchain
    obtain ⟨hprev, hy⟩ := hx.of_prev hxy
    have ih := ascends_reverse hrest hy (by simpa [getLast?_cons_cons] using hlast)
    rw [reverse_cons]
    refine ascends_append ih ?_
    rw [reverse_cons, foldl_append]
    exact hprev

theorem ascends_split {x : ForkItem} {rest : List ForkItem} :
    ∀ {done : List ForkItem} {a : BlockId}, Ascends a (done ++ x :: rest) →
      Ascends (done.foldl (fun _ y => y.id) a) (x :: rest)
  | [], _, h => h
  | y :: ys, _, h => by
    have ih := ascends_split (show Ascends y.id (ys ++ x :: rest) from h.2)
    exact ih

theorem ascends_left :
    ∀ {done : List ForkItem} {a : BlockId}, Ascends a (done ++ items) → Ascends a done
  | [], _, _ => trivial
  | _ :: _, _, h => ⟨h.1, ascends_left h.2⟩

theorem ascends_up :
    ∀ {items : List ForkItem} {a : BlockId}, Ascends a items →
      BlockId.up^[items.length] (items.foldl (fun _ y => y.id) a) = a
  | [], _, _ => rfl
  | y :: ys, a, h => by
    have ih := ascends_up h.2
    rw [length_cons, Function.iterate_succ_apply', foldl_cons, ih, ForkItem.up_id]
    exact h.1

theorem ascends_num :
    ∀ {items : List ForkItem} {a : BlockId}, Ascends a items → ∀ y ∈ items, a.num < y.num
  | x :: xs, a, h, y, hy => by
    have hx : x.num = a.num + 1 := by rw [x.num_eq, h.1]
    rcases mem_cons.mp hy with rfl | hy
    · omega
    · have := ascends_num h.2 y hy
      rw [ForkItem.num_id] at this
      omega

theorem ascends_below {x : ForkItem} :
    ∀ {rest : List ForkItem} {a : BlockId}, Ascends a (x :: rest) → ∀ w ∈ x :: rest,
      ∃ i, x.id = BlockId.up^[i] w.id ∧ w.num = x.num + i
  | rest, a, h, w, hw => by
    rcases mem_cons.mp hw with rfl | hw
    · exact ⟨0, rfl, rfl⟩
    · match rest, h.2, hw with
      | y :: ys, hrest, hw =>
        obtain ⟨i, hid, hnum⟩ := ascends_below hrest w hw
        have hy : y.num = x.num + 1 := by rw [y.num_eq, hrest.1, ForkItem.num_id]
        refine ⟨i + 1, ?_, by omega⟩
        rw [Function.iterate_succ_apply', ← hid, ForkItem.up_id, hrest.1]

/-- The database at the start of a switch to the fork head `h`. -/
structure Switching (exec : Exec ρ) (start : ChainState ρ) (db : Database ρ) (h : ForkItem)
    (first second : List ForkItem) (last : ForkItem) : Prop where
  inv : db.Inv exec start
  held : db.forkDb.held = []
  head : db.forkDb.head = some h
  above : db.headBlockNum < h.num
  branches : db.forkDb.fetchBranchFrom h.id db.headBlockId = some (first, second)
  last : second.getLast? = some last

/-- The number of blocks the pop loop can go back. -/
def canPop (db : Database ρ) (h : ForkItem) : Nat :=
  min (depth db.chain) (db.forkDb.live h).length

theorem canPop_le_depth (db : Database ρ) (h : ForkItem) : db.canPop h ≤ depth db.chain :=
  min_le_left _ _

theorem live_hold (hheld : db.forkDb.held = [])
    (hitems : ∀ z ∈ items, db.forkDb.contains z = true) :
    ∀ x, (db.hold items).forkDb.live x = db.forkDb.live x
  | .unlinked _ _ => rfl
  | .linked _ _ prev => by
    have halive : (db.hold items).forkDb.alive prev = db.forkDb.alive prev := by
      show (db.forkDb.contains prev || decide (prev ∈ items)) =
        (db.forkDb.contains prev || decide (prev ∈ db.forkDb.held))
      by_cases hmem : prev ∈ items
      · simp [hitems prev hmem]
      · simp [hmem, hheld]
    rw [live, live, halive, live_hold hheld hitems prev]

section Switching

variable {h last : ForkItem} {first second : List ForkItem}
  (hs : Switching exec start db h first second last)

include hs

/-- The old branch: the blocks from the head down to just above the fork point. -/
theorem Switching.second_spec :
    (∀ {j : Nat} {z : ForkItem}, second[j]? = some z →
      z.id = BlockId.up^[j] db.headBlockId ∧ z.num + j = db.headBlockNum) ∧
    (∀ z ∈ second, db.forkDb.contains z = true ∧ z.WF) ∧
    Ascends last.previousId second.reverse ∧
    last.previousId.num + second.length = db.headBlockNum ∧
    last.previousId = BlockId.up^[second.length] db.headBlockId := by
  obtain ⟨hinv, hheld, hhead, habove, hbr, hlast⟩ := hs
  obtain ⟨-, ⟨y, hy, hbranch⟩, -, -⟩ := fetchBranchFrom_spec hinv.fork hbr
  obtain ⟨hyid, hywf⟩ := hinv.fork.index hy
  have hyc := hinv.fork.contains_of_find? hy
  have hyn : y.num = db.headBlockNum := congrArg BlockId.num hyid
  have hcont : ∀ z ∈ second, db.forkDb.contains z = true ∧ z.WF := fun z hz =>
    ⟨hbranch.contains hyc hhead (by omega) hheld hz, hbranch.wf hywf z hz⟩
  obtain ⟨hy₀, hlinks, -⟩ := hbranch
  cases second with
  | nil => cases hy₀
  | cons y' ys =>
    obtain rfl : y' = y := Option.some.inj hy₀
    have hids : ∀ {j : Nat} {z : ForkItem}, (y' :: ys)[j]? = some z →
        z.id = BlockId.up^[j] db.headBlockId ∧ z.num + j = db.headBlockNum := by
      intro j z hz
      obtain ⟨hid, hnum⟩ := id_of_isChain hlinks hywf hz
      rw [hid, hyid, ← hyn]
      exact ⟨rfl, hnum⟩
    have hlast' : (y' :: ys)[ys.length]? = some last := by
      rw [getLast?_eq_getElem?] at hlast
      simpa using hlast
    obtain ⟨hlid, hlnum⟩ := hids hlast'
    refine ⟨hids, hcont, ascends_reverse hlinks hywf hlast, ?_, ?_⟩
    · rw [length_cons]
      have := last.num_eq
      omega
    · rw [length_cons, Function.iterate_succ_apply', ← hlid, ForkItem.up_id]

/-- The new branch: longer than the old one, on top of the fork point. -/
theorem Switching.first_spec :
    (∀ z ∈ first, db.forkDb.contains z = true ∧ z.WF) ∧
    Ascends last.previousId first.reverse ∧ first.IsChain PrevOf ∧
    second.length < first.length ∧
    ∃ x, first.head? = some x ∧ db.forkDb.index.find? h.id = some x := by
  obtain ⟨hinv, hheld, hhead, habove, hbr, hlast⟩ := hs
  obtain ⟨⟨x, hx, hbranch⟩, -, ⟨a, b, ha, hb, hab⟩, hlen⟩ :=
    fetchBranchFrom_spec hinv.fork hbr
  obtain ⟨hxid, hxwf⟩ := hinv.fork.index hx
  have hxc := hinv.fork.contains_of_find? hx
  have hxn : x.num = h.num := congrArg BlockId.num hxid
  have hcont : ∀ z ∈ first, db.forkDb.contains z = true ∧ z.WF := fun z hz =>
    ⟨hbranch.contains hxc hhead (by omega) hheld hz, hbranch.wf hxwf z hz⟩
  obtain rfl : b = last := Option.mem_unique hb hlast
  obtain ⟨hx₀, hlinks, -⟩ := hbranch
  have habove' : db.headBlockId.num < h.id.num := habove
  cases first with
  | nil => cases hx₀
  | cons x' xs =>
    obtain rfl : x' = x := Option.some.inj hx₀
    refine ⟨hcont, ?_, hlinks, by omega, x', rfl, hx⟩
    rw [← hab]
    exact ascends_reverse hlinks hxwf ha

theorem Switching.second_last (a : BlockId) :
    second.reverse.foldl (fun _ z => z.id) a = db.headBlockId := by
  obtain ⟨hids, -⟩ := hs.second_spec
  cases second with
  | nil => exact absurd hs.last (by simp)
  | cons y ys =>
    rw [reverse_cons, foldl_append]
    exact (hids (j := 0) rfl).1

theorem Switching.held_wf : ∀ z ∈ first ++ second, z.WF := by
  intro z hz
  rcases mem_append.mp hz with hz | hz
  · exact (hs.first_spec.1 z hz).2
  · exact (hs.second_spec.2.1 z hz).2

/-- The states the pop loop passes above the fork point: their heads are blocks of
the old branch, which the fork database knows. -/
theorem Switching.passing {j : Nat} (hj : min j (depth db.chain) < second.length)
    (items : List ForkItem) :
    ((db.hold items).popped h j).headBlockId ≠ last.previousId ∧
      ((db.hold items).popped h j).HeadKnown := by
  obtain ⟨hids, hcont, -, htarget, -⟩ := hs.second_spec
  have hhist : History exec start (db.hold items).chain := hs.inv.history
  refine ⟨popped_ne hhist htarget hj h, ?_⟩
  obtain ⟨z, hz⟩ : ∃ z, second[min j (depth db.chain)]? = some z :=
    ⟨_, getElem?_eq_getElem hj⟩
  have hzc := (hcont z (mem_of_getElem? hz)).1
  have hid : ((db.hold items).popped h j).headBlockId =
      BlockId.up^[min j (depth db.chain)] db.headBlockId := (popped_headBlockId hhist h j).1
  refine ⟨z, ?_⟩
  rw [hid, ← (hids hz).1]
  exact contains_iff.mp hzc

/-- The loop ends at the fork point. -/
theorem Switching.popped_reached (hdepth : second.length ≤ depth db.chain) (items : List ForkItem)
    (x : ForkItem) : ((db.hold items).popped x second.length).headBlockId = last.previousId := by
  rw [hs.second_spec.2.2.2.2]
  exact (headBlockId_iterate hs.inv.history hdepth).1

theorem Switching.popped_moves {x : ForkItem} (hx : x.WF) :
    Moves exec db ((db.hold (first ++ second)).popped x second.length) := by
  have hhold : Moves exec db (db.hold (first ++ second)) := .fork (hs.inv.fork.hold hs.held_wf)
  exact hhold.trans (Database.popped_moves hhold.2 hx second.length)

theorem Switching.live_eq (x : ForkItem) :
    (db.hold (first ++ second)).forkDb.live x = db.forkDb.live x := by
  refine live_hold hs.held (fun z hz => ?_) x
  rcases mem_append.mp hz with hz | hz
  · exact (hs.first_spec.1 z hz).1
  · exact (hs.second_spec.2.1 z hz).1

theorem Switching.popLoop_reach (hpop : second.length ≤ db.canPop h) :
    ∃ h', h'.WF ∧ (db.hold (first ++ second)).popLoop last.previousId =
      .ok () ((db.hold (first ++ second)).popped h' second.length) := by
  have hdepth : second.length ≤ depth db.chain := le_trans hpop (min_le_left _ _)
  have hlive : second.length ≤ (db.forkDb.live h).length := le_trans hpop (min_le_right _ _)
  have hwf := hs.inv.fork.head hs.head
  obtain ⟨h', hh', heq⟩ := popTo_reach
    (show (db.hold (first ++ second)).forkDb.head = some h from hs.head) hwf
    (by rw [hs.live_eq]; exact hlive)
    (fun j hj => hs.passing (lt_of_le_of_lt (min_le_left _ _) hj) _) (hs.popped_reached hdepth _ h)
  refine ⟨h', ?_, ?_⟩
  · rcases hh' with rfl | hmem
    · exact hwf
    · exact wf_of_mem_live hwf hmem
  · unfold popLoop
    rw [show (db.hold (first ++ second)).forkDb.head = some h from hs.head]
    exact heq

/-- Too short a history: the loop throws with as many blocks undone as it could,
and the fork head at the end of its links. -/
theorem Switching.popLoop_stuck (hpop : db.canPop h < second.length) :
    (db.hold (first ++ second)).popLoop last.previousId =
      .error .popLastItem ((db.hold (first ++ second)).popped
        ((db.forkDb.live h).getLastD h) (db.canPop h)) := by
  have hstuck := popTo_stuck (hs.live_eq h) hs.head (hs.inv.fork.head hs.head)
    (fun j hj => hs.passing (by
      unfold canPop at hpop
      omega) _)
  unfold popLoop
  rw [show (db.hold (first ++ second)).forkDb.head = some h from hs.head]
  simp only
  rw [hstuck]
  -- undos beyond the history do nothing
  have hiter : UndoStack.undo^[(db.forkDb.live h).length] db.chain =
      UndoStack.undo^[db.canPop h] db.chain := by
    unfold canPop
    rcases Nat.le_total (depth db.chain) (db.forkDb.live h).length with hle | hle
    · rw [Nat.min_eq_left hle, iterate_of_depth_le db.chain hle]
    · rw [Nat.min_eq_right hle]
  unfold popped
  rw [show (db.hold (first ++ second)).chain = db.chain from rfl, hiter]

end Switching

-- # A block of the new branch throws

/-- The switch after the item `x` was refused on `mid`: the items `done` of the
new branch have been pushed, `x` and `rest` are to be dropped. -/
structure Refused (exec : Exec ρ) (start : ChainState ρ) (db : Database ρ) (h : ForkItem)
    (first second : List ForkItem) (last : ForkItem) (done : List ForkItem) (x : ForkItem)
    (rest : List ForkItem) (mid : Database ρ) : Prop where
  switching : Switching exec start db h first second last
  settled : db.Settled
  pop : second.length ≤ db.canPop h
  split : first.reverse = done ++ x :: rest
  pushes : ∃ h', h'.WF ∧
    Pushes exec ((db.hold (first ++ second)).popped h' second.length) done mid

/-- The database in which the old branch is to be restored. -/
def dropped (mid : Database ρ) (x : ForkItem) (rest : List ForkItem) : Database ρ :=
  (mid.setForkHead x).removeItems (x :: rest)

theorem find?_removeItems {id : BlockId} :
    ∀ {items : List ForkItem} {f : ForkDatabase}, (∀ y ∈ items, y.id ≠ id) →
      (items.foldl (fun f y => f.remove y.id) f).index.find? id = f.index.find? id
  | [], _, _ => rfl
  | y :: ys, f, h => by
    rw [foldl_cons, find?_removeItems fun z hz => h z (mem_cons_of_mem _ hz)]
    show (f.index.erase y.id).find? id = _
    rw [Table.find?_erase, if_neg (h y (mem_cons_self ..)).symm]

theorem removeItems_fields :
    ∀ (items : List ForkItem) (f : ForkDatabase),
      (items.foldl (fun f y => f.remove y.id) f).head = f.head ∧
      (items.foldl (fun f y => f.remove y.id) f).held = f.held
  | [], _ => ⟨rfl, rfl⟩
  | y :: ys, f => removeItems_fields ys (f.remove y.id)

theorem Refused.dropped_head (x : ForkItem) (rest : List ForkItem) (mid : Database ρ) :
    (mid.dropped x rest).forkDb.head = some x :=
  (removeItems_fields (x :: rest) (mid.forkDb.setHead x)).1

variable {h last : ForkItem} {first second : List ForkItem}

section Refused

variable {done rest : List ForkItem} {x : ForkItem} {mid : Database ρ} (hlib : LibSound exec start)
  (hr : Refused exec start db h first second last done x rest mid)

include hr

theorem Refused.depth_le : second.length ≤ depth db.chain := le_trans hr.pop (min_le_left _ _)

theorem Refused.new_branch : ∀ w ∈ done ++ x :: rest, db.forkDb.contains w = true ∧ w.WF := by
  intro w hw
  rw [← hr.split, mem_reverse] at hw
  exact hr.switching.first_spec.1 w hw

theorem Refused.on_mid : Ascends mid.headBlockId (x :: rest) := by
  obtain ⟨h', -, hpush⟩ := hr.pushes
  have hasc := hr.switching.first_spec.2.1
  rw [hr.split] at hasc
  rw [hpush.headBlockId.1, hr.switching.popped_reached hr.depth_le]
  exact ascends_split hasc

theorem Refused.mid_up : BlockId.up^[done.length] mid.headBlockId = last.previousId := by
  obtain ⟨h', -, hpush⟩ := hr.pushes
  have hasc := hr.switching.first_spec.2.1
  rw [hr.split] at hasc
  rw [hpush.headBlockId.1, hr.switching.popped_reached hr.depth_le]
  exact ascends_up (ascends_left hasc)

theorem Refused.chain : (x :: done.reverse).IsChain PrevOf := by
  have hchain := hr.switching.first_spec.2.2.1
  have hfirst : first = rest.reverse ++ (x :: done.reverse) := by
    rw [← reverse_reverse first, hr.split]
    simp
  rw [hfirst] at hchain
  exact (isChain_append.mp hchain).2.1

include hlib

/-- Where the new branch got to: `done.length` blocks above the fork point. -/
theorem Refused.mid_spec :
    mid.Inv exec start ∧ mid.Settled ∧ db.logHeadNum ≤ mid.logHeadNum ∧
    mid.headBlockNum = last.previousId.num + done.length ∧
    mid.forkDb.held = first ++ second ∧
    (depth mid.chain < done.length ↔ last.previousId.num < mid.lib) := by
  obtain ⟨h', hwf', hpush⟩ := hr.pushes
  have hs := hr.switching
  -- the popped database keeps the invariants
  have hmoves := hs.popped_moves hwf'
  have hinv := hmoves.inv hs.inv
  obtain ⟨hsettled, hlog⟩ := hpush.settled hlib hinv (hmoves.settled hlib hs.inv hr.settled)
  have hnum₀ : ((db.hold (first ++ second)).popped h' second.length).headBlockNum =
      last.previousId.num := congrArg BlockId.num (hs.popped_reached hr.depth_le _ h')
  have hnum : mid.headBlockNum = last.previousId.num + done.length := by
    rw [hpush.headBlockId.2, hnum₀]
  refine ⟨(hpush.moves hinv.fork).inv hinv, hsettled, hlog, hnum, hpush.held, ?_, ?_⟩
  · intro hlt
    by_contra hle
    have := hpush.reach hlib hinv (n := last.previousId.num) (by omega) (by omega)
    omega
  · intro hlt
    have := hsettled.committed
    omega

/-- What has not become irreversible is in the index still. -/
theorem Refused.mid_contains {z : ForkItem} (hz : db.forkDb.contains z = true)
    (hnum : mid.lib ≤ z.num + 1) : mid.forkDb.contains z = true := by
  obtain ⟨h', hwf', hpush⟩ := hr.pushes
  exact hpush.contains hlib ((hr.switching.popped_moves hwf').inv hr.switching.inv) hz hnum

theorem Refused.live : done.length ≤ ((mid.dropped x rest).forkDb.live x).length := by
  obtain ⟨more, hmore⟩ := live_of_isChain (f := (mid.dropped x rest).forkDb) hr.chain
    (fun z hz => by
      have hheld : (mid.dropped x rest).forkDb.held = first ++ second := by
        rw [← (hr.mid_spec hlib).2.2.2.2.1]
        exact (removeItems_fields (x :: rest) (mid.forkDb.setHead x)).2
      have hmem : z ∈ first := by
        rw [← mem_reverse, hr.split]
        exact mem_append_left _ (mem_reverse.mp hz)
      unfold alive
      rw [hheld]
      simp [hmem])
  rw [hmore, length_append, length_reverse]
  omega

/-- The states the second pop loop passes above the fork point: their heads are
blocks of the new branch that have been neither pruned nor dropped. -/
theorem Refused.passing {j : Nat} (hj : min j (depth mid.chain) < done.length) :
    ((mid.dropped x rest).popped x j).headBlockId ≠ last.previousId ∧
      ((mid.dropped x rest).popped x j).HeadKnown := by
  obtain ⟨hinv, hset, -, hnum, -, -⟩ := hr.mid_spec hlib
  have hasc := hr.on_mid
  have hhist : History exec start (mid.dropped x rest).chain := hinv.history
  refine ⟨popped_ne hhist hnum.symm hj x, ?_⟩
  obtain ⟨z, hz⟩ : ∃ z, done.reverse[min j (depth mid.chain)]? = some z :=
    ⟨_, getElem?_eq_getElem (by simpa using hj)⟩
  have hzmem : z ∈ done ++ x :: rest :=
    mem_append_left _ (mem_reverse.mp (mem_of_getElem? hz))
  have hxwf := (hr.new_branch x (by simp)).2
  obtain ⟨hzid, hznum⟩ := id_of_isChain hr.chain hxwf
    (j := min j (depth mid.chain) + 1) (z := z) (by simpa using hz)
  have hxnum : x.num = mid.headBlockNum + 1 := by
    rw [x.num_eq, hasc.1]
    rfl
  have hcom := hset.committed
  -- in the index of `mid`, and not one of the dropped items
  have hzmid := hr.mid_contains hlib (hr.new_branch z hzmem).1 (by omega)
  refine ⟨z, ?_⟩
  have hid : ((mid.dropped x rest).popped x j).headBlockId =
      BlockId.up^[min j (depth mid.chain)] mid.headBlockId := (popped_headBlockId hhist x j).1
  have hup : BlockId.up^[min j (depth mid.chain)] mid.headBlockId = z.id := by
    rw [hzid, iterate_succ_apply, ForkItem.up_id, hasc.1]
  rw [hid, hup]
  show ((x :: rest).foldl (fun f y => f.remove y.id) (mid.forkDb.setHead x)).index.find? z.id = _
  rw [find?_removeItems]
  · exact contains_iff.mp hzmid
  · intro y hy heq
    have hynum := ascends_num hasc y hy
    have hzy : y.num = z.num := congrArg BlockId.num heq
    have : mid.headBlockId.num = mid.headBlockNum := rfl
    omega

theorem Refused.dropped_inv : (mid.dropped x rest).Inv exec start ∧ x.WF := by
  have hinv := (hr.mid_spec hlib).1
  have hx := (hr.new_branch x (by simp)).2
  exact ⟨⟨removeItems_wf (x :: rest) (hinv.fork.setHead hx), hinv.history⟩, hx⟩

/-- Every block of the old branch has a state, with an irreversible block that is
in the block log. -/
theorem Refused.second_state :
    ∀ z ∈ second, ∃ s, stateAt exec start z.id = some s ∧
      s.lastIrreversibleBlockNum ≤ db.logHeadNum := by
  intro z hz
  have hs := hr.switching
  obtain ⟨hids, -⟩ := hs.second_spec
  obtain ⟨j, hj⟩ := mem_iff_getElem?.mp hz
  have hjlen : j < second.length := (List.getElem?_eq_some_iff.mp hj).1
  have hjd : j ≤ depth db.chain := hjlen.le.trans hr.depth_le
  refine ⟨(UndoStack.undo^[j] db.chain).cur, ?_, ?_⟩
  · rw [(hids hj).1, ← show _ = BlockId.up^[j] db.headBlockId from
      (headBlockId_iterate hs.inv.history hjd).1]
    exact (history_iterate hs.inv.history j).cur
  · exact le_trans (lib_iterate_le hlib hs.inv.history j) hr.settled.logged

/-- Nothing above the fork point has become irreversible: the old branch comes
back, and the call throws what the refused block threw. -/
theorem restoreBranch_back (hle : mid.lib ≤ last.previousId.num) (e : Error) :
    ∃ h' db', h'.WF ∧
      Pushes exec ((mid.dropped x rest).popped h' done.length) second.reverse db' ∧
      (mid.setForkHead x).restoreBranch exec last.previousId second (x :: rest) e =
        .error e db' ∧
      db'.headBlockId = db.headBlockId := by
  obtain ⟨hinv, hset, hlog, hnum, -, hiff⟩ := hr.mid_spec hlib
  obtain ⟨hdinv, hxwf⟩ := hr.dropped_inv hlib
  have hs := hr.switching
  have hdepth : done.length ≤ depth mid.chain := by
    by_contra hlt
    omega
  obtain ⟨hids, hcont, hasc, htnum, htarget⟩ := hs.second_spec
  -- the second pop loop reaches the fork point
  have hreached : ∀ h', ((mid.dropped x rest).popped h' done.length).headBlockId =
      last.previousId := by
    intro h'
    rw [← hr.mid_up]
    exact (headBlockId_iterate hinv.history hdepth).1
  obtain ⟨h', hh', hpop⟩ := popTo_reach (Refused.dropped_head x rest mid) hxwf (hr.live hlib)
    (fun j hj => hr.passing hlib (lt_of_le_of_lt (min_le_left _ _) hj)) (hreached x)
  have hwf' : h'.WF := by
    rcases hh' with rfl | hmem
    · exact hxwf
    · exact wf_of_mem_live hxwf hmem
  have hmoves : Moves exec (mid.dropped x rest) ((mid.dropped x rest).popped h' done.length) :=
    popped_moves hdinv.fork hwf' done.length
  obtain ⟨db', hpush, hpushes⟩ := pushItems_known (hmoves.inv hdinv)
    (fun z hz => (hcont z (mem_reverse.mp hz)).2)
    (by rw [hreached]; exact hasc)
    (by
      intro z hz
      obtain ⟨s, hstate, hle'⟩ := hr.second_state hlib z (mem_reverse.mp hz)
      exact ⟨s, hstate, le_trans hle' hlog⟩)
  refine ⟨h', db', hwf', hpushes, ?_, ?_⟩
  · unfold restoreBranch popLoop
    rw [show ((mid.setForkHead x).removeItems (x :: rest)).forkDb.head = some x from
      Refused.dropped_head x rest mid]
    simp only
    rw [show (mid.setForkHead x).removeItems (x :: rest) = mid.dropped x rest from rfl, hpop]
    simp only
    rw [hpush]
  · rw [hpushes.headBlockId.1]
    exact hs.second_last _

/-- Something above the fork point has become irreversible: the second pop loop
uses up the new history and throws. -/
theorem restoreBranch_stuck (hlt : last.previousId.num < mid.lib) (e : Error) :
    (mid.setForkHead x).restoreBranch exec last.previousId second (x :: rest) e =
      .error .popLastItem ((mid.dropped x rest).popped
        (((mid.dropped x rest).forkDb.live x).getLastD x) (depth mid.chain)) := by
  obtain ⟨hinv, hset, hlog, hnum, -, hiff⟩ := hr.mid_spec hlib
  obtain ⟨hdinv, hxwf⟩ := hr.dropped_inv hlib
  have hdepth := hiff.mpr hlt
  have hlive := hr.live hlib
  have hstuck := popTo_stuck rfl (Refused.dropped_head x rest mid) hxwf
    (fun j _ => hr.passing hlib (lt_of_le_of_lt (min_le_right _ _) hdepth))
  have hiter : UndoStack.undo^[((mid.dropped x rest).forkDb.live x).length] mid.chain =
      UndoStack.undo^[depth mid.chain] mid.chain :=
    iterate_of_depth_le mid.chain (by omega)
  unfold restoreBranch popLoop
  rw [show ((mid.setForkHead x).removeItems (x :: rest)).forkDb.head = some x from
    Refused.dropped_head x rest mid]
  simp only
  rw [show (mid.setForkHead x).removeItems (x :: rest) = mid.dropped x rest from rfl, hstuck]
  unfold popped
  rw [show (mid.dropped x rest).chain = mid.chain from rfl, hiter]

variable {e : Error}
  (he : (mid.setForkHead x).applyInSession exec x.data = .error e (mid.setForkHead x))

include he

/-- A refused block is not on the old branch: that one could be pushed again. -/
theorem Refused.not_second : ∀ z ∈ second, x.id ≠ z.id := by
  intro z hz hid
  obtain ⟨hinv, -, hlog, -, -, -⟩ := hr.mid_spec hlib
  obtain ⟨-, hxwf⟩ := hr.dropped_inv hlib
  have hasc := hr.on_mid
  obtain ⟨s, hs, hle⟩ := hr.second_state hlib z hz
  have hknown : ∀ w ∈ [x], ∃ s, stateAt exec start w.id = some s ∧
      s.lastIrreversibleBlockNum ≤ mid.logHeadNum := by
    intro w hw
    obtain rfl : w = x := by simpa using hw
    exact ⟨s, hid ▸ hs, le_trans hle hlog⟩
  have hone : Ascends mid.headBlockId [x] := ⟨hasc.1, trivial⟩
  obtain ⟨db', hpush, -⟩ := pushItems_known hinv (by simpa using hxwf) hone hknown
  rw [pushItems, show ({ mid with forkDb := mid.forkDb.setHead x } : Database ρ) =
    mid.setForkHead x from rfl, he] at hpush
  cases hpush

/-- Nor is any block above it. -/
theorem Refused.not_dropped : ∀ w ∈ x :: rest, ∀ z ∈ second, w.id ≠ z.id := by
  intro w hw z hz hid
  have hasc := hr.on_mid
  obtain ⟨hids, -, -, htnum, -⟩ := hr.switching.second_spec
  obtain ⟨-, -, -, hnum, -, -⟩ := hr.mid_spec hlib
  obtain ⟨i, hxid, hwnum⟩ := ascends_below hasc w hw
  obtain ⟨j, hj⟩ := mem_iff_getElem?.mp hz
  obtain ⟨hzid, hznum⟩ := hids hj
  have hxnum : x.num = mid.headBlockNum + 1 := by
    rw [x.num_eq, hasc.1]
    rfl
  have hwz : w.num = z.num := congrArg BlockId.num hid
  obtain ⟨z', hz'⟩ : ∃ z', second[i + j]? = some z' :=
    ⟨_, getElem?_eq_getElem (by omega)⟩
  refine hr.not_second hlib he z' (mem_of_getElem? hz') ?_
  rw [(hids hz').1, hxid, hid, hzid, iterate_add_apply]

/-- The old branch is in the index still, if nothing above the fork point has become
irreversible: neither the pruning nor the dropping took its items out. -/
theorem Refused.second_kept (hle : mid.lib ≤ last.previousId.num) :
    ∀ z ∈ second, (mid.dropped x rest).forkDb.contains z = true := by
  intro z hz
  have hs := hr.switching
  obtain ⟨hids, hsecond, -, htnum, -⟩ := hs.second_spec
  have hznum : last.previousId.num < z.num := by
    obtain ⟨j, hj⟩ := mem_iff_getElem?.mp hz
    have hjlen : j < second.length := (List.getElem?_eq_some_iff.mp hj).1
    have := (hids hj).2
    omega
  have hzmid := hr.mid_contains hlib (hsecond z hz).1 (by omega)
  have hfind : (mid.dropped x rest).forkDb.index.find? z.id = some z :=
    (find?_removeItems fun w hw => hr.not_dropped hlib he w hw z hz).trans
      (contains_iff.mp hzmid)
  exact contains_iff.mpr hfind

end Refused

-- # The switch as a whole

/-- The database at the fork point: the old branch undone, both branches owned by
the call. -/
def atForkPoint (db : Database ρ) (first second : List ForkItem) : Database ρ :=
  { db.hold (first ++ second) with chain := UndoStack.undo^[second.length] db.chain }

/-- The blocks of the new branch applied in turn at the fork point, up to the
first that throws. -/
def tryBranch (exec : Exec ρ) (db : Database ρ) (first second : List ForkItem) :
    Database ρ × Option (Error × List ForkItem) :=
  (db.atForkPoint first second).pushItems exec first.reverse

/-- **The cases of a switch.** -/
theorem switchTo_cases (hset : db.Settled) (hs : Switching exec start db h first second last) :
    -- the history is too short for the pop loop
    (db.canPop h < second.length ∧
      (db.hold (first ++ second)).switchTo exec last.previousId first second =
        .error .popLastItem ((db.hold (first ++ second)).popped
          ((db.forkDb.live h).getLastD h) (db.canPop h))) ∨
    second.length ≤ db.canPop h ∧
      -- the new branch is accepted
      ((∃ h' db', h'.WF ∧
          Pushes exec ((db.hold (first ++ second)).popped h' second.length) first.reverse db' ∧
          db.tryBranch exec first second = (db', none) ∧
          (db.hold (first ++ second)).switchTo exec last.previousId first second =
            .ok true db') ∨
      -- a block of it throws
      ∃ done x rest mid e, Refused exec start db h first second last done x rest mid ∧
        (mid.setForkHead x).applyInSession exec x.data = .error e (mid.setForkHead x) ∧
        db.tryBranch exec first second = (mid.setForkHead x, some (e, x :: rest)) ∧
        (db.hold (first ++ second)).switchTo exec last.previousId first second =
          (mid.setForkHead x).restoreBranch exec last.previousId second (x :: rest) e) := by
  rcases Nat.lt_or_ge (db.canPop h) second.length with hpop | hpop
  · refine Or.inl ⟨hpop, ?_⟩
    unfold switchTo
    rw [hs.popLoop_stuck hpop]
  · refine Or.inr ⟨hpop, ?_⟩
    obtain ⟨h', hwf', hloop⟩ := hs.popLoop_reach hpop
    have hne : first.reverse ≠ [] := by
      have := hs.first_spec.2.2.2.1
      intro hnil
      have hlen := congrArg length hnil
      rw [length_reverse, length_nil] at hlen
      omega
    have htry : db.tryBranch exec first second =
        ((db.hold (first ++ second)).popped h' second.length).pushItems exec first.reverse := by
      unfold tryBranch
      cases hrev : first.reverse with
      | nil => exact absurd hrev hne
      | cons y ys => rfl
    unfold switchTo
    rw [hloop, htry]
    simp only
    rcases pushItems_spec exec first.reverse
        ((db.hold (first ++ second)).popped h' second.length)
        (fun z hz => (hs.first_spec.1 z (mem_reverse.mp hz)).2) with
      ⟨db', heq, hpush⟩ | ⟨done, x, rest, mid, e, hsplit, hpush, hrefused, heq⟩
    · refine Or.inl ⟨h', db', hwf', hpush, heq, ?_⟩
      rw [heq]
    · refine Or.inr ⟨done, x, rest, mid, e, ⟨hs, hset, hpop, hsplit, h', hwf', hpush⟩, hrefused,
        heq, ?_⟩
      rw [heq]

/-- The switch starts from the database with the new block in its fork database. -/
theorem switchForks_cases {b : Block} {f : ForkDatabase} (hinv : db.Inv exec start)
    (hheld : db.forkDb.held = []) (hpush : db.forkDb.pushBlock b = .ok (h, f))
    (hnum : db.headBlockNum < h.num) :
    (f.fetchBranchFrom h.id db.headBlockId = none ∧
      ({ db with forkDb := f } : Database ρ).switchForks exec h =
        .error .noBranch { db with forkDb := f }) ∨
    ∃ first second last, f.fetchBranchFrom h.id db.headBlockId = some (first, second) ∧
      Switching exec start { db with forkDb := f } h first second last ∧
      ({ db with forkDb := f } : Database ρ).switchForks exec h =
        release ((({ db with forkDb := f } : Database ρ).hold (first ++ second)).switchTo exec
          last.previousId first second) := by
  obtain ⟨item, hlink, rfl, hhead⟩ := pushBlock_eq_ok hpush
  have hwf := hinv.fork.insert hlink
  unfold switchForks
  rw [show ({ db with forkDb := db.forkDb.insert item } : Database ρ).headBlockId =
    db.headBlockId from rfl]
  cases hbr : (db.forkDb.insert item).fetchBranchFrom h.id db.headBlockId with
  | none => exact Or.inl ⟨rfl, rfl⟩
  | some branches =>
    obtain ⟨first, second⟩ := branches
    obtain ⟨-, -, ⟨-, last, -, hlast, -⟩, -⟩ := fetchBranchFrom_spec hwf hbr
    refine Or.inr ⟨first, second, last, rfl,
      ⟨⟨hwf, hinv.history⟩, hheld, hhead, hnum, hbr, hlast⟩, ?_⟩
    simp only [hlast]

end Database

end DeltaChain.Fork

import DeltaChain.Fork.Heads
import DeltaChain.Fork.MainBranch

/-!
# Fetching main branch blocks in a run

`fetch_block_on_main_branch_by_number` returns main branch blocks only in runs in
which no call leaves the fork head behind (`mainRun_fetch`). A call that throws
otherwise can: once the fork head is a rejected block, the next known block that is
offered again is applied, rejected and removed from the index, though it may be on
the main branch (`fetch_removed_main`).

* `Forking.after` — a switch that completes or is taken back ends on the main branch;
* `OnBranch.push`, `mainRun_onMain` — so do every call and every run under the condition.
-/

namespace DeltaChain.Fork

open Chainbase Lib List Option ForkDatabase ForkItem

-- # What the operations do to the items

namespace ForkDatabase

variable {f : ForkDatabase} {h item : ForkItem}

theorem items_insert_known {y : ForkItem} (hy : f.index.find? item.id = some y) :
    (f.insert item).items = f.items := by
  ext x
  show (f.insert item).contains x = true ↔ f.contains x = true
  rw [contains_iff, contains_iff, find?_insert]
  split
  · next hid => rw [hid, hy, getD_some]
  · rfl

theorem items_insert_new (hnew : f.index.find? item.id = none) :
    (f.insert item).items = Insert.insert item f.items := by
  ext x
  show (f.insert item).contains x = true ↔ x = item ∨ f.contains x = true
  rw [contains_iff, contains_iff, find?_insert]
  split
  · next hid =>
    rw [hid, hnew, getD_none, some.injEq]
    simp [eq_comm]
  · next hid =>
    refine ⟨Or.inr, ?_⟩
    rintro (rfl | hx)
    · exact absurd rfl hid
    · exact hx

theorem find?_eq_none (hf : f.WF) {id : BlockId} :
    f.index.find? id = none ↔ ∀ x ∈ f.items, x.id ≠ id := by
  constructor
  · intro hnone x hx hid
    have hx' := contains_iff.mp hx
    rw [hid, hnone] at hx'
    cases hx'
  · intro hall
    cases hfind : f.index.find? id with
    | none => rfl
    | some y => exact absurd (hf.index hfind).1 (hall y (hf.contains_of_find? hfind))

theorem items_setMaxSize (hh : f.head = some h) (n : Nat) :
    (f.setMaxSize n).items = { x ∈ f.items | h.num - n ≤ x.num } := by
  ext x
  show (f.setMaxSize n).contains x = true ↔ f.contains x = true ∧ h.num - n ≤ x.num
  rw [contains_iff, contains_iff]
  unfold setMaxSize
  rw [hh]
  rw [Table.find?_filter, filter_eq_some_iff]
  simp

theorem items_remove (f : ForkDatabase) (id : BlockId) :
    (f.remove id).items = { x ∈ f.items | ¬ x.id = id } := by
  ext x
  show (f.remove id).contains x = true ↔ f.contains x = true ∧ ¬ x.id = id
  rw [contains_iff, contains_iff, show (f.remove id).index = f.index.erase id from rfl,
    Table.find?_erase]
  split
  · next hid => simp [hid]
  · next hid => simp [hid]

theorem items_removeItems :
    ∀ (items : List ForkItem) (f : ForkDatabase),
      (items.foldl (fun f y => f.remove y.id) f).items =
        { x ∈ f.items | ¬ ∃ y ∈ items, y.id = x.id }
  | [], f => by simp
  | y :: ys, f => by
    rw [foldl_cons, items_removeItems ys (f.remove y.id), items_remove]
    ext x
    constructor
    · rintro ⟨⟨hx, hne⟩, hnot⟩
      refine ⟨hx, ?_⟩
      rintro ⟨w, hw, hid⟩
      rcases mem_cons.mp hw with rfl | hw
      · exact hne hid.symm
      · exact hnot ⟨w, hw, hid⟩
    · rintro ⟨hx, hnot⟩
      exact ⟨⟨hx, fun hid => hnot ⟨y, mem_cons_self .., hid.symm⟩⟩,
        fun ⟨w, hw, hid⟩ => hnot ⟨w, mem_cons_of_mem _ hw, hid⟩⟩

end ForkDatabase

namespace Database

variable {ρ : Type} {exec : Exec ρ} {start : ChainState ρ} {db db' : Database ρ}
  {h item : ForkItem} {s : ChainState ρ} {blocks : List ForkItem} {b : Block}

/-- Pushing a branch prunes the items below a height that is irreversible. -/
theorem Pushes.items (hlib : LibSound exec start) {items : List ForkItem}
    (hpush : Pushes exec db items db') (hinv : db.Inv exec start) :
    ∃ k, k ≤ db'.lib ∧ db'.forkDb.items = { x ∈ db.forkDb.items | k ≤ x.num } := by
  induction hpush with
  | nil => exact ⟨0, Nat.zero_le _, by simp⟩
  | @cons db db' x xs s blocks hx hacc hrest ih =>
    have hinv' := (hinv.setForkHead hx).applied hacc
    obtain ⟨k, hk, heq⟩ := ih hinv'
    have hle : s.lastIrreversibleBlockNum ≤ db'.lib := hrest.lib_le hlib hinv'
    have hnum : x.num = s.headBlockNum := hacc.forkHead rfl
    have hstep : ((db.setForkHead x).applied s blocks).forkDb.items =
        { y ∈ db.forkDb.items |
          x.num - (s.headBlockNum - s.lastIrreversibleBlockNum + 1) ≤ y.num } :=
      items_setMaxSize rfl _
    refine ⟨max k (x.num - (s.headBlockNum - s.lastIrreversibleBlockNum + 1)), ?_, ?_⟩
    · omega
    · rw [heq, hstep]
      ext y
      simp only [Set.mem_ofPred_eq, max_le_iff]
      tauto

-- # The condition

/-- A switch that completes or is taken back: the history reaches the fork point, and
the new branch is accepted or fails before a block above the fork point is
irreversible. -/
def SwitchKeepsMain (exec : Exec ρ) (db : Database ρ) (first second : List ForkItem) : Prop :=
  second.length ≤ depth db.chain ∧
    match db.tryBranch exec first second with
    | (_, none) => True
    | (mid, some _) => mid.lib ≤ db.headBlockNum - second.length

instance : Decidable (db.SwitchKeepsMain exec first second) := by
  unfold SwitchKeepsMain
  split <;> infer_instance

/-- A `push_block( b )` that does not leave the fork head behind: the fork database
refuses the block, or keeps its head; or the block extends the head and is accepted;
or the branches of a switch are found and the switch completes or is taken back. A
block without a previous one is only let in beside a known block 1. -/
def KeepsMain (exec : Exec ρ) (db : Database ρ) (b : Block) : Prop :=
  match db.forkDb.pushBlock b with
  | .error _ => True
  | .ok (newHead, f) =>
    (b.previous = .zero → db.forkDb.head = none ∨ db.forkDb.fetchBlockByNumber 1 ≠ []) ∧
    (newHead.num ≤ db.headBlockNum ∨
      if newHead.previousId = db.headBlockId then
        thrown? ({ db with forkDb := f }.applyInSession exec b) = none
      else match f.fetchBranchFrom newHead.id db.headBlockId with
        | none => False
        | some (first, second) => { db with forkDb := f }.SwitchKeepsMain exec first second)

instance : Decidable (db.KeepsMain exec b) := by
  unfold KeepsMain
  split
  · infer_instance
  · refine @instDecidableAnd _ _ inferInstance ?_
    refine @instDecidableOr _ _ inferInstance ?_
    split
    · infer_instance
    · split <;> infer_instance

/-- The runs of `push_block` from an open database in which every call keeps the main
branch. -/
inductive MainRun (exec : Exec ρ) (start : ChainState ρ) : Database ρ → Prop
  | opened {blockLog : List Block} {db : Database ρ} : LogNumbered blockLog →
      openOn start blockLog = some db → MainRun exec start db
  | push {db : Database ρ} (b : Block) : MainRun exec start db → db.KeepsMain exec b →
      MainRun exec start (after (db.pushBlock exec b))

theorem MainRun.feed {blocks : List Block} (hrun : MainRun exec start db)
    (hkeeps : ∀ i (hi : i < blocks.length),
      (db.feed exec (blocks.take i)).KeepsMain exec blocks[i]) :
    MainRun exec start (db.feed exec blocks) := by
  induction blocks generalizing db with
  | nil => exact hrun
  | cons b bs ih =>
    refine ih (hrun.push b (hkeeps 0 (by simp))) fun i hi => ?_
    exact hkeeps (i + 1) (Nat.succ_lt_succ hi)

theorem MainRun.reachable (hrun : MainRun exec start db) : Reachable exec start db := by
  induction hrun with
  | opened hlog hopen => exact .opened hlog hopen
  | push b _ _ ih => exact .push b ih

/-- The blocks with a state. -/
def Good (exec : Exec ρ) (start : ChainState ρ) (id : BlockId) : Prop :=
  ∃ s, stateAt exec start id = some s

/-- The fork head `h` is the known item of the head block, its branch goes through all
known heights, and these reach down to the block log. -/
structure OnBranch (exec : Exec ρ) (start : ChainState ρ) (db : Database ρ) (h : ForkItem) :
    Prop where
  head : db.forkDb.head = some h
  mem : h ∈ db.forkDb.items
  id : h.id = db.headBlockId
  main : Main db.forkDb.items h
  linked : Linked (Good exec start) db.forkDb.items
  logged : ∃ x ∈ db.forkDb.items, x.num ≤ db.logHeadNum + 1

theorem items_unique (f : ForkDatabase) : ∀ x ∈ f.items, ∀ y ∈ f.items, x.id = y.id → x = y :=
  fun _ hx _ hy hid => ForkDatabase.eq_of_contains hx hy hid

/-- The item of a block that the condition lets in fits. -/
theorem OnBranch.fits (hb : OnBranch exec start db h) (hf : db.forkDb.WF)
    (hlink : db.forkDb.link b = .ok item)
    (hzero : b.previous = .zero → db.forkDb.head = none ∨ db.forkDb.fetchBlockByNumber 1 ≠ []) :
    Fits db.forkDb.items item := by
  obtain ⟨hdata, hwf, hprev, hnone⟩ := link_spec hf hlink
  cases hp : item.prev? with
  | some p => exact Or.inl ⟨p, hprev p hp, hp, (hwf.of_prev hp).1.symm⟩
  | none =>
    have hhead : db.forkDb.head ≠ none := by
      rw [hb.head]
      simp
    have hz : b.previous = .zero := (hnone hp).resolve_left hhead
    right
    refine ⟨?_, ?_⟩
    · rw [previousId, hdata]
      exact hz
    · obtain ⟨x, hx⟩ := exists_mem_of_ne_nil _ ((hzero hz).resolve_left hhead)
      exact ⟨x, (mem_fetchBlockByNumber hf).mp hx⟩

theorem OnBranch.numEq (hb : OnBranch exec start db h) : h.num = db.headBlockNum := congrArg BlockId.num hb.id

/-- A block that does not go above the head. -/
theorem OnBranch.insert (hb : OnBranch exec start db h) (hf : db.forkDb.WF)
    (hfit : Fits db.forkDb.items item) (hle : item.num ≤ h.num)
    (hhead : (db.forkDb.insert item).head = some h) : OnBranch exec start (db.noting item) h := by
  obtain ⟨x₀, hx₀, hlow, -⟩ := hfit.low
  obtain ⟨x₁, hx₁, hlog⟩ := hb.logged
  cases hfind : db.forkDb.index.find? item.id with
  | some y =>
    have heq := items_insert_known hfind
    exact ⟨hhead, heq ▸ hb.mem, hb.id, heq ▸ hb.main, heq ▸ hb.linked, x₁, heq ▸ hx₁, hlog⟩
  | none =>
    have heq := items_insert_new hfind
    have hnew := (find?_eq_none hf).mp hfind
    exact ⟨hhead, heq ▸ Or.inr hb.mem, hb.id,
      heq ▸ hb.main.add (hf.head hb.head) hle ⟨x₀, hx₀, hlow⟩,
      heq ▸ hb.linked.add (items_unique _) hnew hfit, x₁, heq ▸ Or.inr hx₁, hlog⟩

/-- The items below an irreversible height taken out of a set with a main branch. -/
theorem OnBranch.of_prune {I : Set ForkItem} {k : Nat} (hm : Main I h) (hwf : h.WF) (hmem : h ∈ I)
    (hl : Linked (Good exec start) I) (hlow : ∃ x ∈ I, x.num ≤ db.logHeadNum + 1)
    (hset : db.Settled) (hk : k ≤ db.lib) (heq : db.forkDb.items = { x ∈ I | k ≤ x.num })
    (hhead : db.forkDb.head = some h) (hid : h.id = db.headBlockId) : OnBranch exec start db h := by
  have hnum : h.num = db.headBlockNum := congrArg BlockId.num hid
  have hcom := hset.committed
  have hlog := hset.logged
  refine ⟨hhead, ?_, hid, ?_, ?_, ?_⟩
  · rw [heq]
    exact ⟨hmem, by omega⟩
  · rw [heq]
    exact hm.restrict (fun x hx => hx.1) fun x hx y _ hy hxy => ⟨hy, le_trans hx.2 hxy⟩
  · rw [heq]
    exact hl.prune k
  · -- the item of the main branch at the height `k`, if the lowest item is pruned
    obtain ⟨x, hx, hxlog⟩ := hlow
    obtain ⟨z, -, hznum, hzI⟩ := hm.exists_at hwf hx (n := max k x.num) (le_max_right ..)
      (by have := hm.top x hx; omega)
    refine ⟨z, ?_, by omega⟩
    rw [heq]
    exact ⟨hzI, by omega⟩

theorem Accepts.pruned (hacc : Accepts exec db b s blocks) (hhead : db.forkDb.head = some h) :
    ∃ k, k ≤ (db.applied s blocks).lib ∧
      (db.applied s blocks).forkDb.items = { x ∈ db.forkDb.items | k ≤ x.num } := by
  refine ⟨h.num - (s.headBlockNum - s.lastIrreversibleBlockNum + 1), ?_,
    items_setMaxSize hhead _⟩
  have := hacc.forkHead hhead
  show _ ≤ s.lastIrreversibleBlockNum
  omega

/-- A block above the head is the first at its height. -/
theorem OnBranch.above (hb : OnBranch exec start db h) (hf : db.forkDb.WF)
    (hfit : Fits db.forkDb.items item) (hlt : h.num < item.num) :
    item.num = h.num + 1 ∧ (∃ p ∈ db.forkDb.items, item.prev? = some p ∧ p.id = item.previousId) ∧
      (db.forkDb.insert item).items = Insert.insert item db.forkDb.items ∧
      Linked (Good exec start) (Insert.insert item db.forkDb.items) := by
  obtain ⟨x₀, hx₀, -, hnear⟩ := hfit.low
  have htop := hb.main.top x₀ hx₀
  have hnew : ∀ x ∈ db.forkDb.items, x.id ≠ item.id := by
    intro x hx hid
    have hxtop := hb.main.top x hx
    have : x.num = item.num := congrArg BlockId.num hid
    omega
  have hfind := (find?_eq_none hf).mpr hnew
  refine ⟨by omega, ?_, items_insert_new hfind,
    hb.linked.add (items_unique _) hnew hfit⟩
  rcases hfit with hp | ⟨hzero, x, hx, hxnum⟩
  · exact hp
  · have hitem : item.num = 1 := by
      rw [item.num_eq, hzero]
      rfl
    have := hb.main.top x hx
    omega

/-- A block that extends the head and is accepted. -/
theorem OnBranch.extend (hlib : LibSound exec start) (hinv : db.Inv exec start)
    (hb : OnBranch exec start db h) (hlink : db.forkDb.link b = .ok item)
    (hfit : Fits db.forkDb.items item) (hlt : h.num < item.num)
    (hhead : (db.forkDb.insert item).head = some item) (hprev : item.previousId = db.headBlockId)
    (hacc : Accepts exec (db.noting item) b s blocks) :
    OnBranch exec start ((db.noting item).applied s blocks) item := by
  obtain ⟨hdata, hwf, -, -⟩ := link_spec hinv.fork hlink
  obtain ⟨hnum, ⟨p, hp, hpprev, hpid⟩, hitems, hlinked⟩ := hb.above hinv.fork hfit hlt
  obtain rfl : p = h := items_unique _ p hp h hb.mem (by rw [hpid, hprev, hb.id])
  have hinv' : (db.noting item).Inv exec start := ⟨hinv.fork.insert hlink, hinv.history⟩
  obtain ⟨x, hx, hxlog⟩ := hb.logged
  have hlog := (logged_applied hinv'.fork hacc).2
  obtain ⟨k, hk, hpruned⟩ := hacc.pruned hhead
  refine OnBranch.of_prune (hb.main.extend (hinv.fork.head hb.head) hpprev hnum) hwf (Or.inl rfl)
    hlinked ⟨x, Or.inr hx, le_trans hxlog (Nat.succ_le_succ hlog)⟩
    (Settled.applied hlib hinv' hacc) hk (hitems ▸ hpruned)
    ((head_setMaxSize _).trans hhead) ?_
  show item.id = s.headBlockId
  rw [(execBlock_eq_some hacc.exec).2, ForkItem.id, hdata]

-- # A switch

private theorem exists_mapM {α β : Type} {g : α → Option β} :
    ∀ {l : List α}, (∀ a ∈ l, ∃ b, g a = some b) → ∃ bs, l.mapM g = some bs
  | [], _ => ⟨[], rfl⟩
  | a :: l, hall => by
    obtain ⟨b, hb⟩ := hall a (mem_cons_self ..)
    obtain ⟨bs, hbs⟩ := exists_mapM fun a' ha' => hall a' (mem_cons_of_mem _ ha')
    refine ⟨b :: bs, ?_⟩
    rw [mapM_cons, hb, hbs]
    rfl

theorem stateAt_item {y : ForkItem} (hs : stateAt exec start y.id = some s)
    (hnum : start.headBlockNum ≤ y.data.previous.num) :
    ∃ s', stateAt exec start y.data.previous = some s' ∧ execBlock exec s' y.data = some s := by
  have hblock : stateAt exec start y.id =
      (stateAt exec start y.data.previous).bind fun s => execBlock exec s y.data :=
    stateAt_block hnum
  rw [hs] at hblock
  exact bind_eq_some_iff.mp hblock.symm

/-- Blocks on top of a block without a state have no state. -/
theorem ascends_bad :
    ∀ {items : List ForkItem} {a : BlockId}, Ascends a items → start.headBlockNum ≤ a.num →
      ¬ Good exec start a → ∀ w ∈ items, ¬ Good exec start w.id
  | y :: ys, a, hasc, hnum, ha, w, hw => by
    have hprev : y.data.previous = a := hasc.1
    have hy : ¬ Good exec start y.id := by
      rintro ⟨s, hs⟩
      obtain ⟨s', hs', -⟩ := stateAt_item hs (hprev ▸ hnum)
      exact ha ⟨s', hprev ▸ hs'⟩
    rcases mem_cons.mp hw with rfl | hw
    · exact hy
    · refine ascends_bad hasc.2 ?_ hy w hw
      rw [num_id, y.num_eq, hasc.1]
      omega

/-- A switch from the main branch of `h` to the branch of a new item, with enough
history to reach the fork point. -/
structure Forking (exec : Exec ρ) (start : ChainState ρ) (db : Database ρ) (h item : ForkItem)
    (first second : List ForkItem) (last : ForkItem) : Prop where
  inv : db.Inv exec start
  settled : db.Settled
  branch : OnBranch exec start db h
  wf : item.WF
  fits : Fits db.forkDb.items item
  above : h.num < item.num
  switching : Switching exec start (db.noting item) item first second last
  depth : second.length ≤ depth db.chain

section Forking

variable {first second : List ForkItem} {last : ForkItem} (hlib : LibSound exec start)
  (hfk : Forking exec start db h item first second last)

include hfk

theorem Forking.fork_num : last.previousId.num + second.length = db.headBlockNum :=
  hfk.switching.second_spec.2.2.2.1

/-- The branch of the new item is a main branch too. -/
theorem Forking.main :
    (∃ tail, first = item :: tail) ∧ Main (db.forkDb.insert item).items item := by
  have htnum := hfk.fork_num
  obtain ⟨hinv, -, hb, hwf, hfit, hlt, hs, hdepth⟩ := hfk
  obtain ⟨hnum, -, hitems, hlinked⟩ := hb.above hinv.fork hfit hlt
  obtain ⟨hfirst, hasc, hchain, -, x, hx₀, hx⟩ := hs.first_spec
  have htarget : last.previousId = BlockId.up^[second.length] db.headBlockId :=
    hs.second_spec.2.2.2.2
  have hhnum := hb.numEq
  match first, hx₀ with
  | x' :: tail, hx₀ =>
    obtain rfl : x' = x := some.inj hx₀
    -- no other item has this block
    obtain rfl : x' = item := by
      have hitem : (db.forkDb.insert item).index.find? item.id = some item := by
        have : item ∈ (db.forkDb.insert item).items := hitems ▸ Or.inl rfl
        exact contains_iff.mp this
      exact mem_unique hx hitem
    refine ⟨⟨tail, rfl⟩, ?_⟩
    obtain ⟨low, hlow⟩ : ∃ low, (x' :: tail).getLast? = some low :=
      ⟨_, getLast?_eq_some_getLast (by simp)⟩
    have hlowprev : low.previousId = last.previousId := by
      obtain ⟨init, hinit⟩ := getLast?_eq_some_iff.mp hlow
      rw [hinit, reverse_append] at hasc
      exact hasc.1
    have hstate : Good exec start last.previousId := by
      refine ⟨(UndoStack.undo^[second.length] db.chain).cur, ?_⟩
      rw [htarget, ← show _ = BlockId.up^[second.length] db.headBlockId from
        (headBlockId_iterate hinv.history hdepth).1]
      exact (history_iterate hinv.history second.length).cur
    have hmem : ∀ z ∈ x' :: tail, z ∈ Insert.insert x' db.forkDb.items := by
      intro z hz
      rw [← hitems]
      exact (hfirst z hz).1
    rw [hitems]
    refine hb.main.switch (k := second.length) (hinv.fork.head hb.head) hwf hlinked hchain hmem
      hlow (hlowprev ▸ hstate) ?_ ?_ hnum
    · rw [hlowprev, htarget, hb.id]
    · rw [low.num_eq, hlowprev]
      omega

theorem Forking.settled_noting : (db.noting item).Settled :=
  ⟨hfk.settled.committed, hfk.settled.logged⟩

include hlib

/-- The switch completes, and the branch of the new item is the main branch. -/
theorem Forking.accepted {h' : ForkItem} (hwf' : h'.WF)
    (hpush : Pushes exec (((db.noting item).hold (first ++ second)).popped h' second.length)
      first.reverse db') : OnBranch exec start db' item := by
  obtain ⟨⟨tail, rfl⟩, hmain⟩ := hfk.main
  have hmoves := hfk.switching.popped_moves hwf'
  have hinv := hmoves.inv hfk.switching.inv
  have hset := hmoves.settled hlib hfk.switching.inv hfk.settled_noting
  have hfirst := hfk.switching.first_spec.1
  have hitem : (db.forkDb.insert item).contains item = true := (hfirst item (by simp)).1
  obtain ⟨hset', hlog⟩ := hpush.settled hlib hinv hset
  obtain ⟨hhead, hid, -⟩ := heads_pushed hlib hinv hset hpush hitem
  obtain ⟨k, hk, hitems⟩ := hpush.items hlib hinv
  obtain ⟨-, -, hinsert, hlinked⟩ := hfk.branch.above hfk.inv.fork hfk.fits hfk.above
  obtain ⟨x, hx, hxlog⟩ := hfk.branch.logged
  exact OnBranch.of_prune hmain hfk.wf hitem (hinsert ▸ hlinked)
    ⟨x, hinsert ▸ Or.inr hx, le_trans hxlog (Nat.succ_le_succ hlog)⟩ hset' hk hitems hhead hid

section Refused

variable {done rest : List ForkItem} {x : ForkItem} {mid : Database ρ} {e : Error}
  (hr : Refused exec start (db.noting item) item first second last done x rest mid)
  (he : (mid.setForkHead x).applyInSession exec x.data = .error e (mid.setForkHead x))

include hlib hfk hr

theorem Forking.mid_items :
    ∃ k, k ≤ mid.lib ∧ mid.forkDb.items = { z ∈ (db.forkDb.insert item).items | k ≤ z.num } := by
  obtain ⟨h', hwf', hpush⟩ := hr.pushes
  exact hpush.items hlib ((hfk.switching.popped_moves hwf').inv hfk.switching.inv)

include he

/-- The refused item could have been written to the block log with everything below
it, so the block itself was rejected: it has no state. -/
theorem Forking.rejected : execBlock exec mid.chain.cur x.data = none := by
  obtain ⟨hminv, hmset, hmlog, -, -, -⟩ := hr.mid_spec hlib
  have hxwf := (hr.new_branch x (by simp)).2
  obtain ⟨⟨tail, hfirst⟩, hmain⟩ := hfk.main
  obtain ⟨k, hk, hitems⟩ := hfk.mid_items hlib hr
  obtain ⟨-, -, hinsert, -⟩ := hfk.branch.above hfk.inv.fork hfk.fits hfk.above
  have hxanc : x ∈ item.ancestors := by
    have hchain := hr.switching.first_spec.2.2.1
    have hx : x ∈ first := by
      rw [← mem_reverse, hr.split]
      simp
    rw [hfirst] at hchain hx
    exact (mem_ancestors_of_isChain hchain).mpr (Or.inl hx)
  cases hexec : execBlock exec mid.chain.cur x.data with
  | none => rfl
  | some s =>
    exfalso
    have hnum : x.num = s.headBlockNum := by
      unfold ChainState.headBlockNum
      rw [(execBlock_eq_some hexec).2, ← num_id]
      rfl
    have hslib := (hlib.step hminv.history.cur hexec).2
    have hfetch : ∀ n ∈ range' (mid.logHeadNum + 1) (s.lastIrreversibleBlockNum - mid.logHeadNum),
        ∃ y, (mid.forkDb.setHead x).fetchBlockOnMainBranchByNumber n = some y := by
      intro n hn
      rw [mem_range'_1] at hn
      -- the branch of the refused item is known from the end of the block log on
      obtain ⟨x₀, hx₀, hx₀log⟩ := hfk.branch.logged
      have hx₀' : x₀ ∈ (db.forkDb.insert item).items := hinsert ▸ Or.inr hx₀
      have hlow : x₀.num ≤ n := by
        have : db.logHeadNum ≤ mid.logHeadNum := hmlog
        omega
      have hxle := (ancestors_spec hfk.wf hxanc).1
      obtain ⟨z, hz, hznum, -⟩ := hmain.exists_at hfk.wf hx₀' hlow (by omega)
      obtain ⟨x', hx', hx'num, hzx⟩ := exists_ancestor hfk.wf hz (by omega) hxle
      obtain rfl : x' = x := ancestors_unique hfk.wf hx' hxanc hx'num
      refine fetch_isSome (hminv.fork.setHead hxwf) rfl (by omega) ⟨z, hzx, hznum⟩ ?_
      intro y hy hny
      have hyitem : y ∈ (db.forkDb.insert item).items :=
        hmain.closed x₀ hx₀' y (ancestors_trans hxanc hy) (by omega)
      have hlog := hmset.logged
      show y ∈ mid.forkDb.items
      rw [hitems]
      exact ⟨hyitem, by omega⟩
    obtain ⟨blocks, hblocks⟩ := exists_mapM hfetch
    have hacc : Accepts exec (mid.setForkHead x) x.data s blocks :=
      ⟨hexec, fun hh => some.inj hh ▸ hnum, hblocks⟩
    rw [applyInSession_ok hacc] at he
    cases he

/-- The items that are dropped have no state. -/
theorem Forking.bad : ∀ w ∈ x :: rest, ¬ Good exec start w.id := by
  have hasc := hr.on_mid
  have hcur := (hr.mid_spec hlib).1.history.cur
  have hcur' : stateAt exec start x.data.previous = some mid.chain.cur := by
    rw [show x.data.previous = mid.headBlockId from hasc.1]
    exact hcur
  have hnum := stateAt_num_le hcur'
  have hx : ¬ Good exec start x.id := by
    rintro ⟨s, hs⟩
    obtain ⟨s', hs', hexec⟩ := stateAt_item hs hnum
    obtain rfl := mem_unique hcur' hs'
    rw [hfk.rejected hlib hr he] at hexec
    cases hexec
  intro w hw
  rcases mem_cons.mp hw with rfl | hw
  · exact hx
  · refine ascends_bad hasc.2 ?_ hx w hw
    exact le_trans hnum (Nat.le_succ _)

/-- None of the dropped items is on the main branch. -/
theorem Forking.not_main : ∀ y ∈ h.ancestors, ¬ ∃ w ∈ x :: rest, w.id = y.id := by
  rintro y hy ⟨w, hw, hid⟩
  have hhwf := hfk.inv.fork.head hfk.branch.head
  have hhnum := hfk.branch.numEq
  obtain ⟨hle, hyid, -⟩ := ancestors_spec hhwf hy
  obtain ⟨hids, -⟩ := hr.switching.second_spec
  have hwy : w.num = y.num := congrArg BlockId.num hid
  have hwnum : mid.headBlockNum < w.num := ascends_num hr.on_mid w hw
  have hmid := (hr.mid_spec hlib).2.2.2.1
  have htnum := hfk.fork_num
  obtain ⟨z, hz⟩ : ∃ z, second[h.num - y.num]? = some z :=
    ⟨_, getElem?_eq_getElem (by omega)⟩
  refine hr.not_dropped hlib he w hw z (mem_of_getElem? hz) ?_
  rw [hid, hyid, hfk.branch.id, (hids hz).1]
  rfl

/-- The switch is taken back, and `h` is on the main branch again. -/
theorem Forking.restored (hle : mid.lib ≤ last.previousId.num) {h' : ForkItem} (hwf' : h'.WF)
    (hpush : Pushes exec ((mid.dropped x rest).popped h' done.length) second.reverse db') :
    OnBranch exec start db' h := by
  have hb := hfk.branch
  have hhwf := hfk.inv.fork.head hb.head
  have hhnum := hb.numEq
  have htnum := hfk.fork_num
  obtain ⟨-, hmset, hmlog, -, -, -⟩ := hr.mid_spec hlib
  obtain ⟨hdinv, -⟩ := hr.dropped_inv hlib
  obtain ⟨hnum, -, hinsert, hlinked⟩ := hb.above hfk.inv.fork hfk.fits hfk.above
  obtain ⟨⟨tail, hfirst⟩, -⟩ := hfk.main
  obtain ⟨k, hk, hmitems⟩ := hfk.mid_items hlib hr
  have hnot := hfk.not_main hlib hr he
  have hditems : (mid.dropped x rest).forkDb.items =
      { z ∈ mid.forkDb.items | ¬ ∃ w ∈ x :: rest, w.id = z.id } :=
    items_removeItems (x :: rest) (mid.forkDb.setHead x)
  -- the new item itself is always dropped
  have hitem : item ∈ x :: rest := by
    have hsplit := hr.split
    rw [hfirst, reverse_cons] at hsplit
    have hlast := congrArg getLast? hsplit
    rw [getLast?_concat, getLast?_append, getLast?_cons] at hlast
    have hlast' : some item = (x :: rest).getLast? := by
      rw [hlast, getLast?_cons]
      rfl
    exact mem_of_getLast? hlast'.symm
  have hmem : ∀ z, z ∈ (mid.dropped x rest).forkDb.items ↔
      z ∈ db.forkDb.items ∧ k ≤ z.num ∧ ¬ ∃ w ∈ x :: rest, w.id = z.id := by
    intro z
    rw [hditems, hmitems, hinsert]
    constructor
    · rintro ⟨⟨rfl | hz, hkz⟩, hdrop⟩
      · exact absurd ⟨z, hitem, rfl⟩ hdrop
      · exact ⟨hz, hkz, hdrop⟩
    · rintro ⟨hz, hkz, hdrop⟩
      exact ⟨⟨Or.inr hz, hkz⟩, hdrop⟩
  have hmain : Main (mid.dropped x rest).forkDb.items h := by
    refine hb.main.restrict (fun z hz => ((hmem z).mp hz).1) fun z hz y hy hyI hzy => ?_
    exact (hmem y).mpr ⟨hyI, le_trans ((hmem z).mp hz).2.1 hzy, hnot y hy⟩
  have hdlinked : Linked (Good exec start) (mid.dropped x rest).forkDb.items := by
    rw [hditems, hmitems, hinsert]
    refine (hlinked.prune k).drop fun z _ hz => ?_
    obtain ⟨w, hw, hid⟩ := hz
    exact hid ▸ hfk.bad hlib hr he w hw
  have hmoves : Moves exec _ ((mid.dropped x rest).popped h' done.length) :=
    popped_moves hdinv.fork hwf' done.length
  have hset : ((mid.dropped x rest).popped h' done.length).Settled :=
    hmoves.settled hlib hdinv ⟨hmset.committed, hmset.logged⟩
  obtain ⟨hset', hlog⟩ := hpush.settled hlib (hmoves.inv hdinv) hset
  obtain ⟨k', hk', hitems⟩ := hpush.items hlib (hmoves.inv hdinv)
  -- the head of the old branch is the old fork head
  have hhmem : h ∈ (mid.dropped x rest).forkDb.items :=
    (hmem h).mpr ⟨hb.mem, by omega, hnot h h.self_mem_ancestors⟩
  obtain ⟨y, hy₀, hhead, hid, -⟩ := heads_restored hlib hr he hle hwf' hpush
  obtain rfl : y = h := by
    have hy : y ∈ second := mem_of_mem_head? hy₀
    have hyid : y.id = db.headBlockId := by
      rw [head?_eq_getElem?] at hy₀
      exact (hr.switching.second_spec.1 hy₀).1
    exact items_unique _ y (hr.second_kept hlib he hle y hy) h hhmem (by rw [hyid, hb.id])
  have hlow : ∃ z ∈ (mid.dropped x rest).forkDb.items, z.num ≤ db'.logHeadNum + 1 := by
    obtain ⟨x₀, hx₀, hx₀log⟩ := hb.logged
    obtain ⟨z, hz, hznum, hzI⟩ := hb.main.exists_at hhwf hx₀ (n := max k x₀.num)
      (le_max_right ..) (by have := hb.main.top x₀ hx₀; omega)
    refine ⟨z, (hmem z).mpr ⟨hzI, by omega, hnot z hz⟩, ?_⟩
    have hmlog' : db.logHeadNum ≤ mid.logHeadNum := hmlog
    have hlog' : mid.logHeadNum ≤ db'.logHeadNum := hlog
    have := hmset.logged
    omega
  exact OnBranch.of_prune hmain hhwf hhmem hdlinked hlow hset' hk' hitems hhead hid

end Refused

/-- A switch that completes or is taken back. -/
theorem Forking.after {b : Block} (hlink : db.forkDb.link b = .ok item)
    (hk : match (db.noting item).tryBranch exec first second with
      | (_, none) => True
      | (mid, some _) => mid.lib ≤ db.headBlockNum - second.length) :
    ∃ h', OnBranch exec start (after (((db.noting item).hold (first ++ second)).switchTo exec
      last.previousId first second)) h' := by
  have hs := hfk.switching
  have hlive := live_newHead hfk.inv hfk.branch.head hlink rfl hs
  rcases switchTo_cases hfk.settled_noting hs with ⟨hpop, -⟩ | ⟨hpop, ⟨h', db', hwf', hpush, -, heq⟩ |
    ⟨done, x, rest, mid, e, hr, he, htry, heq⟩⟩
  · -- both the history and the links are long enough
    have hdepth : second.length ≤ Fork.depth db.chain := hfk.depth
    have hpop' : min (Fork.depth db.chain) ((db.forkDb.insert item).live item).length <
        second.length := hpop
    omega
  · rw [heq]
    exact ⟨item, hfk.accepted hlib hwf' hpush⟩
  · rw [htry] at hk
    have hle : mid.lib ≤ last.previousId.num := by
      have htnum := hfk.fork_num
      have hk' : mid.lib ≤ db.headBlockNum - second.length := hk
      omega
    obtain ⟨h', db', hwf', hpush, hback, -⟩ := restoreBranch_back hlib hr hle e
    rw [heq, hback]
    exact ⟨h, hfk.restored hlib hr he hle hwf' hpush⟩

end Forking

-- # Steps and runs

/-- Nothing has happened yet, or the fork head is on the main branch. -/
def OnMain (exec : Exec ρ) (start : ChainState ρ) (db : Database ρ) : Prop :=
  (db.forkDb.head = none ∧ db.forkDb.items = ∅ ∧ db.headBlockNum = 0) ∨
    ∃ h, OnBranch exec start db h

theorem OnBranch.hold {items : List ForkItem} (hb : OnBranch exec start db h) :
    OnBranch exec start (db.hold items) h :=
  ⟨hb.head, hb.mem, hb.id, hb.main, hb.linked, hb.logged⟩

variable {b : Block}

theorem onBranch_single {I : Set ForkItem} {k : Nat} {ref : Nat} (hI : I = {.unlinked ref b})
    (hset : db.Settled) (hlog : (ForkItem.unlinked ref b).num ≤ db.logHeadNum + 1) (hk : k ≤ db.lib)
    (heq : db.forkDb.items = { x ∈ I | k ≤ x.num })
    (hhead : db.forkDb.head = some (.unlinked ref b))
    (hid : (ForkItem.unlinked ref b).id = db.headBlockId) :
    OnBranch exec start db (.unlinked ref b) := by
  have hmem : ∀ x ∈ I, x = .unlinked ref b := by
    intro x hx
    rw [hI] at hx
    exact hx
  have hself : unlinked ref b ∈ I := by
    rw [hI]
    exact rfl
  refine OnBranch.of_prune (I := I) ?_ trivial hself ?_ ⟨_, hself, hlog⟩ hset hk heq hhead hid
  · refine ⟨fun x hx => le_of_eq (by rw [hmem x hx]), fun x hx => ?_, fun x _ y hy _ => ?_⟩
    · exact ⟨_, self_mem_ancestors _, by rw [hmem x hx]⟩
    · obtain rfl : y = .unlinked ref b := by simpa [ancestors] using hy
      exact hself
  · refine ⟨fun x hx y hy hxy _ => ?_, fun x hx => Or.inr (Or.inr fun z hz => ?_)⟩
    · have := num_of_previousId hxy
      rw [hmem x hx, hmem y hy] at this
      omega
    · rw [hmem x hx, hmem z hz]

/-- The first block of all. -/
theorem onMain_first (hlib : LibSound exec start) (hinv : db.Inv exec start)
    (hnone : db.forkDb.head = none) (hempty : db.forkDb.items = ∅) (hzero : db.headBlockNum = 0)
    (hk : db.KeepsMain exec b) : OnMain exec start (after (db.pushBlock exec b)) := by
  have hlink : db.forkDb.link b = .ok (.unlinked db.forkDb.nextRef b) := by
    unfold link
    rw [hnone]
  have hhead : (db.forkDb.insert (.unlinked db.forkDb.nextRef b)).head =
      some (.unlinked db.forkDb.nextRef b) := by
    unfold ForkDatabase.insert
    rw [hnone]
  have hpush : db.forkDb.pushBlock b = .ok (.unlinked db.forkDb.nextRef b,
      db.forkDb.insert (.unlinked db.forkDb.nextRef b)) := by
    unfold ForkDatabase.pushBlock
    rw [hlink]
    show Except.ok ((db.forkDb.insert _).head.getD _, _) = _
    rw [hhead]
    rfl
  generalize hitem : unlinked db.forkDb.nextRef b = item at *
  have hwf : item.WF := hitem ▸ trivial
  have hpos : 0 < item.num := by
    rw [item.num_eq]
    omega
  have hitems : (db.forkDb.insert item).items = {item} := by
    have hfind : db.forkDb.index.find? item.id = none := by
      rw [find?_eq_none hinv.fork, hempty]
      simp
    rw [items_insert_new hfind, hempty]
    exact insert_empty_eq item
  unfold KeepsMain at hk
  rw [hpush] at hk
  obtain ⟨-, hk⟩ := hk
  have hk := hk.resolve_left (by omega)
  rw [pushBlock_linked hpush]
  by_cases hprev : item.previousId = db.headBlockId
  · rw [if_pos hprev] at hk
    rw [if_neg (not_not.mpr hprev)]
    have hinv' : (db.noting item).Inv exec start := ⟨hinv.fork.insert hlink, hinv.history⟩
    rcases applyInSession_cases exec (db.noting item) b with
      ⟨e, he⟩ | ⟨s, blocks, hacc, hok⟩
    · rw [he] at hk
      exact absurd hk (by simp [thrown?])
    · rw [hok]
      right
      obtain ⟨k, hlow, hpruned⟩ := hacc.pruned hhead
      have hitemnum : item.num = 1 := by
        rw [item.num_eq, hprev, show db.headBlockId.num = db.headBlockNum from rfl, hzero]
      subst hitem
      exact ⟨_, onBranch_single hitems (Settled.applied hlib hinv' hacc) (by omega) hlow hpruned
        ((head_setMaxSize _).trans hhead) (execBlock_eq_some hacc.exec).2.symm⟩
  · -- the index does not have the head block, so there are no branches
    exfalso
    rw [if_neg hprev] at hk
    have hfind : (db.forkDb.insert item).index.find? db.headBlockId = none := by
      rw [find?_eq_none (hinv.fork.insert hlink), hitems]
      rintro x rfl hid
      have : x.num = db.headBlockNum := congrArg BlockId.num hid
      omega
    have hbr : (db.forkDb.insert item).fetchBranchFrom item.id db.headBlockId = none := by
      unfold fetchBranchFrom
      rw [hfind]
      cases (db.forkDb.insert item).index.find? item.id <;> rfl
    rw [hbr] at hk
    exact hk

/-- **One call** that keeps the main branch. -/
theorem OnBranch.push (hlib : LibSound exec start) (hinv : db.Inv exec start) (hset : db.Settled)
    (hheld : db.forkDb.held = []) (hb : OnBranch exec start db h)
    (hk : db.KeepsMain exec b) : ∃ h', OnBranch exec start (after (db.pushBlock exec b)) h' := by
  unfold KeepsMain at hk
  cases hpush : db.forkDb.pushBlock b with
  | error e =>
    unfold pushBlock
    rw [hpush]
    exact ⟨h, hb⟩
  | ok r =>
    obtain ⟨newHead, f⟩ := r
    rw [hpush] at hk
    obtain ⟨hzero, hk⟩ := hk
    rw [pushBlock_linked hpush]
    obtain ⟨item, hlink, rfl, hhead⟩ := pushBlock_eq_ok hpush
    obtain ⟨item', hlink', -, hcases⟩ := pushBlock_head hb.head hpush
    obtain rfl : item = item' := Except.ok.inj (hlink.symm.trans hlink')
    have hhnum := hb.numEq
    have hfit := hb.fits hinv.fork hlink hzero
    rcases hcases with ⟨hle, rfl⟩ | ⟨hlt, rfl⟩
    · have hprev : newHead.previousId ≠ db.headBlockId :=
        hb.id ▸ newHead.previousId_ne_id newHead (le_refl _)
      rw [if_pos hprev, if_neg (Nat.not_lt.mpr (le_of_eq hhnum))]
      exact ⟨newHead, hb.insert hinv.fork hfit hle hhead⟩
    · have hnum : db.headBlockNum < newHead.num := by omega
      have hk := hk.resolve_left (by omega)
      have hwf := (link_spec hinv.fork hlink).2.1
      by_cases hprev : newHead.previousId = db.headBlockId
      · rw [if_pos hprev] at hk
        rw [if_neg (not_not.mpr hprev)]
        rcases applyInSession_cases exec (db.noting newHead) b with
          ⟨e, he⟩ | ⟨s, blocks, hacc, hok⟩
        · rw [he] at hk
          exact absurd hk (by simp [thrown?])
        · rw [hok]
          exact ⟨newHead, hb.extend hlib hinv hlink hfit hlt hhead hprev hacc⟩
      · rw [if_neg hprev] at hk
        rw [if_pos hprev, if_pos hnum]
        rcases switchForks_cases hinv hheld hpush hnum with ⟨hbr, -⟩ |
          ⟨first, second, last, hbr, hs, heq⟩
        · rw [hbr] at hk
          exact absurd hk not_false
        · rw [hbr] at hk
          obtain ⟨hdepth, hk⟩ := hk
          have hfk : Forking exec start db h newHead first second last :=
            ⟨hinv, hset, hb, hwf, hfit, hlt, hs, hdepth⟩
          rw [heq, after_release]
          obtain ⟨h', hb'⟩ := hfk.after hlib hlink hk
          exact ⟨h', hb'.hold⟩

theorem items_init : ForkDatabase.init.items = ∅ := by
  ext x
  simp [ForkDatabase.items, ForkDatabase.contains, ForkDatabase.init]

theorem onMain_opened (hlib : LibSound exec start) {blockLog : List Block}
    (hlog : LogNumbered blockLog) (hopen : openOn start blockLog = some db) :
    OnMain exec start db := by
  have hset := openOn_settled hlib hlog hopen
  unfold openOn at hopen
  simp only at hopen
  split at hopen
  · next hzero =>
    cases hopen
    exact Or.inl ⟨rfl, items_init, hzero⟩
  · split at hopen
    · cases hopen
    · next b hb =>
      split at hopen
      · next hid =>
        cases hopen
        right
        have hmem : b ∈ blockLog := mem_of_find?_eq_some hb
        have hitems : (init.startBlock b).items = {.unlinked 0 b} := by
          have hnew : (init.insert (.unlinked 0 b)).items =
              Insert.insert (.unlinked 0 b) init.items :=
            items_insert_new rfl
          rw [items_init, insert_empty_eq] at hnew
          exact hnew
        refine ⟨_, onBranch_single (k := 0) hitems hset ?_ (Nat.zero_le _) (by simp) rfl hid⟩
        exact le_trans (blockNum_le_logHeadNum hlog hmem) (Nat.le_succ _)
      · cases hopen

/-- **Every run** whose calls do. -/
theorem mainRun_onMain (hlib : LibSound exec start) (hrun : MainRun exec start db) :
    OnMain exec start db := by
  induction hrun with
  | opened hlog hopen => exact onMain_opened hlib hlog hopen
  | @push db b hrun hk ih =>
    have hreach := hrun.reachable
    have hinv := reachable_inv hreach
    rcases ih with ⟨hnone, hempty, hzero⟩ | ⟨h, hb⟩
    · exact onMain_first hlib hinv hnone hempty hzero hk
    · exact Or.inr (hb.push hlib hinv (reachable_settled hlib hreach) (reachable_held hreach) hk)

/-- In every state of a run whose calls all keep the main branch,
`fetch_block_on_main_branch_by_number( n )` returns nothing or the fork head or one of
its ancestors by `prev` links, and nothing for a number above the fork head. -/
theorem mainRun_fetch (hlib : LibSound exec start) (hrun : MainRun exec start db) (n : Nat) :
    match db.forkDb.head with
    | none => db.forkDb.fetchBlockOnMainBranchByNumber n = none
    | some h =>
      if n ≤ h.num then
        db.forkDb.fetchBlockOnMainBranchByNumber n = none ∨
          ∃ x ∈ h.ancestors, db.forkDb.fetchBlockOnMainBranchByNumber n = some x
      else db.forkDb.fetchBlockOnMainBranchByNumber n = none := by
  have hf := (reachable_inv hrun.reachable).fork
  rcases mainRun_onMain hlib hrun with ⟨hnone, hempty, -⟩ | ⟨h, hb⟩
  · rw [hnone]
    have hnil : db.forkDb.fetchBlockByNumber n = [] := by
      rw [eq_nil_iff_forall_not_mem]
      intro x hx
      have hx' := ((mem_fetchBlockByNumber hf).mp hx).1
      rw [hempty] at hx'
      exact hx'
    unfold fetchBlockOnMainBranchByNumber
    rw [hnil]
  · rw [hb.head]
    simp only
    cases hfetch : db.forkDb.fetchBlockOnMainBranchByNumber n with
    | none => simp
    | some x =>
      obtain ⟨hle, hx⟩ := fetch_mem hf hb.head hb.main hfetch
      rw [if_pos hle]
      exact Or.inr ⟨x, hx, rfl⟩

/-- Block 1 and two blocks 2 on it. A block 3 on the second of these is switched to, and a
branch on the first one fails at its block 4, so that the switch is taken back. -/
def switchedBlocks : List Block :=
  let one : Block := ⟨.zero, 1⟩
  let two : Block := ⟨one.id, 2⟩
  let three : Block := ⟨(⟨one.id, 1⟩ : Block).id, 4⟩
  [one, ⟨one.id, 1⟩, two, ⟨two.id, 3⟩, three, ⟨three.id, 10⟩]

theorem mainRun_fetch_switched :
    MainRun sampleExec sampleGenesis (sampleOpened.feed sampleExec switchedBlocks) ∧
      ∃ h, (sampleOpened.feed sampleExec switchedBlocks).forkDb.head = some h ∧ h.num = 3 ∧
        ∀ n ∈ [1, 2, 3], ∃ x ∈ h.ancestors, (sampleOpened.feed sampleExec
          switchedBlocks).forkDb.fetchBlockOnMainBranchByNumber n = some x := by
  have hopened : MainRun sampleExec sampleGenesis sampleOpened :=
    .opened (show LogNumbered [] from rfl) rfl
  have hrun : MainRun sampleExec sampleGenesis (sampleOpened.feed sampleExec switchedBlocks) :=
    hopened.feed (by decide +kernel)
  obtain ⟨h, hh, hnum⟩ : ∃ h, (sampleOpened.feed sampleExec switchedBlocks).forkDb.head = some h ∧
    h.num = 3 := by decide +kernel
  have hfound : ∀ n ∈ [1, 2, 3], n ≤ 3 ∧ (sampleOpened.feed sampleExec
      switchedBlocks).forkDb.fetchBlockOnMainBranchByNumber n ≠ none := by decide +kernel
  generalize sampleOpened.feed sampleExec switchedBlocks = db at *
  refine ⟨hrun, h, hh, hnum, fun n hn => ?_⟩
  obtain ⟨hle, hsome⟩ := hfound n hn
  have hfetch := mainRun_fetch sampleExec_libSound hrun n
  rw [hh] at hfetch
  simp only [hnum, if_pos hle] at hfetch
  exact hfetch.resolve_left hsome

/-- Blocks 1 and 2, another block 2, a block 3 on the first of these that is rejected,
and the first block 2 again. -/
def repeatedBlock : List Block :=
  let one : Block := ⟨.zero, 1⟩
  let two : Block := ⟨one.id, 1⟩
  [one, two, ⟨one.id, 2⟩, ⟨two.id, 10⟩, two]

/-- The repeated block is taken for an extension of the head, rejected and removed. Now
the other block 2 is alone at its height and taken for a block of the main branch. -/
theorem fetch_removed_main :
    Reachable sampleExec sampleGenesis (sampleOpened.feed sampleExec repeatedBlock) ∧
      ∃ h x, (sampleOpened.feed sampleExec repeatedBlock).forkDb.head = some h ∧
        (sampleOpened.feed sampleExec repeatedBlock).forkDb.fetchBlockOnMainBranchByNumber 2 =
          some x ∧
        2 ≤ h.num ∧ x ∉ h.ancestors ∧
        (sampleOpened.feed sampleExec repeatedBlock).headBlockNum = 2 ∧
        x.id ≠ (sampleOpened.feed sampleExec repeatedBlock).headBlockId := by
  let one : ForkItem := .unlinked 0 ⟨.zero, 1⟩
  let two : ForkItem := .linked 1 ⟨one.id, 1⟩ one
  refine ⟨reachable_feed sampleOpened_reachable, .linked 3 ⟨two.id, 10⟩ two,
    .linked 2 ⟨one.id, 2⟩ one, ?_⟩
  decide +kernel

end Database

end DeltaChain.Fork

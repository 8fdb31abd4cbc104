import DeltaChain.Fork.Invariant

/-!
# Every call is a sequence of moves

Whatever path `push_block` or `pop_block` takes through its loops and
exceptions, the chain state only ever moves in two ways: a block is undone, or a
block is accepted on top. `pushBlock_moves` and `popBlock_moves` say so, and what
every move keeps then holds across every call and in every reachable state:

* `reachable_inv` — the state is the one its branch prescribes;
* `reachable_settled` — nothing irreversible can be undone;
* `Moves.rooted` — the block at a height below the undo history never changes;
* `irreversible_final` — irreversible blocks are final.
-/

namespace DeltaChain.Fork

open Chainbase List ForkDatabase

namespace Database

variable {ρ : Type} {exec : Exec ρ} {start : ChainState ρ} {db db' : Database ρ}
  {u : UndoStack (ChainState ρ)} {n : Nat} {target : BlockId} {c : BlockId} {items : List ForkItem}
  {blockLog : List Block} {newHead : ForkItem} {f : ForkDatabase} {b : Block} {e : Error} {α : Type}

/-- A change of the fork database, a block undone or a block accepted. -/
inductive Move (exec : Exec ρ) : Database ρ → Database ρ → Prop
  | fork {db : Database ρ} {f : ForkDatabase} : f.WF → Move exec db { db with forkDb := f }
  | undo {db : Database ρ} : Move exec db { db with chain := db.chain.undo }
  | apply {db : Database ρ} {b : Block} {s : ChainState ρ} {blocks : List ForkItem} :
      Accepts exec db b s blocks → Move exec db (db.applied s blocks)

/-- Moves to a database with a well-formed fork database. -/
def Moves (exec : Exec ρ) (db db' : Database ρ) : Prop :=
  Relation.ReflTransGen (Move exec) db db' ∧ db'.forkDb.WF

theorem Moves.refl (hf : db.forkDb.WF) : Moves exec db db := ⟨.refl, hf⟩

theorem Moves.trans {db'' : Database ρ} (h : Moves exec db db') (h' : Moves exec db' db'') :
    Moves exec db db'' :=
  ⟨h.1.trans h'.1, h'.2⟩

theorem Moves.fork (hf : f.WF) : Moves exec db { db with forkDb := f } :=
  ⟨.single (.fork hf), hf⟩

theorem popBlock_moves (hf : db.forkDb.WF) : Moves exec db (after db.popBlock) := by
  unfold popBlock
  split
  · exact .refl hf
  · cases hpop : db.forkDb.popBlock with
    | error e => exact .refl hf
    | ok f =>
      have hwf : f.WF := by
        unfold ForkDatabase.popBlock at hpop
        split at hpop
        · cases hpop
        · next h hh =>
          split at hpop
          · cases hpop
          · next p hp =>
            cases hpop
            obtain ⟨hprev, -⟩ := Option.filter_eq_some_iff.mp hp
            exact hf.setHead ((hf.head hh).of_prev hprev).2
      exact ⟨(Relation.ReflTransGen.single (.fork hwf)).tail .undo, hwf⟩

theorem popTo_moves :
    ∀ {h : ForkItem} {db : Database ρ}, db.forkDb.WF →
      Moves exec db (after (popTo target h db))
  | h, db, hf => by
    have hpop : Moves exec db (after db.popBlock) := popBlock_moves hf
    cases h with
    | unlinked ref data =>
      rw [popTo]
      split
      · exact .refl hf
      · cases hr : db.popBlock with
        | error e s => rw [hr] at hpop; exact hpop
        | ok _ s => rw [hr] at hpop; exact hpop
    | linked ref data prev =>
      rw [popTo]
      split
      · exact .refl hf
      · cases hr : db.popBlock with
        | error e s => rw [hr] at hpop; exact hpop
        | ok _ s =>
          rw [hr] at hpop
          exact hpop.trans (popTo_moves hpop.2)

theorem popLoop_moves (target : BlockId) (hf : db.forkDb.WF) :
    Moves exec db (after (db.popLoop target)) := by
  unfold popLoop
  split
  · exact popTo_moves hf
  · split
    · exact .refl hf
    · exact popBlock_moves hf

theorem Pushes.moves (h : Pushes exec db items db') (hf : db.forkDb.WF) : Moves exec db db' := by
  induction h with
  | nil => exact .refl hf
  | @cons db db' x xs s blocks hx hacc _ ih =>
    have hwf := hf.setHead hx
    have hstep : Moves exec db ((db.setForkHead x).applied s blocks) :=
      ⟨(Relation.ReflTransGen.single (.fork hwf)).tail (.apply hacc), hwf.setMaxSize _⟩
    exact hstep.trans (ih hstep.2)

theorem pushItems_moves (hf : db.forkDb.WF)
    (hitems : ∀ x ∈ items, x.WF) : Moves exec db (db.pushItems exec items).1 := by
  rcases pushItems_spec exec items db hitems with ⟨db', heq, hpush⟩ | ⟨done, x, rest, mid, e, rfl,
    hpush, -, heq⟩
  · rw [heq]
    exact hpush.moves hf
  · rw [heq]
    have hdone := hpush.moves hf
    exact hdone.trans (.fork (hdone.2.setHead (hitems x (by simp))))

theorem removeItems_wf (items : List ForkItem) :
    ∀ {f : ForkDatabase}, f.WF → (items.foldl (fun f x => f.remove x.id) f).WF := by
  induction items with
  | nil => exact fun hf => hf
  | cons x xs ih => exact fun hf => ih (hf.remove x.id)

theorem restoreBranch_moves {second invalid : List ForkItem}
    (hf : db.forkDb.WF) (hsecond : ∀ x ∈ second, x.WF) :
    Moves exec db (after (db.restoreBranch exec target second invalid e)) := by
  have hremove : Moves exec db (db.removeItems invalid) := .fork (removeItems_wf invalid hf)
  have hpop := hremove.trans (popLoop_moves target hremove.2)
  unfold restoreBranch
  cases hr : (db.removeItems invalid).popLoop target with
  | error e' s => rw [hr] at hpop; exact hpop
  | ok _ s =>
    rw [hr] at hpop
    have hpush : Moves exec s (s.pushItems exec second.reverse).1 :=
      pushItems_moves hpop.2 fun x hx => hsecond x (mem_reverse.mp hx)
    simp only
    split
    · next s' heq => rw [heq] at hpush; exact hpop.trans hpush
    · next s' e' l heq => rw [heq] at hpush; exact hpop.trans hpush

theorem switchTo_moves {first second : List ForkItem} (hf : db.forkDb.WF)
    (hfirst : ∀ x ∈ first, x.WF) (hsecond : ∀ x ∈ second, x.WF) :
    Moves exec db (after (db.switchTo exec target first second)) := by
  have hpop : Moves exec db (after (db.popLoop target)) := popLoop_moves target hf
  unfold switchTo
  cases hr : db.popLoop target with
  | error e s => rw [hr] at hpop; exact hpop
  | ok _ s =>
    rw [hr] at hpop
    have hpush : Moves exec s (s.pushItems exec first.reverse).1 :=
      pushItems_moves hpop.2 fun x hx => hfirst x (mem_reverse.mp hx)
    simp only
    split
    · next s' heq => rw [heq] at hpush; exact hpop.trans hpush
    · next s' e invalid heq =>
      rw [heq] at hpush
      exact (hpop.trans hpush).trans (restoreBranch_moves hpush.2 hsecond)

theorem after_release (r : Result ρ α) : after (release r) = (after r).hold [] := by
  cases r <;> rfl

theorem switchForks_moves (hf : db.forkDb.WF) :
    Moves exec db (after (db.switchForks exec newHead)) := by
  unfold switchForks
  split
  · exact .refl hf
  · next first second hbranch =>
    split
    · exact .refl hf
    · next last hlast =>
      obtain ⟨⟨x, hx, hbx⟩, ⟨y, hy, hby⟩, -, -⟩ := fetchBranchFrom_spec hf hbranch
      have hfirst := hbx.wf (hf.index hx).2
      have hsecond := hby.wf (hf.index hy).2
      have hhold : Moves exec db (db.hold (first ++ second)) := .fork (hf.hold (by
        intro x hx
        rcases mem_append.mp hx with hx | hx
        · exact hfirst x hx
        · exact hsecond x hx))
      have hswitch : Moves exec db
          (after ((db.hold (first ++ second)).switchTo exec last.previousId first second)) :=
        hhold.trans (switchTo_moves hhold.2 hfirst hsecond)
      rw [after_release]
      exact hswitch.trans (.fork (hswitch.2.hold (by simp)))

/-- The database with a new item in its fork database. -/
abbrev noting (db : Database ρ) (item : ForkItem) : Database ρ :=
  { db with forkDb := db.forkDb.insert item }

/-- `push_block` for a block that the fork database lets in. -/
theorem pushBlock_linked (hpush : db.forkDb.pushBlock b = .ok (newHead, f)) :
    db.pushBlock exec b =
      if newHead.previousId ≠ db.headBlockId then
        if newHead.num > db.headBlockNum then { db with forkDb := f }.switchForks exec newHead
        else .ok false { db with forkDb := f }
      else match { db with forkDb := f }.applyInSession exec b with
        | .ok _ s => .ok false s
        | .error e s => .error e { s with forkDb := s.forkDb.remove b.id } := by
  unfold pushBlock
  rw [hpush]
  rfl

/-- Whatever path `push_block` takes, it is a sequence of moves. -/
theorem pushBlock_moves (hf : db.forkDb.WF) (b : Block) :
    Moves exec db (after (db.pushBlock exec b)) := by
  unfold pushBlock
  split
  · exact .refl hf
  · next newHead f hpush =>
    obtain ⟨item, hlink, rfl, -⟩ := pushBlock_eq_ok hpush
    have hwf := hf.insert hlink
    have hins : Moves exec db (db.noting item) := .fork hwf
    simp only
    split
    · split
      · exact hins.trans (switchForks_moves hwf)
      · exact hins
    · rcases applyInSession_cases exec (db.noting item) b with
        ⟨e, he⟩ | ⟨s, blocks, hacc, hok⟩
      · rw [he]
        exact hins.trans (.fork (hwf.remove b.id))
      · rw [hok]
        exact hins.trans ⟨.single (.apply hacc), hwf.setMaxSize _⟩

-- # Reachable states

/-- The block log holds the blocks 1, 2, … in this order, as `append` makes sure. -/
def LogNumbered (blockLog : List Block) : Prop :=
  blockLog.map Block.blockNum = List.range' 1 blockLog.length

/-- The states that `open` on the chain state `start` and any sequence of calls of
`push_block` and `pop_block`, returning or throwing, lead to. -/
inductive Reachable (exec : Exec ρ) (start : ChainState ρ) : Database ρ → Prop
  | opened {blockLog : List Block} {db : Database ρ} : LogNumbered blockLog →
      openOn start blockLog = some db → Reachable exec start db
  | push {db : Database ρ} (b : Block) : Reachable exec start db →
      Reachable exec start (after (db.pushBlock exec b))
  | pop {db : Database ρ} : Reachable exec start db → Reachable exec start (after db.popBlock)

theorem Move.inv (h : Move exec db db') (hinv : db.Inv exec start) : db'.Inv exec start := by
  cases h with
  | fork hwf => exact ⟨hwf, hinv.history⟩
  | undo => exact ⟨hinv.fork, history_undo hinv.history⟩
  | apply hacc => exact hinv.applied hacc

theorem Moves.keeps {J : Database ρ → Prop}
    (hstep : ∀ {db db' : Database ρ}, db.Inv exec start → J db → Move exec db db' → J db')
    (h : Moves exec db db') (hinv : db.Inv exec start) (hJ : J db) :
    db'.Inv exec start ∧ J db' := by
  obtain ⟨h, -⟩ := h
  induction h with
  | refl => exact ⟨hinv, hJ⟩
  | tail _ hmove ih => exact ⟨hmove.inv ih.1, hstep ih.1 ih.2 hmove⟩

theorem Moves.inv (h : Moves exec db db') (hinv : db.Inv exec start) : db'.Inv exec start :=
  (h.keeps (J := fun _ => True) (fun _ _ _ => trivial) hinv trivial).1

theorem Moves.settled (hlib : LibSound exec start) (h : Moves exec db db')
    (hinv : db.Inv exec start) (hset : db.Settled) : db'.Settled := by
  refine (h.keeps (fun {d d'} hd hsd hmove => ?_) hinv hset).2
  cases hmove with
  | fork => exact ⟨hsd.committed, hsd.logged⟩
  | undo => exact settled_undo hlib hd.history hsd d.forkDb
  | apply hacc => exact Settled.applied hlib hd hacc

theorem openOn_inv (exec : Exec ρ) (h : openOn start blockLog = some db) :
    db.Inv exec start ∧ db.forkDb.held = [] := by
  have hempty : init.WF :=
    ⟨fun h => absurd h (by simp [init]), fun h => absurd h (by simp [init]),
      fun h => absurd h (by simp [init]), fun h => absurd h (by simp [init])⟩
  unfold openOn at h
  simp only at h
  split at h
  · cases h
    exact ⟨⟨hempty, history_init start⟩, rfl⟩
  · split at h
    · cases h
    · next b hb =>
      split at h
      · cases h
        have hins : (init.insert (.unlinked 0 b)).WF := hempty.insert (b := b) rfl
        exact ⟨⟨hins, history_init start⟩, rfl⟩
      · cases h

theorem blockNum_le_logHeadNum (hlog : LogNumbered db.blockLog)
    (hb : b ∈ db.blockLog) : b.blockNum ≤ db.logHeadNum := by
  unfold LogNumbered at hlog
  have hle : b.blockNum ≤ db.blockLog.length := by
    have hmem : b.blockNum ∈ range' 1 db.blockLog.length := by
      rw [← hlog]
      exact mem_map_of_mem hb
    rw [mem_range'_1] at hmem
    omega
  have hlen : db.logHeadNum = db.blockLog.length := by
    unfold logHeadNum
    rcases eq_nil_or_concat db.blockLog with heq | ⟨init, x, heq⟩
    · rw [heq] at hb
      cases hb
    · rw [concat_eq_append] at heq
      rw [heq, getLast?_append]
      rw [heq, length_append, length_singleton, range'_1_concat,
        map_append] at hlog
      have hx : x.blockNum = 1 + init.length := by
        have := append_inj_right' hlog rfl
        simpa using this
      show x.blockNum = _
      rw [hx, length_append, length_singleton]
      omega
  omega

theorem openOn_settled (hlib : LibSound exec start)
    (hlog : LogNumbered blockLog) (h : openOn start blockLog = some db) : db.Settled := by
  have hstart := hlib.start_le
  unfold openOn at h
  simp only at h
  split at h
  · next hzero =>
    cases h
    refine ⟨?_, ?_⟩
    · show start.lastIrreversibleBlockNum + 0 ≤ start.headBlockNum
      omega
    · show start.lastIrreversibleBlockNum ≤ _
      omega
  · split at h
    · cases h
    · next b hb =>
      split at h
      · cases h
        refine ⟨?_, ?_⟩
        · show start.lastIrreversibleBlockNum + 0 ≤ start.headBlockNum
          omega
        · have hmem : b ∈ blockLog := mem_of_find?_eq_some hb
          have hnum : b.blockNum = start.headBlockNum := by
            simpa using find?_some hb
          show start.lastIrreversibleBlockNum ≤ _
          refine le_trans (le_trans hstart (le_of_eq hnum.symm)) ?_
          exact blockNum_le_logHeadNum hlog hmem
      · cases h

theorem reachable_inv (h : Reachable exec start db) : db.Inv exec start := by
  induction h with
  | opened _ hopen => exact (openOn_inv exec hopen).1
  | push b _ ih => exact (pushBlock_moves ih.fork b).inv ih
  | pop _ ih => exact (popBlock_moves ih.fork).inv ih

theorem reachable_settled (hlib : LibSound exec start) (h : Reachable exec start db) :
    db.Settled := by
  induction h with
  | opened hlog hopen => exact openOn_settled hlib hlog hopen
  | push b hr ih =>
    exact (pushBlock_moves (reachable_inv hr).fork b).settled hlib (reachable_inv hr) ih
  | pop hr ih => exact (popBlock_moves (reachable_inv hr).fork).settled hlib (reachable_inv hr) ih

theorem popBlock_held : (after db.popBlock).forkDb.held = db.forkDb.held := by
  unfold popBlock
  split
  · rfl
  · cases hpop : db.forkDb.popBlock with
    | error e => rfl
    | ok f =>
      unfold ForkDatabase.popBlock at hpop
      split at hpop
      · cases hpop
      · split at hpop
        · cases hpop
        · cases hpop
          rfl

theorem pushBlock_held (b : Block) (hheld : db.forkDb.held = []) :
    (after (db.pushBlock exec b)).forkDb.held = [] := by
  unfold pushBlock
  split
  · exact hheld
  · next newHead f hpush =>
    obtain ⟨item, -, rfl, -⟩ := pushBlock_eq_ok hpush
    simp only
    split
    · split
      · unfold switchForks
        split
        · exact hheld
        · split
          · exact hheld
          · rw [after_release]
            rfl
      · exact hheld
    · rcases applyInSession_cases exec (db.noting item) b with
        ⟨e, he⟩ | ⟨s, blocks, -, hok⟩
      · rw [he]
        exact hheld
      · rw [hok]
        exact (held_setMaxSize _).trans hheld

theorem reachable_held (h : Reachable exec start db) : db.forkDb.held = [] := by
  induction h with
  | opened _ hopen =>
    exact (openOn_inv exec hopen).2
  | push b _ ih => exact pushBlock_held b ih
  | pop _ ih => exact popBlock_held.trans ih

-- # Below the undo history nothing changes

/-- Every state of the history has the block `c` at height `n`. -/
def Rooted (n : Nat) (c : BlockId) (u : UndoStack (ChainState ρ)) : Prop :=
  ∀ s, s = u.cur ∨ s ∈ u.saved.map Prod.snd → n ≤ s.headBlockNum ∧ s.headBlockId.atNum n = c

theorem rooted_undo (h : Rooted n c u) : Rooted n c u.undo := by
  intro s hs
  apply h
  unfold UndoStack.undo at hs
  split at hs
  · exact hs
  · next r c' rest hsaved =>
    right
    rw [hsaved, map_cons, mem_cons]
    exact hs

theorem rooted_commit (r : Int) (h : Rooted n c u) : Rooted n c (u.commit r) := by
  intro s hs
  apply h
  rcases hs with hs | hs
  · exact Or.inl hs
  · refine Or.inr ?_
    obtain ⟨e, he, rfl⟩ := mem_map.mp hs
    refine mem_map_of_mem ?_
    have hsplit : (u.saved.rdropWhile fun e => decide (e.1 ≤ r)) ++
        (u.saved.rtakeWhile fun e => decide (e.1 ≤ r)) = u.saved :=
      rdropWhile_append_rtakeWhile
    rw [← hsplit]
    exact mem_append_left _ he

theorem rooted_apply {s : ChainState ρ} (h : Rooted n c u)
    (hexec : execBlock exec u.cur b = some s) : Rooted n c (u.startUndoSession.set s) := by
  have hold : ∀ s', s' = u.cur ∨ s' ∈ u.saved.map Prod.snd →
      n ≤ s'.headBlockNum ∧ s'.headBlockId.atNum n = c := h
  intro s' hs'
  rcases hs' with hs' | hs'
  · obtain rfl : s' = s := hs'
    obtain ⟨hle, hat⟩ := h u.cur (Or.inl rfl)
    obtain ⟨hprev, hhead⟩ := execBlock_eq_some hexec
    have hnum := execBlock_num hexec
    refine ⟨?_, ?_⟩
    · omega
    · rw [hhead, Block.id, BlockId.atNum_ofBlock, ← hprev]
      · exact hat
      · rw [← hprev]
        exact hle
  · have hmem : s' ∈ u.cur :: u.saved.map Prod.snd := hs'
    exact hold s' (mem_cons.mp hmem)

theorem Moves.rooted (h : Moves exec db db') (hinv : db.Inv exec start)
    (hroot : Rooted n c db.chain) : Rooted n c db'.chain := by
  refine (h.keeps (J := fun d => Rooted n c d.chain) (fun {d d'} _ hd hmove => ?_) hinv hroot).2
  cases hmove with
  | fork => exact hd
  | undo => exact rooted_undo hd
  | apply hacc => exact rooted_commit _ (rooted_apply hd hacc.exec)

/-- All states of a history agree on the blocks at or below its oldest state. -/
theorem rooted_of_descends :
    ∀ {s : ChainState ρ} {saved : List (Int × ChainState ρ)}, Descends exec start s saved →
      n + saved.length ≤ s.headBlockNum →
      ∀ s' ∈ saved.map Prod.snd, n ≤ s'.headBlockNum ∧
        s'.headBlockId.atNum n = s.headBlockId.atNum n
  | _, [], _, _, s', hs' => absurd hs' (by simp)
  | s, (r, c) :: rest, h, hn, s', hs' => by
    obtain ⟨⟨b, hexec⟩, -, -, hrest⟩ := h
    have hnum := execBlock_num hexec
    obtain ⟨hprev, hhead⟩ := execBlock_eq_some hexec
    rw [length_cons] at hn
    have hn' : n + rest.length ≤ c.headBlockNum := by omega
    have hc : n ≤ c.headBlockNum := by omega
    have hat : c.headBlockId.atNum n = s.headBlockId.atNum n := by
      rw [hhead, Block.id, BlockId.atNum_ofBlock, ← hprev]
      rw [← hprev]
      exact hc
    rcases mem_cons.mp hs' with rfl | hs'
    · exact ⟨hc, hat⟩
    · obtain ⟨hle, heq⟩ := rooted_of_descends hrest hn' s' hs'
      exact ⟨hle, heq.trans hat⟩

theorem rooted_self (hist : History exec start db.chain)
    (hn : n + depth db.chain ≤ db.headBlockNum) : Rooted n (db.headBlockId.atNum n) db.chain := by
  rintro s (rfl | hs)
  · exact ⟨le_trans (Nat.le_add_right ..) hn, rfl⟩
  · exact rooted_of_descends hist.saved hn s hs

/-- A call of `push_block`, or of `pop_block` where there is no block. -/
def call (exec : Exec ρ) (db : Database ρ) : Option Block → Database ρ
  | some b => after (db.pushBlock exec b)
  | none => after db.popBlock

theorem calls_moves (calls : List (Option Block)) (hinv : db.Inv exec start) :
    Moves exec db (calls.foldl (call exec) db) := by
  induction calls generalizing db with
  | nil => exact .refl hinv.fork
  | cons c calls ih =>
    have hcall : Moves exec db (call exec db c) := by
      cases c with
      | none => exact popBlock_moves hinv.fork
      | some b => exact pushBlock_moves hinv.fork b
    exact hcall.trans (ih (hcall.inv hinv))

/-- **Irreversible blocks are final.** Whatever calls follow, returning or throwing, the chain keeps
the block at every number up to the last irreversible one. -/
theorem irreversible_final (hlib : LibSound exec start) (hreach : Reachable exec start db)
    (hn : n ≤ db.lib) (calls : List (Option Block)) :
    n ≤ (calls.foldl (call exec) db).headBlockNum ∧
      (calls.foldl (call exec) db).headBlockId.atNum n = db.headBlockId.atNum n := by
  have hinv := reachable_inv hreach
  have hcommitted := (reachable_settled hlib hreach).committed
  have hroot := rooted_self hinv.history (show n + depth db.chain ≤ _ by omega)
  exact (calls_moves calls hinv).rooted hinv hroot _ (Or.inl rfl)

-- # A small chain

/-- Enough for the sound behaviour along branches: an invariant of the states and what
one block does to the last irreversible block number. -/
theorem libSound_of_inv {J : ChainState ρ → Prop} (hJ : J start)
    (hstart : start.lastIrreversibleBlockNum ≤ start.headBlockNum)
    (hstep : ∀ {s s' : ChainState ρ} {b : Block}, J s → execBlock exec s b = some s' →
      J s' ∧ s.lastIrreversibleBlockNum ≤ s'.lastIrreversibleBlockNum ∧
        s'.lastIrreversibleBlockNum ≤ s'.headBlockNum) : LibSound exec start := by
  have hinv : ∀ (id : BlockId) {s : ChainState ρ}, stateAt exec start id = some s → J s := by
    intro id
    induction id with
    | zero | unknown num tag =>
      intro s hs
      rw [stateAt] at hs
      split at hs
      · cases hs
        exact hJ
      · cases hs
    | ofBlock p t ih =>
      intro s hs
      rw [stateAt] at hs
      split at hs
      · cases hs
        exact hJ
      · obtain ⟨s₁, hs₁, hexec⟩ := Option.bind_eq_some_iff.mp hs
        exact (hstep (ih hs₁) hexec).1
  exact ⟨hstart, fun hs hexec => (hstep (hinv _ hs) hexec).2⟩

/-- A chain to try things on. A block whose payload ends in 0 is rejected, and the
payload without its last digit is the block number it makes irreversible. -/
def sampleExec : Exec (List Nat) := fun s b =>
  if b.payload % 10 = 0 then none
  else some (max s.lastIrreversibleBlockNum (min (b.payload / 10) b.blockNum),
    b.payload :: s.rest)

/-- The state before the first block. -/
def sampleGenesis : ChainState (List Nat) := ⟨.zero, 0, []⟩

theorem sampleExec_libSound : LibSound sampleExec sampleGenesis := by
  refine libSound_of_inv (J := fun s => s.lastIrreversibleBlockNum ≤ s.headBlockNum) (le_refl _)
    (le_refl _) fun {s s' b} hle h => ?_
  have hnum := execBlock_num h
  unfold execBlock sampleExec at h
  split at h
  · next hprev =>
    split at h
    · cases h
    · cases h
      have hb : b.blockNum = s.headBlockNum + 1 := hnum
      have hle' : max s.lastIrreversibleBlockNum (min (b.payload / 10) b.blockNum) ≤ b.blockNum := by
        omega
      exact ⟨hle', le_max_left _ _, hle'⟩
  · cases h

/-- The block database as `open` leaves it before the first block. -/
def sampleOpened : Database (List Nat) :=
  { forkDb := ForkDatabase.init, chain := UndoStack.init sampleGenesis 0, blockLog := [] }

theorem sampleOpened_reachable : Reachable sampleExec sampleGenesis sampleOpened :=
  .opened (show LogNumbered [] from rfl) rfl

/-- The database after `push_block` for every block, returning or throwing. -/
def feed (exec : Exec ρ) (db : Database ρ) (blocks : List Block) : Database ρ :=
  blocks.foldl (fun db b => after (db.pushBlock exec b)) db

theorem reachable_feed {blocks : List Block} (h : Reachable exec start db) :
    Reachable exec start (db.feed exec blocks) := by
  induction blocks generalizing db with
  | nil => exact h
  | cons b bs ih => exact ih (.push b h)

/-- Block 1 stays, though it is popped and another block 1 comes. -/
theorem irreversible_final_sample :
    ([none, some ⟨.zero, 2⟩].foldl (call sampleExec)
      (sampleOpened.feed sampleExec [⟨.zero, 11⟩])).headBlockId.atNum 1 = .ofBlock .zero 11 :=
  (irreversible_final sampleExec_libSound (reachable_feed sampleOpened_reachable) (by decide) _).2

/-- What was thrown, if anything. -/
def thrown? {α : Type} : Result ρ α → Option Error
  | .ok _ _ => none
  | .error e _ => some e

theorem eq_error_of_thrown? {r : Result ρ α} (h : thrown? r = some e) : r = .error e (after r) := by
  cases r with
  | ok a s => exact absurd h (by simp [thrown?])
  | error e' s =>
    cases h
    rfl

end Database

end DeltaChain.Fork

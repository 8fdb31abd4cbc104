import DeltaChain.Voting.Retally

/-!
# Whom a change of shares reaches

A change of the shares of an account reaches the witnesses that the last account of its chain of
proxies votes for, if the chain is short enough (`Polls.reaches`). It adds to their votes and to
those of nobody else (`adjustProxiedWitnessVotes1_votes`), and it is refused exactly if one of them
would have more votes than there are shares (`adjustProxiedWitnessVotes1_isOk_iff`).
-/

namespace DeltaChain.Voting

variable {N : Type} [DecidableEq N] {D : ℕ}

/-- The shares of `c` count for `w`, over at most `levels` proxies. -/
def Polls.reaches (p : Polls N D) (w : N) : ℕ → N → Bool
  | levels, c =>
    match p.proxy c with
    | none => (c, w) ∈ p.ballots
    | some q =>
      match levels with
      | 0 => false
      | l + 1 => p.reaches w l q

variable {p : Polls N D} {w c q : N} {levels : ℕ}

theorem Polls.reaches_none (hc : p.proxy c = none) :
    p.reaches w levels c = decide ((c, w) ∈ p.ballots) := by
  unfold reaches
  rw [hc]

theorem Polls.reaches_zero (hc : p.proxy c = some q) : p.reaches w 0 c = false := by
  unfold reaches
  rw [hc]

theorem Polls.reaches_succ (hc : p.proxy c = some q) :
    p.reaches w (levels + 1) c = p.reaches w levels q := by
  rw [reaches, hc]

theorem Polls.reaches_congr {p' : Polls N D} (hproxy : p'.proxy = p.proxy)
    (hballots : p'.ballots = p.ballots) (levels : ℕ) (c : N) :
    p'.reaches w levels c = p.reaches w levels c := by
  induction levels generalizing c with
  | zero =>
    rw [reaches, reaches, hproxy, hballots]
  | succ l ih =>
    rw [reaches, reaches, hproxy, hballots]
    split
    · rfl
    · exact ih _

theorem Polls.reaches_addProxied (b : N) (delta : Fin (D + 1) → ℤ) (depth : ℕ) :
    (p.addProxied b delta depth).reaches w levels c = p.reaches w levels c := by
  apply reaches_congr
  · rfl
  · rfl

theorem Polls.reaches_addShares (b : N) (δ : ℤ) :
    (p.addShares b δ).reaches w levels c = p.reaches w levels c := by
  apply reaches_congr
  · rfl
  · rfl

end DeltaChain.Voting

namespace DeltaChain.Ledger.Database

open Lib Protocol Voting Checked Polls Function List Finset

variable {db db' : Database} {name account witness : AccountName} {a : Account} {δ : Int}

/-- The proxies are accounts, and the ballots are for witnesses. -/
structure Connected (db : Database) : Prop where
  proxy : ∀ a q, db.polls.proxy a = some q → q ∈ db.polls.voters
  witness : ∀ a w, (a, w) ∈ db.polls.ballots → w ∈ db.witnesses.keys

theorem VotesSound.connected {off : Int} (h : VotesSound off db) : Connected db :=
  ⟨fun a q hq => (h.tallied.voter a q hq).2, h.witness⟩

theorem Connected.addProxied (hc : Connected db) (h : db.accounts.find? name = some a)
    (delta : VoteDelta) (depth : Nat) :
    Connected (db.modifyAccount name fun p => p.addProxied delta depth) := by
  refine ⟨fun b q hq => ?_, fun b w hw => ?_⟩
  · rw [polls_addProxied h] at hq ⊢
    exact hc.proxy b q hq
  · exact hc.witness b w hw

-- # What is added to the votes

theorem creditLevels_single_votes (p : Polls AccountName maxProxyRecursionDepth) (levels : Nat) :
    (p.creditLevels (single δ) levels name).votes witness =
      p.votes witness + if p.reaches witness levels name then δ else 0 := by
  induction levels generalizing p name <;> cases hc : p.proxy name
  case zero.none | succ.none =>
    rw [creditLevels_none hc, reaches_none hc, sum_single]
    simp only [addVotes, decide_eq_true_eq]
  case zero.some =>
    rw [creditLevels_zero hc, reaches_zero hc, if_neg Bool.false_ne_true, add_zero]
  case succ.some l ih q =>
    rw [creditLevels_succ hc, reaches_succ hc, ih, reaches_addProxied]
    rfl

/-- **A change of shares** is added to the votes of the witnesses it reaches. -/
theorem adjustProxiedWitnessVotes1_votes (h : db.adjustProxiedWitnessVotes1 name δ = .ok db') :
    db'.polls.votes witness = db.polls.votes witness +
      if db.polls.reaches witness maxProxyRecursionDepth name then δ else 0 := by
  rw [(adjustProxiedWitnessVotes1_ok h).2, ← creditLevels_eq_credit]
  exact creditLevels_single_votes db.polls _

-- # When there is room for it

/-- In a loop over witnesses that succeeds, everybody had room. -/
theorem adjust_loop_room : ∀ (ws : List AccountName) (db db' : Database), ws.Nodup →
    ws.foldlM (fun db w => db.adjustWitnessVote w δ) db = .ok db' →
    ∀ w ∈ ws, db.polls.votes w + δ ≤ db.props.totalVestingShares := by
  intro ws
  induction ws with
  | nil => exact fun _ _ _ _ w hw => absurd hw not_mem_nil
  | cons v ws ih =>
    intro db db' hnodup h w hw
    rw [foldlM_cons, bind_eq_ok] at h
    obtain ⟨db₁, hstep, hrest⟩ := h
    obtain ⟨hpolls, hprops, -⟩ := polls_adjustWitnessVote hstep
    rw [nodup_cons] at hnodup
    rcases mem_cons.mp hw with rfl | hw
    · simp only [adjustWitnessVote, eq_ok, getWitness_eq_ok] at hstep
      obtain ⟨old, hold, hle, -⟩ := hstep
      rwa [polls_votes hold]
    · have hne : w ≠ v := fun heq => hnodup.1 (heq ▸ hw)
      have hsame : db₁.polls.votes w = db.polls.votes w := by
        rw [hpolls]
        exact update_of_ne hne ..
      have hroom := ih db₁ db' hnodup.2 hrest w hw
      rwa [hprops, hsame] at hroom

theorem adjustProxiedLevels_isOk_iff {levels : Nat} (hc : Connected db)
    (hname : name ∈ db.polls.voters)
    (hpos : ∀ w, db.polls.reaches w levels name → 0 ≤ db.polls.votes w + δ) :
    (∃ db', adjustProxiedLevels (single δ) levels db name = .ok db') ↔
      ∀ w, db.polls.reaches w levels name →
        db.polls.votes w + δ ≤ db.props.totalVestingShares := by
  induction levels generalizing db name <;> cases hproxy : db.polls.proxy name
  case zero.none | succ.none =>
    simp only [reaches_none hproxy, decide_eq_true_eq] at hpos ⊢
    rw [adjustProxiedLevels_none hname hproxy, sum_single]
    constructor
    · rintro ⟨db', h⟩ w hw
      exact adjust_loop_room _ db db' (votedFor_nodup name) h w (mem_votedFor.mpr hw)
    · intro hroom
      refine adjust_loop_succeeds δ _ db (votedFor_nodup name) fun w hw => ?_
      rw [mem_votedFor] at hw
      exact ⟨hc.witness name w hw, hpos w hw, hroom w hw⟩
  case zero.some =>
    simp only [reaches_zero hproxy]
    exact iff_of_true ⟨db, adjustProxiedLevels_zero hproxy⟩ fun w hw => absurd hw Bool.false_ne_true
  case succ.some l ih q =>
    have hq := hc.proxy name q hproxy
    obtain ⟨p, hfind⟩ := mem_voters.mp hq
    have hwritten := polls_addProxied hfind (single δ) (maxProxyRecursionDepth - (l + 1))
    simp only [reaches_succ hproxy] at hpos ⊢
    rw [adjustProxiedLevels_succ hproxy, getAccount_eq_ok.mpr hfind, ok_bind,
      ih (hc.addProxied hfind _ _) (by rw [hwritten]; exact hq) fun w hw => ?_, hwritten]
    · simp only [reaches_addProxied]
      rfl
    · rw [hwritten, reaches_addProxied] at hw
      exact hpos w hw

/-- **A change of shares is refused** exactly if a witness it reaches has no room for it. -/
theorem adjustProxiedWitnessVotes1_isOk_iff (hc : Connected db) (hname : name ∈ db.polls.voters)
    (hpos : ∀ w, db.polls.reaches w maxProxyRecursionDepth name → 0 ≤ db.polls.votes w + δ) :
    (∃ db', db.adjustProxiedWitnessVotes1 name δ = .ok db') ↔
      ∀ w, db.polls.reaches w maxProxyRecursionDepth name →
        db.polls.votes w + δ ≤ db.props.totalVestingShares := by
  rw [adjustProxiedWitnessVotes1, adjustProxiedLevels1_eq]
  exact adjustProxiedLevels_isOk_iff hc hname hpos

/-- Where votes are tallied, those that a change of shares reaches stay between nothing and all of
the shares. -/
theorem VotesSound.reached {off : Int} (h : VotesSound off db) (hname : name ∈ db.polls.voters)
    (hshares : 0 ≤ db.polls.shares name + δ)
    (hw : db.polls.reaches witness maxProxyRecursionDepth name) :
    0 ≤ db.polls.votes witness + δ ∧
      db.polls.votes witness + δ ≤ db.props.totalVestingShares + off + δ := by
  have htallied := h.tallied.gain hname δ
  have hvotes : ((db.polls.addShares name δ).credit name (single δ)).votes witness =
      db.polls.votes witness + δ := by
    rw [← creditLevels_eq_credit, creditLevels_single_votes, reaches_addShares, if_pos hw]
    rfl
  have hnonneg : ∀ a ∈ db.polls.voters,
      0 ≤ update db.polls.shares name (db.polls.shares name + δ) a := by
    intro a ha
    by_cases hax : a = name
    · rw [hax, update_self]
      exact hshares
    · rw [update_of_ne hax]
      exact h.nonneg a ha
  have hsum : ∑ a ∈ db.polls.voters,
      update db.polls.shares name (db.polls.shares name + δ) a =
        db.props.totalVestingShares + off + δ := by
    rw [sum_update_of_mem hname, ← h.total, ← add_sum_erase _ _ hname,
      sdiff_singleton_eq_erase]
    ring
  have hlow := htallied.votes_nonneg hnonneg witness
  have hhigh := htallied.votes_le hnonneg witness
  rw [hvotes] at hlow hhigh
  exact ⟨hlow, hhigh.trans_eq hsum⟩

/-- **A change of shares that was made** climbs if the witnesses have room for it. -/
theorem VotesSound.climb_iff {off : Int} {db₁ : Database} (h : VotesSound off db)
    (hname : name ∈ db.polls.voters) (hshares : 0 ≤ db.polls.shares name + δ)
    (hpolls : db₁.polls = db.polls.addShares name δ) (hwitnesses : db₁.witnesses = db.witnesses) :
    (∃ db', db₁.adjustProxiedWitnessVotes1 name δ = .ok db') ↔
      ∀ w, db.polls.reaches w maxProxyRecursionDepth name →
        db.polls.votes w + δ ≤ db₁.props.totalVestingShares := by
  have hconnected : Connected db₁ := by
    refine ⟨fun b q hq => ?_, fun b w hw => ?_⟩
    · rw [hpolls] at hq ⊢
      exact h.connected.proxy b q hq
    · rw [hpolls] at hw
      exact hwitnesses ▸ h.connected.witness b w hw
  rw [adjustProxiedWitnessVotes1_isOk_iff hconnected (by rw [hpolls]; exact hname), hpolls]
  · simp only [reaches_addShares]
    rfl
  · intro w hw
    rw [hpolls, reaches_addShares] at hw
    rw [hpolls]
    exact (h.reached hname hshares hw).1

end DeltaChain.Ledger.Database

import DeltaChain.Comments.References

/-!
# What votes count

A comment keeps what the votes on it count together: its ballot. `step_ballots` says what a step of the
chain can do to the ballot of a comment that has not been paid out, and to the votes on it: nothing, or a
first vote, or a vote that changes, or the comment is new.
-/

namespace DeltaChain.Comments

open Lib Protocol Ledger Checked List Option Table

/-- What a comment keeps of its votes. -/
structure Ballot where
  id : Nat
  cashoutTime : Nat
  netRshares : Int
  voteRshares : Int
  totalVoteWeight : Nat
  netVotes : Int

def Post.ballot (c : Post) : Ballot :=
  ⟨c.id, c.cashoutTime, c.netRshares, c.voteRshares, c.totalVoteWeight, c.netVotes⟩

def ballots (comments : Table Key Post) (k : Key) : Option Ballot := (comments.find? k).map Post.ballot

/-- A sum over the votes on a comment. -/
def State.tally (s : State) (id : Nat) (f : Vote → Int) : Int :=
  s.votes.sum fun k v => if k.1 = id then f v else 0

/-- The shares that a vote counts for, before its sign. -/
def State.voteShares (s : State) (o : VoteOperation) (c : Post) : Checked Int := do
  let voter ← s.getAccount o.voter
  let bar ← voter.votingManabar.regenerateMana
    ⟨voter.effectiveVestingShares, votingManaRegenerationSeconds⟩ s.headBlockTime
  let used ← usedMana s bar.currentMana o.weight
  return absRshares s c used

/-- What a step does to the ballot of a comment `c`, which becomes `x`, and to the votes on it. -/
inductive Counts (s : State) (e : Event) (s' : State) (c : Post) (x : Ballot) : Prop
  | same (hother : ∀ o, e = .vote o → s.comments.find? (o.author, o.permlink) ≠ some c)
      (hballot : x = c.ballot) (htally : ∀ f, s'.tally c.id f = s.tally c.id f)
  | first (o : VoteOperation) (shares : Int) (weight : Nat) (vote : Vote) (hevent : e = .vote o)
      (hkey : s.comments.find? (o.author, o.permlink) = some c)
      (hnone : s.votes.find? (c.id, o.voter) = none) (hshares : s.voteShares o c = .ok shares)
      (hrshares : vote.rshares = signedShares o shares)
      (hweight : voteWeight s c (c.voted vote.rshares shares) vote.rshares = .ok weight)
      (hdiscount : vote.weight = discounted s c weight)
      (hballot : x = { c.voted vote.rshares shares with
        totalVoteWeight := c.totalVoteWeight + weight }.ballot)
      (htally : ∀ f, s'.tally c.id f = s.tally c.id f + f vote)
  | changed (o : VoteOperation) (shares : Int) (old new : Vote) (hevent : e = .vote o)
      (hold : s.votes.find? (c.id, o.voter) = some old) (hnew : new.weight = 0)
      (hballot : x = (c.revoted old new.rshares shares).ballot)
      (htally : ∀ f, s'.tally c.id f = s.tally c.id f - f old + f new)

/-- A comment that a step has made. -/
structure Fresh (s s' : State) (x : Ballot) : Prop where
  id : x.id = s.nextCommentId
  netRshares : x.netRshares = 0
  voteRshares : x.voteRshares = 0
  totalVoteWeight : x.totalVoteWeight = 0
  netVotes : x.netVotes = 0
  tally : ∀ f, s'.tally x.id f = 0

variable {s s' : State} {b : Build} {c : Post} {t t' : Table Key Post} {x : Ballot} {e : Event}
  {k : Key}

-- # Ballots and tallies

theorem ballots_eq_some {t : Table Key Post} :
    ballots t k = some x ↔ ∃ c, t.find? k = some c ∧ c.ballot = x := map_eq_some_iff

variable {f : Post → Post}

theorem view_modify {β : Type} (view : Post → β) (t : Table Key Post) (k : Key)
    (hf : ∀ c, view (f c) = view c) (j : Key) :
    ((t.modify k f).find? j).map view = (t.find? j).map view := by
  rw [find?_modify]
  split
  · rw [Option.map_map]
    exact congrArg (Option.map · _) (funext hf)
  · rfl

theorem ballots_modify_same (t : Table Key Post) (k : Key) (hf : ∀ c, (f c).ballot = c.ballot) :
    ballots (t.modify k f) = ballots t :=
  funext fun j => view_modify Post.ballot t k hf j

theorem ballots_children (t : Table Key Post) (k : Key) (shares : Int) :
    ballots (t.modify k fun r => { r with childrenAbsRshares := r.childrenAbsRshares + shares }) =
      ballots t := ballots_modify_same t k fun _ => rfl

theorem ballots_modify_ne (t : Table Key Post) {j k : Key} (f : Post → Post) (h : j ≠ k) :
    ballots (t.modify k f) j = ballots t j := by
  rw [ballots, ballots, find?_modify_ne _ _ h]

theorem eachUpwards_ballots (hf : ∀ c, (f c).ballot = c.ballot) {fuel : Nat}
    (h : eachUpwards f fuel t k = .ok t') : ballots t' = ballots t := by
  induction fuel generalizing t k with
  | zero => cases h
  | succ fuel ih =>
    simp only [eachUpwards, bind_eq_ok, get_eq_ok] at h
    obtain ⟨c, -, h⟩ := h
    split at h
    · rw [ih h, ballots_modify_same _ _ hf]
    · rw [← pure_eq_ok.mp h, ballots_modify_same _ _ hf]

theorem eachAbove_ballots (hf : ∀ c, (f c).ballot = c.ballot)
    (h : eachAbove f t c = .ok t') : ballots t' = ballots t := by
  unfold eachAbove at h
  split at h
  · exact eachUpwards_ballots hf h
  · rw [pure_eq_ok.mp h]

theorem tally_eq_zero {id : Nat} (h : ∀ voter, s.votes.find? (id, voter) = none) (f : Vote → Int) :
    s.tally id f = 0 := by
  have hzero : ∀ e ∈ s.votes.entries, (if e.1.1 = id then f e.2 else 0) = 0 := by
    intro e he
    refine if_neg fun heq => ?_
    have hfound := mem_entries_iff.mp he
    rw [show e.1 = (id, e.1.2) from Prod.ext heq rfl, h] at hfound
    cases hfound
  exact sum_eq_zero fun x hx => by
    obtain ⟨e, he, rfl⟩ := mem_map.mp hx
    exact hzero e he

/-- Removing the votes on another comment. -/
theorem tally_filter {id removed : Nat} (hne : id ≠ removed)
    (hvotes : s'.votes = s.votes.filter fun k _ => k.1 ≠ removed) (f : Vote → Int) :
    s'.tally id f = s.tally id f := by
  rw [State.tally, State.tally, hvotes]
  show ((s.votes.entries.filter fun e => decide (e.1.1 ≠ removed)).map _).sum = (s.votes.entries.map _).sum
  induction s.votes.entries with
  | nil => rfl
  | cons e l ih =>
    rw [filter_cons]
    split
    · rw [map_cons, sum_cons, map_cons, sum_cons, ih]
    · next hremoved =>
      have hzero : (if e.1.1 = id then f e.2 else 0) = 0 := if_neg fun heq => by
        rw [heq] at hremoved
        exact hremoved (decide_eq_true hne)
      rw [ih, map_cons, sum_cons]
      show _ = (if e.1.1 = id then f e.2 else 0) + _
      rw [hzero, zero_add]

-- # Steps

/-- What a step does to the ballots of all comments that have not been paid out. -/
structure Balloting (s : State) (e : Event) (s' : State) : Prop where
  curve : s'.curationRewardCurve = s.curationRewardCurve
  fund : s'.rewardFund = s.rewardFund
  next : s.nextCommentId ≤ s'.nextCommentId
  ballots : ∀ k x, ballots s'.comments k = some x → x.cashoutTime ≠ timePointSecMaximum →
    Fresh s s' x ∨ ∃ c, s.comments.find? k = some c ∧ c.id = x.id ∧
      c.cashoutTime ≠ timePointSecMaximum ∧ Counts s e s' c x

theorem Counts.of_ballots (hballots : Comments.ballots s.comments k = some x)
    (hcashout : x.cashoutTime ≠ timePointSecMaximum)
    (hother : ∀ o c, e = .vote o → s.comments.find? (o.author, o.permlink) = some c → c.id ≠ x.id)
    (htally : ∀ f, s'.tally x.id f = s.tally x.id f) :
    ∃ c, s.comments.find? k = some c ∧ c.id = x.id ∧ c.cashoutTime ≠ timePointSecMaximum ∧
      Counts s e s' c x := by
  obtain ⟨c, hc, rfl⟩ := ballots_eq_some.mp hballots
  exact ⟨c, hc, rfl, hcashout, .same (fun o he hkey => hother o c he hkey rfl) rfl htally⟩

/-- Only the tables of comments and votes matter. -/
theorem Balloting.congr {s₁ : State} (h : Balloting s e s₁)
    (hcomments : s'.comments = s₁.comments) (hvotes : s'.votes = s₁.votes)
    (hcurve : s'.curationRewardCurve = s₁.curationRewardCurve) (hfund : s'.rewardFund = s₁.rewardFund)
    (hnext : s'.nextCommentId = s₁.nextCommentId) : Balloting s e s' := by
  have htally : ∀ id f, s'.tally id f = s₁.tally id f := fun id f => by
    rw [State.tally, State.tally, hvotes]
  refine ⟨hcurve.trans h.curve, hfund.trans h.fund, hnext ▸ h.next, fun k x hx hcashout => ?_⟩
  rw [hcomments] at hx
  rcases h.ballots k x hx hcashout with hfresh | ⟨c, hc, hid, hc', hcounts⟩
  · exact Or.inl { hfresh with tally := fun f => (htally _ f).trans (hfresh.tally f) }
  · refine Or.inr ⟨c, hc, hid, hc', ?_⟩
    cases hcounts with
    | same hother hballot h => exact .same hother hballot fun f => (htally _ f).trans (h f)
    | first o shares weight vote he hkey hnone hshares hr hw hd hballot h =>
      exact .first o shares weight vote he hkey hnone hshares hr hw hd hballot fun f =>
        (htally _ f).trans (h f)
    | changed o shares old new he hold hnew hballot h =>
      exact .changed o shares old new he hold hnew hballot fun f => (htally _ f).trans (h f)

theorem Linked.id_ne (hs : Linked s) {j k : Key} (hj : ballots s.comments j = some x)
    (hk : s.comments.find? k = some c) (hne : j ≠ k) : x.id ≠ c.id := by
  obtain ⟨d, hd, rfl⟩ := ballots_eq_some.mp hj
  exact fun heq => hne (hs.tidy.rooted.inj j k d.skeleton c.skeleton (skeletons_of_find hd)
    (skeletons_of_find hk) heq)

theorem Linked.createComment_balloting (hs : Linked s) {o : CommentOperation} {auth : Account}
    {parent : Option Post} (h : s.createComment o auth parent = .ok s') :
    Balloting s (.comment o) s' := by
  obtain ⟨⟨t₁, hins, habove⟩, -, hvotes, hnext⟩ := createComment_created h
  have hsame : s'.curationRewardCurve = s.curationRewardCurve ∧ s'.rewardFund = s.rewardFund := by
    simp only [State.createComment, eq_ok, get_eq_ok] at h
    obtain ⟨_, -, _, -, _, -, _, -, _, -, _, -, _, -, rfl⟩ := h
    exact ⟨rfl, rfl⟩
  have hballots := eachAbove_ballots (f := State.repliedTo s.headBlockTime) (fun _ => rfl) habove
  refine ⟨hsame.1, hsame.2, by omega, fun k x hx hcashout => ?_⟩
  rw [hballots, ballots, find?_insert? hins] at hx
  split at hx
  · -- the new comment
    refine Or.inl ?_
    obtain rfl : (s.newPost o parent).ballot = x := some.inj hx
    have hid : (s.newPost o parent).id = s.nextCommentId := by cases parent <;> rfl
    refine ⟨hid, by cases parent <;> rfl, by cases parent <;> rfl, by cases parent <;> rfl,
      by cases parent <;> rfl, fun f => tally_eq_zero (fun voter => ?_) f⟩
    -- a vote would be on a comment that is there
    rw [hvotes]
    by_contra hsome
    obtain ⟨j, d, hd, hdid⟩ := hs.votes (_, voter) (isSome_iff_ne_none.mpr hsome)
    have hlt := hs.tidy.rooted.fresh j d hd
    have hdid : d.id = (s.newPost o parent).id := hdid
    omega
  · exact Or.inr (Counts.of_ballots hx hcashout (by rintro _ _ ⟨⟩) fun f => by rw [State.tally, hvotes]; rfl)

theorem Linked.editComment_balloting {o : CommentOperation}
    (h : s.editComment b o c = .ok s') : Balloting s (.comment o) s' := by
  simp only [State.editComment, eq_ok] at h
  obtain ⟨_, -, _, -, _, -, rfl⟩ := h
  refine ⟨rfl, rfl, le_rfl, fun k x hx hcashout => ?_⟩
  rw [ballots_modify_same] at hx
  · exact Or.inr (Counts.of_ballots hx hcashout (by rintro _ _ ⟨⟩) fun f => rfl)
  · exact fun _ => rfl

theorem Linked.deleteComment_balloting (hs : Linked s) {author : AccountName} {permlink : String}
    (h : s.deleteComment author permlink = .ok s') : Balloting s (.deleteComment author permlink) s' := by
  obtain ⟨c, hdeleted⟩ := deleteComment_deleted hs.tidy h
  obtain ⟨t', ht', hcomments⟩ := hdeleted.removed
  have hsame : s'.curationRewardCurve = s.curationRewardCurve ∧ s'.rewardFund = s.rewardFund ∧
      s'.nextCommentId = s.nextCommentId := by
    simp only [State.deleteComment, eq_ok] at h
    obtain ⟨_, -, _, -, _, -, _, -, _, -, _, -, _, -, rfl⟩ := h
    exact ⟨rfl, rfl, rfl⟩
  have hballots := eachAbove_ballots (f := State.replyDeleted s.headBlockTime) (fun _ => rfl) ht'
  refine ⟨hsame.1, hsame.2.1, hsame.2.2.ge, fun k x hx hcashout => Or.inr ?_⟩
  rw [hcomments, ballots, find?_erase] at hx
  split at hx
  · cases hx
  · next hk =>
    have hx : ballots s.comments k = some x := hballots ▸ hx
    exact Counts.of_ballots hx hcashout (by rintro _ _ ⟨⟩)
      (tally_filter (hs.id_ne hx hdeleted.found hk) hdeleted.votes)

theorem Linked.cashout_balloting (hs : Linked s) {key : Key} {paid : State.Paid}
    (h : s.cashout b key paid = .ok s') : Balloting s (.cashout key paid) s' := by
  simp only [State.cashout, State.getComment, eq_ok, get_eq_ok] at h
  obtain ⟨c, hc, _, -, rfl⟩ := h
  set s₁ := s.modifyComment key (State.paidOut s.headBlockTime paid) with hs₁
  -- other comments stay, and so do the votes on them
  have hothers : ∀ s₂ : State, s₂.comments = s₁.comments →
      (s₂.votes = s.votes ∨ s₂.votes = s.votes.filter fun k _ => k.1 ≠ c.id) →
      ∀ k x, ballots s₂.comments k = some x → x.cashoutTime ≠ timePointSecMaximum →
        Fresh s s₂ x ∨ ∃ c, s.comments.find? k = some c ∧ c.id = x.id ∧
          c.cashoutTime ≠ timePointSecMaximum ∧ Counts s (.cashout key paid) s₂ c x := by
    intro s₂ hcomments hvotes k x hx hcashout
    rw [hcomments] at hx
    by_cases hk : k = key
    · subst hk
      obtain ⟨d, hd, rfl⟩ := ballots_eq_some.mp hx
      rw [show s₁.comments.find? k = _ from find?_modify_self .., hc] at hd
      cases hd
      exact absurd rfl hcashout
    · have hx : ballots s.comments k = some x := by
        rw [← ballots_modify_ne _ (State.paidOut s.headBlockTime paid) hk]
        exact hx
      refine Or.inr (Counts.of_ballots hx hcashout (by rintro _ _ ⟨⟩) fun f => ?_)
      rcases hvotes with hvotes | hvotes
      · rw [State.tally, hvotes]
        rfl
      · exact tally_filter (hs.id_ne hx hc hk) hvotes f
  split
  · exact ⟨rfl, rfl, le_rfl, hothers _ rfl (Or.inr rfl)⟩
  · exact ⟨rfl, rfl, le_rfl, hothers _ rfl (Or.inl rfl)⟩

variable {o : VoteOperation}

/-- A vote counts for the comment that it is on, and the others keep what they have. -/
theorem Linked.voted_balloting (hs : Linked s)
    (hc : s.comments.find? (o.author, o.permlink) = some c)
    (hcurve : s'.curationRewardCurve = s.curationRewardCurve) (hfund : s'.rewardFund = s.rewardFund)
    (hnext : s.nextCommentId ≤ s'.nextCommentId)
    (hothers : ∀ k, k ≠ c.key → ballots s'.comments k = ballots s.comments k)
    (htally : ∀ id f, c.id ≠ id → s'.tally id f = s.tally id f)
    (hvoted : ∀ x, ballots s'.comments c.key = some x → x.cashoutTime ≠ timePointSecMaximum →
      c.id = x.id ∧ c.cashoutTime ≠ timePointSecMaximum ∧ Counts s (.vote o) s' c x) :
    Balloting s (.vote o) s' := by
  have hkey : c.key = (o.author, o.permlink) := hs.tidy.rooted.key _ _ (skeletons_of_find hc)
  refine ⟨hcurve, hfund, hnext, fun k x hx hcashout => Or.inr ?_⟩
  by_cases hk : k = c.key
  · subst hk
    exact ⟨c, hkey ▸ hc, hvoted x hx hcashout⟩
  · rw [hothers k hk] at hx
    have hid : c.id ≠ x.id := (hs.id_ne hx (hkey ▸ hc) hk).symm
    refine Counts.of_ballots hx hcashout (fun o' c' he hc' => ?_) fun f => htally x.id f hid
    cases he
    obtain rfl := mem_unique hc hc'
    exact hid

theorem Linked.firstVote_balloting (hs : Linked s) {shares : Int}
    (hc : s.comments.find? (o.author, o.permlink) = some c)
    (hcashout : c.cashoutTime ≠ timePointSecMaximum) (hshares : s.voteShares o c = .ok shares)
    (hnone : s.votes.find? (c.id, o.voter) = none)
    (h : s.firstVote o c (signedShares o shares) shares = .ok s') : Balloting s (.vote o) s' := by
  have hkey : c.key = (o.author, o.permlink) := hs.tidy.rooted.key _ _ (skeletons_of_find hc)
  simp only [State.firstVote, bind_eq_ok, get_eq_ok, pure_eq_ok] at h
  obtain ⟨_, -, root, -, weight, hweight, votes, hvotes, rfl⟩ := h
  set vote : Vote := ⟨discounted s c weight, signedShares o shares, o.weight, s.headBlockTime, 0⟩
  have htally : ∀ id f, ({ s with votes := votes } : State).tally id f =
      s.tally id f + if c.id = id then f vote else 0 :=
    fun id f => sum_insert? hvotes _
  refine hs.voted_balloting hc rfl rfl le_rfl (fun k hk => ?_) (fun id f hid => ?_) fun x hx _ => ?_
  · dsimp only [State.modifyComment]
    rw [ballots_modify_ne _ _ hk, ballots_children, ballots_modify_ne _ _ hk]
  · refine (htally id f).trans ?_
    rw [if_neg hid, add_zero]
  · obtain ⟨d, hd, rfl⟩ := ballots_eq_some.mp hx
    dsimp only [State.modifyComment] at hd
    rw [find?_modify_self] at hd
    obtain ⟨d₁, hd₁, rfl⟩ := map_eq_some_iff.mp hd
    have hd₁ballot : d₁.ballot = (c.voted (signedShares o shares) shares).ballot := by
      have hvoted : ballots ((s.comments.modify c.key fun c => c.voted (signedShares o shares) shares).modify
          root.key fun r => { r with childrenAbsRshares := r.childrenAbsRshares + shares }) c.key =
            some (c.voted (signedShares o shares) shares).ballot := by
        rw [ballots_children, ballots, find?_modify_self, hkey, hc]
        rfl
      rw [ballots, hd₁] at hvoted
      exact some.inj hvoted
    refine ⟨(congrArg Ballot.id hd₁ballot).symm, hcashout,
      .first o shares weight vote rfl hc hnone hshares rfl hweight rfl ?_ fun f => ?_⟩
    · show { d₁.ballot with totalVoteWeight := d₁.ballot.totalVoteWeight + weight } = _
      rw [hd₁ballot]
      rfl
    · have := htally c.id f
      rw [if_pos rfl] at this
      exact this

theorem Linked.changeVote_balloting (hs : Linked s) {old : Vote} {rshares shares : Int}
    (hc : s.comments.find? (o.author, o.permlink) = some c)
    (hcashout : c.cashoutTime ≠ timePointSecMaximum)
    (hold : s.votes.find? (c.id, o.voter) = some old)
    (h : s.changeVote o c old rshares shares = .ok s') : Balloting s (.vote o) s' := by
  have hkey : c.key = (o.author, o.permlink) := hs.tidy.rooted.key _ _ (skeletons_of_find hc)
  simp only [State.changeVote, bind_eq_ok, pure_eq_ok] at h
  obtain ⟨_, -, _, -, root, -, rfl⟩ := h
  set new : Vote → Vote := fun v =>
    { v with
      rshares := rshares, votePercent := o.weight, lastUpdate := s.headBlockTime, weight := 0
      numChanges := v.numChanges + 1 }
  have htally : ∀ id f, ({ s with votes := s.votes.modify (c.id, o.voter) new } : State).tally id f =
      s.tally id f + ((if c.id = id then f (new old) else 0) - if c.id = id then f old else 0) :=
    fun id f => sum_modify hold new _
  refine hs.voted_balloting hc rfl rfl le_rfl (fun k hk => ?_) (fun id f hid => ?_) fun x hx _ => ?_
  · dsimp only [State.modifyComment]
    rw [ballots_children, ballots_modify_ne _ _ hk]
  · refine (htally id f).trans ?_
    rw [if_neg hid, if_neg hid, sub_zero, add_zero]
  · have hvoted : ballots ((s.comments.modify c.key fun c => c.revoted old rshares shares).modify
        root.key fun r => { r with childrenAbsRshares := r.childrenAbsRshares + shares }) c.key =
          some (c.revoted old rshares shares).ballot := by
      rw [ballots_children, ballots, find?_modify_self, hkey, hc]
      rfl
    obtain rfl := mem_unique hx hvoted
    refine ⟨rfl, hcashout, .changed o shares old (new old) rfl hold rfl rfl fun f => ?_⟩
    have := htally c.id f
    rw [if_pos rfl, if_pos rfl] at this
    exact this.trans (by ring)

theorem Linked.vote_balloting (hs : Linked s) (h : s.vote b o = .ok s') :
    Balloting s (.vote o) s' := by
  simp only [State.vote, State.getComment, State.getAccount, bind_eq_ok, get_eq_ok] at h
  obtain ⟨_, -, c, hc, voter, hvoter, _, -, _, -, h⟩ := h
  split at h
  · -- the comment has been paid out
    next hlate =>
    cases h
    have hkey : c.key = (o.author, o.permlink) := hs.tidy.rooted.key _ _ (skeletons_of_find hc)
    have hpaid : ∀ x, ballots s.comments c.key = some x → ¬ x.cashoutTime ≠ timePointSecMaximum := by
      intro x hx hcashout
      rw [ballots, hkey, hc] at hx
      cases hx
      exact hcashout hlate
    unfold State.lateVote
    split
    · exact hs.voted_balloting hc rfl rfl le_rfl (fun _ _ => rfl) (fun _ _ _ => rfl)
        fun x hx hcashout => absurd hcashout (hpaid x hx)
    · refine hs.voted_balloting hc rfl rfl le_rfl (fun _ _ => rfl) (fun id f hne => ?_)
        fun x hx hcashout => absurd hcashout (hpaid x hx)
      cases hv : s.votes.find? (c.id, o.voter) with
      | none =>
        rw [State.tally, modify_of_none hv, sum_emplace hv, if_neg hne, add_zero]
        rfl
      | some v =>
        have htaken : (c.id, o.voter) ∈ (s.votes.modify (c.id, o.voter) fun v =>
            { v with votePercent := o.weight, lastUpdate := s.headBlockTime }).keys := by
          rw [keys_modify]
          exact find?_isSome_iff.mp (by rw [hv, isSome_some])
        rw [State.tally, emplace, insert?, dif_pos htaken, getD_none,
          sum_modify hv, if_neg hne, if_neg hne, sub_self, add_zero]
        rfl
  · next hcashout =>
    simp only [State.timelyVote, bind_eq_ok, pure_eq_ok] at h
    obtain ⟨_, -, _, -, _, -, bar, hbar, _, -, used, hused, _, -, _, -, s₁, hs₁, rfl⟩ := h
    have hshares : s.voteShares o c = .ok (absRshares s c used) := by
      simp only [State.voteShares, State.getAccount, bind_eq_ok, get_eq_ok, pure_eq_ok]
      exact ⟨voter, hvoter, bar, hbar, used, hused, rfl⟩
    have hballoting : Balloting s (.vote o) s₁ := by
      unfold State.castVote at hs₁
      split at hs₁
      · next hnone => exact hs.firstVote_balloting hc hcashout hshares hnone hs₁
      · next old hold => exact hs.changeVote_balloting hc hcashout hold hs₁
    exact hballoting.congr rfl rfl rfl rfl rfl

/-- A vote leaves comments where they are, and does not change when they are paid out. -/
theorem vote_cashoutTime (h : s.vote b o = .ok s') (k : Key) :
    (s'.comments.find? k).map (·.cashoutTime) = (s.comments.find? k).map (·.cashoutTime) := by
  simp only [State.vote, bind_eq_ok] at h
  obtain ⟨_, -, c, -, voter, -, _, -, _, -, h⟩ := h
  split at h
  · cases h
    unfold State.lateVote
    split <;> rfl
  · simp only [State.timelyVote, bind_eq_ok, pure_eq_ok] at h
    obtain ⟨_, -, _, -, _, -, bar, -, _, -, used, -, _, -, _, -, s₁, hs₁, rfl⟩ := h
    show (s₁.comments.find? k).map _ = _
    unfold State.castVote at hs₁
    split at hs₁
    · simp only [State.firstVote, bind_eq_ok, pure_eq_ok] at hs₁
      obtain ⟨_, -, root, -, weight, -, votes, -, rfl⟩ := hs₁
      dsimp only [State.modifyComment]
      rw [view_modify (·.cashoutTime), view_modify (·.cashoutTime), view_modify (·.cashoutTime)]
      all_goals exact fun _ => rfl
    · simp only [State.changeVote, bind_eq_ok, pure_eq_ok] at hs₁
      obtain ⟨_, -, _, -, root, -, rfl⟩ := hs₁
      dsimp only [State.modifyComment]
      rw [view_modify (·.cashoutTime), view_modify (·.cashoutTime)]
      all_goals exact fun _ => rfl

/-- **Step lemma.** What a step does to the ballots. -/
theorem Linked.step_balloting (hs : Linked s) (h : Comments.step b s e = .ok s') :
    Balloting s e s' := by
  cases e with
  | comment o =>
    rcases comment_cases h with ⟨auth, parent, -, h⟩ | ⟨c, h⟩
    · exact hs.createComment_balloting h
    · exact editComment_balloting h
  | deleteComment author permlink => exact hs.deleteComment_balloting h
  | vote o => exact hs.vote_balloting h
  | cashout key paid => exact hs.cashout_balloting h
  | rest now accounts =>
    cases h
    exact ⟨rfl, rfl, le_rfl, fun k x hx hcashout =>
      Or.inr (Counts.of_ballots hx hcashout (by rintro _ _ ⟨⟩) fun _ => rfl)⟩

end DeltaChain.Comments

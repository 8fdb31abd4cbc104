import DeltaChain.Comments.Ballots
import DeltaChain.Rewards.Monotone

/-!
# The tally of a comment

`net_rshares` is the sum of the shares of all votes on a comment, and the weights of its votes add up to
`total_vote_weight` at most, which is at most what the curve gives for `vote_rshares`
(`vote_weights_kept`). The last is what makes the first two inductive: a first vote adds the growth of the
curve to the total and a part of it to the weights, and a vote that changes takes the same from both.

`net_votes` should be the number of votes for the comment less the number of votes against it. A first vote
whose shares come out as zero is counted as one against it (`net_votes_iff`).
-/

namespace DeltaChain.Comments

open Lib Protocol Ledger Checked Option List

variable {s s' : State} {b : Build} {e : Event} {x : Ballot} {start : Nat} {r r' : Int} {c : Post}

/-- The curve of curators at some shares. -/
def State.curveAt (s : State) (rshares : Int) : Checked Nat :=
  evaluateRewardCurve (u128 rshares) s.curationRewardCurve s.rewardFund.contentConstant

/-- The values of the curve of curators fit into 64 bits, up to some shares. -/
def State.CurveFits (s : State) (rshares : Int) : Prop :=
  Ledger.CurveFits s.curationRewardCurve s.rewardFund.contentConstant rshares.toNat

theorem u128_toNat {x : Int} (h₀ : 0 ≤ x) (h : x < 2 ^ 63) : u128 x = x.toNat := by
  rw [u128, Int.emod_eq_of_lt h₀ (by omega)]

theorem State.CurveFits.value {r : Int} (h : s.CurveFits r) (h₀ : 0 ≤ r) :
    ∃ n, n < 2 ^ 64 ∧ s.curveAt r = .ok n := by
  have hr := h.shares
  obtain ⟨n, hn, hvalue⟩ := Ledger.CurveFits.value h r.toNat le_rfl
  refine ⟨n, hn, ?_⟩
  rw [State.curveAt, u128_toNat h₀ (by omega), hvalue]

theorem State.CurveFits.curveAt_mono (h : s.CurveFits r') (h₀ : 0 ≤ r) (hle : r ≤ r') {n n' : Nat}
    (hn : s.curveAt r = .ok n) (hn' : s.curveAt r' = .ok n') : n ≤ n' := by
  have hr := h.shares
  rw [State.curveAt, u128_toNat (by omega) (by omega)] at hn hn'
  exact evaluateRewardCurve_mono h (by omega) hn hn'

theorem State.CurveFits.mono (h : s.CurveFits r') (hle : r ≤ r') : s.CurveFits r :=
  Ledger.CurveFits.mono h (by omega)

theorem le_tally {id : Nat} {voter : AccountName} {v : Vote} {f : Vote → Int} (hf : ∀ v, 0 ≤ f v)
    (hv : s.votes.find? (id, voter) = some v) : f v ≤ s.tally id f := by
  have hmem : f v ∈ s.votes.entries.map fun e => if e.1.1 = id then f e.2 else 0 :=
    mem_map.mpr ⟨((id, voter), v), Table.mem_entries_iff.mpr hv, if_pos rfl⟩
  refine single_le_sum (fun x hx => ?_) _ hmem
  obtain ⟨e, -, rfl⟩ := mem_map.mp hx
  show 0 ≤ if e.1.1 = id then f e.2 else 0
  split
  · exact hf e.2
  · exact le_rfl

-- # Weights

/-- The shares add up, and the weights are bounded by their total and the total by the curve. -/
structure Weighed (s : State) (x : Ballot) : Prop where
  net : x.netRshares = s.tally x.id Vote.rshares
  votes : 0 ≤ x.voteRshares
  weights : s.CurveFits x.voteRshares → s.tally x.id (fun v => v.weight) ≤ x.totalVoteWeight
  total : s.CurveFits x.voteRshares → ∀ n, s.curveAt x.voteRshares = .ok n → x.totalVoteWeight ≤ n

theorem discounted_le (s : State) (c : Post) (weight : Nat) : discounted s c weight ≤ weight := by
  unfold discounted
  rcases Nat.eq_zero_or_pos s.reverseAuctionSeconds with hzero | hpos
  · rw [hzero, Nat.div_zero]
    exact Nat.zero_le _
  · exact Nat.div_le_of_le_mul (by
      rw [Nat.mul_comm s.reverseAuctionSeconds]
      exact Nat.mul_le_mul_left _ (Nat.min_le_right _ _))

/-- One step, for a comment that was there. -/
theorem Weighed.counts (h : Weighed s c.ballot)
    (hcurve : s'.curationRewardCurve = s.curationRewardCurve) (hfund : s'.rewardFund = s.rewardFund)
    (hcounts : Counts s e s' c x) : Weighed s' x := by
  have hfits : ∀ {r}, s'.CurveFits r → s.CurveFits r := fun hr => by
    rwa [State.CurveFits, hcurve, hfund] at hr
  have hat : ∀ r, s'.curveAt r = s.curveAt r := fun r => by
    rw [State.curveAt, hcurve, hfund]
    rfl
  have hvotes : 0 ≤ c.voteRshares := h.votes
  have hnet : c.netRshares = s.tally c.id Vote.rshares := h.net
  cases hcounts with
  | same _ hballot htally =>
    subst hballot
    refine ⟨hnet.trans (htally _).symm, hvotes, fun hr => ?_, fun hr n hn => ?_⟩
    · rw [show s'.tally c.ballot.id _ = _ from htally _]
      exact h.weights (hfits hr)
    · rw [hat] at hn
      exact h.total (hfits hr) n hn
  | first o shares weight vote _ _ _ _ _ hweight hdiscount hballot htally =>
    subst hballot
    -- shares for the comment only ever grow
    have hgrows : c.voteRshares ≤ (c.voted vote.rshares shares).voteRshares := by
      show c.voteRshares ≤ if vote.rshares > 0 then c.voteRshares + vote.rshares else c.voteRshares
      split <;> omega
    have hsum : s'.CurveFits (c.voted vote.rshares shares).voteRshares →
        ∀ n', s.curveAt (c.voted vote.rshares shares).voteRshares = .ok n' →
          c.totalVoteWeight + weight ≤ n' := by
      intro hr n' hn'
      obtain ⟨n, -, hn⟩ := ((hfits hr).mono hgrows).value hvotes
      have htotal : c.totalVoteWeight ≤ n := h.total ((hfits hr).mono hgrows) n hn
      have hmono := (hfits hr).curveAt_mono hvotes hgrows hn hn'
      unfold voteWeight at hweight
      split at hweight
      · simp only [toUint64, eq_ok] at hweight
        obtain ⟨m, hm, _, ⟨-, rfl⟩, m', hm', _, ⟨hlt, rfl⟩, rfl⟩ := hweight
        obtain rfl := Except.ok.inj (hn.symm.trans hm)
        obtain rfl := Except.ok.inj (hn'.symm.trans hm')
        omega
      · cases hweight
        omega
    refine ⟨?_, hvotes.trans hgrows, fun hr => ?_, fun hr n hn => ?_⟩
    · show c.netRshares + vote.rshares = s'.tally c.id _
      rw [htally, hnet]
    · show s'.tally c.id _ ≤ ((c.totalVoteWeight + weight : Nat) : Int)
      have hold : s.tally c.id (fun v => (v.weight : Int)) ≤ c.totalVoteWeight :=
        h.weights ((hfits hr).mono hgrows)
      have := discounted_le s c weight
      rw [htally, hdiscount]
      omega
    · rw [hat] at hn
      exact hsum hr n hn
  | changed o shares old new _ hold hnew hballot htally =>
    subst hballot
    have hremoved : s.CurveFits c.voteRshares → s.tally c.id (fun v => (v.weight : Int)) ≤ c.totalVoteWeight ∧
        (old.weight : Int) ≤ s.tally c.id (fun v => v.weight) ∧
        ∃ n, n < 2 ^ 64 ∧ s.curveAt c.voteRshares = .ok n ∧ c.totalVoteWeight ≤ n := by
      intro hr
      obtain ⟨n, hlt, hn⟩ := hr.value hvotes
      exact ⟨h.weights hr, le_tally (fun _ => Int.natCast_nonneg _) hold, n, hlt, hn, h.total hr n hn⟩
    refine ⟨?_, hvotes, fun hr => ?_, fun hr n hn => ?_⟩
    · show c.netRshares - old.rshares + new.rshares = s'.tally c.id _
      rw [htally, hnet]
    · obtain ⟨hweights, hle, n, hlt, -, htotal⟩ := hremoved (hfits hr)
      show s'.tally c.id _ ≤ ((((c.totalVoteWeight : Int) - old.weight) % 2 ^ 64).toNat : Int)
      rw [htally, hnew]
      omega
    · obtain ⟨hweights, hle, m, hlt, hm, htotal⟩ := hremoved (hfits hr)
      rw [hat] at hn
      obtain rfl := Except.ok.inj (hm.symm.trans hn)
      show (((c.totalVoteWeight : Int) - old.weight) % 2 ^ 64).toNat ≤ m
      omega

theorem Weighed.fresh (h : Fresh s s' x) : Weighed s' x := by
  refine ⟨by rw [h.netRshares, h.tally], h.voteRshares.ge, fun _ => ?_, fun _ n _ => ?_⟩
  · rw [h.tally]
    exact Int.natCast_nonneg _
  · rw [h.totalVoteWeight]
    exact Nat.zero_le n

/-- Every comment from the id `start` on that has not been paid out is weighed. -/
def AllWeighed (start : Nat) (s : State) : Prop :=
  ∀ k x, ballots s.comments k = some x → start ≤ x.id → x.cashoutTime ≠ timePointSecMaximum →
    Weighed s x

/-- **Step lemma.** -/
theorem AllWeighed.step (h : AllWeighed start s) (hs : Linked s)
    (hstep : Comments.step b s e = .ok s') : AllWeighed start s' := by
  intro k x hx hstart hcashout
  have hballoting := hs.step_balloting hstep
  rcases hballoting.ballots k x hx hcashout with hfresh | ⟨c, hc, hid, hcashout', hcounts⟩
  · exact Weighed.fresh hfresh
  · have hweighed := h k c.ballot (ballots_eq_some.mpr ⟨c, hc, rfl⟩)
      (show start ≤ c.id by rw [hid]; exact hstart) hcashout'
    exact hweighed.counts hballoting.curve hballoting.fund hcounts

/-- What holds of the shares and weights of a comment. -/
structure WeightsKept (s : State) (c : Post) : Prop where
  net : c.netRshares = s.tally c.id Vote.rshares
  weights : s.CurveFits c.voteRshares → s.tally c.id (fun v => v.weight) ≤ c.totalVoteWeight
  total : s.CurveFits c.voteRshares →
    ∃ n, n < 2 ^ 64 ∧ s.curveAt c.voteRshares = .ok n ∧ c.totalVoteWeight ≤ n
  removal : s.CurveFits c.voteRshares → ∀ voter v, s.votes.find? (c.id, voter) = some v →
    v.weight ≤ c.totalVoteWeight
  growth : ∀ r, c.voteRshares ≤ r → s.CurveFits r → ∀ n n', s.curveAt c.voteRshares = .ok n →
    s.curveAt r = .ok n' → n ≤ n'

/-- **Shares and weights.** In every run, for every comment that was made in it and has not been paid
out: `net_rshares` is the sum of the shares of its votes; and as far as the curve fits into 64 bits, the
weights of its votes add up to `total_vote_weight` at most, that is at most the curve at `vote_rshares`, and
neither the weight of a vote nor the difference of two values of the curve is subtracted from less. -/
theorem vote_weights_kept (b : Build) (s₀ s : State) (events : List Event) (h₀ : Linked s₀)
    (hrun : Run.exec (Run.checked (step b)) s₀ events = some s) (k : Key) (c : Post)
    (hc : s.comments.find? k = some c) (hmade : s₀.nextCommentId ≤ c.id)
    (hcashout : c.cashoutTime ≠ timePointSecMaximum) : WeightsKept s c := by
  have hstart : AllWeighed s₀.nextCommentId s₀ := by
    intro k x hx hmade _
    obtain ⟨d, hd, rfl⟩ := ballots_eq_some.mp hx
    have hlt := h₀.tidy.rooted.fresh k d.skeleton (skeletons_of_find hd)
    exact absurd (show s₀.nextCommentId ≤ d.id from hmade) (by
      have : d.id < s₀.nextCommentId := hlt
      omega)
  have hs : Linked s ∧ AllWeighed s₀.nextCommentId s := Run.checked_induct
    (fun s => Linked s ∧ AllWeighed s₀.nextCommentId s)
    (fun _ _ _ hs hstep => ⟨(hs.1.step hstep).1, hs.2.step hs.1 hstep⟩) ⟨h₀, hstart⟩ hrun
  have hweighed : Weighed s c.ballot := hs.2 k c.ballot (ballots_eq_some.mpr ⟨c, hc, rfl⟩) hmade hcashout
  refine ⟨hweighed.net, hweighed.weights, fun hr => ?_, fun hr voter v hv => ?_, fun r hle hr n n' hn hn' => ?_⟩
  · obtain ⟨n, hlt, hn⟩ := hr.value hweighed.votes
    exact ⟨n, hlt, hn, hweighed.total hr n hn⟩
  · have hle := le_tally (f := fun v => (v.weight : Int)) (fun _ => Int.natCast_nonneg _) hv
    have hsum : s.tally c.id (fun v => (v.weight : Int)) ≤ c.totalVoteWeight := hweighed.weights hr
    exact_mod_cast hle.trans hsum
  · exact hr.curveAt_mono hweighed.votes hle hn hn'

/-- Two accounts, one of them with shares to vote with. -/
def oneVoter (shares : Int) : State :=
  { twoAuthors with
    accounts := (Table.empty.emplace "alice" {}).emplace "bob"
      { vestingShares := shares, votingManabar := { currentMana := shares, lastUpdateTime := 0 } } }

/-- A vote of the second account on the post of the first. -/
def sampleVote : VoteOperation where
  voter := "bob"
  author := "alice"
  permlink := "post"
  weight := 10000

/-- A post, and some time after it a vote. -/
def voteLater (shares : Int) : List Event :=
  [.comment samplePost, .rest 2000 (oneVoter shares).accounts, .vote sampleVote]

/-- After one vote the post has its shares and its weight. -/
theorem vote_weights_kept_sample : ∃ s c,
    Run.exec (Run.checked (step plainBuild)) (oneVoter 1000000000000) (voteLater 1000000000000) = some s ∧
      s.comments.find? ("alice", "post") = some c ∧ c.netRshares = 19950000000 ∧
      c.totalVoteWeight = 141639 ∧ s.CurveFits c.voteRshares ∧ WeightsKept s c := by
  simp only [exists_and_left]
  refine Run.exists_end (P := fun s => s.curationRewardCurve = .squareRoot ∧
    ∃ c, s.comments.find? ("alice", "post") = some c ∧ c.netRshares = 19950000000 ∧
      c.totalVoteWeight = 141639 ∧ c.voteRshares = 19950000000 ∧
      c.cashoutTime ≠ timePointSecMaximum) (by decide +kernel) ?_
  rintro s hs ⟨hcurve, c, hc, hnet, htotal, hvotes, hcashout⟩
  refine ⟨c, hc, hnet, htotal, ?_, ?_⟩
  · rw [State.CurveFits, hcurve, hvotes]
    exact curveFits_squareRoot _ (by decide)
  · exact vote_weights_kept plainBuild _ s _ (linked_of_empty rfl rfl) hs _ c hc (Nat.zero_le _) hcashout

-- # Votes for and against

def State.votesFor (s : State) (id : Nat) : Int := s.tally id fun v => if 0 < v.rshares then 1 else 0

def State.votesAgainst (s : State) (id : Nat) : Int :=
  s.tally id fun v => if v.rshares < 0 then 1 else 0

/-- Every comment from the id `start` on that has not been paid out counts its votes for and against. -/
def NetVotesRight (start : Nat) (s : State) : Prop :=
  ∀ k c, s.comments.find? k = some c → start ≤ c.id → c.cashoutTime ≠ timePointSecMaximum →
    c.netVotes = s.votesFor c.id - s.votesAgainst c.id

/-- If the event is a first vote on such a comment, its shares do not come out as zero. -/
def Event.Weighty (start : Nat) (s : State) (e : Event) : Prop :=
  ∀ o c shares, e = .vote o → s.comments.find? (o.author, o.permlink) = some c → start ≤ c.id →
    c.cashoutTime ≠ timePointSecMaximum → s.votes.find? (c.id, o.voter) = none →
    s.voteShares o c = .ok shares → shares ≠ 0

/-- One step, for a comment that was there and counted its votes. -/
theorem Counts.netVotes (hcounts : Counts s e s' c x)
    (h : c.netVotes = s.votesFor c.id - s.votesAgainst c.id)
    (hweighty : ∀ o shares, e = .vote o → s.comments.find? (o.author, o.permlink) = some c →
      s.votes.find? (c.id, o.voter) = none → s.voteShares o c = .ok shares → shares ≠ 0) :
    x.netVotes = s'.votesFor c.id - s'.votesAgainst c.id := by
  unfold State.votesFor State.votesAgainst at *
  cases hcounts with
  | same _ hballot htally =>
    rw [hballot, htally, htally]
    exact h
  | first o shares weight vote he hkey hnone hshares hrshares _ _ hballot htally =>
    have hne : vote.rshares ≠ 0 := by
      have := hweighty o shares he hkey hnone hshares
      rw [hrshares, signedShares]
      split <;> omega
    rw [hballot, htally, htally]
    show (if vote.rshares > 0 then c.netVotes + 1 else c.netVotes - 1) = _
    rcases lt_or_gt_of_ne hne with hneg | hpos
    · omega
    · omega
  | changed o shares old new _ _ _ hballot htally =>
    rw [hballot, htally, htally]
    show changedVotes c.netVotes old.rshares new.rshares = _
    rw [h]
    unfold changedVotes
    rcases lt_trichotomy old.rshares 0 with hold | hold | hold <;>
      rcases lt_trichotomy new.rshares 0 with hnew | hnew | hnew <;>
        simp [hold, hnew, not_lt_of_gt] <;> omega

/-- **Step lemma.** A step from a state where votes are counted leads to another one exactly if it is not
a first vote whose shares come out as zero. -/
theorem NetVotesRight.step_iff (h : NetVotesRight start s) (hs : Linked s)
    (hstep : Comments.step b s e = .ok s') : NetVotesRight start s' ↔ e.Weighty start s := by
  have hballoting := hs.step_balloting hstep
  constructor
  · rintro hright o c shares rfl hc hmade hcashout hnone hshares rfl
    -- the comment is still there
    have htime := vote_cashoutTime hstep (o.author, o.permlink)
    rw [hc] at htime
    obtain ⟨c', hc', hcashout'⟩ := map_eq_some_iff.mp htime
    have hnot : c'.cashoutTime ≠ timePointSecMaximum := hcashout'.trans_ne hcashout
    have hx : ballots s'.comments (o.author, o.permlink) = some c'.ballot := ballots_eq_some.mpr ⟨c', hc', rfl⟩
    have hid : c'.id = c.id := by
      have hsk := congrFun (vote_votedOn hstep).comments.skeletons (o.author, o.permlink)
      rw [skeletons_of_find hc', skeletons_of_find hc] at hsk
      exact congrArg Skeleton.id (some.inj hsk)
    have hcounted := hright _ c' hc' (hid ▸ hmade) hnot
    have hbefore := h _ c hc hmade hcashout
    rcases hballoting.ballots _ _ hx hnot with hfresh | ⟨d, hd, -, -, hcounts⟩
    · have hlt : c.id < s.nextCommentId := hs.tidy.rooted.fresh _ _ (skeletons_of_find hc)
      have hnew : c'.id = s.nextCommentId := hfresh.id
      omega
    · obtain rfl := mem_unique hc hd
      cases hcounts with
      | same hother _ _ => exact hother o rfl hc
      | first o' shares weight vote he _ _ hshares' hrshares _ _ hballot htally =>
        cases he
        obtain rfl := Except.ok.inj (hshares'.symm.trans hshares)
        have hzero : vote.rshares = 0 := by
          rw [hrshares, signedShares, neg_zero, ite_self]
        have hafter : c'.netVotes = c.netVotes - 1 := by
          have := congrArg Ballot.netVotes hballot
          rw [hzero] at this
          exact this
        rw [hid, State.votesFor, State.votesAgainst, htally, htally, hzero] at hcounted
        unfold State.votesFor State.votesAgainst at hbefore
        omega
      | changed o' shares old new he hold _ _ _ =>
        cases he
        rw [hnone] at hold
        cases hold
  · intro hweighty k c' hc' hmade hcashout
    have hx : ballots s'.comments k = some c'.ballot := ballots_eq_some.mpr ⟨c', hc', rfl⟩
    rcases hballoting.ballots k _ hx hcashout with hfresh | ⟨c, hc, hid, hcashout', hcounts⟩
    · have hzero : c'.netVotes = 0 := hfresh.netVotes
      have htally : ∀ f, s'.tally c'.id f = 0 := hfresh.tally
      rw [hzero, State.votesFor, State.votesAgainst, htally, htally, sub_zero]
    · have hid : c.id = c'.id := hid
      rw [← hid] at hmade ⊢
      exact hcounts.netVotes (h k c hc hmade hcashout') fun o shares he hkey hnone hshares =>
        hweighty o c shares he hkey hmade hcashout' hnone hshares

/-- **Votes for and against.** In every run, every comment that was made in it and has not been paid out
counts its votes for and against, after every step, exactly if no step is a first vote on such a comment
whose shares come out as zero. -/
theorem net_votes_iff (b : Build) (s₀ : State) (h₀ : Linked s₀) (events : List Event) :
    Run.AllSteps (Run.checked (step b)) s₀ events (fun _ _ s' => NetVotesRight s₀.nextCommentId s') ↔
      Run.AllSteps (Run.checked (step b)) s₀ events fun s e _ => e.Weighty s₀.nextCommentId s := by
  refine Run.allSteps_congr (fun s => Linked s ∧ NetVotesRight s₀.nextCommentId s) ?_ ?_ ⟨h₀, ?_⟩
  · rintro s e s' ⟨hs, hright⟩ hstep
    exact hright.step_iff hs hstep
  · rintro s e s' ⟨hs, hright⟩ hstep hweighty
    exact ⟨(hs.step hstep).1, (hright.step_iff hs hstep).mpr hweighty⟩
  · intro k c hc hmade
    have hlt : c.id < s₀.nextCommentId := h₀.tidy.rooted.fresh k _ (skeletons_of_find hc)
    omega

/-- A vote with shares. -/
theorem net_votes_sample :
    (Run.exec (Run.checked (step plainBuild)) (oneVoter 1000000000000)
      (voteLater 1000000000000)).isSome = true ∧
    Run.AllSteps (Run.checked (step plainBuild)) (oneVoter 1000000000000) (voteLater 1000000000000)
      (fun _ _ s' => NetVotesRight 0 s') := by
  refine ⟨by decide +kernel, (net_votes_iff plainBuild _ (linked_of_empty rfl rfl) _).mpr ?_⟩
  rintro pre e post s s' hsplit hs - o c shares rfl hc - - - hshares rfl
  -- the vote is the last step, and its shares are known
  obtain ⟨rfl, rfl⟩ : pre = [.comment samplePost, .rest 2000 (oneVoter 1000000000000).accounts] ∧
      o = sampleVote := by
    match pre, hsplit with
    | [], h => cases h
    | [_], h => cases h
    | [_, _], h =>
      simp only [voteLater, cons_append, nil_append, cons.injEq, Event.vote.injEq] at h
      exact ⟨by rw [← h.1, ← h.2.1], h.2.2.1.symm⟩
    | _ :: _ :: _ :: pre, h => simp [voteLater] at h
  have hknown : (Run.exec (Run.checked (step plainBuild)) (oneVoter 1000000000000)
      [.comment samplePost, .rest 2000 (oneVoter 1000000000000).accounts]).bind (fun s =>
        (s.comments.find? ("alice", "post")).bind fun c => (s.voteShares sampleVote c).toOption) =
      some 19950000000 := by decide +kernel
  rw [hs, bind_some, show s.comments.find? ("alice", "post") = some c from hc, bind_some,
    hshares] at hknown
  cases hknown

/-- A vote of an account with few shares comes out as zero, and is counted against the post. -/
theorem zero_vote_counts_against : ∃ s c,
    Run.exec (Run.checked (step plainBuild)) (oneVoter 1000) (voteLater 1000) = some s ∧
      s.comments.find? ("alice", "post") = some c ∧ c.cashoutTime ≠ timePointSecMaximum ∧
      c.netVotes = -1 ∧ s.votesFor c.id = 0 ∧ s.votesAgainst c.id = 0 := by
  simp only [exists_and_left]
  decide +kernel

end DeltaChain.Comments

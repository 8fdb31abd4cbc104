import DeltaChain.Comments.Model

/-!
# Votes and payouts

`hf20_vote_evaluator`, and what `cashout_comment_helper` leaves in the tables of comments and
votes. The amounts that a payout adds to the totals of its comment are taken as they come.
-/

namespace DeltaChain.Comments

open Lib Protocol Ledger Checked

structure VoteOperation where
  voter : AccountName
  author : AccountName
  permlink : String
  weight : Int

def VoteOperation.validate (o : VoteOperation) : Checked Unit := do
  validateAccountName o.voter
  validateAccountName o.author
  assert (o.weight.natAbs ≤ percent100) "Weight is not a DELTAIT percentage"
  validatePermlink o.permlink

/-- `to_uint64` of a 128 bit number. -/
def toUint64 (n : Nat) : Checked Nat := do
  assert (n < 2 ^ 64) "hi == 0"
  return n

variable (s : State)

/-- The mana that a vote costs. -/
def usedMana (currentMana : Int) (weight : Int) : Checked Nat := do
  let used := u128 (currentMana * weight.natAbs * 60 * 60 * 24) / percent100
  let maxVoteDenom := s.votePowerReserveRate * votingManaRegenerationSeconds
  assert (maxVoteDenom > 0) "max_vote_denom > 0"
  toUint64 ((used + maxVoteDenom - 1) / maxVoteDenom)

/-- The shares that a vote counts for: less the dust, and less and less towards the payout. -/
def absRshares (c : Post) (used : Nat) : Int :=
  let shares := max 0 ((used : Int) - voteDustThreshold)
  let cashoutDelta := c.cashoutTime - s.headBlockTime
  if cashoutDelta < upvoteLockoutSeconds then shares * cashoutDelta / upvoteLockoutSeconds
  else shares

/-- The shares with the sign of the vote. -/
def signedShares (o : VoteOperation) (shares : Int) : Int := if o.weight < 0 then -shares else shares

/-- The comment after a first vote. -/
def Post.voted (c : Post) (rshares absRshares : Int) : Post :=
  { c with
    netRshares := c.netRshares + rshares
    absRshares := c.absRshares + absRshares
    voteRshares := if rshares > 0 then c.voteRshares + rshares else c.voteRshares
    netVotes := if rshares > 0 then c.netVotes + 1 else c.netVotes - 1 }

/-- What the votes for and against become when one changes. -/
def changedVotes (netVotes old new : Int) : Int :=
  if new > 0 ∧ old < 0 then netVotes + 2
  else if new > 0 ∧ old = 0 then netVotes + 1
  else if new = 0 ∧ old < 0 then netVotes + 1
  else if new = 0 ∧ old > 0 then netVotes - 1
  else if new < 0 ∧ old = 0 then netVotes - 1
  else if new < 0 ∧ old > 0 then netVotes - 2
  else netVotes

/-- The comment after a vote has changed; the weight is subtracted as an unsigned number. -/
def Post.revoted (c : Post) (old : Vote) (rshares absRshares : Int) : Post :=
  { c with
    netRshares := c.netRshares - old.rshares + rshares
    absRshares := c.absRshares + absRshares
    netVotes := changedVotes c.netVotes old.rshares rshares
    totalVoteWeight := (((c.totalVoteWeight : Int) - old.weight) % 2 ^ 64).toNat }

/-- The weight of a first vote, before the discount for an early one. -/
def voteWeight (old new : Post) (rshares : Int) : Checked Nat :=
  if rshares > 0 ∧ new.lastPayout = 0 ∧ new.allowCurationRewards ∧
      s.rewardFund.percentCurationRewards > 0 then do
    let oldWeight ← evaluateRewardCurve (u128 old.voteRshares) s.curationRewardCurve
      s.rewardFund.contentConstant
    let oldWeight ← toUint64 oldWeight
    let newWeight ← evaluateRewardCurve (u128 new.voteRshares) s.curationRewardCurve
      s.rewardFund.contentConstant
    let newWeight ← toUint64 newWeight
    return (((newWeight : Int) - oldWeight) % 2 ^ 64).toNat
  else return 0

/-- The discount for a vote soon after the comment was made. -/
def discounted (c : Post) (weight : Nat) : Nat :=
  weight * min (s.headBlockTime - c.created) s.reverseAuctionSeconds / s.reverseAuctionSeconds

namespace State

/-- `modify` on the comment with a key. -/
def modifyComment (key : Key) (f : Post → Post) : State :=
  { s with comments := s.comments.modify key f }

/-- The voter pays for the vote. -/
def spendMana (voter : AccountName) (used : Nat) (bar : Manabar) : State :=
  { s with accounts := s.accounts.modify voter fun a =>
    { a with votingManabar := bar.useMana used, lastVoteTime := s.headBlockTime } }

def firstVote (o : VoteOperation) (c : Post) (rshares shares : Int) : Checked State := do
  assert (o.weight ≠ 0) "Vote weight cannot be 0."
  let root ← getById s.comments c.rootComment
  let s := s.modifyComment c.key fun c => c.voted rshares shares
  let s := s.modifyComment root.key fun r =>
    { r with childrenAbsRshares := r.childrenAbsRshares + shares }
  let weight ← voteWeight s c (c.voted rshares shares) rshares
  let vote : Vote :=
    { weight := discounted s c weight
      rshares := rshares
      votePercent := o.weight
      lastUpdate := s.headBlockTime }
  let votes ← get (s.votes.insert? (c.id, o.voter) vote) "Could not insert object"
  let s := s.modifyComment c.key fun c => { c with totalVoteWeight := c.totalVoteWeight + weight }
  return { s with votes := votes }

def changeVote (o : VoteOperation) (c : Post) (old : Vote) (rshares shares : Int) :
    Checked State := do
  assert (old.numChanges < maxVoteChanges)
    "Voter has used the maximum number of vote changes on this comment."
  assert (old.votePercent ≠ o.weight) "Your current vote on this comment is identical to this vote."
  let root ← getById s.comments c.rootComment
  let s := s.modifyComment c.key fun c => c.revoted old rshares shares
  let s := s.modifyComment root.key fun r =>
    { r with childrenAbsRshares := r.childrenAbsRshares + shares }
  return { s with
    votes := s.votes.modify (c.id, o.voter) fun v =>
      { v with
        rshares := rshares
        votePercent := o.weight
        lastUpdate := s.headBlockTime
        weight := 0
        numChanges := v.numChanges + 1 } }

/-- A first vote, or one that changes. -/
def castVote (o : VoteOperation) (c : Post) (rshares shares : Int) : Checked State :=
  match s.votes.find? (c.id, o.voter) with
  | none => s.firstVote o c rshares shares
  | some old => s.changeVote o c old rshares shares

/-- A vote on a comment that has been paid out already is only remembered, if at all. -/
def lateVote (b : Build) (s : State) (o : VoteOperation) (c : Post) : State :=
  if b.clearVotes then s
  else
    { s with
      votes := (s.votes.modify (c.id, o.voter) fun v =>
        { v with votePercent := o.weight, lastUpdate := s.headBlockTime }).emplace (c.id, o.voter)
          { votePercent := o.weight, lastUpdate := s.headBlockTime } }

/-- A vote before the payout. -/
def timelyVote (o : VoteOperation) (c : Post) (voter : Account) : Checked State := do
  assert (s.headBlockTime < c.cashoutTime)
    "Comment is actively being rewarded. Cannot vote on comment."
  assert ((s.votes.find? (c.id, o.voter)).map Vote.numChanges ≠ some (-1))
    "Cannot vote again on a comment after payout."
  assert ((s.headBlockTime : Int) - voter.lastVoteTime ≥ minVoteIntervalSec)
    "Can only vote once every 3 seconds."
  let bar ← voter.votingManabar.regenerateMana
    ⟨voter.effectiveVestingShares, votingManaRegenerationSeconds⟩ s.headBlockTime
  assert (bar.currentMana > 0) "Account does not have enough mana to vote."
  let used ← usedMana s bar.currentMana o.weight
  assert ((used : Int) ≤ int64Max) "mana_needed <= std::numeric_limits< int64_t >::max()"
  assert (used = 0 ∨ bar.currentMana ≥ used) "Account does not have enough mana to vote."
  let shares := absRshares s c used
  let s' ← s.castVote o c (signedShares o shares) shares
  return s'.spendMana o.voter used bar

/-- `hf20_vote_evaluator`. -/
def vote (b : Build) (s : State) (o : VoteOperation) : Checked State := do
  o.validate
  let c ← s.getComment (o.author, o.permlink)
  let voter ← s.getAccount o.voter
  assert voter.canVote "Voter has declined their voting rights."
  whenever (o.weight > 0) (assert c.allowVotes "Votes are not allowed on the comment.")
  if c.cashoutTime = timePointSecMaximum then return s.lateVote b o c
  else s.timelyVote o c voter

/-- What a payout adds to the totals of a comment. -/
structure Paid where
  total : Int
  curator : Int
  beneficiary : Int
  author : Int

def paidOut (now : Nat) (p : Paid) (c : Post) : Post :=
  { c with
    toComment := Database.Comment.cashedOut { c.toComment with
      totalPayoutValue := c.totalPayoutValue + p.total
      curatorPayoutValue := c.curatorPayoutValue + p.curator
      beneficiaryPayoutValue := c.beneficiaryPayoutValue + p.beneficiary
      authorRewards := c.authorRewards + p.author } now }

/-- `cashout_comment_helper`, for a comment that is due. -/
def cashout (b : Build) (s : State) (key : Key) (p : Paid) : Checked State := do
  let c ← s.getComment key
  assert (c.cashoutTime ≤ s.headBlockTime) "not due"
  let s := s.modifyComment key (paidOut s.headBlockTime p)
  return if b.clearVotes then { s with votes := s.votes.filter fun k _ => k.1 ≠ c.id } else s

end State

-- # Runs

/-- What happens: operations, payouts, and anything else, which leaves the three tables alone. -/
inductive Event where
  | comment (o : CommentOperation)
  | deleteComment (author : AccountName) (permlink : String)
  | vote (o : VoteOperation)
  | cashout (key : Key) (paid : State.Paid)
  | rest (now : Nat) (accounts : Table AccountName Account)

def step (b : Build) (s : State) : Event → Checked State
  | .comment o => s.comment b o
  | .deleteComment author permlink => s.deleteComment author permlink
  | .vote o => s.vote b o
  | .cashout key paid => s.cashout b key paid
  | .rest now accounts => return { s with headBlockTime := now, accounts := accounts }

end DeltaChain.Comments

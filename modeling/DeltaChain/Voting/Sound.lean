import DeltaChain.Ledger.Frames
import DeltaChain.Voting.View

/-!
# What keeps the votes right

`VotesSound` is the invariant of the votes: the kept numbers are tallied, the ballots are
for existing witnesses, the null account neither votes nor has a proxy, and the shares of
all accounts add up to the total. It carries an offset, by which shares and total may be
apart in the middle of an operation.

The file says what each part of an operation does to it: `Quiet` parts do not touch the
votes, `VotesSound.gained` is for shares that an account gains or loses and that are then
passed up its chain of proxies.
-/

namespace DeltaChain.Ledger.Database

open Lib Protocol Voting Function Finset

/-- The invariant of the votes, with shares and total apart by `off`. -/
structure VotesSound (off : Int) (db : Database) : Prop where
  tallied : Tallied db.polls
  witness : ∀ a w, (a, w) ∈ db.polls.ballots → w ∈ db.witnesses.keys
  null_proxy : db.polls.proxy nullAccount = none
  null_ballot : ∀ w, (nullAccount, w) ∉ db.polls.ballots
  nonneg : ∀ a ∈ db.polls.voters, 0 ≤ db.polls.shares a
  total : ∑ a ∈ db.polls.voters, db.polls.shares a = db.props.totalVestingShares + off

/-- Nothing that the votes depend on has changed. -/
structure Quiet (db db' : Database) : Prop where
  polls : db'.polls = db.polls
  total : db'.props.totalVestingShares = db.props.totalVestingShares
  witnesses : ∀ w ∈ db.witnesses.keys, w ∈ db'.witnesses.keys

variable {db db' db₁ db₂ : Database} {name account : AccountName} {a : Account} {off : Int}

namespace Quiet

theorem refl : Quiet db db := ⟨rfl, rfl, fun _ hw => hw⟩

theorem trans (h₁ : Quiet db db₁) (h₂ : Quiet db₁ db₂) : Quiet db db₂ :=
  ⟨h₂.polls.trans h₁.polls, h₂.total.trans h₁.total, fun w hw =>
    h₂.witnesses w (h₁.witnesses w hw)⟩

theorem modifyProps {f : GlobalProperties → GlobalProperties}
    (hf : (f db.props).totalVestingShares = db.props.totalVestingShares) :
    Quiet db (db.modifyProps f) := ⟨rfl, hf, fun _ hw => hw⟩

end Quiet

/-- What the votes depend on in an account. -/
def voteFields (a : Account) : AccountName × Int × (Fin maxProxyRecursionDepth → Int) :=
  (a.proxy, a.vestingShares, a.proxiedVsfVotes)

variable {f : Account → Account} {δ t : Int}

theorem Quiet.modifyAccount
    (hf : ∀ a, db.accounts.find? name = some a → voteFields (f a) = voteFields a) :
    Quiet db (db.modifyAccount name f) where
  polls := polls_modifyAccount_of_eq fun a ha =>
    ⟨congrArg Prod.fst (hf a ha), congrArg (fun t => t.2.1) (hf a ha),
      congrArg (fun t => t.2.2) (hf a ha)⟩
  total := rfl
  witnesses _ hw := hw

theorem Quiet.settles (h : Settles db db') : Quiet db db' := by
  induction h with
  | refl => exact .refl
  | account _ hf ih =>
    refine ih.trans (.modifyAccount fun a _ => ?_)
    obtain ⟨r, d, hbalances⟩ := hf a
    rw [hbalances]
    simp [voteFields]
  | props _ hf ih =>
    refine ih.trans (.modifyProps ?_)
    rw [hf]

-- # Shares gained or lost

theorem VotesSound.quiet (h : VotesSound off db) (hq : Quiet db db') : VotesSound off db' where
  tallied := hq.polls ▸ h.tallied
  witness a w hb := hq.witnesses w (h.witness a w (hq.polls ▸ hb))
  null_proxy := hq.polls ▸ h.null_proxy
  null_ballot := hq.polls ▸ h.null_ballot
  nonneg := hq.polls ▸ h.nonneg
  total := by
    rw [hq.polls, hq.total]
    exact h.total

theorem VotesSound.modifyProps {t : Int} {f : GlobalProperties → GlobalProperties}
    (h : VotesSound off db)
    (ht : (f db.props).totalVestingShares = db.props.totalVestingShares + t) :
    VotesSound (off - t) (db.modifyProps f) where
  tallied := h.tallied
  witness := h.witness
  null_proxy := h.null_proxy
  null_ballot := h.null_ballot
  nonneg := h.nonneg
  total := by
    refine h.total.trans ?_
    change _ = (f db.props).totalVestingShares + _
    rw [ht]
    ring

/-- An account gained `δ` shares, which were passed up its chain of proxies, and the total
went up by `t`. -/
structure Gained (account : AccountName) (δ t : Int) (db db' : Database) : Prop where
  voter : account ∈ db.polls.voters
  pos : 0 ≤ db.polls.shares account + δ
  polls : db'.polls = (db.polls.addShares account δ).credit account (single δ)
  total : db'.props.totalVestingShares = db.props.totalVestingShares + t
  witnesses : ∀ w ∈ db.witnesses.keys, w ∈ db'.witnesses.keys

theorem VotesSound.gained (h : VotesSound off db) (hg : Gained account δ t db db') :
    VotesSound (off + δ - t) db' where
  tallied := hg.polls ▸ h.tallied.gain hg.voter δ
  witness a w hb := by
    rw [hg.polls] at hb
    exact hg.witnesses w (h.witness a w hb)
  null_proxy := by
    rw [hg.polls]
    exact h.null_proxy
  null_ballot := by
    rw [hg.polls]
    exact h.null_ballot
  nonneg a ha := by
    rw [hg.polls] at ha ⊢
    change 0 ≤ update db.polls.shares account _ a
    by_cases hax : a = account
    · subst hax
      rw [update_self]
      exact hg.pos
    · rw [update_of_ne hax]
      exact h.nonneg a ha
  total := by
    have hsum : ∑ a ∈ db.polls.voters,
        update db.polls.shares account (db.polls.shares account + δ) a =
          ∑ a ∈ db.polls.voters, db.polls.shares a + δ := by
      rw [← add_sum_erase _ _ hg.voter, ← add_sum_erase _ db.polls.shares hg.voter,
        update_self, sum_congr rfl fun a ha =>
          update_of_ne (ne_of_mem_erase ha) _ _]
      ring
    rw [hg.polls, hg.total]
    refine hsum.trans ?_
    rw [h.total]
    ring

theorem VoteWrites.props (h : VoteWrites db db') : db'.props = db.props := by
  have hprops := congrArg Database.props h.frame
  exact hprops

/-- Shares are written, then the total, and the change is passed up. -/
theorem Gained.of_climb
    {p : GlobalProperties → GlobalProperties} (ha : db.accounts.find? account = some a)
    (hpos : 0 ≤ a.vestingShares + δ) (hproxy : (f a).proxy = a.proxy)
    (hshares : (f a).vestingShares = a.vestingShares + δ)
    (hproxied : (f a).proxiedVsfVotes = a.proxiedVsfVotes)
    (ht : (p db.props).totalVestingShares = db.props.totalVestingShares + t)
    (h : ((db.modifyAccount account f).modifyProps p).adjustProxiedWitnessVotes1 account δ = .ok db') :
    Gained account δ t db db' := by
  obtain ⟨hwrites, hpolls⟩ := adjustProxiedWitnessVotes1_ok h
  have hwritten : ((db.modifyAccount account f).modifyProps p).polls =
      db.polls.addShares account δ := polls_addShares ha hproxy hshares hproxied
  refine ⟨mem_voters.mpr ⟨a, ha⟩, ?_, ?_, ?_, fun w hw => hwrites.keys.2 ▸ hw⟩
  · rw [polls_shares ha]
    exact hpos
  · rw [hpolls, hwritten]
  · rw [hwrites.props]
    exact ht

theorem Quiet.gained (hq : Quiet db db₁) (hg : Gained account δ t db₁ db₂) :
    Gained account δ t db db₂ where
  voter := hq.polls ▸ hg.voter
  pos := hq.polls ▸ hg.pos
  polls := hq.polls ▸ hg.polls
  total := hq.total ▸ hg.total
  witnesses w hw := hg.witnesses w (hq.witnesses w hw)

end DeltaChain.Ledger.Database

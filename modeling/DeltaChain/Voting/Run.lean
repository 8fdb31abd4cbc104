import DeltaChain.Vesting.Run
import DeltaChain.Voting.Retally

/-!
# The votes along every run

A run starts at genesis and mixes operations that accounts sign with the jobs of a block in
any order. In every state it reaches the proxies form a forest, the votes proxied to an
account are the shares at each distance below it, and the votes of a witness are those that
counting from scratch gives (`votes_exact`); they pass `validate_invariants` (`votes_validate`).

The null account is owned by nobody: its authorities name no key, so that no operation can be
signed for it.
-/

namespace DeltaChain.Voting

open Lib Lib.Forest Protocol Ledger Table Option
open Ledger.Database Checked

/-- What the rest of a block may set: the time, the feed, and the funds and supplies that
inflation and the other operations change. -/
structure Environment where
  headBlockNumber : Nat
  time : Nat
  medianHistory : Price
  currentVirtualTime : Nat
  accountCreationFee : Int
  virtualSupply : Int
  currentSupply : Int
  currentDbdSupply : Int
  totalVestingFundDelta : Int
  totalRewardFundDelta : Int
  dbdInterestRate : Nat
  dbdPrintRate : Nat

/-- The operations, and the jobs of a block, that the votes depend on. -/
inductive Event where
  | transferToVesting (fromAccount toAccount : AccountName) (amount : Asset)
  | claimRewardBalance (op : ClaimRewardBalance)
  | withdrawVesting (account : AccountName) (vestingShares : Int)
  | setWithdrawVestingRoute (fromAccount toAccount : AccountName) (percent : Nat) (autoVest : Bool)
  | accountWitnessVote (account witness : AccountName) (approve : Bool)
  | accountWitnessProxy (account proxy : AccountName)
  | declineVotingRights (account : AccountName) (decline : Bool)
  | witnessUpdate (op : WitnessUpdate)
  | accountCreate (creator newAccountName : AccountName) (fee : Int)
  | createVesting (toAccount : AccountName) (liquid : Asset) (toRewardBalance : Bool)
  | processVestingWithdrawals
  | processDeclineVotingRights
  | clearNullAccountBalance
  | restOfBlock (env : Environment)

def Event.signer : Event → Option AccountName
  | .transferToVesting fromAccount _ _ => some fromAccount
  | .claimRewardBalance op => some op.account
  | .withdrawVesting account _ => some account
  | .setWithdrawVestingRoute fromAccount _ _ _ => some fromAccount
  | .accountWitnessVote account _ _ => some account
  | .accountWitnessProxy account _ => some account
  | .declineVotingRights account _ => some account
  | .witnessUpdate op => some op.owner
  | .accountCreate creator _ _ => some creator
  | _ => none

/-- The rest of a block. -/
def Environment.set (env : Environment) (db : Database) : Database :=
  { db with
    medianHistory := env.medianHistory
    currentVirtualTime := env.currentVirtualTime
    accountCreationFee := env.accountCreationFee
    props :=
      { db.props with
        headBlockNumber := env.headBlockNumber
        time := env.time
        virtualSupply := env.virtualSupply
        currentSupply := env.currentSupply
        currentDbdSupply := env.currentDbdSupply
        totalVestingFundDelta := env.totalVestingFundDelta
        totalRewardFundDelta := env.totalRewardFundDelta
        dbdInterestRate := env.dbdInterestRate
        dbdPrintRate := env.dbdPrintRate } }

/-- What an event does to the state. -/
def Event.apply (db : Database) : Event → Checked Database
  | .transferToVesting fromAccount toAccount amount =>
    db.transferToVesting fromAccount toAccount amount
  | .claimRewardBalance op => db.claimRewardBalance op
  | .withdrawVesting account vestingShares => db.withdrawVesting account vestingShares
  | .setWithdrawVestingRoute fromAccount toAccount percent autoVest =>
    db.setWithdrawVestingRoute fromAccount toAccount percent autoVest
  | .accountWitnessVote account witness approve => db.accountWitnessVote account witness approve
  | .accountWitnessProxy account proxy => db.accountWitnessProxy account proxy
  | .declineVotingRights account decline => db.declineVotingRights account decline
  | .witnessUpdate op => db.witnessUpdate op
  | .accountCreate creator newAccountName fee => db.accountCreate creator newAccountName fee
  | .createVesting toAccount liquid toRewardBalance =>
    db.createVesting toAccount liquid toRewardBalance
  | .processVestingWithdrawals => db.processVestingWithdrawals
  | .processDeclineVotingRights => db.processDeclineVotingRights
  | .clearNullAccountBalance => db.clearNullAccountBalance
  | .restOfBlock env => return env.set db

def step (db : Database) (e : Event) : Checked Database := do
  assert (e.signer ≠ some nullAccount) "missing required active authority"
  e.apply db

variable {db db' : Database} {off : Int}

theorem step_sound {e : Event} (hs : VotesSound off db) (h : step db e = .ok db') :
    VotesSound off db' := by
  simp only [step, eq_ok] at h
  obtain ⟨hsigner, h⟩ := h
  cases e with
  | transferToVesting fromAccount toAccount amount => exact transferToVesting_sound hs h
  | claimRewardBalance op => exact claimRewardBalance_sound hs h
  | withdrawVesting account vestingShares => exact hs.quiet (withdrawVesting_quiet h)
  | setWithdrawVestingRoute fromAccount toAccount percent autoVest =>
    obtain ⟨routes, number, rfl⟩ := setWithdrawVestingRoute_eq_ok h
    have hroutes : Quiet db { db with withdrawVestingRoutes := routes } := ⟨rfl, rfl, fun _ hw => hw⟩
    exact hs.quiet (hroutes.trans (.modifyAccount fun _ _ => rfl))
  | accountWitnessVote account witness approve =>
    exact accountWitnessVote_sound hs (fun heq => hsigner (congrArg some heq)) h
  | accountWitnessProxy account proxy =>
    exact accountWitnessProxy_sound hs (fun heq => hsigner (congrArg some heq)) h
  | declineVotingRights account decline => exact hs.quiet (declineVotingRights_quiet h)
  | witnessUpdate op => exact hs.quiet (witnessUpdate_quiet h)
  | accountCreate creator newAccountName fee => exact accountCreate_sound hs h
  | createVesting toAccount liquid toRewardBalance => exact createVesting_sound hs h
  | processVestingWithdrawals =>
    exact payVestingWithdrawals_induct (VotesSound off) payVestingWithdrawal_sound hs h
  | processDeclineVotingRights => exact processDeclineVotingRights_sound hs h
  | clearNullAccountBalance => exact clearNullAccountBalance_sound hs h
  | restOfBlock env =>
    have hq : Quiet db (env.set db) := ⟨rfl, rfl, fun _ hw => hw⟩
    rw [Event.apply, pure_eq_ok] at h
    exact hs.quiet (h ▸ hq)

theorem run_sound {events : List Event} (hs : VotesSound off db)
    (h : Run.exec (Run.checked step) db events = some db') : VotesSound off db' :=
  Run.checked_induct (VotesSound off) (fun _ _ _ => step_sound) hs h

-- # What this says about accounts and witnesses

/-- **The votes are exact in every state of every run.** The proxies form a forest, the votes
proxied to an account are the shares of the accounts at each distance below it, and the votes
of every witness are the weights of those that vote for it without a proxy, which is what
`retally_witness_votes` counts. -/
theorem votes_exact (supply : Int) (events : List Event)
    (h : Run.exec (Run.checked step) (genesis supply) events = some db) :
    Acyclic db.polls.proxy ∧
    (∀ name a, db.accounts.find? name = some a → ∀ i, a.proxiedVsfVotes i =
      db.accounts.sum fun b c =>
        if up db.polls.proxy (i.val + 1) b = some name then c.vestingShares else 0) ∧
    (∀ name w, db.witnesses.find? name = some w → w.votes = db.accounts.sum fun b c =>
      if c.proxy = proxyToSelfAccount ∧ db.witnessVotes.find? (b, name) ≠ none then
        c.witnessVoteWeight else 0) ∧
    ∃ tallied, db.retallyWitnessVotes = .ok tallied ∧
      ∀ name, (tallied.witnesses.find? name).map Witness.votes =
        (db.witnesses.find? name).map Witness.votes := by
  have hs : VotesSound 0 db := run_sound (genesis_sound supply) h
  refine ⟨hs.tallied.acyclic, fun name a ha i => ?_, fun name w hw => ?_, ?_⟩
  · rw [← polls_proxied ha, hs.tallied.proxied name (mem_voters.mpr ⟨a, ha⟩) i, below_eq_sum]
    refine (sum_eq_sum_keys db.accounts _ _ fun b c hc => ?_).symm
    rw [polls_shares hc]
  · rw [← polls_votes hw, hs.tallied.votes_eq_tally, ← sum_counted]
    refine congrArg List.sum (List.map_congr_left fun e _ => ?_)
    exact if_congr (and_congr_right fun _ => mem_ballots) rfl rfl
  obtain ⟨tallied, hok, hkeys, hvotes⟩ := retally_same hs
  refine ⟨tallied, hok, fun name => ?_⟩
  have hname := hvotes name
  unfold polls at hname
  cases hw : db.witnesses.find? name with
  | none =>
    rw [find?_eq_none_iff, ← hkeys, ← find?_eq_none_iff] at hw
    rw [hw]
  | some w =>
    have hsome : (tallied.witnesses.find? name).isSome = true := by
      rw [find?_isSome_iff, hkeys, ← find?_isSome_iff, hw]
      rfl
    obtain ⟨w', hw'⟩ := isSome_iff_exists.mp hsome
    simp only [hw, hw', map_some, getD_some] at hname ⊢
    exact congrArg some hname

/-- The first witness votes for itself, and another account gives it its votes. -/
theorem votes_exact_proxied : ∃ db, Run.exec (Run.checked step) (genesis 1000000)
      [.transferToVesting initMinerName "" ⟨1000, .delta⟩,
        .accountWitnessVote initMinerName initMinerName true,
        .createVesting tempAccount ⟨500, .delta⟩ false,
        .accountWitnessProxy tempAccount initMinerName] = some db ∧
    Acyclic db.polls.proxy ∧
    (∀ name a, db.accounts.find? name = some a → ∀ i, a.proxiedVsfVotes i =
      db.accounts.sum fun b c =>
        if up db.polls.proxy (i.val + 1) b = some name then c.vestingShares else 0) := by
  refine Run.exists_end (P := fun _ => True) (by decide +kernel) fun _ h _ => ?_
  have hexact := votes_exact _ _ h
  exact ⟨hexact.1, hexact.2.1⟩

/-- **The votes pass `validate_invariants`** in every state of every run: no witness has more than
there are shares, and the votes of all accounts add up to the shares. -/
theorem votes_validate (supply : Int) (events : List Event)
    (h : Run.exec (Run.checked step) (genesis supply) events = some db) :
    (∀ w ∈ db.witnesses.entries, 0 ≤ w.2.votes ∧ w.2.votes ≤ db.props.totalVestingShares) ∧
      db.props.totalVestingShares = db.accounts.sum fun _ a => vsfVotes a := by
  have hs : VotesSound 0 db := run_sound (genesis_sound supply) h
  have htotal := hs.total.trans (add_zero _)
  refine ⟨fun w hw => ?_, ?_⟩
  · rw [← polls_votes (mem_entries_iff.mp hw), ← htotal]
    exact ⟨hs.tallied.votes_nonneg hs.nonneg _, hs.tallied.votes_le hs.nonneg _⟩
  · rw [Vesting.sum_vsfVotes hs.tallied, ← htotal]
    exact (sum_eq_sum_keys db.accounts _ _ fun _ _ hc => polls_shares hc).symm

theorem votes_validate_voted : ∃ db, Run.exec (Run.checked step) (genesis 1000000)
      [.transferToVesting initMinerName "" ⟨1000, .delta⟩,
        .accountWitnessVote initMinerName initMinerName true] = some db ∧
    db.props.totalVestingShares = db.accounts.sum fun _ a => vsfVotes a :=
  Run.exists_end (P := fun _ => True) (by decide +kernel) fun _ h _ => (votes_validate _ _ h).2

end DeltaChain.Voting

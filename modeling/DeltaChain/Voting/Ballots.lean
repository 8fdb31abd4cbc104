import DeltaChain.Voting.Operations

/-!
# Ballots and proxies

The operations that vote, set a proxy or give up voting rights keep `VotesSound`. Each is a
step of the abstract model: a ballot is cast or taken back, a voter is detached from its
proxy and ballots, or attached to a new proxy.

The last part is about the state itself: a new account, a new witness and the clearing of
the null account.
-/

namespace DeltaChain.Ledger.Database

open Lib Lib.Forest Protocol Voting Checked List Option Table

variable {db db' : Database} {name account witness : AccountName} {a : Account} {off : Int}

/-- Proxies, ballots and kept numbers may have changed, but not the shares. -/
structure Revoted (db db' : Database) : Prop where
  voters : db'.polls.voters = db.polls.voters
  shares : db'.polls.shares = db.polls.shares
  total : db'.props.totalVestingShares = db.props.totalVestingShares
  witnesses : db'.witnesses.keys = db.witnesses.keys

theorem VotesSound.revoted {p : Polls AccountName maxProxyRecursionDepth} (h : VotesSound off db)
    (hr : Revoted db db') (hpolls : db'.polls = p) (htallied : Tallied p)
    (hballot : ∀ a w, (a, w) ∈ p.ballots → w ∈ db.witnesses.keys ∧ a ≠ nullAccount)
    (hproxy : p.proxy nullAccount = none) : VotesSound off db' := by
  subst hpolls
  refine ⟨htallied, fun a w hb => hr.witnesses ▸ (hballot a w hb).1, hproxy,
    fun w hb => (hballot _ w hb).2 rfl, fun a ha => ?_, ?_⟩
  · rw [hr.shares]
    exact h.nonneg a (hr.voters ▸ ha)
  · rw [hr.voters, hr.shares, hr.total]
    exact h.total

theorem VotesSound.ballot (h : VotesSound off db) {a w : AccountName}
    (hb : (a, w) ∈ db.polls.ballots) : w ∈ db.witnesses.keys ∧ a ≠ nullAccount :=
  ⟨h.witness a w hb, fun ha => h.null_ballot w (ha ▸ hb)⟩

-- # Ballots

theorem polls_votes {w : Witness} (h : db.witnesses.find? witness = some w) :
    db.polls.votes witness = w.votes := by
  simp only [polls, h, map_some, getD_some]

theorem proxy?_of_self (h : a.proxy = proxyToSelfAccount) : a.proxy? = none := if_pos h

theorem polls_emplaceVote (b : AccountName × AccountName) :
    { db with witnessVotes := db.witnessVotes.emplace b () }.polls =
      { db.polls with ballots := insert b db.polls.ballots } := by
  have hballots : { db with witnessVotes := db.witnessVotes.emplace b () }.polls.ballots =
      insert b db.polls.ballots := by
    ext c
    rw [Finset.mem_insert, mem_ballots, mem_ballots, find?_emplace]
    by_cases hc : c = b <;> simp [hc]
  rw [← hballots]
  rfl

theorem polls_eraseVote (b : AccountName × AccountName) :
    { db with witnessVotes := db.witnessVotes.erase b }.polls =
      { db.polls with ballots := db.polls.ballots.erase b } := by
  have hballots : { db with witnessVotes := db.witnessVotes.erase b }.polls.ballots =
      db.polls.ballots.erase b := by
    ext c
    rw [Finset.mem_erase, mem_ballots, mem_ballots, find?_erase]
    by_cases hc : c = b <;> simp [hc]
  rw [← hballots]
  rfl

theorem polls_adjustWitnessVote {δ : Int} (h : db.adjustWitnessVote witness δ = .ok db') :
    db'.polls = { db.polls with
      votes := Function.update db.polls.votes witness (db.polls.votes witness + δ) } ∧
    db'.props = db.props ∧ db'.witnesses.keys = db.witnesses.keys := by
  obtain ⟨old, new, hold, hnew, rfl⟩ := adjustWitnessVote_ok h
  rw [polls_modifyWitness hold, hnew, ← polls_votes hold]
  exact ⟨rfl, rfl, keys_modify ..⟩

theorem accountWitnessVote_sound {approve : Bool} (hs : VotesSound off db)
    (hnull : account ≠ nullAccount)
    (h : db.accountWitnessVote account witness approve = .ok db') : VotesSound off db' := by
  simp only [accountWitnessVote, eq_ok, getAccount_eq_ok, getWitness_eq_ok] at h
  obtain ⟨a, ha, hself, -, w, hw, h⟩ := h
  have hvoter : account ∈ db.polls.voters := mem_voters.mpr ⟨a, ha⟩
  have hnone : db.polls.proxy account = none := (polls_proxy ha).trans (proxy?_of_self hself)
  have hkey : witness ∈ db.witnesses.keys :=
    find?_isSome_iff.mp (isSome_iff_exists.mpr ⟨w, hw⟩)
  split at h
  · next hnew =>
    -- a new ballot
    simp only [eq_ok] at h
    obtain ⟨-, -, db₁, hadj, rfl⟩ := h
    obtain ⟨hpolls, hprops, hkeys⟩ := polls_adjustWitnessVote hadj
    have hq : Quiet db₁ (db₁.modifyAccount account fun a =>
        { a with witnessesVotedFor := a.witnessesVotedFor + 1 }) := .modifyAccount fun _ _ => rfl
    rw [polls_emplaceVote, ← polls_weight ha] at hpolls
    have hcast : db₁.polls = db.polls.cast account witness := hpolls
    refine VotesSound.quiet ?_ hq
    have hfresh : (account, witness) ∉ db.polls.ballots := fun hb => mem_ballots.mp hb hnew
    refine hs.revoted ⟨hcast ▸ rfl, hcast ▸ rfl, hprops ▸ rfl, hkeys⟩ hcast
      (hs.tallied.cast hvoter hnone hfresh) (fun b v hb => ?_) hs.null_proxy
    rcases Finset.mem_insert.mp hb with heq | hb
    · obtain ⟨rfl, rfl⟩ := Prod.mk.inj heq
      exact ⟨hkey, hnull⟩
    · exact hs.ballot hb
  · next hold =>
    -- a ballot is taken back
    simp only [eq_ok] at h
    obtain ⟨-, db₁, hadj, rfl⟩ := h
    obtain ⟨hpolls, hprops, hkeys⟩ := polls_adjustWitnessVote hadj
    have hq : Quiet db₁ (db₁.modifyAccount account fun a =>
        { a with witnessesVotedFor := a.witnessesVotedFor - 1 }) := .modifyAccount fun _ _ => rfl
    set db₂ := db₁.modifyAccount account fun a =>
      { a with witnessesVotedFor := a.witnessesVotedFor - 1 } with hdb₂
    have huncast : { db₂ with witnessVotes := db₂.witnessVotes.erase (account, witness) }.polls =
        db.polls.uncast account witness := by
      rw [polls_eraseVote, hq.polls, hpolls, ← polls_weight ha]
      rfl
    have hballot : (account, witness) ∈ db.polls.ballots := mem_ballots.mpr hold
    exact hs.revoted ⟨huncast ▸ rfl, huncast ▸ rfl, congrArg (·.totalVestingShares) hprops, hkeys⟩
      huncast (hs.tallied.uncast hvoter hnone hballot)
      (fun _ _ hb => hs.ballot (Finset.mem_of_mem_erase hb)) hs.null_proxy

-- # Proxies

theorem polls_clearWitnessVotes :
    (db.clearWitnessVotes account).polls =
      { db.polls with ballots := db.polls.ballots.filter fun b => b.1 ≠ account } := by
  have hballots : (db.clearWitnessVotes account).polls.ballots =
      db.polls.ballots.filter fun b => b.1 ≠ account := by
    ext b
    rw [Finset.mem_filter, mem_ballots, mem_ballots]
    unfold clearWitnessVotes
    rw [Table.find?_filter]
    cases hb : db.witnessVotes.find? b with
    | none => simp
    | some u => simp [Option.filter]
  have hrest : (db.modifyAccount account fun a => { a with witnessesVotedFor := 0 }).polls =
      db.polls := polls_modifyAccount_of_eq fun _ _ => ⟨rfl, rfl, rfl⟩
  rw [← hballots, ← hrest]
  rfl

theorem find?_clearWitnessVotes (h : db.accounts.find? name = some a) :
    (db.clearWitnessVotes name).accounts.find? name = some { a with witnessesVotedFor := 0 } := by
  unfold clearWitnessVotes
  rw [find?_modify_self, h, map_some]

theorem polls_setProxy {f : Account → Account} (h : db.accounts.find? name = some a)
    (hshares : (f a).vestingShares = a.vestingShares)
    (hproxied : (f a).proxiedVsfVotes = a.proxiedVsfVotes) :
    (db.modifyAccount name f).polls =
      { db.polls with proxy := Function.update db.polls.proxy name (f a).proxy? } := by
  rw [polls_modifyAccount h, hshares, hproxied, ← polls_shares h, ← polls_proxied h]
  simp only [Function.update_eq_self]

theorem VoteWrites.find (h : VoteWrites db db') (ha : db.accounts.find? name = some a) :
    ∃ a', db'.accounts.find? name = some a' := by
  have hname : name ∈ db'.polls.voters := by
    have hkeys : db'.polls.voters = db.polls.voters := congrArg List.toFinset h.keys.1
    rw [hkeys]
    exact mem_voters.mpr ⟨a, ha⟩
  exact mem_voters.mp hname

section Detach

variable {db₁ : Database} (hs : VotesSound off db) (ha : db.accounts.find? account = some a)
  (hadj : db.adjustProxiedWitnessVotes account (-a.votingPower) = .ok db₁)

include hs ha hadj

/-- All votes of an account are removed, and its proxy and ballots are dropped. -/
theorem VotesSound.detached (hpolls : db'.polls = db₁.polls.reset account)
    (hprops : db'.props = db₁.props) (hkeys : db'.witnesses.keys = db₁.witnesses.keys) :
    VotesSound off db' := by
  obtain ⟨hwrites, hcredit⟩ := adjustProxiedWitnessVotes_ok hadj
  have htallied := hs.tallied.detach (mem_voters.mpr ⟨a, ha⟩)
  rw [polls_power ha] at htallied
  rw [hcredit] at hpolls
  refine hs.revoted ⟨hpolls ▸ rfl, hpolls ▸ rfl, ?_, hkeys.trans hwrites.keys.2⟩ hpolls htallied
    (fun _ _ hb => hs.ballot (Finset.mem_of_mem_filter _ hb)) ?_
  · rw [hprops, hwrites.props]
  · by_cases hn : nullAccount = account
    · rw [hn]
      exact cut_self
    · exact (cut_of_ne hn).trans hs.null_proxy

/-- All votes of an account are removed, and given to a new proxy. -/
theorem VotesSound.attached {db₂ : Database} {proxy : AccountName} (hnull : account ≠ nullAccount)
    (hproxy : proxy ∈ db.polls.voters) (hfree : ∀ k, up db.polls.proxy k proxy ≠ some account)
    (hpolls : db₂.polls = (db₁.polls.reset account).follow account proxy)
    (hprops : db₂.props = db₁.props) (hkeys : db₂.witnesses.keys = db₁.witnesses.keys)
    (hadd : db₂.adjustProxiedWitnessVotes account a.votingPower = .ok db') :
    VotesSound off db' := by
  obtain ⟨hwrites, hcredit⟩ := adjustProxiedWitnessVotes_ok hadj
  obtain ⟨hwrites', hcredit'⟩ := adjustProxiedWitnessVotes_ok hadd
  have hvoter : account ∈ db.polls.voters := mem_voters.mpr ⟨a, ha⟩
  have hdetached := hs.tallied.detach hvoter
  -- what the account passes to its new proxy is what it took from the old one
  have hpower : (db₁.polls.reset account).power account = a.votingPower := by
    have hkept : (db.polls.credit account (-a.votingPower)).power account =
      db.polls.power account := hs.tallied.power_credit
    rw [hcredit]
    exact hkept.trans (polls_power ha)
  rw [polls_power ha, ← hcredit] at hdetached
  have hfree' : ∀ k, up (db₁.polls.reset account).proxy k proxy ≠ some account := by
    intro k hup
    rw [hcredit] at hup
    exact hfree k (up_cut.mp hup).1
  have hballots : ∀ w, (account, w) ∉ (db₁.polls.reset account).ballots := fun w hw =>
    (Finset.mem_filter.mp hw).2 rfl
  have hvoters : (db₁.polls.reset account).voters = db.polls.voters := by
    rw [hcredit]
    rfl
  have htallied := hdetached.attach (hvoters ▸ hvoter) (hvoters ▸ hproxy) cut_self hballots hfree'
  rw [hpower, hcredit] at htallied
  rw [hpolls, hcredit] at hcredit'
  refine hs.revoted ⟨hcredit' ▸ rfl, hcredit' ▸ rfl, ?_, ?_⟩ hcredit' htallied
    (fun _ _ hb => hs.ballot (Finset.mem_of_mem_filter _ hb)) ?_
  · rw [hwrites'.props, hprops, hwrites.props]
  · exact hwrites'.keys.2.trans (hkeys.trans hwrites.keys.2)
  · refine (link_of_ne hnull.symm).trans ?_
    exact (cut_of_ne hnull.symm).trans hs.null_proxy

end Detach

/-- The chain of a new proxy that was checked does not lead back to an account met before. -/
theorem checkProxyChain_free {room : Nat} {proxyChain : List AccountName} {cprox x : AccountName}
    {u : Unit} (h : db.checkProxyChain room proxyChain cprox = .ok u) (hx : x ∈ proxyChain) :
    ∀ k, up db.polls.proxy (k + 1) cprox ≠ some x := by
  induction room generalizing proxyChain cprox with
  | zero =>
    intro k
    rw [checkProxyChain, bind_eq_ok] at h
    obtain ⟨a, ha, h⟩ := h
    split at h
    · simp at h
    · next hself =>
      rw [not_not] at hself
      rw [up_succ_none ((polls_proxy (getAccount_eq_ok.mp ha)).trans (proxy?_of_self hself))]
      simp
  | succ room ih =>
    intro k
    rw [checkProxyChain, bind_eq_ok] at h
    obtain ⟨a, ha, h⟩ := h
    split at h
    · next hproxy =>
      simp only [eq_ok] at h
      obtain ⟨p, -, hnew, h⟩ := h
      have hparent : db.polls.proxy cprox = some a.proxy :=
        (polls_proxy (getAccount_eq_ok.mp ha)).trans (if_neg hproxy)
      rw [up_succ_some hparent]
      cases k with
      | zero =>
        intro heq
        exact hnew (Option.some.inj heq ▸ hx)
      | succ k => exact ih h (mem_cons_of_mem _ hx) k
    · next hself =>
      rw [not_not] at hself
      rw [up_succ_none ((polls_proxy (getAccount_eq_ok.mp ha)).trans (proxy?_of_self hself))]
      simp

theorem accountWitnessProxy_sound {proxy : AccountName} (hs : VotesSound off db)
    (hnull : account ≠ nullAccount) (h : db.accountWitnessProxy account proxy = .ok db') :
    VotesSound off db' := by
  simp only [accountWitnessProxy, eq_ok, getAccount_eq_ok] at h
  obtain ⟨hself, a, ha, hchange, -, db₁, hadj, h⟩ := h
  obtain ⟨hwrites, hcredit⟩ := adjustProxiedWitnessVotes_ok hadj
  obtain ⟨a₁, ha₁⟩ := hwrites.find ha
  have hproxies : db₁.polls.proxy = db.polls.proxy := by
    rw [hcredit]
    rfl
  split at h
  · next hsome =>
    -- a new proxy
    simp only [bind_eq_ok, getAccount_eq_ok] at h
    obtain ⟨b, hb, u, hchain, hadd⟩ := h
    have hfree : ∀ k, up db.polls.proxy k proxy ≠ some account := by
      intro k
      cases k with
      | zero => exact fun heq => hself (Option.some.inj heq)
      | succ k =>
        rw [← hproxies]
        exact checkProxyChain_free hchain (by simp) k
    have hvoter : proxy ∈ db₁.polls.voters := mem_voters.mpr ⟨b, hb⟩
    rw [hcredit] at hvoter
    refine hs.attached ha hadj hnull hvoter hfree ?_ ?_ ?_ hadd
    case refine_2 => rfl
    case refine_3 => rfl
    rw [polls_setProxy (find?_clearWitnessVotes ha₁) rfl rfl, polls_clearWitnessVotes]
    have hproxy? : Account.proxy? { a₁ with witnessesVotedFor := 0, proxy := proxy } =
      some proxy := if_neg hsome
    rw [hproxy?]
    simp only [Polls.follow, Polls.reset, link, cut, Function.update_idem]
  · next hnone =>
    -- the account votes itself again; with a proxy it had no ballots
    rw [not_not] at hnone
    cases h
    refine hs.detached ha hadj ?_ rfl rfl
    have hhad : db.polls.proxy account = some a.proxy :=
      (polls_proxy ha).trans (if_neg fun heq => hchange (heq.trans hnone.symm))
    have hballots : db₁.polls.ballots.filter (fun b => b.1 ≠ account) = db₁.polls.ballots := by
      refine Finset.filter_true_of_mem fun b hb heq => ?_
      rw [hcredit] at hb
      have hnoproxy := (hs.tallied.ballot b.1 b.2 hb).2
      rw [heq, hhad] at hnoproxy
      cases hnoproxy
    rw [polls_setProxy ha₁ rfl rfl, Polls.reset, hballots, proxy?_of_self (hnone ▸ rfl)]
    rfl

theorem declineVotingRightsNow_sound (hs : VotesSound off db)
    (h : db.declineVotingRightsNow account = .ok db') : VotesSound off db' := by
  simp only [declineVotingRightsNow, eq_ok, getAccount_eq_ok] at h
  obtain ⟨a, ha, db₁, hadj, rfl⟩ := h
  obtain ⟨hwrites, -⟩ := adjustProxiedWitnessVotes_ok hadj
  obtain ⟨a₁, ha₁⟩ := hwrites.find ha
  refine hs.detached ha hadj ?_ rfl rfl
  have hset := polls_setProxy (f := fun a => { a with canVote := false, proxy := proxyToSelfAccount })
    (find?_clearWitnessVotes ha₁) rfl rfl
  rw [polls_clearWitnessVotes, proxy?_of_self rfl] at hset
  exact hset

theorem processDeclineVotingRights_sound (hs : VotesSound off db)
    (h : db.processDeclineVotingRights = .ok db') : VotesSound off db' :=
  foldlM_induct (VotesSound off) (fun _ _ _ _ hs => declineVotingRightsNow_sound hs) hs h

theorem declineVotingRights_quiet {decline : Bool}
    (h : db.declineVotingRights account decline = .ok db') : Quiet db db' := by
  simp only [declineVotingRights, bind_eq_ok, getAccount_eq_ok] at h
  obtain ⟨a, -, h⟩ := h
  split at h
  all_goals
    simp only [eq_ok] at h
    obtain ⟨-, rfl⟩ := h
    exact ⟨rfl, rfl, fun _ hw => hw⟩

-- # Accounts and witnesses

theorem Quiet.of_votes {witnesses : Table AccountName Witness} {nextId : Nat}
    (hvotes : ∀ n, ((witnesses.find? n).map Witness.votes).getD 0 =
      ((db.witnesses.find? n).map Witness.votes).getD 0)
    (hkeys : ∀ n ∈ db.witnesses.keys, n ∈ witnesses.keys) :
    Quiet db { db with witnesses := witnesses, nextWitnessId := nextId } := by
  refine ⟨?_, rfl, hkeys⟩
  have hfun : (fun n => ((witnesses.find? n).map Witness.votes).getD 0) = db.polls.votes :=
    funext hvotes
  have hpolls : { db with witnesses := witnesses, nextWitnessId := nextId }.polls =
      { db.polls with votes := fun n => ((witnesses.find? n).map Witness.votes).getD 0 } := rfl
  rw [hpolls, hfun]

theorem Quiet.modifyWitness {f : Witness → Witness} (hf : ∀ w, (f w).votes = w.votes) :
    Quiet db (db.modifyWitness name f) := by
  refine Quiet.of_votes (fun n => ?_) fun n hn => ?_
  · rw [find?_modify]
    split
    · rw [Option.map_map]
      congr 2
      exact funext hf
    · rfl
  · rwa [keys_modify]

/-- A new witness has no votes. -/
theorem Quiet.emplaceWitness {w : Witness} {n : Nat} (hnew : db.witnesses.find? name = none)
    (hw : w.votes = 0) :
    Quiet db { db with witnesses := db.witnesses.emplace name w, nextWitnessId := n } := by
  refine Quiet.of_votes (fun n => ?_) fun n hn => ?_
  · rw [find?_emplace, hnew]
    split
    · next hn =>
      subst hn
      rw [hnew]
      exact hw
    · rfl
  · rw [← find?_isSome_iff] at hn ⊢
    rw [find?_emplace]
    split
    · rfl
    · exact hn

theorem witnessUpdate_quiet {op : WitnessUpdate} (h : db.witnessUpdate op = .ok db') :
    Quiet db db' := by
  simp only [witnessUpdate, eq_ok] at h
  obtain ⟨-, -, -, _, -, -, -, h⟩ := h
  split at h
  · next hnew =>
    cases h
    exact Quiet.emplaceWitness hnew rfl
  · cases h
    exact Quiet.modifyWitness fun _ => rfl

theorem accountCreate_sound {newAccountName : AccountName} {fee : Int} (hs : VotesSound off db)
    (h : db.accountCreate account newAccountName fee = .ok db') : VotesSound off db' := by
  simp only [accountCreate, eq_ok, getAccount_eq_ok, get_eq_ok] at h
  obtain ⟨-, a, -, -, -, -, db₁, h₁, db₂, h₂, accounts, hinsert, rfl⟩ := h
  have hs₂ : VotesSound off db₂ := hs.quiet <|
    .settles ((adjustBalance_settles (by simp) h₁).trans (adjustBalance_settles (by simp) h₂))
  have hnew := (insert?_eq_some_iff.mp hinsert).1
  have hnone : db₂.accounts.find? newAccountName = none := find?_eq_none_iff.mpr hnew
  have hfresh : newAccountName ∉ db₂.polls.voters := fun hmem => hnew (List.mem_toFinset.mp hmem)
  have hzero : db₂.polls.shares newAccountName = 0 := by
    simp only [polls, hnone, map_none, getD_none]
  have hpolls : { db₂ with accounts := accounts }.polls = db₂.polls.join newAccountName := by
    have hread : ∀ {β : Type} (g : Option Account → β) (b : AccountName),
        g (some { votingManabar := { lastUpdateTime := db₂.headBlockTime } }) = g none →
        g (accounts.find? b) = g (db₂.accounts.find? b) := by
      intro β g b hg
      rw [find?_insert? hinsert]
      split
      · next hb => rw [hb, hnone, hg]
      · rfl
    unfold polls Polls.join
    have hkeys : accounts.keys = newAccountName :: db₂.accounts.keys := by
      unfold Table.keys
      rw [(insert?_eq_some_iff.mp hinsert).2]
      rfl
    simp only [hkeys, toFinset_cons]
    congr 1
    · funext b
      exact hread (fun o => o.bind Account.proxy?) b rfl
    · funext b
      exact hread (fun o => (o.map Account.vestingShares).getD 0) b rfl
    · funext b
      exact hread (fun o => (o.map Account.proxiedVsfVotes).getD 0) b rfl
  refine ⟨?_, ?_, ?_, ?_, ?_, ?_⟩
  · rw [hpolls]
    refine hs₂.tallied.join hfresh hzero ?_
    simp only [polls, hnone, map_none, getD_none]
  · intro b w hb
    rw [hpolls] at hb
    exact hs₂.witness b w hb
  · rw [hpolls]
    exact hs₂.null_proxy
  · rw [hpolls]
    exact hs₂.null_ballot
  · intro b hb
    rw [hpolls] at hb ⊢
    rcases Finset.mem_insert.mp hb with rfl | hb
    · exact hzero.ge
    · exact hs₂.nonneg b hb
  · rw [hpolls]
    refine Eq.trans ?_ hs₂.total
    refine (Finset.sum_insert hfresh).trans ?_
    exact (congrArg (· + _) hzero).trans (zero_add _)

/-- The null account loses its shares. Nobody can sign for it, so it neither votes nor has
a proxy, and there is nothing to pass on. -/
theorem VotesSound.burnt {p : GlobalProperties → GlobalProperties} (hs : VotesSound off db)
    (ha : db.accounts.find? nullAccount = some a)
    (ht : (p db.props).totalVestingShares = db.props.totalVestingShares - a.vestingShares) :
    VotesSound off ((db.modifyProps p).modifyAccount nullAccount fun a =>
      { a with vestingShares := 0 }) := by
  have hwritten : ((db.modifyProps p).modifyAccount nullAccount fun a =>
      { a with vestingShares := 0 }).polls =
        db.polls.addShares nullAccount (-a.vestingShares) :=
    polls_addShares (f := fun a => { a with vestingShares := 0 }) ha rfl
      (add_neg_cancel _).symm rfl
  have hg : Gained nullAccount (-a.vestingShares) (-a.vestingShares) db
      ((db.modifyProps p).modifyAccount nullAccount fun a => { a with vestingShares := 0 }) := by
    refine ⟨mem_voters.mpr ⟨a, ha⟩, ?_, ?_, ht, fun _ hw => hw⟩
    · rw [polls_shares ha, add_neg_cancel]
    · rw [hwritten]
      have hproxy : (db.polls.addShares nullAccount (-a.vestingShares)).proxy nullAccount = none :=
        hs.null_proxy
      exact (Tallied.credit_of_silent hproxy hs.null_ballot).symm
  simpa using hs.gained hg

theorem clearNullAccountBalance_sound (hs : VotesSound off db)
    (h : db.clearNullAccountBalance = .ok db') : VotesSound off db' := by
  obtain ⟨a, value, db₁, db₂, ha, -, h₁, h₂, hburn⟩ := clearNullAccountBalance_cases h
  have hq := Quiet.settles h₁
  have hs₁ := hs.quiet hq
  obtain rfl | ⟨-, rfl⟩ := hburn
  · exact hs₁.quiet (.settles h₂)
  · obtain ⟨a₁, ha₁⟩ : ∃ a₁, db₁.accounts.find? nullAccount = some a₁ := by
      rw [← mem_voters, hq.polls]
      exact mem_voters.mpr ⟨a, ha⟩
    have hshares : a.vestingShares = a₁.vestingShares := by
      rw [← polls_shares ha, ← polls_shares ha₁, hq.polls]
    have hburnt := hs₁.burnt ha₁ (p := fun g =>
      { g with
        totalVestingShares := g.totalVestingShares - a.vestingShares
        totalVestingFundDelta := g.totalVestingFundDelta - value })
      (congrArg (db₁.props.totalVestingShares - ·) hshares)
    exact hburnt.quiet (.settles h₂)

theorem genesis_account {supply : Int} (h : (genesis supply).accounts.find? name = some a) :
    voteFields a = (proxyToSelfAccount, 0, 0) := by
  have hmem : (name, a) ∈ (genesis supply).accounts.entries := mem_entries_iff.mpr h
  have hentries : (genesis supply).accounts.entries =
      [(initMinerName, { balance := supply }), (tempAccount, {}), (nullAccount, {}),
        (minerAccount, {})] := rfl
  simp only [hentries, mem_cons, Prod.mk.injEq, not_mem_nil, or_false] at hmem
  rcases hmem with ⟨-, rfl⟩ | ⟨-, rfl⟩ | ⟨-, rfl⟩ | ⟨-, rfl⟩
  all_goals rfl

theorem genesis_sound (supply : Int) : VotesSound 0 (genesis supply) := by
  have hread : ∀ {β : Type} (g : Option Account → β) (x : β), g none = x →
      (∀ a, voteFields a = (proxyToSelfAccount, 0, 0) → g (some a) = x) →
        ∀ b, g ((genesis supply).accounts.find? b) = x := by
    intro β g x hnone hsome b
    cases hb : (genesis supply).accounts.find? b with
    | none => exact hnone
    | some c => exact hsome c (genesis_account hb)
  have hproxy : ∀ b, (genesis supply).polls.proxy b = none :=
    hread (fun o => o.bind Account.proxy?) none rfl fun a ha =>
      proxy?_of_self (congrArg Prod.fst ha)
  have hshares : ∀ b, (genesis supply).polls.shares b = 0 :=
    hread (fun o => (o.map Account.vestingShares).getD 0) 0 rfl fun a ha =>
      congrArg (fun t => t.2.1) ha
  have hproxied : ∀ b, (genesis supply).polls.proxied b = 0 :=
    hread (fun o => (o.map Account.proxiedVsfVotes).getD 0) 0 rfl fun a ha =>
      congrArg (fun t => t.2.2) ha
  have hvotes : ∀ w, (genesis supply).polls.votes w = 0 := by
    intro w
    simp only [polls, genesis, find?_emplace, find?_empty]
    split <;> rfl
  have hballots : (genesis supply).polls.ballots = ∅ := rfl
  refine ⟨.init hproxy hballots hproxied hvotes, ?_, hproxy _, ?_, ?_, ?_⟩
  · intro b w hb
    simp [hballots] at hb
  · intro w hb
    simp [hballots] at hb
  · intro b _
    exact (hshares b).ge
  · rw [Finset.sum_eq_zero fun b _ => hshares b]
    rfl

end DeltaChain.Ledger.Database

import DeltaChain.Ledger.WitnessVotes
import DeltaChain.Voting.Credit

/-!
# The votes in the state

`Database.polls` reads voters, proxies, shares, ballots and the kept numbers off the state,
and the functions of the source that keep the numbers are steps of the abstract model:
`adjustProxiedWitnessVotes` is `Polls.credit` (`polls_adjustProxiedWitnessVotes`), in both
of its forms.

`VoteWrites` is what such a function may write to: the votes proxied to accounts, and
witnesses.
-/

namespace DeltaChain.Ledger

open Lib Protocol Voting Checked List Option Table Function

/-- The account this one votes through. -/
def Account.proxy? (a : Account) : Option AccountName :=
  if a.proxy = proxyToSelfAccount then none else some a.proxy

namespace Database

/-- The votes of the state. -/
def polls (db : Database) : Polls AccountName maxProxyRecursionDepth where
  voters := db.accounts.keys.toFinset
  proxy name := (db.accounts.find? name).bind Account.proxy?
  shares name := ((db.accounts.find? name).map Account.vestingShares).getD 0
  ballots := db.witnessVotes.keys.toFinset
  proxied name := ((db.accounts.find? name).map Account.proxiedVsfVotes).getD 0
  votes name := ((db.witnesses.find? name).map Witness.votes).getD 0

variable {db db' : Database} {name witness : AccountName} {a : Account} {f : Account → Account}

-- # Reading the votes

theorem mem_voters : name ∈ db.polls.voters ↔ ∃ a, db.accounts.find? name = some a := by
  rw [← isSome_iff_exists, find?_isSome_iff]
  exact List.mem_toFinset

theorem mem_ballots {b : AccountName × AccountName} :
    b ∈ db.polls.ballots ↔ db.witnessVotes.find? b ≠ none := by
  rw [ne_eq, find?_eq_none_iff, not_not]
  exact List.mem_toFinset

section

variable (h : db.accounts.find? name = some a)

include h

theorem polls_proxy : db.polls.proxy name = a.proxy? := by
  simp only [polls, h, bind_some]

theorem polls_shares : db.polls.shares name = a.vestingShares := by
  simp only [polls, h, map_some, getD_some]

theorem polls_proxied : db.polls.proxied name = a.proxiedVsfVotes := by
  simp only [polls, h, map_some, getD_some]

theorem polls_power : db.polls.power name = a.votingPower := by
  unfold Polls.power Account.votingPower
  rw [polls_shares h, polls_proxied h]

theorem polls_weight : db.polls.weight name = a.witnessVoteWeight := by
  unfold Polls.weight Account.witnessVoteWeight
  rw [polls_shares h, polls_proxied h]

theorem read_modifyAccount {β : Type} (f : Account → Account) (g : Option Account → β) :
    (fun b => g ((db.modifyAccount name f).accounts.find? b)) =
      update (fun b => g (db.accounts.find? b)) name (g (some (f a))) := by
  funext b
  unfold modifyAccount
  by_cases hb : b = name
  · subst hb
    rw [update_self, find?_modify_self, h, map_some]
  · rw [update_of_ne hb, find?_modify_ne _ _ hb]

theorem polls_modifyAccount (f : Account → Account) :
    (db.modifyAccount name f).polls =
      { db.polls with
        proxy := update db.polls.proxy name (f a).proxy?
        shares := update db.polls.shares name (f a).vestingShares
        proxied := update db.polls.proxied name (f a).proxiedVsfVotes } := by
  have hkeys : (db.modifyAccount name f).accounts.keys = db.accounts.keys := keys_modify ..
  have hproxy := read_modifyAccount h f fun o => o.bind Account.proxy?
  have hshares := read_modifyAccount h f fun o => (o.map Account.vestingShares).getD 0
  have hproxied := read_modifyAccount h f fun o => (o.map Account.proxiedVsfVotes).getD 0
  unfold polls
  rw [hkeys, hproxy, hshares, hproxied]
  rfl

theorem polls_addShares {δ : Int} (hproxy : (f a).proxy = a.proxy)
    (hshares : (f a).vestingShares = a.vestingShares + δ)
    (hproxied : (f a).proxiedVsfVotes = a.proxiedVsfVotes) :
    (db.modifyAccount name f).polls = db.polls.addShares name δ := by
  have hproxy? : (f a).proxy? = a.proxy? := by
    unfold Account.proxy?
    rw [hproxy]
  rw [polls_modifyAccount h, hproxy?, hshares, hproxied, ← polls_proxy h, ← polls_shares h,
    ← polls_proxied h]
  simp only [update_eq_self, Polls.addShares]

end

/-- Writing to an account what is no part of the votes. -/
theorem polls_modifyAccount_of_eq
    (hf : ∀ a, db.accounts.find? name = some a → (f a).proxy = a.proxy ∧
      (f a).vestingShares = a.vestingShares ∧ (f a).proxiedVsfVotes = a.proxiedVsfVotes) :
    (db.modifyAccount name f).polls = db.polls := by
  cases h : db.accounts.find? name with
  | none =>
    unfold modifyAccount
    rw [modify_of_none h]
  | some a =>
    obtain ⟨hproxy, hshares, hproxied⟩ := hf a h
    rw [polls_addShares h hproxy (hshares.trans (add_zero _).symm) hproxied]
    simp only [Polls.addShares, add_zero, update_eq_self]

theorem polls_modifyWitness {old : Witness} (h : db.witnesses.find? witness = some old)
    (f : Witness → Witness) :
    (db.modifyWitness witness f).polls =
      { db.polls with votes := update db.polls.votes witness (f old).votes } := by
  have hvotes : (db.modifyWitness witness f).polls.votes =
      update db.polls.votes witness (f old).votes := by
    funext w
    unfold polls modifyWitness
    by_cases hw : w = witness
    · subst hw
      simp only [update_self, find?_modify_self, h, map_some,
        getD_some]
    · simp only [update_of_ne hw, find?_modify_ne _ _ hw]
  rw [← hvotes]
  rfl

-- # What the vote functions write

/-- Writes to the votes proxied to accounts, and to witnesses. -/
inductive VoteWrites (db : Database) : Database → Prop where
  | refl : VoteWrites db db
  | proxied {db' : Database} (name : AccountName)
      (g : Account → Fin maxProxyRecursionDepth → Int) : VoteWrites db db' →
      VoteWrites db (db'.modifyAccount name fun a => { a with proxiedVsfVotes := g a })
  | witness {db' : Database} (name : AccountName) (f : Witness → Witness) :
      VoteWrites db db' → VoteWrites db (db'.modifyWitness name f)

namespace VoteWrites

theorem trans {db₁ db₂ db₃ : Database} (h₁ : VoteWrites db₁ db₂) (h₂ : VoteWrites db₂ db₃) :
    VoteWrites db₁ db₃ := by
  induction h₂ with
  | refl => exact h₁
  | proxied name g _ ih => exact ih.proxied name g
  | witness name f _ ih => exact ih.witness name f

theorem frame (h : VoteWrites db db') :
    db' = { db with accounts := db'.accounts, witnesses := db'.witnesses } := by
  induction h with
  | refl => rfl
  | proxied name g _ ih =>
    rw [ih]
    rfl
  | witness name f _ ih =>
    rw [ih]
    rfl

theorem read {β : Type} (h : VoteWrites db db') {g : Account → β}
    (hg : ∀ a q, g { a with proxiedVsfVotes := q } = g a) (name : AccountName) :
    (db'.accounts.find? name).map g = (db.accounts.find? name).map g := by
  induction h with
  | refl => rfl
  | proxied n q _ ih =>
    refine Eq.trans ?_ ih
    refine (congrArg (Option.map g) (find?_modify ..)).trans ?_
    split
    · rw [Option.map_map]
      exact congrArg (fun k => Option.map k _) (funext fun a => hg a _)
    · rfl
  | witness n f _ ih => exact ih

theorem sum {M : Type} [AddCommGroup M] (h : VoteWrites db db') {g : AccountName → Account → M}
    (hg : ∀ n a q, g n { a with proxiedVsfVotes := q } = g n a) :
    db'.accounts.sum g = db.accounts.sum g := by
  induction h with
  | refl => rfl
  | proxied n q _ ih => exact (sum_modify_of_eq fun a => hg n a _).trans ih
  | witness n f _ ih => exact ih

theorem keys (h : VoteWrites db db') :
    db'.accounts.keys = db.accounts.keys ∧ db'.witnesses.keys = db.witnesses.keys := by
  induction h with
  | refl => exact ⟨rfl, rfl⟩
  | proxied n q _ ih => exact ⟨(keys_modify ..).trans ih.1, ih.2⟩
  | witness n f _ ih => exact ⟨ih.1, (keys_modify ..).trans ih.2⟩

end VoteWrites

-- # The vote functions

theorem adjustWitnessVote_ok {δ : Int} (h : db.adjustWitnessVote witness δ = .ok db') :
    ∃ old new : Witness, db.witnesses.find? witness = some old ∧ new.votes = old.votes + δ ∧
      db' = db.modifyWitness witness fun _ => new := by
  unfold adjustWitnessVote at h
  simp only [eq_ok, getWitness_eq_ok] at h
  obtain ⟨old, hold, -, -, rfl⟩ := h
  exact ⟨old, _, hold, rfl, rfl⟩

theorem adjust_loop (δ : Int) : ∀ (ws : List AccountName) (db db' : Database), ws.Nodup →
    ws.foldlM (fun db w => db.adjustWitnessVote w δ) db = .ok db' → VoteWrites db db' ∧
      db'.polls = { db.polls with votes := fun w => db.polls.votes w + if w ∈ ws then δ else 0 } := by
  intro ws
  induction ws with
  | nil =>
    intro db db' _ h
    cases h
    refine ⟨.refl, ?_⟩
    simp only [not_mem_nil, if_false, add_zero]
  | cons v ws ih =>
    intro db db' hn h
    rw [foldlM_cons, bind_eq_ok] at h
    obtain ⟨db₁, hstep, hrest⟩ := h
    obtain ⟨old, new, hold, hnew, rfl⟩ := adjustWitnessVote_ok hstep
    rw [nodup_cons] at hn
    obtain ⟨hwrites, hpolls⟩ := ih _ _ hn.2 hrest
    refine ⟨(VoteWrites.refl.witness v _).trans hwrites, ?_⟩
    rw [hpolls, polls_modifyWitness hold]
    simp only [hnew, Polls.mk.injEq, true_and]
    funext w
    by_cases hw : w = v
    · -- the first witness does not come again
      subst hw
      have hvotes : db.polls.votes w = old.votes := by
        simp only [polls, hold, map_some, getD_some]
      rw [update_self, if_neg hn.1, add_zero, if_pos mem_cons_self, hvotes]
    · rw [update_of_ne hw]
      simp only [mem_cons, hw, false_or]

theorem mem_votedFor {account : AccountName} :
    witness ∈ db.votedFor account ↔ (account, witness) ∈ db.polls.ballots := by
  unfold votedFor polls
  simp only [List.mem_map, mem_filter, decide_eq_true_eq, List.mem_toFinset]
  constructor
  · rintro ⟨⟨b, w⟩, ⟨hmem, rfl⟩, rfl⟩
    exact hmem
  · intro hmem
    exact ⟨(account, witness), ⟨hmem, rfl⟩, rfl⟩

theorem votedFor_nodup (account : AccountName) : (db.votedFor account).Nodup := by
  refine List.Nodup.map_on ?_ (db.witnessVotes.nodup.filter _)
  rintro ⟨b, w⟩ hb ⟨c, v⟩ hc (rfl : w = v)
  simp only [mem_filter, decide_eq_true_eq] at hb hc
  rw [hb.2, hc.2]

theorem addProxied_eq (p : Account) (delta : VoteDelta) (depth : Nat) :
    (p.addProxied delta depth).proxiedVsfVotes = fun j =>
      p.proxiedVsfVotes j + ∑ i, if i.val + depth = j.val then delta i else 0 := by
  funext j
  unfold Account.addProxied
  simp only
  split
  · next hj =>
    rw [Finset.sum_eq_single ⟨j.val - depth, by omega⟩]
    · rw [if_pos (Nat.sub_add_cancel hj)]
    · intro i _ hi
      refine if_neg fun h => hi (Fin.ext ?_)
      exact Nat.eq_sub_of_add_eq h
    · exact fun h => absurd (Finset.mem_univ _) h
  · next hj =>
    rw [Finset.sum_eq_zero, add_zero]
    intro i _
    exact if_neg fun h => by omega

theorem polls_addProxied (h : db.accounts.find? name = some a) (delta : VoteDelta) (depth : Nat) :
    (db.modifyAccount name fun p => p.addProxied delta depth).polls =
      db.polls.addProxied name delta depth := by
  have hproxy : (a.addProxied delta depth).proxy? = a.proxy? := rfl
  have hshares : (a.addProxied delta depth).vestingShares = a.vestingShares := rfl
  rw [polls_modifyAccount h, hproxy, hshares, addProxied_eq, ← polls_proxy h, ← polls_shares h,
    ← polls_proxied h, update_eq_self, update_eq_self]
  rfl

section
variable {account q : AccountName} {delta : VoteDelta} {levels : Nat}

theorem adjustProxiedLevels_none (hname : account ∈ db.polls.voters)
    (hc : db.polls.proxy account = none) :
    adjustProxiedLevels delta levels db account = db.adjustWitnessVotes account (∑ i,
      if i.val + (maxProxyRecursionDepth - levels) ≤ maxProxyRecursionDepth then delta i else 0) := by
  obtain ⟨a, ha⟩ := mem_voters.mp hname
  rw [polls_proxy ha, Account.proxy?] at hc
  rw [adjustProxiedLevels, getAccount_eq_ok.mpr ha, ok_bind]
  split at hc
  case isTrue hself => exact if_neg (not_not.mpr hself)
  case isFalse => cases hc

theorem polls_proxy_eq_some (hc : db.polls.proxy account = some q) :
    ∃ a, db.getAccount account = .ok a ∧ a.proxy = q ∧ q ≠ proxyToSelfAccount := by
  obtain ⟨a, ha, hc⟩ := bind_eq_some_iff.mp hc
  rw [Account.proxy?] at hc
  split at hc
  case isTrue => cases hc
  case isFalse hself =>
    cases hc
    exact ⟨a, getAccount_eq_ok.mpr ha, rfl, hself⟩

theorem adjustProxiedLevels_zero (hc : db.polls.proxy account = some q) :
    adjustProxiedLevels delta 0 db account = .ok db := by
  obtain ⟨a, ha, rfl, hself⟩ := polls_proxy_eq_some hc
  rw [adjustProxiedLevels, ha, ok_bind]
  exact if_pos hself

theorem adjustProxiedLevels_succ (hc : db.polls.proxy account = some q) :
    adjustProxiedLevels delta (levels + 1) db account = db.getAccount q >>= fun _ =>
      adjustProxiedLevels delta levels (db.modifyAccount q fun p =>
        p.addProxied delta (maxProxyRecursionDepth - (levels + 1))) q := by
  obtain ⟨a, ha, rfl, hself⟩ := polls_proxy_eq_some hc
  rw [adjustProxiedLevels, ha, ok_bind]
  exact if_pos hself

theorem mem_voters_of_climb (h : adjustProxiedLevels delta levels db account = .ok db') :
    account ∈ db.polls.voters := by
  rw [adjustProxiedLevels.eq_def] at h
  obtain ⟨a, ha, -⟩ := bind_eq_ok.mp h
  exact mem_voters.mpr ⟨a, getAccount_eq_ok.mp ha⟩

/-- The climb of the source is the climb of the abstract model. -/
theorem adjustProxiedLevels_ok (h : adjustProxiedLevels delta levels db account = .ok db') :
    VoteWrites db db' ∧ db'.polls = db.polls.creditLevels delta levels account := by
  induction levels generalizing db account <;> cases hc : db.polls.proxy account
  case zero.none | succ.none =>
    rw [adjustProxiedLevels_none (mem_voters_of_climb h) hc] at h
    obtain ⟨hwrites, hpolls⟩ := adjust_loop _ _ _ _ (votedFor_nodup account) h
    refine ⟨hwrites, hpolls.trans ?_⟩
    simp only [creditLevels_none hc, mem_votedFor, Polls.addVotes]
  case zero.some =>
    cases (adjustProxiedLevels_zero hc).symm.trans h
    exact ⟨.refl, (creditLevels_zero hc).symm⟩
  case succ.some levels ih q =>
    rw [adjustProxiedLevels_succ hc] at h
    obtain ⟨p, hp, h⟩ := bind_eq_ok.mp h
    obtain ⟨hwrites, hpolls⟩ := ih h
    refine ⟨VoteWrites.trans ?_ hwrites, ?_⟩
    · exact VoteWrites.refl.proxied q fun p => (p.addProxied delta _).proxiedVsfVotes
    · rw [creditLevels_succ hc, hpolls, polls_addProxied (getAccount_eq_ok.mp hp)]

end

theorem addProxied1_eq (p : Account) (δ : Int) (depth : Nat) :
    p.addProxied1 δ depth = p.addProxied (single δ) depth := by
  unfold Account.addProxied1 Account.addProxied
  congr 1
  funext j
  rcases Nat.lt_trichotomy j.val depth with hlt | heq | hgt
  · rw [if_neg hlt.ne, if_neg (Nat.not_le.mpr hlt)]
  · rw [if_pos heq, if_pos heq.ge, single_apply]
    simp [heq]
  · rw [if_neg hgt.ne', if_pos hgt.le, single_apply, Pi.single_eq_of_ne, add_zero]
    exact (Nat.sub_pos_of_lt hgt).ne'

theorem sum_single (δ : Int) (levels : Nat) : (∑ i : Fin (maxProxyRecursionDepth + 1),
    if i.val + (maxProxyRecursionDepth - levels) ≤ maxProxyRecursionDepth then single δ i else 0) =
      δ := by
  rw [Fin.sum_univ_succ, Finset.sum_eq_zero, add_zero, if_pos]
  · rfl
  · simp
  · intro i _
    exact ite_self _

theorem adjustProxiedLevels1_eq (δ : Int) (levels : Nat) (db : Database) (account : AccountName) :
    adjustProxiedLevels1 δ levels db account = adjustProxiedLevels (single δ) levels db account := by
  induction levels generalizing db account with
  | zero =>
    rw [adjustProxiedLevels1, adjustProxiedLevels]
    simp only [sum_single]
  | succ levels ih =>
    rw [adjustProxiedLevels1, adjustProxiedLevels]
    simp only [sum_single, addProxied1_eq, ih]

variable {account : AccountName}

/-- **The climb.** A change of an account's voting power is credited to everybody above. -/
theorem adjustProxiedWitnessVotes_ok {delta : VoteDelta}
    (h : db.adjustProxiedWitnessVotes account delta = .ok db') :
    VoteWrites db db' ∧ db'.polls = db.polls.credit account delta := by
  rw [← creditLevels_eq_credit]
  exact adjustProxiedLevels_ok h

theorem adjustProxiedWitnessVotes1_ok {δ : Int}
    (h : db.adjustProxiedWitnessVotes1 account δ = .ok db') :
    VoteWrites db db' ∧ db'.polls = db.polls.credit account (single δ) := by
  rw [adjustProxiedWitnessVotes1, adjustProxiedLevels1_eq] at h
  exact adjustProxiedWitnessVotes_ok h

end Database

end DeltaChain.Ledger

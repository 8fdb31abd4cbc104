import DeltaChain.Delegation.Run
import DeltaChain.Rc.Regrowth

/-!
# Lent mana

Shares that are lent take their mana with them, and shares that are taken back leave the delegatee
with less mana and a lower maximum. There is never a negative mana that `use_mana` could round up to
zero: whatever is written to a manabar went through `use_mana`, or grew out of what was there.

* `delegateVestingShares_cases`: what `delegate_vesting_shares` does to the two accounts.
* `step_solvent`, `manaStep_solvent`: no operation leaves an account with less than no mana.
* `delegation_makes_no_mana`: along every run, no delegation makes mana.
-/

namespace DeltaChain.Ledger.Account

open Lib Protocol Checked Table Manabar Account Option

/-- The mana, of an account that is up to date. -/
def mana (a : Account) : Int := a.votingManabar.currentMana

/-- What lending does to the delegator. -/
def lend (a : Account) (shares : Int) : Account :=
  { a with
    delegatedVestingShares := a.delegatedVestingShares + shares
    votingManabar := a.votingManabar.useMana shares }

/-- What lending does to the delegatee. -/
def borrow (a : Account) (shares : Int) : Account :=
  { a with
    receivedVestingShares := a.receivedVestingShares + shares
    votingManabar := a.votingManabar.useMana (-shares) }

variable {a a₁ : Account} {now : Nat}

theorem mana_lend {shares : Int} (hshares : 0 ≤ shares) (hle : shares ≤ a.mana)
    (hfits : a.mana ≤ int64Max) : (a.lend shares).mana = a.mana - shares := by
  refine (useMana_currentMana _ _).trans ?_
  unfold mana at *
  omega

theorem mana_borrow {shares : Int} (hshares : 0 ≤ shares) (hmana : 0 ≤ a.mana) :
    0 ≤ (a.borrow shares).mana ∧ (a.borrow shares).mana ≤ a.mana + shares := by
  have hvalue : (a.borrow shares).mana = _ := useMana_currentMana _ _
  unfold mana at *
  omega

theorem mana_loseReceived {shares : Int} (hshares : 0 ≤ shares) (hmana : 0 ≤ a.mana) :
    0 ≤ (a.loseReceived shares).mana ∧ (a.loseReceived shares).mana ≤ a.mana := by
  have hvalue := useMana_currentMana a.votingManabar shares
  simp only [mana, loseReceived] at *
  split_ifs <;> omega

theorem availableShares_le_mana (a : Account) (maxMana : Int) : a.availableShares maxMana ≤ a.mana := by
  simp only [availableShares, mana]
  split <;> omega

/-- The account, brought up to date. -/
theorem regenerateVotingMana_eq_ok (hfits : a.effectiveVestingShares ≤ int64Max) (hmana : 0 ≤ a.mana)
    (h : a.regenerateVotingMana now = .ok a₁) :
    0 ≤ a.effectiveVestingShares ∧ a.votingManabar.lastUpdateTime ≤ now ∧
      a₁.votingManabar.lastUpdateTime = now ∧ a₁.mana =
        a.votingManabar.regrown a.effectiveVestingShares votingManaRegenerationSeconds now := by
  simp only [regenerateVotingMana, eq_ok] at h
  obtain ⟨bar, hbar, rfl⟩ := h
  obtain ⟨hmax, htime, rfl⟩ := regenerate_eq false (by decide) hfits
    (le_trans (by decide) hmana) (fun _ => hmana) hbar
  exact ⟨hmax, htime, rfl, rfl⟩

end DeltaChain.Ledger.Account

namespace DeltaChain.Delegation

open Lib Protocol Ledger Ledger.Database Checked Table Manabar Account

variable {db db' : Database} {delegator delegatee : AccountName} {shares : Int}

/-- The shares of a delegation. -/
def lent (db : Database) (delegator delegatee : AccountName) : Int :=
  ((db.vestingDelegations.find? (delegator, delegatee)).map (·.vestingShares)).getD 0

theorem lendShares_accounts {a b : Account}
    (h : db.lendShares delegator delegatee shares = .ok db') (hne : delegator ≠ delegatee)
    (ha : db.accounts.find? delegator = some a) (hb : db.accounts.find? delegatee = some b) :
    ∃ b₁, b.regenerateVotingMana db.headBlockTime = .ok b₁ ∧
      db'.accounts.find? delegator = some (a.lend shares) ∧
      db'.accounts.find? delegatee = some (b₁.borrow shares) := by
  simp only [lendShares, eq_ok, getAccount_eq_ok] at h
  obtain ⟨b', hb', b₂, hmana, rfl⟩ := h
  obtain rfl : b = b' :=
    Option.some.inj (hb.symm.trans ((find?_modify_ne _ _ hne.symm).symm.trans hb'))
  simp only [Account.gainVotingMana, eq_ok] at hmana
  obtain ⟨b₁, hb₁, rfl⟩ := hmana
  refine ⟨_, hb₁, ?_, ?_⟩
  · simp only [Database.modifyAccount, find?_modify_ne _ _ hne, find?_modify_self, ha]
    rfl
  · simp only [Database.modifyAccount, find?_modify_self, find?_modify_ne _ _ hne.symm, hb]
    rfl

/-- **What a delegation does to the two accounts.** Either shares are lent, or they are taken back. -/
theorem delegateVestingShares_cases (h : db.delegateVestingShares delegator delegatee shares = .ok db') :
    ∃ a a₁ b, db.accounts.find? delegator = some a ∧
      a.regenerateVotingMana db.headBlockTime = .ok a₁ ∧ db.accounts.find? delegatee = some b ∧
      ((∃ b₁, lent db delegator delegatee ≤ shares ∧
          b.regenerateVotingMana db.headBlockTime = .ok b₁ ∧
          shares - lent db delegator delegatee ≤ a₁.mana ∧
          db'.accounts.find? delegator = some (a₁.lend (shares - lent db delegator delegatee)) ∧
          db'.accounts.find? delegatee = some (b₁.borrow (shares - lent db delegator delegatee))) ∨
        shares < lent db delegator delegatee ∧ db'.accounts.find? delegator = some a₁ ∧
          db'.accounts.find? delegatee =
            some (b.loseReceived (lent db delegator delegatee - shares))) := by
  simp only [delegateVestingShares, eq_ok, getAccount_eq_ok] at h
  obtain ⟨hne, hnonneg, a, ha, b, hb, a₁, hmana, minDelegation, -, minUpdate, -, hstore⟩ := h
  refine ⟨a, a₁, b, ha, hmana, hb, ?_⟩
  have ha₁ : (db.modifyAccount delegator fun _ => a₁).accounts.find? delegator = some a₁ := by
    rw [Database.modifyAccount, find?_modify_self, ha]
    rfl
  have hb₁ : (db.modifyAccount delegator fun _ => a₁).accounts.find? delegatee = some b :=
    (find?_modify_ne _ _ hne.symm).trans hb
  have havailable := a₁.availableShares_le_mana a.effectiveVestingShares
  unfold storeDelegation at hstore
  split at hstore
  case h_1 hnone =>
    have hlent : lent db delegator delegatee = 0 := by
      unfold lent
      rw [show db.vestingDelegations.find? (delegator, delegatee) = none from hnone]
      rfl
    simp only [createDelegation, eq_ok] at hstore
    obtain ⟨henough, -, hlend⟩ := hstore
    obtain ⟨b₁, hregen, hdelegator, hdelegatee⟩ := lendShares_accounts hlend hne ha₁ hb₁
    rw [hlent, sub_zero]
    exact .inl ⟨b₁, hnonneg, hregen, by omega, hdelegator, hdelegatee⟩
  case h_2 d hd =>
    have hlent : lent db delegator delegatee = d.vestingShares := by
      unfold lent
      rw [show db.vestingDelegations.find? (delegator, delegatee) = some d from hd]
      rfl
    rw [hlent]
    split at hstore
    case isTrue hmore =>
      simp only [increaseDelegation, eq_ok] at hstore
      obtain ⟨-, henough, db₁, hlend, rfl⟩ := hstore
      obtain ⟨b₁, hregen, hdelegator, hdelegatee⟩ := lendShares_accounts hlend hne ha₁ hb₁
      exact .inl ⟨b₁, hmore, hregen, by omega, hdelegator, hdelegatee⟩
    case isFalse hless =>
      simp only [decreaseDelegation, eq_ok] at hstore
      obtain ⟨-, -, rfl⟩ := hstore
      refine .inr ⟨not_le.mp hless, (find?_modify_ne _ _ hne).trans ha₁, ?_⟩
      show (modify _ _ _).find? _ = _
      rw [find?_modify_self, hb₁]
      rfl

/-- The mana of an account at this time, under its own maximum. -/
def manaNow (db : Database) (now : Nat) (name : AccountName) : Checked Int := do
  let a ← db.getAccount name
  let a ← a.regenerateVotingMana now
  return a.mana

theorem manaNow_eq {name : AccountName} {a : Account} {now : Nat}
    (ha : db.accounts.find? name = some a) (hfits : a.effectiveVestingShares ≤ int64Max)
    (hmana : 0 ≤ a.mana) (hmax : 0 ≤ a.effectiveVestingShares)
    (htime : a.votingManabar.lastUpdateTime ≤ now) : manaNow db now name =
      .ok (a.votingManabar.regrown a.effectiveVestingShares votingManaRegenerationSeconds now) := by
  obtain ⟨bar, hbar⟩ : ∃ bar, a.votingManabar.regenerateMana
      ⟨a.effectiveVestingShares, votingManaRegenerationSeconds⟩ now = .ok bar :=
    regenerateMana_isOk (by decide) hmax hfits htime
  have h : a.regenerateVotingMana now = .ok { a with votingManabar := bar } := by
    rw [regenerateVotingMana, hbar]
    rfl
  rw [manaNow, getAccount_eq_ok.mpr ha, ok_bind, h, ok_bind,
    (regenerateVotingMana_eq_ok hfits hmana h).2.2.2]
  rfl

-- # No account has less than no mana

/-- No account has less than no mana. -/
def Solvent (db : Database) : Prop := ∀ name a, db.accounts.find? name = some a → 0 ≤ a.mana

namespace Solvent

theorem of_accounts (hs : Solvent db) (h : db'.accounts = db.accounts) : Solvent db' := by
  intro name a ha
  rw [h] at ha
  exact hs name a ha

theorem modifyAccount {name : AccountName} {f : Account → Account} (hs : Solvent db)
    (hf : ∀ a, 0 ≤ a.mana → 0 ≤ (f a).mana) : Solvent (db.modifyAccount name f) := by
  intro n a ha
  rw [Database.modifyAccount, find?_modify] at ha
  split at ha
  · next hn =>
    subst hn
    obtain ⟨b, hb, rfl⟩ := Option.map_eq_some_iff.mp ha
    exact hf b (hs n b hb)
  · exact hs n a ha

theorem gains (hs : Solvent db) (h : Gains db db') : Solvent db' := by
  intro name a' ha'
  obtain ⟨a, ha, hg⟩ := h.find_back ha'
  exact hg.mana (hs name a ha)

/-- No change of balances writes to a manabar. -/
theorem rebalances {name : AccountName} {s r d : Int} (hs : Solvent db)
    (h : Rebalances name s r d db db') : Solvent db' := by
  obtain ⟨f, dbdSupply, virtualSupply, hf, rfl⟩ := h
  refine (hs.of_accounts rfl).modifyAccount fun a hmana => ?_
  rw [hf a]
  exact hmana

end Solvent

variable {name : AccountName} {a a₁ : Account}

theorem gainVotingMana_solvent {now : Nat} (h : a.gainVotingMana shares now = .ok a₁) :
    0 ≤ a₁.mana := by
  obtain ⟨bar, rfl, hbar⟩ := gainVotingMana_eq h
  exact hbar

section

variable (hs : Solvent db)

include hs

theorem createVesting_solvent {liquid : Asset} {toRewardBalance : Bool}
    (h : db.createVesting name liquid toRewardBalance = .ok db') : Solvent db' := by
  simp only [createVesting, createVesting2, eq_ok] at h
  obtain ⟨_, ⟨-, sharePrice, -, newVesting, -, db₂, hstore, rfl⟩, rfl⟩ := h
  cases toRewardBalance with
  | true => exact hs.gains (addRewardVesting_gains hstore)
  | false =>
    simp only [storeVesting, Bool.false_eq_true, if_false, addVesting, eq_ok] at hstore
    obtain ⟨a, -, a₁, hmana, db₁, hbalance, hclimb⟩ := hstore
    have hgain : Solvent (db.modifyAccount name fun _ => a₁) :=
      hs.modifyAccount fun _ _ => gainVotingMana_solvent hmana
    have hpaid := hgain.rebalances (adjustBalance_rebalances hbalance)
    exact hpaid.gains ((adjustProxiedWitnessVotes1_gains hclimb).props_then fun _ => rfl)

theorem lendShares_solvent (h : db.lendShares delegator delegatee shares = .ok db') :
    Solvent db' := by
  simp only [lendShares, eq_ok] at h
  obtain ⟨b, -, b₁, hmana, rfl⟩ := h
  have hlent : Solvent (db.modifyAccount delegator (·.lend shares)) :=
    hs.modifyAccount fun _ _ => useMana_nonneg _ _
  have hgain := gainVotingMana_solvent hmana
  exact hlent.modifyAccount fun _ _ => hgain

theorem storeDelegation_solvent {available minDelegation minUpdate : Int}
    (h : db.storeDelegation delegator delegatee shares available minDelegation minUpdate = .ok db') :
    Solvent db' := by
  unfold storeDelegation at h
  split at h
  · simp only [createDelegation, eq_ok] at h
    obtain ⟨-, -, hlend⟩ := h
    refine lendShares_solvent ?_ hlend
    exact hs.of_accounts rfl
  · next d _ =>
    split at h
    · simp only [increaseDelegation, eq_ok] at h
      obtain ⟨-, -, db₁, hlend, rfl⟩ := h
      exact (lendShares_solvent hs hlend).of_accounts rfl
    · simp only [decreaseDelegation, eq_ok] at h
      obtain ⟨-, -, rfl⟩ := h
      have hlost : Solvent (db.modifyAccount delegatee (·.loseReceived (d.vestingShares - shares))) := by
        refine hs.modifyAccount fun a _ => ?_
        simp only [mana, loseReceived]
        split <;> omega
      exact hlost.of_accounts rfl

theorem delegateVestingShares_solvent
    (h : db.delegateVestingShares delegator delegatee shares = .ok db') : Solvent db' := by
  simp only [delegateVestingShares, eq_ok, getAccount_eq_ok] at h
  obtain ⟨-, -, a, ha, -, -, a₁, hmana, minDelegation, -, minUpdate, -, hstore⟩ := h
  obtain ⟨bar, rfl, hbar⟩ := regenerateVotingMana_eq hmana
  refine storeDelegation_solvent ?_ hstore
  exact hs.modifyAccount fun _ _ => hbar (hs delegator a ha)

theorem withdrawVesting_solvent (h : db.withdrawVesting name shares = .ok db') : Solvent db' := by
  simp only [withdrawVesting, eq_ok] at h
  obtain ⟨a, -, -, -, -, h⟩ := h
  split at h
  all_goals
    simp only [eq_ok] at h
    obtain ⟨-, rfl⟩ := h
    exact hs.modifyAccount fun _ hmana => hmana

theorem processVestingWithdrawals_solvent (h : db.processVestingWithdrawals = .ok db') :
    Solvent db' := by
  refine Withdrawals.process_induct (fun _ => Solvent) (fun log db₁ name db₂ hs₁ _ hpay => ?_) hs h
  obtain ⟨_, _, _, db₃, _, _, hroutes, hvotes⟩ := payVestingWithdrawal_gains hpay
  refine Solvent.gains ?_ hvotes
  exact (hs₁.gains hroutes).modifyAccount fun _ hmana => hmana

theorem clearExpiredDelegations_solvent (h : db.clearExpiredDelegations = .ok db') :
    Solvent db' := by
  refine foldlM_induct Solvent (fun e _ db₁ _ hs₁ hreturn => ?_) hs h
  simp only [returnDelegation, eq_ok] at hreturn
  obtain ⟨a, -, a₁, hmana, rfl⟩ := hreturn
  have hgain := gainVotingMana_solvent hmana
  have hback : Solvent (db₁.modifyAccount e.2.delegator fun _ =>
      { a₁ with delegatedVestingShares := a₁.delegatedVestingShares - e.2.vestingShares }) :=
    hs₁.modifyAccount fun _ _ => hgain
  exact hback.of_accounts rfl

/-- **No operation on shares takes mana below zero**, whatever it buys. -/
theorem step_solvent {e : Event} (h : step db e = .ok db') : Solvent db' := by
  cases e with
  | delegateVestingShares delegator delegatee vestingShares =>
    exact delegateVestingShares_solvent hs h
  | accountCreateWithDelegation => cases h
  | withdrawVesting account vestingShares => exact withdrawVesting_solvent hs h
  | setWithdrawVestingRoute fromAccount toAccount percent autoVest =>
    exact hs.gains (setWithdrawVestingRoute_gains h)
  | processVestingWithdrawals => exact processVestingWithdrawals_solvent hs h
  | clearExpiredDelegations => exact clearExpiredDelegations_solvent hs h
  | transferToVesting fromAccount toAccount amount =>
    simp only [step, transferToVesting, eq_ok] at h
    obtain ⟨-, -, -, -, -, -, -, db₁, hpay, hcreate⟩ := h
    exact createVesting_solvent (hs.rebalances (adjustBalance_rebalances hpay)) hcreate
  | createVesting toAccount liquid toRewardBalance => exact createVesting_solvent hs h
  | claimRewardBalance op => exact hs.gains (claimRewardBalance_gains h)
  | nextBlock time =>
    cases h
    exact hs.of_accounts rfl

end

/-- What `vote_evaluator` does to the manabar of the voter, for a vote that uses `usedMana`. -/
def payForVote (db : Database) (voter : AccountName) (usedMana : Nat) : Checked Database := do
  let a ← db.getAccount voter
  let a ← a.regenerateVotingMana db.headBlockTime
  assert (a.mana > 0) "Account does not have enough mana to vote."
  assert (a.mana ≥ usedMana) "Account does not have enough mana to vote."
  return db.modifyAccount voter fun _ =>
    { a with votingManabar := a.votingManabar.useMana usedMana }

theorem payForVote_gains {voter : AccountName} {usedMana : Nat}
    (h : payForVote db voter usedMana = .ok db') : Gains db db' := by
  simp only [payForVote, eq_ok, getAccount_eq_ok] at h
  obtain ⟨a, ha, a₁, hmana, -, -, rfl⟩ := h
  obtain ⟨bar, rfl, -⟩ := regenerateVotingMana_eq hmana
  refine Gains.modifyAccount fun b hb => ?_
  obtain rfl := Option.mem_unique ha hb
  exact ⟨le_rfl, rfl, rfl, rfl, rfl, rfl, rfl, fun _ => useMana_nonneg _ _⟩

/-- All that writes to manabars: what happens to shares, votes, and new accounts. -/
inductive ManaEvent where
  | shares (e : Event)
  | vote (voter : AccountName) (usedMana : Nat)
  | accountCreate (creator newAccountName : AccountName) (fee : Int)

def manaStep (db : Database) : ManaEvent → Checked Database
  | .shares e => step db e
  | .vote voter usedMana => payForVote db voter usedMana
  | .accountCreate creator newAccountName fee => db.accountCreate creator newAccountName fee

theorem manaStep_solvent {e : ManaEvent} (hs : Solvent db) (h : manaStep db e = .ok db') :
    Solvent db' := by
  cases e with
  | shares e => exact step_solvent hs h
  | vote voter usedMana => exact hs.gains (payForVote_gains h)
  | accountCreate creator newAccountName fee =>
    simp only [manaStep, accountCreate, eq_ok] at h
    obtain ⟨-, -, -, -, -, -, db₁, hfee, db₂, hburn, accounts, hnew, rfl⟩ := h
    have hs₂ := (hs.rebalances (adjustBalance_rebalances hfee)).rebalances
      (adjustBalance_rebalances hburn)
    intro n a ha
    rw [find?_insert? (get_eq_ok.mp hnew)] at ha
    split at ha
    · cases ha
      exact le_rfl
    · exact hs₂ n a ha

theorem run_solvent {start : Database} {events : List ManaEvent} (hs : Solvent start)
    (h : Run.exec (Run.checked manaStep) start events = some db) : Solvent db :=
  Run.checked_induct Solvent (fun _ _ _ => manaStep_solvent) hs h

-- # The sum of the mana

/-- The maxima are 64 bit numbers. -/
def MaximaFit (db : Database) : Prop :=
  ∀ name a, db.accounts.find? name = some a → a.effectiveVestingShares ≤ int64Max

/-- **No delegation makes mana.** Along every run from a state without negative mana: the two
accounts of a delegation, each brought up to date under its own maximum, have together no more mana
after the operation than before it, and neither has less than none. -/
theorem delegation_makes_no_mana {x y : Int} {start : Database} (events : List ManaEvent)
    (hstart : Solvent start) (hrun : Run.exec (Run.checked manaStep) start events = some db)
    (hs : Sound db) (hfits : MaximaFit db) (hfits' : MaximaFit db')
    (h : db.delegateVestingShares delegator delegatee shares = .ok db')
    (hx : manaNow db db.headBlockTime delegator = .ok x)
    (hy : manaNow db db.headBlockTime delegatee = .ok y) :
    ∃ x' y', manaNow db' db.headBlockTime delegator = .ok x' ∧
      manaNow db' db.headBlockTime delegatee = .ok y' ∧ x' + y' ≤ x + y ∧ 0 ≤ x' ∧ 0 ≤ y' := by
  have hmana : Solvent db := run_solvent hstart hrun
  simp only [manaNow, eq_ok, getAccount_eq_ok] at hx hy
  obtain ⟨a, ha, a₁, ha₁, rfl⟩ := hx
  obtain ⟨b, hb, b₁, hb₁, rfl⟩ := hy
  have hs' := delegateVestingShares_sound hs h
  obtain ⟨_, _, _, hfind, hregen, hfind', hcases⟩ := delegateVestingShares_cases h
  obtain rfl := Option.mem_unique ha hfind
  obtain rfl := Option.mem_unique hb hfind'
  obtain rfl := Except.ok.inj (ha₁.symm.trans hregen)
  -- an account that is up to date has the mana it has, or the maximum
  have hafter : ∀ {name c}, db'.accounts.find? name = some c → 0 ≤ c.mana →
      c.votingManabar.lastUpdateTime = db.headBlockTime →
      ∃ z, manaNow db' db.headBlockTime name = .ok z ∧ 0 ≤ z ∧ z ≤ c.mana := by
    intro name c hc hnonneg htime
    have hmax := hs'.effective_nonneg hc
    refine ⟨_, manaNow_eq hc (hfits' name c hc) hnonneg hmax htime.le, ?_⟩
    rw [regrown_now htime]
    exact ⟨le_min hmax hnonneg, min_le_right _ _⟩
  obtain ⟨hmaxA, -, hnowA, hA⟩ :=
    regenerateVotingMana_eq_ok (hfits _ a ha) (hmana _ a ha) ha₁
  obtain ⟨hmaxB, htimeB, hnowB, hB⟩ :=
    regenerateVotingMana_eq_ok (hfits _ b hb) (hmana _ b hb) hb₁
  have hposA : 0 ≤ a₁.mana := hA ▸ regrown_nonneg hmaxA (hmana _ a ha) _ _
  have hposB : 0 ≤ b₁.mana := hB ▸ regrown_nonneg hmaxB (hmana _ b hb) _ _
  rcases hcases with ⟨_, hmore, hregen', henough, ha', hb'⟩ | ⟨hless, ha', hb'⟩
  · obtain rfl := Except.ok.inj (hb₁.symm.trans hregen')
    have hlend := mana_lend (sub_nonneg.mpr hmore) henough
      (hA ▸ (min_le_left _ _).trans (hfits _ a ha))
    have hborrow := mana_borrow (sub_nonneg.mpr hmore) hposB
    obtain ⟨x', hx', hpos, hle⟩ := hafter ha' (by omega) hnowA
    obtain ⟨y', hy', hpos', hle'⟩ := hafter hb' hborrow.1 hnowB
    exact ⟨x', y', hx', hy', by omega, hpos, hpos'⟩
  · have hlose := mana_loseReceived (sub_nonneg.mpr hless.le) (hmana _ b hb)
    obtain ⟨x', hx', hpos, hle⟩ := hafter ha' hposA hnowA
    have hmax' := hs'.effective_nonneg hb'
    have hlower : (b.loseReceived (lent db delegator delegatee - shares)).effectiveVestingShares =
        b.effectiveVestingShares + (shares - lent db delegator delegatee) := by
      simp only [effectiveVestingShares, loseReceived]
      split_ifs <;> omega
    refine ⟨x', _, hx', manaNow_eq hb' (hfits' _ _ hb') hlose.1 hmax' htimeB, ?_, hpos,
      regrown_nonneg hmax' hlose.1 _ _⟩
    rw [hB]
    refine add_le_add hle ?_
    unfold regrown
    refine min_le_min (by omega) (add_le_add hlose.2 (Int.ediv_le_ediv (by decide) ?_))
    exact Int.mul_le_mul_of_nonneg_right (by omega) (Int.natCast_nonneg _)

/-- A vote uses some mana, and shares are lent with a part of what is left. -/
theorem delegation_makes_no_mana_lent : ∃ db db', Run.exec (Run.checked manaStep)
      (oneHolder 500000 500 1000) [.vote initMinerName 100000,
        .shares (.nextBlock (genesisTime + 3))] = some db ∧
    db.delegateVestingShares initMinerName tempAccount 300000 = .ok db' ∧
    ∃ x' y', manaNow db' db.headBlockTime initMinerName = .ok x' ∧
      manaNow db' db.headBlockTime tempAccount = .ok y' ∧ x' + y' ≤ 400003 + 0 ∧ 0 ≤ x' ∧ 0 ≤ y' := by
  obtain ⟨db₁, hvote, db, hblock, db', hlend, hfits, hfits', hx, hy⟩ : ∃ db₁,
      payForVote (oneHolder 500000 500 1000) initMinerName 100000 = .ok db₁ ∧
      ∃ db, step db₁ (.nextBlock (genesisTime + 3)) = .ok db ∧
      ∃ db', db.delegateVestingShares initMinerName tempAccount 300000 = .ok db' ∧
        (∀ e ∈ db.accounts.entries, e.2.effectiveVestingShares ≤ int64Max) ∧
        (∀ e ∈ db'.accounts.entries, e.2.effectiveVestingShares ≤ int64Max) ∧
        manaNow db db.headBlockTime initMinerName = .ok 400003 ∧
        manaNow db db.headBlockTime tempAccount = .ok 0 := by decide +kernel
  have hstart : ∀ e ∈ (oneHolder 500000 500 1000).accounts.entries, 0 ≤ e.2.mana := by decide +kernel
  have hs := (oneHolder_fresh (by decide : (0 : Int) ≤ 500000) 500 1000).sound.gains
    (payForVote_gains hvote)
  have hrun : Run.exec (Run.checked manaStep) (oneHolder 500000 500 1000)
      [.vote initMinerName 100000, .shares (.nextBlock (genesisTime + 3))] = some db := by
    simp [Run.checked, manaStep, hvote, hblock, Except.toOption]
  have hsound : Sound db := step_sound hs (show Modest db₁ (.nextBlock _) from trivial) hblock
  exact ⟨db, db', hrun, hlend, delegation_makes_no_mana _
    (fun name a ha => hstart (name, a) (mem_entries_iff.mpr ha)) hrun hsound
    (fun name a ha => hfits (name, a) (mem_entries_iff.mpr ha))
    (fun name a ha => hfits' (name, a) (mem_entries_iff.mpr ha)) hlend hx hy⟩

end DeltaChain.Delegation

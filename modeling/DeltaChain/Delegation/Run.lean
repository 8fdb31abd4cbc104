import DeltaChain.Delegation.Mana

/-!
# Delegations, run by run

Along every run that starts without delegations, what accounts have lent and received is what
the delegations say, and every account keeps enough shares for what it has lent and powers down,
so that no manabar has a negative maximum (`delegations_backed`).

The runs are those in which nobody buys 2⁶³ shares or more at once. Such an amount passes the
check of `operator * ( asset, price )`, which is only on 64 bits without a sign, and is then read
with a sign: the buyer loses shares, whether they are lent or not (`delegations_unbacked_overflow`).
-/

namespace DeltaChain.Delegation

open Lib Protocol Ledger Ledger.Database Checked Option

variable {db db' start : Database}

-- # Steps

/-- What happens to shares. -/
inductive Event where
  | delegateVestingShares (delegator delegatee : AccountName) (vestingShares : Int)
  | accountCreateWithDelegation
  | withdrawVesting (account : AccountName) (vestingShares : Int)
  | setWithdrawVestingRoute (fromAccount toAccount : AccountName) (percent : Nat) (autoVest : Bool)
  | processVestingWithdrawals
  | clearExpiredDelegations
  | transferToVesting (fromAccount toAccount : AccountName) (amount : Asset)
  | createVesting (toAccount : AccountName) (liquid : Asset) (toRewardBalance : Bool)
  | claimRewardBalance (op : ClaimRewardBalance)
  | nextBlock (time : Nat)

def step (db : Database) : Event → Checked Database
  | .delegateVestingShares delegator delegatee vestingShares =>
    db.delegateVestingShares delegator delegatee vestingShares
  | .accountCreateWithDelegation => db.accountCreateWithDelegation
  | .withdrawVesting account vestingShares => db.withdrawVesting account vestingShares
  | .setWithdrawVestingRoute fromAccount toAccount percent autoVest =>
    db.setWithdrawVestingRoute fromAccount toAccount percent autoVest
  | .processVestingWithdrawals => db.processVestingWithdrawals
  | .clearExpiredDelegations => db.clearExpiredDelegations
  | .transferToVesting fromAccount toAccount amount =>
    db.transferToVesting fromAccount toAccount amount
  | .createVesting toAccount liquid toRewardBalance =>
    db.createVesting toAccount liquid toRewardBalance
  | .claimRewardBalance op => db.claimRewardBalance op
  | .nextBlock time => return db.modifyProps fun g => { g with time := time }

/-- Nobody buys 2⁶³ shares at once, and a week from now is not the end of time. -/
def Modest (db : Database) : Event → Prop
  | .transferToVesting _ _ amount => sharesFor db.props amount.amount < 2 ^ 63
  | .createVesting _ liquid toRewardBalance =>
    toRewardBalance = false → sharesFor db.props liquid.amount < 2 ^ 63
  | .withdrawVesting _ _ | .processVestingWithdrawals =>
    db.headBlockTime + vestingWithdrawIntervalSeconds < timePointSecMaximum
  | _ => True

instance (db : Database) : (e : Event) → Decidable (Modest db e)
  | .transferToVesting _ _ _ => inferInstanceAs (Decidable (_ < _))
  | .createVesting _ _ _ => inferInstanceAs (Decidable (_ → _))
  | .withdrawVesting _ _ | .processVestingWithdrawals => inferInstanceAs (Decidable (_ < _))
  | .delegateVestingShares _ _ _ | .accountCreateWithDelegation | .setWithdrawVestingRoute _ _ _ _
  | .clearExpiredDelegations | .claimRewardBalance _ | .nextBlock _ =>
    inferInstanceAs (Decidable True)

/-- A step that is only made where it is modest. -/
def modestStep (db : Database) (e : Event) : Checked Database :=
  if Modest db e then step db e else .error "immodest"

theorem modestStep_le (db : Database) (e : Event) : Le (modestStep db e) (step db e) := by
  unfold modestStep
  split
  · exact Le.refl _
  · intro db' h
    cases h

theorem step_sound {e : Event} (hs : Sound db) (hm : Modest db e) (h : step db e = .ok db') :
    Sound db' := by
  cases e with
  | delegateVestingShares delegator delegatee vestingShares =>
    exact delegateVestingShares_sound hs h
  | accountCreateWithDelegation => cases h
  | withdrawVesting account vestingShares => exact withdrawVesting_sound hs hm h
  | setWithdrawVestingRoute fromAccount toAccount percent autoVest =>
    exact hs.gains (setWithdrawVestingRoute_gains h)
  | processVestingWithdrawals => exact processVestingWithdrawals_sound hs hm h
  | clearExpiredDelegations => exact clearExpiredDelegations_sound hs h
  | transferToVesting fromAccount toAccount amount =>
    exact hs.gains (transferToVesting_gains hm h)
  | createVesting toAccount liquid toRewardBalance => exact hs.gains (createVesting_gains hm h)
  | claimRewardBalance op => exact hs.gains (claimRewardBalance_gains h)
  | nextBlock time =>
    cases h
    exact ⟨hs.backed, hs.delegated, hs.received, hs.delegation_nonneg, hs.expiration_nonneg,
      hs.expiration_id⟩

theorem step_unfailing (hs : Sound db) (e : Event) : Unfailing (step db e) := by
  cases e with
  | delegateVestingShares delegator delegatee vestingShares =>
    exact delegateVestingShares_unfailing hs
  | accountCreateWithDelegation => exact Avoids.error_iff.mpr (by decide)
  | withdrawVesting account vestingShares => exact withdrawVesting_unfailing
  | setWithdrawVestingRoute fromAccount toAccount percent autoVest =>
    exact setWithdrawVestingRoute_unfailing
  | processVestingWithdrawals => exact payVestingWithdrawals_unfailing
  | clearExpiredDelegations => exact clearExpiredDelegations_unfailing hs
  | transferToVesting fromAccount toAccount amount => exact transferToVesting_unfailing hs
  | createVesting toAccount liquid toRewardBalance => exact createVesting_unfailing hs
  | claimRewardBalance op => exact claimRewardBalance_unfailing hs
  | nextBlock time => exact Avoids.pure _

-- # Runs

/-- A state without delegations, in which the power-downs that go on are covered. -/
structure Fresh (db : Database) : Prop where
  delegations : db.vestingDelegations = Table.empty
  expirations : db.vestingDelegationExpirations = Table.empty
  delegated : ∀ name a, db.accounts.find? name = some a → a.delegatedVestingShares = 0
  received : ∀ name a, db.accounts.find? name = some a → a.receivedVestingShares = 0
  backed : ∀ name a, db.accounts.find? name = some a → Backed a

theorem Fresh.sound (h : Fresh db) : Sound db where
  backed := h.backed
  delegated name a ha := by
    rw [h.delegated name a ha, h.delegations, h.expirations]
    rfl
  received name a ha := by
    rw [h.received name a ha, h.delegations]
    rfl
  delegation_nonneg k d hd := by
    rw [h.delegations] at hd
    cases hd
  expiration_nonneg id x hx := by
    rw [h.expirations] at hx
    cases hx
  expiration_id id x hx := by
    rw [h.expirations] at hx
    cases hx

/-- **Delegations are backed.** From every state without delegations, along every run in which
nobody buys 2⁶³ shares at once: what an account has lent is the sum of its delegations and of
what is on its way back, what it has received is the sum of the delegations to it, its shares
cover what it has lent and what it powers down, and no regeneration of mana fails on a negative
maximum. -/
theorem delegations_backed (start : Database) (events : List Event) (hstart : Fresh start)
    (hmodest : (Run.exec (Run.checked modestStep) start events).isSome = true)
    (h : Run.exec (Run.checked step) start events = some db) :
    (∀ name a, db.accounts.find? name = some a →
      a.delegatedVestingShares =
        lentBy db.vestingDelegations name + returningTo db.vestingDelegationExpirations name ∧
      a.receivedVestingShares = lentTo db.vestingDelegations name ∧
      a.delegatedVestingShares + outstanding a ≤ a.vestingShares ∧
      0 ≤ a.effectiveVestingShares) ∧
    ∀ e, step db e ≠ .error "max_mana >= 0" := by
  obtain ⟨db₁, hrun⟩ := isSome_iff_exists.mp hmodest
  obtain rfl : db = db₁ := mem_unique h (Run.exec_le modestStep_le hrun)
  have hs : Sound db := by
    refine Run.checked_induct Sound (fun s e s' hs hstep => ?_) hstart.sound hrun
    unfold modestStep at hstep
    split at hstep
    · next hm => exact step_sound hs hm hstep
    · cases hstep
  refine ⟨fun name a ha => ?_, fun e => step_unfailing hs e⟩
  exact ⟨hs.delegated name a ha, hs.received name a ha, (hs.backed name a ha).enough,
    hs.effective_nonneg ha⟩

/-- The state after genesis, where the first account has `shares` shares for which there are
`fund` DELTA, mana for all of them, and `balance` DELTA to spend. -/
def oneHolder (shares fund balance : Int) : Database :=
  { genesis 0 with
    accounts := (genesis 0).accounts.modify initMinerName fun a =>
      { a with balance := balance, vestingShares := shares, votingManabar := ⟨shares, genesisTime⟩ }
    props := { (genesis 0).props with totalVestingFundDelta := fund, totalVestingShares := shares } }

theorem oneHolder_fresh {shares : Int} (hshares : 0 ≤ shares) (fund balance : Int) :
    Fresh (oneHolder shares fund balance) := by
  -- all accounts but one are as new
  have hfind : ∀ name a, (oneHolder shares fund balance).accounts.find? name = some a →
      a.delegatedVestingShares = 0 ∧ a.receivedVestingShares = 0 ∧ 0 ≤ a.vestingShares ∧
        a.nextVestingWithdrawal = timePointSecMaximum := by
    intro name a ha
    have hnew : ∀ e ∈ (genesis 0).accounts.entries, e.2.delegatedVestingShares = 0 ∧
        e.2.receivedVestingShares = 0 ∧ 0 ≤ e.2.vestingShares ∧
        e.2.nextVestingWithdrawal = timePointSecMaximum := by decide +kernel
    rw [oneHolder, Table.find?_modify] at ha
    split at ha
    · obtain ⟨b, hb, rfl⟩ := map_eq_some_iff.mp ha
      obtain ⟨hd, hr, -, hn⟩ := hnew (name, b) (Table.mem_entries_iff.mpr hb)
      exact ⟨hd, hr, hshares, hn⟩
    · exact hnew (name, a) (Table.mem_entries_iff.mpr ha)
  refine ⟨rfl, rfl, fun n a ha => (hfind n a ha).1, fun n a ha => (hfind n a ha).2.1,
    fun n a ha => ?_⟩
  obtain ⟨hd, -, hs, hn⟩ := hfind n a ha
  refine ⟨fun hrun => absurd hn hrun, ?_⟩
  rw [outstanding, hd, hn, if_neg (by simp)]
  simpa using hs

/-- Half of the shares are powered down, a part of the others is lent and taken back. -/
theorem delegations_backed_lent : ∃ db, Run.exec (Run.checked step) (oneHolder 500000 500 1000)
      [.transferToVesting initMinerName "" ⟨500, .delta⟩,
        .delegateVestingShares initMinerName tempAccount 300000,
        .withdrawVesting initMinerName 260000,
        .delegateVestingShares initMinerName tempAccount 100000,
        .nextBlock (genesisTime + vestingWithdrawIntervalSeconds),
        .processVestingWithdrawals, .clearExpiredDelegations] = some db ∧
    (∀ name a, db.accounts.find? name = some a →
      a.delegatedVestingShares =
        lentBy db.vestingDelegations name + returningTo db.vestingDelegationExpirations name ∧
      a.receivedVestingShares = lentTo db.vestingDelegations name ∧
      a.delegatedVestingShares + outstanding a ≤ a.vestingShares ∧
      0 ≤ a.effectiveVestingShares) ∧
    ∀ e, step db e ≠ .error "max_mana >= 0" := by
  refine Run.exists_end (P := fun _ => True) (by decide +kernel) fun _ h _ => ?_
  exact delegations_backed _ _ (oneHolder_fresh (by norm_num) 500 1000) (by decide +kernel) h

/-- **Shares that are lent can be lost.** The price is the one after `perform_vesting_share_split`,
10⁹ shares for a DELTA satoshi. An account lends 10¹⁵ shares and buys 13835058056 · 10⁹ more, which
is over 2⁶³ and under 2⁶⁴: it has fewer shares than before, and fewer than it has lent. The next
regeneration of its mana fails. -/
theorem delegations_unbacked_overflow :
    Fresh (oneHolder 4611686018000000000 4611686018 13835058056) ∧
    ∃ db a, Run.exec (Run.checked step) (oneHolder 4611686018000000000 4611686018 13835058056)
      [.delegateVestingShares initMinerName tempAccount 1000000000000000,
        .transferToVesting initMinerName "" ⟨13835058056, .delta⟩] = some db ∧
    db.accounts.find? initMinerName = some a ∧ a.vestingShares = 290448384 ∧
    a.delegatedVestingShares = 1000000000000000 ∧
    step db (.delegateVestingShares initMinerName nullAccount 0) = .error "max_mana >= 0" := by
  refine ⟨oneHolder_fresh (by norm_num) _ _, ?_⟩
  simp only [exists_and_left]
  decide +kernel

end DeltaChain.Delegation

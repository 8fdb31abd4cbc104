import DeltaChain.Delegation.Sound
import DeltaChain.Ledger.Messages

/-!
# Mana that regenerates

`regenerate_mana` asserts that the maximum is not negative. In a sound state no operation fails
there (`Unfailing`): each of them reads the maximum off an account of a sound state, or of one
that has only gained shares since.
-/

namespace DeltaChain.Delegation

open Lib Protocol Ledger Ledger.Database Checked Avoids

/-- The computation does not fail the assertion of `regenerate_mana` on its maximum. -/
abbrev Unfailing {α : Type} (x : Checked α) : Prop := Avoids "max_mana >= 0" x

variable {db : Database} {name : AccountName} {a : Account} {fromAccount toAccount : AccountName}
  {delegator delegatee : AccountName} {toRewardBalance : Bool} {g : GlobalProperties} {shares : Int}
  {now : Nat} {x : Asset}

-- # What does not regenerate any mana

@[simp] theorem getAccount_unfailing : Unfailing (db.getAccount name) := getAccount_avoids (by decide)

@[simp] theorem make_unfailing {base quote : Asset} : Unfailing (Price.make base quote) :=
  make_avoids (by decide)

@[simp] theorem mul_unfailing {p : Price} : Unfailing (x.mul p) := mul_avoids (by decide)

@[simp] theorem vestingSharePrice_unfailing :
    Unfailing g.vestingSharePrice := vestingSharePrice_avoids (by decide)

@[simp] theorem newSharePrice_unfailing : Unfailing (g.newSharePrice toRewardBalance) := by
  unfold GlobalProperties.newSharePrice GlobalProperties.rewardVestingSharePrice
  split_ifs <;> simp

@[simp] theorem accrue_unfailing {d : Deposit} {now rate : Nat} : Unfailing (d.accrue now rate) := by
  unfold Deposit.accrue
  split_ifs <;> simp

@[simp] theorem payInterest_unfailing {paid : Option Int} : Unfailing (db.payInterest paid) := by
  cases paid <;> simp [payInterest]

@[simp] theorem adjustBalance_unfailing : Unfailing (db.adjustBalance name x) := by
  unfold adjustBalance
  cases x.symbol <;> simp

@[simp] theorem adjustRewardBalance_unfailing {value shares : Asset} :
    Unfailing (db.adjustRewardBalance name value shares) := by
  unfold adjustRewardBalance
  cases value.symbol with
  | delta =>
    dsimp only
    split_ifs <;> simp
  | dbd => simp
  | vests => simp

@[simp] theorem adjustProxiedWitnessVotes1_unfailing {δ : Int} :
    Unfailing (db.adjustProxiedWitnessVotes1 name δ) := adjustProxiedWitnessVotes1_avoids (by decide)

@[simp] theorem withdrawVesting_unfailing {vestingShares : Int} :
    Unfailing (db.withdrawVesting name vestingShares) := by
  simp only [withdrawVesting, bind_iff, getAccount_unfailing, true_and]
  intro a _
  split_ifs <;> simp

@[simp] theorem setWithdrawVestingRoute_unfailing
    {percent : Nat} {autoVest : Bool} :
    Unfailing (db.setWithdrawVestingRoute fromAccount toAccount percent autoVest) := by
  have hmake : Unfailing (WithdrawVestingRoute.make percent autoVest) := by
    unfold WithdrawVestingRoute.make
    split
    · exact pure _
    · simp
  have hstore : ∀ routes route, Unfailing (db.storeRoute fromAccount toAccount routes route) := by
    intro routes route
    unfold storeRoute
    split_ifs <;> simp
  simp [setWithdrawVestingRoute, hmake, hstore]

theorem payVestingWithdrawal_unfailing : Unfailing (db.payVestingWithdrawal name) :=
  payVestingWithdrawal_avoids (by decide) fun h => absurd h (by decide)

theorem payVestingWithdrawals_unfailing {rounds : Nat} {current : Option (Nat × AccountName)} :
    Unfailing (payVestingWithdrawals rounds db current) := by
  induction rounds generalizing db current with
  | zero => simp [payVestingWithdrawals]
  | succ rounds ih =>
    cases current with
    | none => simp [payVestingWithdrawals]
    | some current => simp [payVestingWithdrawals, payVestingWithdrawal_unfailing, ih]

-- # What does

theorem regenerateMana_unfailing {bar : Manabar} {params : ManabarParams}
    (h : 0 ≤ params.maxMana) : Unfailing (bar.regenerateMana params now) := by
  simp [Manabar.regenerateMana, h]

theorem regenerateVotingMana_unfailing (h : 0 ≤ a.effectiveVestingShares) :
    Unfailing (a.regenerateVotingMana now) := by
  have hregen : Unfailing (a.votingManabar.regenerateMana
      ⟨a.effectiveVestingShares, votingManaRegenerationSeconds⟩ now) := regenerateMana_unfailing h
  simp [Account.regenerateVotingMana, hregen]

theorem gainVotingMana_unfailing (h : 0 ≤ a.effectiveVestingShares) :
    Unfailing (a.gainVotingMana shares now) := by
  simp [Account.gainVotingMana, regenerateVotingMana_unfailing h]

theorem createVesting_unfailing {liquid : Asset} (hs : Sound db) :
    Unfailing (db.createVesting name liquid toRewardBalance) := by
  have hadd : ∀ newVesting, Unfailing (db.addVesting name liquid newVesting) := by
    intro newVesting
    simp only [addVesting, bind_iff, getAccount_unfailing, adjustBalance_unfailing,
      adjustProxiedWitnessVotes1_unfailing, true_and, implies_true, and_true]
    intro a ha
    exact gainVotingMana_unfailing (hs.effective_nonneg (getAccount_eq_ok.mp ha))
  simp [createVesting, createVesting2, storeVesting, addRewardVesting, hadd]

theorem transferToVesting_unfailing {amount : Asset}
    (hs : Sound db) : Unfailing (db.transferToVesting fromAccount toAccount amount) := by
  have hbalance : ∀ n symbol, Unfailing (db.getBalance n symbol) := by
    intro n symbol
    cases symbol <;> simp [getBalance]
  simp only [transferToVesting, bind_iff, getAccount_unfailing, adjustBalance_unfailing,
    hbalance, true_and]
  refine ⟨by simp, fun _ hsymbol => ⟨by simp, fun _ _ _ _ _ _ => ⟨by simp, fun _ _ db₁ hpay => ?_⟩⟩⟩
  have hnoShares : (-amount).symbol = .vests → 0 ≤ (-amount).amount := by
    rw [assert_eq_ok] at hsymbol
    simp [hsymbol]
  exact createVesting_unfailing (hs.gains (adjustBalance_gains hnoShares hpay))

theorem claimRewardBalance_unfailing {op : ClaimRewardBalance} (hs : Sound db) :
    Unfailing (db.claimRewardBalance op) := by
  have hmove : ∀ a x, Unfailing (rewardVestingDeltaToMove a x) := by
    intro a x
    simp [rewardVestingDeltaToMove]
  simp only [claimRewardBalance, bind_iff, getAccount_unfailing, adjustBalance_unfailing,
    adjustRewardBalance_unfailing, adjustProxiedWitnessVotes1_unfailing, hmove, true_and,
    implies_true, and_true, assert_iff, String.reduceEq, false_implies]
  intro _ _ _ _ _ _ _ _ _ _ _ _ _ _ _ _ _ _ db₁ hr₁ db₂ hr₂ db₃ hb₁ db₄ hb₂ a₄ ha₄
  have hrewards := (adjustRewardBalance_rebalances hr₁).1.trans (adjustRewardBalance_rebalances hr₂).1
  have hbalances := (adjustBalance_rebalances hb₁).trans (adjustBalance_rebalances hb₂)
  have hg := Gains.rebalances le_rfl (hrewards.trans hbalances)
  exact gainVotingMana_unfailing ((hs.gains hg).effective_nonneg (getAccount_eq_ok.mp ha₄))

theorem lendShares_unfailing (hne : delegator ≠ delegatee)
    (hmana : ∀ b, db.accounts.find? delegatee = some b → 0 ≤ b.effectiveVestingShares) :
    Unfailing (db.lendShares delegator delegatee shares) := by
  simp only [lendShares, bind_iff, getAccount_unfailing, pure, true_and,
    implies_true, and_true]
  intro b hb
  refine gainVotingMana_unfailing (hmana b ?_)
  exact (Table.find?_modify_ne _ _ hne.symm).symm.trans (getAccount_eq_ok.mp hb)

theorem delegateVestingShares_unfailing (hs : Sound db) :
    Unfailing (db.delegateVestingShares delegator delegatee shares) := by
  have hfee : ∀ (d : Database) part, Unfailing (d.feeShares part) := by
    intro d part
    simp [feeShares]
  have hcheck : ∀ d x y z, Unfailing (checkDecrease d x y z) := by
    intro d x y z
    simp [checkDecrease]
  simp only [delegateVestingShares, bind_iff, getAccount_unfailing, hfee, true_and]
  refine ⟨by simp, fun _ hne => ⟨by simp, fun _ _ a ha b hb => ?_⟩⟩
  rw [assert_eq_ok] at hne
  rw [getAccount_eq_ok] at ha
  refine ⟨regenerateVotingMana_unfailing (hs.effective_nonneg ha), fun a₁ _ _ _ _ _ => ?_⟩
  -- the mana of the delegator does not change what the delegatee has
  have hmana : ∀ b, (db.modifyAccount delegator fun _ => a₁).accounts.find? delegatee = some b →
      0 ≤ b.effectiveVestingShares := by
    intro b hb
    exact hs.effective_nonneg ((Table.find?_modify_ne _ _ hne.symm).symm.trans hb)
  unfold storeDelegation
  split
  · simp only [createDelegation, bind_iff, assert_iff, String.reduceEq,
      false_implies, true_and]
    intro _ _ _ _
    exact lendShares_unfailing hne hmana
  · split
    · simp only [increaseDelegation, bind_iff, assert_iff, String.reduceEq,
        false_implies, true_and, pure, implies_true, and_true]
      intro _ _ _ _
      exact lendShares_unfailing hne hmana
    · simp [decreaseDelegation, hcheck]

theorem clearExpiredDelegations_unfailing (hs : Sound db) : Unfailing db.clearExpiredDelegations := by
  refine Avoids.foldlM Clearing (fun e l db hc => ?_)
    (fun _ _ _ _ hc hstep => returnDelegation_clearing hc hstep) (clearing_start hs _ _)
  simp only [returnDelegation, bind_iff, getAccount_unfailing, pure, true_and,
    implies_true, and_true]
  intro a ha
  exact gainVotingMana_unfailing (hc.sound.effective_nonneg (getAccount_eq_ok.mp ha))

end DeltaChain.Delegation

import DeltaChain.Ledger.Invariants
import DeltaChain.Voting.Operations

/-!
# Vesting keeps the books balanced

What the vesting functions do to the books of `validate_invariants`. `Books x` says that the
imbalance has grown by `x` and that nothing outside of the accounts has changed hands.

* `addVesting_books`, `addRewardVesting_books` — `create_vesting2` takes `liquid` off the
  DELTA line, for the caller to have put there; as a reward only if the shares do not round
  to nothing (`RoundsToNothing`),
* `transferToVesting_books`, `claimRewardBalance_books`, `withdrawVesting_books`,
  `setWithdrawVestingRoute_books`, `payVestingWithdrawals_books` — nothing changes.

While the routes of a power-down are paid, shares are missing by what has been paid so far.
-/

namespace DeltaChain.Ledger.Database

open Lib Protocol Checked Table

variable {db db' db₁ db₂ : Database} {name account : AccountName} {a : Account}

-- # Changes of the books

/-- What is held outside of the accounts. -/
def outside (db : Database) : Line → Int :=
  db.convertRequests.sum (fun _ x => Asset.entry x) + db.limitOrders.sum (fun _ o => o.holds) +
    db.escrows.sum (fun _ e => e.holds) + db.savingsWithdraws.sum (fun _ x => Asset.entry x) +
    db.rewardFunds.sum (fun _ f => f.holds)

theorem holdings_eq (db : Database) :
    db.holdings = db.accounts.sum (fun _ a => a.holds) + db.outside := by
  unfold holdings outside
  abel

/-- The imbalance has grown by `x`, and all outside of the accounts is as before. -/
structure Books (x : Line → Int) (db db' : Database) : Prop where
  imbalance : db'.imbalance = db.imbalance + x
  outside : db'.outside = db.outside

namespace Books

variable {x y z : Line → Int}

theorem refl : Books 0 db db := ⟨(add_zero _).symm, rfl⟩

theorem trans (h₁ : Books x db db₁) (h₂ : Books y db₁ db₂) : Books (x + y) db db₂ :=
  ⟨by rw [h₂.imbalance, h₁.imbalance, add_assoc], h₂.outside.trans h₁.outside⟩

theorem congr (h : Books x db db') (hxy : x = y) : Books y db db' := hxy ▸ h

theorem modifyAccount (h : db.accounts.find? name = some a) (f : Account → Account) :
    Books (a.holds - (f a).holds) db (db.modifyAccount name f) :=
  ⟨by rw [imbalance_modifyAccount h]; abel, rfl⟩

theorem modifyProps (f : GlobalProperties → GlobalProperties) :
    Books ((f db.props).owes - db.props.owes) db (db.modifyProps f) :=
  ⟨imbalance_modifyProps f, rfl⟩

end Books

theorem VoteWrites.books (h : VoteWrites db db') : Books 0 db db' := by
  refine ⟨by rw [h.imbalance, add_zero], ?_⟩
  rw [h.frame]
  rfl

theorem adjustProxiedWitnessVotes1_books {δ : Int}
    (h : db.adjustProxiedWitnessVotes1 name δ = .ok db') : Books 0 db db' :=
  (adjustProxiedWitnessVotes1_ok h).1.books

theorem adjustBalance_books {x : Asset} (h : db.adjustBalance name x = .ok db') :
    Books (-Asset.entry x) db db' := by
  refine ⟨by rw [adjustBalance_imbalance h, sub_eq_add_neg], ?_⟩
  obtain ⟨f, dbdSupply, virtualSupply, -, rfl⟩ := adjustBalance_rebalances h
  rfl

theorem adjustRewardBalance_books {value shares : Asset}
    (h : db.adjustRewardBalance name value shares = .ok db') :
    Books (-rewardEntry value shares) db db' := by
  refine ⟨by rw [adjustRewardBalance_imbalance h, sub_eq_add_neg], ?_⟩
  obtain ⟨f, dbdSupply, virtualSupply, -, rfl⟩ := (adjustRewardBalance_rebalances h).1
  rfl

-- # New shares

variable {e : AccountName × WithdrawVestingRoute} {fromAccount toAccount : AccountName}
  {liquid newVesting : Asset} {s s' : Database × Int} {toWithdraw : Int}

theorem addVesting_books (hl : liquid.symbol = .delta)
    (hv : newVesting.symbol = .vests) (h : db.addVesting account liquid newVesting = .ok db') :
    Books (-Asset.entry liquid) db db' := by
  simp only [addVesting, bind_eq_ok, getAccount_eq_ok] at h
  obtain ⟨a, ha, a', ha', db₁, hadj, hclimb⟩ := h
  obtain ⟨bar, rfl, -⟩ := Account.gainVotingMana_eq ha'
  refine (((Books.modifyAccount ha _).trans (adjustBalance_books hadj)).trans
    ((Books.modifyProps _).trans (adjustProxiedWitnessVotes1_books hclimb))).congr ?_
  funext l
  cases l <;> simp [Asset.entry, hl, hv, Account.holds, GlobalProperties.owes]

theorem addRewardVesting_books (hl : liquid.symbol = .delta)
    (hround : newVesting.amount = 0 → liquid.amount = 0)
    (h : db.addRewardVesting account liquid newVesting = .ok db') :
    Books (-Asset.entry liquid) db db' := by
  simp only [addRewardVesting, eq_ok] at h
  obtain ⟨db₁, hadj, rfl⟩ := h
  refine ((adjustRewardBalance_books hadj).trans (Books.modifyProps _)).congr ?_
  by_cases hzero : newVesting.amount = 0
  · funext l
    cases l <;> simp [rewardEntry, Asset.entry, hl, hzero, hround hzero]
  · funext l
    cases l <;> simp [rewardEntry, Asset.entry, hl, hzero, GlobalProperties.owes]

theorem createVesting_books {liquid : Asset} (h : db.createVesting account liquid false = .ok db') :
    Books (-Asset.entry liquid) db db' := by
  simp only [createVesting, createVesting2, eq_ok] at h
  obtain ⟨⟨db₁, shares⟩, ⟨hsym, sharePrice, hprice, newVesting, hmul, db₂, hstore, heq⟩, rfl⟩ := h
  cases heq
  exact addVesting_books hsym (newVesting_symbol hsym hprice hmul) hstore

theorem transferToVesting_books {amount : Asset}
    (h : db.transferToVesting fromAccount toAccount amount = .ok db') : Books 0 db db' := by
  simp only [transferToVesting, eq_ok] at h
  obtain ⟨hsym, -, -, -, -, -, -, db₁, hadj, hcreate⟩ := h
  refine ((adjustBalance_books hadj).trans (createVesting_books hcreate)).congr ?_
  funext l
  cases l <;> simp [Asset.entry, hsym]

theorem claimRewardBalance_books {op : ClaimRewardBalance}
    (h : db.claimRewardBalance op = .ok db') : Books 0 db db' := by
  simp only [claimRewardBalance, eq_ok, getAccount_eq_ok] at h
  obtain ⟨-, -, -, -, a₀, -, -, -, -, toMove, -, db₁, h₁, db₂, h₂, db₃, h₃, db₄, h₄, a, ha,
    a', ha', hclimb⟩ := h
  obtain ⟨bar, rfl, -⟩ := Account.gainVotingMana_eq ha'
  have hbalances := ((adjustRewardBalance_books h₁).trans (adjustRewardBalance_books h₂)).trans
    ((adjustBalance_books h₃).trans (adjustBalance_books h₄))
  refine (hbalances.trans ((Books.modifyAccount ha _).trans ((Books.modifyProps _).trans
    (adjustProxiedWitnessVotes1_books hclimb)))).congr ?_
  funext l
  cases l <;> simp [rewardEntry, Asset.entry, Account.holds, GlobalProperties.owes]
  ring

-- # Power-down

theorem withdrawVesting_books {shares : Int} (h : db.withdrawVesting account shares = .ok db') :
    Books 0 db db' := by
  obtain ⟨rate, next, toWithdraw, rfl⟩ := withdrawVesting_eq_ok h
  refine ⟨?_, rfl⟩
  rw [add_zero]
  exact imbalance_modifyAccount_of_eq fun _ => rfl

/-- The routes hold nothing, nor does their number. -/
theorem setWithdrawVestingRoute_books {percent : Nat} {autoVest : Bool}
    (h : db.setWithdrawVestingRoute fromAccount toAccount percent autoVest = .ok db') :
    Books 0 db db' := by
  obtain ⟨routes, number, rfl⟩ := setWithdrawVestingRoute_eq_ok h
  refine ⟨?_, rfl⟩
  rw [add_zero]
  exact imbalance_modifyAccount_of_eq fun _ => rfl

/-- Shares that are missing. -/
def missing (x : Int) : Line → Int := Pi.single .shares (-x)

theorem missing_add (x y : Int) : missing x + missing y = missing (x + y) := by
  unfold missing
  rw [← Pi.single_add, neg_add]

theorem missing_zero : missing 0 = 0 := by
  unfold missing
  rw [neg_zero, Pi.single_zero]

/-- What holds while the routes of an account are paid, with the sum paid so far. -/
structure RoutesPaid (db : Database) (s : Database × Int) : Prop where
  books : Books (missing s.2) db s.1
  keys : s.1.accounts.keys = db.accounts.keys

theorem RoutesPaid.start : RoutesPaid db (db, 0) := ⟨Books.refl.congr missing_zero.symm, rfl⟩

/-- A share that is paid over a route is with the account at its end, and not yet taken from
the one that withdraws. -/
theorem depositVests_books (hs : RoutesPaid db s)
    (h : depositVests toWithdraw s e = .ok s') : RoutesPaid db s' := by
  obtain ⟨rfl, -⟩ | ⟨d, a, db₁, -, -, -, ha, rfl, hclimb⟩ := depositVests_cases h
  · exact hs
  refine ⟨(hs.books.trans ((Books.modifyAccount ha _).trans
    (adjustProxiedWitnessVotes1_books hclimb))).congr ?_, ?_⟩
  · rw [← missing_add]
    congr 1
    funext l
    cases l <;> simp [missing, Account.holds]
  · exact (adjustProxiedWitnessVotes1_ok hclimb).1.keys.1.trans ((keys_modify ..).trans hs.keys)

/-- A share that is paid out is no longer part of the total, and not yet taken from the
account that withdraws. -/
theorem depositDelta_books (hs : RoutesPaid db s)
    (h : depositDelta toWithdraw s e = .ok s') : RoutesPaid db s' := by
  obtain ⟨rfl, -⟩ | ⟨d, a, price, converted, -, -, -, ha, -, -, rfl⟩ := depositDelta_cases h
  · exact hs
  have hmoved := hs.books.trans ((Books.modifyAccount ha fun a =>
    { a with balance := a.balance + converted.amount }).trans (Books.modifyProps fun g =>
      { g with
        totalVestingFundDelta := g.totalVestingFundDelta - converted.amount
        totalVestingShares := g.totalVestingShares - d }))
  refine ⟨hmoved.congr ?_, (keys_modify ..).trans hs.keys⟩
  rw [← missing_add]
  congr 1
  funext l
  cases l <;> simp [missing, Account.holds, GlobalProperties.owes, Database.modifyAccount]

/-- This week's payment of one account: what did not go over a route goes to the account
itself, and all of it is taken from its shares. -/
theorem payVestingWithdrawal_books (h : db.payVestingWithdrawal account = .ok db') :
    Books 0 db db' := by
  simp only [payVestingWithdrawal, eq_ok, getAccount_eq_ok] at h
  obtain ⟨a, ha, toWithdraw, hnow, ⟨db₁, asVests⟩, hvests, ⟨db₂, asDelta⟩, hdelta, hconvert,
    sharePrice, -, converted, -, h⟩ := h
  have hp₁ : RoutesPaid db (db₁, asVests) := foldlM_induct (RoutesPaid db)
    (fun _ _ _ _ hs => depositVests_books hs) .start hvests
  have hp₂ : RoutesPaid db₁ (db₂, asDelta) := foldlM_induct (RoutesPaid db₁)
    (fun _ _ _ _ hs => depositDelta_books hs) .start hdelta
  obtain ⟨a₂, ha₂⟩ : ∃ a₂, db₂.accounts.find? account = some a₂ := by
    rw [← Option.isSome_iff_exists, find?_isSome_iff, hp₂.keys, hp₁.keys,
      ← find?_isSome_iff, ha]
    rfl
  have hmoved := (hp₁.books.trans hp₂.books).trans ((Books.modifyAccount ha₂ fun a =>
    paidOut a toWithdraw converted.amount).trans (Books.modifyProps fun g =>
      { g with
        totalVestingFundDelta := g.totalVestingFundDelta - converted.amount
        totalVestingShares := g.totalVestingShares - (toWithdraw - asDelta - asVests) }))
  have hzero := hmoved.congr (y := 0) (by
    rw [missing_add]
    funext l
    cases l <;> simp [missing, GlobalProperties.owes, Database.modifyAccount, Account.holds, paidOut]
    ring)
  split at h
  · exact (hzero.trans (adjustProxiedWitnessVotes1_books h)).congr (add_zero _)
  · cases h
    exact hzero

theorem payVestingWithdrawals_books {rounds : Nat} {current : Option (Nat × AccountName)}
    (h : payVestingWithdrawals rounds db current = .ok db') : Books 0 db db' :=
  payVestingWithdrawals_induct (Books 0 db) (fun hb hpay =>
    (hb.trans (payVestingWithdrawal_books hpay)).congr (add_zero _)) Books.refl h

end DeltaChain.Ledger.Database

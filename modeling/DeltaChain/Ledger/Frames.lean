import DeltaChain.Ledger.Accounts

/-!
# What operations write

Most operations write to accounts and to the global properties alone, besides the tables of
withdrawal routes and of requests to decline. Everything else of the state is as before
(`Frame`).

A change of balances writes one account, and the supplies where interest is paid
(`Rebalances`). What the operations on routes and the passes over them can do is said once, in
`setWithdrawVestingRoute_eq_ok`, `depositVests_cases` and `depositDelta_cases`.
-/

namespace DeltaChain.Ledger.Database

open Lib Protocol Checked

/-- Nothing is written besides accounts, global properties, routes and requests to decline. -/
def Frame (db db' : Database) : Prop :=
  db' = { db with
    accounts := db'.accounts
    props := db'.props
    withdrawVestingRoutes := db'.withdrawVestingRoutes
    declineVotingRightsRequests := db'.declineVotingRightsRequests }

variable {db db' db₁ db₂ : Database} {name account : AccountName}

namespace Frame

theorem refl : Frame db db := rfl

theorem trans (h₁ : Frame db db₁) (h₂ : Frame db₁ db₂) : Frame db db₂ := by
  unfold Frame at *
  rw [h₂, h₁]

theorem witnesses (h : Frame db db') : db'.witnesses = db.witnesses := by
  rw [h]

theorem currentVirtualTime (h : Frame db db') : db'.currentVirtualTime = db.currentVirtualTime := by
  rw [h]

theorem modifyAccount {f : Account → Account} : Frame db (db.modifyAccount name f) := rfl

theorem modifyProps {f : GlobalProperties → GlobalProperties} : Frame db (db.modifyProps f) := rfl

theorem of_pure (h : (pure db₁ : Checked Database) = .ok db') (hf : Frame db db₁) :
    Frame db db' := by
  cases h
  exact hf

end Frame

-- # Balances

/-- `b` is `a` with other balances, with `shares` more vesting shares and with a further reward
of `rewardShares` shares for `rewardDelta` DELTA. -/
def Rebalanced (shares rewardShares rewardDelta : Int) (a b : Account) : Prop :=
  b = { a with
    balance := b.balance
    savingsBalance := b.savingsBalance
    dbdBalance := b.dbdBalance
    dbdSeconds := b.dbdSeconds
    dbdSecondsLastUpdate := b.dbdSecondsLastUpdate
    dbdLastInterestPayment := b.dbdLastInterestPayment
    savingsDbdBalance := b.savingsDbdBalance
    savingsDbdSeconds := b.savingsDbdSeconds
    savingsDbdSecondsLastUpdate := b.savingsDbdSecondsLastUpdate
    savingsDbdLastInterestPayment := b.savingsDbdLastInterestPayment
    rewardDbdBalance := b.rewardDbdBalance
    rewardDeltaBalance := b.rewardDeltaBalance
    vestingShares := a.vestingShares + shares
    rewardVestingBalance := a.rewardVestingBalance + rewardShares
    rewardVestingDelta := a.rewardVestingDelta + rewardDelta }

/-- What a change of balances writes. -/
def Rebalances (name : AccountName) (shares rewardShares rewardDelta : Int) (db db' : Database) :
    Prop :=
  ∃ (f : Account → Account) (dbdSupply virtualSupply : Int),
    (∀ a, Rebalanced shares rewardShares rewardDelta a (f a)) ∧
      db' = (db.modifyProps fun g =>
        { g with
          currentDbdSupply := dbdSupply
          virtualSupply := virtualSupply }).modifyAccount name f

theorem Rebalances.trans {s s₁ r r₁ d d₁ : Int} (h : Rebalances name s r d db db₁)
    (h₁ : Rebalances name s₁ r₁ d₁ db₁ db₂) :
    Rebalances name (s + s₁) (r + r₁) (d + d₁) db db₂ := by
  obtain ⟨f, dbd, virt, hf, rfl⟩ := h
  obtain ⟨f₁, dbd₁, virt₁, hf₁, rfl⟩ := h₁
  refine ⟨f₁ ∘ f, dbd₁, virt₁, fun a => ?_, ?_⟩
  · have h := hf₁ (f a)
    unfold Rebalanced at h ⊢
    rw [Function.comp_apply, h, hf a]
    simp [add_assoc]
  · simp [Database.modifyAccount, Database.modifyProps, Table.modify_modify]

theorem Rebalances.of_account {s r d : Int} {f : Account → Account}
    (hf : ∀ a, Rebalanced s r d a (f a)) : Rebalances name s r d db (db.modifyAccount name f) :=
  ⟨f, db.props.currentDbdSupply, db.props.virtualSupply, hf, rfl⟩

theorem payInterest_eq_ok {paid : Option Int} (h : db.payInterest paid = .ok db') :
    ∃ virtualSupply, db' = db.modifyProps fun g =>
      { g with
        currentDbdSupply := g.currentDbdSupply + paid.getD 0
        virtualSupply := virtualSupply } := by
  cases paid with
  | none =>
    rw [payInterest, pure_eq_ok] at h
    refine ⟨db.props.virtualSupply, h.symm.trans ?_⟩
    simp [Database.modifyProps]
  | some paid =>
    simp only [payInterest, eq_ok] at h
    obtain ⟨value, -, rfl⟩ := h
    exact ⟨_, rfl⟩

variable {e : AccountName × WithdrawVestingRoute} {x : Asset} {s s' : Database × Int}
  {toWithdraw : Int}

theorem adjustBalance_rebalances (h : db.adjustBalance name x = .ok db') :
    Rebalances name (if x.symbol = .vests then x.amount else 0) 0 0 db db' := by
  simp only [adjustBalance, bind_eq_ok] at h
  obtain ⟨a, -, h⟩ := h
  cases hsym : x.symbol with
  | dbd =>
    simp only [hsym, eq_ok] at h
    obtain ⟨⟨d, paid⟩, -, db₁, hpay, u, -, rfl⟩ := h
    obtain ⟨virtualSupply, rfl⟩ := payInterest_eq_ok hpay
    exact ⟨_, _, _, fun a => by simp [Rebalanced, Account.withDbdDeposit], rfl⟩
  | delta | vests =>
    simp only [hsym, eq_ok] at h
    obtain ⟨u, -, rfl⟩ := h
    exact .of_account fun a => by simp [Rebalanced]

theorem adjustSavingsBalance_rebalances (h : db.adjustSavingsBalance name x = .ok db') :
    Rebalances name 0 0 0 db db' := by
  simp only [adjustSavingsBalance, bind_eq_ok] at h
  obtain ⟨a, -, h⟩ := h
  cases hsym : x.symbol with
  | dbd =>
    simp only [hsym, eq_ok] at h
    obtain ⟨⟨d, paid⟩, -, db₁, hpay, u, -, rfl⟩ := h
    obtain ⟨virtualSupply, rfl⟩ := payInterest_eq_ok hpay
    exact ⟨_, _, _, fun a => by simp [Rebalanced, Account.withSavingsDbdDeposit], rfl⟩
  | delta =>
    simp only [hsym, eq_ok] at h
    obtain ⟨u, -, rfl⟩ := h
    exact .of_account fun a => by simp [Rebalanced]
  | vests => simp [hsym] at h

theorem adjustRewardBalance_rebalances {value shares : Asset}
    (h : db.adjustRewardBalance name value shares = .ok db') :
    Rebalances name 0 shares.amount (if shares.amount = 0 then 0 else value.amount) db db' ∧
      db'.props = db.props := by
  simp only [adjustRewardBalance, bind_eq_ok] at h
  obtain ⟨-, -, a, -, h⟩ := h
  cases hsym : value.symbol with
  | delta =>
    simp only [hsym] at h
    split at h
    all_goals
      next hzero =>
      simp only [eq_ok] at h
      obtain ⟨u, -, rfl⟩ := h
      exact ⟨.of_account fun a => by simp [Rebalanced, hzero], rfl⟩
  | dbd =>
    simp only [hsym, eq_ok] at h
    obtain ⟨hzero, -, rfl⟩ := h
    exact ⟨.of_account fun a => by simp [Rebalanced, hzero], rfl⟩
  | vests => simp [hsym] at h

/-- `g'` is `g` with other supplies and other pending rewards. -/
def Resupplied (g g' : GlobalProperties) : Prop :=
  g' = { g with
    currentSupply := g'.currentSupply
    currentDbdSupply := g'.currentDbdSupply
    virtualSupply := g'.virtualSupply
    pendingRewardedVestingShares := g'.pendingRewardedVestingShares
    pendingRewardedVestingDelta := g'.pendingRewardedVestingDelta }

/-- Balances other than the vesting shares, supplies and rewards may have changed. -/
inductive Settles (db : Database) : Database → Prop
  | refl : Settles db db
  | account {name : AccountName} {f : Account → Account} {db₁ : Database} (h : Settles db db₁)
      (hf : ∀ a, ∃ r d, Rebalanced 0 r d a (f a)) : Settles db (db₁.modifyAccount name f)
  | props {f : GlobalProperties → GlobalProperties} {db₁ : Database} (h : Settles db db₁)
      (hf : ∀ g, Resupplied g (f g)) : Settles db (db₁.modifyProps f)

theorem Settles.trans (h : Settles db db₁) (h₁ : Settles db₁ db₂) : Settles db db₂ := by
  induction h₁ with
  | refl => exact h
  | account _ hf ih => exact ih.account hf
  | props _ hf ih => exact ih.props hf

theorem Rebalances.settles {r d : Int} (h : Rebalances name 0 r d db db') : Settles db db' := by
  obtain ⟨f, dbdSupply, virtualSupply, hf, rfl⟩ := h
  refine (Settles.refl.props fun g => ?_).account fun a => ⟨r, d, hf a⟩
  rfl

theorem adjustBalance_settles (hx : x.symbol ≠ .vests)
    (h : db.adjustBalance name x = .ok db') : Settles db db' := by
  have hwrite := adjustBalance_rebalances h
  rw [if_neg hx] at hwrite
  exact hwrite.settles

theorem adjustSupply_settles (h : db.adjustSupply x false = .ok db') : Settles db db' := by
  unfold adjustSupply at h
  cases hsym : x.symbol with
  | delta =>
    simp only [hsym, eq_ok] at h
    obtain ⟨u, -, rfl⟩ := h
    exact Settles.refl.props fun g => by simp [Resupplied]
  | dbd =>
    simp only [hsym, eq_ok] at h
    obtain ⟨value, -, u, -, rfl⟩ := h
    exact Settles.refl.props fun g => rfl
  | vests => simp [hsym] at h

theorem whenPositive_settles {amount : Int} {step : Database → Checked Database}
    (hstep : ∀ {db₁ db₂}, step db₁ = .ok db₂ → Settles db₁ db₂)
    (h : whenPositive amount db step = .ok db') : Settles db db' := by
  unfold whenPositive at h
  split at h
  · exact hstep h
  · cases h
    exact .refl

theorem Frame.settles (h : Settles db db') : Frame db db' := by
  induction h with
  | refl => exact .refl
  | account _ _ ih => exact ih.trans .modifyAccount
  | props _ _ ih => exact ih.trans .modifyProps

-- # Power-downs

/-- A power-down is set, or called off. -/
theorem withdrawVesting_eq_ok {shares : Int} (h : db.withdrawVesting account shares = .ok db') :
    ∃ rate next toWithdraw, db' = db.modifyAccount account fun a =>
      { a with
        vestingWithdrawRate := rate
        nextVestingWithdrawal := next
        toWithdraw := toWithdraw
        withdrawn := 0 } := by
  simp only [withdrawVesting, bind_eq_ok] at h
  obtain ⟨a, -, -, -, -, -, -, -, h⟩ := h
  split at h
  all_goals
    simp only [eq_ok] at h
    obtain ⟨u, -, rfl⟩ := h
    exact ⟨_, _, _, rfl⟩

/-- Besides the routes only the number of them may change, in the account they come from. -/
theorem setWithdrawVestingRoute_eq_ok {fromAccount toAccount : AccountName} {percent : Nat}
    {autoVest : Bool}
    (h : db.setWithdrawVestingRoute fromAccount toAccount percent autoVest = .ok db') :
    ∃ routes, ∃ number : Nat → Nat, db' =
      { db with withdrawVestingRoutes := routes }.modifyAccount fromAccount fun a =>
        { a with withdrawRoutes := number a.withdrawRoutes } := by
  simp only [setWithdrawVestingRoute, eq_ok] at h
  obtain ⟨route, -, a, -, b, -, db₁, hstore, u, -, rfl⟩ := h
  unfold storeRoute at hstore
  split at hstore
  · simp only [eq_ok] at hstore
    obtain ⟨u, -, v, -, rfl⟩ := hstore
    exact ⟨_, (· + 1), rfl⟩
  · split at hstore
    all_goals
      cases hstore
    · exact ⟨_, (· - 1), rfl⟩
    · refine ⟨db.withdrawVestingRoutes.modify (fromAccount, toAccount) fun _ => route, id, ?_⟩
      simp only [Database.modifyAccount, id, Table.modify_id]

theorem routed_nonneg {toWithdraw d : Int} {route : WithdrawVestingRoute}
    (h : routed toWithdraw route = .ok d) : 0 ≤ d := by
  simp only [routed, eq_ok] at h
  obtain ⟨-, rfl⟩ := h
  exact Int.natCast_nonneg _

/-- The first pass over a route: nothing, or new shares at its end. -/
theorem depositVests_cases (h : depositVests toWithdraw s e = .ok s') :
    s' = s ∧ (e.2.autoVest = true → routed toWithdraw e.2 = .ok 0) ∨
    ∃ d a db₁, e.2.autoVest = true ∧ routed toWithdraw e.2 = .ok d ∧ 0 < d ∧
      s.1.accounts.find? e.1 = some a ∧ s' = (db₁, s.2 + d) ∧
      (s.1.modifyAccount e.1 fun a =>
        { a with vestingShares := a.vestingShares + d }).adjustProxiedWitnessVotes1 e.1 d =
          .ok db₁ := by
  unfold depositVests at h
  split at h
  · next hauto =>
    simp only [bind_eq_ok] at h
    obtain ⟨d, hrouted, h⟩ := h
    split at h
    · next hpos =>
      simp only [eq_ok, getAccount_eq_ok] at h
      obtain ⟨a, ha, db₁, hclimb, rfl⟩ := h
      exact .inr ⟨d, a, db₁, hauto, hrouted, hpos, ha, rfl, hclimb⟩
    · next hpos =>
      obtain rfl : d = 0 := by
        have := routed_nonneg hrouted
        omega
      rw [pure_eq_ok, add_zero] at h
      exact .inl ⟨h.symm, fun _ => hrouted⟩
  · next hauto =>
    rw [pure_eq_ok] at h
    exact .inl ⟨h.symm, fun hvest => absurd hvest hauto⟩

/-- The second pass over a route: nothing, or DELTA out of the vesting fund for its end. -/
theorem depositDelta_cases (h : depositDelta toWithdraw s e = .ok s') :
    s' = s ∧ (e.2.autoVest = false → routed toWithdraw e.2 = .ok 0) ∨
    ∃ d a sharePrice converted, e.2.autoVest = false ∧ routed toWithdraw e.2 = .ok d ∧ 0 < d ∧
      s.1.accounts.find? e.1 = some a ∧ s.1.props.vestingSharePrice = .ok sharePrice ∧
      (⟨d, .vests⟩ : Asset).mul sharePrice = .ok converted ∧
      s' = ((s.1.modifyAccount e.1 fun a =>
        { a with balance := a.balance + converted.amount }).modifyProps fun g =>
          { g with
            totalVestingFundDelta := g.totalVestingFundDelta - converted.amount
            totalVestingShares := g.totalVestingShares - d }, s.2 + d) := by
  unfold depositDelta at h
  split at h
  · next hauto =>
    rw [pure_eq_ok] at h
    exact .inl ⟨h.symm, fun hvest => absurd (hauto.symm.trans hvest) (by decide)⟩
  · next hauto =>
    simp only [bind_eq_ok, getAccount_eq_ok] at h
    obtain ⟨a, ha, d, hrouted, sharePrice, hprice, converted, hmul, h⟩ := h
    split at h
    · next hpos =>
      rw [pure_eq_ok] at h
      exact .inr ⟨d, a, sharePrice, converted, by simpa using hauto, hrouted, hpos, ha, hprice, hmul,
        h.symm⟩
    · next hpos =>
      obtain rfl : d = 0 := by
        have := routed_nonneg hrouted
        omega
      rw [pure_eq_ok, add_zero] at h
      exact .inl ⟨h.symm, fun _ => hrouted⟩

/-- **What every payment keeps, the loop over them keeps.** -/
theorem payVestingWithdrawals_induct (I : Database → Prop)
    (hpay : ∀ {db name db'}, I db → db.payVestingWithdrawal name = .ok db' → I db') {rounds : Nat}
    {current : Option (Nat × AccountName)} (h₀ : I db)
    (h : payVestingWithdrawals rounds db current = .ok db') : I db' := by
  induction rounds generalizing db current with
  | zero =>
    cases h
    exact h₀
  | succ rounds ih =>
    cases current with
    | none =>
      cases h
      exact h₀
    | some current =>
      rw [payVestingWithdrawals] at h
      split at h
      · rw [bind_eq_ok] at h
        obtain ⟨db₁, hround, hrest⟩ := h
        exact ih (hpay h₀ hround) hrest
      · cases h
        exact h₀

-- # Operations

theorem addRewardVesting_frame {liquid newVesting : Asset}
    (h : db.addRewardVesting name liquid newVesting = .ok db') : Frame db db' := by
  simp only [addRewardVesting, bind_eq_ok] at h
  obtain ⟨db₁, hadj, h⟩ := h
  exact (Frame.settles (adjustRewardBalance_rebalances hadj).1.settles).trans (Frame.of_pure h rfl)

/-- A claim writes the balances of the account, then its shares and the totals, then the votes. -/
theorem claimRewardBalance_cases {op : ClaimRewardBalance} (h : db.claimRewardBalance op = .ok db') :
    0 ≤ op.rewardVests ∧ ∃ a toMove db₁ a₁ bar, db.accounts.find? op.account = some a ∧
      op.rewardVests ≤ a.rewardVestingBalance ∧
      rewardVestingDeltaToMove a op.rewardVests = .ok toMove ∧
      Rebalances op.account 0 0 0 db db₁ ∧ db₁.accounts.find? op.account = some a₁ ∧
      ((db₁.modifyAccount op.account fun _ =>
        { a₁ with
          votingManabar := Manabar.useMana bar (-op.rewardVests)
          vestingShares := a₁.vestingShares + op.rewardVests
          rewardVestingBalance := a₁.rewardVestingBalance - op.rewardVests
          rewardVestingDelta := a₁.rewardVestingDelta - toMove }).modifyProps fun g =>
        { g with
          totalVestingShares := g.totalVestingShares + op.rewardVests
          totalVestingFundDelta := g.totalVestingFundDelta + toMove
          pendingRewardedVestingShares := g.pendingRewardedVestingShares - op.rewardVests
          pendingRewardedVestingDelta := g.pendingRewardedVestingDelta - toMove
        }).adjustProxiedWitnessVotes1 op.account op.rewardVests = .ok db' := by
  simp only [claimRewardBalance, Account.gainVotingMana, eq_ok, getAccount_eq_ok] at h
  obtain ⟨-, -, hvests, -, a, ha, -, -, henough, toMove, hmove, db₁, h₁, db₂, h₂, db₃, h₃, db₄, h₄,
    a₁, ha₁, a₂, ⟨a₃, hmana, rfl⟩, hclimb⟩ := h
  obtain ⟨bar, rfl, -⟩ := Account.regenerateVotingMana_eq hmana
  have hrewards := (adjustRewardBalance_rebalances h₁).1.trans (adjustRewardBalance_rebalances h₂).1
  have hbalances := (adjustBalance_rebalances h₃).trans (adjustBalance_rebalances h₄)
  exact ⟨hvests, a, toMove, db₄, a₁, _, ha, henough, hmove, hrewards.trans hbalances, ha₁, hclimb⟩

theorem declineVotingRights_frame {decline : Bool}
    (h : db.declineVotingRights account decline = .ok db') : Frame db db' := by
  simp only [declineVotingRights, bind_eq_ok] at h
  obtain ⟨a, -, h⟩ := h
  split at h
  all_goals
    simp only [bind_eq_ok] at h
    obtain ⟨u, -, h⟩ := h
    exact Frame.of_pure h rfl

theorem accountCreate_frame {creator newAccountName : AccountName} {fee : Int}
    (h : db.accountCreate creator newAccountName fee = .ok db') : Frame db db' := by
  simp only [accountCreate, bind_eq_ok, assert_eq_ok, exists_const] at h
  obtain ⟨-, a, -, -, -, -, db₁, h₁, db₂, h₂, accounts, -, h⟩ := h
  have hfee := (adjustBalance_settles (by simp) h₁).trans (adjustBalance_settles (by simp) h₂)
  exact (Frame.settles hfee).trans (Frame.of_pure h rfl)

/-- The null account: besides what it holds of the supplies, its shares are taken out of the
total, and their value out of the vesting fund. -/
theorem clearNullAccountBalance_cases (h : db.clearNullAccountBalance = .ok db') :
    ∃ a value db₁ db₂, db.accounts.find? nullAccount = some a ∧
      db.sharesDeltaValue a.vestingShares = .ok value ∧ Settles db db₁ ∧ Settles db₂ db' ∧
      (db₂ = db₁ ∨ 0 < a.vestingShares ∧ db₂ = (db₁.modifyProps fun g =>
        { g with
          totalVestingShares := g.totalVestingShares - a.vestingShares
          totalVestingFundDelta := g.totalVestingFundDelta - value }).modifyAccount nullAccount
            fun a => { a with vestingShares := 0 }) := by
  simp only [clearNullAccountBalance, bind_eq_ok, getAccount_eq_ok] at h
  obtain ⟨a, ha, value, hvalue, h⟩ := h
  split at h
  · rw [pure_eq_ok] at h
    exact ⟨a, value, db, db, ha, hvalue, .refl, h ▸ .refl, .inl rfl⟩
  · simp only [bind_eq_ok] at h
    obtain ⟨db₁, h₁, db₂, h₂, db₃, h₃, db₄, h₄, db₅, h₅, db₆, h₆, db₇, h₇, db₈, h₈, db₉, h₉, h⟩ := h
    have hbalances := ((whenPositive_settles (adjustBalance_settles (by simp)) h₁).trans
      (whenPositive_settles (fun h => (adjustSavingsBalance_rebalances h).settles) h₂)).trans
        ((whenPositive_settles (adjustBalance_settles (by simp)) h₃).trans
          (whenPositive_settles (fun h => (adjustSavingsBalance_rebalances h).settles) h₄))
    have hrewards := (whenPositive_settles
      (fun h => (adjustRewardBalance_rebalances h).1.settles) h₆).trans
        (whenPositive_settles (fun h => (adjustRewardBalance_rebalances h).1.settles) h₇)
    have hpending : Settles db₇ db₈ := by
      refine whenPositive_settles (fun hok => ?_) h₈
      cases hok
      refine (Settles.refl.props fun g => ?_).account fun a =>
        ⟨-a.rewardVestingBalance, -a.rewardVestingDelta, ?_⟩
      · rfl
      · simp [Rebalanced]
    have hsupplies := (whenPositive_settles adjustSupply_settles h₉).trans
      (whenPositive_settles adjustSupply_settles h)
    refine ⟨a, value, db₄, db₅, ha, hvalue, hbalances, hrewards.trans (hpending.trans hsupplies), ?_⟩
    unfold whenPositive at h₅
    split at h₅
    · next hpos =>
      rw [pure_eq_ok] at h₅
      exact .inr ⟨hpos, h₅.symm⟩
    · rw [pure_eq_ok] at h₅
      exact .inl h₅.symm

theorem clearNullAccountBalance_frame (h : db.clearNullAccountBalance = .ok db') :
    Frame db db' := by
  obtain ⟨a, value, db₁, db₂, -, -, h₁, h₂, rfl | ⟨-, rfl⟩⟩ := clearNullAccountBalance_cases h
  · exact (Frame.settles h₁).trans (.settles h₂)
  · exact (Frame.settles h₁).trans (Frame.trans (Frame.modifyProps.trans .modifyAccount) (.settles h₂))

end DeltaChain.Ledger.Database

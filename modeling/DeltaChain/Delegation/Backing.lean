import DeltaChain.Ledger.Delegation
import DeltaChain.Ledger.Frames
import DeltaChain.Ledger.Invariants

/-!
# Shares that are spoken for

An account has enough shares for what it has lent and for what is left of its power-down
(`Backed`). Most of what happens to an account only adds shares to it (`Grown`), and most
operations do nothing else to any account (`Gains`). A payment of a power-down is such a
gain, then `paidOut` on one account, and again a gain (`payVestingWithdrawal_gains`).
-/

namespace DeltaChain.Delegation

open Lib Protocol Ledger Ledger.Database Checked

-- # One account

/-- What is left of a power-down. -/
def outstanding (a : Account) : Int :=
  if a.nextVestingWithdrawal ≠ timePointSecMaximum then a.toWithdraw - a.withdrawn else 0

/-- A power-down that goes on. Until the last payment, every payment is the weekly rate. -/
structure PoweringDown (a : Account) : Prop where
  due : a.nextVestingWithdrawal < timePointSecMaximum
  rate_pos : 0 < a.vestingWithdrawRate
  rounds : a.vestingWithdrawRate ∣ a.withdrawn
  withdrawn_nonneg : 0 ≤ a.withdrawn
  withdrawn_lt : a.withdrawn < a.toWithdraw

/-- The shares of an account cover what it has lent and what it powers down. -/
structure Backed (a : Account) : Prop where
  powerDown : a.nextVestingWithdrawal ≠ timePointSecMaximum → PoweringDown a
  enough : a.delegatedVestingShares + outstanding a ≤ a.vestingShares

namespace Backed

variable {a : Account}

theorem effective_nonneg (h : Backed a) (hreceived : 0 ≤ a.receivedVestingShares) :
    0 ≤ a.effectiveVestingShares := by
  have henough := h.enough
  unfold outstanding at henough
  unfold Account.effectiveVestingShares
  split
  · next hnext =>
    dsimp only
    omega
  · next hnext =>
    dsimp only
    omega

/-- **What may be lent is not spoken for.** -/
theorem availableShares_le (h : Backed a) :
    a.availableShares a.effectiveVestingShares ≤
      a.vestingShares - a.delegatedVestingShares - outstanding a := by
  unfold Account.availableShares
  unfold Account.effectiveVestingShares outstanding at *
  by_cases hnext : a.nextVestingWithdrawal ≠ timePointSecMaximum
  · have hdue := (h.powerDown hnext).due
    simp only [if_pos hnext] at *
    split
    · omega
    · next hlast =>
      -- the rest is paid in this week
      have hrest : a.toWithdraw - a.withdrawn ≤ a.vestingWithdrawRate := by
        by_contra hmore
        exact hlast ⟨hdue, by omega⟩
      omega
  · simp only [if_neg hnext] at *
    have hnone : ¬ (a.nextVestingWithdrawal < timePointSecMaximum ∧
        a.toWithdraw - a.withdrawn > a.vestingWithdrawRate) := fun hlt =>
      absurd hlt.1 (by rw [not_not.mp hnext]; exact lt_irrefl _)
    omega

/-- This week's payment is the weekly rate, or the rest. -/
theorem toWithdrawNow_eq (h : Backed a) (hlent : 0 ≤ a.delegatedVestingShares)
    (hnext : a.nextVestingWithdrawal ≠ timePointSecMaximum) {paid : Int}
    (hpaid : toWithdrawNow a = .ok paid) :
    paid = min a.vestingWithdrawRate (a.toWithdraw - a.withdrawn) := by
  obtain ⟨-, hrate, ⟨k, hk⟩, hnonneg, hlt⟩ := h.powerDown hnext
  have henough := h.enough
  rw [outstanding, if_pos hnext] at henough
  unfold toWithdrawNow at hpaid
  split at hpaid
  · next hlast =>
    simp only [eq_ok] at hpaid
    obtain ⟨-, rfl⟩ := hpaid
    -- all payments so far were the weekly rate, so that the remainder is the rest
    have hrest : a.toWithdraw.tmod a.vestingWithdrawRate = a.toWithdraw - a.withdrawn := by
      rw [Int.tmod_eq_emod_of_nonneg (by omega)]
      have hsplit : a.toWithdraw = (a.toWithdraw - a.withdrawn) + a.vestingWithdrawRate * k := by
        rw [← hk]
        ring
      conv_lhs => rw [hsplit]
      rw [Int.add_mul_emod_self_left]
      exact Int.emod_eq_of_lt (by omega) hlast
    rw [hrest, min_eq_right (by omega), min_eq_right (by omega)]
  · next hmore =>
    rw [pure_eq_ok] at hpaid
    rw [← hpaid, min_eq_right (by omega), min_eq_left (by omega)]

end Backed

/-- An account that has gained shares, and otherwise at most things that neither lending nor
powering down looks at. -/
structure Grown (a a' : Account) : Prop where
  shares : a.vestingShares ≤ a'.vestingShares
  delegated : a'.delegatedVestingShares = a.delegatedVestingShares
  received : a'.receivedVestingShares = a.receivedVestingShares
  rate : a'.vestingWithdrawRate = a.vestingWithdrawRate
  next : a'.nextVestingWithdrawal = a.nextVestingWithdrawal
  withdrawn : a'.withdrawn = a.withdrawn
  toWithdraw : a'.toWithdraw = a.toWithdraw
  mana : 0 ≤ a.votingManabar.currentMana → 0 ≤ a'.votingManabar.currentMana

theorem Grown.refl (a : Account) : Grown a a := ⟨le_rfl, rfl, rfl, rfl, rfl, rfl, rfl, id⟩

theorem Grown.trans {a b c : Account} (h : Grown a b) (h' : Grown b c) : Grown a c where
  shares := h.shares.trans h'.shares
  delegated := h'.delegated.trans h.delegated
  received := h'.received.trans h.received
  rate := h'.rate.trans h.rate
  next := h'.next.trans h.next
  withdrawn := h'.withdrawn.trans h.withdrawn
  toWithdraw := h'.toWithdraw.trans h.toWithdraw
  mana := h'.mana ∘ h.mana

theorem Backed.grown {a a' : Account} (h : Backed a) (hg : Grown a a') : Backed a' := by
  obtain ⟨hshares, hdelegated, -, hrate, hnext, hwithdrawn, htoWithdraw, -⟩ := hg
  constructor
  · intro hrun
    rw [hnext] at hrun
    obtain ⟨hdue, hpos, hrounds, hnonneg, hlt⟩ := h.powerDown hrun
    exact ⟨by rwa [hnext], by rwa [hrate], by rwa [hrate, hwithdrawn], by rwa [hwithdrawn],
      by rwa [hwithdrawn, htoWithdraw]⟩
  · have henough := h.enough
    unfold outstanding at henough ⊢
    rw [hdelegated, hnext, hwithdrawn, htoWithdraw]
    exact henough.trans hshares

/-- **A payment leaves the account backed.** -/
theorem Backed.paidOut {a a' : Account} (h : Backed a) (hlent : 0 ≤ a.delegatedVestingShares)
    (hnext : a.nextVestingWithdrawal + vestingWithdrawIntervalSeconds < timePointSecMaximum)
    (hg : Grown a a') {paid : Int} (hpaid : toWithdrawNow a = .ok paid) (converted : Int) :
    Backed (paidOut a' paid converted) := by
  have hrun : a.nextVestingWithdrawal ≠ timePointSecMaximum := by omega
  have hamount := h.toWithdrawNow_eq hlent hrun hpaid
  obtain ⟨-, hrate, hrounds, hnonneg, hlt⟩ := h.powerDown hrun
  have henough := h.enough
  rw [outstanding, if_pos hrun] at henough
  obtain ⟨hshares, hdelegated, -, hrate', hnext', hwithdrawn, htoWithdraw, -⟩ := hg
  by_cases hlast : a.toWithdraw - a.withdrawn ≤ a.vestingWithdrawRate
  · -- the last payment ends the power-down
    rw [min_eq_right hlast] at hamount
    have hdone : a'.withdrawn + paid ≥ a'.toWithdraw ∨ a'.vestingShares - paid = 0 :=
      Or.inl (by omega)
    constructor
    · intro hgoes
      exact absurd (if_pos hdone) hgoes
    · simp only [outstanding, Database.paidOut, if_pos hdone, ne_eq, not_true_eq_false, if_false]
      omega
  · -- every other payment is the weekly rate
    rw [min_eq_left (by omega)] at hamount
    have hgoes : ¬ (a'.withdrawn + paid ≥ a'.toWithdraw ∨ a'.vestingShares - paid = 0) := by omega
    have hlater : a'.nextVestingWithdrawal + vestingWithdrawIntervalSeconds ≠
        timePointSecMaximum := by omega
    constructor
    · intro _
      constructor <;> simp only [Database.paidOut, if_neg hgoes]
      · omega
      · omega
      · rw [hrate', hwithdrawn, hamount]
        exact dvd_add hrounds (dvd_refl _)
      · omega
      · omega
    · simp only [outstanding, Database.paidOut, if_neg hgoes, if_pos hlater]
      omega

-- # All accounts

/-- Accounts have gained shares, and no delegation has changed. -/
structure Gains (db db' : Database) : Prop where
  accounts : ∀ name, Option.Rel Grown (db.accounts.find? name) (db'.accounts.find? name)
  delegations : db'.vestingDelegations = db.vestingDelegations
  expirations : db'.vestingDelegationExpirations = db.vestingDelegationExpirations
  nextId : db'.nextDelegationExpirationId = db.nextDelegationExpirationId
  time : db'.headBlockTime = db.headBlockTime

variable {db db₁ db₂ db' : Database} {name : AccountName} {a : Account}

namespace Gains

theorem of_accounts (haccounts : db'.accounts = db.accounts)
    (hdelegations : db'.vestingDelegations = db.vestingDelegations)
    (hexpirations : db'.vestingDelegationExpirations = db.vestingDelegationExpirations)
    (hnextId : db'.nextDelegationExpirationId = db.nextDelegationExpirationId)
    (htime : db'.headBlockTime = db.headBlockTime) : Gains db db' := by
  refine ⟨fun name => ?_, hdelegations, hexpirations, hnextId, htime⟩
  rw [haccounts]
  cases db.accounts.find? name with
  | none => exact .none
  | some a => exact .some (Grown.refl a)

theorem refl (db : Database) : Gains db db := of_accounts rfl rfl rfl rfl rfl

theorem trans (h : Gains db db₁) (h' : Gains db₁ db₂) : Gains db db₂ where
  accounts name := by
    have hfirst := h.accounts name
    have hsecond := h'.accounts name
    revert hfirst hsecond
    rcases db.accounts.find? name with _ | a <;> rcases db₁.accounts.find? name with _ | b <;>
      rcases db₂.accounts.find? name with _ | c <;> intro hfirst hsecond <;> cases hfirst <;>
      cases hsecond
    · exact .none
    · next hab hbc => exact .some (hab.trans hbc)
  delegations := h'.delegations.trans h.delegations
  expirations := h'.expirations.trans h.expirations
  nextId := h'.nextId.trans h.nextId
  time := h'.time.trans h.time

theorem find (h : Gains db db') (ha : db.accounts.find? name = some a) :
    ∃ a', db'.accounts.find? name = some a' ∧ Grown a a' := by
  have hrel := h.accounts name
  rw [ha] at hrel
  cases hfind : db'.accounts.find? name with
  | none =>
    rw [hfind] at hrel
    cases hrel
  | some a' =>
    rw [hfind] at hrel
    cases hrel with
    | some hg => exact ⟨a', rfl, hg⟩

theorem find_back {a' : Account} (h : Gains db db') (ha : db'.accounts.find? name = some a') :
    ∃ a, db.accounts.find? name = some a ∧ Grown a a' := by
  have hrel := h.accounts name
  rw [ha] at hrel
  cases hfind : db.accounts.find? name with
  | none =>
    rw [hfind] at hrel
    cases hrel
  | some a =>
    rw [hfind] at hrel
    cases hrel with
    | some hg => exact ⟨a, rfl, hg⟩

theorem modifyAccount {f : Account → Account}
    (hf : ∀ a, db.accounts.find? name = some a → Grown a (f a)) :
    Gains db (db.modifyAccount name f) := by
  refine ⟨fun n => ?_, rfl, rfl, rfl, rfl⟩
  have hfind : (db.modifyAccount name f).accounts.find? n =
      if n = name then (db.accounts.find? n).map f else db.accounts.find? n :=
    Table.find?_modify ..
  rw [hfind]
  cases hn : db.accounts.find? n with
  | none => split <;> exact .none
  | some a =>
    split
    · next hname =>
      subst hname
      exact .some (hf a hn)
    · exact .some (Grown.refl a)

variable {f : GlobalProperties → GlobalProperties}

theorem modifyProps (hf : ∀ g, (f g).time = g.time) :
    Gains db (db.modifyProps f) := of_accounts rfl rfl rfl rfl (hf db.props)

theorem account_then {f : Account → Account} (h : Gains (db.modifyAccount name f) db')
    (hf : ∀ a, db.accounts.find? name = some a → Grown a (f a)) : Gains db db' :=
  (modifyAccount hf).trans h

theorem props_then (h : Gains (db.modifyProps f) db')
    (hf : ∀ g, (f g).time = g.time) : Gains db db' := (modifyProps hf).trans h

theorem voteWrites (h : VoteWrites db db') : Gains db db' := by
  induction h with
  | refl => exact refl db
  | proxied name g _ ih =>
    exact ih.trans (modifyAccount fun a _ => ⟨le_rfl, rfl, rfl, rfl, rfl, rfl, rfl, id⟩)
  | witness name f _ ih => exact ih.trans (of_accounts rfl rfl rfl rfl rfl)

end Gains

theorem gainVotingMana_grown {a' : Account} {shares : Int} {now : Nat}
    (h : a.gainVotingMana shares now = .ok a') : Grown a a' := by
  obtain ⟨bar, rfl, hbar⟩ := Account.gainVotingMana_eq h
  exact ⟨le_rfl, rfl, rfl, rfl, rfl, rfl, rfl, fun _ => hbar⟩

theorem adjustProxiedWitnessVotes1_gains {δ : Int}
    (h : db.adjustProxiedWitnessVotes1 name δ = .ok db') : Gains db db' :=
  Gains.voteWrites (adjustProxiedWitnessVotes1_ok h).1

theorem Gains.rebalances {shares r d : Int} (hshares : 0 ≤ shares)
    (h : Rebalances name shares r d db db') : Gains db db' := by
  obtain ⟨f, dbdSupply, virtualSupply, hf, rfl⟩ := h
  refine Gains.trans (Gains.modifyProps ?_) (Gains.modifyAccount fun a _ => ?_)
  · intro g
    rfl
  · rw [hf a]
    exact ⟨le_add_of_nonneg_right hshares, rfl, rfl, rfl, rfl, rfl, rfl, id⟩

/-- Only shares may not be taken away. -/
theorem adjustBalance_gains {x : Asset} (hx : x.symbol = .vests → 0 ≤ x.amount)
    (h : db.adjustBalance name x = .ok db') : Gains db db' := by
  refine Gains.rebalances ?_ (adjustBalance_rebalances h)
  split
  · next hsym => exact hx hsym
  · exact le_rfl

-- # Operations that only gain

/-- The shares that `amount` DELTA buy. -/
def sharesFor (g : GlobalProperties) (amount : Int) : Int :=
  if g.totalVestingFundDelta = 0 ∨ g.totalVestingShares = 0 then amount * 1000000 % 2 ^ 128 / 1000
  else amount * g.totalVestingShares % 2 ^ 128 / g.totalVestingFundDelta

theorem mulDiv_nonneg {amount num den result : Int} {msg : String}
    (hfits : amount * num % 2 ^ 128 / den < 2 ^ 63) (h : mulDiv amount num den msg = .ok result) :
    0 ≤ result := by
  simp only [mulDiv, eq_ok] at h
  obtain ⟨hden, -, rfl⟩ := h
  rw [toInt64, if_pos (by omega)]
  exact Int.natCast_nonneg _

/-- An amount that buys less than 2⁶³ shares buys no negative number of them. -/
theorem newVesting_nonneg {g : GlobalProperties} {amount : Int} {sharePrice : Price}
    {newVesting : Asset} (hfits : sharesFor g amount < 2 ^ 63)
    (hprice : g.vestingSharePrice = .ok sharePrice)
    (hmul : (⟨amount, .delta⟩ : Asset).mul sharePrice = .ok newVesting) : 0 ≤ newVesting.amount := by
  unfold sharesFor at hfits
  unfold GlobalProperties.vestingSharePrice at hprice
  split at hprice
  · next hnew =>
    rw [if_pos hnew] at hfits
    obtain ⟨rfl, -⟩ := Price.make_eq_ok.mp hprice
    simp only [AssetOf.mul, if_true, eq_ok] at hmul
    obtain ⟨amount', hamount, rfl⟩ := hmul
    exact mulDiv_nonneg hfits hamount
  · next hnew =>
    rw [if_neg hnew] at hfits
    obtain ⟨rfl, -⟩ := Price.make_eq_ok.mp hprice
    simp only [AssetOf.mul, reduceCtorEq, if_false, if_true, eq_ok] at hmul
    obtain ⟨amount', hamount, rfl⟩ := hmul
    exact mulDiv_nonneg hfits hamount

variable {e : AccountName × WithdrawVestingRoute} {fromAccount toAccount : AccountName}
  {liquid newVesting : Asset} {s s' : Database × Int} {toWithdraw : Int}

theorem addVesting_gains (hnonneg : 0 ≤ newVesting.amount)
    (h : db.addVesting name liquid newVesting = .ok db') : Gains db db' := by
  simp only [addVesting, bind_eq_ok, getAccount_eq_ok] at h
  obtain ⟨a, ha, a₁, hmana, db₁, hbalance, hclimb⟩ := h
  have hvotes := (adjustProxiedWitnessVotes1_gains hclimb).props_then fun _ => rfl
  refine ((adjustBalance_gains (fun _ => hnonneg) hbalance).trans hvotes).account_then fun b hb => ?_
  obtain rfl : a = b := Option.mem_unique ha hb
  exact gainVotingMana_grown hmana

theorem addRewardVesting_gains (h : db.addRewardVesting name liquid newVesting = .ok db') :
    Gains db db' := by
  simp only [addRewardVesting, eq_ok] at h
  obtain ⟨db₁, hreward, rfl⟩ := h
  exact (Gains.rebalances le_rfl (adjustRewardBalance_rebalances hreward).1).trans
    (Gains.modifyProps fun _ => rfl)

theorem createVesting_gains {liquid : Asset} {toRewardBalance : Bool}
    (hfits : toRewardBalance = false → sharesFor db.props liquid.amount < 2 ^ 63)
    (h : db.createVesting name liquid toRewardBalance = .ok db') : Gains db db' := by
  simp only [createVesting, createVesting2, eq_ok] at h
  obtain ⟨⟨db₁, shares⟩, ⟨hsymbol, sharePrice, hprice, newVesting, hmul, db₂, hstore, hpair⟩, rfl⟩ := h
  cases hpair
  obtain ⟨amount, symbol⟩ := liquid
  subst hsymbol
  cases toRewardBalance with
  | true => exact addRewardVesting_gains hstore
  | false => exact addVesting_gains (newVesting_nonneg (hfits rfl) hprice hmul) hstore

theorem adjustBalance_delta_props {x : Int} (h : db.adjustBalance name ⟨x, .delta⟩ = .ok db') :
    db'.props = db.props := by
  simp only [adjustBalance, eq_ok, getAccount_eq_ok] at h
  obtain ⟨a, -, -, rfl⟩ := h
  rfl

theorem transferToVesting_gains {amount : Asset} (hfits : sharesFor db.props amount.amount < 2 ^ 63)
    (h : db.transferToVesting fromAccount toAccount amount = .ok db') : Gains db db' := by
  simp only [transferToVesting, eq_ok] at h
  obtain ⟨hsymbol, -, -, -, -, -, -, db₁, hpay, hcreate⟩ := h
  obtain ⟨amount, symbol⟩ := amount
  subst hsymbol
  have hpay' : db.adjustBalance fromAccount ⟨-amount, .delta⟩ = .ok db₁ := hpay
  have hprops := adjustBalance_delta_props hpay'
  refine (adjustBalance_gains (by simp) hpay').trans (createVesting_gains (fun _ => ?_) hcreate)
  rw [hprops]
  exact hfits

theorem claimRewardBalance_gains {op : ClaimRewardBalance}
    (h : db.claimRewardBalance op = .ok db') : Gains db db' := by
  obtain ⟨hvests, -, toMove, db₁, a, bar, -, -, -, hbalances, ha, hclimb⟩ :=
    claimRewardBalance_cases h
  have hvotes := (adjustProxiedWitnessVotes1_gains hclimb).props_then fun _ => rfl
  refine (Gains.rebalances le_rfl hbalances).trans (hvotes.account_then fun b hb => ?_)
  obtain rfl : a = b := Option.mem_unique ha hb
  exact ⟨le_add_of_nonneg_right hvests, rfl, rfl, rfl, rfl, rfl, rfl, fun _ => Manabar.useMana_nonneg _ _⟩

/-- A route is neither lent nor powered down, nor is the number of routes. -/
theorem setWithdrawVestingRoute_gains {percent : Nat} {autoVest : Bool}
    (h : db.setWithdrawVestingRoute fromAccount toAccount percent autoVest = .ok db') :
    Gains db db' := by
  obtain ⟨routes, number, rfl⟩ := setWithdrawVestingRoute_eq_ok h
  have hroutes : Gains db { db with withdrawVestingRoutes := routes } :=
    Gains.of_accounts rfl rfl rfl rfl rfl
  refine hroutes.trans (Gains.modifyAccount fun a _ => ?_)
  exact ⟨le_rfl, rfl, rfl, rfl, rfl, rfl, rfl, id⟩

-- # The payment of a power-down

theorem depositVests_gains (h : depositVests toWithdraw s e = .ok s') : Gains s.1 s'.1 := by
  obtain ⟨rfl, -⟩ | ⟨d, a, db₁, -, -, hpos, -, rfl, hclimb⟩ := depositVests_cases h
  · exact Gains.refl _
  · refine (adjustProxiedWitnessVotes1_gains hclimb).account_then fun a _ => ?_
    exact ⟨le_add_of_nonneg_right (le_of_lt hpos), rfl, rfl, rfl, rfl, rfl, rfl, id⟩

theorem depositDelta_gains (h : depositDelta toWithdraw s e = .ok s') : Gains s.1 s'.1 := by
  obtain ⟨rfl, -⟩ | ⟨d, a, price, converted, -, -, -, -, -, -, rfl⟩ := depositDelta_cases h
  · exact Gains.refl _
  · dsimp only
    refine Gains.trans (Gains.modifyAccount fun a _ => ?_) (Gains.modifyProps fun g => ?_)
    · exact ⟨le_rfl, rfl, rfl, rfl, rfl, rfl, rfl, id⟩
    · rfl

/-- **What a payment does.** The routes are gains, then the account that withdraws is paid out,
and the votes follow. -/
theorem payVestingWithdrawal_gains (h : db.payVestingWithdrawal name = .ok db') :
    ∃ a paid converted db₁, db.accounts.find? name = some a ∧ toWithdrawNow a = .ok paid ∧
      Gains db db₁ ∧ Gains (db₁.modifyAccount name fun a => paidOut a paid converted) db' := by
  simp only [payVestingWithdrawal, eq_ok, getAccount_eq_ok] at h
  obtain ⟨a, ha, paid, hnow, ⟨db₁, asVests⟩, hvests, ⟨db₂, asDelta⟩, hdelta, -,
    sharePrice, -, converted, -, h⟩ := h
  have hg₁ : Gains db db₁ := foldlM_induct (fun s => Gains db s.1)
    (fun _ _ _ _ hs hd => hs.trans (depositVests_gains hd)) (Gains.refl db) hvests
  have hg₂ : Gains db₁ db₂ := foldlM_induct (fun s => Gains db₁ s.1)
    (fun _ _ _ _ hs hd => hs.trans (depositDelta_gains hd)) (Gains.refl db₁) hdelta
  refine ⟨a, paid, converted.amount, db₂, ha, hnow, hg₁.trans hg₂, ?_⟩
  split at h
  · exact (adjustProxiedWitnessVotes1_gains h).props_then fun _ => rfl
  · cases h
    refine Gains.modifyProps ?_
    intro g
    rfl

end DeltaChain.Delegation

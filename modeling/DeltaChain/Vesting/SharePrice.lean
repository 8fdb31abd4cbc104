import DeltaChain.Lib.Trace
import DeltaChain.Protocol.Exchange
import DeltaChain.Vesting.Books

/-!
# The price of a share

New shares, the payments of a power-down and the clearing of the null account exchange DELTA and
shares with a floor, each at the price that the exchange before it has left. None of them lowers
the DELTA in the fund for a share (`share_price_never_falls`).

A payment that is worth more than the fund would be the exception. It does not happen while some
shares are left: those that are paid are then fewer than all (`PaysOut.convert`).
-/

namespace DeltaChain.Vesting

open Lib Protocol Ledger Ledger.Database Checked List

variable {db db' db₁ : Database} {name : AccountName}

/-- Both totals are positive numbers of 64 bits. -/
def Vested (db : Database) : Prop :=
  (0 < db.props.totalVestingShares ∧ db.props.totalVestingShares ≤ int64Max) ∧
    0 < db.props.totalVestingFundDelta ∧ db.props.totalVestingFundDelta ≤ int64Max

instance (db : Database) : Decidable (Vested db) := inferInstanceAs (Decidable (_ ∧ _))

/-- The DELTA for a share have not become fewer. -/
def NotCheaper (db db' : Database) : Prop :=
  db.props.totalVestingFundDelta * db'.props.totalVestingShares ≤
    db'.props.totalVestingFundDelta * db.props.totalVestingShares

theorem NotCheaper.trans (h : NotCheaper db db₁) (h₁ : NotCheaper db₁ db')
    (hshares : 0 ≤ db.props.totalVestingShares) (hshares₁ : 0 < db₁.props.totalVestingShares)
    (hshares' : 0 ≤ db'.props.totalVestingShares) : NotCheaper db db' := by
  have hfirst := mul_le_mul_of_nonneg_right h hshares'
  have hsecond := mul_le_mul_of_nonneg_right h₁ hshares
  refine le_of_mul_le_mul_right ?_ hshares₁
  linarith

-- # Exchanges

theorem vestingSharePrice_eq {g : GlobalProperties} {price : Price}
    (hshares : 0 < g.totalVestingShares) (hfund : 0 < g.totalVestingFundDelta)
    (h : g.vestingSharePrice = .ok price) :
    price = ⟨⟨g.totalVestingShares, .vests⟩, ⟨g.totalVestingFundDelta, .delta⟩⟩ := by
  unfold GlobalProperties.vestingSharePrice at h
  rw [if_neg (by omega)] at h
  exact (Price.make_eq_ok.mp h).1

/-- Shares leave the total, and no more than they are worth leaves the fund: while shares are
left, so is DELTA, and the price has not fallen. -/
def PaysOut (db db' : Database) : Prop :=
  db'.props.totalVestingShares ≤ db.props.totalVestingShares ∧
    (0 < db'.props.totalVestingShares → 0 < db.props.totalVestingFundDelta →
      0 < db'.props.totalVestingFundDelta ∧ NotCheaper db db')

namespace PaysOut

theorem of_eq (hshares : db'.props.totalVestingShares = db.props.totalVestingShares)
    (hfund : db'.props.totalVestingFundDelta = db.props.totalVestingFundDelta) : PaysOut db db' := by
  refine ⟨hshares.le, fun _ hpos => ⟨hfund ▸ hpos, ?_⟩⟩
  unfold NotCheaper
  rw [hshares, hfund]

theorem trans (h : PaysOut db db₁) (h₁ : PaysOut db₁ db') : PaysOut db db' := by
  refine ⟨h₁.1.trans h.1, fun hleft hfund => ?_⟩
  have hleft₁ := lt_of_lt_of_le hleft h₁.1
  obtain ⟨hfund₁, hprice⟩ := h.2 hleft₁ hfund
  obtain ⟨hfund', hprice₁⟩ := h₁.2 hleft hfund₁
  exact ⟨hfund', hprice.trans hprice₁ (hleft₁.le.trans h.1) hleft₁ hleft.le⟩

/-- **One exchange** of shares for DELTA. -/
theorem convert {shares : Int} {price : Price} {converted : Asset} (hnonneg : 0 ≤ shares)
    (hprice : db.props.vestingSharePrice = .ok price)
    (hmul : (⟨shares, .vests⟩ : Asset).mul price = .ok converted)
    (hshares : db'.props.totalVestingShares = db.props.totalVestingShares - shares)
    (hfund : db'.props.totalVestingFundDelta = db.props.totalVestingFundDelta - converted.amount) :
    PaysOut db db' := by
  refine ⟨by omega, fun hleft hpos => ?_⟩
  obtain rfl := vestingSharePrice_eq (by omega) hpos hprice
  simp only [AssetOf.mul, if_true, eq_ok] at hmul
  obtain ⟨amount, hamount, rfl⟩ := hmul
  have hworth := mulDiv_mul_le (mul_nonneg hnonneg hpos.le) hamount
  -- the shares are not all there are
  have hrest : 0 < (db.props.totalVestingShares - shares) * db.props.totalVestingFundDelta :=
    mul_pos (by omega) hpos
  unfold NotCheaper
  rw [hshares, hfund]
  constructor
  · by_contra hnone
    have hall : db.props.totalVestingFundDelta * db.props.totalVestingShares ≤
        amount * db.props.totalVestingShares :=
      mul_le_mul_of_nonneg_right (by linarith) (by omega)
    linarith
  · linarith

end PaysOut

-- # The three ways

theorem createVesting_notCheaper {liquid : Asset} (hv : Vested db) (hamount : int64Min ≤ liquid.amount)
    (h : db.createVesting name liquid false = .ok db') : NotCheaper db db' := by
  obtain ⟨⟨hshares, hshares'⟩, hfund, hfund'⟩ := hv
  simp only [createVesting, createVesting2, storeVesting, addVesting, GlobalProperties.newSharePrice,
    Bool.false_eq_true, if_false, eq_ok] at h
  obtain ⟨⟨db₁, new⟩, ⟨hsymbol, price, hprice, new, hmul, db₂, ⟨a, -, a', -, db₃, hadjust, hclimb⟩,
    heq⟩, rfl⟩ := h
  cases heq
  obtain rfl := vestingSharePrice_eq hshares hfund hprice
  simp only [AssetOf.mul, hsymbol, reduceCtorEq, if_false, if_true, eq_ok] at hmul
  obtain ⟨amount, hamount', rfl⟩ := hmul
  have hlow : -2 ^ 126 ≤ liquid.amount * db.props.totalVestingShares := by
    unfold int64Min int64Max at *
    nlinarith
  have hworth := mulDiv_mul_le (mulDiv_product_nonneg hlow (Int.lt_add_one_of_le hfund') hamount') hamount'
  obtain ⟨f, dbdSupply, virtualSupply, -, rfl⟩ := adjustBalance_rebalances hadjust
  rw [(adjustProxiedWitnessVotes1_ok hclimb).1.frame]
  show _ * (db.props.totalVestingShares + amount) ≤
    (db.props.totalVestingFundDelta + liquid.amount) * _
  linarith

theorem adjustProxiedWitnessVotes1_paysOut {δ : Int}
    (h : db.adjustProxiedWitnessVotes1 name δ = .ok db') : PaysOut db db' := by
  have hframe := (adjustProxiedWitnessVotes1_ok h).1.frame
  exact .of_eq (by rw [hframe]) (by rw [hframe])

/-- The payment of an account, over its routes. -/
theorem payVestingWithdrawal_paysOut (h : db.payVestingWithdrawal name = .ok db') : PaysOut db db' := by
  simp only [payVestingWithdrawal, eq_ok] at h
  obtain ⟨a, -, toWithdraw, -, ⟨db₁, vests⟩, hvests, ⟨db₂, delta⟩, hdelta, hconvert, price, hprice,
    converted, hmul, h⟩ := h
  have hfirst : PaysOut db db₁ := by
    refine foldlM_induct (fun s => PaysOut db s.1) (fun e _ s s' hs hstep => ?_)
      (PaysOut.of_eq rfl rfl) hvests
    rcases depositVests_cases hstep with ⟨rfl, -⟩ | ⟨d, a, db₃, -, -, -, -, rfl, hclimb⟩
    · exact hs
    · refine (hs.trans ?_).trans (adjustProxiedWitnessVotes1_paysOut hclimb)
      exact .of_eq rfl rfl
  have hsecond : PaysOut db db₂ := by
    refine foldlM_induct (fun s => PaysOut db s.1) (fun e _ s s' hs hstep => ?_) hfirst hdelta
    rcases depositDelta_cases hstep with ⟨rfl, -⟩ |
      ⟨d, a, price, converted, -, -, hpos, -, hprice, hmul, rfl⟩
    · exact hs
    · exact hs.trans (.convert hpos.le hprice hmul rfl rfl)
  refine hsecond.trans ?_
  split at h
  · refine PaysOut.trans ?_ (adjustProxiedWitnessVotes1_paysOut h)
    exact .convert hconvert hprice hmul rfl rfl
  · cases h
    exact .convert hconvert hprice hmul rfl rfl

theorem processVestingWithdrawals_paysOut (h : db.processVestingWithdrawals = .ok db') :
    PaysOut db db' :=
  payVestingWithdrawals_induct (PaysOut db) (fun hs hpay => hs.trans (payVestingWithdrawal_paysOut hpay))
    (.of_eq rfl rfl) h

theorem settles_totals (h : Settles db db') :
    db'.props.totalVestingShares = db.props.totalVestingShares ∧
      db'.props.totalVestingFundDelta = db.props.totalVestingFundDelta := by
  induction h with
  | refl => exact ⟨rfl, rfl⟩
  | account _ _ ih => exact ih
  | @props f db₁ _ hf ih =>
    have hg := hf db₁.props
    show (f db₁.props).totalVestingShares = _ ∧ (f db₁.props).totalVestingFundDelta = _
    rw [hg]
    exact ih

theorem clearNullAccountBalance_paysOut (h : db.clearNullAccountBalance = .ok db') :
    PaysOut db db' := by
  obtain ⟨a, value, db₁, db₂, -, hvalue, hbefore, hafter, hcleared⟩ := clearNullAccountBalance_cases h
  obtain ⟨hshares, hfund⟩ := settles_totals hbefore
  refine PaysOut.trans ?_ (.of_eq (settles_totals hafter).1 (settles_totals hafter).2)
  rcases hcleared with rfl | ⟨hpos, rfl⟩
  · exact .of_eq hshares hfund
  · simp only [sharesDeltaValue, if_pos hpos, eq_ok] at hvalue
    obtain ⟨price, hprice, converted, hmul, rfl⟩ := hvalue
    exact .convert hpos.le hprice hmul (congrArg (· - a.vestingShares) hshares)
      (congrArg (· - converted.amount) hfund)

-- # Runs

/-- What changes the totals, and anything else that leaves them as they are. -/
inductive PriceEvent where
  | createVesting (toAccount : AccountName) (liquid : Asset) (fits : int64Min ≤ liquid.amount)
  | processVestingWithdrawals
  | clearNullAccountBalance
  | others (db : Database)

def priceStep (db : Database) : PriceEvent → Checked Database
  | .createVesting toAccount liquid _ => db.createVesting toAccount liquid false
  | .processVestingWithdrawals => db.processVestingWithdrawals
  | .clearNullAccountBalance => db.clearNullAccountBalance
  | .others db' => do
    assert (db'.props.totalVestingShares = db.props.totalVestingShares) "total_vesting_shares"
    assert (db'.props.totalVestingFundDelta = db.props.totalVestingFundDelta)
      "total_vesting_fund_delta"
    return db'

theorem priceStep_notCheaper {e : PriceEvent} (hv : Vested db) (hv' : Vested db')
    (h : priceStep db e = .ok db') : NotCheaper db db' := by
  cases e with
  | createVesting toAccount liquid fits => exact createVesting_notCheaper hv fits h
  | processVestingWithdrawals => exact ((processVestingWithdrawals_paysOut h).2 hv'.1.1 hv.2.1).2
  | clearNullAccountBalance => exact ((clearNullAccountBalance_paysOut h).2 hv'.1.1 hv.2.1).2
  | others db₁ =>
    simp only [priceStep, eq_ok] at h
    obtain ⟨hshares, hfund, rfl⟩ := h
    exact ((PaysOut.of_eq hshares hfund).2 hv'.1.1 hv.2.1).2

/-- **The price of a share never falls** along a run that keeps both totals positive. -/
theorem share_price_never_falls (start : Database) (events : List PriceEvent)
    (hkeep : ∀ pre ∈ events.inits, ∀ s ∈ Run.exec (Run.checked priceStep) start pre, Vested s)
    (h : Run.exec (Run.checked priceStep) start events = some db) :
    start.props.totalVestingFundDelta * db.props.totalVestingShares ≤
      db.props.totalVestingFundDelta * start.props.totalVestingShares := by
  have hstart := hkeep [] (by simp) start rfl
  refine Run.exec_induct_trace (fun pre s => pre <+: events → NotCheaper start s) (fun _ => le_rfl)
    (fun pre s e s' hs ih hstep hpre => ?_) h prefix_rfl
  have hpre' := (prefix_append pre [e]).trans hpre
  have hv := hkeep pre ((mem_inits ..).mpr hpre') s hs
  have hv' := hkeep _ ((mem_inits ..).mpr hpre) s' (Run.exec_concat.mpr ⟨s, hs, hstep⟩)
  exact (ih hpre').trans (priceStep_notCheaper hv hv' (Run.checked_eq_some.mp hstep)) hstart.1.1.le
    hv.1.1 hv'.1.1.le

/-- A state with 500 DELTA for 500003 shares. -/
def fewVested : Database :=
  { genesis 1000 with
    props := { (genesis 1000).props with
      currentSupply := 1500, totalVestingFundDelta := 500, totalVestingShares := 500003 } }

/-- Both the shares that are made and what they are worth when they are burnt are rounded. -/
theorem share_price_never_falls_burnt : ∃ db, Run.exec (Run.checked priceStep) fewVested
      [.createVesting nullAccount ⟨7, .delta⟩ (by decide), .clearNullAccountBalance] = some db ∧
    db.props.totalVestingShares = 500003 ∧ db.props.totalVestingFundDelta = 501 ∧
    500 * db.props.totalVestingShares ≤ db.props.totalVestingFundDelta * 500003 := by
  refine Run.exists_end (P := fun db => db.props.totalVestingShares = 500003 ∧
    db.props.totalVestingFundDelta = 501) (by decide +kernel) fun db h hvalues => ?_
  exact ⟨hvalues.1, hvalues.2, share_price_never_falls _ _ (by decide +kernel) h⟩

end DeltaChain.Vesting

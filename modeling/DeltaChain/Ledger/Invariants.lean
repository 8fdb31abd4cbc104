import DeltaChain.Ledger.Accounts
import DeltaChain.Voting.View

/-!
# Supplies and what is held of them

`validate_invariants`, and the books it stands for. For each line of the books, `imbalance`
is what the global properties say there is less what accounts, orders and funds hold.
`validate_invariants` asks for balanced books; every function that moves amounts changes the
imbalance by what it moves, whatever else it does:

* `adjustBalance_imbalance`, `adjustSavingsBalance_imbalance` — by the amount,
* `adjustRewardBalance_imbalance` — by the amount, on the line the shares decide,
* `adjustSupply_imbalance` — by the amount, the other way,
* `adjustProxiedWitnessVotes1_imbalance` — not at all.

Interest is paid into a balance and the supply at once, so it is on no line.
-/

namespace DeltaChain.Ledger

open Lib Protocol Checked List Table

/-- The lines of the books. The last two are for rewards that are not claimed yet. -/
inductive Line where
  | delta
  | dbd
  | shares
  | rewardShares
  | rewardDelta
deriving DecidableEq, Repr

/-- An amount on its line. -/
def Asset.entry (x : Asset) : Line → Int :=
  match x.symbol with
  | .delta => Pi.single .delta x.amount
  | .dbd => Pi.single .dbd x.amount
  | .vests => Pi.single .shares x.amount

def Account.holds (a : Account) : Line → Int
  | .delta => a.balance + a.savingsBalance + a.rewardDeltaBalance
  | .dbd => a.dbdBalance + a.savingsDbdBalance + a.rewardDbdBalance
  | .shares => a.vestingShares
  | .rewardShares => a.rewardVestingBalance
  | .rewardDelta => a.rewardVestingDelta

def LimitOrder.holds (o : LimitOrder) : Line → Int := Asset.entry o.amountForSale

def Escrow.holds (e : Escrow) : Line → Int :=
  Asset.entry ⟨e.deltaBalance, .delta⟩ + Asset.entry ⟨e.dbdBalance, .dbd⟩ +
    Asset.entry e.pendingFee

def RewardFund.holds (f : RewardFund) : Line → Int := Asset.entry ⟨f.rewardBalance, .delta⟩

/-- What the global properties say there is outside of the funds they name. -/
def GlobalProperties.owes (g : GlobalProperties) : Line → Int
  | .delta => g.currentSupply -
      (g.totalVestingFundDelta + g.totalRewardFundDelta + g.pendingRewardedVestingDelta)
  | .dbd => g.currentDbdSupply
  | .shares => g.totalVestingShares
  | .rewardShares => g.pendingRewardedVestingShares
  | .rewardDelta => g.pendingRewardedVestingDelta

namespace Database

/-- What accounts, orders and funds hold. -/
def holdings (db : Database) : Line → Int :=
  db.accounts.sum (fun _ a => a.holds) + db.convertRequests.sum (fun _ x => Asset.entry x) +
    db.limitOrders.sum (fun _ o => o.holds) + db.escrows.sum (fun _ e => e.holds) +
    db.savingsWithdraws.sum (fun _ x => Asset.entry x) + db.rewardFunds.sum (fun _ f => f.holds)

/-- What is missing on each line. -/
def imbalance (db : Database) : Line → Int := db.props.owes - db.holdings

-- # `validate_invariants`

/-- The votes an account stands for in `validate_invariants`. -/
def vsfVotes (a : Account) : Int :=
  if a.proxy = proxyToSelfAccount then a.witnessVoteWeight
  else a.proxiedVsfVotes (Fin.last (maxProxyRecursionDepth - 1))

/-- `total_supply`, of all that holds DELTA. -/
def totalSupply (db : Database) : Int :=
  db.accounts.sum (fun _ a => a.balance + a.savingsBalance + a.rewardDeltaBalance) +
    db.convertRequests.sum (fun _ x => if x.symbol = .delta then x.amount else 0) +
    db.limitOrders.sum (fun _ o => if o.sellPrice.base.symbol = .delta then o.forSale else 0) +
    db.escrows.sum (fun _ e =>
      e.deltaBalance + if e.pendingFee.symbol = .delta then e.pendingFee.amount else 0) +
    db.savingsWithdraws.sum (fun _ x => if x.symbol = .delta then x.amount else 0) +
    db.rewardFunds.sum (fun _ f => f.rewardBalance) +
    (db.props.totalVestingFundDelta + db.props.totalRewardFundDelta +
      db.props.pendingRewardedVestingDelta)

/-- `total_dbd`, of all that holds DBD. -/
def totalDbd (db : Database) : Int :=
  db.accounts.sum (fun _ a => a.dbdBalance + a.savingsDbdBalance + a.rewardDbdBalance) +
    db.convertRequests.sum (fun _ x => if x.symbol = .dbd then x.amount else 0) +
    db.limitOrders.sum (fun _ o => if o.sellPrice.base.symbol = .dbd then o.forSale else 0) +
    db.escrows.sum (fun _ e =>
      e.dbdBalance + if e.pendingFee.symbol = .dbd then e.pendingFee.amount else 0) +
    db.savingsWithdraws.sum (fun _ x => if x.symbol = .dbd then x.amount else 0)

def validateInvariants (db : Database) : Checked Unit := do
  let g := db.props
  assert (∀ w ∈ db.witnesses.entries, w.2.votes ≤ g.totalVestingShares)
    "itr->votes <= gpo.total_vesting_shares.amount"
  assert (∀ x ∈ db.convertRequests.entries, x.2.symbol ≠ .vests)
    "Encountered illegal symbol in convert_request_object"
  assert (∀ e ∈ db.escrows.entries, e.2.pendingFee.symbol ≠ .vests)
    "found escrow pending fee that is not DBD or DELTA"
  assert (∀ x ∈ db.savingsWithdraws.entries, x.2.symbol ≠ .vests)
    "found savings withdraw that is not DBD or DELTA"
  assert (g.currentSupply = db.totalSupply) "gpo.current_supply == total_supply"
  assert (g.currentDbdSupply = db.totalDbd) "gpo.current_dbd_supply == total_dbd"
  assert (g.totalVestingShares + g.pendingRewardedVestingShares =
      db.accounts.sum fun _ a => a.vestingShares + a.rewardVestingBalance)
    "gpo.total_vesting_shares + gpo.pending_rewarded_vesting_shares == total_vesting"
  assert (g.totalVestingShares = db.accounts.sum fun _ a => vsfVotes a)
    "gpo.total_vesting_shares.amount == total_vsf_votes"
  assert (g.pendingRewardedVestingDelta = db.accounts.sum fun _ a => a.rewardVestingDelta)
    "gpo.pending_rewarded_vesting_delta == pending_vesting_delta"
  assert (g.virtualSupply ≥ g.currentSupply) "gpo.virtual_supply >= gpo.current_supply"
  if db.medianHistory.isNull then return ()
  else do
    let value ← (⟨g.currentDbdSupply, .dbd⟩ : Asset).mul db.medianHistory
    assert (value.amount + g.currentSupply = g.virtualSupply)
      "gpo.current_dbd_supply * current_median_history + gpo.current_supply == gpo.virtual_supply"

variable {db db' : Database} {name : AccountName} {a : Account} {paid : Option Int} {d d' : Deposit}
  {now rate : Nat} {x : Asset}

-- # Balanced books

theorem sum_apply {K V : Type} (t : Table K V) (f : K → V → Line → Int) (l : Line) :
    t.sum f l = t.sum fun k v => f k v l := by
  unfold Table.sum
  induction t.entries with
  | nil => rfl
  | cons e es ih =>
    rw [map_cons, sum_cons, Pi.add_apply, ih, map_cons, sum_cons]

theorem entry_delta (x : Asset) :
    Asset.entry x .delta = if x.symbol = .delta then x.amount else 0 := by
  unfold Asset.entry
  cases x.symbol <;> rfl

theorem entry_dbd (x : Asset) : Asset.entry x .dbd = if x.symbol = .dbd then x.amount else 0 := by
  unfold Asset.entry
  cases x.symbol <;> rfl

theorem imbalance_delta (db : Database) :
    db.imbalance .delta = db.props.currentSupply - db.totalSupply := by
  unfold imbalance holdings totalSupply
  simp only [Pi.sub_apply, Pi.add_apply, sum_apply, GlobalProperties.owes, Account.holds,
    LimitOrder.holds, Escrow.holds, RewardFund.holds, entry_delta, LimitOrder.amountForSale]
  simp only [if_true, reduceCtorEq, if_false, add_zero]
  ring

theorem imbalance_dbd (db : Database) :
    db.imbalance .dbd = db.props.currentDbdSupply - db.totalDbd := by
  unfold imbalance holdings totalDbd
  simp only [Pi.sub_apply, Pi.add_apply, sum_apply, GlobalProperties.owes, Account.holds,
    LimitOrder.holds, Escrow.holds, RewardFund.holds, entry_dbd, LimitOrder.amountForSale]
  have hzero : (db.rewardFunds.sum fun _ _ => (0 : Int)) = 0 := by simp [Table.sum]
  simp only [if_true, reduceCtorEq, if_false, zero_add, hzero]
  ring

-- # Writes

theorem imbalance_modifyAccount (h : db.accounts.find? name = some a) (f : Account → Account) :
    (db.modifyAccount name f).imbalance = db.imbalance - ((f a).holds - a.holds) := by
  unfold imbalance holdings modifyAccount
  rw [sum_modify h]
  abel

theorem imbalance_modifyAccount_of_eq {f : Account → Account} (hf : ∀ a, (f a).holds = a.holds) :
    (db.modifyAccount name f).imbalance = db.imbalance := by
  unfold imbalance holdings modifyAccount
  rw [sum_modify_of_eq hf]

theorem imbalance_modifyProps (f : GlobalProperties → GlobalProperties) :
    (db.modifyProps f).imbalance = db.imbalance + ((f db.props).owes - db.props.owes) := by
  unfold imbalance
  change (f db.props).owes - db.holdings = _
  abel

theorem VoteWrites.imbalance (h : VoteWrites db db') : db'.imbalance = db.imbalance := by
  have hsum : db'.accounts.sum (fun _ a => a.holds) = db.accounts.sum (fun _ a => a.holds) :=
    h.sum fun _ _ _ => rfl
  unfold Database.imbalance holdings
  rw [h.frame] at hsum ⊢
  rw [hsum]

-- # Balances and supplies

/-- Nothing is due twice at one time; otherwise the holding time is brought up to date, with or without a
payment. -/
theorem Deposit.accrue_cases (h : d.accrue now rate = .ok (d', paid)) :
    d.secondsLastUpdate = now ∧ d' = d ∧ paid = none ∨
    d.secondsLastUpdate ≠ now ∧
      ∃ seconds, seconds = u128 (d.seconds + u128 (d.balance * (now - d.secondsLastUpdate))) ∧
        (d' = { d with seconds, secondsLastUpdate := now } ∧ paid = none ∨
          interestFor seconds rate < 2 ^ 64 ∧
            d' = ⟨d.balance + toInt64 (interestFor seconds rate), 0, now, now⟩ ∧
            paid = some (toInt64 (interestFor seconds rate))) := by
  unfold Deposit.accrue at h
  split at h
  · next hold =>
    refine Or.inr ⟨hold, _, rfl, ?_⟩
    simp only at h
    split at h
    · simp only [eq_ok, Prod.mk.injEq] at h
      obtain ⟨hfits, rfl, rfl⟩ := h
      exact Or.inr ⟨hfits, rfl, rfl⟩
    · cases h
      exact Or.inl ⟨rfl, rfl⟩
  · next hnow =>
    cases h
    exact Or.inl ⟨not_not.mp hnow, rfl, rfl⟩

theorem accrue_balance (h : d.accrue now rate = .ok (d', paid)) :
    d'.balance = d.balance + paid.getD 0 := by
  obtain ⟨-, rfl, rfl⟩ | ⟨-, _, -, ⟨rfl, rfl⟩ | ⟨-, rfl, rfl⟩⟩ := Deposit.accrue_cases h
  all_goals simp

theorem payInterest_ok (h : db.payInterest paid = .ok db') :
    db'.imbalance = db.imbalance + Pi.single .dbd (paid.getD 0) ∧
      db'.accounts = db.accounts := by
  cases paid with
  | none =>
    obtain rfl : db = db' := by simpa [payInterest] using h
    simp
  | some paid =>
    simp only [payInterest, eq_ok] at h
    obtain ⟨value, -, rfl⟩ := h
    refine ⟨?_, rfl⟩
    rw [imbalance_modifyProps]
    congr 1
    funext l
    cases l <;> simp [GlobalProperties.owes]

theorem adjustBalance_imbalance (h : db.adjustBalance name x = .ok db') :
    db'.imbalance = db.imbalance - Asset.entry x := by
  unfold adjustBalance at h
  simp only [bind_eq_ok, getAccount_eq_ok] at h
  obtain ⟨a, ha, h⟩ := h
  cases hsym : x.symbol with
  | dbd =>
    simp only [hsym, eq_ok] at h
    obtain ⟨⟨d, paid⟩, hacc, db₁, hpay, -, rfl⟩ := h
    obtain ⟨himb, haccounts⟩ := payInterest_ok hpay
    have hbalance : d.balance = a.dbdBalance + paid.getD 0 := accrue_balance hacc
    rw [imbalance_modifyAccount (haccounts ▸ ha), himb, Asset.entry, hsym]
    funext l
    cases l <;> simp [Account.holds, Account.withDbdDeposit, hbalance]
    ring
  | delta | vests =>
    simp only [hsym, eq_ok] at h
    obtain ⟨-, rfl⟩ := h
    rw [imbalance_modifyAccount ha, Asset.entry, hsym]
    congr 1
    funext l
    cases l <;> simp [Account.holds]

/-- The line a reward goes to depends on the shares that come with it. -/
def rewardEntry (value shares : Asset) : Line → Int :=
  if value.symbol = .delta ∧ shares.amount ≠ 0 then
    Pi.single .rewardDelta value.amount + Pi.single .rewardShares shares.amount
  else Asset.entry value

theorem adjustRewardBalance_imbalance {value shares : Asset}
    (h : db.adjustRewardBalance name value shares = .ok db') :
    db'.imbalance = db.imbalance - rewardEntry value shares := by
  unfold adjustRewardBalance at h
  simp only [eq_ok, getAccount_eq_ok] at h
  obtain ⟨-, a, ha, h⟩ := h
  unfold rewardEntry
  cases hsym : value.symbol with
  | delta =>
    simp only [hsym] at h
    split at h
    · next hzero =>
      simp only [eq_ok] at h
      obtain ⟨-, rfl⟩ := h
      rw [imbalance_modifyAccount ha, if_neg (fun hc => hc.2 hzero), Asset.entry, hsym]
      congr 1
      funext l
      cases l <;> simp [Account.holds]
    · next hshares =>
      simp only [eq_ok] at h
      obtain ⟨-, rfl⟩ := h
      rw [imbalance_modifyAccount ha, if_pos ⟨rfl, hshares⟩]
      congr 1
      funext l
      cases l <;> simp [Account.holds]
  | dbd =>
    simp only [hsym, eq_ok] at h
    obtain ⟨-, -, rfl⟩ := h
    rw [imbalance_modifyAccount ha, if_neg (fun hc => by simp at hc), Asset.entry, hsym]
    congr 1
    funext l
    cases l <;> simp [Account.holds]
  | vests => simp [hsym] at h

theorem adjustSupply_imbalance {v : Bool} (h : db.adjustSupply x v = .ok db') :
    db'.imbalance = db.imbalance + Asset.entry x := by
  unfold adjustSupply at h
  cases hsym : x.symbol with
  | delta =>
    simp only [hsym, eq_ok] at h
    obtain ⟨-, rfl⟩ := h
    rw [imbalance_modifyProps, Asset.entry, hsym]
    congr 1
    funext l
    cases l <;> simp [GlobalProperties.owes]
    ring
  | dbd =>
    simp only [hsym, eq_ok] at h
    obtain ⟨value, -, -, rfl⟩ := h
    rw [imbalance_modifyProps, Asset.entry, hsym]
    congr 1
    funext l
    cases l <;> simp [GlobalProperties.owes]
  | vests => simp [hsym] at h

-- # Orders

theorem imbalance_setOrders (orders : Table Nat LimitOrder) :
    { db with limitOrders := orders }.imbalance =
      db.imbalance - (orders.sum (fun _ o => o.holds) - db.limitOrders.sum fun _ o => o.holds) := by
  unfold imbalance holdings
  abel

end Database

end DeltaChain.Ledger

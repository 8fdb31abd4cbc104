import DeltaChain.Ledger.Frames
import DeltaChain.Ledger.Invariants
import DeltaChain.Protocol.Exchange

/-!
# Interest on DBD

`modify_balance` and `adjust_savings_balance` count DBD seconds only when a balance changes: the old
balance times the seconds since the last change. If an account held `held t` DBD in the second `t`, the
count is the sum of `held` since the last payment (`Accurate`), and a payment is the simple interest on that
sum up to two floors (`interest_exact`). Interest of 2^63 and more reads as a negative amount; such a change
fails, since the price of the feed makes no value of it.
-/

namespace DeltaChain.Ledger

open Lib Protocol Checked Database Option Finset

/-- The DBD of an account: the liquid ones, or those in savings. -/
def Account.deposit (savings : Bool) (a : Account) : Deposit :=
  if savings then a.savingsDbdDeposit else a.dbdDeposit

/-- A change of the DBD of an account. -/
def changeDbd (savings : Bool) (db : Database) (name : AccountName) (amount : Int) : Checked Database :=
  if savings then db.adjustSavingsBalance name ⟨amount, .dbd⟩ else db.adjustBalance name ⟨amount, .dbd⟩

/-- The head time, the rate and the price of the feed are values of their types; the price is null or one
that its constructor makes. -/
structure Represented (db : Database) : Prop where
  time : db.headBlockTime < 2 ^ 32
  rate : db.props.dbdInterestRate < 2 ^ 16
  median : db.medianHistory = default ∨ db.medianHistory.Valid ∧
    db.medianHistory.base.amount < 2 ^ 63 ∧ db.medianHistory.quote.amount < 2 ^ 63

/-- The DBD that an account held in each second: none when it was created, and since a change what the
change left. Whatever else happens leaves the deposit as it is, and takes no time or some. -/
inductive Held (savings : Bool) (name : AccountName) : Database → (Nat → Int) → Prop
  | created {db a} : db.accounts.find? name = some a → a.deposit savings = ⟨0, 0, 0, 0⟩ →
      Held savings name db fun _ => 0
  | other {db db' held a a'} : Held savings name db held → db.accounts.find? name = some a →
      db'.accounts.find? name = some a' → a'.deposit savings = a.deposit savings →
      db.headBlockTime ≤ db'.headBlockTime → Held savings name db' held
  | change {db db' held amount a'} : Held savings name db held → Represented db →
      changeDbd savings db name amount = .ok db' → db'.accounts.find? name = some a' →
      (a'.deposit savings).balance < 2 ^ 63 →
      Held savings name db' fun t => if t < db.headBlockTime then held t else (a'.deposit savings).balance

/-- The integral of what was held from `start` until `now`. -/
def integral (held : Nat → Int) (start now : Nat) : Int := ∑ t ∈ Finset.Ico start now, held t

/-- The simple interest on an integral, too low by less than a satoshi and the rate's part of one. -/
def SimpleInterest (paid integral rate : Int) : Prop :=
  paid * (percent100 * secondsPerYear) ≤ integral * rate ∧
    integral * rate < (paid + 1) * (percent100 * secondsPerYear) + rate * secondsPerYear

/-- A change by `amount` should count exactly, and pay interest at most once at one time. -/
structure Accrued (held : Nat → Int) (now rate : Nat) (d : Deposit) (amount paid : Int) (d' : Deposit) :
    Prop where
  updated : d'.secondsLastUpdate = now
  seconds : d'.seconds = integral held d'.lastInterestPayment now
  balance : d'.balance = d.balance + paid + amount
  interest : d'.lastInterestPayment = d.lastInterestPayment ∧ paid = 0 ∨
    d'.lastInterestPayment = now ∧ d.secondsLastUpdate < now ∧
      SimpleInterest paid (integral held d.lastInterestPayment now) rate

-- # One deposit

/-- The count of a deposit is the integral since the last payment. -/
structure Accurate (held : Nat → Int) (now : Nat) (d : Deposit) : Prop where
  last : d.lastInterestPayment ≤ d.secondsLastUpdate
  updated : d.secondsLastUpdate ≤ now
  range : ∀ t, 0 ≤ held t ∧ held t < 2 ^ 63
  seconds : d.seconds = integral held d.lastInterestPayment d.secondsLastUpdate
  since : ∀ t, d.secondsLastUpdate ≤ t → held t = d.balance

section

variable {held : Nat → Int} {now rate : Nat} {d d' : Deposit} {paid : Option Int}

/-- The seconds since the last change, times the balance, complete the integral. -/
theorem Accurate.seconds_now (h : Accurate held now d) (hnow : now < 2 ^ 32) :
    (u128 (d.seconds + u128 (d.balance * (now - d.secondsLastUpdate))) : Int) =
      integral held d.lastInterestPayment now ∧ integral held d.lastInterestPayment now < 2 ^ 95 := by
  have hsmall : integral held d.lastInterestPayment now ≤ now * 2 ^ 63 := by
    refine (sum_le_card_nsmul _ _ (2 ^ 63) fun t _ => (h.range t).2.le).trans ?_
    rw [Nat.card_Ico, nsmul_eq_mul]
    exact mul_le_mul_of_nonneg_right (by omega) (by decide)
  have hlater : integral held d.secondsLastUpdate now = d.balance * (now - d.secondsLastUpdate) := by
    rw [integral, sum_congr rfl fun t ht => h.since t (mem_Ico.mp ht).1, sum_const,
      Nat.card_Ico, nsmul_eq_mul, Nat.cast_sub h.updated, mul_comm]
  have hsplit : integral held d.lastInterestPayment d.secondsLastUpdate +
      integral held d.secondsLastUpdate now = integral held d.lastInterestPayment now :=
    sum_Ico_consecutive _ h.last h.updated
  have hpart : 0 ≤ integral held d.secondsLastUpdate now := sum_nonneg fun t _ => (h.range t).1
  have hcount := h.seconds
  rw [← hlater, u128_of_lt hpart (by omega), u128_of_lt (by omega) (by omega)]
  exact ⟨by omega, by omega⟩

theorem interestFor_simple {seconds : Nat} (hseconds : seconds < 2 ^ 95) (hrate : rate < 2 ^ 16) :
    SimpleInterest (interestFor seconds rate) seconds rate := by
  have hfits : seconds / secondsPerYear * rate < 2 ^ 128 :=
    (Nat.mul_lt_mul'' ((Nat.div_le_self _ _).trans_lt hseconds) hrate).trans (by decide)
  rw [interestFor, Int.ofNat_inj.mp (u128_of_lt (Int.natCast_nonneg _) (by exact_mod_cast hfits))]
  have hyears := Nat.div_mul_le_self seconds secondsPerYear
  have hyear := Nat.lt_mul_div_succ seconds (show 0 < secondsPerYear by decide)
  have hpaid := Nat.div_mul_le_self (seconds / secondsPerYear * rate) percent100
  have hless := Nat.lt_mul_div_succ (seconds / secondsPerYear * rate) (show 0 < percent100 by decide)
  set years := seconds / secondsPerYear
  set paid := years * rate / percent100
  have hlow : paid * (percent100 * secondsPerYear) ≤ seconds * rate := by
    nlinarith [Nat.mul_le_mul_right secondsPerYear hpaid, Nat.mul_le_mul_right rate hyears]
  have hhigh : seconds * rate < (paid + 1) * (percent100 * secondsPerYear) + rate * secondsPerYear := by
    nlinarith [Nat.mul_lt_mul_of_pos_right hless (show 0 < secondsPerYear by decide),
      Nat.mul_le_mul_right rate hyear.le]
  exact ⟨by exact_mod_cast hlow, by exact_mod_cast hhigh⟩

/-- **One accrual.** -/
theorem Accurate.accrue (h : Accurate held now d) (hnow : now < 2 ^ 32) (hrate : rate < 2 ^ 16)
    (hpaid : 0 ≤ paid.getD 0) (haccrue : d.accrue now rate = .ok (d', paid)) :
    Accrued held now rate d 0 (paid.getD 0) d' := by
  obtain ⟨hsum, hsmall⟩ := h.seconds_now hnow
  have hbefore := h.updated
  have hbalance : d'.balance = d.balance + paid.getD 0 + 0 := by rw [accrue_balance haccrue, add_zero]
  obtain ⟨rfl, rfl, rfl⟩ | ⟨hold, seconds, hseconds, ⟨rfl, rfl⟩ | ⟨hfits, rfl, rfl⟩⟩ :=
    Deposit.accrue_cases haccrue
  · exact ⟨rfl, h.seconds, hbalance, Or.inl ⟨rfl, rfl⟩⟩
  · exact ⟨rfl, hseconds ▸ hsum, hbalance, Or.inl ⟨rfl, rfl⟩⟩
  · rw [← hseconds] at hsum
    refine ⟨rfl, by simp [integral], hbalance, Or.inr ⟨rfl, by omega, ?_⟩⟩
    -- what is paid is not negative, so it is the interest
    rw [getD_some] at hpaid ⊢
    have hread : toInt64 (interestFor seconds rate) = interestFor seconds rate := by
      unfold toInt64 at hpaid ⊢
      split at hpaid <;> omega
    rw [hread, ← hsum]
    exact interestFor_simple (by omega) hrate

end

-- # One change

variable {savings : Bool} {name : AccountName} {db db' : Database} {held : Nat → Int} {amount : Int}
  {a a' : Account}

theorem Represented.paid_nonneg (hdb : Represented db) {paid : Int} (hlow : -2 ^ 63 ≤ paid)
    (h : db.payInterest (some paid) = .ok db') : 0 ≤ paid := by
  simp only [payInterest, bind_eq_ok] at h
  obtain ⟨value, hvalue, -⟩ := h
  rcases hdb.median with hnull | ⟨⟨hbase, hquote, -⟩, hb, hq⟩
  · rw [hnull] at hvalue
    cases hvalue
  · have hside : ∀ {num den msg r}, 0 < num → num < 2 ^ 63 → den < 2 ^ 63 →
        mulDiv paid num den msg = .ok r → 0 ≤ paid := fun hnum hn hd hdiv =>
      nonneg_of_mul_nonneg_left (mulDiv_product_nonneg (by nlinarith) hd hdiv) hnum
    unfold AssetOf.mul at hvalue
    split_ifs at hvalue
    all_goals obtain ⟨r, hr, -⟩ := bind_eq_ok.mp hvalue
    · exact hside hquote hq hb hr
    · exact hside hbase hb hq hr

theorem Accurate.change (h : Accurate held db.headBlockTime (a.deposit savings)) (hdb : Represented db)
    (ha : db.accounts.find? name = some a) (hchange : changeDbd savings db name amount = .ok db')
    (ha' : db'.accounts.find? name = some a') :
    db'.headBlockTime = db.headBlockTime ∧ 0 ≤ (a'.deposit savings).balance ∧
      ∃ paid, db'.props.currentDbdSupply = db.props.currentDbdSupply + paid ∧
        Accrued held db.headBlockTime db.props.dbdInterestRate (a.deposit savings) amount paid
          (a'.deposit savings) := by
  obtain ⟨d, paid, db₁, haccrue, hpay, hfunds, hprops, hdeposit⟩ : ∃ d paid db₁,
      (a.deposit savings).accrue db.headBlockTime db.props.dbdInterestRate = .ok (d, paid) ∧
      db.payInterest paid = .ok db₁ ∧ 0 ≤ d.balance + amount ∧ db'.props = db₁.props ∧
        a'.deposit savings = { d with balance := d.balance + amount } := by
    cases savings
    all_goals
      simp only [changeDbd, if_true, Bool.false_eq_true, if_false, adjustBalance, adjustSavingsBalance,
        eq_ok, getAccount_eq_ok] at hchange
      obtain ⟨b, hb, ⟨d, paid⟩, haccrue, db₁, hpay, hfunds, rfl⟩ := hchange
      obtain rfl := mem_unique ha hb
      rw [modifyAccount, Table.find?_modify_self, map_eq_some_iff] at ha'
      obtain ⟨b, -, rfl⟩ := ha'
      exact ⟨d, paid, _, haccrue, hpay, hfunds, rfl, rfl⟩
  have hnonneg : 0 ≤ paid.getD 0 := by
    obtain ⟨-, -, rfl⟩ | ⟨-, _, -, ⟨-, rfl⟩ | ⟨hfits, -, rfl⟩⟩ := Deposit.accrue_cases haccrue
    · exact le_rfl
    · exact le_rfl
    · refine hdb.paid_nonneg (?_ : _ ≤ toInt64 _) hpay
      unfold toInt64
      split <;> omega
  obtain ⟨hupdated, hseconds, hbalance, hinterest⟩ := h.accrue hdb.time hdb.rate hnonneg haccrue
  obtain ⟨virtualSupply, rfl⟩ := payInterest_eq_ok hpay
  rw [hdeposit, hprops]
  refine ⟨congrArg (·.time) hprops, hfunds, paid.getD 0, rfl, hupdated, hseconds, ?_, hinterest⟩
  show d.balance + amount = _
  rw [hbalance, add_zero]

theorem Held.accurate (h : Held savings name db held) : ∃ a, db.accounts.find? name = some a ∧
    Accurate held db.headBlockTime (a.deposit savings) := by
  induction h with
  | created ha hnew =>
    refine ⟨_, ha, ?_⟩
    rw [hnew]
    exact ⟨le_rfl, Nat.zero_le _, fun _ => by decide, rfl, fun _ _ => rfl⟩
  | other _ ha ha' hsame htime ih =>
    obtain ⟨b, hb, haccurate⟩ := ih
    obtain rfl := mem_unique ha hb
    refine ⟨_, ha', ?_⟩
    rw [hsame]
    exact { haccurate with updated := haccurate.updated.trans htime }
  | @change db db' held amount a' _ hdb hchange ha' hsmall ih =>
    obtain ⟨a, ha, haccurate⟩ := ih
    obtain ⟨htime, hnonneg, paid, -, haccrued⟩ := haccurate.change hdb ha hchange ha'
    have hupdated := haccrued.updated
    have hlast := haccurate.last.trans haccurate.updated
    refine ⟨a', ha', ?_, by omega, fun t => ?_, ?_, fun t ht => if_neg (by omega)⟩
    · rcases haccrued.interest with h | h <;> omega
    · split
      · exact haccurate.range t
      · exact ⟨hnonneg, hsmall⟩
    · rw [haccrued.seconds, hupdated]
      exact sum_congr rfl fun t ht => (if_pos (mem_Ico.mp ht).2).symm

/-- **Interest is exact.** Whatever happened before, a change of the DBD of an account counts the integral
of what was held since the last payment, or pays the simple interest on it, and the supply grows by what is
paid. -/
theorem interest_exact (h : Held savings name db held) (hdb : Represented db)
    (ha : db.accounts.find? name = some a) (hchange : changeDbd savings db name amount = .ok db')
    (ha' : db'.accounts.find? name = some a') :
    ∃ paid, db'.props.currentDbdSupply = db.props.currentDbdSupply + paid ∧
      Accrued held db.headBlockTime db.props.dbdInterestRate (a.deposit savings) amount paid
        (a'.deposit savings) := by
  obtain ⟨b, hb, haccurate⟩ := h.accurate
  obtain rfl := mem_unique ha hb
  exact (haccurate.change hdb ha hchange ha').2.2

/-- DELTA and DBD are worth the same, and DBD earn ten percent. -/
def lender : Database :=
  { genesis 1000 with
    medianHistory := ⟨⟨1, .dbd⟩, ⟨1, .delta⟩⟩
    props := { (genesis 1000).props with dbdInterestRate := 1000 } }

def laterAt (now : Nat) (db : Database) : Database := { db with props := { db.props with time := now } }

theorem laterAt_time (now : Nat) (db : Database) : (laterAt now db).headBlockTime = now := rfl

/-- 1000 DBD earn 100 in a year. -/
theorem interest_exact_year : ∃ (db db' : Database) (held : Nat → Int) (a a' : Account) (paid : Int),
    Held false initMinerName db held ∧ changeDbd false db initMinerName 0 = .ok db' ∧
    a'.dbdBalance = 1100 ∧
    Accrued held db.headBlockTime db.props.dbdInterestRate a.dbdDeposit 0 paid a'.dbdDeposit := by
  obtain ⟨db, hdb, hsame, ⟨a, ha, hsmall⟩, db', hlater, a', ha', hbalance⟩ : ∃ db,
      changeDbd false lender initMinerName 1000 = .ok db ∧
      (db.headBlockTime = genesisTime ∧ db.props.dbdInterestRate = 1000 ∧
        db.medianHistory = lender.medianHistory) ∧
      (∃ a, db.accounts.find? initMinerName = some a ∧ a.dbdBalance < 2 ^ 63) ∧
      ∃ db', changeDbd false (laterAt (genesisTime + secondsPerYear) db) initMinerName 0 = .ok db' ∧
        ∃ a', db'.accounts.find? initMinerName = some a' ∧ a'.dbdBalance = 1100 := by decide +kernel
  have hstart : Represented lender := ⟨by decide, by decide, Or.inr (by decide)⟩
  have hcreated : Held false initMinerName lender fun _ => 0 := .created rfl rfl
  obtain ⟨held, hheld⟩ : ∃ held, Held false initMinerName db held :=
    ⟨_, hcreated.change hstart hdb ha hsmall⟩
  have hyear : Held false initMinerName (laterAt (genesisTime + secondsPerYear) db) held :=
    hheld.other ha ha rfl (by rw [laterAt_time, hsame.1]; decide)
  have hnow : Represented (laterAt (genesisTime + secondsPerYear) db) :=
    ⟨by rw [laterAt_time]; decide, hsame.2.1 ▸ by decide,
      Or.inr (show db.medianHistory.Valid ∧ _ from hsame.2.2 ▸ by decide)⟩
  obtain ⟨paid, -, haccrued⟩ := interest_exact hyear hnow ha hlater ha'
  exact ⟨_, db', held, a, a', paid, hyear, hlater, hbalance, haccrued⟩

end DeltaChain.Ledger

import DeltaChain.Market.Book

/-!
# What a match gives to the two orders

A match trades at the price of the resting order. Which side is used up is decided by one conversion,
what the other side gets by another, and both round down. From the crossing of the two prices follows
that neither order gets less than it asks for what it pays (`match_fair`).

The sellers are paid into their balances, which pays interest on DBD if it is due. `CanBePaid` says that this
works: the account is there and the interest fits.
-/

namespace DeltaChain.Market

open Lib Protocol Ledger Ledger.Database Checked Table

variable {db db' : Database} {name : AccountName} {id : Nat} {o : LimitOrder}

-- # Paying a seller

/-- The interest that is due can be paid, at the price of the feed. -/
def InterestFits (median : Price) (now rate : Nat) (a : Account) : Prop :=
  ∃ d paid, a.dbdDeposit.accrue now rate = .ok (d, paid) ∧ 0 ≤ d.balance ∧
    ∀ interest, paid = some interest → ∃ value, (⟨interest, .dbd⟩ : Asset).mul median = .ok value

/-- The account is there, and can be credited. -/
def CanBePaid (db : Database) (name : AccountName) : Prop :=
  ∃ a, db.accounts.find? name = some a ∧ 0 ≤ a.balance ∧ 0 ≤ a.vestingShares ∧
    InterestFits db.medianHistory db.headBlockTime db.props.dbdInterestRate a

/-- Holding DBD is brought up to date only once at a time. -/
theorem Deposit.accrue_again {d d' : Deposit} {now rate : Nat} {paid : Option Int}
    (h : d.accrue now rate = .ok (d', paid)) (x : Int) :
    Deposit.accrue { d' with balance := x } now rate = .ok ({ d' with balance := x }, none) := by
  have hnow : d'.secondsLastUpdate = now := by
    obtain ⟨hnow, rfl, -⟩ | ⟨-, _, -, ⟨rfl, -⟩ | ⟨-, rfl, -⟩⟩ := Deposit.accrue_cases h
    · exact hnow
    all_goals rfl
  unfold Deposit.accrue
  rw [if_neg (not_not.mpr hnow)]
  rfl

/-- A change of one account leaves the others payable. -/
theorem CanBePaid.modify {f : Account → Account} {other : AccountName}
    (hmedian : db'.medianHistory = db.medianHistory) (htime : db'.headBlockTime = db.headBlockTime)
    (hrate : db'.props.dbdInterestRate = db.props.dbdInterestRate)
    (haccounts : db'.accounts = db.accounts)
    (hself : ∀ a, db.accounts.find? name = some a → 0 ≤ (f a).balance ∧ 0 ≤ (f a).vestingShares ∧
      InterestFits db.medianHistory db.headBlockTime db.props.dbdInterestRate (f a))
    (h : CanBePaid db other) : CanBePaid (db'.modifyAccount name f) other := by
  obtain ⟨a, hfind, hbalance, hshares, hinterest⟩ := h
  show ∃ a, (db'.accounts.modify name f).find? other = some a ∧ 0 ≤ a.balance ∧
    0 ≤ a.vestingShares ∧ InterestFits db'.medianHistory db'.headBlockTime
      db'.props.dbdInterestRate a
  rw [hmedian, htime, hrate, haccounts]
  by_cases heq : other = name
  · subst heq
    exact ⟨f a, by rw [find?_modify_self, hfind]; rfl, hself a hfind⟩
  · exact ⟨a, by rw [find?_modify_ne _ _ heq]; exact hfind, hbalance, hshares, hinterest⟩

/-- **Crediting** an account works, and leaves all accounts payable. -/
theorem adjustBalance_credits {x : Asset} (h : CanBePaid db name) (hx : 0 ≤ x.amount) :
    ∃ db', db.adjustBalance name x = .ok db' ∧ ∀ other, CanBePaid db other → CanBePaid db' other := by
  obtain ⟨a, hfind, hbalance, hshares, d, paid, haccrue, hdeposit, hfeed⟩ := h
  have hself : ∀ a', db.accounts.find? name = some a' → a' = a := fun a' h =>
    Option.mem_unique h hfind
  cases hsymbol : x.symbol with
  | delta =>
    refine ⟨db.modifyAccount name fun a => { a with balance := a.balance + x.amount }, ?_,
      fun other => CanBePaid.modify rfl rfl rfl rfl ?_⟩
    · simp only [adjustBalance, hsymbol, eq_ok, getAccount_eq_ok]
      exact ⟨a, hfind, by omega, trivial⟩
    · intro a' h'
      rw [hself a' h']
      exact ⟨add_nonneg hbalance hx, hshares, d, paid, haccrue, hdeposit, hfeed⟩
  | vests =>
    refine ⟨db.modifyAccount name fun a => { a with vestingShares := a.vestingShares + x.amount }, ?_,
      fun other => CanBePaid.modify rfl rfl rfl rfl ?_⟩
    · simp only [adjustBalance, hsymbol, eq_ok, getAccount_eq_ok]
      exact ⟨a, hfind, by omega, trivial⟩
    · intro a' h'
      rw [hself a' h']
      exact ⟨hbalance, add_nonneg hshares hx, d, paid, haccrue, hdeposit, hfeed⟩
  | dbd =>
    -- the interest is paid first
    obtain ⟨db₁, hpay, hmedian, htime, hrate, haccounts⟩ : ∃ db₁, db.payInterest paid = .ok db₁ ∧
        db₁.medianHistory = db.medianHistory ∧ db₁.headBlockTime = db.headBlockTime ∧
        db₁.props.dbdInterestRate = db.props.dbdInterestRate ∧ db₁.accounts = db.accounts := by
      cases paid with
      | none => exact ⟨db, rfl, rfl, rfl, rfl, rfl⟩
      | some interest =>
        obtain ⟨value, hvalue⟩ := hfeed interest rfl
        refine ⟨db.modifyProps fun g =>
          { g with
            currentDbdSupply := g.currentDbdSupply + interest
            virtualSupply := g.virtualSupply + value.amount }, ?_, rfl, rfl, rfl, rfl⟩
        rw [payInterest, hvalue, ok_bind]
        rfl
    refine ⟨db₁.modifyAccount name fun a =>
      a.withDbdDeposit { d with balance := d.balance + x.amount }, ?_, fun other =>
        CanBePaid.modify hmedian htime hrate haccounts ?_⟩
    · simp only [adjustBalance, hsymbol, eq_ok, getAccount_eq_ok]
      exact ⟨a, hfind, (d, paid), haccrue, db₁, hpay, add_nonneg hdeposit hx, rfl⟩
    · intro a' h'
      rw [hself a' h']
      refine ⟨hbalance, hshares, _, none, Deposit.accrue_again haccrue _, ?_, ?_⟩
      · show 0 ≤ d.balance + x.amount
        omega
      · intro interest h
        cases h

-- # Filling an order

/-- What filling an order leaves. -/
structure Fills (db db' : Database) (id : Nat) (gone : Bool) : Prop where
  payable : ∀ name, CanBePaid db name → CanBePaid db' name
  other : ∀ j, j ≠ id → db'.limitOrders.find? j = db.limitOrders.find? j
  erased : gone = true → db'.limitOrders.find? id = none

/-- A part of an order is filled; what is left goes back if it is worth nothing. -/
theorem fillPart_fills {pays : Int} (ho : db.limitOrders.find? id = some o) (ht : Tradable o)
    (hpaid : CanBePaid db o.seller) (hpays : 0 ≤ pays) (hlt : pays < o.forSale) :
    ∃ db' gone, db.fillPart id pays = .ok (db', gone) ∧ Fills db db' id gone := by
  set left : LimitOrder := { o with forSale := o.forSale - pays } with hleft
  set db₁ : Database := { db with limitOrders := db.limitOrders.modify id fun _ => left } with hdb₁
  have hfind : db₁.limitOrders.find? id = some left := by
    rw [hdb₁, find?_modify_self, ho]
    rfl
  have hother : ∀ j, j ≠ id → db₁.limitOrders.find? j = db.limitOrders.find? j := fun j hj =>
    find?_modify_ne _ _ hj
  have hworth : left.amountToReceive = _ :=
    ht.amountToReceive (by omega : 0 ≤ o.forSale - pays) (by omega)
  have hpart : db.fillPart id pays =
      (if (o.forSale - pays) * o.sellPrice.quote.amount / o.sellPrice.base.amount = 0 then
        do return (← db₁.cancelOrder id, true)
      else .ok (db₁, false)) := by
    rw [fillPart, getOrder_eq_ok.mpr ho, ok_bind, (assert_eq_ok (u := ())).mpr hlt, ok_bind]
    show (left.amountToReceive >>= _) = _
    rw [hworth, ok_bind]
    rfl
  rw [hpart]
  split
  · -- what is left is given back
    have hnonneg : 0 ≤ left.amountForSale.amount := by
      show 0 ≤ o.forSale - pays
      omega
    obtain ⟨db₂, hadjust, hpayable⟩ : ∃ db₂, db₁.adjustBalance left.seller left.amountForSale =
        .ok db₂ ∧ ∀ other, CanBePaid db₁ other → CanBePaid db₂ other :=
      adjustBalance_credits hpaid hnonneg
    have horders := (adjustBalance_writes hadjust).2
    refine ⟨db₂.removeOrder id, true, ?_, hpayable, fun j hj => ?_, fun _ => ?_⟩
    · rw [cancelOrder, getOrder_eq_ok.mpr hfind, ok_bind, hadjust]
      rfl
    · rw [find?_removeOrder, if_neg hj, horders, hother j hj]
    · rw [find?_removeOrder, if_pos rfl]
  · exact ⟨db₁, false, rfl, fun name h => h, hother, fun h => absurd h Bool.false_ne_true⟩

/-- **Filling** an order works for any part of what it sells, and takes it away if that is all. -/
theorem fillOrder_fills (pays receives : Asset) (ho : db.limitOrders.find? id = some o)
    (ht : Tradable o) (hpaid : CanBePaid db o.seller) (hsym : o.sellPrice.base.symbol = pays.symbol)
    (hne : pays.symbol ≠ receives.symbol) (hpays : 0 ≤ pays.amount) (hle : pays.amount ≤ o.forSale)
    (hreceives : 0 ≤ receives.amount) :
    ∃ db' gone, db.fillOrder id pays receives = .ok (db', gone) ∧ Fills db db' id gone ∧
      (pays.amount = o.forSale → gone = true) := by
  obtain ⟨db₁, hadjust, hpayable⟩ := adjustBalance_credits hpaid hreceives
  have horders := (adjustBalance_writes hadjust).2
  by_cases hall : pays.amount = o.forSale
  · have heq : pays = o.amountForSale := by
      rw [LimitOrder.amountForSale, hsym, ← hall]
    refine ⟨db₁.removeOrder id, true, ?_, ⟨hpayable, fun j hj => ?_, fun _ => ?_⟩, fun _ => rfl⟩
    · simp only [fillOrder, eq_ok, getOrder_eq_ok]
      refine ⟨o, ho, hsym, hne, db₁, hadjust, ?_⟩
      rw [if_pos heq]
      rfl
    · rw [find?_removeOrder, if_neg hj, horders]
    · rw [find?_removeOrder, if_pos rfl]
  · have hne' : pays ≠ o.amountForSale := fun h => hall (congrArg AssetOf.amount h)
    obtain ⟨db', gone, hpart, hfills⟩ := fillPart_fills (horders ▸ ho) ht
      (hpayable o.seller hpaid) hpays (by omega)
    refine ⟨db', gone, ?_, ⟨fun name h => hfills.payable name (hpayable name h), fun j hj => ?_,
      hfills.erased⟩, fun h => absurd h hall⟩
    · simp only [fillOrder, eq_ok, getOrder_eq_ok]
      refine ⟨o, ho, hsym, hne, db₁, hadjust, ?_⟩
      rw [if_neg hne']
      exact hpart
    · rw [hfills.other j hj, horders]

-- # Two conversions at the resting price

section Conversion

variable {sold offered base quote newBase newQuote : Int}

theorem convert_back_le (hb : 0 < base) (hq : 0 < quote) :
    sold * base / quote * quote / base ≤ sold :=
  Int.ediv_le_of_le_mul hb (Int.ediv_mul_le _ hq.ne')

/-- Rounding down before a multiplication loses nothing that the product is compared with. -/
theorem ediv_mul_le_of_le {x y d q : Int} (hd : 0 < d) (hq : 0 ≤ q) (h : x * q ≤ y * d) :
    x / d * q ≤ y := by
  have hscaled : x / d * q * d ≤ y * d := by
    calc x / d * q * d = x / d * d * q := by ring
      _ ≤ x * q := mul_le_mul_of_nonneg_right (Int.ediv_mul_le _ hd.ne') hq
      _ ≤ y * d := h
  exact le_of_mul_le_mul_right hscaled hd

theorem limit_le_convert (hsold : 0 ≤ sold) (hq : 0 < quote) (hnb : 0 < newBase)
    (hcross : quote * newQuote ≤ base * newBase) :
    sold * newQuote / newBase ≤ sold * base / quote := by
  refine (Int.le_ediv_iff_mul_le hq).mpr (ediv_mul_le_of_le hnb hq.le ?_)
  linarith [mul_le_mul_of_nonneg_left hcross hsold]

theorem limit_le_offered (hoffered : 0 ≤ offered) (hb : 0 < base) (hnb : 0 < newBase)
    (hnq : 0 ≤ newQuote) (hcross : quote * newQuote ≤ base * newBase) :
    offered * quote / base * newQuote / newBase ≤ offered := by
  refine Int.ediv_le_of_le_mul hnb (ediv_mul_le_of_le hb hnq ?_)
  linarith [mul_le_mul_of_nonneg_left hcross hoffered]

end Conversion

-- # Matching two orders

variable {newId oldId : Nat} {newOrder oldOrder : LimitOrder}

/-- What two orders give to each other. -/
structure FairTrade (newOrder oldOrder : LimitOrder) (newReceives oldReceives : Int) : Prop where
  new_pays_le : oldReceives ≤ newOrder.forSale
  old_pays_le : newReceives ≤ oldOrder.forSale
  one_le_new : 1 ≤ newReceives
  one_le_old : 1 ≤ oldReceives
  old_limit : newReceives * oldOrder.sellPrice.quote.amount / oldOrder.sellPrice.base.amount ≤
    oldReceives
  new_limit : oldReceives * newOrder.sellPrice.quote.amount / newOrder.sellPrice.base.amount ≤
    newReceives
  all_paid : oldReceives = newOrder.forSale ∨ newReceives = oldOrder.forSale

/-- The amounts of a match, from the crossing of the prices. -/
theorem matchAmounts_fair (hnew : Tradable newOrder) (hold : Tradable oldOrder)
    (hcross : Crosses oldOrder.sellPrice newOrder.sellPrice) :
    ∃ newReceives oldReceives,
      matchAmounts newOrder oldOrder oldOrder.sellPrice =
        .ok (⟨newReceives, oldOrder.sellPrice.base.symbol⟩, ⟨oldReceives, newOrder.sellPrice.base.symbol⟩) ∧
      FairTrade newOrder oldOrder newReceives oldReceives := by
  obtain ⟨hsymBase, hsymQuote, hprices⟩ := crosses_iff.mp hcross
  have hb := hold.valid.base_pos
  have hq := hold.valid.quote_pos
  have hnb := hnew.valid.base_pos
  have hnq := hnew.valid.quote_pos
  have hnewpos := hnew.pos
  have holdpos := hold.pos
  have hworth : oldOrder.amountForSale.mul oldOrder.sellPrice = _ :=
    hold.amountToReceive holdpos.le le_rfl
  set value := oldOrder.forSale * oldOrder.sellPrice.quote.amount / oldOrder.sellPrice.base.amount
    with hvalue
  have hsymbol : newOrder.amountForSale.symbol = oldOrder.sellPrice.quote.symbol := hsymQuote.symm
  have hamounts : matchAmounts newOrder oldOrder oldOrder.sellPrice =
      if newOrder.forSale ≤ value then do
        return (← newOrder.amountForSale.mul oldOrder.sellPrice, newOrder.amountForSale)
      else .ok (oldOrder.amountForSale, ⟨value, oldOrder.sellPrice.quote.symbol⟩) := by
    rw [matchAmounts, hworth, ok_bind, (assert_eq_ok (u := ())).mpr hsymbol, ok_bind]
    rfl
  rw [hamounts]
  have hnewWorth := hnew.one_le
  by_cases hle : newOrder.forSale ≤ value
  · -- the new order is used up
    rw [if_pos hle]
    obtain ⟨hpaid, hmul⟩ := hnew.amountForSale_mul hold hsymbol hle
    have hlimit := limit_le_convert hnewpos.le hq hnb hprices
    refine ⟨_, newOrder.forSale, ?_, le_rfl, hpaid, by omega, by omega, convert_back_le hb hq, hlimit,
      Or.inl rfl⟩
    rw [hmul, ok_bind]
    rfl
  · -- the old order is used up
    rw [if_neg hle]
    have hlimit := limit_le_offered holdpos.le hb hnb hnq.le hprices
    refine ⟨oldOrder.forSale, value, ?_, by omega, le_rfl, by omega, hold.one_le, le_rfl, hlimit,
      Or.inr rfl⟩
    rw [hsymQuote]
    rfl

/-- **What a match does** for two orders as `apply_order` hands them to it: it returns, one of the
orders at least is gone, what one pays the other receives, neither pays more than it has for sale, and each
receives at least 1 and at least what it asks for what it pays. -/
theorem match_fair (db : Database) (newId oldId : Nat) (newOrder oldOrder : LimitOrder)
    (hfindNew : db.limitOrders.find? newId = some newOrder)
    (hfindOld : db.limitOrders.find? oldId = some oldOrder) (hnew : Tradable newOrder)
    (hold : Tradable oldOrder) (hcross : Crosses oldOrder.sellPrice newOrder.sellPrice)
    (hpaidNew : CanBePaid db newOrder.seller) (hpaidOld : CanBePaid db oldOrder.seller) :
    ∃ db₁ db' newGone oldGone newPays newReceives oldPays oldReceives,
      db.matchOrders newId oldId = .ok (db', newGone, oldGone) ∧
      db.fillOrder newId newPays newReceives = .ok (db₁, newGone) ∧
      db₁.fillOrder oldId oldPays oldReceives = .ok (db', oldGone) ∧
      newPays = oldReceives ∧ oldPays = newReceives ∧
      (newGone = true ∧ db'.limitOrders.find? newId = none ∨
        oldGone = true ∧ db'.limitOrders.find? oldId = none) ∧
      newPays.amount ≤ newOrder.forSale ∧ oldPays.amount ≤ oldOrder.forSale ∧
      1 ≤ newReceives.amount ∧ 1 ≤ oldReceives.amount ∧
      oldPays.amount * oldOrder.sellPrice.quote.amount / oldOrder.sellPrice.base.amount ≤
        oldReceives.amount ∧
      newPays.amount * newOrder.sellPrice.quote.amount / newOrder.sellPrice.base.amount ≤
        newReceives.amount := by
  obtain ⟨newReceives, oldReceives, hamounts, hfair⟩ := matchAmounts_fair hnew hold hcross
  obtain ⟨hsymBase, hsymQuote, -⟩ := crosses_iff.mp hcross
  have hone := hfair.one_le_new
  have hone' := hfair.one_le_old
  have hne : oldId ≠ newId := by
    -- an order does not sell what it buys
    rintro rfl
    obtain rfl : newOrder = oldOrder := Option.mem_unique hfindNew hfindOld
    exact hnew.valid.ne hsymBase
  have hsymbols : newOrder.sellPrice.base.symbol ≠ oldOrder.sellPrice.base.symbol := by
    rw [← hsymQuote]
    exact hold.valid.ne.symm
  have hnonneg : 0 ≤ newReceives := by omega
  have hnonneg' : 0 ≤ oldReceives := by omega
  obtain ⟨db₁, newGone, hfillNew, hfillsNew, hallNew⟩ := fillOrder_fills
    ⟨oldReceives, newOrder.sellPrice.base.symbol⟩ ⟨newReceives, oldOrder.sellPrice.base.symbol⟩
    hfindNew hnew hpaidNew rfl hsymbols hnonneg' hfair.new_pays_le hnonneg
  obtain ⟨db', oldGone, hfillOld, hfillsOld, hallOld⟩ := fillOrder_fills
    ⟨newReceives, oldOrder.sellPrice.base.symbol⟩ ⟨oldReceives, newOrder.sellPrice.base.symbol⟩
    ((hfillsNew.other oldId hne).trans hfindOld) hold (hfillsNew.payable _ hpaidOld) rfl
    hsymbols.symm hnonneg hfair.old_pays_le hnonneg'
  have hgone : newGone = true ∨ oldGone = true := hfair.all_paid.imp hallNew hallOld
  refine ⟨db₁, db', newGone, oldGone, _, _, _, _, ?_, hfillNew, hfillOld, rfl, rfl, ?_,
    hfair.new_pays_le, hfair.old_pays_le, hone, hone', hfair.old_limit, hfair.new_limit⟩
  · simp only [matchOrders, eq_ok, getOrder_eq_ok]
    refine ⟨newOrder, hfindNew, oldOrder, hfindOld, hsymBase.symm, hsymQuote.symm,
      ⟨hnew.pos, hold.pos⟩, hsymQuote, trivial, _, hamounts, ?_, _, hfillNew, _, hfillOld, hgone, rfl⟩
    refine hfair.all_paid.imp (fun h => ?_) fun h => ?_
    · rw [h]
      rfl
    · rw [h]
      rfl
  · refine hgone.imp (fun h => ⟨h, ?_⟩) fun h => ⟨h, hfillsOld.erased h⟩
    rw [hfillsOld.other newId hne.symm]
    exact hfillsNew.erased h

/-- A resting order for 3 DELTA : 2 DBD, and a new one that asks for 1 DELTA : 1 DBD. -/
def twoOrders : Database :=
  { twoTraders with
    accounts := ((Table.empty.emplace "alice" { dbdSecondsLastUpdate := genesisTime }).emplace "bob"
      { dbdSecondsLastUpdate := genesisTime })
    limitOrders := (Table.empty.emplace 0
      ⟨genesisTime, genesisTime + 60, "alice", 1, 30, ⟨⟨3, .delta⟩, ⟨2, .dbd⟩⟩⟩).emplace 1
      ⟨genesisTime, genesisTime + 60, "bob", 1, 7, ⟨⟨1, .dbd⟩, ⟨1, .delta⟩⟩⟩ }

/-- The new order is filled for no more than its 7 DBD. -/
theorem match_fair_part : ∃ db₁ db' newGone oldGone newPays newReceives,
    twoOrders.matchOrders 1 0 = .ok (db', newGone, oldGone) ∧
    twoOrders.fillOrder 1 newPays newReceives = .ok (db₁, newGone) ∧
    newPays.amount ≤ 7 ∧ 1 ≤ newReceives.amount ∧ newPays.amount * 1 / 1 ≤ newReceives.amount := by
  obtain ⟨db₁, db', newGone, oldGone, newPays, newReceives, oldPays, oldReceives, hmatch, hfill, -, -,
    -, -, hle, -, hone, -, -, hlimit⟩ := match_fair twoOrders 1 0
      ⟨genesisTime, genesisTime + 60, "bob", 1, 7, ⟨⟨1, .dbd⟩, ⟨1, .delta⟩⟩⟩
      ⟨genesisTime, genesisTime + 60, "alice", 1, 30, ⟨⟨3, .delta⟩, ⟨2, .dbd⟩⟩⟩ rfl rfl
      ⟨by decide, by decide, by decide, by decide, by decide, by decide, by decide⟩
      ⟨by decide, by decide, by decide, by decide, by decide, by decide, by decide⟩ (by decide)
      ⟨_, rfl, by decide, by decide, _, none, rfl, by decide, fun _ h => nomatch h⟩
      ⟨_, rfl, by decide, by decide, _, none, rfl, by decide, fun _ h => nomatch h⟩
  exact ⟨db₁, db', newGone, oldGone, newPays, newReceives, hmatch, hfill, hle, hone, hlimit⟩

end DeltaChain.Market

import DeltaChain.Ledger.Invariants
import DeltaChain.Market.Orders

/-!
# The market keeps the books balanced

Whatever orders match, shrink, are given back or expire, the books of `validate_invariants`
stay as they are: an order that is filled pays what the other one receives, and what is left
of an order goes back to its seller. So for DELTA and for DBD the balances of all accounts
and what is for sale add up to the same as before, but for the interest, which is also added
to the supply (`market_conserves`).

`MarketWrites` is what the market may write to: balances, the DBD supply, and the orders.
-/

namespace DeltaChain.Ledger.Database

open Lib Protocol Checked Table

variable {db db' db₁ db₂ : Database} {name : AccountName} {id : Nat} {o : LimitOrder}

-- # What the market writes

/-- Writes to balances, to the DBD supply and to orders. -/
inductive MarketWrites (db : Database) : Database → Prop where
  | refl : MarketWrites db db
  | balance {db' : Database} (name : AccountName) (x : Int) : MarketWrites db db' →
      MarketWrites db (db'.modifyAccount name fun a => { a with balance := a.balance + x })
  | deposit {db' : Database} (name : AccountName) (d : Deposit) : MarketWrites db db' →
      MarketWrites db (db'.modifyAccount name fun a => a.withDbdDeposit d)
  | shares {db' : Database} (name : AccountName) (x : Int) : MarketWrites db db' →
      MarketWrites db (db'.modifyAccount name fun a =>
        { a with vestingShares := a.vestingShares + x })
  | interest {db' : Database} (paid value : Int) : MarketWrites db db' →
      MarketWrites db (db'.modifyProps fun g =>
        { g with
          currentDbdSupply := g.currentDbdSupply + paid
          virtualSupply := g.virtualSupply + value })
  | orders {db' : Database} (orders : Table Nat LimitOrder) (next : Nat) : MarketWrites db db' →
      MarketWrites db { db' with limitOrders := orders, nextLimitOrderId := next }

namespace MarketWrites

theorem trans (h₁ : MarketWrites db db₁) (h₂ : MarketWrites db₁ db₂) : MarketWrites db db₂ := by
  induction h₂ with
  | refl => exact h₁
  | balance name x _ ih => exact ih.balance name x
  | deposit name d _ ih => exact ih.deposit name d
  | shares name x _ ih => exact ih.shares name x
  | interest paid value _ ih => exact ih.interest paid value
  | orders orders next _ ih => exact ih.orders orders next

theorem sum {M : Type} [AddCommGroup M] (h : MarketWrites db db') {g : Account → M}
    (hbalance : ∀ a x, g { a with balance := x } = g a)
    (hdeposit : ∀ a d, g (a.withDbdDeposit d) = g a)
    (hshares : ∀ a x, g { a with vestingShares := x } = g a) :
    (db'.accounts.sum fun _ a => g a) = db.accounts.sum fun _ a => g a := by
  induction h with
  | refl => rfl
  | balance name x _ ih => exact (sum_modify_of_eq fun a => hbalance a _).trans ih
  | deposit name d _ ih => exact (sum_modify_of_eq fun a => hdeposit a _).trans ih
  | shares name x _ ih => exact (sum_modify_of_eq fun a => hshares a _).trans ih
  | interest paid value _ ih => exact ih
  | orders orders next _ ih => exact ih

/-- The other tables and the other global properties are as before. -/
theorem frame (h : MarketWrites db db') :
    db' = { db with
      accounts := db'.accounts
      limitOrders := db'.limitOrders
      nextLimitOrderId := db'.nextLimitOrderId
      props := { db.props with
        currentDbdSupply := db'.props.currentDbdSupply
        virtualSupply := db'.props.virtualSupply } } := by
  induction h with
  | refl => rfl
  | balance name x _ ih =>
    rw [ih]
    rfl
  | deposit name d _ ih =>
    rw [ih]
    rfl
  | shares name x _ ih =>
    rw [ih]
    rfl
  | interest paid value _ ih =>
    rw [ih]
    rfl
  | orders orders next _ ih =>
    rw [ih]

end MarketWrites

theorem payInterest_writes {paid : Option Int} (h : db.payInterest paid = .ok db') :
    MarketWrites db db' := by
  cases paid with
  | none =>
    obtain rfl : db = db' := by simpa [payInterest] using h
    exact .refl
  | some paid =>
    simp only [payInterest, eq_ok] at h
    obtain ⟨value, -, rfl⟩ := h
    exact .interest paid value.amount .refl

theorem adjustBalance_writes {x : Asset} (h : db.adjustBalance name x = .ok db') :
    MarketWrites db db' ∧ db'.limitOrders = db.limitOrders := by
  unfold adjustBalance at h
  simp only [bind_eq_ok, getAccount_eq_ok] at h
  obtain ⟨a, -, h⟩ := h
  cases hsym : x.symbol with
  | delta =>
    simp only [hsym, eq_ok] at h
    obtain ⟨-, rfl⟩ := h
    exact ⟨.balance name x.amount .refl, rfl⟩
  | dbd =>
    simp only [hsym, eq_ok] at h
    obtain ⟨⟨d, paid⟩, -, db₁, hpay, -, rfl⟩ := h
    have hpaid := payInterest_writes hpay
    refine ⟨hpaid.deposit name _, ?_⟩
    cases paid with
    | none =>
      obtain rfl : db = db₁ := by simpa [payInterest] using hpay
      rfl
    | some paid =>
      simp only [payInterest, eq_ok] at hpay
      obtain ⟨value, -, rfl⟩ := hpay
      rfl
  | vests =>
    simp only [hsym, eq_ok] at h
    obtain ⟨-, rfl⟩ := h
    exact ⟨.shares name x.amount .refl, rfl⟩

-- # Orders

theorem imbalance_removeOrder (ho : db.limitOrders.find? id = some o) :
    (db.removeOrder id).imbalance = db.imbalance + Asset.entry o.amountForSale := by
  unfold removeOrder
  rw [imbalance_setOrders, Table.sum_erase ho, LimitOrder.holds]
  abel

theorem MarketWrites.removeOrder (h : MarketWrites db db') : MarketWrites db (db'.removeOrder id) :=
  h.orders (db'.limitOrders.erase id) db'.nextLimitOrderId

theorem cancelOrder_books (h : db.cancelOrder id = .ok db') :
    db'.imbalance = db.imbalance ∧ MarketWrites db db' := by
  simp only [cancelOrder, eq_ok, getOrder_eq_ok] at h
  obtain ⟨o, ho, db₁, hadj, rfl⟩ := h
  obtain ⟨hwrites, horders⟩ := adjustBalance_writes hadj
  refine ⟨?_, hwrites.removeOrder⟩
  rw [imbalance_removeOrder (horders ▸ ho), adjustBalance_imbalance hadj]
  abel

/-- A filled order holds less by what it pays. -/
theorem fillPart_books {pays : Int} {gone : Bool} (ho : db.limitOrders.find? id = some o)
    (h : db.fillPart id pays = .ok (db', gone)) :
    db'.imbalance = db.imbalance + Asset.entry ⟨pays, o.sellPrice.base.symbol⟩ ∧
      MarketWrites db db' := by
  simp only [fillPart, eq_ok, getOrder_eq_ok] at h
  obtain ⟨o', ho', -, toReceive, -, h⟩ := h
  obtain rfl : o = o' := Option.mem_unique ho ho'
  set left : LimitOrder := { o with forSale := o.forSale - pays } with hleft
  set db₁ : Database := { db with limitOrders := db.limitOrders.modify id fun _ => left } with hdb₁
  have hwrites : MarketWrites db db₁ := .orders _ db.nextLimitOrderId .refl
  have himb : db₁.imbalance = db.imbalance + Asset.entry ⟨pays, o.sellPrice.base.symbol⟩ := by
    rw [hdb₁, imbalance_setOrders, sum_modify ho]
    have hholds : left.holds = o.holds - Asset.entry ⟨pays, o.sellPrice.base.symbol⟩ := by
      simp only [hleft, LimitOrder.holds, LimitOrder.amountForSale, Asset.entry]
      cases o.sellPrice.base.symbol <;> exact Pi.single_sub ..
    rw [hholds]
    abel
  split at h
  · simp only [eq_ok, Prod.mk.injEq] at h
    obtain ⟨db₂, hcancel, rfl, -⟩ := h
    obtain ⟨himb₂, hwrites₂⟩ := cancelOrder_books hcancel
    exact ⟨himb₂.trans himb, hwrites.trans hwrites₂⟩
  · simp only [pure_eq_ok, Prod.mk.injEq] at h
    obtain ⟨rfl, -⟩ := h
    exact ⟨himb, hwrites⟩

theorem fillOrder_books {pays receives : Asset} {gone : Bool}
    (h : db.fillOrder id pays receives = .ok (db', gone)) :
    db'.imbalance = db.imbalance + Asset.entry pays - Asset.entry receives ∧
      MarketWrites db db' := by
  simp only [fillOrder, eq_ok, getOrder_eq_ok] at h
  obtain ⟨o, ho, hsym, -, db₁, hadj, h⟩ := h
  obtain ⟨hwrites, horders⟩ := adjustBalance_writes hadj
  have ho₁ : db₁.limitOrders.find? id = some o := horders ▸ ho
  split at h
  · next hall =>
    obtain ⟨rfl, -⟩ := h
    refine ⟨?_, hwrites.removeOrder⟩
    rw [imbalance_removeOrder ho₁, adjustBalance_imbalance hadj, hall]
    abel
  · obtain ⟨himb, hwrites'⟩ := fillPart_books ho₁ h
    refine ⟨?_, hwrites.trans hwrites'⟩
    have hpays : (⟨pays.amount, o.sellPrice.base.symbol⟩ : Asset) = pays := by
      change o.sellPrice.base.symbol = pays.symbol at hsym
      rw [hsym]
    rw [himb, adjustBalance_imbalance hadj, hpays]
    abel

theorem matchOrders_books {newId oldId : Nat} {gone : Bool × Bool}
    (h : db.matchOrders newId oldId = .ok (db', gone)) :
    db'.imbalance = db.imbalance ∧ MarketWrites db db' := by
  simp only [matchOrders, eq_ok, getOrder_eq_ok] at h
  obtain ⟨newOrder, -, oldOrder, -, -, -, -, -, -, ⟨newReceives, oldReceives⟩, -, -, ⟨db₁, newGone⟩,
    hnew, ⟨db₂, oldGone⟩, hold, -, heq⟩ := h
  obtain ⟨rfl, -⟩ := Prod.mk.inj heq
  obtain ⟨himb₁, hwrites₁⟩ := fillOrder_books hnew
  obtain ⟨himb₂, hwrites₂⟩ := fillOrder_books hold
  refine ⟨?_, hwrites₁.trans hwrites₂⟩
  rw [himb₂, himb₁]
  abel

theorem matchAll_books {newId : Nat} {oldIds : List Nat} (h : matchAll newId oldIds db = .ok db') :
    db'.imbalance = db.imbalance ∧ MarketWrites db db' := by
  induction oldIds generalizing db with
  | nil =>
    cases h
    exact ⟨rfl, .refl⟩
  | cons oldId rest ih =>
    rw [matchAll, bind_eq_ok] at h
    obtain ⟨⟨db₁, newGone, oldGone⟩, hmatch, h⟩ := h
    obtain ⟨himb₁, hwrites₁⟩ := matchOrders_books hmatch
    simp only at h
    split at h
    · cases h
      exact ⟨himb₁, hwrites₁⟩
    · obtain ⟨himb, hwrites⟩ := ih h
      exact ⟨himb.trans himb₁, hwrites₁.trans hwrites⟩

theorem createOrder_books (h : db.createOrder o = .ok (db', id)) :
    db'.imbalance = db.imbalance - Asset.entry o.amountForSale ∧ MarketWrites db db' := by
  simp only [createOrder, eq_ok, get_eq_ok] at h
  obtain ⟨-, orders, hinsert, heq⟩ := h
  obtain ⟨rfl, -⟩ := Prod.mk.inj heq
  refine ⟨?_, .orders orders _ .refl⟩
  refine (imbalance_setOrders orders).trans ?_
  rw [sum_insert? hinsert, LimitOrder.holds]
  abel

-- # Operations

theorem placeOrder_books {owner : AccountName} {orderid expiration : Nat} {amountToSell : Asset}
    {sellPrice : Price} {fillOrKill : Bool} (hsym : amountToSell.symbol = sellPrice.base.symbol)
    (h : db.placeOrder owner orderid amountToSell sellPrice expiration fillOrKill = .ok db') :
    db'.imbalance = db.imbalance ∧ MarketWrites db db' := by
  simp only [placeOrder, applyOrder, eq_ok] at h
  obtain ⟨-, -, balance, -, -, db₁, hadj, ⟨db₂, id⟩, hcreate, ⟨db₃, filled⟩,
    ⟨newOrder, -, db₄, hmatch, heq⟩, -, rfl⟩ := h
  obtain ⟨rfl, -⟩ := Prod.mk.inj heq
  obtain ⟨hwrites₁, -⟩ := adjustBalance_writes hadj
  obtain ⟨himb₂, hwrites₂⟩ := createOrder_books hcreate
  obtain ⟨himb₃, hwrites₃⟩ := matchAll_books hmatch
  refine ⟨?_, (hwrites₁.trans hwrites₂).trans hwrites₃⟩
  have hneg : Asset.entry (-amountToSell) = -Asset.entry amountToSell := by
    simp only [Asset.entry, Asset.neg_symbol, Asset.neg_amount]
    cases amountToSell.symbol <;> exact Pi.single_neg ..
  have hsold : Asset.entry ⟨amountToSell.amount, sellPrice.base.symbol⟩ =
      Asset.entry amountToSell := by
    rw [← hsym]
  rw [himb₃, himb₂, adjustBalance_imbalance hadj, hneg]
  change db.imbalance - -Asset.entry amountToSell -
    Asset.entry ⟨amountToSell.amount, sellPrice.base.symbol⟩ = db.imbalance
  rw [hsold]
  abel

theorem limitOrderCreate_books {op : LimitOrderCreate} (h : db.limitOrderCreate op = .ok db') :
    db'.imbalance = db.imbalance ∧ MarketWrites db db' := by
  simp only [limitOrderCreate, LimitOrderCreate.validate, eq_ok] at h
  obtain ⟨sellPrice, ⟨-, hmake⟩, h⟩ := h
  obtain ⟨rfl, -⟩ := Price.make_eq_ok.mp hmake
  have hsym : op.amountToSell.symbol =
    (⟨op.amountToSell, op.minToReceive⟩ : Price).base.symbol := rfl
  exact placeOrder_books hsym h

theorem clearExpiredOrders_books (h : db.clearExpiredOrders = .ok db') :
    db'.imbalance = db.imbalance ∧ MarketWrites db db' := by
  refine foldlM_induct (fun db' : Database => db'.imbalance = db.imbalance ∧ MarketWrites db db')
    ?_ ⟨rfl, .refl⟩ h
  intro e _ db₁ db₂ hdb₁ hcancel
  obtain ⟨himb, hwrites⟩ := cancelOrder_books hcancel
  exact ⟨himb.trans hdb₁.1, hdb₁.2.trans hwrites⟩

end DeltaChain.Ledger.Database

namespace DeltaChain.Market

open Lib Protocol Ledger Ledger.Database Checked Table

variable {db db' : Database}

/-- The liquid balance of an account. -/
def liquidBalance (a : Account) : Symbol → Int
  | .delta => a.balance
  | .dbd => a.dbdBalance
  | .vests => a.vestingShares

/-- The balances of all accounts, and what all orders sell. -/
def inCirculation (db : Database) (s : Symbol) : Int :=
  (db.accounts.sum fun _ a => liquidBalance a s) +
    db.limitOrders.sum fun _ o => if o.sellPrice.base.symbol = s then o.forSale else 0

/-- What the market leaves as it is: the books, the DELTA in circulation, and the DBD in
circulation but for what is added to their supply. -/
structure Conserved (db db' : Database) : Prop where
  books : db'.imbalance = db.imbalance
  delta : inCirculation db' .delta = inCirculation db .delta
  dbd : inCirculation db' .dbd - db'.props.currentDbdSupply =
    inCirculation db .dbd - db.props.currentDbdSupply

theorem Conserved.trans {db₁ db₂ : Database} (h₁ : Conserved db db₁) (h₂ : Conserved db₁ db₂) :
    Conserved db db₂ :=
  ⟨h₂.books.trans h₁.books, h₂.delta.trans h₁.delta, h₂.dbd.trans h₁.dbd⟩

theorem totalSupply_eq (db : Database) : db.totalSupply = inCirculation db .delta +
    ((db.accounts.sum fun _ a => a.savingsBalance + a.rewardDeltaBalance) +
      db.convertRequests.sum (fun _ x => if x.symbol = .delta then x.amount else 0) +
      db.escrows.sum (fun _ e =>
        e.deltaBalance + if e.pendingFee.symbol = .delta then e.pendingFee.amount else 0) +
      db.savingsWithdraws.sum (fun _ x => if x.symbol = .delta then x.amount else 0) +
      db.rewardFunds.sum (fun _ f => f.rewardBalance) +
      (db.props.totalVestingFundDelta + db.props.totalRewardFundDelta +
        db.props.pendingRewardedVestingDelta)) := by
  unfold totalSupply inCirculation liquidBalance
  simp only [sum_add]
  ring

theorem totalDbd_eq (db : Database) : db.totalDbd = inCirculation db .dbd +
    ((db.accounts.sum fun _ a => a.savingsDbdBalance + a.rewardDbdBalance) +
      db.convertRequests.sum (fun _ x => if x.symbol = .dbd then x.amount else 0) +
      db.escrows.sum (fun _ e =>
        e.dbdBalance + if e.pendingFee.symbol = .dbd then e.pendingFee.amount else 0) +
      db.savingsWithdraws.sum (fun _ x => if x.symbol = .dbd then x.amount else 0)) := by
  unfold totalDbd inCirculation liquidBalance
  simp only [sum_add]
  ring

/-- What the market does not write to is as before, so the books say what circulates. -/
theorem Conserved.of_writes (himb : db'.imbalance = db.imbalance) (h : MarketWrites db db') :
    Conserved db db' := by
  have hsavings := h.sum (g := fun a => a.savingsBalance + a.rewardDeltaBalance)
    (fun _ _ => rfl) (fun _ _ => rfl) fun _ _ => rfl
  have hsavingsDbd := h.sum (g := fun a => a.savingsDbdBalance + a.rewardDbdBalance)
    (fun _ _ => rfl) (fun _ _ => rfl) fun _ _ => rfl
  have hdelta := congrFun himb .delta
  have hdbd := congrFun himb .dbd
  rw [imbalance_delta, imbalance_delta, totalSupply_eq, totalSupply_eq] at hdelta
  rw [imbalance_dbd, imbalance_dbd, totalDbd_eq, totalDbd_eq] at hdbd
  have hframe := h.frame
  refine ⟨himb, ?_, ?_⟩
  · rw [hframe] at hdelta ⊢
    simp only at hdelta ⊢
    omega
  · rw [hframe] at hdbd ⊢
    simp only at hdbd ⊢
    omega

theorem step_conserves {e : Event} (h : step db e = .ok db') : Conserved db db' := by
  cases e with
  | limitOrderCreate o =>
    obtain ⟨himb, hwrites⟩ := limitOrderCreate_books h
    exact .of_writes himb hwrites
  | limitOrderCreate2 o =>
    simp only [step, limitOrderCreate2, LimitOrderCreate2.validate, eq_ok] at h
    obtain ⟨⟨hsym, -⟩, h⟩ := h
    obtain ⟨himb, hwrites⟩ := placeOrder_books hsym h
    exact .of_writes himb hwrites
  | limitOrderCancel owner orderid =>
    simp only [step, limitOrderCancel, bind_eq_ok, get_eq_ok] at h
    obtain ⟨id, -, h⟩ := h
    obtain ⟨himb, hwrites⟩ := cancelOrder_books h
    exact .of_writes himb hwrites
  | clearExpiredOrders =>
    obtain ⟨himb, hwrites⟩ := clearExpiredOrders_books h
    exact .of_writes himb hwrites
  | nextBlock time medianHistory dbdInterestRate =>
    cases h
    exact ⟨rfl, rfl, rfl⟩

/-- **The market makes and destroys nothing.** From every state in which `validate_invariants`
passes, along every run of the market: the DELTA in balances and orders are as before, the
DBD in balances and orders have grown by what interest added to their supply, and both
equations of the supply hold. -/
theorem market_conserves (start : Database) (events : List Event)
    (hstart : start.validateInvariants = .ok ())
    (h : Run.exec (Run.checked step) start events = some db) :
    inCirculation db .delta = inCirculation start .delta ∧
    inCirculation db .dbd - inCirculation start .dbd =
      db.props.currentDbdSupply - start.props.currentDbdSupply ∧
    db.props.currentSupply = db.totalSupply ∧ db.props.currentDbdSupply = db.totalDbd := by
  have hc : Conserved start db := Run.checked_induct (Conserved start)
    (fun _ _ _ hs hstep => hs.trans (step_conserves hstep)) ⟨rfl, rfl, rfl⟩ h
  simp only [validateInvariants, eq_ok] at hstart
  have hbooks := congrFun hc.books .delta
  have hbooksDbd := congrFun hc.books .dbd
  rw [imbalance_delta, imbalance_delta] at hbooks
  rw [imbalance_dbd, imbalance_dbd] at hbooksDbd
  have hcdbd := hc.dbd
  exact ⟨hc.delta, by omega, by omega, by omega⟩

/-- A state with DELTA and DBD, in which the feed says that they are worth the same. -/
def twoTraders : Database :=
  { genesis 1000 with
    medianHistory := ⟨⟨1, .dbd⟩, ⟨1, .delta⟩⟩
    accounts := (genesis 1000).accounts.modify tempAccount fun a => { a with dbdBalance := 500 }
    props := { (genesis 1000).props with currentDbdSupply := 500, virtualSupply := 1500 } }

/-- An order that rests, one that is matched with it, and the rest of the first is given back. -/
theorem market_conserves_match : ∃ db, Run.exec (Run.checked step) twoTraders
      [.limitOrderCreate ⟨initMinerName, 1, ⟨100, .delta⟩, ⟨50, .dbd⟩, false, genesisTime + 60,
          by decide, by decide⟩,
        .limitOrderCreate ⟨tempAccount, 1, ⟨20, .dbd⟩, ⟨40, .delta⟩, true, genesisTime + 60,
          by decide, by decide⟩,
        .limitOrderCancel initMinerName 1] = some db ∧
    inCirculation db .delta = inCirculation twoTraders .delta ∧
    inCirculation db .dbd - inCirculation twoTraders .dbd =
      db.props.currentDbdSupply - twoTraders.props.currentDbdSupply ∧
    db.props.currentSupply = db.totalSupply ∧ db.props.currentDbdSupply = db.totalDbd := by
  have hstart : twoTraders.validateInvariants = .ok () := by decide +kernel
  refine Run.exists_end (P := fun _ => True) (by decide +kernel) fun _ h _ => ?_
  exact market_conserves twoTraders _ hstart h

end DeltaChain.Market

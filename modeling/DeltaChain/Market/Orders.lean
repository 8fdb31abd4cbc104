import DeltaChain.Ledger.Balance

/-!
# Limit orders

The internal market: `limit_order_create` and its second form, `limit_order_cancel`, the
matching of a new order with the resting ones, and the removal of expired orders. The
hardfork 20 rules are in force.

An order sells `forSale` of the base symbol of its price. A new order is matched with the
resting orders whose price is at least its own price seen from the other side, the highest
price first, until it is gone or there is no such order left (`applyOrder`). What is left of
an order and too little to be sold at its price goes back to the seller (`fillOrder`).
-/

namespace DeltaChain.Ledger

open Lib Protocol Checked

/-- The amounts that an operation can hold. -/
def Asset.Fits (x : Asset) : Prop := int64Min ≤ x.amount ∧ x.amount ≤ int64Max

instance (x : Asset) : Decidable (Asset.Fits x) := inferInstanceAs (Decidable (_ ∧ _))

structure LimitOrderCreate where
  owner : AccountName
  orderid : Nat
  amountToSell : Asset
  minToReceive : Asset
  fillOrKill : Bool
  expiration : Nat
  sell_fits : Asset.Fits amountToSell
  receive_fits : Asset.Fits minToReceive

structure LimitOrderCreate2 where
  owner : AccountName
  orderid : Nat
  amountToSell : Asset
  fillOrKill : Bool
  exchangeRate : Price
  expiration : Nat
  sell_fits : Asset.Fits amountToSell
  base_fits : Asset.Fits exchangeRate.base
  quote_fits : Asset.Fits exchangeRate.quote

/-- The markets there are orders in. -/
def isMarket (sold bought : Symbol) : Prop :=
  sold = .delta ∧ bought = .dbd ∨ sold = .dbd ∧ bought = .delta

instance (sold bought : Symbol) : Decidable (isMarket sold bought) :=
  inferInstanceAs (Decidable (_ ∨ _))

/-- `limit_order_create_operation::validate`, with the price it makes. -/
def LimitOrderCreate.validate (o : LimitOrderCreate) : Checked Price := do
  assert (isMarket o.amountToSell.symbol o.minToReceive.symbol)
    "Limit order must be for the DELTA:DBD or SMT:(DELTA/DBD) market"
  Price.make o.amountToSell o.minToReceive

def LimitOrderCreate2.validate (o : LimitOrderCreate2) : Checked Unit := do
  assert (o.amountToSell.symbol = o.exchangeRate.base.symbol)
    "Sell asset must be the base of the price"
  o.exchangeRate.validate
  assert (isMarket o.amountToSell.symbol o.exchangeRate.quote.symbol)
    "Limit order must be for the DELTA:DBD or SMT:(DELTA/DBD) market"
  let value ← o.amountToSell.mul o.exchangeRate
  assert (value.amount > 0) "Amount to sell cannot round to 0 when traded"

def orderFillException : String :=
  "error filling orders: $\x7border\x7d $\x7bpays\x7d $\x7breceives\x7d"

def orderMatchException : String :=
  "error matching orders: $\x7bnew_order\x7d $\x7bold_order\x7d $\x7bmatch_price\x7d"

variable (db : Database)

namespace Database

-- # Orders in the state

def getOrder (id : Nat) : Checked LimitOrder :=
  get (db.limitOrders.find? id) "unknown key"

@[simp] theorem getOrder_eq_ok {db : Database} {id : Nat} {o : LimitOrder} :
    db.getOrder id = .ok o ↔ db.limitOrders.find? id = some o := get_eq_ok

def removeOrder (id : Nat) : Database :=
  { db with limitOrders := db.limitOrders.erase id }

/-- The id of the order that an owner knows by `orderid`. -/
def findLimitOrder (owner : AccountName) (orderid : Nat) : Option Nat :=
  (db.limitOrders.entries.find? fun e => e.2.seller = owner ∧ e.2.orderid = orderid).map Prod.fst

/-- `create< limit_order_object >`: an owner cannot have two orders of one `orderid`. -/
def createOrder (o : LimitOrder) : Checked (Database × Nat) := do
  assert (db.findLimitOrder o.seller o.orderid = none)
    "could not insert object, most likely a uniqueness constraint was violated"
  let orders ← get (db.limitOrders.insert? db.nextLimitOrderId o)
    "could not insert object, most likely a uniqueness constraint was violated"
  return ({ db with limitOrders := orders, nextLimitOrderId := db.nextLimitOrderId + 1 },
    db.nextLimitOrderId)

/-- The order of the index `by_price`: the highest price first, then the oldest order. -/
def byPriceBefore (e f : Nat × LimitOrder) : Prop :=
  f.2.sellPrice.lt e.2.sellPrice ∨ ¬ e.2.sellPrice.lt f.2.sellPrice ∧ e.1 < f.1

instance (e f : Nat × LimitOrder) : Decidable (byPriceBefore e f) :=
  inferInstanceAs (Decidable (_ ∨ _ ∧ _))

/-- The orders from `lower_bound( price.max() )` to `upper_bound( price )` in `by_price`. -/
def ordersFrom (price : Price) : List Nat :=
  ((db.limitOrders.entries.filter fun e =>
    decide (price.le e.2.sellPrice ∧ e.2.sellPrice.le price.max)).insertionSort
      fun e f => ¬ byPriceBefore f e).map Prod.fst

-- # Filling and matching

def cancelOrder (id : Nat) : Checked Database := do
  let o ← db.getOrder id
  let db ← db.adjustBalance o.seller o.amountForSale
  return db.removeOrder id

/-- The part of `fill_order` for an order that is not filled completely: what is left goes
back to the seller if it is worth nothing. -/
def fillPart (id : Nat) (pays : Int) : Checked (Database × Bool) := do
  let o ← db.getOrder id
  assert (pays < o.forSale) orderFillException
  let left := { o with forSale := o.forSale - pays }
  let db := { db with limitOrders := db.limitOrders.modify id fun _ => left }
  let toReceive ← left.amountToReceive
  if toReceive.amount = 0 then do
    let db ← db.cancelOrder id
    return (db, true)
  else return (db, false)

/-- `fill_order`, and whether the order is gone. -/
def fillOrder (id : Nat) (pays receives : Asset) : Checked (Database × Bool) := do
  let o ← db.getOrder id
  assert (o.amountForSale.symbol = pays.symbol) orderFillException
  assert (pays.symbol ≠ receives.symbol) orderFillException
  let db ← db.adjustBalance o.seller receives
  if pays = o.amountForSale then return (db.removeOrder id, true)
  else db.fillPart id pays.amount

/-- What the new and the old order receive when they are matched at the old order's price. -/
def matchAmounts (newOrder oldOrder : LimitOrder) (matchPrice : Price) :
    Checked (Asset × Asset) := do
  let oldValue ← oldOrder.amountForSale.mul matchPrice
  assert (newOrder.amountForSale.symbol = oldValue.symbol) "a.symbol == b.symbol"
  if newOrder.forSale ≤ oldValue.amount then do
    let newReceives ← newOrder.amountForSale.mul matchPrice
    return (newReceives, newOrder.amountForSale)
  else return (oldOrder.amountForSale, oldValue)

/-- `match`, and whether the new and the old order are gone. -/
def matchOrders (newId oldId : Nat) : Checked (Database × Bool × Bool) := do
  let newOrder ← db.getOrder newId
  let oldOrder ← db.getOrder oldId
  let matchPrice := oldOrder.sellPrice
  assert (newOrder.sellPrice.quote.symbol = oldOrder.sellPrice.base.symbol) orderMatchException
  assert (newOrder.sellPrice.base.symbol = oldOrder.sellPrice.quote.symbol) orderMatchException
  assert (newOrder.forSale > 0 ∧ oldOrder.forSale > 0) orderMatchException
  assert (matchPrice.quote.symbol = newOrder.sellPrice.base.symbol) orderMatchException
  assert (matchPrice.base.symbol = oldOrder.sellPrice.base.symbol) orderMatchException
  let (newReceives, oldReceives) ← matchAmounts newOrder oldOrder matchPrice
  -- what one order pays the other receives
  assert (oldReceives = newOrder.amountForSale ∨ newReceives = oldOrder.amountForSale)
    orderMatchException
  let (db, newGone) ← db.fillOrder newId oldReceives newReceives
  let (db, oldGone) ← db.fillOrder oldId newReceives oldReceives
  assert (newGone = true ∨ oldGone = true) orderMatchException
  return (db, newGone, oldGone)

/-- The loop of `apply_order` over the old orders: it goes on while only they go. -/
def matchAll (newId : Nat) : List Nat → Database → Checked Database
  | [], db => return db
  | oldId :: rest, db => do
    let (db, newGone, _) ← db.matchOrders newId oldId
    if newGone then return db else matchAll newId rest db

/-- `apply_order`, and whether the new order is gone. -/
def applyOrder (newId : Nat) : Checked (Database × Bool) := do
  let newOrder ← db.getOrder newId
  let db ← matchAll newId (db.ordersFrom newOrder.sellPrice.invert) db
  return (db, (db.limitOrders.find? newId).isNone)

-- # Operations

/-- What `limit_order_create_evaluator` and its second form share. -/
def placeOrder (owner : AccountName) (orderid : Nat) (amountToSell : Asset)
    (sellPrice : Price) (expiration : Nat) (fillOrKill : Bool) : Checked Database := do
  assert (expiration > db.headBlockTime) "Limit order has to expire after head block time."
  assert (expiration ≤ db.headBlockTime + maxLimitOrderExpiration)
    "Limit Order Expiration must not be more than 28 days in the future"
  let balance ← db.getBalance owner amountToSell.symbol
  assert (balance ≥ amountToSell.amount) "Account does not have sufficient funds for limit order."
  let db ← db.adjustBalance owner (-amountToSell)
  let (db, id) ← db.createOrder
    { created := db.headBlockTime, expiration := expiration, seller := owner, orderid := orderid,
      forSale := amountToSell.amount, sellPrice := sellPrice }
  let (db, filled) ← db.applyOrder id
  assert (fillOrKill = true → filled = true) "Cancelling order because it was not filled."
  return db

def limitOrderCreate (o : LimitOrderCreate) : Checked Database := do
  let sellPrice ← o.validate
  db.placeOrder o.owner o.orderid o.amountToSell sellPrice o.expiration o.fillOrKill

def limitOrderCreate2 (o : LimitOrderCreate2) : Checked Database := do
  o.validate
  db.placeOrder o.owner o.orderid o.amountToSell o.exchangeRate o.expiration o.fillOrKill

def limitOrderCancel (owner : AccountName) (orderid : Nat) : Checked Database := do
  let id ← get (db.findLimitOrder owner orderid) "unknown key"
  db.cancelOrder id

/-- `clear_expired_orders`. Every round takes the order that expires first, so each order that
has expired gets its round; they are taken in that order. -/
def clearExpiredOrders : Checked Database :=
  let expired := db.limitOrders.entries.filter fun e => decide (e.2.expiration < db.headBlockTime)
  (expired.insertionSort fun e f =>
    e.2.expiration < f.2.expiration ∨ e.2.expiration = f.2.expiration ∧ e.1 ≤ f.1).foldlM
      (fun db e => db.cancelOrder e.1) db

end Database

end DeltaChain.Ledger

namespace DeltaChain.Market

open Lib Protocol Ledger

/-- What happens on the market. Between blocks the time moves on and the feed changes. -/
inductive Event where
  | limitOrderCreate (o : LimitOrderCreate)
  | limitOrderCreate2 (o : LimitOrderCreate2)
  | limitOrderCancel (owner : AccountName) (orderid : Nat)
  | clearExpiredOrders
  | nextBlock (time : Nat) (medianHistory : Price) (dbdInterestRate : Nat)

def step (db : Database) : Event → Checked Database
  | .limitOrderCreate o => db.limitOrderCreate o
  | .limitOrderCreate2 o => db.limitOrderCreate2 o
  | .limitOrderCancel owner orderid => db.limitOrderCancel owner orderid
  | .clearExpiredOrders => db.clearExpiredOrders
  | .nextBlock time medianHistory dbdInterestRate =>
    return { db.modifyProps fun g => { g with time := time, dbdInterestRate := dbdInterestRate } with
      medianHistory := medianHistory }

end DeltaChain.Market

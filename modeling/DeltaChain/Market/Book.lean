import DeltaChain.Market.Conservation
import DeltaChain.Protocol.Exchange

/-!
# The order book

After every operation on the market no two orders cross, and every order that rests sells
something that is worth something at its price (`book_uncrossed`).

A new order is matched with the orders that cross it until it is gone or they are. What the
loop keeps is that every order that still crosses the new one is still to come
(`Matching`). The loop starts at `price::max()`, the price of `DELTA_MAX_SATOSHIS` for one
satoshi: an order that sells no more than that amount and is worth something has no higher
price. An order that sells more can have one, and is passed over (`book_crossed_above_max`).
-/

namespace DeltaChain.Market

open Lib Protocol Ledger Ledger.Database Checked List Option Table

variable {db db' db₁ : Database} {id newId oldId : Nat} {o : LimitOrder} {gone : Bool}
  {msg : String} {p q : Price} {pays : Int} {r : Asset}

-- # Amounts


theorem mulDiv_eq {amount num den : Int} (ha : 0 ≤ amount) (hn : 0 ≤ num)
    (hbig : amount * num < 2 ^ 128) (hd : 0 < den) (hsmall : amount * num / den ≤ int64Max) :
    mulDiv amount num den msg = .ok (amount * num / den) := by
  unfold int64Max at hsmall
  exact (mulDiv_eq_ok ha hn hbig hd).mpr ⟨by omega, (if_pos (by omega)).symm⟩

/-- A product that is positive was made of a positive amount and fits. -/
theorem mulDiv_pos {amount num den r : Int} (hamount : int64Min ≤ amount)
    (hamount' : amount ≤ int64Max) (hn : 0 < num) (hnum : num ≤ int64Max) (hden : den ≤ int64Max)
    (h : mulDiv amount num den msg = .ok r) (hr : 0 < r) :
    0 < amount ∧ r = amount * num / den ∧ r ≤ int64Max := by
  have hd : 0 < den := by
    simp only [mulDiv, eq_ok] at h
    exact h.1
  unfold int64Max at hamount' hnum hden ⊢
  unfold int64Min at hamount
  have hprod := mulDiv_product_nonneg (by nlinarith) (by omega) h
  have hnonneg : 0 ≤ amount := nonneg_of_mul_nonneg_left hprod hn
  obtain ⟨hlt, heq⟩ := (mulDiv_eq_ok hnonneg hn.le (by nlinarith) hd).mp h
  split at heq
  · refine ⟨?_, heq, by omega⟩
    rcases eq_or_lt_of_le hnonneg with hzero | hpos
    · rw [← hzero, zero_mul, Int.zero_ediv] at heq
      omega
    · exact hpos
  · omega

-- # Orders that may rest

/-- What holds of an order that rests: its price is one, it sells something, no more than
`DELTA_MAX_SATOSHIS`, and that is worth something. -/
structure Resting (o : LimitOrder) : Prop where
  valid : o.sellPrice.Valid
  base_le : o.sellPrice.base.amount ≤ int64Max
  quote_le : o.sellPrice.quote.amount ≤ int64Max
  pos : 0 < o.forSale
  le_max : o.forSale ≤ maxSatoshis
  receives : ∃ r, o.amountToReceive = .ok r ∧ 1 ≤ r.amount

theorem amountToReceive_eq_ok : o.amountToReceive = .ok r ↔
    mulDiv o.forSale o.sellPrice.quote.amount o.sellPrice.base.amount "b.base.amount.value > 0" =
      .ok r.amount ∧ r.symbol = o.sellPrice.quote.symbol := by
  unfold LimitOrder.amountToReceive LimitOrder.amountForSale AssetOf.mul
  rw [if_pos rfl]
  simp only [eq_ok]
  constructor
  · rintro ⟨amount, h, rfl⟩
    exact ⟨h, rfl⟩
  · rintro ⟨h, hsym⟩
    exact ⟨r.amount, h, by rw [← hsym]⟩

theorem maxSatoshis_lt : (maxSatoshis : Int) < 2 ^ 62 := by decide

theorem Resting.worth (h : Resting o) :
    1 ≤ o.forSale * o.sellPrice.quote.amount / o.sellPrice.base.amount ∧
      o.forSale * o.sellPrice.quote.amount / o.sellPrice.base.amount ≤ int64Max := by
  obtain ⟨r, hr, hpos⟩ := h.receives
  have hle := h.le_max
  have hfor := h.pos
  have hmax := maxSatoshis_lt
  obtain ⟨-, heq, hbound⟩ := mulDiv_pos (by unfold int64Min; omega) (by unfold int64Max; omega)
    h.valid.quote_pos h.quote_le h.base_le (amountToReceive_eq_ok.mp hr).1 hpos
  rw [← heq]
  exact ⟨hpos, hbound⟩

/-- An order as it comes to `match`: what it sells is worth at least one at its own price, and fits. -/
structure Tradable (o : LimitOrder) : Prop where
  valid : o.sellPrice.Valid
  base_le : o.sellPrice.base.amount ≤ int64Max
  quote_le : o.sellPrice.quote.amount ≤ int64Max
  pos : 0 < o.forSale
  forSale_le : o.forSale ≤ int64Max
  one_le : 1 ≤ o.forSale * o.sellPrice.quote.amount / o.sellPrice.base.amount
  worth_le : o.forSale * o.sellPrice.quote.amount / o.sellPrice.base.amount ≤ int64Max

theorem Tradable.amountToReceive (h : Tradable o) {left : Int} (hpos : 0 ≤ left)
    (hle : left ≤ o.forSale) :
    LimitOrder.amountToReceive { o with forSale := left } =
      .ok ⟨left * o.sellPrice.quote.amount / o.sellPrice.base.amount, o.sellPrice.quote.symbol⟩ := by
  have hq := h.valid.quote_pos
  have hb := h.valid.base_pos
  have hql := h.quote_le
  have hfl := h.forSale_le
  unfold int64Max at hql hfl
  have hmono : left * o.sellPrice.quote.amount / o.sellPrice.base.amount ≤
      o.forSale * o.sellPrice.quote.amount / o.sellPrice.base.amount :=
    Int.ediv_le_ediv hb (by nlinarith)
  refine amountToReceive_eq_ok.mpr ⟨?_, rfl⟩
  exact mulDiv_eq hpos hq.le (by nlinarith) hb (hmono.trans h.worth_le)

/-- A new order that is worth no more than the old one gets no more than that sells. -/
theorem Tradable.amountForSale_mul {newOrder oldOrder : LimitOrder} (hnew : Tradable newOrder)
    (hold : Tradable oldOrder)
    (hsym : newOrder.sellPrice.base.symbol = oldOrder.sellPrice.quote.symbol)
    (hle : newOrder.forSale ≤
      oldOrder.forSale * oldOrder.sellPrice.quote.amount / oldOrder.sellPrice.base.amount) :
    newOrder.forSale * oldOrder.sellPrice.base.amount / oldOrder.sellPrice.quote.amount ≤
      oldOrder.forSale ∧ newOrder.amountForSale.mul oldOrder.sellPrice = .ok ⟨newOrder.forSale *
        oldOrder.sellPrice.base.amount / oldOrder.sellPrice.quote.amount,
        oldOrder.sellPrice.base.symbol⟩ := by
  have hb := hold.valid.base_pos
  have hq := hold.valid.quote_pos
  have hpaid : newOrder.forSale * oldOrder.sellPrice.base.amount /
      oldOrder.sellPrice.quote.amount ≤ oldOrder.forSale :=
    Int.ediv_le_of_le_mul hq ((Int.le_ediv_iff_mul_le hb).mp hle)
  have hne : newOrder.amountForSale.symbol ≠ oldOrder.sellPrice.base.symbol := by
    rw [LimitOrder.amountForSale, hsym]
    exact hold.valid.ne.symm
  have hbl := hold.base_le
  have hfl := hnew.forSale_le
  have hpos := hnew.pos
  unfold int64Max at hbl hfl
  have hbig : newOrder.forSale * oldOrder.sellPrice.base.amount < 2 ^ 128 := by nlinarith
  have hexact : mulDiv newOrder.amountForSale.amount oldOrder.sellPrice.base.amount
      oldOrder.sellPrice.quote.amount "b.quote.amount.value > 0" = .ok _ :=
    mulDiv_eq hpos.le hb.le hbig hq (hpaid.trans hold.forSale_le)
  refine ⟨hpaid, ?_⟩
  rw [AssetOf.mul, if_neg hne, if_pos (show newOrder.amountForSale.symbol = _ from hsym), hexact]
  rfl

theorem Resting.tradable (h : Resting o) : Tradable o := by
  have hmax := maxSatoshis_lt
  have hle := h.le_max
  exact ⟨h.valid, h.base_le, h.quote_le, h.pos, by unfold int64Max; omega, h.worth.1, h.worth.2⟩

theorem Resting.base_le_mul (h : Resting o) :
    o.sellPrice.base.amount ≤ o.forSale * o.sellPrice.quote.amount := by
  have hworth := (Int.le_ediv_iff_mul_le h.valid.base_pos).mp h.worth.1
  rwa [one_mul] at hworth

/-- What is left of an order rests if it is worth something. -/
theorem Resting.shrink (h : Resting o) (hpays : 0 ≤ pays) (hlt : pays < o.forSale)
    (hr : { o with forSale := o.forSale - pays }.amountToReceive = .ok r) (hne : r.amount ≠ 0) :
    Resting { o with forSale := o.forSale - pays } := by
  have hle := h.le_max
  have hworth := h.tradable.amountToReceive (by omega : 0 ≤ o.forSale - pays) (by omega)
  have hnonneg : 0 ≤ (o.forSale - pays) * o.sellPrice.quote.amount / o.sellPrice.base.amount :=
    Int.ediv_nonneg (mul_nonneg (by omega) h.valid.quote_pos.le) h.valid.base_pos.le
  have hamount := congrArg AssetOf.amount (Except.ok.inj (hr.symm.trans hworth))
  dsimp only at hamount
  refine ⟨h.valid, h.base_le, h.quote_le, ?_, ?_, r, hr, by omega⟩
  · simp only
    omega
  · simp only
    omega

-- # Filling an order

/-- What filling an order does to the book: the other orders are as before, and it is gone
or rests at its price. -/
structure Filled (id : Nat) (db db' : Database) (gone : Bool) : Prop where
  other : ∀ j, j ≠ id → db'.limitOrders.find? j = db.limitOrders.find? j
  erased : gone = true → db'.limitOrders.find? id = none
  left : gone = false → ∃ o o', db.limitOrders.find? id = some o ∧
    db'.limitOrders.find? id = some o' ∧ o'.sellPrice = o.sellPrice ∧ Resting o'

theorem find?_removeOrder (j : Nat) :
    (db.removeOrder id).limitOrders.find? j = if j = id then none else db.limitOrders.find? j :=
  find?_erase ..

theorem cancelOrder_find? (h : db.cancelOrder id = .ok db') (j : Nat) :
    db'.limitOrders.find? j = if j = id then none else db.limitOrders.find? j := by
  simp only [cancelOrder, eq_ok, getOrder_eq_ok] at h
  obtain ⟨o, -, db₁, hadj, rfl⟩ := h
  rw [find?_removeOrder, (adjustBalance_writes hadj).2]

theorem fillPart_filled (ho : db.limitOrders.find? id = some o) (hr : Resting o) (hpays : 0 ≤ pays)
    (h : db.fillPart id pays = .ok (db', gone)) : Filled id db db' gone := by
  simp only [fillPart, eq_ok, getOrder_eq_ok] at h
  obtain ⟨o', ho', hlt, toReceive, hto, h⟩ := h
  obtain rfl : o = o' := mem_unique ho ho'
  split at h
  · simp only [eq_ok, Prod.mk.injEq] at h
    obtain ⟨db₂, hcancel, rfl, rfl⟩ := h
    refine ⟨fun j hj => ?_, fun _ => ?_, fun hf => absurd hf (by simp)⟩
    · rw [cancelOrder_find? hcancel, if_neg hj]
      exact find?_modify_ne _ _ hj
    · rw [cancelOrder_find? hcancel, if_pos rfl]
  · next hne =>
    cases h
    refine ⟨fun j hj => find?_modify_ne _ _ hj, fun hf => absurd hf (by simp), fun _ => ?_⟩
    refine ⟨o, { o with forSale := o.forSale - pays }, ho, ?_, rfl, hr.shrink hpays hlt hto hne⟩
    simp only [find?_modify_self, ho, map_some]

theorem fillOrder_filled {pays receives : Asset}
    (ho : db.limitOrders.find? id = some o) (hr : Resting o) (hpays : 0 ≤ pays.amount)
    (h : db.fillOrder id pays receives = .ok (db', gone)) : Filled id db db' gone := by
  simp only [fillOrder, eq_ok, getOrder_eq_ok] at h
  obtain ⟨o', ho', -, -, db₁, hadj, h⟩ := h
  have horders := (adjustBalance_writes hadj).2
  split at h
  · cases h
    refine ⟨fun j hj => ?_, fun _ => ?_, fun hf => absurd hf (by simp)⟩
    · rw [find?_removeOrder, if_neg hj, horders]
    · rw [find?_removeOrder, if_pos rfl]
  · have hf := fillPart_filled (horders ▸ ho) hr hpays h
    exact ⟨fun j hj => (hf.other j hj).trans (by rw [horders]), hf.erased, horders ▸ hf.left⟩

-- # Matching two orders

theorem matchAmounts_nonneg {newOrder oldOrder : LimitOrder} {newReceives oldReceives : Asset}
    (hnew : Resting newOrder) (hold : Resting oldOrder)
    (hsym : newOrder.sellPrice.base.symbol = oldOrder.sellPrice.quote.symbol)
    (h : matchAmounts newOrder oldOrder oldOrder.sellPrice = .ok (newReceives, oldReceives)) :
    0 ≤ newReceives.amount ∧ 0 ≤ oldReceives.amount := by
  have hnewpos := hnew.pos.le
  have holdpos := hold.pos.le
  have hq := hold.valid.quote_pos.le
  have hb := hold.valid.base_pos.le
  simp only [matchAmounts, eq_ok] at h
  obtain ⟨value, hvalue, -, h⟩ := h
  obtain rfl := Except.ok.inj ((hold.tradable.amountToReceive holdpos le_rfl).symm.trans hvalue)
  split at h
  · next hle =>
    simp only [eq_ok, Prod.mk.injEq] at h
    obtain ⟨r, hr, rfl, rfl⟩ := h
    have hmul := (hnew.tradable.amountForSale_mul hold.tradable hsym hle).2
    obtain rfl := Except.ok.inj (hmul.symm.trans hr)
    exact ⟨Int.ediv_nonneg (mul_nonneg hnewpos hb) hq, hnewpos⟩
  · cases h
    exact ⟨holdpos, Int.ediv_nonneg (mul_nonneg holdpos hq) hb⟩

/-- A match fills the new order, then the old one, and one of them is gone. -/
theorem matchOrders_filled {newGone oldGone : Bool}
    (hresting : ∀ j o, db.limitOrders.find? j = some o → Resting o)
    (h : db.matchOrders newId oldId = .ok (db', newGone, oldGone)) :
    newId ≠ oldId ∧ (newGone = true ∨ oldGone = true) ∧
      ∃ db₁, Filled newId db db₁ newGone ∧ Filled oldId db₁ db' oldGone := by
  simp only [matchOrders, bind_eq_ok, getOrder_eq_ok, assert_eq_ok, exists_const] at h
  obtain ⟨newOrder, hn, oldOrder, ho, hsym, hsym', -, -, -, ⟨newReceives, oldReceives⟩, hamounts,
    h⟩ := h
  obtain ⟨-, ⟨db₁, newGone'⟩, hfillNew, ⟨db₂, oldGone'⟩, hfillOld, hone, hret⟩ := h
  obtain ⟨rfl, rfl, rfl⟩ := hret
  have hnew := hresting newId newOrder hn
  have hold := hresting oldId oldOrder ho
  obtain ⟨hnr, hor⟩ := matchAmounts_nonneg hnew hold hsym' hamounts
  have hne : newId ≠ oldId := by
    -- an order does not sell what it buys
    rintro rfl
    obtain rfl : newOrder = oldOrder := mem_unique hn ho
    exact hnew.valid.ne hsym.symm
  have hf := fillOrder_filled hn hnew hor hfillNew
  have ho' : db₁.limitOrders.find? oldId = some oldOrder := (hf.other oldId hne.symm).trans ho
  exact ⟨hne, hone, db₁, hf, fillOrder_filled ho' hold hnr hfillOld⟩

-- # The loop

/-- The first price is at least the second one seen from the other side. -/
def Crosses (p q : Price) : Prop := p.symbols = q.invert.symbols ∧ q.invert.le p

instance (p q : Price) : Decidable (Crosses p q) := inferInstanceAs (Decidable (_ ∧ _))

theorem crosses_iff : Crosses p q ↔ p.base.symbol = q.quote.symbol ∧
    p.quote.symbol = q.base.symbol ∧
    p.quote.amount * q.quote.amount ≤ p.base.amount * q.base.amount := by
  simp only [Crosses, Price.symbols, Price.invert, Prod.mk.injEq, Price.le]
  constructor
  · rintro ⟨⟨hb, hq⟩, hle⟩
    rw [if_pos ⟨hb.symm, hq.symm⟩, mul_comm q.base.amount] at hle
    exact ⟨hb, hq, hle⟩
  · rintro ⟨hb, hq, hle⟩
    refine ⟨⟨hb, hq⟩, ?_⟩
    rw [if_pos ⟨hb.symm, hq.symm⟩, mul_comm q.base.amount]
    exact hle

theorem Crosses.symm (h : Crosses p q) : Crosses q p := by
  obtain ⟨hb, hq, hle⟩ := crosses_iff.mp h
  refine crosses_iff.mpr ⟨hq.symm, hb.symm, ?_⟩
  rwa [mul_comm q.quote.amount, mul_comm q.base.amount]

/-- A book in which every order may rest and no two orders cross. -/
structure BookSound (db : Database) : Prop where
  resting : ∀ j o, db.limitOrders.find? j = some o → Resting o
  uncrossed : ∀ i a j b, db.limitOrders.find? i = some a → db.limitOrders.find? j = some b →
    ¬ Crosses a.sellPrice b.sellPrice

/-- Every order may rest and was in the book before, at the same price. -/
def Kept (start db : Database) : Prop :=
  ∀ j o, db.limitOrders.find? j = some o →
    Resting o ∧ ∃ o₀, start.limitOrders.find? j = some o₀ ∧ o.sellPrice = o₀.sellPrice

variable {start : Database}

theorem Filled.kept (hk : Kept start db) (hf : Filled id db db' gone) : Kept start db' := by
  intro j o hj
  by_cases hji : j = id
  · subst hji
    cases hgone : gone with
    | true => exact absurd (hj.symm.trans (hf.erased hgone)) (by simp)
    | false =>
      obtain ⟨a, a', ha, ha', hprice, hr⟩ := hf.left hgone
      obtain rfl : o = a' := mem_unique hj ha'
      obtain ⟨-, o₀, ho₀, heq⟩ := hk j a ha
      exact ⟨hr, o₀, ho₀, hprice.trans heq⟩
  · exact hk j o (by rw [← hf.other j hji, hj])

theorem Kept.bookSound (hstart : BookSound start) (hk : Kept start db) : BookSound db := by
  refine ⟨fun j o hj => (hk j o hj).1, fun i a j b ha hb hc => ?_⟩
  obtain ⟨-, a₀, ha₀, hpa⟩ := hk i a ha
  obtain ⟨-, b₀, hb₀, hpb⟩ := hk j b hb
  exact hstart.uncrossed i a₀ j b₀ ha₀ hb₀ (hpa ▸ hpb ▸ hc)

/-- The loop invariant: the new order is still there at its price, and what crosses it is
still to come. -/
structure Matching (start : Database) (newId : Nat) (price : Price) (rest : List Nat)
    (db : Database) : Prop where
  new : ∃ o, db.limitOrders.find? newId = some o ∧ o.sellPrice = price
  kept : Kept start db
  crossing : ∀ j o, db.limitOrders.find? j = some o → Crosses o.sellPrice price → j ∈ rest

/-- What the loop ends with: nothing crosses the new order, if it is still there. -/
structure Settled (start : Database) (newId : Nat) (db : Database) : Prop where
  kept : Kept start db
  free : ∀ new j o, db.limitOrders.find? newId = some new → db.limitOrders.find? j = some o →
    ¬ Crosses o.sellPrice new.sellPrice

variable {price : Price}

theorem Matching.settled (hm : Matching start newId price [] db) : Settled start newId db := by
  refine ⟨hm.kept, fun new j o hnew hj hc => ?_⟩
  obtain ⟨new', hnew', rfl⟩ := hm.new
  obtain rfl : new = new' := mem_unique hnew hnew'
  exact not_mem_nil (hm.crossing j o hj hc)

/-- One round in which only the old order goes: what crosses the new one comes later. -/
theorem Matching.round {rest : List Nat} (hm : Matching start newId price (oldId :: rest) db)
    (hne : newId ≠ oldId) (hfn : Filled newId db db₁ false) (hfo : Filled oldId db₁ db' true) :
    Matching start newId price rest db' := by
  obtain ⟨a, a', ha, ha', hprice, -⟩ := hfn.left rfl
  refine ⟨?_, hfo.kept (hfn.kept hm.kept), fun j o hj hc => ?_⟩
  · obtain ⟨new, hnew, rfl⟩ := hm.new
    obtain rfl : a = new := mem_unique ha hnew
    exact ⟨a', (hfo.other newId hne).trans ha', hprice⟩
  · have hjo : j ≠ oldId := by
      rintro rfl
      exact absurd (hj.symm.trans (hfo.erased rfl)) (by simp)
    rw [hfo.other j hjo] at hj
    by_cases hjn : j = newId
    · subst hjn
      obtain rfl : o = a' := mem_unique hj ha'
      exact (mem_cons.mp (hm.crossing j a ha (hprice ▸ hc))).resolve_left hjo
    · rw [hfn.other j hjn] at hj
      exact (mem_cons.mp (hm.crossing j o hj hc)).resolve_left hjo

/-- The loop ends with nothing that crosses the new order. -/
theorem matchAll_settled {ids : List Nat} (hm : Matching start newId price ids db)
    (h : matchAll newId ids db = .ok db') : Settled start newId db' := by
  induction ids generalizing db with
  | nil =>
    cases h
    exact hm.settled
  | cons oldId rest ih =>
    simp only [matchAll, bind_eq_ok] at h
    obtain ⟨⟨db₂, newGone, oldGone⟩, hmatch, h⟩ := h
    obtain ⟨hne, hone, db₁, hfn, hfo⟩ := matchOrders_filled (fun j o hj => (hm.kept j o hj).1) hmatch
    cases newGone with
    | true =>
      rw [if_pos rfl, pure_eq_ok] at h
      subst h
      refine ⟨hfo.kept (hfn.kept hm.kept), fun new j o hnew _ _ => ?_⟩
      rw [hfo.other newId hne, hfn.erased rfl] at hnew
      cases hnew
    | false =>
      obtain rfl : oldGone = true := hone.resolve_left (by simp)
      exact ih (hm.round hne hfn hfo) h

theorem mem_ordersFrom {j : Nat} (hj : db.limitOrders.find? j = some o) (hr : Resting o)
    (hc : Crosses o.sellPrice price) : j ∈ db.ordersFrom price.invert := by
  refine mem_map.mpr ⟨(j, o), ?_, rfl⟩
  rw [mem_insertionSort, mem_filter]
  refine ⟨mem_entries_iff.mpr hj, decide_eq_true ⟨hc.2, ?_⟩⟩
  have hsym : o.sellPrice.symbols = price.invert.max.symbols := hc.1
  rw [Price.le, if_pos hsym]
  have hle := hr.base_le_mul
  have hmax := hr.le_max
  have hq := hr.valid.quote_pos
  have hbound : o.forSale * o.sellPrice.quote.amount ≤ maxSatoshis * o.sellPrice.quote.amount :=
    mul_le_mul_of_nonneg_right hmax hq.le
  simp only [Price.max]
  linarith

-- # Operations

/-- A new order that may rest leaves a sound book. -/
theorem applyOrder_book {filled : Bool} (hs : BookSound db) (hr : Resting o)
    (hfind : ∀ j, db₁.limitOrders.find? j = if j = newId then some o else db.limitOrders.find? j)
    (h : db₁.applyOrder newId = .ok (db', filled)) : BookSound db' := by
  simp only [applyOrder, eq_ok, getOrder_eq_ok, Prod.mk.injEq] at h
  obtain ⟨new, hnew, db₂, hloop, rfl, -⟩ := h
  obtain rfl : o = new := by
    rw [hfind, if_pos rfl] at hnew
    exact some.inj hnew
  have hresting : ∀ j a, db₁.limitOrders.find? j = some a → Resting a := by
    intro j a hj
    rw [hfind] at hj
    split at hj
    · cases hj
      exact hr
    · exact hs.resting j a hj
  have hstart : Kept db₁ db₁ := fun j a hj => ⟨hresting j a hj, a, hj, rfl⟩
  have hend := matchAll_settled ⟨⟨o, hnew, rfl⟩, hstart,
    fun j a hj hc => mem_ordersFrom hj (hresting j a hj) hc⟩ hloop
  refine ⟨fun j a hj => (hend.kept j a hj).1, fun i a j b ha hb hc => ?_⟩
  by_cases hi : i = newId
  · exact hend.free a j b (hi ▸ ha) hb hc.symm
  · by_cases hj : j = newId
    · exact hend.free b i a (hj ▸ hb) ha hc
    · -- both were in the book before
      obtain ⟨-, a₀, ha₀, hpa⟩ := hend.kept i a ha
      obtain ⟨-, b₀, hb₀, hpb⟩ := hend.kept j b hb
      rw [hfind, if_neg hi] at ha₀
      rw [hfind, if_neg hj] at hb₀
      exact hs.uncrossed i a₀ j b₀ ha₀ hb₀ (hpa ▸ hpb ▸ hc)

/-- What an operation sells and its price make an order that may rest. -/
structure Sellable (sold : Asset) (price : Price) : Prop where
  valid : price.Valid
  base_le : price.base.amount ≤ int64Max
  quote_le : price.quote.amount ≤ int64Max
  symbol : sold.symbol = price.base.symbol
  pos : 0 < sold.amount
  le_max : sold.amount ≤ maxSatoshis
  value : ∃ r, sold.mul price = .ok r ∧ 1 ≤ r.amount

theorem placeOrder_book {owner : AccountName} {orderid expiration : Nat} {sold : Asset}
    {fillOrKill : Bool} (hs : BookSound db) (hsell : Sellable sold price)
    (h : db.placeOrder owner orderid sold price expiration fillOrKill = .ok db') :
    BookSound db' := by
  simp only [placeOrder, eq_ok] at h
  obtain ⟨-, -, balance, -, -, db₁, hadj, ⟨db₂, id⟩, hcreate, ⟨db₃, filled⟩, happly, -, rfl⟩ := h
  have horders := (adjustBalance_writes hadj).2
  simp only [createOrder, eq_ok, get_eq_ok, Prod.mk.injEq] at hcreate
  obtain ⟨-, orders, hins, rfl, rfl⟩ := hcreate
  have hfind := find?_insert? hins
  rw [horders] at hfind
  refine applyOrder_book hs ?_ hfind happly
  refine ⟨hsell.valid, hsell.base_le, hsell.quote_le, hsell.pos, hsell.le_max, ?_⟩
  obtain ⟨r, hr, hpos⟩ := hsell.value
  refine ⟨r, ?_, hpos⟩
  rw [← hr]
  simp only [LimitOrder.amountToReceive, LimitOrder.amountForSale, ← hsell.symbol]

theorem LimitOrderCreate.sellable {op : LimitOrderCreate}
    (hmax : op.amountToSell.amount ≤ maxSatoshis) (h : op.validate = .ok price) :
    Sellable op.amountToSell price := by
  simp only [LimitOrderCreate.validate, eq_ok, Price.make_eq_ok] at h
  obtain ⟨-, rfl, hvalid⟩ := h
  have hpos := hvalid.base_pos
  have hquote := hvalid.quote_pos
  have hb := op.sell_fits.2
  have hq := op.receive_fits.2
  refine ⟨hvalid, hb, hq, rfl, hpos, hmax, op.minToReceive, ?_, hquote⟩
  unfold int64Max at hb hq
  -- all of the order is worth the least that it is to receive
  have hworth : op.amountToSell.amount * op.minToReceive.amount / op.amountToSell.amount =
      op.minToReceive.amount := Int.mul_ediv_cancel_left _ hpos.ne'
  rw [AssetOf.mul, if_pos rfl, mulDiv_eq hpos.le hquote.le (by nlinarith) hpos
    (hworth.trans_le op.receive_fits.2), hworth]
  rfl

theorem LimitOrderCreate2.sellable {op : LimitOrderCreate2} {u : Unit}
    (hmax : op.amountToSell.amount ≤ maxSatoshis) (h : op.validate = .ok u) :
    Sellable op.amountToSell op.exchangeRate := by
  simp only [LimitOrderCreate2.validate, eq_ok, Price.validate_eq_ok] at h
  obtain ⟨hsym, hvalid, -, value, hvalue, hpos⟩ := h
  refine ⟨hvalid, op.base_fits.2, op.quote_fits.2, hsym, ?_, hmax, value, hvalue, hpos⟩
  rw [AssetOf.mul, if_pos hsym] at hvalue
  simp only [eq_ok] at hvalue
  obtain ⟨amount, hdiv, rfl⟩ := hvalue
  exact (mulDiv_pos op.sell_fits.1 op.sell_fits.2 hvalid.quote_pos op.quote_fits.2 op.base_fits.2
    hdiv hpos).1

theorem cancelOrder_book (hs : BookSound db) (h : db.cancelOrder id = .ok db') : BookSound db' := by
  have hkept : Kept db db' := by
    intro j o hj
    rw [cancelOrder_find? h] at hj
    split at hj
    · cases hj
    · exact ⟨hs.resting j o hj, o, hj, rfl⟩
  exact hkept.bookSound hs

/-- An operation whose order sells no more than `DELTA_MAX_SATOSHIS`. -/
def Event.Bounded : Event → Prop
  | .limitOrderCreate op => op.amountToSell.amount ≤ maxSatoshis
  | .limitOrderCreate2 op => op.amountToSell.amount ≤ maxSatoshis
  | _ => True

instance (e : Event) : Decidable e.Bounded := by
  cases e <;> unfold Event.Bounded <;> infer_instance

theorem step_book {e : Event} (hs : BookSound db) (he : e.Bounded) (h : step db e = .ok db') :
    BookSound db' := by
  cases e with
  | limitOrderCreate op =>
    simp only [step, limitOrderCreate, bind_eq_ok] at h
    obtain ⟨price, hvalid, hplace⟩ := h
    exact placeOrder_book hs (LimitOrderCreate.sellable he hvalid) hplace
  | limitOrderCreate2 op =>
    simp only [step, limitOrderCreate2, bind_eq_ok] at h
    obtain ⟨u, hvalid, hplace⟩ := h
    exact placeOrder_book hs (LimitOrderCreate2.sellable he hvalid) hplace
  | limitOrderCancel owner orderid =>
    simp only [step, limitOrderCancel, bind_eq_ok, get_eq_ok] at h
    obtain ⟨id, -, hcancel⟩ := h
    exact cancelOrder_book hs hcancel
  | clearExpiredOrders =>
    refine foldlM_induct BookSound (fun _ _ _ _ hs hcancel => ?_) hs h
    exact cancelOrder_book hs hcancel
  | nextBlock time medianHistory dbdInterestRate =>
    cases h
    exact ⟨hs.resting, hs.uncrossed⟩

/-- **The book stays uncrossed.** From every book in which no two orders cross and every order
may rest, along every run of the market whose orders sell no more than `DELTA_MAX_SATOSHIS`: no
two orders cross, every order sells something, and what it sells is worth something. -/
theorem book_uncrossed (start : Database) (events : List Event) (hstart : BookSound start)
    (hbound : ∀ e ∈ events, e.Bounded) (h : Run.exec (Run.checked step) start events = some db) :
    (∀ i a j b, db.limitOrders.find? i = some a → db.limitOrders.find? j = some b →
      ¬ Crosses a.sellPrice b.sellPrice) ∧
    ∀ i o, db.limitOrders.find? i = some o →
      0 < o.forSale ∧ ∃ r, o.amountToReceive = .ok r ∧ 1 ≤ r.amount := by
  have hs : BookSound db := Run.exec_induct_mem BookSound
    (fun e he _ _ hs hstep => step_book hs (hbound e he) (Run.checked_eq_some.mp hstep)) hstart h
  exact ⟨hs.uncrossed, fun i o ho => ⟨(hs.resting i o ho).pos, (hs.resting i o ho).receives⟩⟩

/-- An order that rests, and one that is matched with part of it. -/
theorem book_uncrossed_match : ∃ db, Run.exec (Run.checked step) twoTraders
      [.limitOrderCreate ⟨initMinerName, 1, ⟨100, .delta⟩, ⟨50, .dbd⟩, false, genesisTime + 60,
          by decide, by decide⟩,
        .limitOrderCreate ⟨tempAccount, 1, ⟨20, .dbd⟩, ⟨40, .delta⟩, true, genesisTime + 60,
          by decide, by decide⟩] = some db ∧
    (∀ i a j b, db.limitOrders.find? i = some a → db.limitOrders.find? j = some b →
      ¬ Crosses a.sellPrice b.sellPrice) ∧
    ∀ i o, db.limitOrders.find? i = some o →
      0 < o.forSale ∧ ∃ r, o.amountToReceive = .ok r ∧ 1 ≤ r.amount := by
  have hstart : BookSound twoTraders :=
    ⟨fun j o hj => absurd hj (by simp [twoTraders, genesis]),
      fun i a j b ha _ => absurd ha (by simp [twoTraders, genesis])⟩
  refine Run.exists_end (P := fun _ => True) (by decide +kernel) fun _ h _ => ?_
  exact book_uncrossed twoTraders _ hstart (by decide) h

/-- A state in which an account has more DELTA than `DELTA_MAX_SATOSHIS`. -/
def richTrader : Database :=
  { twoTraders with
    accounts := twoTraders.accounts.modify initMinerName fun a => { a with balance := 2 ^ 62 } }

/-- **Above the highest price the book can cross.** An order sells `2 ^ 62` DELTA for one DBD,
another one sells one DBD for as many DELTA; the loop starts below the first one, and both rest. -/
theorem book_crossed_above_max : ∃ db a b, BookSound richTrader ∧
    Run.exec (Run.checked step) richTrader
      [.limitOrderCreate ⟨initMinerName, 1, ⟨2 ^ 62, .delta⟩, ⟨1, .dbd⟩, false, genesisTime + 60,
          by decide, by decide⟩,
        .limitOrderCreate ⟨tempAccount, 1, ⟨1, .dbd⟩, ⟨2 ^ 62, .delta⟩, false, genesisTime + 60,
          by decide, by decide⟩] = some db ∧
    db.limitOrders.find? 0 = some a ∧ db.limitOrders.find? 1 = some b ∧
    Crosses a.sellPrice b.sellPrice ∧
    a.amountToReceive = .ok ⟨1, .dbd⟩ ∧ b.amountToReceive = .ok ⟨2 ^ 62, .delta⟩ := by
  have hstart : BookSound richTrader :=
    ⟨fun j o hj => absurd hj (by simp [richTrader, twoTraders, genesis]),
      fun i a j b ha _ => absurd ha (by simp [richTrader, twoTraders, genesis])⟩
  simp only [exists_and_left]
  exact ⟨hstart, by decide +kernel⟩

end DeltaChain.Market

import DeltaChain.Lib.Checked
import DeltaChain.Protocol.Config

/-!
# Assets and prices

`asset` and `price` of `asset.hpp`, over any symbols and for the three core ones. Amounts are 64
bit integers in the source; multiplication by a price goes through 128 bits and back, and both
conversions are in the model (`AssetOf.mul`).
-/

namespace DeltaChain.Protocol

open Lib Checked

/-- The core asset symbols. -/
inductive Symbol where
  | dbd
  | delta
  | vests
deriving DecidableEq, Repr

/-- `asset_num`, the number symbols are ordered by. -/
def Symbol.assetNum : Symbol → Nat
  | .dbd => (99999999 + 1) * 16 + 3
  | .delta => (99999999 + 2) * 16 + 3
  | .vests => (99999999 + 3) * 16 + 6

/-- `asset`, over any symbols. -/
structure AssetOf (σ : Type) where
  amount : Int
  symbol : σ
deriving DecidableEq, Repr

abbrev Asset := AssetOf Symbol

instance : Neg Asset := ⟨fun a => ⟨-a.amount, a.symbol⟩⟩

@[simp] theorem Asset.neg_amount (a : Asset) : (-a).amount = -a.amount := rfl

@[simp] theorem Asset.neg_symbol (a : Asset) : (-a).symbol = a.symbol := rfl

/-- `price`, over any symbols. -/
structure PriceOf (σ : Type) where
  base : AssetOf σ
  quote : AssetOf σ
deriving DecidableEq, Repr

abbrev Price := PriceOf Symbol

/-- The default constructor of `price` makes the null price. -/
instance : Inhabited Price := ⟨⟨0, .delta⟩, ⟨0, .delta⟩⟩

/-- The conversion of a signed number to `uint128`. -/
def u128 (x : Int) : Nat := (x % 2 ^ 128).toNat

theorem u128_of_lt {x : Int} (h₀ : 0 ≤ x) (h : x < 2 ^ 128) : (u128 x : Int) = x := by
  unfold u128
  rw [Int.emod_eq_of_lt h₀ h, Int.toNat_of_nonneg h₀]

/-- The conversion of a `uint64` to a signed number. -/
def toInt64 (n : Nat) : Int := if n < 2 ^ 63 then n else n - 2 ^ 64

theorem toInt64_of_lt {n : Nat} (h : n < 2 ^ 63) : toInt64 n = n := if_pos h

variable (p : Price)

namespace Price

def validate : Checked Unit := do
  assert (0 < p.base.amount) "base.amount > share_type(0)"
  assert (0 < p.quote.amount) "quote.amount > share_type(0)"
  assert (p.base.symbol ≠ p.quote.symbol) "base.symbol != quote.symbol"

/-- The checking constructor of `price`. -/
def make (base quote : Asset) : Checked Price := do
  let p : Price := ⟨base, quote⟩
  p.validate
  return p

/-- `operator ~`: the price seen from the other side. -/
def invert : Price := ⟨p.quote, p.base⟩

/-- `price::max` for the symbols of `p`. -/
def max : Price := ⟨⟨maxSatoshis, p.base.symbol⟩, ⟨1, p.quote.symbol⟩⟩

/-- What makes a price usable. -/
structure Valid (p : Price) : Prop where
  base_pos : 0 < p.base.amount
  quote_pos : 0 < p.quote.amount
  ne : p.base.symbol ≠ p.quote.symbol

instance (p : Price) : Decidable p.Valid :=
  decidable_of_iff (0 < p.base.amount ∧ 0 < p.quote.amount ∧ p.base.symbol ≠ p.quote.symbol)
    ⟨fun h => ⟨h.1, h.2.1, h.2.2⟩, fun h => ⟨h.1, h.2, h.3⟩⟩

@[simp] theorem validate_eq_ok {p : Price} {u : Unit} : p.validate = .ok u ↔ p.Valid := by
  simp only [validate, eq_ok]
  exact ⟨fun h => ⟨h.1, h.2.1, h.2.2⟩, fun h => ⟨h.1, h.2, h.3⟩⟩

theorem make_eq_ok {base quote : Asset} {p : Price} :
    make base quote = .ok p ↔ p = ⟨base, quote⟩ ∧ p.Valid := by
  simp only [make, eq_ok, validate_eq_ok]
  constructor
  · rintro ⟨h, rfl⟩
    exact ⟨rfl, h⟩
  · rintro ⟨rfl, h⟩
    exact ⟨h, rfl⟩

def symbols : Symbol × Symbol := (p.base.symbol, p.quote.symbol)

/-- The order of the pairs of symbols. -/
def symbolsLt (a b : Price) : Prop :=
  a.base.symbol.assetNum < b.base.symbol.assetNum ∨
    a.base.symbol = b.base.symbol ∧ a.quote.symbol.assetNum < b.quote.symbol.assetNum

instance (a b : Price) : Decidable (a.symbolsLt b) :=
  inferInstanceAs (Decidable (_ ∨ _ ∧ _))

/-- `operator <`. Prices in different symbols compare by them; otherwise the amounts are
cross-multiplied, and the products fit in 128 bits. -/
def lt (a b : Price) : Prop :=
  if a.symbols = b.symbols then
    b.quote.amount * a.base.amount < a.quote.amount * b.base.amount
  else a.symbolsLt b

instance (a b : Price) : Decidable (a.lt b) :=
  inferInstanceAs (Decidable (if a.symbols = b.symbols then _ else _))

/-- `operator <=`. -/
def le (a b : Price) : Prop :=
  if a.symbols = b.symbols then
    b.quote.amount * a.base.amount ≤ a.quote.amount * b.base.amount
  else a.symbolsLt b

instance (a b : Price) : Decidable (a.le b) :=
  inferInstanceAs (Decidable (if a.symbols = b.symbols then _ else _))

/-- `price::is_null`: `*this == price()`. -/
def isNull : Prop :=
  p.symbols = (.delta, .delta) ∧ p.base.amount * 0 = p.quote.amount * 0

instance (p : Price) : Decidable p.isNull := inferInstanceAs (Decidable (_ ∧ _))

end Price

/-- `amount * num / den` in 128 bits, which must fit in 64. -/
def mulDiv (amount num den : Int) (msg : String) : Checked Int := do
  assert (0 < den) msg
  let result : Int := (amount * num) % 2 ^ 128 / den
  assert (result < 2 ^ 64) "result.hi == 0"
  return toInt64 result.toNat

/-- `operator * ( asset, price )`. -/
def AssetOf.mul {σ : Type} [DecidableEq σ] (a : AssetOf σ) (b : PriceOf σ) : Checked (AssetOf σ) :=
  if a.symbol = b.base.symbol then do
    let amount ← mulDiv a.amount b.quote.amount b.base.amount "b.base.amount.value > 0"
    return ⟨amount, b.quote.symbol⟩
  else if a.symbol = b.quote.symbol then do
    let amount ← mulDiv a.amount b.base.amount b.quote.amount "b.quote.amount.value > 0"
    return ⟨amount, b.base.symbol⟩
  else .error "invalid asset * price"

end DeltaChain.Protocol

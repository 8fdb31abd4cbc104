import DeltaChain.Protocol.Asset

/-!
# Exchanging an asset at a price

`operator * ( asset, price )` for every kind of symbol: the core symbols are one case, the symbols
of tokens another. The quotient of 128 bits is checked to fit into 64 and becomes a signed number
then, so that a quotient in the upper half of the unsigned range is returned as a negative amount
(`exchange_exact_iff`).
-/

namespace DeltaChain.Protocol

open Lib Checked

variable {σ : Type} [DecidableEq σ]

namespace PriceOf

/-- The side of a price with the given symbol; the base is looked at first. -/
def own (p : PriceOf σ) (symbol : σ) : AssetOf σ := if symbol = p.base.symbol then p.base else p.quote

def other (p : PriceOf σ) (symbol : σ) : AssetOf σ :=
  if symbol = p.base.symbol then p.quote else p.base

end PriceOf

/-- The quotient that the amount should be. -/
def AssetOf.quotient (a : AssetOf σ) (b : PriceOf σ) : Int :=
  a.amount * (b.other a.symbol).amount / (b.own a.symbol).amount

-- # The quotient

variable {amount num den r : Int} {msg : String}

theorem mulDiv_eq_ok (ha : 0 ≤ amount) (hn : 0 ≤ num) (hbig : amount * num < 2 ^ 128)
    (hd : 0 < den) : mulDiv amount num den msg = .ok r ↔
      amount * num / den < 2 ^ 64 ∧
        r = if amount * num / den < 2 ^ 63 then amount * num / den else amount * num / den - 2 ^ 64 := by
  have hnonneg : 0 ≤ amount * num / den := Int.ediv_nonneg (mul_nonneg ha hn) hd.le
  have hmod : amount * num % 2 ^ 128 = amount * num := Int.emod_eq_of_lt (mul_nonneg ha hn) hbig
  have hread : toInt64 (amount * num / den).toNat =
      if amount * num / den < 2 ^ 63 then amount * num / den else amount * num / den - 2 ^ 64 := by
    unfold toInt64
    split <;> split <;> omega
  simp only [mulDiv, eq_ok, hmod, hread]
  constructor
  · rintro ⟨-, hlt, hr⟩
    exact ⟨hlt, hr.symm⟩
  · rintro ⟨hlt, hr⟩
    exact ⟨hd, hlt, hr.symm⟩

/-- A negative product becomes a number of 128 bits that no price makes small. -/
theorem mulDiv_product_nonneg (hlow : -2 ^ 126 ≤ amount * num) (hden : den < 2 ^ 63)
    (h : mulDiv amount num den msg = .ok r) : 0 ≤ amount * num := by
  simp only [mulDiv, eq_ok] at h
  obtain ⟨hpos, hlt, -⟩ := h
  have hmod := Int.lt_mul_of_ediv_lt hpos hlt
  omega

/-- The floor, and what is lost to 64 bits, only make the result smaller. -/
theorem mulDiv_mul_le (hnonneg : 0 ≤ amount * num) (h : mulDiv amount num den msg = .ok r) :
    r * den ≤ amount * num := by
  simp only [mulDiv, eq_ok] at h
  obtain ⟨hden, -, rfl⟩ := h
  have hread : toInt64 (amount * num % 2 ^ 128 / den).toNat ≤ amount * num % 2 ^ 128 / den := by
    have : 0 ≤ amount * num % 2 ^ 128 / den := Int.ediv_nonneg (by omega) hden.le
    unfold toInt64
    split
    all_goals omega
  calc toInt64 (amount * num % 2 ^ 128 / den).toNat * den
      ≤ amount * num % 2 ^ 128 / den * den := mul_le_mul_of_nonneg_right hread hden.le
    _ ≤ amount * num % 2 ^ 128 := Int.ediv_mul_le _ hden.ne'
    _ ≤ amount * num := by omega

/-- An exchange is one quotient, on the side of the price where the symbol is. -/
theorem AssetOf.mul_eq_ok {a r : AssetOf σ} {p : PriceOf σ}
    (hsymbol : a.symbol = p.base.symbol ∨ a.symbol = p.quote.symbol) :
    a.mul p = .ok r ↔ r.symbol = (p.other a.symbol).symbol ∧
      ∃ msg, mulDiv a.amount (p.other a.symbol).amount (p.own a.symbol).amount msg = .ok r.amount := by
  have hmsg : ∀ {num den : Int} {m m' : String} {x : Int}, mulDiv a.amount num den m = .ok x →
      mulDiv a.amount num den m' = .ok x := by
    intro num den m m' x h
    simp only [mulDiv, eq_ok] at h ⊢
    exact h
  unfold AssetOf.mul PriceOf.other PriceOf.own
  split
  · next hbase =>
    simp only [eq_ok]
    constructor
    · rintro ⟨amount, h, rfl⟩
      exact ⟨rfl, _, h⟩
    · rintro ⟨hs, m, h⟩
      exact ⟨r.amount, hmsg h, by rw [← hs]⟩
  · next hbase =>
    simp only [if_pos (hsymbol.resolve_left hbase), eq_ok]
    constructor
    · rintro ⟨amount, h, rfl⟩
      exact ⟨rfl, _, h⟩
    · rintro ⟨hs, m, h⟩
      exact ⟨r.amount, hmsg h, by rw [← hs]⟩

/-- **Exchanging an amount** throws or gives the quotient, in the other symbol and never negative, if
and only if the quotient is not in the upper half of the unsigned 64 bit range. -/
theorem exchange_exact_iff (a : AssetOf σ) (p : PriceOf σ)
    (hamount : 0 ≤ a.amount ∧ a.amount ≤ maxSatoshis)
    (hbase : 1 ≤ p.base.amount ∧ p.base.amount ≤ maxSatoshis)
    (hquote : 1 ≤ p.quote.amount ∧ p.quote.amount ≤ maxSatoshis)
    (hsymbol : a.symbol = p.base.symbol ∨ a.symbol = p.quote.symbol) :
    (∀ r, a.mul p = .ok r →
        r.symbol = (p.other a.symbol).symbol ∧ r.amount = a.quotient p ∧ 0 ≤ r.amount) ↔
      a.quotient p < 2 ^ 63 ∨ 2 ^ 64 ≤ a.quotient p := by
  have hown : 0 < (p.own a.symbol).amount := by
    unfold PriceOf.own
    split <;> omega
  have hother : 0 ≤ (p.other a.symbol).amount ∧ (p.other a.symbol).amount ≤ maxSatoshis := by
    unfold PriceOf.other
    split <;> omega
  have hbig : a.amount * (p.other a.symbol).amount < 2 ^ 128 := by
    unfold maxSatoshis at hamount hother
    nlinarith
  have hnonneg : 0 ≤ a.quotient p :=
    Int.ediv_nonneg (mul_nonneg hamount.1 hother.1) hown.le
  have hresult : ∀ r, a.mul p = .ok r ↔ r.symbol = (p.other a.symbol).symbol ∧
      a.quotient p < 2 ^ 64 ∧
        r.amount = if a.quotient p < 2 ^ 63 then a.quotient p else a.quotient p - 2 ^ 64 := by
    intro r
    rw [AssetOf.mul_eq_ok hsymbol]
    simp only [mulDiv_eq_ok hamount.1 hother.1 hbig hown, exists_const]
    rfl
  constructor
  · intro h
    by_contra hupper
    have hneg : 0 ≤ a.quotient p - 2 ^ 64 :=
      (h ⟨a.quotient p - 2 ^ 64, (p.other a.symbol).symbol⟩
        ((hresult _).mpr ⟨rfl, by omega, by rw [if_neg (by omega)]⟩)).2.2
    omega
  · intro h r hr
    obtain ⟨hs, hlt, hamount'⟩ := (hresult r).mp hr
    rw [if_pos (by omega)] at hamount'
    exact ⟨hs, hamount', hamount' ▸ hnonneg⟩

/-- Two DBD for each DELTA. -/
theorem exchange_exact_double :
    (⟨5, .delta⟩ : Asset).mul ⟨⟨1, .delta⟩, ⟨2, .dbd⟩⟩ = .ok ⟨10, .dbd⟩ ∧
      ∀ r, (⟨5, .delta⟩ : Asset).mul ⟨⟨1, .delta⟩, ⟨2, .dbd⟩⟩ = .ok r →
        r.symbol = .dbd ∧ r.amount = 10 ∧ 0 ≤ r.amount :=
  ⟨by decide +kernel, (exchange_exact_iff ⟨5, Symbol.delta⟩ ⟨⟨1, .delta⟩, ⟨2, .dbd⟩⟩ (by decide)
    (by decide) (by decide) (Or.inl rfl)).mpr (Or.inl (by decide))⟩

/-- Three times the largest amount is in the upper half of the range. -/
theorem exchange_negative :
    (⟨maxSatoshis, .delta⟩ : Asset).mul ⟨⟨1, .delta⟩, ⟨3, .dbd⟩⟩ =
      .ok ⟨-4611686018427387907, .dbd⟩ := by
  decide +kernel

end DeltaChain.Protocol

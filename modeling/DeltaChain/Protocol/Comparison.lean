import DeltaChain.Protocol.Asset

/-!
# Comparing prices

The six comparison operators of `price` are one macro, on symbols first and on cross products then.
For amounts from 1 to `DELTA_MAX_SATOSHIS` they compare the symbols and the rational value
(`compareWith_eq`), from which `price_comparisons` reads off all that the order book relies on.
-/

namespace DeltaChain.Protocol

/-- `price`, over all symbols. -/
structure SymbolPrice where
  baseSymbol : Nat
  baseAmount : Int
  quoteSymbol : Nat
  quoteAmount : Int

def Price.toSymbolPrice (p : Price) : SymbolPrice :=
  ⟨p.base.symbol.assetNum, p.base.amount, p.quote.symbol.assetNum, p.quote.amount⟩

namespace SymbolPrice

def bq (a : SymbolPrice) : Nat ×ₗ Nat := toLex (a.baseSymbol, a.quoteSymbol)

/-- `DEFINE_PRICE_COMPARISON_OPERATOR`. -/
def compareWith (op : Ordering → Bool) (a b : SymbolPrice) : Bool :=
  if a.bq ≠ b.bq then op (compare a.bq b.bq)
  else
    let amult := u128 (b.quoteAmount * a.baseAmount)
    let bmult := u128 (a.quoteAmount * b.baseAmount)
    op (compare amult bmult)

def eq : SymbolPrice → SymbolPrice → Bool := compareWith Ordering.isEq

def ne : SymbolPrice → SymbolPrice → Bool := compareWith Ordering.isNe

def lt : SymbolPrice → SymbolPrice → Bool := compareWith Ordering.isLT

def le : SymbolPrice → SymbolPrice → Bool := compareWith Ordering.isLE

def gt : SymbolPrice → SymbolPrice → Bool := compareWith Ordering.isGT

def ge : SymbolPrice → SymbolPrice → Bool := compareWith Ordering.isGE

/-- `operator ~`. -/
def invert (a : SymbolPrice) : SymbolPrice :=
  ⟨a.quoteSymbol, a.quoteAmount, a.baseSymbol, a.baseAmount⟩

/-- The amounts are positive, and no more than `DELTA_MAX_SATOSHIS`. -/
structure InRange (a : SymbolPrice) : Prop where
  base : 1 ≤ a.baseAmount ∧ a.baseAmount ≤ maxSatoshis
  quote : 1 ≤ a.quoteAmount ∧ a.quoteAmount ≤ maxSatoshis

def ratio (a : SymbolPrice) : ℚ := a.baseAmount / a.quoteAmount

/-- What the comparisons depend on. -/
def key (a : SymbolPrice) : (Nat ×ₗ Nat) ×ₗ ℚ := toLex (a.bq, a.ratio)

/-- The prices of one market: in the same symbols, or in swapped ones. -/
def SameMarket (a b : SymbolPrice) : Prop := a.bq = b.bq ∨ a.bq = b.invert.bq

variable {a b : SymbolPrice}

theorem InRange.product (ha : a.InRange) (hb : b.InRange) :
    (u128 (a.quoteAmount * b.baseAmount) : Int) = a.quoteAmount * b.baseAmount := by
  obtain ⟨hb₁, hb₂⟩ := hb.base
  obtain ⟨hq₁, hq₂⟩ := ha.quote
  unfold maxSatoshis at hb₂ hq₂
  have hpos : 0 ≤ a.quoteAmount * b.baseAmount := by positivity
  have hlt : a.quoteAmount * b.baseAmount < 2 ^ 128 := by nlinarith
  rw [u128, Int.emod_eq_of_lt hpos hlt, Int.toNat_of_nonneg hpos]

theorem InRange.ratio_lt_iff (ha : a.InRange) (hb : b.InRange) : a.ratio < b.ratio ↔
    b.quoteAmount * a.baseAmount < a.quoteAmount * b.baseAmount := by
  have hqa : (0 : ℚ) < a.quoteAmount := Int.cast_pos.mpr ha.quote.1
  have hqb : (0 : ℚ) < b.quoteAmount := Int.cast_pos.mpr hb.quote.1
  rw [ratio, ratio, div_lt_div_iff₀ hqa hqb, mul_comm, mul_comm (b.baseAmount : ℚ)]
  exact_mod_cast Iff.rfl

/-- The macro compares symbols and values. -/
theorem compareWith_eq (op : Ordering → Bool) (ha : a.InRange) (hb : b.InRange) :
    compareWith op a b = op (compare a.key b.key) := by
  have hkey : compare a.key b.key = (compare a.bq b.bq).then (compare a.ratio b.ratio) := by
    rfl
  rw [hkey, compareWith]
  split
  · next hne =>
    cases hcmp : compare a.bq b.bq with
    | eq => exact absurd (compare_eq_iff_eq.mp hcmp) hne
    | lt | gt => rfl
  · next heq =>
    have hlt := ha.ratio_lt_iff hb
    have hgt := hb.ratio_lt_iff ha
    rw [← ha.product hb, ← hb.product ha, Int.ofNat_lt] at hlt hgt
    rw [compare_eq_iff_eq.mpr (not_not.mp heq), Ordering.eq_then]
    show op (compare (u128 (b.quoteAmount * a.baseAmount)) (u128 (a.quoteAmount * b.baseAmount))) = _
    congr 1
    rcases lt_trichotomy a.ratio b.ratio with h | h | h
    · rw [compare_lt_iff_lt.mpr h, compare_lt_iff_lt.mpr (hlt.mp h)]
    · rw [compare_eq_iff_eq.mpr h, compare_eq_iff_eq]
      rw [h, lt_self_iff_false, false_iff] at hlt hgt
      omega
    · rw [compare_gt_iff_gt.mpr h, compare_gt_iff_gt.mpr (hgt.mp h)]

theorem operators_iff (ha : a.InRange) (hb : b.InRange) :
    (a.eq b ↔ a.key = b.key) ∧ (a.ne b ↔ a.key ≠ b.key) ∧ (a.lt b ↔ a.key < b.key) ∧
      (a.le b ↔ a.key ≤ b.key) ∧ (a.gt b ↔ b.key < a.key) ∧ (a.ge b ↔ b.key ≤ a.key) := by
  unfold eq ne lt le gt ge
  simp only [compareWith_eq _ ha hb]
  rcases lt_trichotomy a.key b.key with h | h | h
  · rw [compare_lt_iff_lt.mpr h]
    simp [h, h.ne, h.le, h.not_gt, h.not_ge]
  · simp [h]
  · rw [compare_gt_iff_gt.mpr h]
    simp [h, h.ne', h.le, h.not_gt, h.not_ge]

theorem key_lt_iff : a.key < b.key ↔ a.bq < b.bq ∨ a.bq = b.bq ∧ a.ratio < b.ratio := Prod.Lex.lt_iff

/-- Within a market, inverting turns the order around. -/
theorem invert_lt_iff (ha : a.InRange) (hb : b.InRange) (h : SameMarket a b) :
    a.key < b.key ↔ b.invert.key < a.invert.key := by
  have hpos : ∀ {p : SymbolPrice}, p.InRange → 0 < p.ratio := fun hp =>
    div_pos (Int.cast_pos.mpr hp.base.1) (Int.cast_pos.mpr hp.quote.1)
  have hratio : b.invert.ratio < a.invert.ratio ↔ a.ratio < b.ratio := by
    rw [← inv_lt_inv₀ (hpos hb) (hpos ha), ratio, ratio, ratio, ratio, inv_div, inv_div]
    rfl
  rw [key_lt_iff, key_lt_iff, hratio]
  rcases h with h | h
  · have hinvert : a.invert.bq = b.invert.bq := by
      simp only [bq, invert, EmbeddingLike.apply_eq_iff_eq, Prod.mk.injEq] at h ⊢
      exact ⟨h.2, h.1⟩
    simp [h, hinvert]
  · have hinvert : a.invert.bq = b.bq := by
      simp only [bq, invert, EmbeddingLike.apply_eq_iff_eq, Prod.mk.injEq] at h ⊢
      exact ⟨h.2, h.1⟩
    rw [h, hinvert]

/-- **The comparisons of prices.** They agree with each other; `<` is a strict weak order whose classes
are the prices with the same symbols and value; within a market, inverting turns it around, so two orders
cross whichever of them is the new one. The order book compares core prices like this. -/
theorem price_comparisons :
    (∀ a b : SymbolPrice, a.InRange → b.InRange →
      ((a.ne b ↔ ¬ a.eq b) ∧ (a.le b ↔ ¬ b.lt a) ∧ (a.gt b ↔ b.lt a) ∧ (a.ge b ↔ b.le a) ∧
        (a.le b ↔ a.lt b ∨ a.eq b)) ∧
      (¬ a.lt b ∧ ¬ b.lt a ↔ a.bq = b.bq ∧ a.ratio = b.ratio) ∧
      (a.eq b ↔ a.bq = b.bq ∧ a.ratio = b.ratio) ∧
      (SameMarket a b → (a.lt b ↔ b.invert.lt a.invert) ∧ (a.ge b.invert ↔ b.ge a.invert))) ∧
    IsStrictWeakOrder {p : SymbolPrice // p.InRange} (fun p q => p.1.lt q.1) ∧
    ∀ p q : Price, p.toSymbolPrice.InRange → q.toSymbolPrice.InRange →
      (p.lt q ↔ p.toSymbolPrice.lt q.toSymbolPrice) ∧ (p.le q ↔ p.toSymbolPrice.le q.toSymbolPrice) := by
  refine ⟨fun a b ha hb => ?_, ?_, fun p q hp hq => ?_⟩
  · obtain ⟨heq, hne, hlt, hle, hgt, hge⟩ := operators_iff ha hb
    obtain ⟨-, -, hlt', hle', -, -⟩ := operators_iff hb ha
    have hkey : a.bq = b.bq ∧ a.ratio = b.ratio ↔ a.key = b.key := by simp [key]
    have ha' : a.invert.InRange := ⟨ha.quote, ha.base⟩
    have hb' : b.invert.InRange := ⟨hb.quote, hb.base⟩
    simp only [heq, hne, hlt, hle, hgt, hge, hlt', hle', hkey]
    refine ⟨⟨trivial, not_lt.symm, trivial, trivial, le_iff_lt_or_eq⟩, ?_, trivial, fun h => ⟨?_, ?_⟩⟩
    · rw [not_lt, not_lt, and_comm, ← le_antisymm_iff]
    · rw [(operators_iff hb' ha').2.2.1]
      exact invert_lt_iff ha hb h
    · rw [(operators_iff ha hb').2.2.2.2.2, (operators_iff hb ha').2.2.2.2.2, ← not_lt, ← not_lt]
      exact not_congr (invert_lt_iff ha hb' h.symm)
  · have hlt : ∀ p q : {p : SymbolPrice // p.InRange}, p.1.lt q.1 ↔ p.1.key < q.1.key :=
      fun p q => (operators_iff p.2 q.2).2.2.1
    simp only [hlt]
    exact
      { irrefl := fun p => lt_irrefl _
        trans := fun _ _ _ => lt_trans
        incomp_trans := fun p q r h h' => by
          simp only [not_lt] at h h' ⊢
          exact ⟨h'.1.trans h.1, h.2.trans h'.2⟩ }
  · have hinj : ∀ s t : Symbol, s.assetNum = t.assetNum ↔ s = t := by
      rintro (_ | _ | _) (_ | _ | _) <;> decide
    have hbq : p.toSymbolPrice.bq = q.toSymbolPrice.bq ↔ p.symbols = q.symbols := by
      simp [bq, Price.toSymbolPrice, Price.symbols, hinj]
    have hbqlt : p.toSymbolPrice.bq < q.toSymbolPrice.bq ↔ p.symbolsLt q := by
      simp [bq, Price.toSymbolPrice, Price.symbolsLt, Prod.Lex.lt_iff, hinj]
    obtain ⟨-, -, hlt, hle, -, -⟩ := operators_iff hp hq
    rw [hlt, hle, ← not_lt, key_lt_iff, key_lt_iff, hp.ratio_lt_iff hq, hq.ratio_lt_iff hp]
    unfold Price.lt Price.le
    split
    · next hsym =>
      simp only [hbq.mpr hsym, lt_self_iff_false, false_or, true_and, not_lt]
      exact ⟨Iff.rfl, Iff.rfl⟩
    · next hsym =>
      have hne := hbq.not.mpr hsym
      simp [← hbqlt, hne, Ne.symm hne, lt_iff_le_and_ne]

/-- Two orders of one market from its two sides, 2 for 3 and 5 for 3: they cross, whichever of them
is the new one. -/
theorem price_comparisons_swapped :
    SameMarket ⟨0, 2, 1, 3⟩ ⟨1, 5, 0, 3⟩ ∧
      (ge ⟨0, 2, 1, 3⟩ (invert ⟨1, 5, 0, 3⟩) ↔ ge ⟨1, 5, 0, 3⟩ (invert ⟨0, 2, 1, 3⟩)) ∧
      ge ⟨1, 5, 0, 3⟩ (invert ⟨0, 2, 1, 3⟩) := by
  have ha : InRange ⟨0, 2, 1, 3⟩ := ⟨by decide, by decide⟩
  have hb : InRange ⟨1, 5, 0, 3⟩ := ⟨by decide, by decide⟩
  have hmarket : SameMarket ⟨0, 2, 1, 3⟩ ⟨1, 5, 0, 3⟩ := Or.inr rfl
  exact ⟨hmarket, ((price_comparisons.1 _ _ ha hb).2.2.2 hmarket).2, by decide +kernel⟩

end SymbolPrice

end DeltaChain.Protocol

import DeltaChain.Protocol.Exchange
import DeltaChain.Withdrawals.Routes

/-!
# What a payment takes out of the vesting fund

Shares are turned into DELTA at the price of the fund. As long as there is a fund where there are
shares, any part of the shares has a price, and what is left has one too (`Funded.convert`).
-/

namespace DeltaChain.Withdrawals

open Lib Protocol Ledger Ledger.Database Checked

/-- The totals of the vesting fund are numbers of 63 bits, and the fund is empty only if there are no
shares. -/
structure Funded (g : GlobalProperties) : Prop where
  shares_nonneg : 0 ≤ g.totalVestingShares
  shares_lt : g.totalVestingShares < 2 ^ 63
  fund_nonneg : 0 ≤ g.totalVestingFundDelta
  fund_lt : g.totalVestingFundDelta < 2 ^ 63
  empty : g.totalVestingFundDelta = 0 → g.totalVestingShares = 0

instance (g : GlobalProperties) : Decidable (Funded g) :=
  decidable_of_iff (0 ≤ g.totalVestingShares ∧ g.totalVestingShares < 2 ^ 63 ∧
      0 ≤ g.totalVestingFundDelta ∧ g.totalVestingFundDelta < 2 ^ 63 ∧
      (g.totalVestingFundDelta = 0 → g.totalVestingShares = 0))
    ⟨fun h => ⟨h.1, h.2.1, h.2.2.1, h.2.2.2.1, h.2.2.2.2⟩,
      fun h => ⟨h.1, h.2, h.3, h.4, h.5⟩⟩

/-- The totals after `shares` were turned into `converted` DELTA. -/
def takeOut (g : GlobalProperties) (converted shares : Int) : GlobalProperties :=
  { g with
    totalVestingFundDelta := g.totalVestingFundDelta - converted
    totalVestingShares := g.totalVestingShares - shares }

/-- A part of `den` as the same part of `num`. -/
theorem mulDiv_eq {amount num den : Int} {msg : String} (hamount : 0 ≤ amount) (hle : amount ≤ den)
    (hden : 0 < den) (hsmall : den < 2 ^ 63) (hnum : 0 ≤ num) (hnum' : num < 2 ^ 63) :
    mulDiv amount num den msg = .ok (amount * num / den) := by
  have hfits : amount * num < 2 ^ 128 := by
    calc amount * num ≤ den * num := Int.mul_le_mul_of_nonneg_right hle hnum
      _ ≤ 2 ^ 63 * 2 ^ 63 := Int.mul_le_mul hsmall.le hnum'.le hnum (by norm_num)
      _ < 2 ^ 128 := by norm_num
  have hpart : amount * num / den ≤ num := by
    refine Int.ediv_le_of_le_mul hden ?_
    rw [Int.mul_comm num den]
    exact Int.mul_le_mul_of_nonneg_right hle hnum
  exact (mulDiv_eq_ok hamount hnum hfits hden).mpr ⟨by omega, (if_pos (by omega)).symm⟩

/-- **Any part of the shares has a price**, and what is left over is funded. -/
theorem Funded.convert {g : GlobalProperties} (h : Funded g) {shares : Int} (hshares : 0 ≤ shares)
    (hle : shares ≤ g.totalVestingShares) :
    ∃ sharePrice converted, g.vestingSharePrice = .ok sharePrice ∧
      (⟨shares, .vests⟩ : Asset).mul sharePrice = .ok converted ∧
      Funded (takeOut g converted.amount shares) := by
  obtain ⟨hnonneg, hsmall, hfund, hfund', hempty⟩ := h
  unfold GlobalProperties.vestingSharePrice
  split
  · -- without a fund there are no shares, and nothing is taken out
    next hnone =>
    obtain rfl : shares = 0 := by omega
    refine ⟨_, _, rfl, rfl, ?_⟩
    have hkeep : takeOut g 0 0 = g := by
      unfold takeOut
      rw [sub_zero, sub_zero]
    exact hkeep.symm ▸ ⟨hnonneg, hsmall, hfund, hfund', hempty⟩
  · next hsome =>
    have hpos : 0 < g.totalVestingShares := by omega
    have hpart : shares * g.totalVestingFundDelta / g.totalVestingShares ≤ g.totalVestingFundDelta := by
      refine Int.ediv_le_of_le_mul hpos ?_
      rw [Int.mul_comm g.totalVestingFundDelta]
      exact Int.mul_le_mul_of_nonneg_right hle hfund
    have hpart₀ : 0 ≤ shares * g.totalVestingFundDelta / g.totalVestingShares :=
      Int.ediv_nonneg (Int.mul_nonneg hshares hfund) hnonneg
    refine ⟨⟨⟨g.totalVestingShares, .vests⟩, ⟨g.totalVestingFundDelta, .delta⟩⟩,
      ⟨shares * g.totalVestingFundDelta / g.totalVestingShares, .delta⟩, ?_, ?_, ?_⟩
    · exact Price.make_eq_ok.mpr ⟨rfl, hpos, by dsimp only; omega, nofun⟩
    · rw [AssetOf.mul, if_pos rfl, bind_eq_ok]
      exact ⟨_, mulDiv_eq hshares hle hpos hsmall hfund hfund', rfl⟩
    · refine ⟨?_, ?_, ?_, ?_, fun hall => ?_⟩ <;> simp only [takeOut] at *
      · omega
      · omega
      · omega
      · omega
      · -- the fund is only used up with the last of the shares
        have hlast : g.totalVestingFundDelta * g.totalVestingShares ≤
            shares * g.totalVestingFundDelta := by
          rw [← Int.le_ediv_iff_mul_le hpos]
          omega
        have : g.totalVestingShares ≤ shares := by
          rw [Int.mul_comm] at hlast
          exact le_of_mul_le_mul_right hlast (by omega)
        omega

/-- What goes over a route, without a bound on the number of bits. -/
def share (toWithdraw : Int) (route : WithdrawVestingRoute) : Int :=
  toWithdraw * route.percent / percent100

theorem share_nonneg {toWithdraw : Int} (hx : 0 ≤ toWithdraw) (route : WithdrawVestingRoute) :
    0 ≤ share toWithdraw route :=
  Int.ediv_nonneg (Int.mul_nonneg hx (Int.natCast_nonneg _)) (Int.natCast_nonneg _)

theorem routed_eq {toWithdraw : Int} (hx : 0 ≤ toWithdraw) (hsmall : toWithdraw < 2 ^ 63)
    (route : WithdrawVestingRoute) : routed toWithdraw route = .ok (share toWithdraw route) := by
  have hpercent : (route.percent : Int) ≤ 10000 := by exact_mod_cast route.percent_le
  have hprod : 0 ≤ toWithdraw * route.percent := Int.mul_nonneg hx (Int.natCast_nonneg _)
  have hle : toWithdraw * route.percent ≤ toWithdraw * 10000 :=
    Int.mul_le_mul_of_nonneg_left hpercent hx
  have hpart : share toWithdraw route ≤ toWithdraw := Int.ediv_le_of_le_mul (by decide) hle
  have hexact : ((u128 (u128 toWithdraw * route.percent : Nat) / percent100 : Nat) : Int) =
      share toWithdraw route := by
    rw [Int.natCast_ediv, Nat.cast_mul, u128_of_lt hx (by omega),
      u128_of_lt hprod (by omega)]
    rfl
  simp only [routed, eq_ok]
  refine ⟨?_, hexact⟩
  omega

end DeltaChain.Withdrawals

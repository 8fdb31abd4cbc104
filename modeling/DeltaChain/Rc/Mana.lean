import DeltaChain.Ledger.Accounts
import DeltaChain.Rc.Model

/-!
# The arithmetic of resource credits

Two places of the plugin leave the range of 64 bits. What grows back is computed for all the time
that an account was idle and is checked before the maximum is applied, so that an account with a high
maximum that was idle for long cannot be regenerated any more (`regeneration_iff`). And the lower bound
of a payment is computed by a product that overflows for a high maximum, which puts the bound where
it does not belong (`use_account_rcs_iff`).
-/

namespace DeltaChain.Rc

open Lib Protocol Ledger Checked

/-- The mana that grows back, without any limit. -/
def regrown (maxRc : Int) (idle : Nat) : Int := maxRc * idle / regenTime

/-- The mana that an account may be left with at least. -/
def negativeLimit (maxRc : Int) : Int := -(maxRc * maxNegativePercent / percent100)

-- # Regeneration

section Regeneration

variable {m r : Manabar} {maxRc : Int} {now : Nat}

theorem regrown_nonneg (h : 0 ≤ maxRc) (idle : Nat) : 0 ≤ regrown maxRc idle :=
  Int.ediv_nonneg (Int.mul_nonneg h (Int.natCast_nonneg _)) (Int.natCast_nonneg _)

/-- **What regeneration does.** It throws if the mana that grows back leaves the signed range, unless
there is nothing to grow back. -/
theorem regenerateMana_eq_ok (hmax : 0 ≤ maxRc) (hfits : maxRc ≤ int64Max)
    (htime : m.lastUpdateTime ≤ now) :
    m.regenerateMana ⟨maxRc, regenTime⟩ now true = .ok r ↔
      (maxRc ≤ m.currentMana ∨ regrown maxRc (now - m.lastUpdateTime) ≤ int64Max) ∧
      r = ⟨min maxRc (max int64Min (m.currentMana + regrown maxRc (now - m.lastUpdateTime))), now⟩ := by
  have hregrown := regrown_nonneg hmax (now - m.lastUpdateTime)
  have hwide : int64Max < 2 ^ 64 := by decide
  unfold Manabar.regenerateMana
  by_cases hfull : maxRc ≤ m.currentMana
  · -- nothing grows back
    have hcapped : min maxRc
        (max int64Min (m.currentMana + regrown maxRc (now - m.lastUpdateTime))) = maxRc := by omega
    simp only [ge_iff_le, hfull, if_true, eq_ok, hcapped, true_or, true_and]
    exact ⟨fun h => h.2.2.symm, fun h => ⟨hmax, htime, h.symm⟩⟩
  · simp only [hfull, ge_iff_le, if_false, eq_ok, false_or]
    show _ ∧ _ ∧ regrown maxRc (now - m.lastUpdateTime) < 2 ^ 64 ∧
      regrown maxRc (now - m.lastUpdateTime) ≤ int64Max ∧ _ = r ↔ _
    have hcapped : (if signedSatAdd m.currentMana (regrown maxRc (now - m.lastUpdateTime)) > maxRc
        then maxRc else signedSatAdd m.currentMana (regrown maxRc (now - m.lastUpdateTime))) =
        min maxRc (max int64Min (m.currentMana + regrown maxRc (now - m.lastUpdateTime))) := by
      unfold signedSatAdd
      split <;> omega
    constructor
    · rintro ⟨-, -, -, hle, rfl⟩
      exact ⟨hle, congrArg (Manabar.mk · now) hcapped⟩
    · rintro ⟨hle, rfl⟩
      exact ⟨hmax, htime, by omega, hle, congrArg (Manabar.mk · now) hcapped⟩

theorem lastUpdateTime_le (h : m.regenerateMana ⟨maxRc, regenTime⟩ now true = .ok r) :
    m.lastUpdateTime ≤ now := by
  simp only [Manabar.regenerateMana, eq_ok] at h
  exact h.2.1

/-- **Regeneration** gives what it should give if and only if the mana that grows back fits into a
signed number, or there is nothing to grow back. -/
theorem regeneration_iff (m : Manabar) (maxRc : Int) (now : Nat) (hmax : 0 ≤ maxRc)
    (hsatoshis : maxRc ≤ maxSatoshis) (hlow : negativeLimit maxRc ≤ m.currentMana)
    (hhigh : m.currentMana ≤ maxRc) (htime : m.lastUpdateTime ≤ now) :
    m.regenerateMana ⟨maxRc, regenTime⟩ now true =
        .ok ⟨min maxRc (m.currentMana + maxRc * ↑(now - m.lastUpdateTime) / regenTime), now⟩ ↔
      m.currentMana = maxRc ∨ maxRc * ↑(now - m.lastUpdateTime) / regenTime ≤ int64Max := by
  have hfits : maxRc ≤ int64Max := hsatoshis.trans (by decide)
  have hsmall : negativeLimit maxRc ≥ int64Min := by
    unfold negativeLimit maxNegativePercent percent100 int64Min
    unfold maxSatoshis at hsatoshis
    omega
  have hregrown : 0 ≤ maxRc * ↑(now - m.lastUpdateTime) / regenTime :=
    regrown_nonneg hmax (now - m.lastUpdateTime)
  rw [regenerateMana_eq_ok hmax hfits htime]
  unfold regrown
  constructor
  · rintro ⟨h, -⟩
    exact h.imp_left fun h => le_antisymm hhigh h
  · intro h
    refine ⟨h.imp_left ge_of_eq, congrArg (Manabar.mk · now) ?_⟩
    rw [max_eq_right (by omega)]

/-- Half a minute is not too long. -/
theorem regeneration_soon :
    (⟨10, 100⟩ : Manabar).regenerateMana ⟨maxSatoshis, regenTime⟩ 130 true =
      .ok ⟨min maxSatoshis (10 + maxSatoshis * ↑(130 - 100) / regenTime), 130⟩ :=
  (regeneration_iff ⟨10, 100⟩ maxSatoshis 130 (by decide) (by decide) (by decide) (by decide)
    (by decide)).mpr (Or.inr (by decide))

/-- Ten days and a second are, for the highest maximum. -/
theorem regeneration_fails :
    (⟨0, 1600000000⟩ : Manabar).regenerateMana ⟨maxSatoshis, regenTime⟩ 1600864001 true =
      .error "u_regen <= std::numeric_limits< int64_t >::max()" := by
  decide +kernel

end Regeneration

-- # Payment

section Payment

variable {maxRc : Int}

theorem minMana_eq (hmax : 0 ≤ maxRc) (h : maxNegativePercent * maxRc ≤ int64Max) :
    State.minMana maxRc = negativeLimit maxRc := by
  unfold maxNegativePercent int64Max at h
  have hwrap : ∀ x : Int, -2 ^ 63 ≤ x → x < 2 ^ 63 → wrap64 x = x := fun x hlow hhigh =>
    Int.bmod_eq_of_le (by omega) (by omega)
  unfold State.minMana negativeLimit maxNegativePercent percent100
  rw [hwrap (166 * maxRc) (by omega) (by omega), hwrap _ (by omega) (by omega), Int.neg_one_mul,
    Int.neg_tdiv, Int.tdiv_eq_ediv_of_nonneg (by omega), Int.mul_comm]

/-- Once the product overflows, the bound is above the place where it should be, and below the
maximum. -/
theorem minMana_of_overflow (h : int64Max < maxNegativePercent * maxRc) :
    negativeLimit maxRc < State.minMana maxRc ∧ State.minMana maxRc ≤ maxRc := by
  unfold maxNegativePercent int64Max at h
  have hrange : ∀ x : Int, -2 ^ 63 ≤ wrap64 x ∧ wrap64 x < 2 ^ 63 := fun x =>
    ⟨Int.le_bmod (by decide), Int.bmod_lt (by decide)⟩
  have hquot : ∀ y : Int, -2 ^ 63 ≤ y → y < 2 ^ 63 →
      -922337203685477 ≤ y.tdiv 10000 ∧ y.tdiv 10000 ≤ 922337203685477 ∧
        (0 ≤ y → 0 ≤ y.tdiv 10000) := by
    intro y hlow hhigh
    rw [Int.tdiv_eq_ediv, show Int.sign 10000 = 1 from rfl]
    split <;> omega
  -- just above the range the product wraps to a negative number, and the bound becomes positive
  have hnear : 166 * maxRc < 2 ^ 63 + 10000 → 0 ≤ wrap64 (-1 * wrap64 (166 * maxRc)) := by
    intro hlt
    have hfirst : wrap64 (166 * maxRc) = 166 * maxRc - 2 ^ 64 := by
      unfold wrap64
      rw [← Int.sub_bmod_right, Int.bmod_eq_of_le] <;> omega
    rw [hfirst]
    unfold wrap64
    rw [Int.bmod_eq_of_le] <;> omega
  obtain ⟨hlow, hhigh⟩ := hrange (-1 * wrap64 (166 * maxRc))
  obtain ⟨hquotLow, hquotHigh, hquotPos⟩ := hquot _ hlow hhigh
  show -(maxRc * 166 / 10000) < (wrap64 (-1 * wrap64 (166 * maxRc))).tdiv 10000 ∧
    (wrap64 (-1 * wrap64 (166 * maxRc))).tdiv 10000 ≤ maxRc
  by_cases hlt : 166 * maxRc < 2 ^ 63 + 10000
  · omega
  · omega

/-- **A payment** leaves an account between the limit and its maximum. It leaves what is left of the
mana or the limit, whichever is more, if and only if the product in the limit fits, or the mana that
is left is not below what the product wraps to. -/
theorem use_account_rcs_iff (s s' : State) (name : AccountName) (account : Account) (rca : RcAccount)
    (rc : Int) (hname : name ≠ "") (haccount : s.db.accounts.find? name = some account)
    (hrca : s.rcAccounts.find? name = some rca) (hmax : 0 ≤ getMaximumRc account rca)
    (hsatoshis : getMaximumRc account rca ≤ maxSatoshis) (hrc : 0 ≤ rc)
    (hcutoff : cutoffTime < s.db.headBlockTime) (h : s.useAccountRcs {} name rc = .ok s') :
    ∃ bar rca', rca.rcManabar.regenerateMana ⟨getMaximumRc account rca, regenTime⟩
        s.db.headBlockTime true = .ok bar ∧ s'.rcAccounts.find? name = some rca' ∧
      (negativeLimit (getMaximumRc account rca) ≤ rca'.rcManabar.currentMana ∧
        rca'.rcManabar.currentMana ≤ getMaximumRc account rca) ∧
      (rca'.rcManabar.currentMana =
          max (negativeLimit (getMaximumRc account rca)) (bar.currentMana - rc) ↔
        maxNegativePercent * getMaximumRc account rca ≤ int64Max ∨
          State.minMana (getMaximumRc account rca) ≤ bar.currentMana - rc) := by
  simp only [State.useAccountRcs, if_neg hname, eq_ok, Database.getAccount_eq_ok, get_eq_ok, haccount,
    hrca, Option.some.injEq, exists_eq_left'] at h
  obtain ⟨rca', hdeduct, rfl⟩ := h
  generalize getMaximumRc account rca = maxRc at *
  simp only [State.deduct, eq_ok] at hdeduct
  obtain ⟨bar, hbar, -, hdeduct⟩ := hdeduct
  rw [if_neg (by simp; omega), if_neg Bool.false_ne_true, pure_eq_ok] at hdeduct
  have hmana : rca'.rcManabar.currentMana =
      max (State.minMana maxRc) (signedSatSub bar.currentMana rc) := by
    rw [← hdeduct]
    show (if signedSatSub bar.currentMana rc < State.minMana maxRc then State.minMana maxRc
      else signedSatSub bar.currentMana rc) = _
    split <;> omega
  have hfits : maxRc ≤ int64Max := hsatoshis.trans (by decide)
  have hbarLe : bar.currentMana ≤ maxRc := by
    obtain ⟨-, rfl⟩ := (regenerateMana_eq_ok hmax hfits (lastUpdateTime_le hbar)).mp hbar
    exact min_le_left _ _
  have hlimit : int64Min ≤ negativeLimit maxRc ∧ negativeLimit maxRc ≤ 0 := by
    unfold negativeLimit maxNegativePercent percent100 int64Min
    unfold maxSatoshis at hsatoshis
    omega
  refine ⟨bar, rca', hbar, ?_, ?_⟩
  · rw [Table.find?_modify_self, hrca]
    rfl
  · rw [hmana]
    unfold signedSatSub
    by_cases hproduct : maxNegativePercent * maxRc ≤ int64Max
    · rw [minMana_eq hmax hproduct]
      omega
    · have hover := minMana_of_overflow (not_le.mp hproduct)
      omega

/-- An account with some shares and some mana, in a block after the cut-off time. -/
def samplePayer (shares mana : Int) : State where
  db :=
    { Database.genesis 0 with
      props := { time := 1600000000 }
      accounts := Table.empty.emplace "alice" { vestingShares := shares } }
  rcAccounts := Table.empty.emplace "alice" { rcManabar := ⟨mana, 1600000000⟩ }
  isProducing := false

/-- A payment that is more than the account has takes it down to the limit. -/
theorem use_account_rcs_small : ∃ s', (samplePayer 1000000 1000).useAccountRcs {} "alice" 50000 = .ok s' ∧
    ∃ rca', s'.rcAccounts.find? "alice" = some rca' ∧ rca'.rcManabar.currentMana = -16600 := by
  refine ⟨_, rfl, ?_⟩
  obtain ⟨bar, rca', hbar, hfind, -, hiff⟩ := use_account_rcs_iff (samplePayer 1000000 1000) _ "alice"
    { vestingShares := 1000000 } { rcManabar := ⟨1000, 1600000000⟩ } 50000 (by decide) rfl rfl
    (by decide) (by decide) (by decide) (by decide) rfl
  refine ⟨rca', hfind, ?_⟩
  obtain ⟨-, rfl⟩ :=
    (regenerateMana_eq_ok (by decide) (by decide) (lastUpdateTime_le hbar)).mp hbar
  exact (hiff.mpr (Or.inl (by decide))).trans (by decide)

/-- An account with many shares and little mana gains mana by a payment. -/
theorem payment_gains_mana :
    ∃ s' rca', (samplePayer 100000000000000000 1000).useAccountRcs {} "alice" 5000 = .ok s' ∧
      s'.rcAccounts.find? "alice" = some rca' ∧ rca'.rcManabar.currentMana = 184674407370955 ∧
      max (negativeLimit 100000000000000000) (1000 - 5000) = -4000 :=
  ⟨_, _, rfl, rfl, by decide, by decide⟩

end Payment

end DeltaChain.Rc

import DeltaChain.Rc.Model
import Mathlib.Tactic.Linarith

/-!
# Mana that grows back in steps

Both variants of `regenerate_mana` give the mana in proportion to the time, rounded down, up to the
maximum (`regenerate_eq`): the cap on the time makes no difference above zero, where a full round is
enough to reach the maximum. Rounding down loses less than one unit a step, so that many small steps
give at most as much as one long step, and fall short of it by at most their number
(`regeneration_by_steps`).
-/

namespace DeltaChain.Ledger.Manabar

open Lib Checked

variable (skipCapRegen : Bool)

/-- The mana in proportion to the time, up to the maximum. -/
def regrown (m : Manabar) (maxMana : Int) (regenTime now : Nat) : Int :=
  min maxMana (m.currentMana + maxMana * ↑(now - m.lastUpdateTime) / regenTime)

variable {m r : Manabar} {maxMana : Int} {regenTime now : Nat}

theorem regrowth_nonneg (hmax : 0 ≤ maxMana) (regenTime dt : Nat) : 0 ≤ maxMana * (dt : Int) / regenTime :=
  Int.ediv_nonneg (Int.mul_nonneg hmax (Int.natCast_nonneg _)) (Int.natCast_nonneg _)

theorem useMana_currentMana (m : Manabar) (used : Int) :
    (m.useMana used).currentMana = max 0 (min int64Max (m.currentMana - used)) := by
  have hmin : int64Min ≤ 0 := by decide
  simp only [useMana, signedSatSub]
  split_ifs <;> omega

theorem capped_eq {mana regen : Int} (hfits : maxMana ≤ int64Max) (hlow : int64Min ≤ mana)
    (hregen : 0 ≤ regen) :
    (if signedSatAdd mana regen > maxMana then maxMana else signedSatAdd mana regen) =
      min maxMana (mana + regen) := by
  unfold signedSatAdd
  split <;> omega

/-- **What regeneration does**, with the time capped from a mana that is not negative, and without
the cap from any mana. -/
theorem regenerate_eq (hregen : 0 < regenTime) (hfits : maxMana ≤ int64Max)
    (hlow : int64Min ≤ m.currentMana) (hcap : skipCapRegen = false → 0 ≤ m.currentMana)
    (h : m.regenerateMana ⟨maxMana, regenTime⟩ now skipCapRegen = .ok r) :
    0 ≤ maxMana ∧ m.lastUpdateTime ≤ now ∧ r = ⟨m.regrown maxMana regenTime now, now⟩ := by
  simp only [regenerateMana, eq_ok] at h
  obtain ⟨hmax, htime, h⟩ := h
  refine ⟨hmax, htime, ?_⟩
  unfold regrown
  split at h
  case isTrue hfull =>
    have hwhole := regrowth_nonneg hmax regenTime (now - m.lastUpdateTime)
    rw [min_eq_left (by omega)]
    exact (pure_eq_ok.mp h).symm
  case isFalse =>
    simp only [eq_ok] at h
    rw [← h.2.2, capped_eq hfits hlow (regrowth_nonneg hmax _ _)]
    split
    case isTrue => rfl
    case isFalse hskip =>
      have hmana := hcap (Bool.eq_false_of_not_eq_true hskip)
      split
      case isTrue hlong =>
        -- from one full round on, the cap on the time gives the maximum, and so does all the time
        have hpos : (0 : Int) < regenTime := Int.natCast_pos.mpr hregen
        have hmore := Int.le_ediv_of_mul_le hpos
          (Int.mul_le_mul_of_nonneg_left (Int.ofNat_le.mpr hlong.le) hmax)
        rw [Int.mul_ediv_cancel _ hpos.ne', min_eq_left (by omega), min_eq_left (by omega)]
      case isFalse => rfl

theorem regenerateMana_isOk (hregen : 0 < regenTime) (hmax : 0 ≤ maxMana) (hfits : maxMana ≤ int64Max)
    (htime : m.lastUpdateTime ≤ now) : ∃ r, m.regenerateMana ⟨maxMana, regenTime⟩ now = .ok r := by
  simp only [regenerateMana, eq_ok, exists_and_left]
  refine ⟨hmax, htime, ?_⟩
  split
  case isTrue => exact ⟨_, rfl⟩
  case isFalse =>
    simp only [Bool.false_eq_true, if_false, eq_ok, exists_and_left]
    generalize hdt : (if now - m.lastUpdateTime > regenTime then _ else _) = dt
    have hle : dt ≤ regenTime := by
      rw [← hdt]
      split <;> omega
    have hfit := (Int.ediv_le_of_le_mul (Int.natCast_pos.mpr hregen)
      (Int.mul_le_mul_of_nonneg_left (Int.ofNat_le.mpr hle) hmax)).trans hfits
    exact ⟨hfit.trans_lt (by decide), hfit, _, rfl⟩

theorem regrown_nonneg (hmax : 0 ≤ maxMana) (hmana : 0 ≤ m.currentMana) (regenTime now : Nat) :
    0 ≤ m.regrown maxMana regenTime now :=
  le_min hmax (add_nonneg hmana (regrowth_nonneg hmax regenTime _))

theorem regrown_now (htime : m.lastUpdateTime = now) :
    m.regrown maxMana regenTime now = min maxMana m.currentMana := by
  simp [regrown, htime]

/-- Rounding down twice loses at most one unit more than rounding down once. -/
theorem ediv_add_bounds (x y : Int) {d : Int} (hd : 0 < d) :
    x / d + y / d ≤ (x + y) / d ∧ (x + y) / d ≤ x / d + y / d + 1 := by
  have hx := Int.ediv_mul_le x hd.ne'
  have hy := Int.ediv_mul_le y hd.ne'
  have hx' := Int.lt_ediv_add_one_mul_self x hd
  have hy' := Int.lt_ediv_add_one_mul_self y hd
  refine ⟨Int.le_ediv_of_mul_le hd (by linarith), Int.lt_add_one_iff.mp ?_⟩
  exact Int.ediv_lt_of_lt_mul hd (by linarith)

/-- One step and then the rest of the time, against all the time at once. -/
theorem regrown_step {first : Nat} (hmax : 0 ≤ maxMana) (hregen : 0 < regenTime)
    (hle : m.currentMana ≤ maxMana) (hfirst : m.lastUpdateTime ≤ first) (hnow : first ≤ now) :
    (⟨m.regrown maxMana regenTime first, first⟩ : Manabar).regrown maxMana regenTime now ≤
        m.regrown maxMana regenTime now ∧
      m.regrown maxMana regenTime now ≤
        (⟨m.regrown maxMana regenTime first, first⟩ : Manabar).regrown maxMana regenTime now + 1 ∧
      m.currentMana ≤ m.regrown maxMana regenTime first := by
  have hsplit : maxMana * ((now - m.lastUpdateTime : Nat) : Int) =
      maxMana * ((first - m.lastUpdateTime : Nat) : Int) + maxMana * ((now - first : Nat) : Int) := by
    rw [← Int.mul_add]
    congr 1
    omega
  have hbounds := ediv_add_bounds (maxMana * ((first - m.lastUpdateTime : Nat) : Int))
    (maxMana * ((now - first : Nat) : Int)) (Int.natCast_pos.mpr hregen)
  have hpart := regrowth_nonneg hmax regenTime (first - m.lastUpdateTime)
  have hrest := regrowth_nonneg hmax regenTime (now - first)
  unfold regrown
  rw [hsplit]
  dsimp only
  omega

/-- **Step by step, and at once.** -/
theorem regeneration_by_steps {once : Manabar} {times : List Nat}
    (hregen : 0 < regenTime) (hfits : maxMana ≤ int64Max) (hlow : int64Min ≤ m.currentMana)
    (hle : m.currentMana ≤ maxMana) (hcap : skipCapRegen = false → 0 ≤ m.currentMana)
    (hsteps : times.foldlM (fun m now => m.regenerateMana ⟨maxMana, regenTime⟩ now skipCapRegen) m =
      .ok r)
    (honce : m.regenerateMana ⟨maxMana, regenTime⟩ r.lastUpdateTime skipCapRegen = .ok once) :
    r.currentMana ≤ once.currentMana ∧ once.currentMana ≤ r.currentMana + times.length ∧
      m.currentMana ≤ r.currentMana ∧ r.currentMana ≤ maxMana ∧
      (0 ≤ m.currentMana → m.lastUpdateTime + regenTime ≤ r.lastUpdateTime →
        once.currentMana = maxMana) := by
  obtain ⟨hmax, htime, rfl⟩ := regenerate_eq _ hregen hfits hlow hcap honce
  -- the induction is on the steps; the rest of them is compared with one step from the second time
  have hrun : r.currentMana ≤ m.regrown maxMana regenTime r.lastUpdateTime ∧
      m.regrown maxMana regenTime r.lastUpdateTime ≤ r.currentMana + times.length ∧
      m.currentMana ≤ r.currentMana ∧ r.currentMana ≤ maxMana ∧ m.lastUpdateTime ≤ r.lastUpdateTime := by
    clear honce htime
    induction times generalizing m with
    | nil =>
      cases hsteps
      simp [regrown, hle]
    | cons first rest ih =>
      rw [List.foldlM_cons, bind_eq_ok] at hsteps
      obtain ⟨m₁, hfirst, hrest⟩ := hsteps
      obtain ⟨-, hle₁, rfl⟩ := regenerate_eq _ hregen hfits hlow hcap hfirst
      have hgrown : m.currentMana ≤ m.regrown maxMana regenTime first :=
        (regrown_step hmax hregen hle hle₁ le_rfl).2.2
      obtain ⟨hless, hmore, hup, hcapped, hlast⟩ := ih (hlow.trans hgrown) (min_le_left _ _)
        (fun hskip => (hcap hskip).trans hgrown) hrest
      have hstep := regrown_step hmax hregen hle hle₁ hlast
      rw [List.length_cons]
      exact ⟨by omega, by omega, hgrown.trans hup, hcapped, hle₁.trans hlast⟩
  refine ⟨hrun.1, hrun.2.1, hrun.2.2.1, hrun.2.2.2.1, fun hmana hround => ?_⟩
  have hpos : (0 : Int) < regenTime := Int.natCast_pos.mpr hregen
  have hfull : maxMana ≤ maxMana * ((r.lastUpdateTime - m.lastUpdateTime : Nat) : Int) / regenTime :=
    Int.le_ediv_of_mul_le hpos (Int.mul_le_mul_of_nonneg_left (by omega) hmax)
  exact min_eq_left (by omega)

/-- Two steps of three seconds, in which a rounding loses one unit. -/
theorem regeneration_by_two_steps :
    ([3, 6].foldlM (fun m now => m.regenerateMana ⟨10, 20⟩ now) ⟨0, 0⟩ : Checked Manabar) =
        .ok ⟨2, 6⟩ ∧ (⟨0, 0⟩ : Manabar).regenerateMana ⟨10, 20⟩ 6 = .ok ⟨3, 6⟩ ∧
      (2 : Int) ≤ 3 ∧ (3 : Int) ≤ 2 + 2 := by
  have hsteps : ([3, 6].foldlM (fun m now => m.regenerateMana ⟨10, 20⟩ now) ⟨0, 0⟩ :
    Checked Manabar) = .ok ⟨2, 6⟩ := by decide
  have honce : (⟨0, 0⟩ : Manabar).regenerateMana ⟨10, 20⟩ 6 = .ok ⟨3, 6⟩ := by decide
  have h := regeneration_by_steps false (by decide) (by decide) (by decide) (by decide) (by decide)
    hsteps honce
  exact ⟨hsteps, honce, h.1, h.2.1⟩

end DeltaChain.Ledger.Manabar

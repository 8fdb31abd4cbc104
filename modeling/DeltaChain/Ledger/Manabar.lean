import DeltaChain.Lib.Checked
import DeltaChain.Protocol.Config

/-!
# Manabars

`manabar.hpp`: a quantity that is used up and grows back to its maximum over a fixed
time. Sums saturate at the ends of the signed 64 bit range.
-/

namespace DeltaChain.Ledger

open Lib Checked

/-- Both ends of the signed 64 bit range. -/
def int64Max : Int := 2 ^ 63 - 1

def int64Min : Int := -2 ^ 63

def signedSatAdd (x y : Int) : Int := max int64Min (min int64Max (x + y))

def signedSatSub (x y : Int) : Int := max int64Min (min int64Max (x - y))

theorem signedSatAdd_nonneg {x y : Int} (hx : 0 ≤ x) (hy : 0 ≤ y) : 0 ≤ signedSatAdd x y := by
  have hmax : 0 ≤ int64Max := by decide
  unfold signedSatAdd
  omega

structure ManabarParams where
  maxMana : Int
  regenTime : Nat

structure Manabar where
  currentMana : Int := 0
  lastUpdateTime : Nat := 0
deriving DecidableEq, Repr

namespace Manabar

/-- `regenerate_mana`. The regeneration is capped at one full round, or not. -/
def regenerateMana (m : Manabar) (params : ManabarParams) (now : Nat) (skipCapRegen : Bool := false) :
    Checked Manabar := do
  assert (params.maxMana ≥ 0) "max_mana >= 0"
  assert (now ≥ m.lastUpdateTime) "now >= last_update_time"
  let dt := now - m.lastUpdateTime
  if m.currentMana ≥ params.maxMana then
    return { currentMana := params.maxMana, lastUpdateTime := now }
  else do
    let dt := if skipCapRegen then dt else if dt > params.regenTime then params.regenTime else dt
    let regen : Int := params.maxMana * dt / params.regenTime
    assert (regen < 2 ^ 64) "hi == 0"
    assert (regen ≤ int64Max) "u_regen <= std::numeric_limits< int64_t >::max()"
    let newCurrentMana := signedSatAdd m.currentMana regen
    let capped := if newCurrentMana > params.maxMana then params.maxMana else newCurrentMana
    return { currentMana := capped, lastUpdateTime := now }

def useMana (m : Manabar) (manaUsed : Int) (minMana : Int := 0) : Manabar :=
  let mana := signedSatSub m.currentMana manaUsed
  { m with currentMana := if mana < minMana then minMana else mana }

theorem useMana_nonneg (m : Manabar) (manaUsed : Int) : 0 ≤ (m.useMana manaUsed).currentMana := by
  simp only [useMana]
  split <;> omega

/-- Mana that is not negative stays so while it grows. -/
theorem regenerateMana_nonneg {m m' : Manabar} {params : ManabarParams} {now : Nat}
    (hm : 0 ≤ m.currentMana) (h : m.regenerateMana params now = .ok m') : 0 ≤ m'.currentMana := by
  simp only [regenerateMana, eq_ok] at h
  obtain ⟨hmax, -, h⟩ := h
  split at h
  · cases h
    exact hmax
  · simp only [eq_ok] at h
    obtain ⟨-, -, rfl⟩ := h
    have hsum : ∀ dt : Nat, 0 ≤ signedSatAdd m.currentMana (params.maxMana * dt / params.regenTime) :=
      fun dt => signedSatAdd_nonneg hm
        (Int.ediv_nonneg (Int.mul_nonneg hmax (Int.natCast_nonneg dt)) (Int.natCast_nonneg _))
    dsimp only
    generalize (if false = true then now - m.lastUpdateTime else _) = dt
    split
    · exact hmax
    · exact hsum dt

end Manabar

end DeltaChain.Ledger

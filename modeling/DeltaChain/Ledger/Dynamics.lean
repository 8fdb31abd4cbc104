import DeltaChain.Lib.Checked
import DeltaChain.Protocol.Asset

/-!
# Resource dynamics

`rd.cpp`: a pool that grows by a budget and decays by a fraction of its size. For every valid
choice of the two the pool has a smallest size at which they are in balance, and the assertions
of `rd_setup_dynamics_params` on it hold (`rdSetupDynamicsParams_succeeds`).
-/

namespace DeltaChain.Ledger

open Lib Protocol Checked

structure RdUserParams where
  budgetPerTimeUnit : Int
  decayPerTimeUnit : Nat
deriving DecidableEq, Repr

/-- `rd_dynamics_params`, with the fields of its `rd_decay_params`. -/
structure RdDynamicsParams where
  resourceUnit : Nat
  budgetPerTimeUnit : Int
  poolEq : Nat
  maxPoolSize : Nat
  decayPerTimeUnit : Nat
  decayPerTimeUnitDenomShift : Nat
  minDecay : Int := 0
deriving DecidableEq, Repr

variable (params : RdUserParams)

def rdValidateUserParams : Checked Unit := do
  assert (params.budgetPerTimeUnit ≥ rdMinBudget)
    "user_params.budget_per_time_unit >= DELTA_RD_MIN_BUDGET"
  assert (params.budgetPerTimeUnit ≤ rdMaxBudget)
    "user_params.budget_per_time_unit <= DELTA_RD_MAX_BUDGET"
  assert (params.decayPerTimeUnit ≥ rdMinDecay)
    "user_params.decay_per_time_unit >= DELTA_RD_MIN_DECAY"
  assert (params.decayPerTimeUnit ≤ rdMaxDecay)
    "user_params.decay_per_time_unit <= DELTA_RD_MAX_DECAY"

/-- The decay of a pool that is not negative. -/
def poolDecay (decayPerTimeUnit shift dt pool : Nat) : Nat :=
  min (decayPerTimeUnit * dt * pool / 2 ^ shift) pool

def rdComputePoolDecay (decayPerTimeUnit shift : Nat) (pool : Int) (dt : Nat) : Int :=
  if pool < 0 then -poolDecay decayPerTimeUnit shift dt pool.natAbs
  else poolDecay decayPerTimeUnit shift dt pool.natAbs

/-- The smallest pool at which budget and decay are in balance. -/
def balancedPool : Nat :=
  (params.budgetPerTimeUnit.toNat * 2 ^ rdDecayDenomShift + (params.decayPerTimeUnit - 1)) /
    params.decayPerTimeUnit

/-- What `rd_setup_dynamics_params` stores. -/
def RdUserParams.dynamics : RdDynamicsParams where
  resourceUnit := accountSubsidyPrecision
  budgetPerTimeUnit := params.budgetPerTimeUnit
  poolEq := balancedPool params
  maxPoolSize := balancedPool params
  decayPerTimeUnit := params.decayPerTimeUnit
  decayPerTimeUnitDenomShift := rdDecayDenomShift

/-- The pool decays by at least its budget. It comes without a sign and is read with one. -/
def RdDynamicsParams.checkPoolEq (rd : RdDynamicsParams) (pool : Nat) : Prop :=
  rd.budgetPerTimeUnit ≤
    rdComputePoolDecay rd.decayPerTimeUnit rd.decayPerTimeUnitDenomShift (toInt64 pool) 1

instance (rd : RdDynamicsParams) (pool : Nat) : Decidable (rd.checkPoolEq pool) :=
  inferInstanceAs (Decidable (_ ≤ _))

/-- `rd_setup_dynamics_params`, for the system parameters that all its callers use. -/
def rdSetupDynamicsParams : Checked RdDynamicsParams := do
  assert (params.decayPerTimeUnit ≠ 0) "divide by zero"
  let rd := params.dynamics
  assert (rd.poolEq < 2 ^ 64) "hi == 0"
  assert (rd.checkPoolEq rd.poolEq) "check_pool_eq( dparams_out, dparams_out.pool_eq )"
  assert (¬ rd.checkPoolEq ((rd.poolEq + (2 ^ 64 - 1)) % 2 ^ 64))
    "!check_pool_eq( dparams_out, dparams_out.pool_eq-1 )"
  return rd

theorem le_poolDecay_iff {budget decay pool : Nat} (hdecay : decay ≤ 2 ^ rdDecayDenomShift) :
    budget ≤ poolDecay decay rdDecayDenomShift 1 pool ↔
      budget * 2 ^ rdDecayDenomShift ≤ decay * pool := by
  unfold poolDecay
  rw [mul_one, le_min_iff, Nat.le_div_iff_mul_le (by positivity)]
  constructor
  · exact fun h => h.1
  · intro h
    refine ⟨h, ?_⟩
    -- the decay is at most the whole pool
    have hpool : decay * pool ≤ pool * 2 ^ rdDecayDenomShift := by
      rw [mul_comm pool]
      exact Nat.mul_le_mul_right pool hdecay
    exact Nat.le_of_mul_le_mul_right (h.trans hpool) (by positivity)

theorem checkPoolEq_iff {budget decay pool : Nat} (hdecay : decay ≤ 2 ^ rdDecayDenomShift)
    (hpool : pool < 2 ^ 63) : (RdUserParams.mk budget decay).dynamics.checkPoolEq pool ↔
      budget * 2 ^ rdDecayDenomShift ≤ decay * pool := by
  rw [← le_poolDecay_iff hdecay]
  unfold RdDynamicsParams.checkPoolEq rdComputePoolDecay
  rw [toInt64_of_lt hpool]
  exact Int.ofNat_le

/-- The pool below, in 64 bits without a sign and read with one. -/
theorem toInt64_pred {pool : Nat} (h : pool < 2 ^ 63) :
    toInt64 ((pool + (2 ^ 64 - 1)) % 2 ^ 64) = pool - 1 := by
  unfold toInt64
  split <;> omega

/-- The balance of a pool with parameters in range is far below the sign bit. -/
theorem balancedPool_lt {budget decay : Nat} (hbudget : budget < 2 ^ 31) (hdecay : rdMinDecay ≤ decay) :
    balancedPool ⟨budget, decay⟩ < 2 ^ 63 := by
  have hpos : 0 < decay := lt_of_lt_of_le (by decide) hdecay
  refine Nat.div_lt_of_lt_mul ?_
  have hmany : 2 ^ 6 * 2 ^ 63 ≤ decay * 2 ^ 63 := Nat.mul_le_mul_right _ hdecay
  have hmost : budget * 2 ^ rdDecayDenomShift ≤ 2 ^ 31 * 2 ^ rdDecayDenomShift :=
    Nat.mul_le_mul_right _ hbudget.le
  norm_num [rdDecayDenomShift] at hmost hmany ⊢
  omega

/-- **The balance is where the assertions look for it.** -/
theorem rdSetupDynamicsParams_succeeds {budget decay : Nat} (hbudget : 1 ≤ budget)
    (hbudget' : budget < 2 ^ 31) (hdecay : rdMinDecay ≤ decay) (hdecay' : decay ≤ rdMaxDecay) :
    rdSetupDynamicsParams ⟨budget, decay⟩ = .ok (RdUserParams.mk budget decay).dynamics := by
  have hpos : 0 < decay := lt_of_lt_of_le (by decide) hdecay
  have hshift : decay ≤ 2 ^ rdDecayDenomShift := hdecay'.trans (by decide)
  obtain ⟨pool, hpool⟩ : ∃ pool, (RdUserParams.mk budget decay).dynamics.poolEq = pool := ⟨_, rfl⟩
  have hdiv : pool = (budget * 2 ^ rdDecayDenomShift + (decay - 1)) / decay := hpool.symm
  -- the pool is what is needed, divided by the decay and rounded up
  have hhigh : budget * 2 ^ rdDecayDenomShift ≤ decay * pool := by
    have hlt := Nat.lt_mul_div_succ (budget * 2 ^ rdDecayDenomShift + (decay - 1)) hpos
    rw [← hdiv, mul_add, mul_one] at hlt
    omega
  have hlow : decay * pool ≤ budget * 2 ^ rdDecayDenomShift + (decay - 1) := by
    rw [hdiv]
    exact Nat.mul_div_le _ _
  have hneed : 0 < budget * 2 ^ rdDecayDenomShift := Nat.mul_pos hbudget (by decide)
  obtain ⟨below, rfl⟩ : ∃ below, pool = below + 1 := by
    refine Nat.exists_eq_succ_of_ne_zero fun hzero => ?_
    rw [hzero, mul_zero] at hhigh
    omega
  have hfits : below + 1 < 2 ^ 63 := hpool ▸ balancedPool_lt hbudget' hdecay
  have hbalanced := (checkPoolEq_iff hshift hfits).mpr hhigh
  have hless : ¬ (RdUserParams.mk budget decay).dynamics.checkPoolEq below := by
    rw [checkPoolEq_iff hshift (by omega)]
    rw [mul_add, mul_one] at hlow
    omega
  have hminus : (below + 1 + (2 ^ 64 - 1)) % 2 ^ 64 = below := by omega
  simp only [rdSetupDynamicsParams, hpool, eq_ok, hminus]
  exact ⟨hpos.ne', by omega, hbalanced, hless, trivial⟩

end DeltaChain.Ledger

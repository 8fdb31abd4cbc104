import DeltaChain.Ledger.Objects

/-!
# Pools in balance

Each block a pool of subsidies grows by its budget and decays by a part of its size. The parameters of the
pools are set up from medians, for all witnesses together and scaled for one of them. Both times the balance
is the least pool that decays by its budget (`subsidy_pools_balanced`), and since a pool never decays by
more than it grows, every pool below the balance climbs to it and stays there (`rdApply_climbs`).
-/

namespace DeltaChain.Ledger

open Lib Protocol Checked

def rdApply (rd : RdDynamicsParams) (pool : Int) : Int :=
  let decay := max (rdComputePoolDecay rd.decayPerTimeUnit rd.decayPerTimeUnitDenomShift pool 1) rd.minDecay
  max (min (pool + rd.budgetPerTimeUnit - decay) rd.maxPoolSize) 0

/-- The balance is the least pool that decays by at least the budget. -/
def RdDynamicsParams.Balanced (rd : RdDynamicsParams) : Prop :=
  IsLeast { pool : Int | rd.budgetPerTimeUnit ≤
    rdComputePoolDecay rd.decayPerTimeUnit rd.decayPerTimeUnitDenomShift pool 1 } rd.poolEq

-- # The balance

variable {decay shift dt : Nat} {budget : Int}

theorem poolDecay_mono : Monotone (poolDecay decay shift dt) := fun _ _ h =>
  min_le_min (Nat.div_le_div_right (Nat.mul_le_mul_left _ h)) h

theorem rdComputePoolDecay_mono : Monotone fun pool => rdComputePoolDecay decay shift pool dt := by
  intro p q hpq
  have hmono := @poolDecay_mono decay shift dt
  unfold rdComputePoolDecay
  dsimp only
  split <;> split
  · exact neg_le_neg (Int.ofNat_le.mpr (hmono (by omega)))
  · omega
  · omega
  · exact Int.ofNat_le.mpr (hmono (by omega))

/-- What the assertions check is that the balance is the least pool. -/
theorem rdSetupDynamicsParams_balanced {params : RdUserParams} {rd : RdDynamicsParams}
    (h : rdSetupDynamicsParams params = .ok rd) (hfits : balancedPool params < 2 ^ 63) :
    rd = params.dynamics ∧ rd.Balanced := by
  simp only [rdSetupDynamicsParams, eq_ok] at h
  obtain ⟨-, -, hbalanced, hless, rfl⟩ := h
  have hfits : params.dynamics.poolEq < 2 ^ 63 := hfits
  unfold RdDynamicsParams.checkPoolEq at hbalanced hless
  rw [toInt64_of_lt hfits] at hbalanced
  rw [toInt64_pred hfits] at hless
  refine ⟨rfl, hbalanced, fun pool hpool => ?_⟩
  by_contra hlt
  exact hless (hpool.trans (rdComputePoolDecay_mono (show pool ≤ _ by omega)))

/-- The parameters of one witness are in range if those of all witnesses are valid. -/
theorem perWitness_valid {decay : Nat} (hvalid : rdValidateUserParams ⟨budget, decay⟩ = .ok ()) :
    (∃ b : Nat, budget = b ∧ 1 ≤ b ∧ b < 2 ^ 31) ∧ rdMinDecay ≤ decay ∧ decay ≤ rdMaxDecay ∧
      ∃ b d : Nat, ChainProperties.perWitness budget decay = ⟨b, d⟩ ∧ 1 ≤ b ∧ b < 2 ^ 31 ∧
        rdMinDecay ≤ d ∧ d ≤ rdMaxDecay := by
  simp only [rdValidateUserParams, eq_ok] at hvalid
  obtain ⟨hlow, hhigh, hmin, hmax⟩ := hvalid
  unfold rdMinBudget at hlow
  unfold rdMaxBudget at hhigh
  obtain ⟨n, rfl⟩ := Int.eq_ofNat_of_zero_le (show 0 ≤ budget by omega)
  refine ⟨⟨n, rfl, by omega, by omega⟩, hmin, hmax, min (n * 12500 / 10000) (2 ^ 31 - 1),
    min (decay * 210000 / 10000) (2 ^ 32 - 1), ?_, by omega, by omega, ?_, min_le_right _ _⟩
  · push_cast
    rfl
  · unfold rdMinDecay at hmin ⊢
    omega

/-- With valid medians both pools have a size at which they are in balance. -/
theorem rdSetup_succeeds {decay : Nat}
    (hvalid : rdValidateUserParams ⟨budget, decay⟩ = .ok ()) : ∃ rd witnessRd,
      rdSetupDynamicsParams ⟨budget, decay⟩ = .ok rd ∧
      rdSetupDynamicsParams (ChainProperties.perWitness budget decay) = .ok witnessRd := by
  obtain ⟨⟨b, rfl, hb, hb'⟩, hmin, hmax, wb, wd, hwitness, hwb, hwb', hwmin, hwmax⟩ :=
    perWitness_valid hvalid
  rw [hwitness]
  exact ⟨_, _, rdSetupDynamicsParams_succeeds hb hb' hmin hmax,
    rdSetupDynamicsParams_succeeds hwb hwb' hwmin hwmax⟩

/-- **Both pools are balanced**, whatever valid medians they are set up from. -/
theorem subsidy_pools_balanced {budget : Int} {decay : Nat}
    (hvalid : rdValidateUserParams ⟨budget, decay⟩ = .ok ()) : ∃ rd witnessRd,
      rdSetupDynamicsParams ⟨budget, decay⟩ = .ok rd ∧
      rdSetupDynamicsParams (ChainProperties.perWitness budget decay) = .ok witnessRd ∧
      rd.Balanced ∧ witnessRd.Balanced := by
  obtain ⟨rd, witnessRd, hall, hone⟩ := rdSetup_succeeds hvalid
  obtain ⟨⟨b, rfl, -, hb⟩, hmin, -, wb, wd, hwitness, -, hwb, hwmin, -⟩ := perWitness_valid hvalid
  exact ⟨rd, witnessRd, hall, hone, (rdSetupDynamicsParams_balanced hall (balancedPool_lt hb hmin)).2,
    (rdSetupDynamicsParams_balanced hone (hwitness ▸ balancedPool_lt hwb hwmin)).2⟩

theorem subsidy_pools_balanced_least : ∃ rd witnessRd, rdSetupDynamicsParams ⟨1, 2 ^ 32 - 1⟩ = .ok rd ∧
    rdSetupDynamicsParams (ChainProperties.perWitness 1 (2 ^ 32 - 1)) = .ok witnessRd ∧
    rd.Balanced ∧ witnessRd.Balanced := subsidy_pools_balanced (by decide)

-- # The climb

/-- Every start up to `top` is led to `top`, upwards in every step, and stays there. -/
structure Climbs (f : Int → Int) (top : Int) : Prop where
  into : ∀ p, 0 ≤ p → p ≤ top → 0 ≤ f p ∧ f p ≤ top
  mono : ∀ p q, 0 ≤ p → p ≤ q → q ≤ top → f p ≤ f q
  grows : ∀ p, 0 ≤ p → p < top → p < f p
  fixed : ∀ p, 0 ≤ p → p ≤ top → (f p = p ↔ p = top)
  reaches : ∀ p, 0 ≤ p → p ≤ top → ∃ n, ∀ m, n ≤ m → f^[m] p = top

theorem iterate_eq_top {f : Int → Int} {top : Int} (hgrows : ∀ p, 0 ≤ p → p < top → p < f p ∧ f p ≤ top)
    (htop : f top = top) {p : Int} (hp : 0 ≤ p) (hle : p ≤ top) :
    ∀ m, (top - p).toNat ≤ m → f^[m] p = top := by
  intro m
  induction m generalizing p with
  | zero =>
    intro hm
    show p = top
    omega
  | succ m ih =>
    intro hm
    rw [Function.iterate_succ_apply]
    rcases hle.eq_or_lt with rfl | hlt
    · rw [htop, Function.iterate_fixed htop]
    · have hstep := hgrows p hp hlt
      exact ih (by omega) hstep.2 (by omega)

/-- A pool that grows by a budget, up to its size in balance, and decays by no more than it grows. -/
theorem climbs_of_balance {f decay : Int → Int} {budget top : Int} (hbudget : 0 < budget) (hnonneg : 0 ≤ top)
    (hf : ∀ p, f p = max (min (p + budget - max (decay p) 0) top) 0) (hzero : decay 0 = 0)
    (hadd : ∀ {p q}, 0 ≤ p → p ≤ q → decay q ≤ decay p + (q - p)) (henough : budget ≤ decay top)
    (hless : ∀ p, p < top → decay p < budget) : Climbs f top := by
  have hpos : 0 < top := by
    rcases hnonneg.eq_or_lt with rfl | hlt
    · omega
    · exact hlt
  -- just below the balance the pool decays by less than the budget, so at the balance by the budget
  have hbelow := hless (top - 1) (by omega)
  have hstep := hadd (show 0 ≤ top - 1 by omega) (show top - 1 ≤ top by omega)
  have hfixed : f top = top := by
    rw [hf]
    omega
  have hgrows : ∀ p, 0 ≤ p → p < top → p < f p ∧ f p ≤ top := fun p hp hlt => by
    have hdecay := hless p hlt
    rw [hf]
    omega
  refine ⟨fun p hp hle => ?_, fun p q hp hpq hq => ?_, fun p hp hlt => (hgrows p hp hlt).1,
    fun p hp hle => ⟨fun heq => ?_, fun heq => heq ▸ hfixed⟩,
    fun p hp hle => ⟨_, iterate_eq_top hgrows hfixed hp hle⟩⟩
  · rw [hf]
    omega
  · have hmore := hadd hp hpq
    rw [hf, hf]
    omega
  · by_contra hne
    have := (hgrows p hp (by omega)).1
    omega

/-- A larger pool decays by no more than it is larger. -/
theorem rdComputePoolDecay_le_add {decay : Nat} (hdecay : decay ≤ 2 ^ rdDecayDenomShift) {p q : Int}
    (hp : 0 ≤ p) (hpq : p ≤ q) : rdComputePoolDecay decay rdDecayDenomShift q 1 ≤
      rdComputePoolDecay decay rdDecayDenomShift p 1 + (q - p) := by
  obtain ⟨m, rfl⟩ := Int.eq_ofNat_of_zero_le hp
  obtain ⟨k, rfl⟩ := Int.le.dest hpq
  have hdiv : decay * 1 * (m + k) / 2 ^ rdDecayDenomShift ≤ decay * 1 * m / 2 ^ rdDecayDenomShift + k := by
    rw [← Nat.add_mul_div_left _ _ (Nat.two_pow_pos _), Nat.mul_add, mul_one]
    exact Nat.div_le_div_right (Nat.add_le_add_left (Nat.mul_le_mul_right k hdecay) _)
  have hsum : ((m : Int) + k).natAbs = m + k := by omega
  unfold rdComputePoolDecay poolDecay
  rw [if_neg (by omega), if_neg (by omega), hsum, Int.natAbs_natCast]
  omega

/-- **A pool below the balance climbs to it**, and stays there. -/
theorem rdApply_climbs {params : RdUserParams} {rd : RdDynamicsParams}
    (hvalid : rdValidateUserParams params = .ok ()) (h : rdSetupDynamicsParams params = .ok rd) :
    Climbs (rdApply rd) rd.poolEq := by
  obtain ⟨budget, decay⟩ := params
  obtain ⟨⟨b, rfl, hpos, hb⟩, hmin, hmax, -⟩ := perWitness_valid hvalid
  obtain ⟨rfl, hbalanced, hleast⟩ := rdSetupDynamicsParams_balanced h (balancedPool_lt hb hmin)
  have hbudget : 0 < (RdUserParams.mk b decay).dynamics.budgetPerTimeUnit := by
    show (0 : Int) < b
    omega
  refine climbs_of_balance hbudget (Int.natCast_nonneg _) (fun _ => rfl) ?_
    (rdComputePoolDecay_le_add (hmax.trans (by decide))) hbalanced fun p hp => ?_
  · simp [rdComputePoolDecay, poolDecay]
  · exact lt_of_not_ge fun hle => absurd (hleast hle) (not_le.mpr hp)

theorem rdApply_climbs_default : ∃ rd, rdSetupDynamicsParams
    ⟨defaultAccountSubsidyBudget, defaultAccountSubsidyDecay⟩ = .ok rd ∧ Climbs (rdApply rd) rd.poolEq := by
  obtain ⟨rd, hrd⟩ : ∃ rd, rdSetupDynamicsParams
      ⟨defaultAccountSubsidyBudget, defaultAccountSubsidyDecay⟩ = .ok rd := by decide
  exact ⟨rd, hrd, rdApply_climbs (by decide) hrd⟩

end DeltaChain.Ledger

import DeltaChain.Rewards.Cashout
import DeltaChain.Vesting.Books

/-!
# The books of the reward path

What paying comments does to the books of `validate_invariants`. Every payment takes what is
paid off the DELTA line, and what is taken from the reward funds in the end puts it back, if
only `vest` pays exactly what it is given (`Pays`).

`create_vesting2` does so unless the shares round to nothing. Then the account is credited with
DELTA and the global properties with pending DELTA for shares, and the payment counts twice.
`carefulVesting` refuses such a call; every function does what it does with `rewardVesting`, or
fails.
-/

namespace DeltaChain.Ledger.Database

open Lib Protocol Checked Table

variable {db db' : Database} {name : AccountName} {vest vest' : Vest} {toReward : Bool}

-- # Making shares

/-- `liquid` is something, and worth less than one share at the price of rewards. -/
def RoundsToNothing (g : GlobalProperties) (liquid : Asset) : Prop :=
  liquid.amount ≠ 0 ∧
    liquid.amount * (g.totalVestingShares + g.pendingRewardedVestingShares) % 2 ^ 128 <
      g.totalVestingFundDelta + g.pendingRewardedVestingDelta

instance (g : GlobalProperties) (liquid : Asset) : Decidable (RoundsToNothing g liquid) :=
  inferInstanceAs (Decidable (_ ∧ _))

/-- `create_vesting2` to the reward balance, only for what does not round to nothing. -/
def carefulVesting : Vest := fun db name liquid => do
  assert (¬ RoundsToNothing db.props liquid) "rounds to nothing"
  db.rewardVesting name liquid

/-- All that is given is paid. -/
def Pays (vest : Vest) : Prop :=
  ∀ db name liquid db', vest db name liquid = .ok db' →
    db'.imbalance = db.imbalance - Asset.entry liquid

theorem toInt64_eq_zero {n : Nat} (hn : n < 2 ^ 64) (h : toInt64 n = 0) : n = 0 := by
  unfold toInt64 at h
  split at h
  · exact_mod_cast h
  · omega

theorem mulDiv_eq_zero {amount num den : Int} {msg : String}
    (h : mulDiv amount num den msg = .ok 0) : amount * num % 2 ^ 128 < den := by
  simp only [mulDiv, eq_ok] at h
  obtain ⟨hd, hlt, hzero⟩ := h
  have hnat := toInt64_eq_zero (by omega) hzero
  by_contra hge
  have hone : 1 ≤ amount * num % 2 ^ 128 / den := (Int.le_ediv_iff_mul_le hd).mpr (by omega)
  omega

theorem carefulVesting_pays : Pays carefulVesting := by
  intro db name liquid db' h
  simp only [carefulVesting, rewardVesting, createVesting, createVesting2, eq_ok] at h
  obtain ⟨hround, ⟨db₁, shares⟩, ⟨hsym, sharePrice, hprice, newVesting, hmul, db₂, hstore, heq⟩,
    rfl⟩ := h
  obtain ⟨rfl, rfl⟩ := Prod.mk.inj heq
  obtain ⟨rfl, -⟩ := Price.make_eq_ok.mp hprice
  have hnz : newVesting.amount = 0 → liquid.amount = 0 := by
    intro hzero
    by_contra hne
    refine hround ⟨hne, ?_⟩
    rw [AssetOf.mul, if_neg (by simp [hsym]), if_pos hsym] at hmul
    simp only [eq_ok] at hmul
    obtain ⟨amount, hdiv, rfl⟩ := hmul
    obtain rfl : amount = 0 := hzero
    exact mulDiv_eq_zero hdiv
  have hb := (addRewardVesting_books hsym hnz hstore).imbalance
  rw [hb, sub_eq_add_neg]

-- # Payments

/-- DELTA on their line. -/
abbrev deltas (x : Int) : Line → Int := Pi.single .delta x

theorem entry_eq_deltas (x : Int) : Asset.entry ⟨x, .delta⟩ = deltas x := rfl

theorem deltas_zero : deltas 0 = 0 := Pi.single_zero _

theorem deltas_add (x y : Int) : deltas (x + y) = deltas x + deltas y := Pi.single_add ..

theorem deltas_sub (x y : Int) : deltas (x - y) = deltas x - deltas y := Pi.single_sub ..

theorem payDbd_imbalance {dbd delta : Asset} (h : db.payDbd name dbd delta toReward = .ok db') :
    db'.imbalance = db.imbalance - Asset.entry dbd - Asset.entry delta := by
  unfold payDbd at h
  split at h
  · rw [bind_eq_ok] at h
    obtain ⟨db₁, h₁, h₂⟩ := h
    rw [adjustRewardBalance_imbalance h₂, adjustRewardBalance_imbalance h₁]
    simp [rewardEntry]
  · rw [bind_eq_ok] at h
    obtain ⟨db₁, h₁, h₂⟩ := h
    rw [adjustBalance_imbalance h₂, adjustBalance_imbalance h₁]

theorem createDbd_imbalance {amount : Int} {paid : Asset × Asset}
    (h : db.createDbd name ⟨amount, .delta⟩ toReward = .ok (db', paid)) :
    db'.imbalance = db.imbalance - deltas amount := by
  unfold createDbd at h
  split at h
  · next hzero =>
    obtain ⟨rfl, -⟩ := h
    obtain rfl : amount = 0 := hzero
    rw [deltas_zero, sub_zero]
  · split at h
    · simp only [eq_ok, Prod.mk.injEq] at h
      obtain ⟨db₁, hadj, rfl, -⟩ := h
      exact adjustBalance_imbalance hadj
    · simp only [eq_ok, Prod.mk.injEq] at h
      obtain ⟨dbd, -, db₁, hpay, db₂, hsupply, db₃, hsupply', rfl, -⟩ := h
      rw [adjustSupply_imbalance hsupply', adjustSupply_imbalance hsupply, payDbd_imbalance hpay]
      -- what is not paid in DELTA is taken from their supply
      have hsum : ∀ x y : Int, Asset.entry ⟨x - y, .delta⟩ = deltas x + Asset.entry ⟨-y, .delta⟩ := by
        intro x y
        exact deltas_add x (-y)
      rw [hsum]
      abel

section Vest

variable (hv : Pays vest) {funds funds' : Table Nat RewardFundContext} {id : Nat} {claimed : Int}
  {c : Comment}
include hv

theorem payTokens_imbalance {tokens : Int} {percent : Nat} {paid : Asset × Asset}
    (h : payTokens vest db name tokens percent = .ok (db', paid)) :
    db'.imbalance = db.imbalance - deltas tokens := by
  simp only [payTokens, eq_ok, Prod.mk.injEq] at h
  obtain ⟨-, -, ⟨db₁, paid'⟩, hdbd, db₂, hvest, rfl, -⟩ := h
  rw [hv _ _ _ _ hvest, createDbd_imbalance hdbd, entry_eq_deltas, deltas_sub]
  abel

theorem payCurator_imbalance {maxRewards : Int} {totalWeight : Nat} {s s' : Database × Int}
    {vote : CommentVote} (hs : s.1.imbalance = db.imbalance - deltas (maxRewards - s.2))
    (h : payCurator vest maxRewards totalWeight s vote = .ok s') :
    s'.1.imbalance = db.imbalance - deltas (maxRewards - s'.2) := by
  simp only [payCurator, eq_ok] at h
  obtain ⟨-, h⟩ := h
  split at h
  · generalize toInt64 (u128 (maxRewards * vote.weight) / totalWeight) = claim at h
    simp only [eq_ok] at h
    obtain ⟨-, -, db₁, hvest, rfl⟩ := h
    have hstat : (db₁.modifyAccount vote.voter fun a =>
        { a with curationRewards := a.curationRewards + claim }).imbalance = db₁.imbalance :=
      imbalance_modifyAccount_of_eq fun _ => rfl
    refine hstat.trans ?_
    have hleft : maxRewards - (s.2 - claim) = maxRewards - s.2 + claim := by ring
    rw [hv _ _ _ _ hvest, hs, entry_eq_deltas, hleft, deltas_add (maxRewards - s.2)]
    abel
  · cases h
    exact hs

theorem payCurators_imbalance {maxRewards claimed : Int}
    (h : payCurators vest db id c maxRewards = .ok (db', claimed)) :
    db'.imbalance = db.imbalance - deltas claimed := by
  simp only [payCurators, eq_ok, Prod.mk.injEq] at h
  obtain ⟨⟨_, _, left⟩, h, rfl, rfl⟩ := h
  unfold payCuratorsRemainder at h
  split at h
  · split at h
    · simp only [eq_ok, Prod.mk.injEq] at h
      obtain ⟨⟨db₁, unclaimed⟩, hloop, rfl, rfl, -⟩ := h
      refine foldlM_induct
        (fun s : Database × Int => s.1.imbalance = db.imbalance - deltas (maxRewards - s.2))
        (fun _ _ _ _ hs hround => payCurator_imbalance hv hs hround) ?_ hloop
      rw [sub_self, deltas_zero, sub_zero]
    · cases h
      rw [sub_self, deltas_zero, sub_zero]
  · cases h
    rw [deltas_zero, sub_zero]

/-- The curators, the beneficiaries and the author are paid what was claimed. -/
theorem payReward_imbalance {percent reward : Nat}
    (h : payReward vest db id c percent reward = .ok (db', claimed)) :
    db'.imbalance = db.imbalance - deltas claimed := by
  unfold payReward at h
  generalize u128 (reward * percent : Nat) / percent100 = share at h
  generalize toInt64 share = curationTokens at h
  simp only [eq_ok, Prod.mk.injEq] at h
  obtain ⟨-, ⟨db₁, curation⟩, hcurators, ⟨db₂, beneficiaries⟩, hloop, ⟨db₃, paid⟩, hauthor,
    value, -, created, -, curatorValue, -, beneficiaryValue, -, db₄, hpayout, -, -, rfl, rfl⟩ := h
  have h₁ := payCurators_imbalance hv hcurators
  have h₂ := by
    refine foldlM_induct (fun s : Database × Int => s.1.imbalance = db₁.imbalance - deltas s.2)
      (fun _ _ _ _ hs hround => ?_) (by rw [deltas_zero, sub_zero]) hloop
    simp only [payBeneficiary, eq_ok] at hround
    obtain ⟨⟨db', paid⟩, hpay, rfl⟩ := hround
    rw [payTokens_imbalance hv hpay, hs, deltas_add]
    abel
  have h₃ := payTokens_imbalance hv hauthor
  simp only [adjustTotalPayout, eq_ok] at hpayout
  obtain ⟨-, -, -, -, -, -, -, -, rfl⟩ := hpayout
  have hstat : ∀ (db₅ : Database) (x : Int), (db₅.modifyAccount c.author fun a =>
      { a with postingRewards := a.postingRewards + x }).imbalance = db₅.imbalance :=
    fun _ _ => imbalance_modifyAccount_of_eq fun _ => rfl
  refine (hstat _ _).trans ?_
  change db₃.imbalance = _
  rw [h₃, h₂, h₁, deltas_sub, deltas_add]
  abel

theorem cashoutCommentHelper_imbalance {ctx : CommentRewardContext}
    (h : cashoutCommentHelper vest db ctx id = .ok (db', claimed)) :
    db'.imbalance = db.imbalance - deltas claimed := by
  simp only [cashoutCommentHelper, eq_ok, Prod.mk.injEq] at h
  obtain ⟨c, -, ⟨db₁, reward⟩, hpay, rfl, rfl⟩ := h
  have hnone : (pure (db, 0) : Checked (Database × Int)) = .ok (db₁, reward) →
      db₁.imbalance = db.imbalance - deltas reward := by
    intro heq
    obtain ⟨rfl, rfl⟩ := heq
    rw [deltas_zero, sub_zero]
  change db₁.imbalance = _
  unfold payComment at hpay
  split at hpay
  · simp only [bind_eq_ok] at hpay
    obtain ⟨rf, -, r, -, hpay⟩ := hpay
    split at hpay
    · exact payReward_imbalance hv hpay
    · exact hnone hpay
  · exact hnone hpay

/-- What has been awarded so far, over all funds. -/
def awarded (funds : Table Nat RewardFundContext) : Int := funds.sum fun _ f => f.deltaAwarded

/-- The loop over the comments that are due: what is paid is awarded to a fund. -/
theorem cashoutDue_imbalance {rounds : Nat}
    (h : cashoutDue vest rounds db funds = .ok (db', funds')) :
    db'.imbalance + deltas (awarded funds') = db.imbalance + deltas (awarded funds) := by
  induction rounds generalizing db funds with
  | zero =>
    simp only [cashoutDue, pure_eq_ok, Prod.mk.injEq] at h
    rw [h.1, h.2]
  | succ rounds ih =>
    rw [cashoutDue] at h
    cases hdue : db.dueComments.head? with
    | none =>
      simp only [hdue, pure_eq_ok, Prod.mk.injEq] at h
      rw [h.1, h.2]
    | some id =>
      simp only [hdue, bind_eq_ok, get_eq_ok] at h
      obtain ⟨⟨fund, rf⟩, -, f, hf, ⟨db₁, reward⟩, hcash, hrest⟩ := h
      have hsum : awarded (funds.modify fund fun f =>
          { f with deltaAwarded := f.deltaAwarded + reward }) = awarded funds + reward := by
        unfold awarded
        rw [sum_modify hf]
        ring
      rw [ih hrest, cashoutCommentHelper_imbalance hv hcash, hsum, deltas_add]
      abel

omit hv in
theorem storeFund_imbalance {e : Nat × RewardFundContext} (h : db.storeFund e = .ok db') :
    db'.imbalance = db.imbalance + deltas e.2.deltaAwarded := by
  simp only [storeFund, eq_ok, get_eq_ok] at h
  obtain ⟨rf, hrf, rfl⟩ := h
  have hsum := sum_modify hrf (fun rf : RewardFund =>
    { rf with
      recentClaims := e.2.recentClaims
      rewardBalance := rf.rewardBalance - e.2.deltaAwarded }) (fun _ f => f.holds)
  simp only [RewardFund.holds, entry_eq_deltas, deltas_sub] at hsum
  unfold imbalance holdings
  simp only [RewardFund.holds, entry_eq_deltas, hsum]
  abel

omit hv in
theorem storeFunds_imbalance {es : List (Nat × RewardFundContext)}
    (h : es.foldlM storeFund db = .ok db') :
    db'.imbalance = db.imbalance + deltas (es.map fun e => e.2.deltaAwarded).sum := by
  induction es generalizing db with
  | nil =>
    cases h
    simp
  | cons e es ih =>
    rw [List.foldlM_cons, bind_eq_ok] at h
    obtain ⟨db₁, hstore, hrest⟩ := h
    rw [ih hrest, storeFund_imbalance hstore, List.map_cons, List.sum_cons, deltas_add]
    abel

/-- **Paying comments out keeps the books.** -/
theorem processCommentCashout_imbalance (h : processCommentCashout vest db = .ok db') :
    db'.imbalance = db.imbalance := by
  simp only [processCommentCashout, bind_eq_ok] at h
  obtain ⟨funds, hclaims, ⟨db₁, funds'⟩, hloop, hstore⟩ := h
  have hawarded : awarded funds = 0 := by
    refine foldlM_induct (fun fs => awarded fs = 0) (fun _ _ _ _ hs hround => ?_) ?_ hclaims
    · simp only [addClaim, bind_eq_ok] at hround
      obtain ⟨c, -, hround⟩ := hround
      split at hround
      · simp only [eq_ok] at hround
        obtain ⟨rf, -, claim, -, rfl⟩ := hround
        refine Eq.trans (sum_modify_of_eq ?_) hs
        exact fun _ => rfl
      · rw [pure_eq_ok] at hround
        rwa [hround] at hs
    · unfold awarded
      rw [sum_map, sum_map]
      simp [Table.sum]
  have hdecay : ∀ now, { db with rewardFunds := db.rewardFunds.map (RewardFund.decay · now) }.imbalance =
      db.imbalance := by
    intro now
    unfold imbalance holdings
    simp only [sum_map]
    rfl
  have hpaid := cashoutDue_imbalance hv hloop
  rw [hawarded, hdecay, deltas_zero, add_zero] at hpaid
  rw [storeFunds_imbalance hstore]
  exact hpaid

end Vest

-- # A careful run is a run

/-- `vest` does what `vest'` does, or fails. -/
def VestLe (vest vest' : Vest) : Prop := ∀ db name liquid, Le (vest db name liquid) (vest' db name liquid)

theorem carefulVesting_le : VestLe carefulVesting rewardVesting := by
  intro db name liquid db' h
  simp only [carefulVesting, bind_eq_ok] at h
  obtain ⟨-, -, h⟩ := h
  exact h

section Le

variable (hle : VestLe vest vest')
include hle

theorem payTokens_le (tokens : Int) (percent : Nat) :
    Le (payTokens vest db name tokens percent) (payTokens vest' db name tokens percent) :=
  (Le.refl _).bind fun _ => (Le.refl _).bind fun _ => (hle _ _ _).bind fun _ => Le.refl _

theorem payCurators_le (id : Nat) (c : Comment) (maxRewards : Int) :
    Le (payCurators vest db id c maxRewards) (payCurators vest' db id c maxRewards) :=
  Le.bind (Le.ite (Le.ite ((Le.foldlM (fun _ _ => (Le.refl _).bind fun _ => Le.ite
    ((Le.refl _).bind fun _ => (hle _ _ _).bind fun _ => Le.refl _) (Le.refl _)) _ _).bind fun _ =>
    Le.refl _) (Le.refl _)) (Le.refl _)) fun _ => Le.refl _

theorem payReward_le (id : Nat) (c : Comment) (percent reward : Nat) :
    Le (payReward vest db id c percent reward) (payReward vest' db id c percent reward) :=
  (Le.refl _).bind fun _ => (payCurators_le hle _ _ _).bind fun _ =>
    (Le.foldlM (fun _ _ => (payTokens_le hle _ _).bind fun _ => Le.refl _) _ _).bind fun _ =>
      (payTokens_le hle _ _).bind fun _ => Le.refl _

theorem cashoutCommentHelper_le (ctx : CommentRewardContext) (id : Nat) :
    Le (cashoutCommentHelper vest db ctx id) (cashoutCommentHelper vest' db ctx id) := by
  refine (Le.refl _).bind fun c => Le.bind ?_ fun _ => Le.refl _
  exact Le.ite ((Le.refl _).bind fun _ => (Le.refl _).bind fun _ =>
    Le.ite (payReward_le hle _ _ _ _) (Le.refl _)) (Le.refl _)

theorem cashoutDue_le (rounds : Nat) (funds : Table Nat RewardFundContext) :
    Le (cashoutDue vest rounds db funds) (cashoutDue vest' rounds db funds) := by
  induction rounds generalizing db funds with
  | zero => exact Le.refl _
  | succ rounds ih =>
    rw [cashoutDue, cashoutDue]
    cases db.dueComments.head? with
    | none => exact Le.refl _
    | some id =>
      exact (Le.refl _).bind fun _ => (Le.refl _).bind fun _ =>
        (cashoutCommentHelper_le hle _ _).bind fun _ => ih _

end Le

end DeltaChain.Ledger.Database

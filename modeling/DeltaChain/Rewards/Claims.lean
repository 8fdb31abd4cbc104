import DeltaChain.Ledger.Frames
import DeltaChain.Lib.Shares
import DeltaChain.Voting.View

/-!
# Claimed rewards

A reward in shares comes with the DELTA that it stands for, the account's `reward_vesting_delta`.
They move to the vesting fund as the shares are claimed: with every claim a proportional part,
rounded down, and all that is left with the last share (`toMove_spec`). So over any sequence of
claims, with rewards arriving in between, exactly the DELTA that were ever credited have moved
once the balance is back to zero (`claims_move_everything`).
-/

namespace DeltaChain.Rewards

open Lib Protocol Ledger Ledger.Database Checked Option

variable {db db' : Database} {name : AccountName} {a : Account}

/-- The rewards of an account are balances, and there are no DELTA without shares. -/
structure Claimable (a : Account) : Prop where
  shares_nonneg : 0 ≤ a.rewardVestingBalance
  shares_fit : a.rewardVestingBalance < 2 ^ 63
  delta_nonneg : 0 ≤ a.rewardVestingDelta
  delta_fit : a.rewardVestingDelta < 2 ^ 63
  zero : a.rewardVestingBalance = 0 → a.rewardVestingDelta = 0

/-- **What moves with a claim.** -/
theorem toMove_spec {vests toMove : Int} (ha : Claimable a) (hvests : 0 ≤ vests)
    (henough : vests ≤ a.rewardVestingBalance) (h : rewardVestingDeltaToMove a vests = .ok toMove) :
    0 ≤ toMove ∧ toMove ≤ a.rewardVestingDelta ∧
      (vests = a.rewardVestingBalance → toMove = a.rewardVestingDelta) := by
  obtain ⟨-, hV, hD, hD', -⟩ := ha
  unfold rewardVestingDeltaToMove at h
  split at h
  · rw [pure_eq_ok] at h
    exact ⟨by omega, h.ge, fun _ => h.symm⟩
  · next hpart =>
    -- a part of the balance, which is not zero
    simp only [eq_ok] at h
    obtain ⟨-, -, rfl⟩ := h
    have hprod : 0 ≤ vests * a.rewardVestingDelta := mul_nonneg hvests hD
    have hbig : vests * a.rewardVestingDelta < 2 ^ 128 := by nlinarith
    have hmoved : ((u128 (u128 vests * u128 a.rewardVestingDelta : Nat) /
        u128 a.rewardVestingBalance : Nat) : Int) =
          Shares.part a.rewardVestingDelta vests a.rewardVestingBalance := by
      have hexact : ((u128 vests * u128 a.rewardVestingDelta : Nat) : Int) =
          vests * a.rewardVestingDelta := by
        rw [Nat.cast_mul, u128_of_lt hvests (by omega), u128_of_lt hD (by omega)]
      rw [Int.natCast_ediv, hexact, u128_of_lt hprod hbig, u128_of_lt (by omega) (by omega), mul_comm]
      rfl
    have hle := Shares.part_le hD henough (by omega)
    have hnonneg := Shares.part_nonneg hD hvests (by omega : 0 ≤ a.rewardVestingBalance)
    rw [toInt64_of_lt (by omega), hmoved]
    exact ⟨hnonneg, hle, fun heq => absurd heq hpart⟩

-- # Runs

/-- What happens to the rewards of an account: a claim, a further reward, or anything that leaves
them as they are. -/
inductive ClaimEvent where
  | claim (rewardDelta rewardDbd rewardVests : Int)
  | reward (value shares : Asset)
  | other (db : Database)

/-- A state, with what the account was credited with so far, and what it has claimed and moved. -/
structure Progress where
  db : Database
  creditedShares : Int := 0
  creditedDelta : Int := 0
  claimed : Int := 0
  moved : Int := 0

/-- What an account still has to claim. -/
def unclaimed (db : Database) (name : AccountName) : Option (Int × Int) :=
  (db.accounts.find? name).map fun a => (a.rewardVestingBalance, a.rewardVestingDelta)

/-- One step. The sums of a reward are checked for overflow by `share_type`. -/
def claimStep (name : AccountName) (s : Progress) : ClaimEvent → Checked Progress
  | .claim rewardDelta rewardDbd rewardVests => do
    let db ← s.db.claimRewardBalance ⟨name, rewardDelta, rewardDbd, rewardVests⟩
    let fund := db.props.totalVestingFundDelta - s.db.props.totalVestingFundDelta
    return { s with db := db, claimed := s.claimed + rewardVests, moved := s.moved + fund }
  | .reward value shares => do
    assert (0 ≤ value.amount ∧ 0 ≤ shares.amount) "a reward is not negative"
    let db ← s.db.adjustRewardBalance name value shares
    let a ← s.db.getAccount name
    let a' ← db.getAccount name
    assert (a'.rewardVestingBalance < 2 ^ 63 ∧ a'.rewardVestingDelta < 2 ^ 63) "overflow"
    return { s with
      db := db
      creditedShares := s.creditedShares + (a'.rewardVestingBalance - a.rewardVestingBalance)
      creditedDelta := s.creditedDelta + (a'.rewardVestingDelta - a.rewardVestingDelta) }
  | .other db => do
    assert (unclaimed db name = unclaimed s.db name) "other rewards"
    return { s with db := db }

theorem claim_spec {op : ClaimRewardBalance} (h : db.claimRewardBalance op = .ok db') :
    ∃ a toMove, db.accounts.find? op.account = some a ∧ 0 ≤ op.rewardVests ∧
      op.rewardVests ≤ a.rewardVestingBalance ∧
      rewardVestingDeltaToMove a op.rewardVests = .ok toMove ∧
      unclaimed db' op.account =
        some (a.rewardVestingBalance - op.rewardVests, a.rewardVestingDelta - toMove) ∧
      db'.props.totalVestingFundDelta = db.props.totalVestingFundDelta + toMove := by
  obtain ⟨hvests, a, toMove, db₁, a₁, bar, ha, henough, hmove, ⟨f, dbd, virtual, hf, rfl⟩, ha₁, hclimb⟩ :=
    claimRewardBalance_cases h
  have hwrites := (adjustProxiedWitnessVotes1_ok hclimb).1
  obtain rfl : f a = a₁ := by
    have hfind := (Table.find?_modify_self ..).symm.trans ha₁
    rw [show (db.modifyProps _).accounts = db.accounts from rfl, ha] at hfind
    exact Option.some.inj hfind
  refine ⟨a, toMove, ha, hvests, henough, hmove, ?_, ?_⟩
  · have hread := hwrites.read (g := fun a => (a.rewardVestingBalance, a.rewardVestingDelta))
      (fun _ _ => rfl) op.account
    refine hread.trans ((congrArg (Option.map _) (Table.find?_modify_self ..)).trans ?_)
    rw [show (Database.modifyAccount _ op.account f).accounts.find? op.account = some (f a) from ha₁,
      hf a]
    simp
  · rw [hwrites.frame]
    rfl

/-- Along a run: everything credited has either moved or is still to be claimed. -/
def Owed (name : AccountName) (start : Account) (s : Progress) : Prop :=
  ∃ a, s.db.accounts.find? name = some a ∧ Claimable a ∧
    a.rewardVestingBalance + s.claimed = start.rewardVestingBalance + s.creditedShares ∧
    a.rewardVestingDelta + s.moved = start.rewardVestingDelta + s.creditedDelta

theorem Owed.step {start : Account} {s s' : Progress} {e : ClaimEvent} (hs : Owed name start s)
    (h : claimStep name s e = .ok s') : Owed name start s' := by
  obtain ⟨a, ha, hc, hshares, hdelta⟩ := hs
  cases e with
  | claim rewardDelta rewardDbd rewardVests =>
    simp only [claimStep, eq_ok] at h
    obtain ⟨db', hclaim, rfl⟩ := h
    obtain ⟨b, toMove, hb, hvests, henough, hmove, hleft, hfund⟩ := claim_spec hclaim
    obtain rfl : a = b := mem_unique ha hb
    obtain ⟨hnonneg, hle, hlast⟩ := toMove_spec hc hvests henough hmove
    obtain ⟨hV, hV', hD, hD', -⟩ := hc
    obtain ⟨a', ha', heq⟩ := map_eq_some_iff.mp hleft
    obtain ⟨hbalance, hrest⟩ := Prod.mk.inj heq
    refine ⟨a', ha', ⟨?_, ?_, ?_, ?_, fun hzero => ?_⟩, ?_, ?_⟩
    all_goals
      dsimp only at *
      omega
  | reward value shares =>
    simp only [claimStep, eq_ok, getAccount_eq_ok] at h
    obtain ⟨hpos, db', hreward, b, hb, b', hb', hfits, rfl⟩ := h
    obtain rfl : a = b := mem_unique ha hb
    obtain ⟨f, dbd, virtual, hf, rfl⟩ := (adjustRewardBalance_rebalances hreward).1
    have ha' := (Table.find?_modify_self ..).trans (congrArg (Option.map f) ha)
    obtain rfl : f a = b' := mem_unique ha' hb'
    obtain ⟨hV, -, hD, -, hzero⟩ := hc
    have hbalance : (f a).rewardVestingBalance = a.rewardVestingBalance + shares.amount := by rw [hf a]
    have hrest : (f a).rewardVestingDelta = a.rewardVestingDelta +
        if shares.amount = 0 then 0 else value.amount := by rw [hf a]
    refine ⟨f a, ha', ⟨by omega, hfits.1, ?_, hfits.2, fun h₀ => ?_⟩, ?_, ?_⟩
    · split at hrest <;> omega
    · omega
    all_goals
      dsimp only
      omega
  | other db' =>
    simp only [claimStep, eq_ok] at h
    obtain ⟨hsame, rfl⟩ := h
    rw [unclaimed, unclaimed, ha] at hsame
    obtain ⟨a', ha', heq⟩ := map_eq_some_iff.mp hsame
    obtain ⟨hbalance, hrest⟩ := Prod.mk.inj heq
    obtain ⟨hV, hV', hD, hD', hzero⟩ := hc
    refine ⟨a', ha', ⟨by omega, by omega, by omega, by omega, by omega⟩, ?_, ?_⟩
    all_goals
      dsimp only
      omega

/-- **Everything moves.** From an account with rewards to claim, along every run of claims, rewards
and other steps: there are no DELTA without shares; a further claim moves at most the DELTA that
the account has; and once the shares claimed are all that there were, so are the DELTA moved. -/
theorem claims_move_everything {start : Account} (hfind : db.accounts.find? name = some start)
    (hstart : Claimable start) {events : List ClaimEvent} {s : Progress}
    (h : Run.exec (Run.checked (claimStep name)) { db := db } events = some s) :
    ∃ a, s.db.accounts.find? name = some a ∧
      (a.rewardVestingBalance = 0 → a.rewardVestingDelta = 0) ∧
      (∀ rewardDelta rewardDbd rewardVests s',
        claimStep name s (.claim rewardDelta rewardDbd rewardVests) = .ok s' →
          0 ≤ s'.moved - s.moved ∧ s'.moved - s.moved ≤ a.rewardVestingDelta) ∧
      (a.rewardVestingBalance = 0 ↔
        s.claimed = start.rewardVestingBalance + s.creditedShares) ∧
      (a.rewardVestingBalance = 0 → s.moved = start.rewardVestingDelta + s.creditedDelta) := by
  have hbegin : Owed name start { db := db } := ⟨start, hfind, hstart, rfl, rfl⟩
  obtain ⟨a, ha, hc, hshares, hdelta⟩ :=
    Run.checked_induct (Owed name start) (fun _ _ _ => Owed.step) hbegin h
  refine ⟨a, ha, hc.zero, fun rewardDelta rewardDbd rewardVests s' hclaim => ?_, by omega, ?_⟩
  · simp only [claimStep, eq_ok] at hclaim
    obtain ⟨db', hclaim, rfl⟩ := hclaim
    obtain ⟨b, toMove, hb, hvests, henough, hmove, -, hfund⟩ := claim_spec hclaim
    obtain rfl : a = b := mem_unique ha hb
    obtain ⟨hnonneg, hle, -⟩ := toMove_spec hc hvests henough hmove
    dsimp only
    omega
  · intro hzero
    have := hc.zero hzero
    omega

/-- An account with seven shares to claim, for three DELTA. -/
def sevenShares : Database := (genesis 1000).modifyAccount initMinerName fun a =>
  { a with rewardVestingBalance := 7, rewardVestingDelta := 3 }

/-- Two shares are claimed for no DELTA, four arrive for five, and the rest is claimed. -/
theorem claims_move_everything_twice : ∃ s, Run.exec (Run.checked (claimStep initMinerName))
      { db := sevenShares } [.claim 0 0 2, .reward ⟨5, .delta⟩ ⟨4, .vests⟩, .claim 0 0 9] = some s ∧
    s.creditedDelta = 5 ∧ s.moved = 3 + s.creditedDelta := by
  have hfind : sevenShares.accounts.find? initMinerName =
    some { balance := 1000, rewardVestingBalance := 7, rewardVestingDelta := 3 } := rfl
  refine Run.exists_end (P := fun s => s.claimed = 7 + s.creditedShares ∧ s.creditedDelta = 5)
    (by decide +kernel) fun s h hvalues => ⟨hvalues.2, ?_⟩
  obtain ⟨a, -, -, -, hall, hmoved⟩ := claims_move_everything hfind
    ⟨by decide, by decide, by decide, by decide, by decide⟩ h
  exact hmoved (hall.mpr hvalues.1)

end DeltaChain.Rewards

import DeltaChain.Voting.Sound

/-!
# Shares and the votes

Every operation that gains or loses shares keeps `VotesSound`. What each of them writes is a
`Gained` or a `Quiet` of the file before. While the routes of a power-down are paid, shares
and total are apart by what has been paid so far (`Paying`).
-/

namespace DeltaChain.Ledger.Database

open Lib Protocol Voting Checked Function

variable {db db' : Database} {name account : AccountName} {a : Account} {off : Int}
  {liquid newVesting : Asset} {e : AccountName × WithdrawVestingRoute} {toWithdraw : Int}
  {toReward : Bool} {s s' : Database × Int} {shares : Int}

-- # Gains

theorem addVesting_gained (hv : newVesting.symbol = .vests)
    (h : db.addVesting account liquid newVesting = .ok db') :
    Gained account newVesting.amount newVesting.amount db db' := by
  simp only [addVesting, bind_eq_ok, getAccount_eq_ok] at h
  obtain ⟨a, ha, a', ha', db₁, hadj, h⟩ := h
  obtain ⟨bar, rfl, -⟩ := Account.gainVotingMana_eq ha'
  have hq : Quiet db (db.modifyAccount account fun _ => { a with votingManabar := bar }) := by
    refine Quiet.modifyAccount fun b hb => ?_
    obtain rfl : a = b := Option.mem_unique ha hb
    rfl
  simp only [adjustBalance, hv, eq_ok, getAccount_eq_ok] at hadj
  obtain ⟨a₁, ha₁, hpos, rfl⟩ := hadj
  exact hq.gained (Gained.of_climb ha₁ hpos rfl rfl rfl rfl h)

/-- What `liquid` DELTA are exchanged for is a number of shares. -/
theorem newVesting_symbol {g : GlobalProperties} {sharePrice : Price}
    (hliquid : liquid.symbol = .delta) (hprice : g.newSharePrice toReward = .ok sharePrice)
    (hmul : liquid.mul sharePrice = .ok newVesting) : newVesting.symbol = .vests := by
  have hsymbols : sharePrice.symbols = (.vests, .delta) ∨ sharePrice.symbols = (.delta, .vests) := by
    unfold GlobalProperties.newSharePrice at hprice
    split at hprice
    · obtain ⟨rfl, -⟩ := Price.make_eq_ok.mp hprice
      exact Or.inl rfl
    · unfold GlobalProperties.vestingSharePrice at hprice
      split at hprice
      · obtain ⟨rfl, -⟩ := Price.make_eq_ok.mp hprice
        exact Or.inr rfl
      · obtain ⟨rfl, -⟩ := Price.make_eq_ok.mp hprice
        exact Or.inl rfl
  simp only [Price.symbols, Prod.mk.injEq] at hsymbols
  unfold AssetOf.mul at hmul
  rcases hsymbols with ⟨hb, hq⟩ | ⟨hb, hq⟩
  · simp only [hb, hq, hliquid, eq_ok, reduceCtorEq, if_false, if_true] at hmul
    obtain ⟨amount, -, rfl⟩ := hmul
    rfl
  · simp only [hb, hq, hliquid, eq_ok, reduceCtorEq, if_false, if_true] at hmul
    obtain ⟨amount, -, rfl⟩ := hmul
    rfl

theorem createVesting2_sound (hs : VotesSound off db)
    (h : db.createVesting2 account liquid toReward = .ok (db', newVesting)) :
    VotesSound off db' := by
  simp only [createVesting2, eq_ok] at h
  obtain ⟨hsym, sharePrice, hprice, shares, hmul, db₁, hstore, heq⟩ := h
  cases heq
  cases toReward with
  | true =>
    simp only [storeVesting, if_true, addRewardVesting, eq_ok] at hstore
    obtain ⟨db₂, hadj, rfl⟩ := hstore
    exact hs.quiet ((Quiet.settles (adjustRewardBalance_rebalances hadj).1.settles).trans
      (.modifyProps rfl))
  | false =>
    have hg := hs.gained (addVesting_gained (newVesting_symbol hsym hprice hmul) hstore)
    simpa using hg

theorem createVesting_sound {liquid : Asset} (hs : VotesSound off db)
    (h : db.createVesting account liquid toReward = .ok db') : VotesSound off db' := by
  simp only [createVesting, eq_ok] at h
  obtain ⟨⟨db₁, shares⟩, hcreate, rfl⟩ := h
  exact createVesting2_sound hs hcreate

theorem transferToVesting_sound {fromAccount toAccount : AccountName} {amount : Asset}
    (hs : VotesSound off db) (h : db.transferToVesting fromAccount toAccount amount = .ok db') :
    VotesSound off db' := by
  simp only [transferToVesting, eq_ok] at h
  obtain ⟨hsym, -, -, -, -, -, -, db₁, hadj, hcreate⟩ := h
  have hne : (-amount).symbol ≠ .vests := by simp [hsym]
  exact createVesting_sound (hs.quiet (.settles (adjustBalance_settles hne hadj))) hcreate

theorem claimRewardBalance_sound {op : ClaimRewardBalance} (hs : VotesSound off db)
    (h : db.claimRewardBalance op = .ok db') : VotesSound off db' := by
  obtain ⟨hvests, -, toMove, db₁, a, bar, -, -, -, hbalances, ha, hclimb⟩ :=
    claimRewardBalance_cases h
  have hs₁ := hs.quiet (.settles hbalances.settles)
  have hpos : 0 ≤ a.vestingShares + op.rewardVests := by
    have := hs₁.nonneg op.account (mem_voters.mpr ⟨a, ha⟩)
    rw [polls_shares ha] at this
    omega
  have hg := hs₁.gained (Gained.of_climb ha hpos rfl rfl rfl rfl hclimb)
  simpa using hg

-- # Power-down

theorem withdrawVesting_quiet (h : db.withdrawVesting account shares = .ok db') : Quiet db db' := by
  obtain ⟨rate, next, toWithdraw, rfl⟩ := withdrawVesting_eq_ok h
  exact Quiet.modifyAccount fun _ _ => rfl

theorem toWithdrawNow_le (h : toWithdrawNow a = .ok toWithdraw) : toWithdraw ≤ a.vestingShares := by
  unfold toWithdrawNow at h
  split at h
  · simp only [eq_ok] at h
    obtain ⟨-, rfl⟩ := h
    exact min_le_left _ _
  · cases h
    exact min_le_left _ _

/-- What holds while the routes of an account are paid, with the sum paid so far: shares
and total are apart by it, and nobody has lost shares. -/
structure Paying (off : Int) (db : Database) (s : Database × Int) : Prop where
  sound : VotesSound (off + s.2) s.1
  nonneg : 0 ≤ s.2
  shares : ∀ x, db.polls.shares x ≤ s.1.polls.shares x
  voters : s.1.polls.voters = db.polls.voters

theorem depositVests_paying (hp : Paying off db s)
    (h : depositVests toWithdraw s e = .ok s') : Paying off db s' := by
  obtain ⟨rfl, -⟩ | ⟨d, a, db₁, -, -, hd, ha, rfl, hclimb⟩ := depositVests_cases h
  · exact hp
  have hnonneg := hp.nonneg
  have hpos : 0 ≤ a.vestingShares + d := by
    have := hp.sound.nonneg e.1 (mem_voters.mpr ⟨a, ha⟩)
    rw [polls_shares ha] at this
    omega
  have hg : Gained e.1 d 0 s.1 db₁ :=
    Gained.of_climb (p := id) ha hpos rfl rfl rfl (add_zero _).symm hclimb
  refine ⟨?_, by simp only; omega, fun x => (hp.shares x).trans ?_, ?_⟩
  · have hs := hp.sound.gained hg
    simpa [add_assoc] using hs
  · rw [hg.polls]
    change s.1.polls.shares x ≤ update s.1.polls.shares e.1 _ x
    by_cases hx : x = e.1
    · subst hx
      rw [update_self]
      omega
    · rw [update_of_ne hx]
  · rw [hg.polls]
    exact hp.voters

theorem depositDelta_paying (hp : Paying off db s)
    (h : depositDelta toWithdraw s e = .ok s') : Paying off db s' := by
  obtain ⟨rfl, -⟩ | ⟨d, a, price, converted, -, -, hd, -, -, -, rfl⟩ := depositDelta_cases h
  · exact hp
  have hnonneg := hp.nonneg
  have hq : Quiet s.1 (s.1.modifyAccount e.1 fun a =>
      { a with balance := a.balance + converted.amount }) := .modifyAccount fun _ _ => rfl
  have hs := (hp.sound.quiet hq).modifyProps (t := -d)
    (f := fun g => { g with
      totalVestingFundDelta := g.totalVestingFundDelta - converted.amount
      totalVestingShares := g.totalVestingShares - d }) rfl
  refine ⟨by simpa [add_assoc] using hs, by simp only; omega, fun x => ?_, ?_⟩
  · refine (hp.shares x).trans_eq ?_
    exact (congrFun (congrArg Polls.shares hq.polls) x).symm
  · exact (congrArg Polls.voters hq.polls).trans hp.voters

/-- This week's payment of one account keeps the votes right. -/
theorem payVestingWithdrawal_sound (hs : VotesSound off db)
    (h : db.payVestingWithdrawal account = .ok db') : VotesSound off db' := by
  simp only [payVestingWithdrawal, eq_ok, getAccount_eq_ok] at h
  obtain ⟨a, ha, toWithdraw, hnow, ⟨db₁, asVests⟩, hvests, ⟨db₂, asDelta⟩, hdelta, hconvert,
    sharePrice, -, converted, -, h⟩ := h
  have hstart : Paying off db (db, 0) :=
    ⟨by simpa using hs, le_refl _, fun _ => le_refl _, rfl⟩
  have hp₁ : Paying off db (db₁, asVests) :=
    foldlM_induct (Paying off db) (fun _ _ _ _ hp => depositVests_paying hp) hstart hvests
  have hstart₂ : Paying (off + asVests) db₁ (db₁, 0) :=
    ⟨by simpa using hp₁.sound, le_refl _, fun _ => le_refl _, rfl⟩
  have hp₂ : Paying (off + asVests) db₁ (db₂, asDelta) :=
    foldlM_induct (Paying (off + asVests) db₁) (fun _ _ _ _ hp => depositDelta_paying hp)
      hstart₂ hdelta
  have hnonneg₁ := hp₁.nonneg
  have hnonneg₂ := hp₂.nonneg
  -- the account still has the shares it had before its routes were paid
  obtain ⟨a₂, ha₂⟩ : ∃ a₂, db₂.accounts.find? account = some a₂ := by
    rw [← mem_voters, hp₂.voters, hp₁.voters]
    exact mem_voters.mpr ⟨a, ha⟩
  have hshares : a.vestingShares ≤ a₂.vestingShares := by
    have := (hp₁.shares account).trans (hp₂.shares account)
    rwa [polls_shares ha, polls_shares ha₂] at this
  have hle := toWithdrawNow_le hnow
  have hend : off + asVests + asDelta - toWithdraw + (toWithdraw - asDelta - asVests) = off := by
    ring
  split at h
  · have hg := Gained.of_climb (t := -(toWithdraw - asDelta - asVests)) ha₂
      (show 0 ≤ a₂.vestingShares + -toWithdraw by omega) rfl rfl rfl rfl h
    have hsound := hp₂.sound.gained hg
    simp only [sub_neg_eq_add, ← sub_eq_add_neg] at hsound
    rwa [hend] at hsound
  · -- nothing is withdrawn, and the account keeps its shares
    cases h
    obtain rfl : toWithdraw = 0 := by omega
    have hq : Quiet db₂ (db₂.modifyAccount account fun b => paidOut b 0 converted.amount) :=
      Quiet.modifyAccount fun b _ => by simp [voteFields, paidOut]
    have hsound := (hp₂.sound.quiet hq).modifyProps (t := -(0 - asDelta - asVests))
      (f := fun g => { g with
        totalVestingFundDelta := g.totalVestingFundDelta - converted.amount
        totalVestingShares := g.totalVestingShares - (0 - asDelta - asVests) }) rfl
    simp only [sub_neg_eq_add] at hsound
    rw [sub_zero] at hend
    rw [hend] at hsound
    exact hsound

end DeltaChain.Ledger.Database

import DeltaChain.Ledger.Frames
import DeltaChain.Lib.Shares
import DeltaChain.Rewards.Cashout

/-!
# The payments of a comment

What `cashout_comment_helper` hands out can be said without the state: who gets how much of the
reward (`Payout`, `payoutOf`). The helper makes these payments one after another and, apart from them,
only keeps count (`payReward_makes`). A payment leaves the clock, the feed, the funds and all comments
alone (`Rewarding`).
-/

namespace DeltaChain.Ledger.Database

open Lib Protocol Checked List Table

variable {db db' db₁ db₂ : Database} {name : AccountName}

-- # What a payment leaves alone

/-- Accounts, supplies and the pending rewards may change. -/
structure Rewarding (db db' : Database) : Prop where
  frame : Frame db db'
  time : db'.props.time = db.props.time
  printRate : db'.props.dbdPrintRate = db.props.dbdPrintRate

namespace Rewarding

theorem refl : Rewarding db db := ⟨.refl, rfl, rfl⟩

theorem trans (h₁ : Rewarding db db₁) (h₂ : Rewarding db₁ db₂) : Rewarding db db₂ :=
  ⟨h₁.frame.trans h₂.frame, h₂.time.trans h₁.time, h₂.printRate.trans h₁.printRate⟩

theorem modifyAccount {f : Account → Account} : Rewarding db (db.modifyAccount name f) :=
  ⟨.modifyAccount, rfl, rfl⟩

theorem medianHistory (h : Rewarding db db') : db'.medianHistory = db.medianHistory := by
  rw [h.frame]

theorem comments (h : Rewarding db db') : db'.comments = db.comments := by
  rw [h.frame]

theorem commentVotes (h : Rewarding db db') : db'.commentVotes = db.commentVotes := by
  rw [h.frame]

theorem rewardFunds (h : Rewarding db db') : db'.rewardFunds = db.rewardFunds := by
  rw [h.frame]

end Rewarding

theorem Rewarding.rebalances {shares r d : Int} (h : Rebalances name shares r d db db') :
    Rewarding db db' := by
  obtain ⟨f, dbdSupply, virtualSupply, -, rfl⟩ := h
  exact ⟨rfl, rfl, rfl⟩

theorem Rewarding.settles (h : Settles db db') : Rewarding db db' := by
  induction h with
  | refl => exact .refl
  | account _ _ ih => exact ih.trans .modifyAccount
  | @props f db₁ _ hf ih =>
    refine ih.trans ⟨rfl, ?_, ?_⟩
    · show (f db₁.props).time = _
      rw [hf]
    · show (f db₁.props).dbdPrintRate = _
      rw [hf]

theorem rewardVesting_rewarding {liquid : Asset} (h : db.rewardVesting name liquid = .ok db') :
    Rewarding db db' := by
  simp only [rewardVesting, createVesting, createVesting2, storeVesting, if_true, addRewardVesting,
    bind_eq_ok, pure_eq_ok] at h
  obtain ⟨⟨db₁, shares⟩, ⟨-, -, price, -, newVesting, -, db₂, ⟨db₃, hadjust, rfl⟩, heq⟩, rfl⟩ := h
  obtain ⟨rfl, -⟩ := Prod.mk.inj heq
  exact (Rewarding.rebalances (adjustRewardBalance_rebalances hadjust).1).trans ⟨rfl, rfl, rfl⟩

variable {paid : Asset × Asset} {toReward : Bool}

theorem payDbd_rewarding {dbd delta : Asset}
    (h : db.payDbd name dbd delta toReward = .ok db') : Rewarding db db' := by
  unfold payDbd at h
  split at h
  · rw [bind_eq_ok] at h
    obtain ⟨db₁, h₁, h₂⟩ := h
    exact (Rewarding.rebalances (adjustRewardBalance_rebalances h₁).1).trans
      (.rebalances (adjustRewardBalance_rebalances h₂).1)
  · rw [bind_eq_ok] at h
    obtain ⟨db₁, h₁, h₂⟩ := h
    exact (Rewarding.rebalances (adjustBalance_rebalances h₁)).trans
      (.rebalances (adjustBalance_rebalances h₂))

theorem createDbd_rewarding {delta : Asset}
    (h : db.createDbd name delta toReward = .ok (db', paid)) : Rewarding db db' := by
  unfold createDbd at h
  split at h
  · simp only [pure_eq_ok, Prod.mk.injEq] at h
    exact h.1 ▸ .refl
  · split at h
    · simp only [eq_ok, Prod.mk.injEq] at h
      obtain ⟨db₁, hadjust, rfl, -⟩ := h
      exact .rebalances (adjustBalance_rebalances hadjust)
    · simp only [eq_ok, Prod.mk.injEq] at h
      obtain ⟨dbd, -, db₁, hpay, db₂, h₂, db₃, h₃, rfl, -⟩ := h
      exact (payDbd_rewarding hpay).trans
        (.settles ((adjustSupply_settles h₂).trans (adjustSupply_settles h₃)))

-- # Payments

/-- A payment, of DELTA or of what they are exchanged for. -/
inductive Payment where
  | curation (voter : AccountName) (claim : Int)
  | reward (name : AccountName) (tokens : Int)

/-- The DELTA that a payment is worth. -/
def Payment.value : Payment → Int
  | .curation _ claim => claim
  | .reward _ tokens => tokens

/-- A payment is made. Curators get shares; authors and beneficiaries get shares and DBD. -/
def Payment.make (vest : Vest) (percentDeltaDollars : Nat) (db : Database) :
    Payment → Checked Database
  | .curation voter claim => do
    let _ ← db.getAccount voter
    let db ← vest db voter ⟨claim, .delta⟩
    return db.modifyAccount voter fun a => { a with curationRewards := a.curationRewards + claim }
  | .reward name tokens => do
    let (db, _) ← payTokens vest db name tokens percentDeltaDollars
    return db

/-- How a reward is divided: what the curators may claim and what they do claim, what is left of
that, the tokens of the author, and what the beneficiaries get of them. -/
structure Payout where
  curationTokens : Int
  claims : List (AccountName × Int)
  remainder : Int
  authorTokens : Int
  beneficiaries : List (AccountName × Int)

namespace Payout

/-- All claims of curators. -/
def claimed (p : Payout) : Int := (p.claims.map Prod.snd).sum

/-- All that beneficiaries get. -/
def totalBeneficiary (p : Payout) : Int := (p.beneficiaries.map Prod.snd).sum

/-- The payments, in the order they are made. -/
def payments (p : Payout) (author : AccountName) : List Payment :=
  p.claims.map (fun e => .curation e.1 e.2) ++ p.beneficiaries.map (fun e => .reward e.1 e.2) ++
    [.reward author (p.authorTokens - p.totalBeneficiary)]

end Payout

/-- The positive claims of curators. -/
def claimsOf (c : Comment) (votes : List CommentVote) (curationTokens : Int) :
    List (AccountName × Int) :=
  if c.allowCurationRewards = true ∧ 0 < c.totalVoteWeight then
    (votes.map fun v => (v.voter, Shares.part curationTokens v.weight c.totalVoteWeight)).filter
      fun e => decide (0 < e.2)
  else []

/-- How the reward of a comment is divided. -/
def payoutOf (c : Comment) (votes : List CommentVote) (percentCurationRewards reward : Nat) :
    Payout :=
  let curationTokens := Shares.part reward percentCurationRewards percent100
  let claims := claimsOf c votes curationTokens
  let authorTokens := reward - curationTokens
  { curationTokens := curationTokens
    claims := claims
    remainder := if c.allowCurationRewards then curationTokens - (claims.map Prod.snd).sum else 0
    authorTokens := authorTokens
    beneficiaries := c.beneficiaries.map fun b =>
      (b.account, Shares.part authorTokens b.weight percent100) }

-- # The helper makes the payments

variable {vest : Vest} {maxRewards : Int} {totalWeight percent : Nat} {s s' : Database × Int}
  {c : Comment} {id : Nat}

theorem claim_eq {weight : Nat} (hmax : 0 ≤ maxRewards) (hfits : maxRewards < 2 ^ 63)
    (htotal : totalWeight < 2 ^ 64) (hweight : weight ≤ totalWeight) :
    u128 (maxRewards * weight) / totalWeight < 2 ^ 63 ∧
      ((u128 (maxRewards * weight) / totalWeight : Nat) : Int) =
        Shares.part maxRewards weight totalWeight := by
  have hproduct : 0 ≤ maxRewards * weight := mul_nonneg hmax (Int.natCast_nonneg _)
  have hbig : maxRewards * weight < 2 ^ 128 := by
    nlinarith
  have hpart : ((u128 (maxRewards * weight) / totalWeight : Nat) : Int) =
      Shares.part maxRewards weight totalWeight := by
    rw [Int.natCast_ediv, u128_of_lt hproduct hbig]
    rfl
  refine ⟨?_, hpart⟩
  rcases Nat.eq_zero_or_pos totalWeight with hzero | hpos
  · rw [hzero, Nat.div_zero]
    decide
  · have hweight' : (weight : Int) ≤ totalWeight := by exact_mod_cast hweight
    have hle := Shares.part_le hmax hweight' (by exact_mod_cast hpos)
    omega

/-- One curator is paid, if the claim is positive. -/
theorem payCurator_makes (percent : Nat) {vote : CommentVote}
    (hmax : 0 ≤ maxRewards) (hfits : maxRewards < 2 ^ 63) (htotal : totalWeight < 2 ^ 64)
    (hweight : vote.weight ≤ totalWeight)
    (h : payCurator vest maxRewards totalWeight s vote = .ok s') :
    let claim := Shares.part maxRewards vote.weight totalWeight
    0 < claim ∧ Payment.make vest percent s.1 (.curation vote.voter claim) = .ok s'.1 ∧
        s'.2 = s.2 - claim ∨
      ¬ 0 < claim ∧ s' = s := by
  obtain ⟨hlt, hpart⟩ := claim_eq hmax hfits htotal hweight
  have hclaim : toInt64 (u128 (maxRewards * vote.weight) / totalWeight) =
      Shares.part maxRewards vote.weight totalWeight := by
    rw [toInt64, if_pos hlt, hpart]
  simp only [payCurator, eq_ok, hclaim] at h
  obtain ⟨-, h⟩ := h
  split at h
  · next hpos =>
    simp only [eq_ok] at h
    obtain ⟨a, ha, db₁, hvest, rfl⟩ := h
    refine Or.inl ⟨hpart ▸ Int.natCast_pos.mpr hpos, ?_, rfl⟩
    simp only [Payment.make, eq_ok]
    exact ⟨a, ha, db₁, hvest, rfl⟩
  · next hzero =>
    exact Or.inr ⟨fun hpos => hzero (Int.natCast_pos.mp (hpart ▸ hpos)), (pure_eq_ok.mp h).symm⟩

theorem payCurators_make (percent : Nat) (hmax : 0 ≤ maxRewards) (hfits : maxRewards < 2 ^ 63)
    (htotal : totalWeight < 2 ^ 64) (votes : List CommentVote)
    (hweights : ∀ v ∈ votes, v.weight ≤ totalWeight)
    (h : votes.foldlM (payCurator vest maxRewards totalWeight) s = .ok s') :
    let claims := (votes.map fun v => (v.voter, Shares.part maxRewards v.weight totalWeight)).filter
      fun e => decide (0 < e.2)
    (claims.map fun e => Payment.curation e.1 e.2).foldlM (Payment.make vest percent) s.1 = .ok s'.1 ∧
      s'.2 = s.2 - (claims.map Prod.snd).sum := by
  induction votes generalizing s with
  | nil =>
    cases h
    exact ⟨rfl, (Int.sub_zero _).symm⟩
  | cons v votes ih =>
    rw [foldlM_cons, bind_eq_ok] at h
    obtain ⟨s₁, hstep, hrest⟩ := h
    obtain ⟨hmake, hleft⟩ := ih (fun v hv => hweights v (mem_cons_of_mem _ hv)) hrest
    rcases payCurator_makes percent hmax hfits htotal (hweights v mem_cons_self) hstep with
      ⟨hpos, hpay, hs₁⟩ | ⟨hzero, rfl⟩
    · simp only [map_cons, filter_cons, hpos, decide_true, if_true, sum_cons,
        foldlM_cons, bind_eq_ok]
      exact ⟨⟨s₁.1, hpay, hmake⟩, by rw [hleft, hs₁]; ring⟩
    · simp only [map_cons, filter_cons, hzero, decide_false, Bool.false_eq_true, if_false]
      exact ⟨hmake, hleft⟩

theorem payBeneficiaries_make {authorTokens : Int} (hauthor : 0 ≤ authorTokens)
    (bs : List Beneficiary)
    (h : bs.foldlM (payBeneficiary vest c authorTokens) s = .ok s') :
    let paid := bs.map fun b => (b.account, Shares.part authorTokens b.weight percent100)
    (paid.map fun e => Payment.reward e.1 e.2).foldlM
        (Payment.make vest c.percentDeltaDollars) s.1 = .ok s'.1 ∧
      s'.2 = s.2 + (paid.map Prod.snd).sum := by
  induction bs generalizing s with
  | nil =>
    cases h
    exact ⟨rfl, (Int.add_zero _).symm⟩
  | cons b bs ih =>
    rw [foldlM_cons, bind_eq_ok] at h
    obtain ⟨s₁, hstep, hrest⟩ := h
    obtain ⟨hmake, htotal⟩ := ih hrest
    have htokens : (authorTokens * b.weight).tdiv percent100 =
        Shares.part authorTokens b.weight percent100 :=
      Int.tdiv_eq_ediv_of_nonneg (mul_nonneg hauthor (Int.natCast_nonneg _))
    simp only [payBeneficiary, eq_ok, htokens] at hstep
    obtain ⟨⟨db₁, paid⟩, hpay, rfl⟩ := hstep
    simp only [map_cons, sum_cons, foldlM_cons, eq_ok, Payment.make]
    exact ⟨⟨db₁, ⟨(db₁, paid), hpay, rfl⟩, hmake⟩, by rw [htotal]; ring⟩

/-- **Curators** are paid the claims of the payout, and what is left is its remainder. -/
theorem payCuratorsRemainder_makes (percent : Nat) {claimed left : Int}
    (hmax : 0 ≤ maxRewards) (hfits : maxRewards < 2 ^ 63) (htotal : c.totalVoteWeight < 2 ^ 64)
    (hweights : ∀ v ∈ db.curators id, v.weight ≤ c.totalVoteWeight)
    (h : payCuratorsRemainder vest db id c maxRewards = .ok (db', claimed, left)) :
    let claims := claimsOf c (db.curators id) maxRewards
    (claims.map fun e => Payment.curation e.1 e.2).foldlM (Payment.make vest percent) db = .ok db' ∧
      claimed = (claims.map Prod.snd).sum ∧
      left = if c.allowCurationRewards then maxRewards - (claims.map Prod.snd).sum else 0 := by
  unfold payCuratorsRemainder at h
  unfold claimsOf
  split at h
  · next hallow =>
    split at h
    · next hpos =>
      simp only [eq_ok, Prod.mk.injEq] at h
      obtain ⟨⟨db₁, unclaimed⟩, hfold, rfl, rfl, rfl⟩ := h
      obtain ⟨hmake, hleft⟩ := payCurators_make percent hmax hfits htotal _ hweights hfold
      simp only [hallow, hpos, and_self, if_true]
      refine ⟨hmake, ?_, hleft⟩
      omega
    · next hzero =>
      obtain ⟨rfl, rfl, rfl⟩ := h
      rw [if_neg fun h => hzero h.2]
      refine ⟨rfl, Int.sub_self _, ?_⟩
      rw [if_pos hallow]
      exact (Int.sub_zero _).symm
  · next hforbid =>
    obtain ⟨rfl, rfl, rfl⟩ := h
    rw [if_neg fun h => hforbid h.1]
    exact ⟨rfl, rfl, (if_neg hforbid).symm⟩

theorem modifyComment_modifyComment (db : Database) (id : Nat) (f g : Comment → Comment) :
    (db.modifyComment id f).modifyComment id g = db.modifyComment id (g ∘ f) := by
  have htable : (db.comments.modify id f).modify id g = db.comments.modify id (g ∘ f) := by
    refine ext_find ?_ fun k => ?_
    · rw [keys_modify, keys_modify, keys_modify]
    · simp only [find?_modify]
      split
      · rw [Option.map_map]
      · rfl
  rw [modifyComment, modifyComment, modifyComment, htable]

/-- **The helper** makes the payments of the payout, and counts them. -/
theorem payReward_makes {reward : Nat} {claimed : Int}
    (hreward : reward < 2 ^ 63) (hpercent : percent ≤ percent100) (htotal : c.totalVoteWeight < 2 ^ 64)
    (hweights : ∀ v ∈ db.curators id, v.weight ≤ c.totalVoteWeight)
    (h : payReward vest db id c percent reward = .ok (db', claimed)) :
    let p := payoutOf c (db.curators id) percent reward
    ∃ db₁, (p.payments c.author).foldlM (Payment.make vest c.percentDeltaDollars) db = .ok db₁ ∧
      claimed = p.authorTokens + p.claimed ∧
      (∃ db₂, payCuratorsRemainder vest db id c p.curationTokens = .ok (db₂, p.claimed, p.remainder)) ∧
      ∃ f, db' = (db₁.modifyComment id f).modifyAccount c.author fun a =>
        { a with postingRewards := a.postingRewards + (p.authorTokens - p.totalBeneficiary) } := by
  have hpercent' : (percent : Int) ≤ percent100 := by exact_mod_cast hpercent
  have hpart : ((u128 (reward * percent : Nat) / percent100 : Nat) : Int) =
      Shares.part reward percent percent100 := by
    have hbig : ((reward * percent : Nat) : Int) < 2 ^ 128 := by
      unfold percent100 at hpercent
      push_cast
      nlinarith
    rw [Int.natCast_ediv, u128_of_lt (Int.natCast_nonneg _) hbig, Nat.cast_mul]
    rfl
  have hle : Shares.part reward percent percent100 ≤ reward :=
    Shares.part_le (Int.natCast_nonneg _) hpercent' (by decide)
  have hnonneg : 0 ≤ Shares.part reward percent percent100 :=
    Shares.part_nonneg (Int.natCast_nonneg _) (Int.natCast_nonneg _) (by decide)
  have hcuration : toInt64 (u128 (reward * percent : Nat) / percent100) =
      Shares.part reward percent percent100 := by
    rw [toInt64, if_pos (by omega), hpart]
  simp only [payReward, eq_ok, Prod.mk.injEq, hcuration] at h
  obtain ⟨-, ⟨db₁, claims⟩, hcurators, ⟨db₂, total⟩, hbeneficiaries, ⟨db₃, dbdPayout, deltaPayout⟩,
    hauthor, deltaValue, -, dbdCreated, -, curatorValue, -, beneficiaryValue, -, db₄, hadjust, -, -,
    rfl, rfl⟩ := h
  simp only [payCurators, eq_ok, Prod.mk.injEq] at hcurators
  obtain ⟨⟨db₁', claims', left⟩, hremainder, rfl, rfl⟩ := hcurators
  obtain ⟨hmakeCurators, hclaims, hleft⟩ := payCuratorsRemainder_makes c.percentDeltaDollars hnonneg
    (by omega) htotal hweights hremainder
  obtain ⟨hmakeBeneficiaries, htotalBeneficiary⟩ := payBeneficiaries_make (by omega) _ hbeneficiaries
  set p := payoutOf c (db.curators id) percent reward with hp
  have htotalBeneficiary : total = p.totalBeneficiary := htotalBeneficiary.trans (Int.zero_add _)
  refine ⟨db₃, ?_, congrArg (p.authorTokens + ·) hclaims, ⟨db₁', ?_⟩, ?_⟩
  · -- curators, beneficiaries, author
    have hmakeAuthor : [Payment.reward c.author (p.authorTokens - p.totalBeneficiary)].foldlM
        (Payment.make vest c.percentDeltaDollars) db₂ = .ok db₃ := by
      simp only [foldlM_cons, foldlM_nil, Payment.make, eq_ok]
      exact ⟨db₃, ⟨_, htotalBeneficiary ▸ hauthor, rfl⟩, rfl⟩
    simp only [Payout.payments, foldlM_append, bind_eq_ok]
    exact ⟨db₂, ⟨db₁', hmakeCurators, hmakeBeneficiaries⟩, hmakeAuthor⟩
  · rw [show p.claimed = claims' from hclaims.symm, show p.remainder = left from hleft.symm]
    exact hremainder
  · simp only [adjustTotalPayout, eq_ok] at hadjust
    obtain ⟨c', -, total', -, curator, -, beneficiary, -, rfl⟩ := hadjust
    rw [modifyComment_modifyComment, htotalBeneficiary]
    exact ⟨_, rfl⟩

end DeltaChain.Ledger.Database

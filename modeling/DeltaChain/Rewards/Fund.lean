import DeltaChain.Rewards.Split

/-!
# What a reward fund pays in a block

`process_comment_cashout` lets the recent claims of a fund decay, adds the claims of all comments that are
due, and pays every one of them its part of the fund by its claim. The parts stay within the fund if the
claims that they are parts of are all in the total: then each round of the loop awards at most the part of
its comment, and what the comments that are still due will get is not awarded yet (`Partway`).

The decay subtracts a fraction of the recent claims that grows with the time since the last update and
does not stop at all of them, in unsigned arithmetic. After a long enough gap between two blocks the total is
wrong, and the fund can pay more than it has (`cashout_within_iff`, `cashout_overdraws`).
-/

namespace DeltaChain.Ledger.Database

open Lib Protocol Checked List Option Table Shares

variable {db db' : Database} {id fund : Nat} {rf : RewardFund} {c : Comment}

-- # The comments that are due

theorem takeWhile_eq_filter {α : Type} {p : α → Bool} {l : List α}
    (h : l.Pairwise fun a b => p b = true → p a = true) : l.takeWhile p = l.filter p := by
  induction l with
  | nil => rfl
  | cons a l ih =>
    rw [pairwise_cons] at h
    cases ha : p a with
    | true => rw [takeWhile_cons_of_pos ha, filter_cons_of_pos ha, ih h.2]
    | false =>
      have hnone : l.filter p = [] :=
        filter_eq_nil_iff.mpr fun b hb hp => by rw [h.1 b hb hp] at ha; cases ha
      rw [takeWhile_cons_of_neg (by rw [ha]; exact Bool.false_ne_true),
        filter_cons_of_neg (by rw [ha]; exact Bool.false_ne_true), hnone]

theorem dueComments_perm (db : Database) : db.dueComments.Perm
    ((db.comments.entries.filter fun e => decide (e.2.cashoutTime ≤ db.headBlockTime)).map Prod.fst) := by
  have hsorted : db.byCashoutTime.Pairwise fun e f =>
      decide (f.1 ≤ db.headBlockTime) = true → decide (e.1 ≤ db.headBlockTime) = true := by
    have htrans : IsTrans (Nat × Nat) fun e f => e.1 < f.1 ∨ e.1 = f.1 ∧ e.2 ≤ f.2 :=
      ⟨fun a b c hab hbc => by omega⟩
    have htotal : Std.Total fun e f : Nat × Nat => e.1 < f.1 ∨ e.1 = f.1 ∧ e.2 ≤ f.2 :=
      ⟨fun a b => by omega⟩
    refine (pairwise_insertionSort (fun e f : Nat × Nat => e.1 < f.1 ∨ e.1 = f.1 ∧ e.2 ≤ f.2)
      _).imp fun {e f} hef hf => ?_
    rw [decide_eq_true_eq] at hf ⊢
    omega
  unfold dueComments
  rw [takeWhile_eq_filter hsorted]
  refine (((perm_insertionSort _ _).filter _).map Prod.snd).trans ?_
  rw [List.filter_map, List.map_map]
  exact List.Perm.refl _

theorem mem_dueComments : id ∈ db.dueComments ↔
    ∃ c, db.comments.find? id = some c ∧ c.cashoutTime ≤ db.headBlockTime := by
  rw [(dueComments_perm db).mem_iff, List.mem_map]
  constructor
  · rintro ⟨e, he, rfl⟩
    rw [mem_filter, decide_eq_true_eq] at he
    exact ⟨e.2, mem_entries_iff.mp he.1, he.2⟩
  · rintro ⟨c, hc, hdue⟩
    exact ⟨(id, c), mem_filter.mpr ⟨mem_entries_iff.mpr hc, decide_eq_true hdue⟩, rfl⟩

def dueSum (db : Database) (f : Comment → Int) : Int :=
  db.comments.sum fun _ c => if c.cashoutTime ≤ db.headBlockTime then f c else 0

theorem dueSum_nonneg {f : Comment → Int} (hf : ∀ c, 0 ≤ f c) : 0 ≤ db.dueSum f := by
  refine sum_nonneg fun id c _ => ?_
  split
  · exact hf c
  · exact le_rfl

theorem dueSum_eq (db : Database) (f : Comment → Int) :
    db.dueSum f = (db.dueComments.map fun id => ((db.comments.find? id).map f).getD 0).sum := by
  rw [((dueComments_perm db).map _).sum_eq, List.map_map, dueSum, Table.sum, sum_map_ite,
    map_const', sum_replicate, smul_zero, add_zero]
  refine congrArg List.sum (map_congr_left fun e he => ?_)
  rw [Function.comp_apply, mem_entries_iff.mp (mem_filter.mp he).1]
  rfl

-- # Claims

def claim (rf : RewardFund) (c : Comment) : Nat :=
  if 0 < c.netRshares then
    (evaluateRewardCurve (u128 c.netRshares) rf.authorRewardCurve rf.contentConstant).toOption.getD 0
  else 0

def dueClaims (db : Database) (rf : RewardFund) : Int := db.dueSum fun c => claim rf c

theorem claim_eq_of_ok {n : Nat} (hpos : 0 < c.netRshares)
    (h : evaluateRewardCurve (u128 c.netRshares) rf.authorRewardCurve rf.contentConstant = .ok n) :
    claim rf c = n := by
  rw [claim, if_pos hpos, h]
  rfl

variable {funds funds' : Table Nat RewardFundContext}

theorem addClaim_eq (hfund : db.getRewardFund = .ok (fund, rf))
    (h : db.addClaim funds id = .ok funds') :
    ∃ c, db.comments.find? id = some c ∧
      (claim rf c = 0 ∧ funds' = funds ∨ funds' = funds.modify fund fun f =>
        { f with recentClaims := (f.recentClaims + claim rf c) % 2 ^ 128 }) := by
  simp only [addClaim, getComment, bind_eq_ok, get_eq_ok] at h
  obtain ⟨c, hc, h⟩ := h
  refine ⟨c, hc, ?_⟩
  split at h
  · next hpos =>
    simp only [hfund, ok_bind, eq_ok] at h
    obtain ⟨n, hn, rfl⟩ := h
    rw [claim_eq_of_ok hpos hn]
    exact Or.inr rfl
  · next hneg =>
    exact Or.inl ⟨if_neg hneg, (pure_eq_ok.mp h).symm⟩

variable {f : RewardFundContext}

theorem addClaims_fund (hfund : db.getRewardFund = .ok (fund, rf)) (ids : List Nat)
    (h : ids.foldlM (addClaim db) funds = .ok funds') (hf : funds.find? fund = some f)
    (hfits : f.recentClaims < 2 ^ 128) :
    funds'.find? fund = some { f with
      recentClaims := (f.recentClaims +
        (ids.map fun id => ((db.comments.find? id).map (claim rf)).getD 0).sum) % 2 ^ 128 } := by
  induction ids generalizing funds f with
  | nil =>
    cases h
    rw [hf, map_nil, sum_nil, Nat.add_zero, Nat.mod_eq_of_lt hfits]
  | cons id ids ih =>
    rw [foldlM_cons, bind_eq_ok] at h
    obtain ⟨funds₁, hadd, hrest⟩ := h
    rw [map_cons, sum_cons]
    obtain ⟨c, hc, ⟨hzero, rfl⟩ | rfl⟩ := addClaim_eq hfund hadd
    · rw [ih hrest hf hfits, hc, map_some, getD_some, hzero, Nat.zero_add]
    · rw [ih hrest (by rw [find?_modify_self, hf]; rfl) (Nat.mod_lt _ (Nat.two_pow_pos 128)), hc,
        map_some, getD_some]
      simp only [Nat.mod_add_mod, Nat.add_assoc]

-- # One comment is paid

/-- A comment that can be paid: its votes have no more weight than their total. -/
structure PayableComment (db : Database) (id : Nat) (c : Comment) : Prop where
  rewardWeight : c.rewardWeight ≤ percent100
  total : c.totalVoteWeight < 2 ^ 64
  weights : ((db.curators id).map (·.weight)).sum ≤ c.totalVoteWeight

variable {ctx : CommentRewardContext} {claimed : Int} {j : Nat}

/-- A reward is at most the part of the fund that the claim is of all claims. -/
theorem getRshareReward_le {reward : Nat} (hpos : 0 < c.netRshares)
    (hweight : c.rewardWeight ≤ percent100) (hfund : 0 ≤ ctx.totalRewardFundDelta)
    (h : getRshareReward (localContext ctx c rf) = .ok reward) : reward < 2 ^ 63 ∧
      (reward : Int) ≤ Shares.part ctx.totalRewardFundDelta (claim rf c) ctx.totalRewardShares2 := by
  simp only [getRshareReward, eq_ok] at h
  simp only [localContext] at h
  obtain ⟨-, htotal, n, hn, hmax, dust, -, maxDelta, -, rfl⟩ := h
  rw [claim_eq_of_ok hpos hn]
  set weighted := n * c.rewardWeight / percent100 with hweighted
  set payout := (ctx.totalRewardFundDelta * (weighted : Int) % 2 ^ 256).toNat / ctx.totalRewardShares2
    with hpayout
  have hreward : min (if dust = true then 0 else payout) (maxDelta.amount % 2 ^ 64).toNat ≤ payout := by
    refine (Nat.min_le_left _ _).trans ?_
    split
    · exact Nat.zero_le _
    · exact Nat.le_refl _
  have hle : weighted ≤ n := Nat.div_le_of_le_mul (by rw [Nat.mul_comm]; exact Nat.mul_le_mul_right n hweight)
  have hpart : (payout : Int) ≤ part ctx.totalRewardFundDelta n ctx.totalRewardShares2 := by
    have hproduct : 0 ≤ ctx.totalRewardFundDelta * (weighted : Int) :=
      mul_nonneg hfund (Int.natCast_nonneg _)
    have hmod : ctx.totalRewardFundDelta * (weighted : Int) % 2 ^ 256 ≤
        ctx.totalRewardFundDelta * (weighted : Int) := by omega
    rw [hpayout, Int.natCast_ediv, Int.toNat_of_nonneg (Int.emod_nonneg _ (by decide))]
    refine (Int.ediv_le_ediv (by exact_mod_cast htotal) hmod).trans ?_
    exact part_mono hfund (by exact_mod_cast hle) (by exact_mod_cast htotal)
  unfold int64Max at hmax
  exact ⟨by omega, by omega⟩

/-- What is left of the state when a comment has been paid. -/
structure CashedOut (db : Database) (id : Nat) (db' : Database) : Prop where
  comments : ∃ g : Comment → Comment, (∀ c, (g c).cashoutTime = timePointSecMaximum) ∧
    db'.comments = db.comments.modify id g
  votes : db'.commentVotes = db.commentVotes.filter fun k _ => k.1 ≠ id
  funds : db'.rewardFunds = db.rewardFunds
  time : db'.headBlockTime = db.headBlockTime

/-- **One comment** is paid no more than the part of the fund that it has a claim to. -/
theorem cashoutCommentHelper_within (hfund : db.getRewardFund = .ok (fund, rf))
    (hpercent : rf.percentCurationRewards ≤ percent100) (hc : db.comments.find? id = some c)
    (hpayable : PayableComment db id c) (hbalance : 0 ≤ ctx.totalRewardFundDelta)
    (h : cashoutCommentHelper rewardVesting db ctx id = .ok (db', claimed)) :
    claimed ≤ Shares.part ctx.totalRewardFundDelta (claim rf c) ctx.totalRewardShares2 ∧
      CashedOut db id db' := by
  simp only [cashoutCommentHelper, getComment, eq_ok, get_eq_ok, Prod.mk.injEq] at h
  obtain ⟨c', hc', ⟨db₁, claimed'⟩, hpay, rfl, rfl⟩ := h
  obtain rfl : c = c' := mem_unique hc hc'
  have hnonneg : 0 ≤ part ctx.totalRewardFundDelta (claim rf c) ctx.totalRewardShares2 :=
    part_nonneg hbalance (Int.natCast_nonneg _) (Int.natCast_nonneg _)
  have hnothing : (pure (db, 0) : Checked (Database × Int)) = .ok (db₁, claimed') →
      claimed' ≤ part ctx.totalRewardFundDelta (claim rf c) ctx.totalRewardShares2 ∧
      CashedOut db id { db₁.modifyComment id (fun c => Comment.cashedOut c db₁.headBlockTime) with
        commentVotes := db₁.commentVotes.filter fun k _ => k.1 ≠ id } := by
    intro hpay
    cases hpay
    exact ⟨hnonneg, ⟨fun c => Comment.cashedOut c db.headBlockTime, fun _ => rfl, rfl⟩, rfl, rfl, rfl⟩
  unfold payComment at hpay
  split at hpay
  · next hpos =>
    simp only [hfund, ok_bind, bind_eq_ok] at hpay
    obtain ⟨reward, hreward, hpay⟩ := hpay
    obtain ⟨hlt, hle⟩ := getRshareReward_le hpos hpayable.rewardWeight hbalance hreward
    split at hpay
    · have hweight : ∀ v ∈ db.curators id, v.weight ≤ c.totalVoteWeight := fun v hv =>
        (single_le_sum (fun _ _ => Nat.zero_le _) _ (mem_map_of_mem hv)).trans hpayable.weights
      obtain ⟨db₂, hmake, hclaimed, -, f, rfl⟩ :=
        payReward_makes hlt hpercent hpayable.total hweight hpay
      have hrewarding := payments_rewarding hmake
      have hcuration : 0 ≤ part reward rf.percentCurationRewards percent100 :=
        part_nonneg (Int.natCast_nonneg _) (Int.natCast_nonneg _) (Int.natCast_nonneg _)
      have hclaims := sum_claimsOf_le hcuration hpayable.weights
      refine ⟨?_, ?_⟩
      · refine le_trans ?_ hle
        rw [hclaimed]
        show (reward : Int) - part reward rf.percentCurationRewards percent100 +
          ((claimsOf c (db.curators id) _).map Prod.snd).sum ≤ reward
        omega
      · refine ⟨⟨(fun c => Comment.cashedOut c db₂.headBlockTime) ∘ f, fun _ => rfl, ?_⟩, ?_, ?_, ?_⟩
        · rw [← hrewarding.comments]
          show ((db₂.modifyComment id f).modifyComment id fun c =>
            Comment.cashedOut c db₂.headBlockTime).comments = _
          rw [modifyComment_modifyComment]
          rfl
        · rw [← hrewarding.commentVotes]
          rfl
        · exact hrewarding.rewardFunds
        · exact hrewarding.time
    · exact hnothing hpay
  · exact hnothing hpay

-- # All comments are paid

theorem CashedOut.curators (h : CashedOut db id db') (hj : j ≠ id) :
    db'.curators j = db.curators j := by
  have hfilter : (db.commentVotes.entries.filter fun e => decide (e.1.1 ≠ id)).filter
      (fun e => decide (e.1.1 = j)) = db.commentVotes.entries.filter fun e => decide (e.1.1 = j) := by
    rw [List.filter_filter]
    refine filter_congr fun e _ => ?_
    by_cases he : e.1.1 = j <;> simp [he, hj]
  unfold Database.curators
  rw [h.votes]
  show (((db.commentVotes.entries.filter fun e => decide (e.1.1 ≠ id)).filter _).insertionSort _).map _ = _
  rw [hfilter]

/-- The loop is under way: what has been awarded from the fund, and the parts that the comments still
due have a claim to, are within it. -/
structure Partway (fund : Nat) (rf : RewardFund) (db : Database) (f : RewardFundContext) : Prop where
  fund : db.getRewardFund = .ok (fund, rf)
  time : db.headBlockTime < timePointSecMaximum
  comments : ∀ id c, db.comments.find? id = some c → c.cashoutTime ≤ db.headBlockTime →
    PayableComment db id c
  balance : 0 ≤ f.rewardBalance
  within : f.deltaAwarded + db.dueSum (fun c => Shares.part f.rewardBalance (claim rf c) f.recentClaims) ≤
    f.rewardBalance

theorem Partway.round (h : Partway fund rf db f)
    (hpercent : rf.percentCurationRewards ≤ percent100) (hc : db.comments.find? id = some c)
    (hdue : c.cashoutTime ≤ db.headBlockTime) (htotal : ctx.totalRewardShares2 = f.recentClaims)
    (hdelta : ctx.totalRewardFundDelta = f.rewardBalance)
    (hcash : cashoutCommentHelper rewardVesting db ctx id = .ok (db', claimed)) :
    Partway fund rf db' { f with deltaAwarded := f.deltaAwarded + claimed } := by
  obtain ⟨hle, hcashed⟩ := cashoutCommentHelper_within h.fund hpercent hc (h.comments id c hc hdue)
    (by rw [hdelta]; exact h.balance) hcash
  rw [htotal, hdelta] at hle
  obtain ⟨g, hg, hcomments⟩ := hcashed.comments
  have hlate : ∀ c, ¬ (g c).cashoutTime ≤ db.headBlockTime := fun c => by
    rw [hg]
    have := h.time
    omega
  refine ⟨?_, ?_, fun j d hd hddue => ?_, h.balance, ?_⟩
  · rw [getRewardFund, hcashed.funds]
    exact h.fund
  · rw [hcashed.time]
    exact h.time
  · rw [hcomments, find?_modify] at hd
    rw [hcashed.time] at hddue
    split at hd
    · -- the comment itself is not due any more
      obtain ⟨c', -, rfl⟩ := map_eq_some_iff.mp hd
      exact absurd hddue (hlate c')
    · next hj =>
      have hsound := h.comments j d hd hddue
      exact ⟨hsound.rewardWeight, hsound.total, by rw [hcashed.curators hj]; exact hsound.weights⟩
  · have hwithin := h.within
    rw [dueSum, hcomments, hcashed.time, sum_modify hc, if_pos hdue, if_neg (hlate c)]
    show f.deltaAwarded + claimed +
      (db.dueSum (fun c => part f.rewardBalance (claim rf c) f.recentClaims) +
        (0 - part f.rewardBalance (claim rf c) f.recentClaims)) ≤ f.rewardBalance
    omega

/-- **The loop** awards no fund more than it has. -/
theorem cashoutDue_within (hpercent : rf.percentCurationRewards ≤ percent100) {rounds : Nat}
    (hf : funds.find? fund = some f) (hpartway : Partway fund rf db f)
    (h : cashoutDue rewardVesting rounds db funds = .ok (db', funds')) :
    (∃ f', funds'.find? fund = some f' ∧ f'.rewardBalance = f.rewardBalance ∧ Partway fund rf db' f') ∧
      (∀ j, j ≠ fund → funds'.find? j = funds.find? j) ∧ db'.rewardFunds = db.rewardFunds := by
  induction rounds generalizing db funds f with
  | zero =>
    cases h
    exact ⟨⟨f, hf, rfl, hpartway⟩, fun _ _ => rfl, rfl⟩
  | succ rounds ih =>
    rw [cashoutDue] at h
    cases hhead : db.dueComments.head? with
    | none =>
      simp only [hhead] at h
      cases h
      exact ⟨⟨f, hf, rfl, hpartway⟩, fun _ _ => rfl, rfl⟩
    | some id =>
      simp only [hhead, hpartway.fund, ok_bind, bind_eq_ok, get_eq_ok] at h
      obtain ⟨f₁, hf₁, ⟨db₁, reward⟩, hcash, hrest⟩ := h
      obtain rfl : f = f₁ := mem_unique hf hf₁
      obtain ⟨c, hc, hdue⟩ := mem_dueComments.mp (mem_of_mem_head? (mem_def.mpr hhead))
      have hround := hpartway.round hpercent hc hdue rfl rfl hcash
      obtain ⟨⟨f', hf', hbalance, hfinal⟩, hothers, hfunds⟩ :=
        ih (by rw [find?_modify_self, hf]; rfl) hround hrest
      have hcashed := (cashoutCommentHelper_within hpartway.fund hpercent hc
        (hpartway.comments id c hc hdue) hpartway.balance hcash).2
      refine ⟨⟨f', hf', hbalance, hfinal⟩, fun j hj => ?_, hfunds.trans hcashed.funds⟩
      rw [hothers j hj, find?_modify_ne _ _ hj]

theorem Partway.awarded_le (h : Partway fund rf db f) : f.deltaAwarded ≤ f.rewardBalance := by
  have hnonneg : 0 ≤ db.dueSum fun c => part f.rewardBalance (claim rf c) f.recentClaims :=
    dueSum_nonneg fun c => part_nonneg h.balance (Int.natCast_nonneg _) (Int.natCast_nonneg _)
  have := h.within
  omega

-- # The whole function

/-- The state with the claims of all funds decayed. -/
def decayFunds (db : Database) : Database :=
  { db with rewardFunds := db.rewardFunds.map fun rf => RewardFund.decay rf db.headBlockTime }

/-- What the payouts of a block are made with: the decayed claims of every fund, and the claims of all
comments that are due. -/
def claimTotals (db : Database) : Checked (Table Nat RewardFundContext) :=
  db.dueComments.foldlM (addClaim db.decayFunds)
    (db.decayFunds.rewardFunds.map fun rf => ⟨rf.recentClaims, rf.rewardBalance, 0⟩)

/-- What the state has to be like: the numbers are in their ranges, and the votes of a comment that is due
have no more weight than their total. -/
structure Cashable (db : Database) : Prop where
  time : db.headBlockTime < timePointSecMaximum
  claims : ∀ j rf, db.rewardFunds.find? j = some rf → rf.recentClaims < 2 ^ 128
  balance : ∀ j rf, db.rewardFunds.find? j = some rf → 0 ≤ rf.rewardBalance
  percent : ∀ j rf, db.rewardFunds.find? j = some rf → rf.percentCurationRewards ≤ percent100
  comments : ∀ id c, db.comments.find? id = some c → c.cashoutTime ≤ db.headBlockTime →
    PayableComment db id c

/-- What a block should do to the funds: the claims decay; the total of the fund that pays has all claims of
comments that are due; no fund awards more than it has, nor has less than nothing afterwards. -/
structure WithinFunds (db : Database) (fund : Nat) (rf : RewardFund)
    (funds : Table Nat RewardFundContext) : Prop where
  decayed : ∀ j rf, db.rewardFunds.find? j = some rf →
    (RewardFund.decay rf db.headBlockTime).recentClaims ≤ rf.recentClaims
  total : ∀ f, funds.find? fund = some f → db.dueClaims rf ≤ f.recentClaims
  awarded : ∀ db₁ funds₁,
    cashoutDue rewardVesting db.comments.entries.length db.decayFunds funds = .ok (db₁, funds₁) →
    ∀ j f, funds₁.find? j = some f → f.deltaAwarded ≤ f.rewardBalance
  balance : ∀ db', processCommentCashout rewardVesting db = .ok db' →
    ∀ j rf, db'.rewardFunds.find? j = some rf → 0 ≤ rf.rewardBalance

/-- The part of the claims that decays. -/
def decayedPart (rf : RewardFund) (now : Nat) : Nat :=
  u128 (rf.recentClaims * ((now : Int) - rf.lastUpdate)) / recentRsharesDecayTime

theorem decay_recentClaims (now : Nat) (h : rf.recentClaims < 2 ^ 128) :
    (RewardFund.decay rf now).recentClaims < 2 ^ 128 ∧
      ((RewardFund.decay rf now).recentClaims ≤ rf.recentClaims ↔
        decayedPart rf now ≤ rf.recentClaims) := by
  have hsmall : decayedPart rf now < 2 ^ 128 :=
    (Nat.div_le_self _ _).trans_lt ((Int.toNat_lt (Int.emod_nonneg _ (by decide))).mpr
      (Int.emod_lt_of_pos _ (by decide)))
  have hdecay : (RewardFund.decay rf now).recentClaims =
      (((rf.recentClaims : Int) - decayedPart rf now) % 2 ^ 128).toNat := rfl
  omega

theorem getRewardFund_decayFunds (hfund : db.getRewardFund = .ok (fund, rf)) :
    db.decayFunds.getRewardFund = .ok (fund, RewardFund.decay rf db.headBlockTime) ∧
      db.rewardFunds.find? fund = some rf := by
  have hfound := get_eq_ok.mp hfund
  refine ⟨get_eq_ok.mpr ?_, mem_entries_iff.mp (mem_of_find?_eq_some hfound)⟩
  show ((db.rewardFunds.entries.map fun e => (e.1, RewardFund.decay e.2 db.headBlockTime)).find? _) = _
  rw [find?_map]
  show (db.rewardFunds.entries.find? fun e => decide (e.2.name = postRewardFundName)).map _ = _
  rw [hfound]
  rfl

theorem claimTotals_fund (hdb : Cashable db) (hfund : db.getRewardFund = .ok (fund, rf))
    (h : db.claimTotals = .ok funds) :
    ∃ f, funds.find? fund = some f ∧ f.rewardBalance = rf.rewardBalance ∧ f.deltaAwarded = 0 ∧
      (f.recentClaims : Int) =
        ((RewardFund.decay rf db.headBlockTime).recentClaims + db.dueClaims rf) % 2 ^ 128 := by
  obtain ⟨hdecayed, hrow⟩ := getRewardFund_decayFunds hfund
  have hstart : (db.decayFunds.rewardFunds.map fun rf : RewardFund =>
      (⟨rf.recentClaims, rf.rewardBalance, 0⟩ : RewardFundContext)).find? fund =
        some ⟨(RewardFund.decay rf db.headBlockTime).recentClaims, rf.rewardBalance, 0⟩ := by
    rw [Table.find?_map, decayFunds, Table.find?_map, hrow]
    rfl
  have hall := addClaims_fund hdecayed _ h hstart (decay_recentClaims _ (hdb.claims _ _ hrow)).1
  refine ⟨_, hall, rfl, rfl, ?_⟩
  have hsum : db.dueClaims rf = ((db.dueComments.map fun id =>
      ((db.comments.find? id).map (claim (RewardFund.decay rf db.headBlockTime))).getD 0).sum : Nat) := by
    rw [dueClaims, dueSum_eq, Nat.cast_list_sum, List.map_map]
    refine congrArg List.sum (map_congr_left fun id _ => ?_)
    rw [Function.comp_apply]
    cases db.comments.find? id <;> rfl
  rw [hsum]
  rfl

theorem claimTotals_other (hfund : db.getRewardFund = .ok (fund, rf))
    (h : db.claimTotals = .ok funds) (hj : j ≠ fund) (hf : funds.find? j = some f) :
    ∃ rf, db.rewardFunds.find? j = some rf ∧ f.rewardBalance = rf.rewardBalance ∧ f.deltaAwarded = 0 := by
  have hsame := foldlM_induct (fun fs => fs.find? j = find? _ j) (fun id _ fs fs' hfs hadd => by
    obtain ⟨c, -, ⟨-, rfl⟩ | rfl⟩ := addClaim_eq (getRewardFund_decayFunds hfund).1 hadd
    · exact hfs
    · rw [find?_modify_ne _ _ hj, hfs]) rfl h
  rw [hsame, Table.find?_map, decayFunds, Table.find?_map] at hf
  cases hrow : db.rewardFunds.find? j with
  | none => simp [hrow] at hf
  | some rf =>
    rw [hrow] at hf
    cases hf
    exact ⟨rf, rfl, rfl, rfl⟩

/-- If the total has all claims, the parts of the comments that are due are within the fund. -/
theorem dueSum_part_le {balance : Int} {total : Nat} (hbalance : 0 ≤ balance)
    (htotal : db.dueClaims rf ≤ total) :
    db.dueSum (fun c => Shares.part balance (claim rf c) total) ≤ balance := by
  have hparts : db.dueSum (fun c => part balance (claim rf c) total) =
      (db.comments.entries.map fun e => part balance
        (if e.2.cashoutTime ≤ db.headBlockTime then (claim rf e.2 : Int) else 0) total).sum := by
    refine congrArg List.sum (map_congr_left fun e _ => ?_)
    by_cases hdue : e.2.cashoutTime ≤ db.headBlockTime
    · rw [if_pos hdue]
      exact if_pos hdue
    · rw [if_neg hdue, part, mul_zero, Int.zero_ediv]
      exact if_neg hdue
  rw [hparts]
  rcases Nat.eq_zero_or_pos total with rfl | hpos
  · -- a part of nothing is nothing
    simp only [part, Nat.cast_zero, Int.ediv_zero, map_const', sum_replicate, smul_zero]
    exact hbalance
  · exact sum_part_le hbalance
      (fun e : Nat × Comment => if e.2.cashoutTime ≤ db.headBlockTime then (claim rf e.2 : Int) else 0)
      (by exact_mod_cast hpos) _ htotal

/-- What is written back leaves no fund with less than nothing. -/
theorem storeFunds_balance
    (hfunds : ∀ j f, funds.find? j = some f → f.deltaAwarded ≤ f.rewardBalance)
    (hrows : ∀ j rf, db.rewardFunds.find? j = some rf → 0 ≤ rf.rewardBalance ∧
      ∀ f, funds.find? j = some f → f.rewardBalance = rf.rewardBalance)
    (h : funds.entries.foldlM storeFund db = .ok db') :
    ∀ j rf, db'.rewardFunds.find? j = some rf → 0 ≤ rf.rewardBalance := by
  -- the rows still to be written are as they were
  let I (l : List (Nat × RewardFundContext)) (s : Database) : Prop :=
    (l.map Prod.fst).Nodup ∧ (∀ e ∈ l, e.2.deltaAwarded ≤ e.2.rewardBalance) ∧
      ∀ j rf, s.rewardFunds.find? j = some rf → 0 ≤ rf.rewardBalance ∧
        ∀ e ∈ l, e.1 = j → e.2.rewardBalance = rf.rewardBalance
  have hstart : I funds.entries db :=
    ⟨funds.nodup, fun e he => hfunds e.1 e.2 (mem_entries_iff.mp he), fun j rf hrf =>
      ⟨(hrows j rf hrf).1, fun e he hej => (hrows j rf hrf).2 e.2 (hej ▸ mem_entries_iff.mp he)⟩⟩
  have hend : I [] db' := by
    refine foldlM_induct_rest I (fun e l s s' ⟨hnodup, hle, hs⟩ hstore => ?_) hstart h
    simp only [storeFund, eq_ok, get_eq_ok] at hstore
    obtain ⟨rf₀, hrf₀, rfl⟩ := hstore
    rw [map_cons, nodup_cons] at hnodup
    refine ⟨hnodup.2, fun d hd => hle d (mem_cons_of_mem _ hd), fun j rf hrf => ?_⟩
    rw [find?_modify] at hrf
    split at hrf
    · next hj =>
      subst hj
      rw [hrf₀] at hrf
      cases hrf
      refine ⟨?_, fun d hd hdj => absurd (mem_map.mpr ⟨d, hd, hdj⟩) hnodup.1⟩
      have hsame := (hs _ rf₀ hrf₀).2 e mem_cons_self rfl
      have hawarded := hle e mem_cons_self
      show 0 ≤ rf₀.rewardBalance - e.2.deltaAwarded
      omega
    · exact ⟨(hs j rf hrf).1, fun d hd => (hs j rf hrf).2 d (mem_cons_of_mem _ hd)⟩
  exact fun j rf hrf => (hend.2.2 j rf hrf).1

/-- The payouts of a block stay within the funds, if the total has all claims. -/
theorem cashoutDue_funds {db₁ : Database} (hdb : Cashable db)
    (hfund : db.getRewardFund = .ok (fund, rf)) (hclaims : db.claimTotals = .ok funds)
    (htotal : ∀ f, funds.find? fund = some f → db.dueClaims rf ≤ f.recentClaims)
    (h : cashoutDue rewardVesting db.comments.entries.length db.decayFunds funds = .ok (db₁, funds')) :
    (∀ j f, funds'.find? j = some f → f.deltaAwarded ≤ f.rewardBalance) ∧
      ∀ j rf, db₁.rewardFunds.find? j = some rf → 0 ≤ rf.rewardBalance ∧
        ∀ f, funds'.find? j = some f → f.rewardBalance = rf.rewardBalance := by
  obtain ⟨hdecayed, hrow⟩ := getRewardFund_decayFunds hfund
  obtain ⟨f, hf, hbalance, hawarded, -⟩ := claimTotals_fund hdb hfund hclaims
  have hstart : Partway fund (RewardFund.decay rf db.headBlockTime) db.decayFunds f := by
    refine ⟨hdecayed, hdb.time, fun id c hc hdue => ?_, by rw [hbalance]; exact hdb.balance _ _ hrow, ?_⟩
    · have hpayable := hdb.comments id c hc hdue
      exact ⟨hpayable.rewardWeight, hpayable.total, hpayable.weights⟩
    · rw [hawarded, zero_add]
      exact dueSum_part_le (by rw [hbalance]; exact hdb.balance _ _ hrow) (htotal f hf)
  have hpercent : (RewardFund.decay rf db.headBlockTime).percentCurationRewards ≤ percent100 :=
    hdb.percent fund rf hrow
  obtain ⟨⟨f', hf', hbalance', hend⟩, hothers, hfunds⟩ :=
    cashoutDue_within hpercent hf hstart h
  refine ⟨fun j d hd => ?_, fun j rf' hrf' => ?_⟩
  · by_cases hj : j = fund
    · subst hj
      obtain rfl := mem_unique hf' hd
      exact hend.awarded_le
    · rw [hothers j hj] at hd
      obtain ⟨rf', hrf', hsame, hnone⟩ := claimTotals_other hfund hclaims hj hd
      rw [hsame, hnone]
      exact hdb.balance j rf' hrf'
  · rw [hfunds, decayFunds, Table.find?_map] at hrf'
    obtain ⟨rf₀, hrf₀, rfl⟩ := map_eq_some_iff.mp hrf'
    refine ⟨hdb.balance j rf₀ hrf₀, fun d hd => ?_⟩
    by_cases hj : j = fund
    · subst hj
      obtain rfl := mem_unique hf' hd
      obtain rfl := mem_unique hrow hrf₀
      exact hbalance'.trans hbalance
    · rw [hothers j hj] at hd
      obtain ⟨rf', hrf', hsame, -⟩ := claimTotals_other hfund hclaims hj hd
      obtain rfl := mem_unique hrf' hrf₀
      exact hsame

/-- **A block** lets claims decay, counts all claims that are due and pays no more than a fund has, if and
only if no fund decays by more than it has and the total of the fund that pays fits. -/
theorem cashout_within_iff {funds : Table Nat RewardFundContext} (hdb : Cashable db)
    (hfund : db.getRewardFund = .ok (fund, rf)) (hclaims : db.claimTotals = .ok funds)
    (hfits : db.dueClaims rf < 2 ^ 128) :
    WithinFunds db fund rf funds ↔
      (∀ j rf, db.rewardFunds.find? j = some rf → decayedPart rf db.headBlockTime ≤ rf.recentClaims) ∧
        (RewardFund.decay rf db.headBlockTime).recentClaims + db.dueClaims rf < 2 ^ 128 := by
  obtain ⟨-, hrow⟩ := getRewardFund_decayFunds hfund
  obtain ⟨f, hf, -, -, htotal⟩ := claimTotals_fund hdb hfund hclaims
  have hdecay := (decay_recentClaims db.headBlockTime (hdb.claims _ _ hrow)).1
  constructor
  · intro h
    refine ⟨fun j rf' hrf' => (decay_recentClaims _ (hdb.claims j rf' hrf')).2.mp (h.decayed j rf' hrf'), ?_⟩
    have hle := h.total f hf
    omega
  · rintro ⟨hpart, hsum⟩
    have hcounted : ∀ f, funds.find? fund = some f → db.dueClaims rf ≤ f.recentClaims := by
      intro f' hf'
      obtain rfl := mem_unique hf hf'
      omega
    refine ⟨fun j rf' hrf' => (decay_recentClaims _ (hdb.claims j rf' hrf')).2.mpr (hpart j rf' hrf'),
      hcounted, fun db₁ funds₁ hloop => (cashoutDue_funds hdb hfund hclaims hcounted hloop).1,
      fun db' hrun => ?_⟩
    change (db.claimTotals >>= _) = _ at hrun
    simp only [hclaims, ok_bind, bind_eq_ok] at hrun
    obtain ⟨⟨db₁, funds₁⟩, hloop, hstore⟩ := hrun
    obtain ⟨hawarded, hrows⟩ := cashoutDue_funds hdb hfund hclaims hcounted hloop
    exact storeFunds_balance hawarded hrows hstore

/-- The post with 100 claims in the fund of 1000 DELTA, in a block some seconds after the last. -/
def postAfter (seconds : Nat) : Database :=
  { Rewards.onePost 5000 10 with
    props := { (Rewards.onePost 5000 10).props with time := genesisTime + seconds }
    rewardFunds := (Rewards.onePost 5000 10).rewardFunds.modify 0 fun rf => { rf with recentClaims := 100 } }

theorem postAfter_cashable (seconds : Nat) (h : seconds < 2 ^ 31) : Cashable (postAfter seconds) := by
  have hfunds : ∀ (P : RewardFund → Prop), (∀ e ∈ (postAfter seconds).rewardFunds.entries, P e.2) →
      ∀ j rf, (postAfter seconds).rewardFunds.find? j = some rf → P rf := fun P hP j rf hrf =>
    hP (j, rf) (mem_entries_iff.mpr hrf)
  refine ⟨?_, hfunds _ ?_, hfunds _ ?_, hfunds _ ?_, fun id c hc _ => ?_⟩
  · show genesisTime + seconds < timePointSecMaximum
    unfold genesisTime timePointSecMaximum
    omega
  · exact fun e he => by obtain rfl := mem_singleton.mp he; decide
  · exact fun e he => by obtain rfl := mem_singleton.mp he; decide
  · exact fun e he => by obtain rfl := mem_singleton.mp he; decide
  · have he := mem_entries_iff.mpr hc
    obtain ⟨rfl, rfl⟩ := Prod.mk.inj (mem_singleton.mp he)
    exact ⟨by decide, by decide, show ((Rewards.onePost 5000 10).curators 0 |>.map (·.weight)).sum ≤ 10 by
      decide +kernel⟩

/-- A day after the last block the fund keeps within its 1000 DELTA. -/
theorem cashout_within_day : ∃ rf funds, (postAfter 86400).getRewardFund = .ok (0, rf) ∧
    (postAfter 86400).claimTotals = .ok funds ∧ WithinFunds (postAfter 86400) 0 rf funds := by
  have hfund : (postAfter 86400).getRewardFund = .ok (0, _) := rfl
  obtain ⟨funds, htotals⟩ : ∃ funds, (postAfter 86400).claimTotals = .ok funds := by decide +kernel
  refine ⟨_, funds, rfl, htotals, (cashout_within_iff (postAfter_cashable 86400 (by decide)) hfund
    htotals (by decide +kernel)).mpr ⟨fun j rf hrf => ?_, by decide +kernel⟩⟩
  have he := mem_singleton.mp (mem_entries_iff.mpr hrf)
  cases he
  decide +kernel

/-- Sixteen days after the last block 106 of the 100 claims are subtracted. The total is 94 then, the post
has a claim of 100, and it is paid 1063 of the 1000 DELTA. -/
theorem cashout_overdraws : (∃ rf, (postAfter 1382400).getRewardFund = .ok (0, rf) ∧
      rf.recentClaims = 100 ∧ rf.rewardBalance = 1000 ∧ (postAfter 1382400).dueClaims rf = 100 ∧
      100 < (RewardFund.decay rf (postAfter 1382400).headBlockTime).recentClaims) ∧
    (∃ db' rf, processCommentCashout rewardVesting (postAfter 1382400) = .ok db' ∧
      db'.rewardFunds.find? 0 = some rf ∧ rf.recentClaims = 94 ∧ rf.rewardBalance = -63) := by
  refine ⟨⟨_, rfl, rfl, rfl, by decide +kernel, by decide +kernel⟩, ?_⟩
  simp only [exists_and_left]
  decide +kernel

end DeltaChain.Ledger.Database

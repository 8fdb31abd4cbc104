import DeltaChain.Market.Orders
import DeltaChain.Protocol.Authority
import DeltaChain.Protocol.Exchange
import DeltaChain.Rewards.Payments
import DeltaChain.Rewards.Run

/-!
# How a reward is divided

`cashout_comment_helper` divides the reward of a comment: curators, beneficiaries, author, and what an
author or beneficiary gets once more into shares, DELTA and DBD. Every division rounds down. Nothing is
lost or made up on the way but the curators' remainder, which no one gets (`cashout_divides`).

An exchange into DBD can give a negative amount (`exchange_negative`). It does not here: what a comment
could get at most has been exchanged before, to find out whether it is dust, and a negative value is
(`getRshareReward_priced`).
-/

namespace DeltaChain.Ledger

open Lib Protocol Checked List Shares

-- # Beneficiaries

/-- The checks that `validate` makes of each beneficiary, with the sum of the weights so far. -/
def addWeight (sum : Nat) (b : Beneficiary) : Checked Nat := do
  assert (isValidAccountName b.account = true) ("Account name " ++ b.account ++ " is invalid")
  assert (b.weight ≤ percent100) "Cannot allocate more than 100% of rewards to one account"
  assert (sum + b.weight ≤ percent100) "Cannot allocate more than 100% of rewards to a comment"
  return sum + b.weight

/-- The loop of `validate`, from the second beneficiary on; `prev` is the one before. -/
def validateRest (prev : Beneficiary) (sum : Nat) : List Beneficiary → Checked Unit
  | [] => return ()
  | b :: bs => do
    let sum ← addWeight sum b
    assert (prev.account < b.account)
      "Benficiaries must be specified in sorted order (account ascending)"
    validateRest b sum bs

/-- `comment_payout_beneficiaries::validate`. -/
def validateBeneficiaries (bs : List Beneficiary) : Checked Unit :=
  match bs with
  | [] => .error "Must specify at least one beneficiary"
  | b :: bs => do
    assert ((b :: bs).length < 128) "Cannot specify more than 127 beneficiaries."
    let sum ← addWeight 0 b
    validateRest b sum bs

theorem addWeight_eq_ok {sum sum' : Nat} {b : Beneficiary} (h : addWeight sum b = .ok sum') :
    sum' = sum + b.weight ∧ sum' ≤ percent100 := by
  simp only [addWeight, eq_ok] at h
  obtain ⟨-, -, hle, rfl⟩ := h
  exact ⟨rfl, hle⟩

variable {bs : List Beneficiary}

theorem validateRest_sum {prev : Beneficiary} {sum : Nat} (hsum : sum ≤ percent100)
    (h : validateRest prev sum bs = .ok ()) : sum + (bs.map (·.weight)).sum ≤ percent100 := by
  induction bs generalizing prev sum with
  | nil => exact hsum
  | cons b bs ih =>
    simp only [validateRest, eq_ok] at h
    obtain ⟨sum', hadd, -, hrest⟩ := h
    obtain ⟨rfl, hle⟩ := addWeight_eq_ok hadd
    have := ih hle hrest
    rw [map_cons, sum_cons]
    omega

theorem validateBeneficiaries_sum (h : bs = [] ∨ validateBeneficiaries bs = .ok ()) :
    (bs.map (·.weight)).sum ≤ percent100 := by
  rcases h with rfl | h
  · exact Nat.zero_le _
  · cases bs with
    | nil => exact absurd h (by simp [validateBeneficiaries])
    | cons b bs =>
      simp only [validateBeneficiaries, eq_ok] at h
      obtain ⟨-, sum, hadd, hrest⟩ := h
      obtain ⟨rfl, hle⟩ := addWeight_eq_ok hadd
      have := validateRest_sum hle hrest
      rw [map_cons, sum_cons]
      omega

-- # Exchanging a part of an amount

/-- No part of `amount` DELTA is exchanged for a negative amount. -/
def Priced (p : Price) (amount : Int) : Prop :=
  ∀ x r, 0 ≤ x → x ≤ amount → (⟨x, .delta⟩ : Asset).mul p = .ok r → 0 ≤ r.amount

/-- A quotient that is not negative bounds those of smaller amounts. -/
theorem mulDiv_nonneg {x amount num den r v : Int} {msg msg' : String} (hx : 0 ≤ x) (hle : x ≤ amount)
    (hamount : amount < 2 ^ 63) (hnum : -2 ^ 63 ≤ num ∧ num < 2 ^ 63) (hden : den < 2 ^ 63)
    (hv : mulDiv amount num den msg = .ok v) (hpos : 0 < v) (hr : mulDiv x num den msg' = .ok r) :
    0 ≤ r := by
  have hdpos : 0 < den := by
    simp only [mulDiv, eq_ok] at hv
    exact hv.1
  rcases le_or_gt 0 num with hn | hn
  · -- both products fit, and the quotient of the larger one is in the lower half
    have hbig : amount * num < 2 ^ 128 := by nlinarith
    have hproduct : x * num ≤ amount * num := mul_le_mul_of_nonneg_right hle hn
    obtain ⟨hv64, hv⟩ := (mulDiv_eq_ok (hx.trans hle) hn hbig hdpos).mp hv
    obtain ⟨-, hr⟩ := (mulDiv_eq_ok hx hn (hproduct.trans_lt hbig) hdpos).mp hr
    have hquotient : x * num / den ≤ amount * num / den := Int.ediv_le_ediv hdpos hproduct
    have hnonneg : 0 ≤ x * num / den := Int.ediv_nonneg (mul_nonneg hx hn) hdpos.le
    split at hv <;> split at hr <;> omega
  · -- a negative product wraps around to a quotient that does not fit
    rcases eq_or_lt_of_le hx with rfl | hxpos
    · simp only [mulDiv, eq_ok, zero_mul] at hr
      obtain ⟨-, -, rfl⟩ := hr
      simp [toInt64]
    · have hneg : amount * num < 0 := mul_neg_of_pos_of_neg (hxpos.trans_le hle) hn
      have hlow : -2 ^ 126 ≤ amount * num := by nlinarith
      exact absurd (mulDiv_product_nonneg hlow hden hv) (not_le.mpr hneg)

/-- If an amount is exchanged for a positive amount, no part of it is exchanged for a negative one. -/
theorem priced_of_mul {p : Price} {amount : Int} {v : Asset} (hamount : amount < 2 ^ 63)
    (hbase : Asset.Fits p.base) (hquote : Asset.Fits p.quote)
    (hv : (⟨amount, .delta⟩ : Asset).mul p = .ok v) (hpos : 0 < v.amount) : Priced p amount := by
  unfold Asset.Fits int64Min int64Max at hbase hquote
  intro x r hx hle hr
  unfold AssetOf.mul at hv hr
  split_ifs at hv hr
  -- either side of the price may be the one in DELTA
  all_goals
    simp only [eq_ok] at hv hr
    obtain ⟨v, hv, rfl⟩ := hv
    obtain ⟨r, hr, rfl⟩ := hr
    exact mulDiv_nonneg hx hle hamount (by omega) (by omega) hv hpos hr

/-- **A reward** fits, and is worth something, in all its parts. -/
theorem getRshareReward_priced {ctx : CommentRewardContext} {reward : Nat}
    (hbase : Asset.Fits ctx.currentDeltaPrice.base) (hquote : Asset.Fits ctx.currentDeltaPrice.quote)
    (h : getRshareReward ctx = .ok reward) (hpos : 0 < reward) :
    reward < 2 ^ 63 ∧ Priced ctx.currentDeltaPrice reward := by
  simp only [getRshareReward, isCommentPayoutDust, eq_ok] at h
  obtain ⟨-, -, claim, -, hmax, dust, ⟨value, hvalue, -, rfl⟩, maxDelta, -, rfl⟩ := h
  unfold int64Max at hmax
  -- dust is worth nothing
  have hworth : ¬ value.amount < minPayoutDbd := by
    intro hdust
    rw [decide_eq_true hdust, if_pos rfl, Nat.zero_min] at hpos
    exact absurd hpos (Nat.lt_irrefl 0)
  rw [decide_eq_false hworth, if_neg Bool.false_ne_true]
  unfold minPayoutDbd at hworth
  refine ⟨by omega, ?_⟩
  simp only [toDbd, eq_ok] at hvalue
  obtain ⟨-, hvalue⟩ := hvalue
  split at hvalue
  · -- at no price all is dust
    cases hvalue
    exact absurd (show (0 : Int) < 20 by decide) hworth
  · have hpriced := priced_of_mul (by omega) hbase hquote hvalue (by omega)
    intro x r hx hxle
    exact hpriced x r hx (by omega)

namespace Database

variable {db db' db₁ : Database} {c : Comment} {votes : List CommentVote} {percent reward : Nat}
  {pay : Payment} {dollars : Nat} {p : Payout} {tokens : Int}

-- # The parts of a payout

/-- All amounts a payout consists of. -/
def Payout.amounts (p : Payout) : List Int :=
  [p.curationTokens, p.remainder, p.authorTokens, p.authorTokens - p.totalBeneficiary] ++
    p.claims.map Prod.snd ++ p.beneficiaries.map Prod.snd

/-- What holds of the payout of a reward. -/
structure Payout.Divides (p : Payout) (c : Comment) (reward : Nat) : Prop where
  allowed : c.allowCurationRewards = true → p.claimed + p.remainder = p.curationTokens
  forbidden : c.allowCurationRewards = false → p.claimed = 0 ∧ p.remainder = 0
  nonneg : ∀ x ∈ p.amounts, 0 ≤ x
  beneficiaries : p.totalBeneficiary ≤ p.authorTokens
  claimed_le : p.claimed ≤ p.curationTokens
  total : p.authorTokens + p.curationTokens = reward

theorem claimsOf_nonneg {e : AccountName × Int} (h : e ∈ claimsOf c votes tokens) : 0 ≤ e.2 := by
  unfold claimsOf at h
  split at h
  · have hpos := of_decide_eq_true (mem_filter.mp h).2
    exact hpos.le
  · exact absurd h not_mem_nil

/-- Dropping what is not positive does not make a sum of amounts smaller or larger, if none is
negative. -/
theorem sum_filter_pos (l : List (AccountName × Int)) (h : ∀ e ∈ l, 0 ≤ e.2) :
    ((l.filter fun e => decide (0 < e.2)).map Prod.snd).sum = (l.map Prod.snd).sum := by
  induction l with
  | nil => rfl
  | cons e l ih =>
    have htail := ih fun e he => h e (mem_cons_of_mem _ he)
    have hhead := h e mem_cons_self
    rw [filter_cons]
    split
    · rw [map_cons, sum_cons, htail, map_cons, sum_cons]
    · next hzero =>
      have : e.2 = 0 := by
        have := of_decide_eq_false (Bool.eq_false_iff.mpr hzero)
        omega
      rw [htail, map_cons, sum_cons, this, zero_add]

theorem sum_natCast_le {α : Type} (weight : α → Nat) {l : List α} {n : Nat}
    (h : (l.map weight).sum ≤ n) : (l.map fun a => (weight a : Int)).sum ≤ n := by
  have hcast : (l.map fun a => (weight a : Int)).sum = ((l.map weight).sum : Nat) := by
    rw [Nat.cast_list_sum, map_map]
    rfl
  rw [hcast]
  exact_mod_cast h

/-- Curators claim at most what there is for them. -/
theorem sum_claimsOf_le (htokens : 0 ≤ tokens)
    (hweights : (votes.map (·.weight)).sum ≤ c.totalVoteWeight) :
    ((claimsOf c votes tokens).map Prod.snd).sum ≤ tokens := by
  unfold claimsOf
  split
  · next h =>
    have htotal : (0 : Int) < c.totalVoteWeight := by exact_mod_cast h.2
    rw [sum_filter_pos _ fun e he => ?_, map_map]
    · exact sum_part_le htokens (fun v : CommentVote => (v.weight : Int)) htotal votes
        (sum_natCast_le CommentVote.weight hweights)
    · obtain ⟨v, -, rfl⟩ := mem_map.mp he
      exact part_nonneg htokens (Int.natCast_nonneg _) htotal.le
  · exact htokens

/-- **The payout** of every reward divides it. -/
theorem payoutOf_divides (hpercent : percent ≤ percent100)
    (hweights : (votes.map (·.weight)).sum ≤ c.totalVoteWeight)
    (hbeneficiaries : (c.beneficiaries.map (·.weight)).sum ≤ percent100) :
    (payoutOf c votes percent reward).Divides c reward := by
  set p := payoutOf c votes percent reward with hp
  have htotal : p.authorTokens + p.curationTokens = reward := Int.sub_add_cancel _ _
  have hcuration : 0 ≤ p.curationTokens :=
    part_nonneg (Int.natCast_nonneg _) (Int.natCast_nonneg _) (Int.natCast_nonneg _)
  have hle : p.curationTokens ≤ reward :=
    part_le (Int.natCast_nonneg _) (by exact_mod_cast hpercent) (by decide)
  have hauthor : 0 ≤ p.authorTokens := by omega
  have hclaimed : p.claimed ≤ p.curationTokens := sum_claimsOf_le hcuration hweights
  have hpaid : p.totalBeneficiary ≤ p.authorTokens := by
    have hparts := sum_part_le hauthor (fun b : Beneficiary => (b.weight : Int)) (by decide)
      c.beneficiaries (sum_natCast_le Beneficiary.weight hbeneficiaries)
    rw [Payout.totalBeneficiary, hp, payoutOf, map_map]
    exact hparts
  have hremainder : p.remainder =
      if c.allowCurationRewards then p.curationTokens - p.claimed else 0 := rfl
  refine ⟨fun h => ?_, fun h => ?_, fun x hx => ?_, hpaid, hclaimed, htotal⟩
  · rw [hremainder, if_pos h]
    omega
  · refine ⟨?_, by rw [hremainder, if_neg (by simp [h])]⟩
    have hnone : p.claims = [] := if_neg fun h' => by simp [h] at h'
    rw [Payout.claimed, hnone]
    rfl
  · simp only [Payout.amounts, mem_append, mem_cons, not_mem_nil, or_false,
      mem_map] at hx
    rcases hx with ((rfl | rfl | rfl | rfl) | ⟨e, he, rfl⟩) | ⟨e, he, rfl⟩
    · exact hcuration
    · rw [hremainder]
      split <;> omega
    · exact hauthor
    · omega
    · exact claimsOf_nonneg he
    · obtain ⟨b, -, rfl⟩ := mem_map.mp he
      exact part_nonneg hauthor (Int.natCast_nonneg _) (Int.natCast_nonneg _)

theorem Payout.sum_payments (p : Payout) (author : AccountName) :
    ((p.payments author).map Payment.value).sum = p.authorTokens + p.claimed := by
  have hclaims : (p.claims.map fun e => Payment.curation e.1 e.2).map Payment.value =
      p.claims.map Prod.snd := by
    rw [map_map]
    rfl
  have hbeneficiaries : (p.beneficiaries.map fun e => Payment.reward e.1 e.2).map Payment.value =
      p.beneficiaries.map Prod.snd := by
    rw [map_map]
    rfl
  simp only [Payout.payments, map_append, sum_append, hclaims, hbeneficiaries,
    map_cons, map_nil, sum_cons, sum_nil, Payment.value]
  show p.claimed + p.totalBeneficiary + _ = _
  ring

-- # The parts of a payment

/-- The amounts a payment is made in. The tokens of an author or a beneficiary are the DELTA that are
made shares and those that are not; of these some are exchanged for DBD. -/
def Payment.parts (percentDeltaDollars : Nat) (db : Database) : Payment → Checked (List Int)
  | .curation _ claim => return [claim]
  | .reward name tokens => do
    let dbdDelta := (tokens * percentDeltaDollars).tdiv (2 * percent100)
    let (_, dbdPayout, deltaPayout) ← db.createDbd name ⟨dbdDelta, .delta⟩ true
    return [tokens, tokens - dbdDelta, dbdDelta, dbdDelta - deltaPayout.amount, deltaPayout.amount,
      dbdPayout.amount]

theorem createDbd_nonneg {name : AccountName} {delta dbdPayout deltaPayout : Asset} {toReward : Bool}
    (hrate : db.props.dbdPrintRate ≤ percent100) (hdelta : 0 ≤ delta.amount)
    (hpriced : Priced db.medianHistory delta.amount)
    (h : db.createDbd name delta toReward = .ok (db', dbdPayout, deltaPayout)) :
    0 ≤ dbdPayout.amount ∧ 0 ≤ deltaPayout.amount ∧ deltaPayout.amount ≤ delta.amount := by
  unfold createDbd at h
  split at h
  · obtain ⟨-, rfl, rfl⟩ := h
    exact ⟨le_rfl, le_rfl, hdelta⟩
  · split at h
    · simp only [eq_ok, Prod.mk.injEq] at h
      obtain ⟨db₁, -, -, rfl, rfl⟩ := h
      exact ⟨le_rfl, hdelta, le_rfl⟩
    · have hpart : ((db.props.dbdPrintRate : Int) * delta.amount).tdiv percent100 =
          part delta.amount db.props.dbdPrintRate percent100 := by
        rw [Int.tdiv_eq_ediv_of_nonneg (mul_nonneg (Int.natCast_nonneg _) hdelta), mul_comm]
        rfl
      have hnonneg := part_nonneg hdelta (Int.natCast_nonneg db.props.dbdPrintRate)
        (Int.natCast_nonneg percent100)
      have hle : part delta.amount db.props.dbdPrintRate percent100 ≤ delta.amount :=
        part_le hdelta (by exact_mod_cast hrate) (by decide)
      simp only [hpart, eq_ok, Prod.mk.injEq] at h
      obtain ⟨dbd, hmul, db₁, -, db₂, -, db₃, -, -, rfl, rfl⟩ := h
      exact ⟨hpriced _ _ hnonneg hle hmul, Int.sub_nonneg.mpr hle, Int.sub_le_self _ hnonneg⟩

/-- **No part of a payment** is negative. -/
theorem Payment.parts_nonneg {amounts : List Int}
    (hrate : db.props.dbdPrintRate ≤ percent100) (hdollars : dollars ≤ percent100)
    (hvalue : 0 ≤ pay.value) (hpriced : Priced db.medianHistory pay.value)
    (h : pay.parts dollars db = .ok amounts) : ∀ x ∈ amounts, 0 ≤ x := by
  cases pay with
  | curation voter claim =>
    cases h
    intro x hx
    rw [mem_singleton.mp hx]
    exact hvalue
  | reward name tokens =>
    have hpart : (tokens * (dollars : Int)).tdiv (2 * percent100) =
        part tokens dollars (2 * percent100) :=
      Int.tdiv_eq_ediv_of_nonneg (mul_nonneg hvalue (Int.natCast_nonneg _))
    have hnonneg : 0 ≤ part tokens dollars (2 * percent100) :=
      part_nonneg hvalue (Int.natCast_nonneg _) (by decide)
    have hle : part tokens dollars (2 * percent100) ≤ tokens := by
      refine part_le hvalue ?_ (by decide)
      omega
    simp only [Payment.parts, hpart, eq_ok] at h
    obtain ⟨⟨db₁, dbdPayout, deltaPayout⟩, hdbd, rfl⟩ := h
    have hpaid := createDbd_nonneg hrate hnonneg
      (fun x r hx hxle => hpriced x r hx (hxle.trans hle)) hdbd
    obtain ⟨h₁, h₂, h₃⟩ : 0 ≤ dbdPayout.amount ∧ 0 ≤ deltaPayout.amount ∧
      deltaPayout.amount ≤ part tokens dollars (2 * percent100) := hpaid
    intro x hx
    simp only [mem_cons, not_mem_nil, or_false] at hx
    omega

theorem Payment.make_rewarding (h : pay.make rewardVesting dollars db = .ok db') :
    Rewarding db db' := by
  cases pay with
  | curation voter claim =>
    simp only [Payment.make, eq_ok] at h
    obtain ⟨a, -, db₁, hvest, rfl⟩ := h
    exact (rewardVesting_rewarding hvest).trans .modifyAccount
  | reward name tokens =>
    simp only [Payment.make, eq_ok] at h
    obtain ⟨⟨db₁, paid⟩, hpay, rfl⟩ := h
    simp only [payTokens, eq_ok, Prod.mk.injEq] at hpay
    obtain ⟨a, -, ⟨db₁, dbdPayout, deltaPayout⟩, hdbd, db₂, hvest, rfl, -⟩ := hpay
    exact (createDbd_rewarding hdbd).trans (rewardVesting_rewarding hvest)

theorem payments_rewarding {pays : List Payment}
    (h : pays.foldlM (Payment.make rewardVesting dollars) db = .ok db') : Rewarding db db' :=
  foldlM_induct (Rewarding db) (fun _ _ _ _ hprev hmake => hprev.trans (Payment.make_rewarding hmake))
    .refl h

-- # The payout of a comment

/-- The context of a comment's reward, with what `fill_comment_reward_context_local_state` fills in. -/
def localContext (ctx : CommentRewardContext) (c : Comment) (rf : RewardFund) :
    CommentRewardContext :=
  { ctx with
    rshares := c.netRshares
    rewardWeight := c.rewardWeight
    maxDbd := ⟨c.maxAcceptedPayout, .dbd⟩
    rewardCurve := rf.authorRewardCurve
    contentConstant := rf.contentConstant }

/-- A comment has been paid out: the payments have been made, none of them in a negative part, and apart
from them only the books of the comment and of its author have changed. -/
structure PaidOut (db : Database) (id : Nat) (c : Comment) (p : Payout) (pays : List Payment)
    (db' : Database) (claimed : Int) : Prop where
  made : ∃ db₁ f, pays.foldlM (Payment.make rewardVesting c.percentDeltaDollars) db = .ok db₁ ∧
    db' = { (db₁.modifyComment id f).modifyAccount c.author fun a =>
        { a with postingRewards := a.postingRewards + (p.authorTokens - p.totalBeneficiary) } with
      commentVotes := db.commentVotes.filter fun k _ => k.1 ≠ id }
  curators : pays ≠ [] →
    ∃ db₁, payCuratorsRemainder rewardVesting db id c p.curationTokens = .ok (db₁, p.claimed, p.remainder)
  parts : ∀ before pay after db₁ amounts, pays = before ++ pay :: after →
    before.foldlM (Payment.make rewardVesting c.percentDeltaDollars) db = .ok db₁ →
    pay.parts c.percentDeltaDollars db₁ = .ok amounts → ∀ x ∈ amounts, 0 ≤ x
  total : (pays.map Payment.value).sum = claimed

/-- Every payment of a payout is between nothing and the reward. -/
theorem Payout.Divides.payment_le (h : p.Divides c reward) {author : AccountName}
    (hpay : pay ∈ p.payments author) : 0 ≤ pay.value ∧ pay.value ≤ reward := by
  have hnonneg : ∀ y ∈ (p.payments author).map Payment.value, 0 ≤ y := by
    intro y hy
    refine h.nonneg y ?_
    simp only [Payout.payments, map_append, map_map, mem_append, mem_map,
      map_cons, map_nil, mem_singleton] at hy
    simp only [Payout.amounts, mem_append, mem_cons, mem_map, not_mem_nil, or_false]
    rcases hy with (⟨e, he, rfl⟩ | ⟨e, he, rfl⟩) | rfl
    · exact Or.inl (Or.inr ⟨e, he, rfl⟩)
    · exact Or.inr ⟨e, he, rfl⟩
    · exact Or.inl (Or.inl (Or.inr (Or.inr (Or.inr rfl))))
  have hmem : pay.value ∈ (p.payments author).map Payment.value := mem_map_of_mem hpay
  refine ⟨hnonneg _ hmem, (single_le_sum hnonneg _ hmem).trans ?_⟩
  rw [p.sum_payments]
  have := h.claimed_le
  have := h.total
  omega

theorem Payout.Divides.authorTokens_zero (h : p.Divides c 0) :
    p.authorTokens - p.totalBeneficiary = 0 := by
  have hcuration := h.nonneg p.curationTokens (by simp [Payout.amounts])
  have hauthor := h.nonneg (p.authorTokens - p.totalBeneficiary) (by simp [Payout.amounts])
  have hsum : 0 ≤ p.totalBeneficiary :=
    sum_nonneg fun x hx => h.nonneg x (by simp [Payout.amounts, hx])
  have := h.total
  omega

theorem payReward_paidOut {id : Nat} {claimed : Int} (hreward : reward < 2 ^ 63)
    (hpercent : percent ≤ percent100) (htotal : c.totalVoteWeight < 2 ^ 64)
    (hweights : ((db.curators id).map (·.weight)).sum ≤ c.totalVoteWeight)
    (hbeneficiaries : (c.beneficiaries.map (·.weight)).sum ≤ percent100)
    (hdollars : c.percentDeltaDollars ≤ percent100) (hrate : db.props.dbdPrintRate ≤ percent100)
    (hpriced : Priced db.medianHistory reward)
    (h : payReward rewardVesting db id c percent reward = .ok (db₁, claimed)) (time : Nat) :
    let p := payoutOf c (db.curators id) percent reward
    let db₂ := db₁.modifyComment id fun c => Comment.cashedOut c time
    PaidOut db id c p (p.payments c.author)
      { db₂ with commentVotes := db₂.commentVotes.filter fun k _ => k.1 ≠ id } claimed := by
  intro p db₂
  have hdivides : p.Divides c reward := payoutOf_divides hpercent hweights hbeneficiaries
  have hweight : ∀ v ∈ db.curators id, v.weight ≤ c.totalVoteWeight := fun v hv =>
    (single_le_sum (fun _ _ => Nat.zero_le _) _ (mem_map_of_mem hv)).trans hweights
  obtain ⟨db₃, hmake, hclaimed, hcurators, f, rfl⟩ :=
    payReward_makes hreward hpercent htotal hweight h
  have hvotes : db₃.commentVotes = db.commentVotes := (payments_rewarding hmake).commentVotes
  refine ⟨⟨db₃, (fun c => Comment.cashedOut c time) ∘ f, hmake, ?_⟩, fun _ => hcurators, ?_, ?_⟩
  · rw [← modifyComment_modifyComment, ← hvotes]
    rfl
  · intro before pay after db₄ amounts hpays hbefore hparts
    have hpay : pay ∈ p.payments c.author := by
      rw [hpays]
      exact mem_append_right _ mem_cons_self
    have hsame := payments_rewarding hbefore
    obtain ⟨hvalue, hle⟩ := hdivides.payment_le hpay
    refine Payment.parts_nonneg (by rw [hsame.printRate]; exact hrate) hdollars hvalue ?_ hparts
    rw [hsame.medianHistory]
    exact fun x r hx hxle => hpriced x r hx (hxle.trans hle)
  · rw [p.sum_payments, hclaimed]

theorem paidOut_nothing (id time : Nat) (hp : p.Divides c 0) :
    let db₁ := db.modifyComment id fun c => Comment.cashedOut c time
    PaidOut db id c p []
      { db₁ with commentVotes := db₁.commentVotes.filter fun k _ => k.1 ≠ id } 0 := by
  intro db₁
  refine ⟨⟨db, fun c => Comment.cashedOut c time, rfl, ?_⟩, fun h => absurd rfl h, ?_, rfl⟩
  · have hsame : db₁.modifyAccount c.author (fun a =>
        { a with postingRewards := a.postingRewards + (p.authorTokens - p.totalBeneficiary) }) = db₁ := by
      have htable : db₁.accounts.modify c.author (fun a =>
          { a with postingRewards := a.postingRewards + (p.authorTokens - p.totalBeneficiary) }) =
          db₁.accounts := by
        refine Table.ext_find (Table.keys_modify _ _ _) fun k => ?_
        rw [Table.find?_modify, hp.authorTokens_zero]
        split <;> simp
      rw [modifyAccount, htable]
    rw [hsame]
    rfl
  · intro before pay after db₁ amounts hpays
    exact absurd hpays.symm (by simp)

/-- **A comment that is paid out** is paid what its payout says. With votes whose weights add up to
the total at most and beneficiaries that were accepted, curators' claims and the remainder are the
curation tokens, or both nothing if curation is not allowed; no amount on the way is negative; beneficiaries get
no more than the author's tokens; and all payments together are worth the claimed reward, at most the
reward. -/
theorem cashout_divides (ctx : CommentRewardContext) {id fund : Nat} {rf : RewardFund} {claimed : Int}
    (hcomment : db.comments.find? id = some c) (hfund : db.getRewardFund = .ok (fund, rf))
    (hpercent : rf.percentCurationRewards ≤ percent100)
    (hweights : ((db.curators id).map (·.weight)).sum ≤ c.totalVoteWeight)
    (htotal : c.totalVoteWeight < 2 ^ 64)
    (hbeneficiaries : c.beneficiaries = [] ∨ validateBeneficiaries c.beneficiaries = .ok ())
    (hdollars : c.percentDeltaDollars ≤ percent100) (hrate : db.props.dbdPrintRate ≤ percent100)
    (hprice : ctx.currentDeltaPrice = db.medianHistory)
    (hfits : Asset.Fits db.medianHistory.base ∧ Asset.Fits db.medianHistory.quote)
    (h : cashoutCommentHelper rewardVesting db ctx id = .ok (db', claimed)) :
    ∃ reward : Nat,
      (0 < c.netRshares → getRshareReward (localContext ctx c rf) = .ok reward) ∧
      (c.netRshares ≤ 0 → reward = 0) ∧
      let p := payoutOf c (db.curators id) rf.percentCurationRewards reward
      p.Divides c reward ∧
      PaidOut db id c p (if 0 < reward then p.payments c.author else []) db' claimed ∧
      claimed ≤ reward := by
  have hsum := validateBeneficiaries_sum hbeneficiaries
  have hdivides : ∀ reward,
      (payoutOf c (db.curators id) rf.percentCurationRewards reward).Divides c reward :=
    fun reward => payoutOf_divides hpercent hweights hsum
  simp only [cashoutCommentHelper, getComment, eq_ok, get_eq_ok, Prod.mk.injEq] at h
  obtain ⟨c', hc', ⟨db₁, claimed'⟩, hpay, rfl, rfl⟩ := h
  obtain rfl : c = c' := Option.mem_unique hcomment hc'
  unfold payComment at hpay
  split at hpay
  · next hpos =>
    simp only [hfund, ok_bind, bind_eq_ok] at hpay
    obtain ⟨reward, hreward, hpay⟩ := hpay
    refine ⟨reward, fun _ => hreward, fun hle => absurd hpos (by omega), hdivides reward, ?_⟩
    split at hpay
    · next hrpos =>
      rw [if_pos hrpos]
      obtain ⟨hlt, hpriced⟩ := getRshareReward_priced (by rw [hprice]; exact hfits.1)
        (by rw [hprice]; exact hfits.2) hreward hrpos
      rw [hprice] at hpriced
      have hpaid := payReward_paidOut hlt hpercent htotal hweights hsum hdollars hrate hpriced hpay
        db₁.headBlockTime
      refine ⟨hpaid, ?_⟩
      rw [← hpaid.total, Payout.sum_payments]
      have := (hdivides reward).claimed_le
      have := (hdivides reward).total
      omega
    · next hzero =>
      obtain rfl : reward = 0 := by omega
      cases hpay
      exact ⟨paidOut_nothing id _ (hdivides 0), le_rfl⟩
  · next hle =>
    cases hpay
    exact ⟨0, fun hpos => absurd hpos (by omega), fun _ => rfl, hdivides 0,
      paidOut_nothing id _ (hdivides 0), le_rfl⟩

/-- The context in which `process_comment_cashout` pays the post. -/
def onePostContext : CommentRewardContext :=
  { rshares := 0
    rewardWeight := 0
    maxDbd := ⟨0, .delta⟩
    totalRewardShares2 := 100
    totalRewardFundDelta := 1000
    currentDeltaPrice := ⟨⟨1, .dbd⟩, ⟨1, .delta⟩⟩
    rewardCurve := .linear
    contentConstant := 0 }

/-- The post gets the whole fund: 250 for the curator, 75 for the beneficiary, 675 for the author. -/
theorem cashout_divides_post : ∃ db' c, (Rewards.onePost 5000 10).comments.find? 0 = some c ∧
    cashoutCommentHelper rewardVesting (Rewards.onePost 5000 10) onePostContext 0 = .ok (db', 1000) ∧
    ∃ reward : Nat, (1000 : Int) ≤ reward ∧
      let p := payoutOf c ((Rewards.onePost 5000 10).curators 0) 2500 reward
      p.Divides c reward ∧
      PaidOut (Rewards.onePost 5000 10) 0 c p (if 0 < reward then p.payments c.author else []) db' 1000 := by
  obtain ⟨⟨db', claimed⟩, h, rfl⟩ : ∃ r, cashoutCommentHelper rewardVesting (Rewards.onePost 5000 10)
      onePostContext 0 = .ok r ∧ r.2 = 1000 := by decide +kernel
  have hfund : (Rewards.onePost 5000 10).getRewardFund = .ok (0, _) := rfl
  have hcomment : (Rewards.onePost 5000 10).comments.find? 0 = some _ := rfl
  obtain ⟨reward, -, -, hdivides, hpaid, hle⟩ := cashout_divides onePostContext hcomment hfund
    (by decide) (by decide +kernel) (by decide) (Or.inr (by decide +kernel)) (by decide) (by decide)
    rfl (by decide) h
  exact ⟨db', _, rfl, h, reward, hle, hdivides, hpaid⟩

end Database

end DeltaChain.Ledger

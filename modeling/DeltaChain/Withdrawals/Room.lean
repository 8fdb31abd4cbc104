import DeltaChain.Voting.Reach
import DeltaChain.Voting.Run
import DeltaChain.Withdrawals.Funds
import DeltaChain.Withdrawals.Rounds

/-!
# When the withdrawal loop fails

A payment first adds what goes over the routes to the shares of those that receive it, and to the
votes of the witnesses they vote for. Only at its end it takes the shares from the account that
withdraws, and from the votes of its witnesses. In between a witness that both sides vote for has
these votes twice, and may have more than there are shares.

In a `Sane` state that is the one thing that can go wrong. A payment succeeds exactly if every witness
has `Room` for what comes in (`payVestingWithdrawal_isOk_iff`), and the loop exactly if all its
payments do.
-/

namespace DeltaChain.Withdrawals

open Lib Protocol Voting Ledger List Option Polls
open Ledger.Database Delegation Checked

/-- The votes are tallied, the totals and the routes are as they should be, and a power-down that is
scheduled has a rate. -/
structure Sane (db : Database) : Prop where
  votes : VotesSound 0 db
  routes : RoutesKept db
  funded : Funded db.props
  powerDown : ∀ name a, db.accounts.find? name = some a →
    a.nextVestingWithdrawal ≠ timePointSecMaximum → 0 < a.vestingWithdrawRate ∧ 0 ≤ a.toWithdraw
  clock : db.headBlockTime < timePointSecMaximum

/-- What a route adds to the votes of a witness. -/
def gainOf (db : Database) (toWithdraw : Int) (witness : AccountName)
    (e : AccountName × WithdrawVestingRoute) : Int :=
  if e.2.autoVest ∧ db.polls.reaches witness maxProxyRecursionDepth e.1 then share toWithdraw e.2
  else 0

/-- What the routes of an account add to the votes of a witness before the account loses its own. -/
def incoming (db : Database) (name witness : AccountName) : Int :=
  ((db.routesFrom name).map (gainOf db (amountOf (db, name)) witness)).sum

/-- Every witness can have what comes in on top of what it has. -/
def Room (db : Database) (name : AccountName) : Prop :=
  ∀ witness ∈ db.witnesses.keys,
    db.polls.votes witness + incoming db name witness ≤ db.props.totalVestingShares

instance (db : Database) (name : AccountName) : Decidable (Room db name) :=
  inferInstanceAs (Decidable (∀ _ ∈ _, _))

variable {db db' : Database} {name witness : AccountName} {a : Account} {x : Int}
  {s s' : Database × Int} {e : AccountName × WithdrawVestingRoute}

theorem gainOf_nonneg (hx : 0 ≤ x) : 0 ≤ gainOf db x witness e := by
  unfold gainOf
  split
  · exact share_nonneg hx _
  · exact le_rfl

-- # The first pass

/-- What holds in the first pass over the routes. -/
structure FirstPass (db : Database) (s : Database × Int) : Prop where
  paying : Paying 0 db s
  proxy : s.1.polls.proxy = db.polls.proxy
  ballots : s.1.polls.ballots = db.polls.ballots
  props : s.1.props = db.props

theorem FirstPass.reaches (h : FirstPass db s) (name : AccountName) :
    s.1.polls.reaches witness maxProxyRecursionDepth name =
      db.polls.reaches witness maxProxyRecursionDepth name :=
  reaches_congr h.proxy h.ballots _ _

theorem polls_deposit (ha : db.accounts.find? name = some a) (d : Int) :
    (db.modifyAccount name fun a => { a with vestingShares := a.vestingShares + d }).polls =
      db.polls.addShares name d :=
  polls_addShares ha rfl rfl rfl

theorem depositVests_firstPass (h : FirstPass db s) (hx : 0 ≤ x) (hsmall : x < 2 ^ 63)
    (hok : depositVests x s e = .ok s') :
    FirstPass db s' ∧ ∀ w, s'.1.polls.votes w = s.1.polls.votes w + gainOf db x w e := by
  have hpaying := depositVests_paying h.paying hok
  have hrouted := routed_eq hx hsmall e.2
  unfold gainOf
  obtain ⟨rfl, hnone⟩ | ⟨d, a, db₁, hauto, hd, -, ha, rfl, hclimb⟩ := depositVests_cases hok
  · refine ⟨h, fun w => ?_⟩
    split
    · next hboth =>
      have hzero := Except.ok.inj (hrouted.symm.trans (hnone hboth.1))
      rw [hzero, add_zero]
    · exact (add_zero _).symm
  · obtain rfl : d = share x e.2 := Except.ok.inj (hd.symm.trans hrouted)
    obtain ⟨hwrites, hpolls⟩ := adjustProxiedWitnessVotes1_ok hclimb
    rw [polls_deposit ha] at hpolls
    refine ⟨⟨hpaying, ?_, ?_, hwrites.props.trans h.props⟩, fun w => ?_⟩
    · exact (congrArg proxy hpolls).trans h.proxy
    · exact (congrArg ballots hpolls).trans h.ballots
    · refine (adjustProxiedWitnessVotes1_votes hclimb).trans ?_
      rw [polls_deposit ha, reaches_addShares, h.reaches]
      simp only [hauto, true_and]
      rfl

/-- **A deposit of shares** succeeds if the witnesses have room for it. -/
theorem depositVests_isOk_iff (h : FirstPass db s) (hx : 0 ≤ x) (hsmall : x < 2 ^ 63)
    (he : e.1 ∈ db.polls.voters) (hfits : ∀ w, s.1.polls.votes w ≤ db.props.totalVestingShares) :
    (∃ s', depositVests x s e = .ok s') ↔
      ∀ w, s.1.polls.votes w + gainOf db x w e ≤ db.props.totalVestingShares := by
  unfold depositVests gainOf
  by_cases hauto : e.2.autoVest
  · rw [if_pos hauto, routed_eq hx hsmall, ok_bind]
    by_cases hpos : share x e.2 > 0
    · obtain ⟨a, ha⟩ := mem_voters.mp (h.paying.voters ▸ he)
      have hsound := h.paying.sound
      have hshares : 0 ≤ s.1.polls.shares e.1 + share x e.2 := by
        have := hsound.nonneg e.1 (mem_voters.mpr ⟨a, ha⟩)
        omega
      have hclimb : (∃ db', (s.1.modifyAccount e.1 fun a =>
            { a with vestingShares := a.vestingShares + share x e.2 }).adjustProxiedWitnessVotes1
              e.1 (share x e.2) = .ok db') ↔
          ∀ w, db.polls.reaches w maxProxyRecursionDepth e.1 →
            s.1.polls.votes w + share x e.2 ≤ db.props.totalVestingShares := by
        rw [hsound.climb_iff (mem_voters.mpr ⟨a, ha⟩) hshares (polls_deposit ha _) rfl, ← h.props]
        simp only [h.reaches]
        rfl
      rw [if_pos hpos, getAccount_eq_ok.mpr ha, ok_bind]
      constructor
      · rintro ⟨s', hok⟩ w
        obtain ⟨db₁, h₁, -⟩ := bind_eq_ok.mp hok
        split
        · next hboth => exact hclimb.mp ⟨db₁, h₁⟩ w hboth.2
        · rw [add_zero]
          exact hfits w
      · intro hroom
        obtain ⟨db₁, h₁⟩ := hclimb.mpr fun w hw => by
          have := hroom w
          rwa [if_pos ⟨hauto, hw⟩] at this
        exact ⟨(db₁, s.2 + share x e.2), bind_eq_ok.mpr ⟨db₁, h₁, rfl⟩⟩
    · -- nothing is deposited
      have hzero : share x e.2 = 0 := by
        have := share_nonneg hx e.2
        omega
      rw [if_neg hpos]
      refine iff_of_true ⟨_, rfl⟩ fun w => ?_
      rw [hzero, ite_self, add_zero]
      exact hfits w
  · rw [if_neg hauto]
    refine iff_of_true ⟨_, rfl⟩ fun w => ?_
    rw [if_neg fun hboth => hauto hboth.1, add_zero]
    exact hfits w

/-- **The first pass** succeeds if the witnesses have room for everything. -/
theorem firstPass_isOk_iff (hx : 0 ≤ x) (hsmall : x < 2 ^ 63) :
    ∀ (l : List (AccountName × WithdrawVestingRoute)) (s : Database × Int), FirstPass db s →
      (∀ e ∈ l, e.1 ∈ db.polls.voters) →
      (∀ w, s.1.polls.votes w ≤ db.props.totalVestingShares) →
      ((∃ s', l.foldlM (depositVests x) s = .ok s') ↔
        ∀ w, s.1.polls.votes w + (l.map (gainOf db x w)).sum ≤ db.props.totalVestingShares) := by
  intro l
  induction l with
  | nil =>
    intro s _ _ hfits
    refine iff_of_true ⟨s, rfl⟩ fun w => ?_
    rw [map_nil, sum_nil, add_zero]
    exact hfits w
  | cons e l ih =>
    intro s hs hvoters hfits
    have hhead := depositVests_isOk_iff hs hx hsmall (hvoters e mem_cons_self) hfits
    simp only [foldlM_cons, bind_eq_ok, map_cons, sum_cons]
    constructor
    · rintro ⟨s', s₁, h₁, hrest⟩ w
      obtain ⟨hs₁, hvotes⟩ := depositVests_firstPass hs hx hsmall h₁
      have hfits₁ : ∀ w, s₁.1.polls.votes w ≤ db.props.totalVestingShares := fun w =>
        (hvotes w).trans_le (hhead.mp ⟨s₁, h₁⟩ w)
      have hroom := (ih s₁ hs₁ (fun e he => hvoters e (mem_cons_of_mem _ he)) hfits₁).mp
        ⟨s', hrest⟩ w
      rwa [hvotes, add_assoc] at hroom
    · intro hroom
      -- what comes later only adds to the votes
      obtain ⟨s₁, h₁⟩ := hhead.mpr fun w => by
        have : 0 ≤ (l.map (gainOf db x w)).sum := sum_nonneg fun y hy => by
          obtain ⟨e, -, rfl⟩ := mem_map.mp hy
          exact gainOf_nonneg hx
        have := hroom w
        omega
      obtain ⟨hs₁, hvotes⟩ := depositVests_firstPass hs hx hsmall h₁
      have hfits₁ : ∀ w, s₁.1.polls.votes w ≤ db.props.totalVestingShares := fun w =>
        (hvotes w).trans_le (hhead.mp ⟨s₁, h₁⟩ w)
      obtain ⟨s', hrest⟩ :=
        (ih s₁ hs₁ (fun e he => hvoters e (mem_cons_of_mem _ he)) hfits₁).mpr fun w => by
          rw [hvotes, add_assoc]
          exact hroom w
      exact ⟨s', s₁, h₁, hrest⟩

-- # The second pass

/-- What holds in the second pass over the routes, with those that are still to come: `total` shares
were there before it, and what was paid and what may come is within the payment. -/
structure SecondPass (db : Database) (off x total : Int)
    (l : List (AccountName × WithdrawVestingRoute)) (s : Database × Int) : Prop where
  paying : Paying off db s
  funded : Funded s.1.props
  rest : s.1.props.totalVestingShares = total - s.2
  known : ∀ e ∈ l, e.1 ∈ db.polls.voters
  budget : s.2 * percent100 + x * percentOf false l ≤ x * percent100

/-- **A deposit of DELTA** succeeds. -/
theorem depositDelta_succeeds {off total : Int} (hx : 0 ≤ x) (hsmall : x < 2 ^ 63) (hle : x ≤ total)
    {l : List (AccountName × WithdrawVestingRoute)} (h : SecondPass db off x total (e :: l) s) :
    ∃ s', depositDelta x s e = .ok s' ∧ SecondPass db off x total l s' := by
  obtain ⟨hpaying, hfunded, hrest, hknown, hbudget⟩ := h
  have hlater : ∀ e' ∈ l, e'.1 ∈ db.polls.voters := fun e' he' =>
    hknown e' (mem_cons_of_mem _ he')
  have hcons : (percentOf false (e :: l) : Int) =
      (if e.2.autoVest = false then e.2.percent else 0 : Nat) + percentOf false l := rfl
  rw [hcons, mul_add] at hbudget
  by_cases hauto : e.2.autoVest
  · rw [if_neg (by rw [hauto]; decide), Nat.cast_zero, mul_zero, zero_add] at hbudget
    refine ⟨s, ?_, hpaying, hfunded, hrest, hlater, hbudget⟩
    rw [depositDelta, if_pos hauto]
    rfl
  · rw [if_pos (by simpa using hauto)] at hbudget
    have hrouted := routed_eq hx hsmall e.2
    have hpart := routed_le hx hrouted
    have hnonneg := share_nonneg hx e.2
    have hbudget' : (s.2 + share x e.2) * percent100 + x * percentOf false l ≤ x * percent100 := by
      linarith
    -- so much is still there
    have hfits : share x e.2 ≤ s.1.props.totalVestingShares := by
      have hlater₀ : 0 ≤ x * percentOf false l := Int.mul_nonneg hx (Int.natCast_nonneg _)
      have hpos : (0 : Int) < percent100 := by decide
      have : s.2 + share x e.2 ≤ x := by
        refine le_of_mul_le_mul_right ?_ hpos
        linarith
      omega
    obtain ⟨sharePrice, converted, hprice, hmul, hfunded'⟩ := hfunded.convert hnonneg hfits
    obtain ⟨a, ha⟩ := mem_voters.mp (hpaying.voters ▸ hknown e mem_cons_self)
    have hok : ∃ s', depositDelta x s e = .ok s' ∧ s'.2 = s.2 + share x e.2 ∧
        s'.1.props = if share x e.2 > 0 then takeOut s.1.props converted.amount (share x e.2)
          else s.1.props := by
      simp only [depositDelta, if_neg hauto, getAccount_eq_ok.mpr ha, ok_bind, hrouted, hprice, hmul]
      by_cases hpos : share x e.2 > 0
      · simp only [if_pos hpos]
        exact ⟨_, rfl, rfl, rfl⟩
      · simp only [if_neg hpos]
        exact ⟨_, rfl, rfl, rfl⟩
    obtain ⟨s', hs', hpaid, hprops⟩ := hok
    refine ⟨s', hs', depositDelta_paying hpaying hs', ?_, ?_, hlater, ?_⟩
    · rw [hprops]
      split
      · exact hfunded'
      · exact hfunded
    · rw [hprops, hpaid]
      split
      · simp only [takeOut]
        omega
      · omega
    · rw [hpaid]
      exact hbudget'

-- # One payment

/-- What is paid to an account that is due. -/
theorem Sane.amount (h : Sane db) (ha : db.accounts.find? name = some a)
    (hnext : a.nextVestingWithdrawal ≤ db.headBlockTime) :
    toWithdrawNow a = .ok (amountOf (db, name)) ∧ 0 ≤ amountOf (db, name) ∧
      amountOf (db, name) ≤ db.props.totalVestingShares := by
  have hclock := h.clock
  obtain ⟨hrate, hasked⟩ := h.powerDown name a ha (by omega)
  have hvoter := mem_voters.mpr ⟨a, ha⟩
  have hshares : 0 ≤ a.vestingShares := by
    rw [← polls_shares ha]
    exact h.votes.nonneg name hvoter
  have hall : a.vestingShares ≤ db.props.totalVestingShares := by
    have htotal := h.votes.total
    rw [add_zero] at htotal
    rw [← polls_shares ha, ← htotal]
    exact Finset.single_le_sum h.votes.nonneg hvoter
  have hsome : ∃ x, toWithdrawNow a = .ok x ∧ 0 ≤ x := by
    unfold toWithdrawNow
    split
    · refine ⟨_, bind_eq_ok.mpr ⟨(), assert_eq_ok.mpr (by omega), rfl⟩, ?_⟩
      exact le_min hshares (Int.tmod_nonneg _ hasked)
    · exact ⟨_, rfl, le_min hshares (by omega)⟩
  obtain ⟨x, hx, hnonneg⟩ := hsome
  have hamount : amountOf (db, name) = x := by
    simp only [amountOf, ha, hx]
    rfl
  rw [hamount]
  exact ⟨hx, hnonneg, (toWithdrawNow_le hx).trans hall⟩

theorem Sane.votes_le (h : Sane db) (w : AccountName) :
    db.polls.votes w ≤ db.props.totalVestingShares := by
  have hle := h.votes.tallied.votes_le h.votes.nonneg w
  rwa [h.votes.total, add_zero] at hle

theorem Sane.firstPass (h : Sane db) : FirstPass db (db, 0) :=
  ⟨⟨by simpa using h.votes, le_rfl, fun _ => le_rfl, rfl⟩, rfl, rfl, rfl⟩

theorem Sane.known (h : Sane db) : ∀ e ∈ db.routesFrom name, e.1 ∈ db.polls.voters := by
  intro e he
  obtain ⟨a, ha⟩ := isSome_iff_exists.mp
    (h.routes.known (name, e.1) e.2 (mem_routesFrom.mp he)).2
  exact mem_voters.mpr ⟨a, ha⟩

/-- Whoever is no witness has no votes, and gets none. -/
theorem Sane.room_iff (h : Sane db) : Room db name ↔
    ∀ w, db.polls.votes w + incoming db name w ≤ db.props.totalVestingShares := by
  refine ⟨fun hroom w => ?_, fun hroom w _ => hroom w⟩
  by_cases hw : w ∈ db.witnesses.keys
  · exact hroom w hw
  · have hnone : ∀ levels c, db.polls.reaches w levels c = false := by
      intro levels
      induction levels with
      | zero =>
        intro c
        rw [reaches]
        split
        · exact decide_eq_false fun hb => hw (h.votes.witness c w hb)
        · rfl
      | succ l ih =>
        intro c
        rw [reaches]
        split
        · exact decide_eq_false fun hb => hw (h.votes.witness c w hb)
        · exact ih _
    have hzero : incoming db name w = 0 := by
      refine sum_eq_zero fun y hy => ?_
      obtain ⟨e, -, rfl⟩ := mem_map.mp hy
      rw [gainOf, hnone]
      exact if_neg fun hboth => absurd hboth.2 Bool.false_ne_true
    rw [hzero, add_zero]
    exact h.votes_le w

theorem giveUp_succeeds {off : Int} (h : VotesSound off db) (ha : db.accounts.find? name = some a)
    (hx : x ≤ a.vestingShares) (converted : Int) (p : GlobalProperties → GlobalProperties)
    (hp : (p db.props).totalVestingShares = db.props.totalVestingShares + off - x) :
    ∃ db', ((db.modifyAccount name fun a => paidOut a x converted).modifyProps p).adjustProxiedWitnessVotes1
      name (-x) = .ok db' := by
  have hvoter := mem_voters.mpr ⟨a, ha⟩
  have hshares : 0 ≤ db.polls.shares name + -x := by
    rw [polls_shares ha]
    omega
  have hpolls : ((db.modifyAccount name fun a => paidOut a x converted).modifyProps p).polls =
      db.polls.addShares name (-x) := polls_addShares ha rfl rfl rfl
  refine (h.climb_iff hvoter hshares hpolls rfl).mpr fun w hw => ?_
  refine (h.reached hvoter hshares hw).2.trans ?_
  change _ ≤ (p db.props).totalVestingShares
  omega

/-- A payment with room succeeds, and leaves the fund as it should be. -/
theorem payVestingWithdrawal_succeeds (h : Sane db) (hdue : Due db name) (hroom : Room db name) :
    ∃ db', db.payVestingWithdrawal name = .ok db' ∧ Funded db'.props := by
  obtain ⟨a, ha, hnext⟩ := hdue
  obtain ⟨hnow, hnonneg, hle⟩ := h.amount ha hnext
  have hsmall := hle.trans_lt h.funded.shares_lt
  -- the two passes
  obtain ⟨s₁, h₁⟩ := (firstPass_isOk_iff hnonneg hsmall _ _ h.firstPass h.known h.votes_le).mpr
    (h.room_iff.mp hroom)
  have hfirst : FirstPass db s₁ := foldlM_induct (FirstPass db)
    (fun _ _ _ _ hs hok => (depositVests_firstPass hs hnonneg hsmall hok).1) h.firstPass h₁
  have hvests := hfirst.paying.nonneg
  have hstart : SecondPass s₁.1 (0 + s₁.2) (amountOf (db, name)) db.props.totalVestingShares
      (db.routesFrom name) (s₁.1, 0) := by
    refine ⟨⟨by simpa using hfirst.paying.sound, le_rfl, fun _ => le_rfl, rfl⟩, ?_, ?_, ?_, ?_⟩
    · rw [hfirst.props]
      exact h.funded
    · rw [hfirst.props, sub_zero]
    · rw [hfirst.paying.voters]
      exact h.known
    · have hpercent : (percentOf false (db.routesFrom name) : Int) ≤ percent100 := by
        have hall : totalPercent db name ≤ percent100 := h.routes.percent name
        have := percentOf_add (db.routesFrom name)
        unfold totalPercent at hall
        omega
      rw [zero_mul, zero_add]
      exact Int.mul_le_mul_of_nonneg_left hpercent hnonneg
  obtain ⟨s₂, h₂, hsecond⟩ := foldlM_total
    (SecondPass s₁.1 (0 + s₁.2) (amountOf (db, name)) db.props.totalVestingShares)
    (fun e l s hs => depositDelta_succeeds hnonneg hsmall hle hs) hstart
  have hfit : amountOf (db, name) - s₂.2 - s₁.2 ≥ 0 := by
    refine h.routes.depositsFit (fun b y hb hy => ?_) a _ s₁ s₂ ha hnow h₁ h₂
    obtain rfl : a = b := mem_unique ha hb
    obtain rfl : amountOf (db, name) = y := Except.ok.inj (hnow.symm.trans hy)
    exact hnonneg
  -- the rest is paid out
  obtain ⟨sharePrice, converted, hprice, hmul, hfunded⟩ := hsecond.funded.convert hfit (by
    rw [hsecond.rest]
    omega)
  obtain ⟨a₂, ha₂⟩ : ∃ a₂, s₂.1.accounts.find? name = some a₂ := by
    rw [← mem_voters, hsecond.paying.voters, hfirst.paying.voters]
    exact mem_voters.mpr ⟨a, ha⟩
  have hshares : amountOf (db, name) ≤ a₂.vestingShares := by
    have hkept := (hfirst.paying.shares name).trans (hsecond.paying.shares name)
    rw [polls_shares ha, polls_shares ha₂] at hkept
    exact (toWithdrawNow_le hnow).trans hkept
  simp only [payVestingWithdrawal, getAccount_eq_ok.mpr ha, ok_bind, hnow, h₁, h₂, hprice, hmul,
    assert, if_pos hfit]
  split
  · obtain ⟨db', hdb'⟩ := giveUp_succeeds hsecond.paying.sound ha₂ hshares converted.amount
      (fun g => takeOut g converted.amount (amountOf (db, name) - s₂.2 - s₁.2)) (by
        simp only [takeOut]
        omega)
    refine ⟨db', hdb', ?_⟩
    rw [(adjustProxiedWitnessVotes1_ok hdb').1.props]
    exact hfunded
  · exact ⟨_, rfl, hfunded⟩

/-- **A payment** succeeds exactly if the witnesses have room. -/
theorem payVestingWithdrawal_isOk_iff (h : Sane db) (hdue : Due db name) :
    (∃ db', db.payVestingWithdrawal name = .ok db') ↔ Room db name := by
  constructor
  · rintro ⟨db', hok⟩
    obtain ⟨a, ha, hnext⟩ := hdue
    obtain ⟨hnow, hnonneg, hle⟩ := h.amount ha hnext
    have hsmall := hle.trans_lt h.funded.shares_lt
    simp only [payVestingWithdrawal, bind_eq_ok, getAccount_eq_ok] at hok
    obtain ⟨b, hb, x, hx, s₁, h₁, -⟩ := hok
    obtain rfl : a = b := mem_unique ha hb
    obtain rfl : amountOf (db, name) = x := Except.ok.inj (hnow.symm.trans hx)
    exact h.room_iff.mpr
      ((firstPass_isOk_iff hnonneg hsmall _ _ h.firstPass h.known h.votes_le).mp ⟨s₁, h₁⟩)
  · intro hroom
    obtain ⟨db', hok, -⟩ := payVestingWithdrawal_succeeds h hdue hroom
    exact ⟨db', hok⟩

/-- **A payment that succeeds** leaves a sane state. -/
theorem payVestingWithdrawal_sane (h : Sane db) (hdue : Due db name)
    (hok : db.payVestingWithdrawal name = .ok db') : Sane db' := by
  obtain ⟨db₁, h₁, hfunded⟩ := payVestingWithdrawal_succeeds h hdue
    ((payVestingWithdrawal_isOk_iff h hdue).mp ⟨db', hok⟩)
  obtain rfl : db₁ = db' := Except.ok.inj (h₁.symm.trans hok)
  refine ⟨payVestingWithdrawal_sound h.votes hok,
    h.routes.same (payVestingWithdrawal_sameRoutes hok), hfunded, fun n b hb hgoes => ?_, ?_⟩
  · by_cases hn : n = name
    · subst hn
      obtain ⟨a, ha, hnext⟩ := hdue
      obtain ⟨b', a₁, paid, converted, hb', -, hgrown, hgrown'⟩ := payVestingWithdrawal_find hok ha
      obtain rfl : b = b' := mem_unique hb hb'
      have hclock := h.clock
      obtain ⟨hrate, hasked⟩ := h.powerDown n a ha (by omega)
      rw [hgrown'.next] at hgoes
      rw [hgrown'.rate, hgrown'.toWithdraw]
      unfold paidOut at hgoes ⊢
      dsimp only at hgoes ⊢
      split at hgoes
      · exact absurd rfl hgoes
      · next hmore =>
        rw [if_neg hmore, hgrown.rate, hgrown.toWithdraw]
        exact ⟨hrate, hasked⟩
    · obtain ⟨c, hc⟩ := isSome_iff_exists.mp
        ((payVestingWithdrawal_isSome hok n).symm.trans (by rw [hb]; rfl))
      obtain ⟨b', hb', hgrown⟩ := payVestingWithdrawal_other hok hc hn
      obtain rfl : b = b' := mem_unique hb hb'
      rw [hgrown.rate, hgrown.toWithdraw]
      exact h.powerDown n c hc (hgrown.next ▸ hgoes)
  · rw [payVestingWithdrawal_time hok]
    exact h.clock

-- # The loop

/-- **The withdrawal loop succeeds exactly if every payment that it comes to has room.** -/
theorem withdrawals_succeed_iff (h : Sane db) :
    (∃ db', db.processVestingWithdrawals = .ok db') ↔ ∀ r ∈ payments db, Room r.1 r.2 := by
  have hrounds := payments_induct Sane
    (fun _ _ _ hs hdue hpay => payVestingWithdrawal_sane hs hdue hpay) h
  constructor
  · rintro ⟨db', hok⟩ r hr
    have hmade := process_induct (fun log _ => ∀ r ∈ log, ∃ db', r.1.payVestingWithdrawal r.2 = .ok db')
      (fun log db name db' hI _ hpay r hr => by
        rcases mem_append.mp hr with hr | hr
        · exact hI r hr
        · rw [mem_singleton] at hr
          exact ⟨db', hr ▸ hpay⟩)
      (fun r hr => absurd hr not_mem_nil) hok
    obtain ⟨hs, hdue⟩ := hrounds r hr
    exact (payVestingWithdrawal_isOk_iff hs hdue).mp (hmade r hr)
  · intro hroom
    cases hprocess : db.processVestingWithdrawals with
    | ok db' => exact ⟨db', rfl⟩
    | error msg =>
      obtain ⟨r, hr, hfails⟩ := process_error hprocess
      obtain ⟨hs, hdue⟩ := hrounds r hr
      obtain ⟨db', hok⟩ := (payVestingWithdrawal_isOk_iff hs hdue).mpr (hroom r hr)
      rw [hfails] at hok
      cases hok

-- # Two states

/-- What is left to look at in a state whose votes are tallied. -/
def Checks (db : Database) : Prop :=
  RoutesKept db ∧ Funded db.props ∧
    (∀ e ∈ db.accounts.entries, e.2.nextVestingWithdrawal ≠ timePointSecMaximum →
      0 < e.2.vestingWithdrawRate ∧ 0 ≤ e.2.toWithdraw) ∧
    db.headBlockTime < timePointSecMaximum

instance (db : Database) : Decidable (Checks db) := inferInstanceAs (Decidable (_ ∧ _ ∧ _ ∧ _))

theorem Sane.of_checks (hv : VotesSound 0 db) (hc : Checks db) : Sane db :=
  ⟨hv, hc.1, hc.2.1, fun name a ha => hc.2.2.1 (name, a) (Table.mem_entries_iff.mpr ha), hc.2.2.2⟩

/-- The first account of the chain buys shares and votes for its witness. A new account may vote too,
and gets all of what the first one powers down. A week goes by. -/
def powerDownTo (votes : List Voting.Event) : List Voting.Event :=
  [.transferToVesting initMinerName "" ⟨1000, .delta⟩,
    .accountWitnessVote initMinerName initMinerName true,
    .accountCreate initMinerName "alice" minAccountCreationFee] ++ votes ++
  [.setWithdrawVestingRoute initMinerName "alice" 10000 true,
    .withdrawVesting initMinerName 13000,
    .restOfBlock
      { headBlockNumber := 201600, time := genesisTime + vestingWithdrawIntervalSeconds
        medianHistory := default, currentVirtualTime := 0, accountCreationFee := minAccountCreationFee
        virtualSupply := 1000000, currentSupply := 1000000, currentDbdSupply := 0
        totalVestingFundDelta := 1000, totalRewardFundDelta := 0, dbdInterestRate := 0
        dbdPrintRate := 0 }]

/-- The new account does not vote, and is paid. -/
theorem withdrawals_succeed_silent : ∃ db, Sane db ∧ (payments db).length = 1 ∧
    ∃ db', db.processVestingWithdrawals = .ok db' := by
  obtain ⟨db, h, hchecks, hlength, hroom⟩ : ∃ db, Run.exec (Run.checked Voting.step) (genesis 1000000)
      (powerDownTo []) = some db ∧ Checks db ∧ (payments db).length = 1 ∧
      ∀ r ∈ payments db, Room r.1 r.2 := by decide +kernel
  have hsane := Sane.of_checks (run_sound (genesis_sound _) h) hchecks
  exact ⟨db, hsane, hlength, (withdrawals_succeed_iff hsane).mpr hroom⟩

/-- **The new account votes for the same witness**, which has the votes of all shares already. The
first payment stops the loop, and with it the chain. -/
theorem withdrawals_fail_shared_witness : ∃ db, Run.exec (Run.checked Voting.step) (genesis 1000000)
      (powerDownTo [.accountWitnessVote "alice" initMinerName true]) = some db ∧
    Sane db ∧ db.processVestingWithdrawals = .error "w.votes <= total_vesting_shares.amount" := by
  refine Run.exists_end (P := fun db => Checks db ∧
    db.processVestingWithdrawals = .error "w.votes <= total_vesting_shares.amount")
    (by decide +kernel) fun db h hvalues => ⟨?_, hvalues.2⟩
  exact Sane.of_checks (run_sound (genesis_sound _) h) hvalues.1

end DeltaChain.Withdrawals

import DeltaChain.Schedule.VirtualTime
import DeltaChain.Voting.Run

/-!
# Votes that change in the middle of a lap

Whatever an operation does, it changes laps through `adjust_witness_vote` alone: it is a
sequence of calls, with writes in between that no lap depends on (`Adjusts`). In each call the
votes after it are the number that is right at the end of the climb it belongs to, so that they
are never negative.
-/

namespace DeltaChain.Ledger.Database

open Lib Protocol Checked Option

/-- No lap has changed, though a witness may be new. -/
structure Calm (db db' : Database) : Prop where
  time : db'.currentVirtualTime = db.currentVirtualTime
  laps : ∀ name, db'.laps name = db.laps name ∨
    db.laps name = none ∧ db'.laps name = some firstLap

/-- Calls of `adjust_witness_vote` that all have the property `P`, and writes between them. -/
inductive Adjusts (P : Nat → Witness → Int → Prop) (db : Database) : Database → Prop where
  | refl : Adjusts P db db
  | write {db₁ db₂ : Database} : Adjusts P db db₁ → Calm db₁ db₂ → Adjusts P db db₂
  | call {db₁ db₂ : Database} {name : AccountName} {w : Witness} {delta : Int} :
      Adjusts P db db₁ → db₁.witnesses.find? name = some w →
      db₁.adjustWitnessVote name delta = .ok db₂ → P db₁.currentVirtualTime w delta →
      Adjusts P db db₂

/-- Calls after which the votes fit into 64 bits. -/
abbrev Votes : Nat → Witness → Int → Prop := fun _ w delta => InRange w delta

variable {db db' db₁ db₂ : Database} {name account witness : AccountName} {off : Int}

theorem Frame.calm (h : Frame db db') : Calm db db' where
  time := h.currentVirtualTime
  laps name := by
    unfold laps
    rw [h.witnesses]
    exact .inl rfl

theorem calm_of_eq (hwitnesses : db'.witnesses = db.witnesses)
    (htime : db'.currentVirtualTime = db.currentVirtualTime) : Calm db db' where
  time := htime
  laps name := by
    unfold laps
    rw [hwitnesses]
    exact .inl rfl

theorem Calm.modifyWitness {f : Witness → Witness} (hf : ∀ w, lapOf (f w) = lapOf w) :
    Calm db (db.modifyWitness name f) where
  time := rfl
  laps n := by
    have hfind : (db.modifyWitness name f).witnesses.find? n = _ := Table.find?_modify ..
    unfold Database.laps
    rw [hfind]
    split
    · rw [map_map]
      exact .inl (congrArg (fun k => Option.map k _) (funext hf))
    · exact .inl rfl

theorem Calm.emplaceWitness {w : Witness} {n : Nat} (hnew : db.witnesses.find? name = none)
    (hw : lapOf w = firstLap) :
    Calm db { db with witnesses := db.witnesses.emplace name w, nextWitnessId := n } where
  time := rfl
  laps n := by
    unfold Database.laps
    rw [Table.find?_emplace, hnew]
    split
    · next hn =>
      subst hn
      rw [hnew]
      exact .inr ⟨rfl, congrArg some hw⟩
    · exact .inl rfl

namespace Adjusts

variable {P : Nat → Witness → Int → Prop}

theorem trans (h₁ : Adjusts P db db₁) (h₂ : Adjusts P db₁ db₂) : Adjusts P db db₂ := by
  induction h₂ with
  | refl => exact h₁
  | write _ hcalm ih => exact ih.write hcalm
  | call _ hw hcall hP ih => exact ih.call hw hcall hP

theorem calm (h : Calm db db') : Adjusts P db db' := refl.write h

theorem frame (h : Frame db db') : Adjusts P db db' := refl.write h.calm

end Adjusts

-- # Calls from a place on the lap

theorem Timed.calm (ht : Timed db) (h : Calm db db') : Timed db' := by
  refine ⟨h.time ▸ ht.time_lt, fun name l hl => ?_⟩
  rw [h.time]
  rcases h.laps name with heq | ⟨-, heq⟩
  · exact ht.onLap name l (heq ▸ hl)
  · rw [heq] at hl
    cases hl
    exact onLap_firstLap ht.time_lt

variable {e : AccountName × WithdrawVestingRoute} {s s' : Database × Int} {delta : Int}
  {toWithdraw : Int} {toReward : Bool} {w : Witness} {δ : Int}

theorem adjustWitnessVote_eq (h : db.adjustWitnessVote witness delta = .ok db') :
    ∃ w, db.witnesses.find? witness = some w ∧
      w.votes + delta ≤ db.props.totalVestingShares ∧
      db' = db.modifyWitness witness fun _ => adjustedWitness w db.currentVirtualTime delta := by
  simp only [adjustWitnessVote, eq_ok, getWitness_eq_ok] at h
  obtain ⟨w, hw, hle, -, rfl⟩ := h
  exact ⟨w, hw, hle, rfl⟩

theorem Timed.call (ht : Timed db) (hw : db.witnesses.find? witness = some w)
    (h : db.adjustWitnessVote witness delta = .ok db') (hrange : InRange w delta) : Timed db' := by
  obtain ⟨w', hw', -, rfl⟩ := adjustWitnessVote_eq h
  obtain rfl := mem_unique hw hw'
  refine ⟨ht.time_lt, fun name l hl => ?_⟩
  have hfind : (db.modifyWitness witness fun _ =>
      adjustedWitness w db.currentVirtualTime delta).witnesses.find? name = _ :=
    Table.find?_modify ..
  unfold laps at hl
  rw [hfind] at hl
  split at hl
  · next hname =>
    subst hname
    rw [hw] at hl
    cases hl
    exact (ht.onLap name _ (congrArg (Option.map lapOf) hw)).adjusted hrange
  · exact ht.onLap name l hl

theorem Timed.adjusts (ht : Timed db) (h : Adjusts Votes db db') :
    Adjusts Exact db db' ∧ Timed db' := by
  induction h with
  | refl => exact ⟨.refl, ht⟩
  | write _ hcalm ih => exact ⟨ih.1.write hcalm, ih.2.calm hcalm⟩
  | call _ hw hcall hrange ih =>
    have hlap := ih.2.onLap _ _ (congrArg (Option.map lapOf) hw)
    exact ⟨ih.1.call hw hcall (hlap.exact hrange), ih.2.call hw hcall hrange⟩

-- # The climb

theorem InRange.of_call (hw : db.witnesses.find? witness = some w)
    (h : db.adjustWitnessVote witness delta = .ok db') (hnonneg : 0 ≤ db'.polls.votes witness)
    (htotal : db.props.totalVestingShares < 2 ^ 63) : InRange w delta := by
  obtain ⟨w', hw', hle, rfl⟩ := adjustWitnessVote_eq h
  obtain rfl := mem_unique hw hw'
  rw [polls_modifyWitness hw] at hnonneg
  simp only [Function.update_self] at hnonneg
  exact ⟨hnonneg, by omega⟩

/-- No witness is met twice, so that its votes after the call are those at the end. -/
theorem adjust_loop_adjusts {ws : List AccountName} (hn : ws.Nodup)
    (hnonneg : ∀ w, 0 ≤ db'.polls.votes w) (htotal : db.props.totalVestingShares < 2 ^ 63)
    (h : ws.foldlM (fun db w => db.adjustWitnessVote w δ) db = .ok db') : Adjusts Votes db db' := by
  induction ws generalizing db with
  | nil =>
    cases h
    exact .refl
  | cons v ws ih =>
    rw [List.foldlM_cons, bind_eq_ok] at h
    obtain ⟨db₁, hstep, hrest⟩ := h
    rw [List.nodup_cons] at hn
    obtain ⟨w, hw, -, hdb₁⟩ := adjustWitnessVote_eq hstep
    have hvotes : db'.polls.votes v = db₁.polls.votes v := by
      rw [(adjust_loop δ ws _ _ hn.2 hrest).2]
      simp only [if_neg hn.1, add_zero]
    have htotal₁ : db₁.props.totalVestingShares < 2 ^ 63 := by
      rw [hdb₁]
      exact htotal
    have hrange : InRange w δ := .of_call hw hstep (hvotes ▸ hnonneg v) htotal
    exact (Adjusts.call .refl hw hstep hrange).trans (ih hn.2 htotal₁ hrest)

theorem adjustProxiedLevels_adjusts {delta : VoteDelta} {levels : Nat}
    (hnonneg : ∀ w, 0 ≤ db'.polls.votes w) (htotal : db.props.totalVestingShares < 2 ^ 63)
    (h : adjustProxiedLevels delta levels db account = .ok db') : Adjusts Votes db db' := by
  induction levels generalizing db account <;> cases hc : db.polls.proxy account
  case zero.none | succ.none =>
    rw [adjustProxiedLevels_none (mem_voters_of_climb h) hc] at h
    exact adjust_loop_adjusts (votedFor_nodup account) hnonneg htotal h
  case zero.some =>
    cases (adjustProxiedLevels_zero hc).symm.trans h
    exact .refl
  case succ.some levels ih q =>
    rw [adjustProxiedLevels_succ hc] at h
    obtain ⟨p, -, h⟩ := bind_eq_ok.mp h
    exact (Adjusts.frame .modifyAccount).trans (ih htotal h)

theorem adjustProxiedWitnessVotes1_adjusts (hnonneg : ∀ w, 0 ≤ db'.polls.votes w)
    (htotal : db'.props.totalVestingShares < 2 ^ 63)
    (h : db.adjustProxiedWitnessVotes1 account δ = .ok db') : Adjusts Votes db db' := by
  rw [(adjustProxiedWitnessVotes1_ok h).1.props] at htotal
  rw [adjustProxiedWitnessVotes1, adjustProxiedLevels1_eq] at h
  exact adjustProxiedLevels_adjusts hnonneg htotal h

section

variable (hs : VotesSound off db)

include hs

theorem VotesSound.votes_nonneg (w : AccountName) :
    0 ≤ db.polls.votes w := hs.tallied.votes_nonneg hs.nonneg w

theorem VotesSound.detach_adjusts {a : Account}
    (htotal : db.props.totalVestingShares < 2 ^ 63) (ha : db.accounts.find? account = some a)
    (h : db.adjustProxiedWitnessVotes account (-a.votingPower) = .ok db') :
    Adjusts Votes db db' := by
  refine adjustProxiedLevels_adjusts (fun w => ?_) htotal h
  have htallied := hs.tallied.detach (mem_voters.mpr ⟨a, ha⟩)
  rw [polls_power ha, ← (adjustProxiedWitnessVotes_ok h).2] at htallied
  refine htallied.votes_nonneg (fun b hb => ?_) w
  rw [(adjustProxiedWitnessVotes_ok h).2] at hb ⊢
  exact hs.nonneg b hb

-- # Operations

section

variable (htotal : db'.props.totalVestingShares < 2 ^ 63)

include htotal

theorem createVesting2_adjusts {liquid newVesting : Asset}
   
    (h : db.createVesting2 account liquid toReward = .ok (db', newVesting)) :
    Adjusts Votes db db' := by
  have hs' := createVesting2_sound hs h
  simp only [createVesting2, bind_eq_ok, pure_eq_ok] at h
  obtain ⟨-, -, sharePrice, -, shares, -, db₁, hstore, heq⟩ := h
  cases heq
  cases toReward with
  | true => exact .frame (addRewardVesting_frame hstore)
  | false =>
    simp only [storeVesting, Bool.false_eq_true, if_false, addVesting, bind_eq_ok] at hstore
    obtain ⟨a, -, a', -, db₂, hadj, hclimb⟩ := hstore
    obtain ⟨f, dbdSupply, virtualSupply, -, rfl⟩ := adjustBalance_rebalances hadj
    refine Adjusts.trans (Adjusts.frame ?_)
      (adjustProxiedWitnessVotes1_adjusts hs'.votes_nonneg htotal hclimb)
    rfl

theorem createVesting_adjusts {liquid : Asset}
    (h : db.createVesting account liquid toReward = .ok db') : Adjusts Votes db db' := by
  simp only [createVesting, eq_ok] at h
  obtain ⟨⟨db₁, shares⟩, hcreate, rfl⟩ := h
  exact createVesting2_adjusts hs htotal hcreate

theorem transferToVesting_adjusts {fromAccount toAccount : AccountName} {amount : Asset}
   
    (h : db.transferToVesting fromAccount toAccount amount = .ok db') : Adjusts Votes db db' := by
  simp only [transferToVesting, eq_ok] at h
  obtain ⟨hsym, -, -, -, -, -, -, db₁, hadj, hcreate⟩ := h
  have hne : (-amount).symbol ≠ .vests := by simp [hsym]
  have hpaid := adjustBalance_settles hne hadj
  exact (Adjusts.frame (.settles hpaid)).trans
    (createVesting_adjusts (hs.quiet (.settles hpaid)) htotal hcreate)

theorem claimRewardBalance_adjusts {op : ClaimRewardBalance}
   
    (h : db.claimRewardBalance op = .ok db') : Adjusts Votes db db' := by
  have hs' := claimRewardBalance_sound hs h
  obtain ⟨-, -, toMove, db₁, a, bar, -, -, -, hbalances, -, hclimb⟩ := claimRewardBalance_cases h
  exact (Adjusts.frame ((Frame.settles hbalances.settles).trans
    (Frame.modifyAccount.trans .modifyProps))).trans
      (adjustProxiedWitnessVotes1_adjusts hs'.votes_nonneg htotal hclimb)

end

theorem accountWitnessVote_adjusts {approve : Bool}
    (hnull : account ≠ nullAccount) (htotal : db.props.totalVestingShares < 2 ^ 63)
    (h : db.accountWitnessVote account witness approve = .ok db') : Adjusts Votes db db' := by
  have hs' := accountWitnessVote_sound hs hnull h
  simp only [accountWitnessVote, bind_eq_ok] at h
  obtain ⟨a, -, -, -, -, -, w₀, -, h⟩ := h
  split at h
  · simp only [bind_eq_ok, pure_eq_ok] at h
    obtain ⟨-, -, -, -, db₁, hcall, rfl⟩ := h
    obtain ⟨w, hw, -, -⟩ := adjustWitnessVote_eq hcall
    have hrange : InRange w a.witnessVoteWeight :=
      .of_call hw hcall (hs'.votes_nonneg witness) htotal
    have hballot : Calm db { db with
      witnessVotes := db.witnessVotes.emplace (account, witness) () } := calm_of_eq rfl rfl
    exact ((Adjusts.calm hballot).call hw hcall hrange).write Frame.modifyAccount.calm
  · simp only [bind_eq_ok, pure_eq_ok] at h
    obtain ⟨-, -, db₁, hcall, rfl⟩ := h
    obtain ⟨w, hw, -, -⟩ := adjustWitnessVote_eq hcall
    have hrange : InRange w (-a.witnessVoteWeight) :=
      .of_call hw hcall (hs'.votes_nonneg witness) htotal
    exact Adjusts.write (Adjusts.call .refl hw hcall hrange) (calm_of_eq rfl rfl)

theorem accountWitnessProxy_adjusts {proxy : AccountName}
    (hnull : account ≠ nullAccount) (htotal : db.props.totalVestingShares < 2 ^ 63)
    (h : db.accountWitnessProxy account proxy = .ok db') : Adjusts Votes db db' := by
  have hs' := accountWitnessProxy_sound hs hnull h
  simp only [accountWitnessProxy, bind_eq_ok, getAccount_eq_ok] at h
  obtain ⟨-, -, a, ha, -, -, -, -, db₁, hdetach, h⟩ := h
  have hfirst := hs.detach_adjusts htotal ha hdetach
  split at h
  · simp only [bind_eq_ok] at h
    obtain ⟨b, -, u, -, hattach⟩ := h
    have htotal₁ : db₁.props.totalVestingShares < 2 ^ 63 := by
      rw [(adjustProxiedWitnessVotes_ok hdetach).1.props]
      exact htotal
    refine (hfirst.write ?_).trans
      (adjustProxiedLevels_adjusts hs'.votes_nonneg ?_ hattach)
    · exact calm_of_eq rfl rfl
    · exact htotal₁
  · cases h
    exact hfirst.write Frame.modifyAccount.calm

theorem processDeclineVotingRights_adjusts (htotal : db.props.totalVestingShares < 2 ^ 63)
    (h : db.processDeclineVotingRights = .ok db') : Adjusts Votes db db' := by
  -- the total stays where it is, round by round
  refine (foldlM_induct (fun s => Adjusts Votes db s ∧ VotesSound off s ∧
    s.props.totalVestingShares < 2 ^ 63) ?_ ⟨.refl, hs, htotal⟩ h).1
  rintro e - s s' ⟨hadjusts, hs, htotal⟩ hround
  have hs' := declineVotingRightsNow_sound hs hround
  simp only [declineVotingRightsNow, eq_ok, getAccount_eq_ok] at hround
  obtain ⟨a, ha, s₁, hdetach, rfl⟩ := hround
  refine ⟨(hadjusts.trans (hs.detach_adjusts htotal ha hdetach)).write ?_, hs', ?_⟩
  · exact calm_of_eq rfl rfl
  · have hprops := (adjustProxiedWitnessVotes_ok hdetach).1.props
    change s₁.props.totalVestingShares < _
    rw [hprops]
    exact htotal

end

-- # Power-down

/-- Along the calls the total has not grown. -/
structure Paid (db db' : Database) : Prop where
  adjusts : Adjusts Votes db db'
  total_le : db'.props.totalVestingShares ≤ db.props.totalVestingShares

theorem Paid.trans (h₁ : Paid db db₁) (h₂ : Paid db₁ db₂) : Paid db db₂ :=
  ⟨h₁.adjusts.trans h₂.adjusts, h₂.total_le.trans h₁.total_le⟩

theorem depositVests_paid (hp : Paying off db s) (htotal : s.1.props.totalVestingShares < 2 ^ 63)
    (h : depositVests toWithdraw s e = .ok s') : Paid s.1 s'.1 := by
  have hp' := depositVests_paying hp h
  obtain ⟨rfl, -⟩ | ⟨d, a, db₁, -, -, -, -, rfl, hclimb⟩ := depositVests_cases h
  · exact ⟨.refl, le_refl _⟩
  · have hprops := (adjustProxiedWitnessVotes1_ok hclimb).1.props
    refine ⟨(Adjusts.frame .modifyAccount).trans
      (adjustProxiedWitnessVotes1_adjusts hp'.sound.votes_nonneg ?_ hclimb), ?_⟩
    · rw [hprops]
      exact htotal
    · exact le_of_eq (congrArg GlobalProperties.totalVestingShares hprops)

theorem payVestingWithdrawal_paid (hs : VotesSound off db)
    (htotal : db.props.totalVestingShares < 2 ^ 63)
    (h : db.payVestingWithdrawal account = .ok db') : Paid db db' := by
  have hs' := payVestingWithdrawal_sound hs h
  simp only [payVestingWithdrawal, eq_ok] at h
  obtain ⟨a, -, toWithdraw, -, ⟨db₁, asVests⟩, hvests, ⟨db₂, asDelta⟩, hdelta, hconvert,
    sharePrice, -, converted, -, h⟩ := h
  have hstart : Paying off db (db, 0) :=
    ⟨by simpa using hs, le_refl _, fun _ => le_refl _, rfl⟩
  have hfirst : Paying off db (db₁, asVests) ∧ Paid db db₁ := by
    refine foldlM_induct (fun s => Paying off db s ∧ Paid db s.1) ?_
      ⟨hstart, .refl, le_refl _⟩ hvests
    rintro e - s s' ⟨hp, hpaid⟩ hround
    exact ⟨depositVests_paying hp hround,
      hpaid.trans (depositVests_paid hp (hpaid.total_le.trans_lt htotal) hround)⟩
  have hsecond : Paid db₁ db₂ := by
    refine foldlM_induct (fun s => Paid db₁ s.1) ?_ ⟨.refl, le_refl _⟩ hdelta
    intro e _ s s' hpaid hround
    refine hpaid.trans ?_
    obtain ⟨rfl, -⟩ | ⟨d, a, price, converted, -, -, hpos, -, -, -, rfl⟩ := depositDelta_cases hround
    · exact ⟨.refl, le_refl _⟩
    · exact ⟨.frame rfl, sub_le_self _ hpos.le⟩
  have hroutes : Paid db db₂ := hfirst.2.trans hsecond
  refine hroutes.trans ?_
  -- what was not deposited leaves the total
  have hle : ∀ {f : Account → Account} {p : GlobalProperties → GlobalProperties},
      (p db₂.props).totalVestingShares ≤ db₂.props.totalVestingShares →
      Paid db₂ ((db₂.modifyAccount account f).modifyProps p) := fun hle =>
    ⟨.frame (Frame.modifyAccount.trans .modifyProps), hle⟩
  have hless := hle (f := fun a => paidOut a toWithdraw converted.amount)
    (p := fun g => { g with
      totalVestingFundDelta := g.totalVestingFundDelta - converted.amount
      totalVestingShares := g.totalVestingShares - (toWithdraw - asDelta - asVests) })
    (sub_le_self _ hconvert)
  refine hless.trans ?_
  have hbound := (hroutes.trans hless).total_le.trans_lt htotal
  split at h
  · have hprops := (adjustProxiedWitnessVotes1_ok h).1.props
    refine ⟨adjustProxiedWitnessVotes1_adjusts hs'.votes_nonneg ?_ h, ?_⟩
    · rw [hprops]
      exact hbound
    · exact le_of_eq (congrArg GlobalProperties.totalVestingShares hprops)
  · cases h
    exact ⟨.refl, le_refl _⟩

-- # Witnesses

theorem witnessUpdate_calm {op : WitnessUpdate} (h : db.witnessUpdate op = .ok db') :
    Calm db db' := by
  simp only [witnessUpdate, eq_ok] at h
  obtain ⟨-, -, -, _, -, -, -, h⟩ := h
  split at h
  · next hnew =>
    cases h
    exact Calm.emplaceWitness hnew rfl
  · cases h
    exact Calm.modifyWitness fun _ => rfl

end DeltaChain.Ledger.Database

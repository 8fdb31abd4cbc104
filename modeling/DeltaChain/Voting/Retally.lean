import DeltaChain.Voting.Ballots

/-!
# Counting from scratch

`retally_witness_votes` takes all votes away and counts them again from the ballots. In a
sound state it succeeds and changes no votes (`retally_same`): every vote it adds keeps the
votes of a witness below what they are in the end, and so below the total of all shares.
-/

namespace DeltaChain.Ledger.Database

open Lib Protocol Voting Checked List Table

variable {db db' : Database} {name account witness : AccountName} {a : Account} {off : Int}
  {e : AccountName × Account}

/-- What an account adds to the votes of `witness` when they are counted. -/
def counted (ballots : Finset (AccountName × AccountName)) (witness : AccountName)
    (e : AccountName × Account) : Int :=
  if e.2.proxy = proxyToSelfAccount ∧ (e.1, witness) ∈ ballots then e.2.witnessVoteWeight else 0

-- # One account

/-- The loop over the ballots of one account succeeds if every sum stays in bounds. -/
theorem adjust_loop_succeeds (δ : Int) : ∀ (ws : List AccountName) (db : Database), ws.Nodup →
    (∀ w ∈ ws, w ∈ db.witnesses.keys ∧ 0 ≤ db.polls.votes w + δ ∧
      db.polls.votes w + δ ≤ db.props.totalVestingShares) →
    ∃ db', ws.foldlM (fun db w => db.adjustWitnessVote w δ) db = .ok db' := by
  intro ws
  induction ws with
  | nil =>
    intro db _ _
    exact ⟨db, rfl⟩
  | cons w ws ih =>
    intro db hnodup hws
    rw [nodup_cons] at hnodup
    obtain ⟨hkey, hpos, hle⟩ := hws w mem_cons_self
    obtain ⟨db₁, h₁⟩ : ∃ db₁, db.adjustWitnessVote w δ = .ok db₁ := by
      obtain ⟨old, hold⟩ := Option.isSome_iff_exists.mp (find?_isSome_iff.mpr hkey)
      rw [polls_votes hold] at hpos hle
      simp only [adjustWitnessVote, eq_ok, getWitness_eq_ok]
      exact ⟨_, old, hold, hle, by omega, rfl⟩
    obtain ⟨hpolls, hprops, hkeys⟩ := polls_adjustWitnessVote h₁
    -- the votes of the other witnesses are as before
    obtain ⟨db₂, h₂⟩ := ih db₁ hnodup.2 fun v hv => by
      have hne : v ≠ w := fun heq => hnodup.1 (heq ▸ hv)
      have hsame : db₁.polls.votes v = db.polls.votes v := by
        rw [hpolls]
        exact Function.update_of_ne hne ..
      rw [hsame, hprops, hkeys]
      exact hws v (mem_cons_of_mem _ hv)
    refine ⟨db₂, ?_⟩
    rw [foldlM_cons, bind_eq_ok]
    exact ⟨db₁, h₁, h₂⟩

-- # All accounts

/-- One account adds to the votes what it counts for. -/
theorem retallyAccount_counts (hpos : ∀ w, 0 ≤ db.polls.votes w)
    (hweight : 0 ≤ e.2.witnessVoteWeight)
    (hle : ∀ w, db.polls.votes w + counted db.polls.ballots w e ≤ db.props.totalVestingShares)
    (hwitness : ∀ b w, (b, w) ∈ db.polls.ballots → w ∈ db.witnesses.keys) :
    ∃ db', db.retallyAccount e = .ok db' ∧ VoteWrites db db' ∧
      db'.polls.ballots = db.polls.ballots ∧
      ∀ w, db'.polls.votes w = db.polls.votes w + counted db.polls.ballots w e := by
  unfold retallyAccount
  by_cases hself : e.2.proxy = proxyToSelfAccount
  · rw [if_neg (not_not.mpr hself)]
    have hcount : ∀ w, counted db.polls.ballots w e =
        if w ∈ db.votedFor e.1 then e.2.witnessVoteWeight else 0 := by
      intro w
      exact if_congr ((and_iff_right hself).trans mem_votedFor.symm) rfl rfl
    obtain ⟨db', h⟩ := adjust_loop_succeeds e.2.witnessVoteWeight (db.votedFor e.1) db
      (votedFor_nodup e.1) fun w hw => by
        have hlew := hle w
        rw [hcount, if_pos hw] at hlew
        exact ⟨hwitness e.1 w (mem_votedFor.mp hw), add_nonneg (hpos w) hweight, hlew⟩
    obtain ⟨hwrites, hpolls⟩ := adjust_loop _ _ _ _ (votedFor_nodup e.1) h
    refine ⟨db', h, hwrites, ?_, fun w => ?_⟩
    · rw [hpolls]
    · rw [hpolls, hcount]
  · rw [if_pos hself]
    refine ⟨db, rfl, .refl, rfl, fun w => ?_⟩
    unfold counted
    rw [if_neg fun h => hself h.1, add_zero]

theorem counted_nonneg {ballots : Finset (AccountName × AccountName)}
    (hweight : 0 ≤ e.2.witnessVoteWeight) (w : AccountName) : 0 ≤ counted ballots w e := by
  unfold counted
  split
  · exact hweight
  · exact le_refl _

/-- The loop over the accounts adds up what they count for. -/
theorem retally_loop : ∀ (es : List (AccountName × Account)) (db : Database),
    (∀ w, 0 ≤ db.polls.votes w) → (∀ e ∈ es, 0 ≤ e.2.witnessVoteWeight) →
    (∀ w, db.polls.votes w + (es.map (counted db.polls.ballots w)).sum ≤
      db.props.totalVestingShares) →
    (∀ b w, (b, w) ∈ db.polls.ballots → w ∈ db.witnesses.keys) →
    ∃ db', es.foldlM retallyAccount db = .ok db' ∧ VoteWrites db db' ∧
      ∀ w, db'.polls.votes w = db.polls.votes w + (es.map (counted db.polls.ballots w)).sum := by
  intro es
  induction es with
  | nil =>
    intro db _ _ _ _
    exact ⟨db, rfl, .refl, fun w => (add_zero _).symm⟩
  | cons e es ih =>
    intro db hpos hweight hle hwitness
    have he := hweight e mem_cons_self
    have hes : ∀ f ∈ es, 0 ≤ f.2.witnessVoteWeight := fun f hf =>
      hweight f (mem_cons_of_mem _ hf)
    have hrest : ∀ w, 0 ≤ (es.map (counted db.polls.ballots w)).sum := by
      intro w
      refine sum_nonneg fun n hn => ?_
      obtain ⟨f, hf, rfl⟩ := mem_map.mp hn
      exact counted_nonneg (hes f hf) w
    simp only [map_cons, sum_cons] at hle
    obtain ⟨db₁, h₁, hwrites₁, hballots, hvotes⟩ := retallyAccount_counts hpos he
      (fun w => by have := hle w; have := hrest w; omega) hwitness
    obtain ⟨db₂, h₂, hwrites₂, hvotes₂⟩ := ih db₁
      (fun w => by rw [hvotes]; exact add_nonneg (hpos w) (counted_nonneg he w)) hes
      (fun w => by rw [hvotes, hballots, hwrites₁.props, add_assoc]; exact hle w)
      (fun b w hb => by rw [hwrites₁.keys.2]; exact hwitness b w (hballots ▸ hb))
    refine ⟨db₂, ?_, hwrites₁.trans hwrites₂, fun w => ?_⟩
    · rw [foldlM_cons, bind_eq_ok]
      exact ⟨db₁, h₁, h₂⟩
    · rw [hvotes₂, hvotes, hballots, map_cons, sum_cons, add_assoc]

-- # From a sound state

theorem sum_counted (w : AccountName) :
    (db.accounts.entries.map (counted db.polls.ballots w)).sum = db.polls.tally w := by
  refine sum_eq_sum_keys db.accounts (fun n a => counted db.polls.ballots w (n, a))
    (fun r => if db.polls.Backs w r then db.polls.weight r else 0) fun n a ha => ?_
  rw [polls_weight ha]
  refine if_congr ?_ rfl rfl
  unfold Polls.Backs
  rw [polls_proxy ha]
  refine and_congr_left fun _ => ?_
  unfold Account.proxy?
  split
  · next hself => simp [hself]
  · next hself => simp [hself]

theorem witnessVoteWeight_nonneg (hs : VotesSound off db)
    (ha : db.accounts.find? name = some a) : 0 ≤ a.witnessVoteWeight := by
  rw [← polls_weight ha, hs.tallied.weight_eq (mem_voters.mpr ⟨a, ha⟩)]
  refine Finset.sum_nonneg fun k _ => ?_
  rw [Forest.below_eq_sum]
  refine Finset.sum_nonneg fun b hb => ?_
  split
  · exact hs.nonneg b hb
  · exact le_refl _

/-- **Counting from scratch succeeds and changes no votes.** -/
theorem retally_same (hs : VotesSound 0 db) :
    ∃ db', db.retallyWitnessVotes = .ok db' ∧ db'.witnesses.keys = db.witnesses.keys ∧
      ∀ w, db'.polls.votes w = db.polls.votes w := by
  set start : Database :=
    { db with witnesses := db.witnesses.map fun w => { w with votes := 0, virtualPosition := 0 } }
    with hstart
  have hzero : ∀ w, start.polls.votes w = 0 := by
    intro w
    simp only [hstart, polls, Table.find?_map, Option.map_map]
    cases db.witnesses.find? w <;> rfl
  have hkeys : start.witnesses.keys = db.witnesses.keys := keys_map ..
  have htotal : ∑ b ∈ db.polls.voters, db.polls.shares b = db.props.totalVestingShares :=
    hs.total.trans (add_zero _)
  obtain ⟨db', h, hwrites, hvotes⟩ := retally_loop db.accounts.entries start
    (fun w => (hzero w).ge)
    (fun e he => witnessVoteWeight_nonneg hs (mem_entries_iff.mp he))
    (fun w => by
      rw [hzero, zero_add]
      refine (sum_counted w).trans_le ?_
      change db.polls.tally w ≤ db.props.totalVestingShares
      rw [← hs.tallied.votes_eq_tally]
      exact (hs.tallied.votes_le hs.nonneg w).trans_eq htotal)
    (fun b w hb => hkeys ▸ hs.witness b w hb)
  refine ⟨db', h, hwrites.keys.2.trans hkeys, fun w => ?_⟩
  rw [hvotes, hzero, zero_add]
  exact (sum_counted w).trans (hs.tallied.votes_eq_tally w).symm

end DeltaChain.Ledger.Database

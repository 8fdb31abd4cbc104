import DeltaChain.Ledger.Hardforks
import DeltaChain.Schedule.Rounds

/-!
# Hardforks, run by run

Hardforks are applied one after the other, each once, and the record of them is complete
(`Recorded`). Which one comes next is decided at the end of a round: a hardfork that is not in
force yet is next only if enough witnesses of the last round vote for it at the same time, and
with more than half of all places required no two can have enough (`Agreed`). The version that a
majority runs at least is found the same way.
-/

namespace DeltaChain.Schedule

open Lib Protocol Ledger Ledger.Database Checked List Option

variable {m : Migration} {node node' : Node} {db db' : Database} {required : Nat}
  {ws : List Witness} {hardfork : Nat} {s : Selection} {room : Nat}

-- # The record

/-- The hardforks up to the last one were applied in order and are on record. -/
structure Recorded (node : Node) : Prop where
  processed : node.db.hardforks.processedHardforks =
    (List.range (node.db.hardforks.lastHardfork + 1)).map node.hardforkTimes
  version : node.db.hardforks.currentHardforkVersion =
    hardforkVersion node.db.hardforks.lastHardfork
  operations : node.operations = List.range' 1 node.db.hardforks.lastHardfork

section

variable (h : Recorded node)

include h

theorem Recorded.congr
    (hprocessed : node'.db.hardforks.processedHardforks = node.db.hardforks.processedHardforks)
    (hlast : node'.db.hardforks.lastHardfork = node.db.hardforks.lastHardfork)
    (hversion : node'.db.hardforks.currentHardforkVersion =
      node.db.hardforks.currentHardforkVersion)
    (htimes : ∀ i ≤ node.db.hardforks.lastHardfork, node'.hardforkTimes i = node.hardforkTimes i)
    (hoperations : node'.operations = node.operations) : Recorded node' where
  processed := by
    rw [hprocessed, hlast, h.processed]
    refine map_congr_left fun i hi => (htimes i ?_).symm
    exact Nat.le_of_lt_succ (mem_range.mp hi)
  version := by rw [hversion, hlast, h.version]
  operations := by rw [hoperations, hlast, h.operations]

/-- **One hardfork is applied**: the one after the last. -/
theorem Recorded.applyHardfork (hok : node.applyHardfork m hardfork = .ok node') :
    Recorded node' ∧ node'.db.hardforks.lastHardfork = hardfork ∧
      hardfork = node.db.hardforks.lastHardfork + 1 := by
  simp only [Node.applyHardfork, Node.recordHardfork, eq_ok] at hok
  obtain ⟨db, hmigrate, hnext, -, -, rfl⟩ := hok
  have hsame := m.hardforks_eq hmigrate
  rw [hsame] at hnext
  refine ⟨⟨?_, rfl, ?_⟩, rfl, hnext⟩
  · change db.hardforks.processedHardforks ++ [node.hardforkTimes hardfork] =
      (range (hardfork + 1)).map node.hardforkTimes
    rw [hsame, h.processed, ← hnext, range_succ, map_append]
    rfl
  · change node.operations ++ [hardfork] = range' 1 hardfork
    rw [h.operations, hnext, range'_concat, Nat.one_mul, Nat.add_comm 1]

theorem Recorded.applyVoted (hok : node.applyVoted m room = .ok node') : Recorded node' := by
  induction room generalizing node with
  | zero =>
    rw [Node.applyVoted] at hok
    split at hok
    · cases hok
    · cases hok
      exact h
  | succ room ih =>
    rw [Node.applyVoted] at hok
    split at hok
    · simp only [bind_eq_ok] at hok
      obtain ⟨node₁, happly, hrest⟩ := hok
      exact ih (h.applyHardfork happly).1 hrest
    · cases hok
      exact h

theorem Recorded.applyTimed (hok : node.applyTimed m room = .ok node') : Recorded node' := by
  induction room generalizing node with
  | zero =>
    cases hok
    exact h
  | succ room ih =>
    rw [Node.applyTimed] at hok
    split at hok
    · simp only [bind_eq_ok] at hok
      obtain ⟨node₁, happly, hrest⟩ := hok
      exact ih (h.applyHardfork happly).1 hrest
    · cases hok
      exact h

theorem Recorded.processHardforks (hok : node.processHardforks m = .ok node') : Recorded node' := by
  unfold Node.processHardforks at hok
  split at hok
  · exact h.applyVoted hok
  · exact h.applyTimed hok

theorem Recorded.announce {i : Nat} (hi : node.db.hardforks.lastHardfork < i) :
    Recorded (node.announce i) ∧
      (node.announce i).db.hardforks.lastHardfork = node.db.hardforks.lastHardfork := by
  unfold Node.announce
  split
  · refine ⟨h.congr rfl rfl rfl (fun j hj => ?_) rfl, rfl⟩
    exact if_neg (by omega)
  · exact ⟨h.congr rfl rfl rfl (fun _ _ => rfl) rfl, rfl⟩

/-- `set_hardfork` goes through hardforks that are not on record yet. -/
theorem Recorded.setHardfork {applyNow : Bool}
    (hok : node.setHardfork m hardfork applyNow = .ok node') : Recorded node' := by
  -- those still to come are behind the last one, and in order
  refine (foldlM_induct_rest (fun l node => Recorded node ∧ l.Pairwise (· < ·) ∧
    ∀ i ∈ l, node.db.hardforks.lastHardfork < i) ?_ ⟨h, pairwise_lt_range', ?_⟩ hok).1
  · rintro i l node node' ⟨h, hsorted, hlast⟩ hround
    rw [pairwise_cons] at hsorted
    obtain ⟨hannounced, hsame⟩ := h.announce (hlast i mem_cons_self)
    cases applyNow with
    | true =>
      obtain ⟨hrecorded, heq, -⟩ := hannounced.applyHardfork hround
      refine ⟨hrecorded, hsorted.2, fun j hj => ?_⟩
      rw [heq]
      exact hsorted.1 j hj
    | false =>
      simp only [Node.setHardforkRound, Bool.false_eq_true, if_false, pure_eq_ok] at hround
      subst hround
      refine ⟨hannounced, hsorted.2, fun j hj => ?_⟩
      rw [hsame]
      exact hlast j (mem_cons_of_mem _ hj)
  · intro i hi
    rw [mem_range'_1] at hi
    omega

theorem Recorded.genesisHardforks {timestamp : Nat}
    (hok : node.genesisHardforks m timestamp = .ok node') : Recorded node' := by
  unfold Node.genesisHardforks at hok
  simp only at hok
  split at hok
  · simp only [eq_ok] at hok
    obtain ⟨node₁, hset, -, -, rfl⟩ := hok
    exact h.setHardfork hset
  · cases hok
    exact h

end

-- # Counting the scheduled witnesses

/-- How many of those scheduled vote for a hardfork at a time. -/
def votesFor (db : Database) (vote : Nat × Nat) : Nat :=
  (scheduledNames db.schedule).countP fun name =>
    ((db.witnesses.find? name).map hardforkVote).any (decide <| · = vote)

/-- How many of those scheduled run a version at least. -/
def runningAtLeast (db : Database) (version : Nat) : Nat :=
  (scheduledNames db.schedule).countP fun name =>
    ((db.witnesses.find? name).map Witness.runningVersion).any (decide <| version ≤ ·)

theorem countP_scheduledWitnesses {β : Type}
    (h : db.scheduledWitnesses = .ok ws) (g : Witness → β) (p : β → Bool) :
    (ws.map g).countP p = (scheduledNames db.schedule).countP fun name =>
      ((db.witnesses.find? name).map g).any p := by
  have hall := mapM_eq_ok.mp h
  clear h
  generalize scheduledNames db.schedule = names at hall ⊢
  induction hall with
  | nil => rfl
  | cons hname _ ih =>
    rw [map_cons, countP_cons, countP_cons, ih, getWitness_eq_ok.mp hname]
    rfl

theorem length_scheduledNames_le (s : WitnessSchedule) :
    (scheduledNames s).length ≤ maxWitnesses := by
  unfold scheduledNames
  rw [length_take, Vector.length_toList]
  exact min_le_right _ _

/-- Two votes that more than half of the places are for are the same. -/
theorem quorum_unique {vote vote' : Nat × Nat} (hmajority : maxWitnesses < 2 * required)
    (h : required ≤ votesFor db vote) (h' : required ≤ votesFor db vote') : vote = vote' := by
  by_contra hne
  have hlength := length_scheduledNames_le db.schedule
  -- nobody votes for both
  have hsum : votesFor db vote + votesFor db vote' ≤ (scheduledNames db.schedule).length := by
    unfold votesFor
    generalize scheduledNames db.schedule = names
    induction names with
    | nil => exact Nat.le_refl 0
    | cons name names ih =>
      rw [countP_cons, countP_cons, length_cons]
      cases (db.witnesses.find? name).map hardforkVote with
      | none => simpa using Nat.le_succ_of_le ih
      | some v =>
        by_cases hv : v = vote
        · subst hv
          simp only [any_some, decide_true, if_true, decide_eq_true_eq, hne, if_false]
          omega
        · simp only [any_some, decide_eq_true_eq, hv, if_false]
          split <;> omega
  omega

/-- What an update has found out about the witnesses that were scheduled before it. -/
structure Agreed (db db' : Database) : Prop where
  next : db'.hardforks.nextHardfork ≠ db'.hardforks.currentHardforkVersion →
    db.schedule.hardforkRequiredWitnesses ≤
      votesFor db (db'.hardforks.nextHardfork, db'.hardforks.nextHardforkTime)
  unique : ∀ vote, db.schedule.hardforkRequiredWitnesses ≤ votesFor db vote →
    vote = (db'.hardforks.nextHardfork, db'.hardforks.nextHardforkTime)
  version : (∃ v, db.schedule.hardforkRequiredWitnesses ≤ runningAtLeast db v) →
    db.schedule.hardforkRequiredWitnesses ≤ runningAtLeast db db'.schedule.majorityVersion ∧
    ∀ v, db.schedule.hardforkRequiredWitnesses ≤ runningAtLeast db v →
      v ≤ db'.schedule.majorityVersion
  unchanged : (¬ ∃ v, db.schedule.hardforkRequiredWitnesses ≤ runningAtLeast db v) →
    db'.schedule.majorityVersion = db.schedule.majorityVersion

-- # What the votes decide

theorem versionBefore_trans (a b c : Nat × Nat) (hab : versionBefore a b) (hbc : versionBefore b c) :
    versionBefore a c := by
  simp only [versionBefore, decide_eq_true_eq] at *
  omega

theorem versionBefore_total (a b : Nat × Nat) (hne : a ≠ b) :
    versionBefore a b ∨ versionBefore b a := by
  simp only [versionBefore, decide_eq_true_eq, ne_eq, Prod.ext_iff] at *
  omega

theorem versionBefore_irrefl (a : Nat × Nat) : ¬ versionBefore a a := by
  simp only [versionBefore, decide_eq_true_eq]
  omega

theorem majorityHardfork_some {vote : Nat × Nat} (h : majorityHardfork required ws = some vote) :
    required ≤ (ws.map hardforkVote).countP (decide <| · = vote) := by
  obtain ⟨e, he, rfl⟩ := map_eq_some_iff.mp h
  have henough := find?_some he
  simp only [ge_iff_le, decide_eq_true_eq] at henough
  exact henough.trans (le_count_of_mem_tallies (mem_of_find?_eq_some he))

theorem majorityHardfork_none (hpos : 0 < required) (h : majorityHardfork required ws = none)
    (vote : Nat × Nat) : (ws.map hardforkVote).countP (decide <| · = vote) < required := by
  by_contra henough
  have hmem : vote ∈ ws.map hardforkVote := by
    obtain ⟨vote', hmem, heq⟩ := countP_pos_iff.mp (hpos.trans_le (not_lt.mp henough))
    exact of_decide_eq_true heq ▸ hmem
  have htally := mem_tallies versionBefore_trans versionBefore_total versionBefore_irrefl hmem
  have hnot := find?_eq_none.mp (map_eq_none_iff.mp h) _ htally
  simp only [ge_iff_le, decide_eq_true_eq] at hnot
  exact hnot (not_lt.mp henough)

/-- The version that is found is the largest that enough witnesses run at least. -/
theorem majorityVersion_spec (hpos : 0 < required) (ws : List Witness) :
    (∀ v, majorityVersion required ws = some v →
      required ≤ (ws.map Witness.runningVersion).countP (decide <| v ≤ ·) ∧
      ∀ u, v < u → (ws.map Witness.runningVersion).countP (decide <| u ≤ ·) < required) ∧
    (majorityVersion required ws = none →
      ∀ u, (ws.map Witness.runningVersion).countP (decide <| u ≤ ·) < required) := by
  have hsorted : (tallies (fun a b => decide (a > b)) (ws.map Witness.runningVersion)).Pairwise
      fun e f => f.1 < e.1 := by
    have htrans : ∀ a b c : Nat, decide (a > b) = true → decide (b > c) = true →
        decide (a > c) = true := by
      intro a b c hab hbc
      simp only [decide_eq_true_eq] at *
      omega
    have htotal : ∀ a b : Nat, a ≠ b → decide (a > b) = true ∨ decide (b > a) = true := by
      intro a b hne
      simp only [decide_eq_true_eq]
      omega
    have hpairwise := tallies_sorted htrans htotal (ws.map Witness.runningVersion)
    simpa only [gt_iff_lt, decide_eq_true_eq] using hpairwise
  have hspec := @majority_spec _ 0 _ hsorted hpos
  simp only [weight_tallies, Nat.zero_add] at hspec
  exact hspec

/-- **Counting.** With more than half of all places required, the part of an update on versions
finds out what the witnesses agree on. -/
theorem countVersions_agreed (hhardfork : db.hasHardfork hardfork05)
    (hmajority : maxWitnesses < 2 * db.schedule.hardforkRequiredWitnesses)
    (h : db.countVersions = .ok db') : Agreed db db' := by
  simp only [countVersions, hhardfork, if_true, eq_ok] at h
  obtain ⟨ws, hws, rfl⟩ := h
  have hpos : 0 < db.schedule.hardforkRequiredWitnesses := by omega
  have hvotes : ∀ vote, (ws.map hardforkVote).countP (decide <| · = vote) = votesFor db vote :=
    fun vote => countP_scheduledWitnesses hws _ _
  have hversions : ∀ v, (ws.map Witness.runningVersion).countP (decide <| v ≤ ·) =
      runningAtLeast db v := fun v => countP_scheduledWitnesses hws _ _
  obtain ⟨hsome, hnone⟩ := majorityVersion_spec hpos ws
  simp only [hversions] at hsome hnone
  refine ⟨?_, ?_, ?_, ?_⟩
  · -- a next hardfork comes from votes
    intro hnext
    cases hvote : majorityHardfork db.schedule.hardforkRequiredWitnesses ws with
    | none =>
      rw [hvote] at hnext
      exact absurd rfl hnext
    | some vote =>
      rw [← hvotes]
      exact majorityHardfork_some hvote
  · intro vote henough
    cases hvote : majorityHardfork db.schedule.hardforkRequiredWitnesses ws with
    | none =>
      have hfew := majorityHardfork_none hpos hvote vote
      rw [hvotes] at hfew
      omega
    | some vote' =>
      have henough' := majorityHardfork_some hvote
      rw [hvotes] at henough'
      exact quorum_unique hmajority henough henough'
  · rintro ⟨u, hu⟩
    cases hversion : majorityVersion db.schedule.hardforkRequiredWitnesses ws with
    | none => exact absurd (hnone hversion u) (not_lt.mpr hu)
    | some v =>
      obtain ⟨henough, hfewer⟩ := hsome v hversion
      refine ⟨henough, fun u hu => ?_⟩
      by_contra hlt
      exact absurd (hfewer u (not_le.mp hlt)) (not_lt.mpr hu)
  · intro hno
    cases hversion : majorityVersion db.schedule.hardforkRequiredWitnesses ws with
    | none => rfl
    | some v => exact absurd ⟨v, (hsome v hversion).1⟩ hno

/-- What the witnesses vote for and run is not written by the parts before the counting. -/
theorem Agreed.of_advance {db₁ : Database} {processed : List (AccountName × Witness)}
    (hadvance : (db.mark s).advance processed = .ok db₁) (h : Agreed db₁ db') : Agreed db db' := by
  have hschedule : db₁.schedule = db.schedule := by
    rw [advance_frame hadvance, mark_frame]
  have hread : ∀ {β : Type} {g : Witness → β},
      (∀ w t p position update time, g { w with
        schedule := t, powWorker := p, virtualPosition := position
        virtualLastUpdate := update, virtualScheduledTime := time } = g w) → ∀ name,
      (db₁.witnesses.find? name).map g = (db.witnesses.find? name).map g := by
    intro β g hg name
    refine (map_find?_advance (fun w position update time => ?_) hadvance name).trans ?_
    · exact hg w w.schedule w.powWorker position update time
    · refine map_find?_mark (fun w t p => ?_) ..
      exact hg w t p w.virtualPosition w.virtualLastUpdate w.virtualScheduledTime
  have hvotes : votesFor db₁ = votesFor db := by
    unfold votesFor
    simp only [hschedule, hread (g := hardforkVote) (fun _ _ _ _ _ _ => rfl)]
  have hversions : runningAtLeast db₁ = runningAtLeast db := by
    unfold runningAtLeast
    simp only [hschedule, hread (g := Witness.runningVersion) (fun _ _ _ _ _ _ => rfl)]
  obtain ⟨hnext, hunique, hversion, hunchanged⟩ := h
  rw [hschedule, hvotes] at hnext hunique
  rw [hschedule, hversions] at hversion hunchanged
  exact ⟨hnext, hunique, hversion, hunchanged⟩

theorem Agreed.of_medians {db₂ : Database} (h : Agreed db db₂)
    (hmedians : (db₂.storeSchedule s).updateMedianWitnessProps = .ok db') : Agreed db db' := by
  have hhardforks : db'.hardforks = db₂.hardforks := by
    rw [(updateMedianWitnessProps_frame hmedians).1]
    rfl
  have hversion : db'.schedule.majorityVersion = db₂.schedule.majorityVersion := by
    rw [(updateMedianWitnessProps_frame hmedians).2]
    rfl
  obtain ⟨hnext, hunique, hlargest, hunchanged⟩ := h
  rw [← hhardforks] at hnext hunique
  rw [← hversion] at hlargest hunchanged
  exact ⟨hnext, hunique, hlargest, hunchanged⟩

theorem update_agreed (hhardfork : db.hasHardfork hardfork05)
    (hmajority : maxWitnesses < 2 * db.schedule.hardforkRequiredWitnesses)
    (h : db.updateWitnessSchedule4 = .ok db') : Agreed db db' := by
  obtain ⟨db₁, db₂, hadvance, -, hversions, hmedians⟩ := updateWitnessSchedule4_ok h
  have hsame : db₁.schedule = db.schedule ∧ db₁.hardforks = db.hardforks := by
    rw [advance_frame hadvance, mark_frame]
    exact ⟨rfl, rfl⟩
  have hcounted : Agreed db₁ db₂ := by
    refine countVersions_agreed ?_ ?_ hversions
    · unfold Database.hasHardfork at hhardfork ⊢
      rw [hsame.2]
      exact hhardfork
    · rw [hsame.1]
      exact hmajority
  exact (hcounted.of_advance hadvance).of_medians hmedians

/-- An update of the schedule leaves the record of the hardforks alone. -/
theorem update_record (h : db.updateWitnessSchedule4 = .ok db') :
    ∃ next time, db'.hardforks =
      { db.hardforks with nextHardfork := next, nextHardforkTime := time } := by
  obtain ⟨db₁, db₂, hadvance, -, hversions, hmedians⟩ := updateWitnessSchedule4_ok h
  have hhardforks : db'.hardforks = db₂.hardforks := by
    rw [(updateMedianWitnessProps_frame hmedians).1]
    rfl
  have hbefore : db₁.hardforks = db.hardforks := by
    rw [advance_frame hadvance, mark_frame]
  rw [hhardforks, ← hbefore]
  unfold countVersions at hversions
  split at hversions
  · simp only [eq_ok] at hversions
    obtain ⟨ws, -, rfl⟩ := hversions
    cases majorityHardfork db₁.schedule.hardforkRequiredWitnesses ws with
    | none => exact ⟨_, _, rfl⟩
    | some vote => exact ⟨_, _, rfl⟩
  · cases hversions
    exact ⟨_, _, rfl⟩

-- # Runs

/-- What a node does. -/
inductive HardforkEvent where
  | processHardforks
  | genesisHardforks (timestamp : Nat)
  | setHardfork (hardfork : Nat) (applyNow : Bool)
  | updateWitnessSchedule
  | rest (write : Database → Database)

/-- One step of a run. Nothing else writes to the record of the hardforks. -/
def hardforkStep (m : Migration) (node : Node) : HardforkEvent → Checked Node
  | .processHardforks => node.processHardforks m
  | .genesisHardforks timestamp => node.genesisHardforks m timestamp
  | .setHardfork hardfork applyNow => node.setHardfork m hardfork applyNow
  | .updateWitnessSchedule => do
    let db ← node.db.updateWitnessSchedule4
    return { node with db := db }
  | .rest write =>
    return { node with db := { write node.db with hardforks := node.db.hardforks } }

theorem step_recorded {e : HardforkEvent} (h : Recorded node)
    (hstep : hardforkStep m node e = .ok node') : Recorded node' := by
  cases e with
  | processHardforks => exact h.processHardforks hstep
  | genesisHardforks timestamp => exact h.genesisHardforks hstep
  | setHardfork hardfork applyNow => exact h.setHardfork hstep
  | updateWitnessSchedule =>
    simp only [hardforkStep, eq_ok] at hstep
    obtain ⟨db, hupdate, rfl⟩ := hstep
    obtain ⟨next, time, hrecord⟩ := update_record hupdate
    refine h.congr ?_ ?_ ?_ (fun _ _ => rfl) rfl
    all_goals
      rw [hrecord]
  | rest write =>
    cases hstep
    exact h.congr rfl rfl rfl (fun _ _ => rfl) rfl

theorem genesis_recorded (supply : Int) : Recorded { db := genesis supply } where
  processed := by simp [genesis, initHardforkTimes]
  version := by simp [genesis, hardforkVersion]
  operations := by simp [genesis]

/-- **Hardforks come in order, each once, and by agreement.** In every state of a run the record
is complete, and the hardforks applied so far are the first ones, one after the other. Right after
an update of the schedule, a next hardfork that is not in force has enough votes of the witnesses
scheduled before, at one time that no other vote has enough for, and the majority version is the
largest that enough of them run at least. Those scheduled now are different witnesses. -/
theorem hardforks_in_order (m : Migration) (supply : Int) (events : List HardforkEvent)
    (hrun : Run.exec (Run.checked (hardforkStep m)) { db := genesis supply } events = some node) :
    (node.db.hardforks.processedHardforks.length = node.db.hardforks.lastHardfork + 1 ∧
      node.operations = List.range' 1 node.db.hardforks.lastHardfork) ∧
    ∀ db', node.db.updateWitnessSchedule4 = .ok db' → node.db.hasHardfork hardfork05 →
      maxWitnesses < 2 * node.db.schedule.hardforkRequiredWitnesses →
      Agreed node.db db' ∧ (scheduledNames db'.schedule).Nodup := by
  have hrecorded :=
    Run.checked_induct Recorded (fun _ _ _ => step_recorded) (genesis_recorded supply) hrun
  refine ⟨⟨?_, hrecorded.operations⟩, fun db' hupdate hhardfork hmajority => ⟨?_, ?_⟩⟩
  · rw [hrecorded.processed, length_map, length_range]
  · exact update_agreed hhardfork hmajority hupdate
  · exact (update_stored hupdate).perm.nodup_iff.mpr (nodup_active _)

/-- Nothing else changes with a hardfork. -/
def noMigration : Migration := ⟨fun _ db => .ok db, fun h => by cases h; rfl⟩

/-- Seventeen witnesses come that run version 21 and vote for it. -/
def addRunners (db : Database) : Database :=
  { db with witnesses := (List.range 17).foldl (fun t i =>
      t.emplace (String.ofList (List.replicate (i + 1) 'w'))
        { id := i + 1
          signingKey := some i
          runningVersion := hardforkVersion 21
          hardforkVersionVote := hardforkVersion 21
          hardforkTimeVote := 1600000000 }) db.witnesses }

/-- The chain starts with twenty hardforks in force, and seventeen witnesses of the round after
that agree on the next one. -/
theorem hardforks_in_order_runners : ∃ node db',
    Run.exec (Run.checked (hardforkStep noMigration)) { db := genesis 1000000 }
      [.genesisHardforks 1537887600, .rest addRunners, .updateWitnessSchedule] = some node ∧
    node.db.updateWitnessSchedule4 = .ok db' ∧
    db'.hardforks.nextHardfork = hardforkVersion 21 ∧ Agreed node.db db' := by
  simp only [exists_and_left]
  refine Run.exists_end (P := fun node => (∃ db', node.db.updateWitnessSchedule4 = .ok db' ∧
    db'.hardforks.nextHardfork = hardforkVersion 21) ∧ node.db.hasHardfork hardfork05 ∧
    maxWitnesses < 2 * node.db.schedule.hardforkRequiredWitnesses) (by decide +kernel) ?_
  rintro node hnode ⟨⟨db', hok, hnext⟩, hhardfork, hmajority⟩
  exact ⟨db', hok, hnext, ((hardforks_in_order _ _ _ hnode).2 db' hok hhardfork hmajority).1⟩

end DeltaChain.Schedule

import DeltaChain.Ledger.Pools
import DeltaChain.Schedule.Run
import DeltaChain.Schedule.Selection

/-!
# The end of a round

`update_witness_schedule4` succeeds if and only if the number of witnesses it can schedule is the
number it expects, that of all witnesses up to `DELTA_MAX_WITNESSES` (`update_succeeds_iff`). It
skips witnesses without a signing key and counts them none the less, so that one such witness
among few is enough to stop the chain (`update_fails_without_key`). When it succeeds the schedule
is a permutation of those chosen (`schedule_chosen`).
-/

namespace DeltaChain.Ledger.Database

open Lib Protocol Checked List Option Table

variable {db db' : Database} {name : AccountName} {processed : List (AccountName × Witness)}
  {s : Selection} {names : List AccountName} {ws : List Witness}

-- # What cannot fail

theorem startLaps_succeeds (h : ∀ e ∈ processed, e.2.votes + 1 ≠ 0) (now : Nat) (db : Database) :
    ∃ r, startLaps now processed db = .ok r := by
  induction processed generalizing db with
  | nil => exact ⟨some db, rfl⟩
  | cons e processed ih =>
    have hfirst := h e mem_cons_self
    obtain ⟨r, hr⟩ := ih (fun f hf => h f (mem_cons_of_mem _ hf))
      (db.modifyWitness e.1 (startLap · now))
    simp only [startLaps, eq_ok]
    split
    · exact ⟨none, hfirst, rfl⟩
    · exact ⟨r, hfirst, hr⟩

theorem advance_succeeds (hall : ∀ name w, db.witnesses.find? name = some w → w.votes + 1 ≠ 0)
    (h : ∀ e ∈ processed, e.2.votes + 1 ≠ 0) : ∃ db', db.advance processed = .ok db' := by
  obtain ⟨r, hr⟩ := startLaps_succeeds h (db.newVirtualTime processed) db
  simp only [advance, hr]
  cases r with
  | some db₁ => exact ⟨_, rfl⟩
  | none =>
    refine ⟨db.restarted, ?_⟩
    change db.resetVirtualScheduleTime = _
    simp only [resetVirtualScheduleTime, eq_ok]
    exact ⟨fun e he => hall e.1 e.2 (mem_entries_iff.mp he), rfl⟩

/-- All that are scheduled are witnesses. -/
def Known (db : Database) : Prop :=
  ∀ name ∈ scheduledNames db.schedule, ∃ w, db.witnesses.find? name = some w

theorem Known.scheduledWitnesses (h : Known db) : ∃ ws, db.scheduledWitnesses = .ok ws := by
  refine exists_mapM_eq_ok fun name hname => ?_
  obtain ⟨w, hw⟩ := h name hname
  exact ⟨w, getWitness_eq_ok.mpr hw⟩

theorem known_of_scheduledWitnesses (h : db.scheduledWitnesses = .ok ws) : Known db := by
  intro name hname
  obtain ⟨w, -, hw⟩ := exists_of_mapM_eq_ok h hname
  exact ⟨w, getWitness_eq_ok.mp hw⟩

theorem Known.countVersions (h : Known db) : ∃ db', db.countVersions = .ok db' := by
  obtain ⟨ws, hws⟩ := h.scheduledWitnesses
  unfold Database.countVersions
  split
  · simp only [hws]
    exact ⟨_, rfl⟩
  · exact ⟨_, rfl⟩

theorem median_succeeds {α : Type} [LinearOrder α] (hne : ws ≠ [])
    (f : Witness → α) : ∃ w ∈ ws, median ws f = .ok (f w) := by
  have hlt : ws.length / 2 < (ws.map f).length := by
    have hpos := length_pos_iff.mpr hne
    rw [length_map]
    omega
  obtain ⟨v, hv⟩ := Rank.exists_nthElement hlt
  obtain ⟨w, hw, rfl⟩ := mem_map.mp (Rank.mem_of_nthElement hv)
  exact ⟨w, hw, get_eq_ok.mpr hv⟩

theorem Known.updateMedianWitnessProps (h : Known db) (hne : scheduledNames db.schedule ≠ []) :
    ∃ db', db.updateMedianWitnessProps = .ok db' := by
  obtain ⟨ws, hws⟩ := h.scheduledWitnesses
  have hwitnesses : ws ≠ [] := by
    intro hnil
    have hlength := (mapM_eq_ok.mp hws).length_eq
    rw [hnil] at hlength
    exact hne (length_eq_zero_iff.mp hlength)
  obtain ⟨w₁, -, h₁⟩ := median_succeeds hwitnesses (·.props.accountCreationFee)
  obtain ⟨w₂, -, h₂⟩ := median_succeeds hwitnesses (·.props.maximumBlockSize)
  obtain ⟨w₃, -, h₃⟩ := median_succeeds hwitnesses (·.props.dbdInterestRate)
  obtain ⟨w₄, -, h₄⟩ := median_succeeds hwitnesses (·.props.accountSubsidyBudget)
  obtain ⟨w₅, -, h₅⟩ := median_succeeds hwitnesses (·.props.accountSubsidyDecay)
  obtain ⟨w₆, -, h₆⟩ := median_succeeds hwitnesses (·.availableWitnessAccountSubsidies)
  have hvalid : rdValidateUserParams ⟨w₄.props.accountSubsidyBudget, w₅.props.accountSubsidyDecay⟩ =
      .ok () := by
    simp only [rdValidateUserParams, eq_ok]
    exact ⟨w₄.props.budget_bounds.1, w₄.props.budget_bounds.2, w₅.props.decay_bounds⟩
  obtain ⟨rd, witnessRd, hrd, hwitnessRd⟩ := rdSetup_succeeds hvalid
  unfold Database.updateMedianWitnessProps
  simp only [hws, h₁, h₂, h₃, h₄, h₅, h₆, ok_bind, hvalid, hrd, hwitnessRd]
  exact ⟨_, rfl⟩

-- # What can fail

/-- What the rest of the chain keeps of the schedule: no witness has the one number of votes that
would divide by zero, all that are scheduled are witnesses, and there is room for those that are
elected and mine. -/
structure Ready (db : Database) : Prop where
  votes : ∀ name w, db.witnesses.find? name = some w → w.votes + 1 ≠ 0
  known : Known db
  room : db.schedule.maxVotedWitnesses + db.schedule.maxMinerWitnesses ≤ maxWitnesses

theorem find?_isSome_of_keys {db₁ db₂ : Database} {w : Witness}
    (hkeys : db₂.witnesses.keys = db₁.witnesses.keys) (hw : db₁.witnesses.find? name = some w) :
    ∃ w', db₂.witnesses.find? name = some w' := by
  rw [← isSome_iff_exists, find?_isSome_iff, hkeys, ← find?_isSome_iff, hw]
  rfl

/-- **The size assertion is all that can fail.** -/
theorem Ready.update_succeeds_of_length (hr : Ready db) (hone : 1 ≤ db.select.active.length)
    (hlength : db.select.active.length = min maxWitnesses db.witnesses.keys.length) :
    ∃ db', db.updateWitnessSchedule4 = .ok db' := by
  have hvotes : ∀ name w, (db.mark db.select).witnesses.find? name = some w → w.votes + 1 ≠ 0 := by
    intro name w hw
    have heq := map_find?_mark (g := Witness.votes) (fun _ _ _ => rfl) db.select db name
    rw [hw] at heq
    obtain ⟨w₀, hw₀, hsame⟩ := map_eq_some_iff.mp heq.symm
    rw [← hsame]
    exact hr.votes name w₀ hw₀
  have hprocessed : ∀ e ∈ db.select.processed, e.2.votes + 1 ≠ 0 := by
    intro e he
    have hmem : e ∈ db.byScheduleTime := IsPrefix.subset ( pick_snd_prefix _ _) he
    exact hr.votes e.1 e.2
      (mem_entries_iff.mp ((byScheduleTime_perm db).mem_iff.mp hmem))
  obtain ⟨db₁, hadvance⟩ := advance_succeeds hvotes hprocessed
  have hkeys : db₁.witnesses.keys = db.witnesses.keys := (keys_advance hadvance).trans (keys_mark ..)
  have hschedule : db₁.schedule = db.schedule := by
    rw [advance_frame hadvance, mark_frame]
  have hknown : Known db₁ := by
    intro name hname
    rw [hschedule] at hname
    obtain ⟨w, hw⟩ := hr.known name hname
    exact find?_isSome_of_keys hkeys hw
  obtain ⟨db₂, hversions⟩ := hknown.countVersions
  have hkeys₂ : db₂.witnesses.keys = db.witnesses.keys := by
    rw [countVersions_frame hversions]
    exact hkeys
  -- the new schedule names those that were chosen
  have hperm : (scheduledNames (db₂.storeSchedule db.select).schedule).Perm db.select.active :=
    scheduledNames_perm hone (hlength.trans_le (min_le_left _ _))
  have hknown' : Known (db₂.storeSchedule db.select) := by
    intro name hname
    obtain ⟨w, hw, -⟩ := eligible_of_active (hperm.mem_iff.mp hname)
    exact find?_isSome_of_keys hkeys₂ hw
  have hne : scheduledNames (db₂.storeSchedule db.select).schedule ≠ [] := by
    intro hnil
    rw [hnil] at hperm
    rw [← hperm.length_eq] at hone
    cases hone
  obtain ⟨db', hmedians⟩ := hknown'.updateMedianWitnessProps hne
  refine ⟨db', ?_⟩
  simp only [updateWitnessSchedule4, eq_ok]
  exact ⟨db₁, hadvance, hkeys ▸ hlength, db₂, hversions, hmedians⟩

/-- **When a round can end**: `update_witness_schedule4` returns if and only if there are as many
witnesses that may be scheduled as there are witnesses, up to the number of places. -/
theorem update_succeeds_iff (hr : Ready db) (hne : db.witnesses.keys ≠ []) :
    (∃ db', db.updateWitnessSchedule4 = .ok db') ↔
      min maxWitnesses db.witnesses.keys.length ≤ db.eligibleCount := by
  have hlength := length_active hr.room
  have hle : db.eligibleCount ≤ db.witnesses.keys.length :=
    countP_le_length.trans_eq (length_map _).symm
  have hpos := length_pos_iff.mpr hne
  have hmax : 0 < maxWitnesses := by decide
  constructor
  · rintro ⟨db', h⟩
    obtain ⟨db₁, db₂, hadvance, hactive, -, -⟩ := updateWitnessSchedule4_ok h
    rw [(keys_advance hadvance).trans (keys_mark ..)] at hactive
    omega
  · intro henough
    exact hr.update_succeeds_of_length (by omega) (by omega)

-- # What is stored

/-- How a witness was chosen when it was chosen last. -/
def scheduleOf (db : Database) (name : AccountName) : Option ScheduleType :=
  (db.witnesses.find? name).map Witness.schedule

theorem scheduleOf_markWitnesses (hn : names.Nodup) (t : ScheduleType)
    (db : Database) (name : AccountName) :
    (db.markWitnesses names fun w => { w with schedule := t }).scheduleOf name =
      (db.scheduleOf name).map fun old => if name ∈ names then t else old := by
  unfold scheduleOf
  rw [find?_markWitnesses hn]
  split
  · rw [Option.map_map, Option.map_map]
    rfl
  · rw [Option.map_map]
    rfl

/-- After the loops every witness that was chosen says how. -/
theorem scheduleOf_mark (db : Database) (name : AccountName) :
    (db.mark db.select).scheduleOf name = (db.scheduleOf name).map fun old =>
      if name ∈ db.select.timeshare then .timeshare
      else if name ∈ db.select.miners then .miner
      else if name ∈ db.select.elected then .elected
      else old := by
  have helected : db.select.elected.Nodup := (elect_choice db).nodup
  have hminers : db.select.miners.Nodup := (mine_choice db _).nodup
  have htimeshare : db.select.timeshare.Nodup := (share_choice db _).nodup
  -- leaving the queue does not change how a witness was chosen
  have hqueue : ∀ (db₁ : Database) (names : List AccountName)
      (p : GlobalProperties → GlobalProperties),
      ((db₁.markWitnesses names fun w => { w with powWorker := 0 }).modifyProps p).scheduleOf name =
        db₁.scheduleOf name := by
    intro db₁ names p
    exact map_find?_markWitnesses (f := fun w => { w with powWorker := 0 })
      (g := Witness.schedule) (fun _ => rfl) names db₁ name
  unfold mark
  rw [scheduleOf_markWitnesses htimeshare, hqueue, scheduleOf_markWitnesses hminers,
    scheduleOf_markWitnesses helected, Option.map_map, Option.map_map]
  rfl

theorem map_find?_advance {β : Type} {g : Witness → β} (hg : ∀ w position update time, g { w with
        virtualPosition := position, virtualLastUpdate := update, virtualScheduledTime := time } =
      g w) (h : db.advance processed = .ok db') (name : AccountName) :
    (db'.witnesses.find? name).map g = (db.witnesses.find? name).map g := by
  rcases advance_cases h with ⟨-, rfl⟩ | ⟨-, rfl⟩
  · exact map_find?_markWitnesses (fun w => hg w _ _ _) ..
  · unfold restarted
    rw [Table.find?_map, Option.map_map]
    exact congrArg (fun k => Option.map k _) (funext fun w => hg w _ _ _)

/-- How many of those scheduled were chosen in one way. -/
def scheduledAs (db : Database) (t : ScheduleType) : Nat :=
  (scheduledNames db.schedule).countP
    fun name => db.scheduleOf name = some t

/-- The schedule an update stores, and how its witnesses were chosen. -/
structure Stored (db db' : Database) : Prop where
  one : 1 ≤ db.select.active.length
  max : db.select.active.length ≤ maxWitnesses
  count : db'.schedule.numScheduledWitnesses = db.select.active.length
  perm : (scheduledNames db'.schedule).Perm db.select.active
  rest : db'.schedule.currentShuffledWitnesses.toList.drop db'.schedule.numScheduledWitnesses =
    List.replicate (maxWitnesses - db.select.active.length) ""
  factor : db'.schedule.witnessPayNormalizationFactor =
    db'.schedule.electedWeight * db.select.elected.length +
      db'.schedule.minerWeight * db.select.miners.length +
      db'.schedule.timeshareWeight * db.select.timeshare.length
  chosen : ∀ name, db'.scheduleOf name = (db.mark db.select).scheduleOf name
  keys : ∀ name, (db'.witnesses.find? name).map Witness.signingKey =
    (db.witnesses.find? name).map Witness.signingKey

theorem update_stored (h : db.updateWitnessSchedule4 = .ok db') : Stored db db' := by
  obtain ⟨db₁, db₂, hadvance, hactive, hversions, hmedians⟩ := updateWitnessSchedule4_ok h
  have hframe := updateWitnessSchedule4_frame h hadvance
  have hmax : db.select.active.length ≤ maxWitnesses := hactive.trans_le (min_le_left _ _)
  have hwitnesses : db'.witnesses = db₁.witnesses := by rw [hframe]
  have hkeys : db₂.witnesses.keys = db₁.witnesses.keys := by rw [countVersions_frame hversions]
  have hone : 1 ≤ db.select.active.length := by
    by_contra hzero
    -- without witnesses there is nobody to ask for the medians
    have hnone : db₁.witnesses.keys = [] := by
      refine length_eq_zero_iff.mp ?_
      have hplaces : 0 < maxWitnesses := by decide
      omega
    simp only [updateMedianWitnessProps, bind_eq_ok] at hmedians
    obtain ⟨active, hnames, -⟩ := hmedians
    obtain ⟨name, hname⟩ := exists_mem_of_length_pos (length_scheduledNames_pos db₂ db.select)
    obtain ⟨w, hw⟩ := known_of_scheduledWitnesses hnames name hname
    have hmem : name ∈ db₂.witnesses.keys :=
      find?_isSome_iff.mp (isSome_iff_exists.mpr ⟨w, hw⟩)
    rw [hkeys, hnone] at hmem
    cases hmem
  have hschedule := (updateMedianWitnessProps_frame hmedians).2
  refine ⟨hone, hmax, ?_, ?_, ?_, ?_, ?_, ?_⟩
  · rw [hschedule]
    exact max_eq_left hone
  · rw [hschedule]
    exact scheduledNames_perm hone hmax
  · rw [hschedule]
    exact drop_storeSchedule hone hmax
  · rw [hschedule]
    rfl
  · intro name
    unfold scheduleOf
    rw [hwitnesses]
    exact map_find?_advance (fun _ _ _ _ => rfl) hadvance name
  · intro name
    rw [hwitnesses, map_find?_advance (fun _ _ _ _ => rfl) hadvance name]
    exact map_find?_mark (fun _ _ _ => rfl) _ _ _

/-- Everyone who was chosen is on record with the way it was. -/
theorem scheduleOf_select (db : Database) :
    (∀ n ∈ db.select.elected, (db.mark db.select).scheduleOf n = some .elected) ∧
    (∀ n ∈ db.select.miners, (db.mark db.select).scheduleOf n = some .miner) ∧
    (∀ n ∈ db.select.timeshare, (db.mark db.select).scheduleOf n = some .timeshare) := by
  have hfound : ∀ n ∈ db.select.active, ∃ t, db.scheduleOf n = some t := by
    intro n hn
    obtain ⟨w, hw, -⟩ := eligible_of_active hn
    exact ⟨w.schedule, congrArg (Option.map Witness.schedule) hw⟩
  have hactive := nodup_active db
  rw [Selection.active, nodup_append, nodup_append] at hactive
  obtain ⟨⟨-, -, hminer⟩, -, hshare⟩ := hactive
  refine ⟨fun n hn => ?_, fun n hn => ?_, fun n hn => ?_⟩
  · have hnot : n ∉ db.select.timeshare := fun hin =>
      hshare n (mem_append_left _ hn) n hin rfl
    have hnot' : n ∉ db.select.miners := fun hin => hminer n hn n hin rfl
    obtain ⟨t, ht⟩ := hfound n (mem_append_left _ (mem_append_left _ hn))
    rw [scheduleOf_mark, ht, map_some, if_neg hnot, if_neg hnot', if_pos hn]
  · have hnot : n ∉ db.select.timeshare := fun hin =>
      hshare n (mem_append_right _ hn) n hin rfl
    obtain ⟨t, ht⟩ := hfound n (mem_append_left _ (mem_append_right _ hn))
    rw [scheduleOf_mark, ht, map_some, if_neg hnot, if_pos hn]
  · obtain ⟨t, ht⟩ := hfound n (mem_append_right _ hn)
    rw [scheduleOf_mark, ht, map_some, if_pos hn]

theorem countP_scheduleOf {t : ScheduleType}
    (h : ∀ n ∈ names, db.scheduleOf n = some t) (u : ScheduleType) :
    names.countP (fun n => db.scheduleOf n = some u) = if u = t then names.length else 0 := by
  split
  · next heq =>
    subst heq
    exact countP_eq_length.mpr fun n hn => decide_eq_true (h n hn)
  · next hne =>
    refine countP_eq_zero.mpr fun n hn hsome => hne ?_
    rw [decide_eq_true_eq, h n hn] at hsome
    exact (some.inj hsome).symm

/-- Of those scheduled, how many were elected, mine or share the rest of the time. -/
theorem Stored.scheduledAs_eq (h : Stored db db') :
    db'.scheduledAs .elected = db.select.elected.length ∧
    db'.scheduledAs .miner = db.select.miners.length ∧
    db'.scheduledAs .timeshare = db.select.timeshare.length := by
  obtain ⟨helected, hminers, htimeshare⟩ := scheduleOf_select db
  have hcount : ∀ t, db'.scheduledAs t =
      (if t = .elected then db.select.elected.length else 0) +
        (if t = .miner then db.select.miners.length else 0) +
        (if t = .timeshare then db.select.timeshare.length else 0) := by
    intro t
    unfold scheduledAs
    rw [h.perm.countP_eq]
    simp only [h.chosen]
    unfold Selection.active
    rw [countP_append, countP_append, countP_scheduleOf helected,
      countP_scheduleOf hminers, countP_scheduleOf htimeshare]
  refine ⟨?_, ?_, ?_⟩
  all_goals
    rw [hcount]
    simp

/-- **The schedule of a round.** When `update_witness_schedule4` returns, the names scheduled are
those that the three loops have selected, in some order: different witnesses, with a signing key
from hardfork 14 on. Every witness that may be scheduled
and is outranked by fewer such witnesses than are elected is among them. Behind them there are
empty names. The pay is normalized by how the witnesses were chosen. -/
theorem schedule_chosen (h : db.updateWitnessSchedule4 = .ok db') :
    (scheduledNames db'.schedule).length = db'.schedule.numScheduledWitnesses ∧
    (scheduledNames db'.schedule).Perm db.select.active ∧
    (scheduledNames db'.schedule).Nodup ∧
    (∀ name ∈ scheduledNames db'.schedule, ∃ w, db'.witnesses.find? name = some w ∧
      (db.hasHardfork hardfork014 = true → w.signingKey ≠ none)) ∧
    (∀ name w, db.witnesses.find? name = some w → db.eligible w = true →
      db.witnesses.entries.countP (fun e => db.eligible e.2 && decide (outranks e (name, w))) <
        db.schedule.maxVotedWitnesses → name ∈ scheduledNames db'.schedule) ∧
    (∀ name ∈ db'.schedule.currentShuffledWitnesses.toList.drop
      db'.schedule.numScheduledWitnesses, name = "") ∧
    db'.schedule.witnessPayNormalizationFactor =
      db'.schedule.electedWeight * db'.scheduledAs .elected +
        db'.schedule.minerWeight * db'.scheduledAs .miner +
        db'.schedule.timeshareWeight * db'.scheduledAs .timeshare := by
  have hs := update_stored h
  obtain ⟨helected, hminers, htimeshare⟩ := hs.scheduledAs_eq
  refine ⟨?_, hs.perm, ?_, ?_, ?_, ?_, ?_⟩
  · rw [hs.perm.length_eq, hs.count]
  · exact hs.perm.nodup_iff.mpr (nodup_active db)
  · intro name hname
    obtain ⟨w, hw, hok⟩ := eligible_of_active (hs.perm.mem_iff.mp hname)
    have hkey := hs.keys name
    rw [hw] at hkey
    obtain ⟨w', hw', hsame⟩ := map_eq_some_iff.mp hkey
    refine ⟨w', hw', fun hhardfork => ?_⟩
    rw [hsame]
    intro hnone
    simp [eligible, hhardfork, hnone] at hok
  · intro name w hw hok hrank
    have hmem := mem_elected hw hok hrank
    exact hs.perm.mem_iff.mpr (mem_append_left _ (mem_append_left _ hmem))
  · intro name hname
    rw [hs.rest] at hname
    exact eq_of_mem_replicate hname
  · rw [helected, hminers, htimeshare]
    exact hs.factor

end DeltaChain.Ledger.Database

namespace DeltaChain.Schedule

open Lib Protocol Ledger Ledger.Database Checked List Option Table

/-- All hardforks are in force. -/
def allHardforks : HardforkProperties where
  processedHardforks := List.replicate (numHardforks + 1) genesisTime
  lastHardfork := numHardforks

/-- All hardforks are in force. Besides the first witness there are 21 others, and the one of these
with the most votes has no signing key. -/
def crowded : Database :=
  let names := ["a", "b", "c", "d", "e", "f", "g", "h", "i", "j", "k", "l", "m", "n", "o", "p", "q",
    "r", "s", "t", "u"]
  { genesis 1000000 with
    hardforks := allHardforks
    witnesses := names.zipIdx.foldl (fun t e => t.emplace e.1
      { signingKey := if e.1 = "u" then none else some e.2, votes := e.2 })
      (genesis 1000000).witnesses }

theorem crowded_ready : Ready crowded := by
  have hvotes : ∀ e ∈ crowded.witnesses.entries, e.2.votes + 1 ≠ 0 := by decide +kernel
  refine ⟨fun name w hw => hvotes (name, w) (mem_entries_iff.mpr hw), fun name hname => ?_, by decide⟩
  have hnames : scheduledNames crowded.schedule = [initMinerName] := by decide
  rw [hnames, mem_singleton] at hname
  subst hname
  exact isSome_iff_exists.mp (by decide +kernel)

/-- The witness without a key is skipped, and 21 others are left. -/
theorem update_succeeds_crowded : ∃ db', crowded.updateWitnessSchedule4 = .ok db' :=
  (update_succeeds_iff crowded_ready (by decide +kernel)).mpr (by decide +kernel)

/-- **A round that cannot end.** Somebody becomes a witness without a signing key. There are two
witnesses then, of which one can be scheduled, while two are expected. -/
theorem update_fails_without_key : ∃ db, Run.exec (Run.checked step) (genesis 1000000)
      [.setHardforks allHardforks (genesis 1000000).schedule,
        .ledger (.witnessUpdate { owner := tempAccount })] = some db ∧
    db.witnesses.keys.length = 2 ∧ ¬ ∃ db', db.updateWitnessSchedule4 = .ok db' := by
  decide +kernel

/-- The 21 witnesses with a signing key are scheduled. -/
theorem schedule_chosen_crowded : ∃ db', crowded.updateWitnessSchedule4 = .ok db' ∧
    (scheduledNames db'.schedule).Perm crowded.select.active ∧
    (scheduledNames db'.schedule).Nodup ∧ "u" ∉ scheduledNames db'.schedule ∧
    "t" ∈ scheduledNames db'.schedule ∧
    db'.schedule.witnessPayNormalizationFactor =
      db'.schedule.electedWeight * db'.scheduledAs .elected +
        db'.schedule.minerWeight * db'.scheduledAs .miner +
        db'.schedule.timeshareWeight * db'.scheduledAs .timeshare := by
  obtain ⟨hone, hlength, hskipped⟩ : 1 ≤ crowded.select.active.length ∧
    crowded.select.active.length = min maxWitnesses crowded.witnesses.keys.length ∧
    "u" ∉ crowded.select.active := by decide +kernel
  obtain ⟨w, hw, hok, hrank⟩ : ∃ w, crowded.witnesses.find? "t" = some w ∧
    crowded.eligible w = true ∧ crowded.witnesses.entries.countP (fun e =>
      crowded.eligible e.2 && decide (outranks e ("t", w))) <
        crowded.schedule.maxVotedWitnesses := by decide +kernel
  obtain ⟨db', h⟩ := crowded_ready.update_succeeds_of_length hone hlength
  obtain ⟨-, hperm, hnodup, -, htop, -, hfactor⟩ := schedule_chosen h
  exact ⟨db', h, hperm, hnodup, fun hu => hskipped (hperm.mem_iff.mp hu), htop "t" w hw hok hrank,
    hfactor⟩

/-- The hardforks up to 13 are in force. -/
def firstHardforks : HardforkProperties where
  processedHardforks := List.replicate hardfork014 genesisTime
  lastHardfork := hardfork014 - 1

/-- **Before hardfork 14 a witness without a signing key is scheduled** like every other. -/
theorem scheduled_without_key : ∃ db db', Run.exec (Run.checked step) (genesis 1000000)
      [.setHardforks firstHardforks (genesis 1000000).schedule,
        .ledger (.witnessUpdate { owner := tempAccount })] = some db ∧
    db.updateWitnessSchedule4 = .ok db' ∧ tempAccount ∈ scheduledNames db'.schedule ∧
    (db'.witnesses.find? tempAccount).map Witness.signingKey = some none := by
  simp only [exists_and_left]
  decide +kernel

end DeltaChain.Schedule

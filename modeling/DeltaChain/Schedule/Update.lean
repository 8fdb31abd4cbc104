import DeltaChain.Ledger.Schedule

/-!
# What an update of the schedule writes

`update_witness_schedule4` part by part: which witnesses the loops write to, when the virtual
schedule advances and when it starts anew, and what the parts after that leave alone
(`updateWitnessSchedule4_ok`).
-/

namespace DeltaChain.Ledger.Database

open Lib Protocol Checked List Table

variable {db db' : Database} {names : List AccountName} {name : AccountName}
  {f : Witness → Witness} {processed : List (AccountName × Witness)} {now : Nat} {g : Witness → β}
  {β : Type}

-- # The same write to several witnesses

theorem markWitnesses_frame (names : List AccountName) (f : Witness → Witness) (db : Database) :
    db.markWitnesses names f = { db with witnesses := (db.markWitnesses names f).witnesses } := by
  induction names generalizing db with
  | nil => rfl
  | cons n names ih => exact ih (db.modifyWitness n f)

theorem keys_markWitnesses (names : List AccountName) (f : Witness → Witness) (db : Database) :
    (db.markWitnesses names f).witnesses.keys = db.witnesses.keys := by
  induction names generalizing db with
  | nil => rfl
  | cons n names ih => exact (ih (db.modifyWitness n f)).trans (keys_modify ..)

theorem find?_markWitnesses (hn : names.Nodup) (f : Witness → Witness) (db : Database)
    (name : AccountName) : (db.markWitnesses names f).witnesses.find? name =
      if name ∈ names then (db.witnesses.find? name).map f else db.witnesses.find? name := by
  induction names generalizing db with
  | nil => rfl
  | cons n names ih =>
    rw [nodup_cons] at hn
    have hrest := ih hn.2 (db.modifyWitness n f)
    have hfirst : (db.modifyWitness n f).witnesses.find? name = _ := find?_modify ..
    refine hrest.trans ?_
    rw [hfirst]
    by_cases hname : name = n
    · subst hname
      simp [hn.1]
    · simp [hname]

theorem map_find?_markWitnesses (hg : ∀ w, g (f w) = g w)
    (names : List AccountName) (db : Database) (name : AccountName) :
    ((db.markWitnesses names f).witnesses.find? name).map g =
      (db.witnesses.find? name).map g := by
  induction names generalizing db with
  | nil => rfl
  | cons n names ih =>
    refine (ih (db.modifyWitness n f)).trans ?_
    refine (congrArg (Option.map g) (find?_modify ..)).trans ?_
    split
    · rw [Option.map_map]
      exact congrArg (fun k => Option.map k _) (funext hg)
    · rfl

/-- What is read off a witness besides its place in the queue and how it was chosen is not
written by the loops that choose. -/
theorem map_find?_mark
    (hg : ∀ w t p, g { w with schedule := t, powWorker := p } = g w) (s : Selection)
    (db : Database) (name : AccountName) :
    ((db.mark s).witnesses.find? name).map g = (db.witnesses.find? name).map g := by
  have hschedule : ∀ t w, g { w with schedule := t } = g w := fun t w => hg w t w.powWorker
  have hpow : ∀ w, g { w with powWorker := 0 } = g w := fun w => hg w w.schedule 0
  unfold mark
  refine (map_find?_markWitnesses (hschedule _) ..).trans ?_
  refine (map_find?_markWitnesses hpow ..).trans ?_
  refine (map_find?_markWitnesses (hschedule _) ..).trans ?_
  exact map_find?_markWitnesses (hschedule _) ..

theorem keys_mark (s : Selection) (db : Database) :
    (db.mark s).witnesses.keys = db.witnesses.keys := by
  unfold mark
  refine (keys_markWitnesses ..).trans ?_
  refine (keys_markWitnesses ..).trans ?_
  exact (keys_markWitnesses ..).trans (keys_markWitnesses ..)

theorem mark_frame (s : Selection) (db : Database) : db.mark s =
    { db with
      witnesses := (db.mark s).witnesses
      props := { db.props with
        numPowWitnesses := db.props.numPowWitnesses - s.dequeued.length } } := by
  unfold mark
  rw [markWitnesses_frame s.timeshare, markWitnesses_frame s.dequeued,
    markWitnesses_frame s.miners, markWitnesses_frame s.elected]
  rfl

-- # The virtual schedule

/-- The sum of the virtual time and a lap has wrapped around. -/
def Wrapped (now : Nat) (votes : Int) : Prop := u128 (now + lapTime votes) < now

/-- The loop over the witnesses that were processed gets to the end, or stops at a sum that has
wrapped around. -/
theorem startLaps_cases {r : Option Database} (h : startLaps now processed db = .ok r) :
    (∀ e ∈ processed, ¬ Wrapped now e.2.votes) ∧
      r = some (db.markWitnesses (processed.map Prod.fst) (startLap · now)) ∨
    (∃ e ∈ processed, Wrapped now e.2.votes) ∧ r = none := by
  induction processed generalizing db with
  | nil =>
    rw [startLaps, pure_eq_ok] at h
    exact .inl ⟨by simp, h.symm⟩
  | cons e processed ih =>
    simp only [startLaps, eq_ok] at h
    obtain ⟨-, h⟩ := h
    split at h
    · next hwrapped =>
      rw [pure_eq_ok] at h
      exact .inr ⟨⟨e, mem_cons_self, hwrapped⟩, h.symm⟩
    · next hfits =>
      rcases ih h with ⟨hall, hr⟩ | ⟨⟨e', he', hwrapped⟩, hr⟩
      · refine .inl ⟨fun e' he' => ?_, hr⟩
        rcases mem_cons.mp he' with rfl | he'
        · exact hfits
        · exact hall e' he'
      · exact .inr ⟨⟨e', mem_cons_of_mem _ he', hwrapped⟩, hr⟩

/-- The schedule after everyone was advanced. -/
def advanced (db : Database) (processed : List (AccountName × Witness)) (now : Nat) : Database :=
  { db.markWitnesses (processed.map Prod.fst) (startLap · now) with currentVirtualTime := now }

/-- The schedule after all have started anew. -/
def restarted (db : Database) : Database :=
  { db with
    currentVirtualTime := 0
    witnesses := db.witnesses.map fun w =>
      { w with
        virtualPosition := 0
        virtualLastUpdate := 0
        virtualScheduledTime := lapTime w.votes } }

theorem resetVirtualScheduleTime_ok (h : db.resetVirtualScheduleTime = .ok db') :
    db' = db.restarted := by
  simp only [resetVirtualScheduleTime, eq_ok] at h
  exact h.2.symm

theorem advance_cases (h : db.advance processed = .ok db') :
    (∀ e ∈ processed, ¬ Wrapped (db.newVirtualTime processed) e.2.votes) ∧
      db' = db.advanced processed (db.newVirtualTime processed) ∨
    (∃ e ∈ processed, Wrapped (db.newVirtualTime processed) e.2.votes) ∧ db' = db.restarted := by
  simp only [advance, bind_eq_ok] at h
  obtain ⟨r, hlaps, h⟩ := h
  rcases startLaps_cases hlaps with ⟨hall, rfl⟩ | ⟨hsome, rfl⟩
  · rw [pure_eq_ok] at h
    exact .inl ⟨hall, h.symm⟩
  · exact .inr ⟨hsome, resetVirtualScheduleTime_ok h⟩

theorem advance_frame (h : db.advance processed = .ok db') :
    db' = { db with
      witnesses := db'.witnesses, currentVirtualTime := db'.currentVirtualTime } := by
  rcases advance_cases h with ⟨-, rfl⟩ | ⟨-, rfl⟩
  · unfold advanced
    rw [markWitnesses_frame]
  · rfl

theorem keys_advance (h : db.advance processed = .ok db') :
    db'.witnesses.keys = db.witnesses.keys := by
  rcases advance_cases h with ⟨-, rfl⟩ | ⟨-, rfl⟩
  · exact keys_markWitnesses ..
  · exact keys_map _ _

-- # The parts after that

theorem countVersions_frame (h : db.countVersions = .ok db') :
    db' = { db with hardforks := db'.hardforks, schedule := db'.schedule } := by
  unfold countVersions at h
  split at h
  · simp only [eq_ok] at h
    obtain ⟨witnesses, -, rfl⟩ := h
    rfl
  · cases h
    rfl

theorem updateMedianWitnessProps_frame (h : db.updateMedianWitnessProps = .ok db') :
    db' = { db with
      accountCreationFee := db'.accountCreationFee
      schedule := db'.schedule
      props := { db.props with
        maximumBlockSize := db'.props.maximumBlockSize
        dbdInterestRate := db'.props.dbdInterestRate } } ∧
    db'.schedule = { db.schedule with
      medianMaximumBlockSize := db'.schedule.medianMaximumBlockSize
      medianDbdInterestRate := db'.schedule.medianDbdInterestRate
      medianAccountSubsidyBudget := db'.schedule.medianAccountSubsidyBudget
      medianAccountSubsidyDecay := db'.schedule.medianAccountSubsidyDecay
      accountSubsidyRd := db'.schedule.accountSubsidyRd
      accountSubsidyWitnessRd := db'.schedule.accountSubsidyWitnessRd } := by
  simp only [updateMedianWitnessProps, eq_ok] at h
  obtain ⟨active, -, fee, -, blockSize, -, interestRate, -, budget, -, decay, -, available, -,
    u, -, rd, -, witnessRd, -, rfl⟩ := h
  exact ⟨rfl, rfl⟩

/-- **What an update does**: the loops write down whom they chose, the virtual schedule advances,
the number of the chosen is checked, the versions are counted, the schedule is stored and the
medians are taken. -/
theorem updateWitnessSchedule4_ok (h : db.updateWitnessSchedule4 = .ok db') :
    ∃ db₁ db₂, (db.mark db.select).advance db.select.processed = .ok db₁ ∧
      db.select.active.length = min maxWitnesses db₁.witnesses.keys.length ∧
      db₁.countVersions = .ok db₂ ∧
      (db₂.storeSchedule db.select).updateMedianWitnessProps = .ok db' := by
  simp only [updateWitnessSchedule4, eq_ok] at h
  obtain ⟨db₁, hadvance, hactive, db₂, hversions, hmedians⟩ := h
  exact ⟨db₁, db₂, hadvance, hactive, hversions, hmedians⟩

/-- The witnesses and the virtual time are those after the virtual schedule has advanced, and of
the rest only what belongs to the schedule is written. -/
theorem updateWitnessSchedule4_frame {db₁ : Database} (h : db.updateWitnessSchedule4 = .ok db')
    (hadvance : (db.mark db.select).advance db.select.processed = .ok db₁) :
    db' = { db with
      witnesses := db₁.witnesses
      currentVirtualTime := db₁.currentVirtualTime
      hardforks := db'.hardforks
      schedule := db'.schedule
      accountCreationFee := db'.accountCreationFee
      props := { db.props with
        numPowWitnesses := db.props.numPowWitnesses - db.select.dequeued.length
        maximumBlockSize := db'.props.maximumBlockSize
        dbdInterestRate := db'.props.dbdInterestRate } } := by
  obtain ⟨db₂, db₃, hsame, -, hversions, hmedians⟩ := updateWitnessSchedule4_ok h
  obtain rfl : db₁ = db₂ := Except.ok.inj (hadvance.symm.trans hsame)
  have hmark := mark_frame db.select db
  have hadvanced := advance_frame hadvance
  rw [hmark] at hadvanced
  rw [(updateMedianWitnessProps_frame hmedians).1, storeSchedule, countVersions_frame hversions,
    hadvanced]

end DeltaChain.Ledger.Database

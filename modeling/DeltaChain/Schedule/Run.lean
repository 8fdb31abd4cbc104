import DeltaChain.Schedule.Adjustments

/-!
# Virtual time, run by run

Operations that change votes, updates of the schedule and whatever else is written about
witnesses come in any order, from genesis on. In every state that is reached each witness was
updated in the past and is scheduled for the future, and in every step nothing of the virtual
schedule wraps around unnoticed (`virtual_time_exact`).
-/

namespace DeltaChain.Schedule

open Lib Protocol Ledger Ledger.Database Checked Option

-- # Steps

/-- What else is written about a witness: by the operations of its owner, by the headers of its
blocks and by the mining queue. -/
structure WitnessSettings where
  signingKey : Option Nat
  props : ChainProperties
  powWorker : Nat
  runningVersion : Nat
  hardforkVersionVote : Nat
  hardforkTimeVote : Nat
  availableWitnessAccountSubsidies : Int

def WitnessSettings.set (s : WitnessSettings) (w : Witness) : Witness :=
  { w with
    signingKey := s.signingKey
    props := s.props
    powWorker := s.powWorker
    runningVersion := s.runningVersion
    hardforkVersionVote := s.hardforkVersionVote
    hardforkTimeVote := s.hardforkTimeVote
    availableWitnessAccountSubsidies := s.availableWitnessAccountSubsidies }

/-- A witness is written to, and made if there is none of that name. -/
def setWitness (db : Database) (name : AccountName) (settings : WitnessSettings) : Database :=
  if db.witnesses.find? name = none then
    { db with
      witnesses := db.witnesses.emplace name (settings.set { id := db.nextWitnessId })
      nextWitnessId := db.nextWitnessId + 1 }
  else db.modifyWitness name settings.set

/-- What happens to the witnesses. -/
inductive Event where
  | ledger (e : Voting.Event)
  | setWitness (name : AccountName) (settings : WitnessSettings)
  | setHardforks (hardforks : HardforkProperties) (schedule : WitnessSchedule)
  | resetVirtualScheduleTime
  | updateWitnessSchedule

/-- The rest of a block does not touch the virtual time. -/
def inVirtualTime (db : Database) : Voting.Event → Voting.Event
  | .restOfBlock env => .restOfBlock { env with currentVirtualTime := db.currentVirtualTime }
  | e => e

/-- One step of a run. The total of all shares is kept in 64 bits. -/
def step (db : Database) : Event → Checked Database
  | .ledger e => do
    let db ← Voting.step db (inVirtualTime db e)
    assert (db.props.totalVestingShares < 2 ^ 63) "overflow"
    return db
  | .setWitness name settings => return setWitness db name settings
  | .setHardforks hardforks schedule =>
    return { db with hardforks := hardforks, schedule := schedule }
  | .resetVirtualScheduleTime => db.resetVirtualScheduleTime
  | .updateWitnessSchedule => db.updateWitnessSchedule4

/-- What a step does to the virtual schedule. -/
def Moves (db : Database) (e : Event) (db' : Database) : Prop :=
  match e with
  | .updateWitnessSchedule => Rescheduled db.select.processed db db'
  | .resetVirtualScheduleTime => db'.currentVirtualTime = 0 ∧
      ∀ name, db'.laps name = (db.laps name).map fun l => fullLap l.votes 0
  | _ => Adjusts Exact db db'

/-- What holds in every state: the votes are right, there are not too many, and everyone is on
its lap. -/
structure OnSchedule (db : Database) : Prop where
  sound : VotesSound 0 db
  total_lt : db.props.totalVestingShares < 2 ^ 63
  timed : Timed db

variable {db db' : Database}

theorem OnSchedule.fits (h : OnSchedule db) : Fits db := by
  intro name l hl
  obtain ⟨w, hw, rfl⟩ := map_eq_some_iff.mp hl
  have hle := h.sound.tallied.votes_le h.sound.nonneg name
  have htotal := h.total_lt
  rw [polls_votes hw, h.sound.total, add_zero] at hle
  exact hle.trans_lt htotal

/-- A write to the witnesses that leaves their votes alone. -/
theorem quiet_of_laps (haccounts : db'.accounts = db.accounts)
    (hballots : db'.witnessVotes = db.witnessVotes)
    (htotal : db'.props.totalVestingShares = db.props.totalVestingShares)
    (hkeys : db'.witnesses.keys = db.witnesses.keys)
    (hvotes : ∀ name, (db'.laps name).map Lap.votes = (db.laps name).map Lap.votes) :
    Quiet db db' := by
  refine ⟨?_, htotal, fun name hname => hkeys ▸ hname⟩
  have hlaps : ∀ db : Database, db.polls.votes = fun name =>
      ((db.laps name).map Lap.votes).getD 0 := by
    intro db
    funext name
    unfold polls laps
    rw [map_map]
    rfl
  have hfun : db'.polls.votes = db.polls.votes := by
    rw [hlaps, hlaps]
    simp only [hvotes]
  have hrest : db'.polls = { db.polls with votes := db'.polls.votes } := by
    unfold polls
    simp only [haccounts, hballots]
  rw [hrest, hfun]

-- # What a step does

/-- Every operation is a sequence of calls of `adjust_witness_vote`. -/
theorem ledger_adjusts {e : Voting.Event} (hs : VotesSound 0 db)
    (htotal : db.props.totalVestingShares < 2 ^ 63)
    (htotal' : db'.props.totalVestingShares < 2 ^ 63)
    (h : Voting.step db (inVirtualTime db e) = .ok db') : Adjusts Votes db db' := by
  simp only [Voting.step, eq_ok] at h
  obtain ⟨hsigner, h⟩ := h
  cases e with
  | transferToVesting fromAccount toAccount amount => exact transferToVesting_adjusts hs htotal' h
  | claimRewardBalance op => exact claimRewardBalance_adjusts hs htotal' h
  | withdrawVesting account vestingShares =>
    obtain ⟨rate, next, toWithdraw, rfl⟩ := withdrawVesting_eq_ok h
    exact .frame rfl
  | setWithdrawVestingRoute fromAccount toAccount percent autoVest =>
    obtain ⟨routes, number, rfl⟩ := setWithdrawVestingRoute_eq_ok h
    exact .frame rfl
  | accountWitnessVote account witness approve =>
    exact accountWitnessVote_adjusts hs (fun heq => hsigner (congrArg some heq)) htotal h
  | accountWitnessProxy account proxy =>
    exact accountWitnessProxy_adjusts hs (fun heq => hsigner (congrArg some heq)) htotal h
  | declineVotingRights account decline => exact .frame (declineVotingRights_frame h)
  | witnessUpdate op => exact .calm (witnessUpdate_calm h)
  | accountCreate creator newAccountName fee => exact .frame (accountCreate_frame h)
  | createVesting toAccount liquid toRewardBalance => exact createVesting_adjusts hs htotal' h
  | processVestingWithdrawals =>
    refine (payVestingWithdrawals_induct (fun s => VotesSound 0 s ∧ Paid db s) ?_
      ⟨hs, .refl, le_refl _⟩ h).2.adjusts
    rintro s name s' ⟨hs, hpaid⟩ hpay
    exact ⟨payVestingWithdrawal_sound hs hpay,
      hpaid.trans (payVestingWithdrawal_paid hs (hpaid.total_le.trans_lt htotal) hpay)⟩
  | processDeclineVotingRights => exact processDeclineVotingRights_adjusts hs htotal h
  | clearNullAccountBalance => exact .frame (clearNullAccountBalance_frame h)
  | restOfBlock env =>
    change (pure _ : Checked Database) = _ at h
    cases h
    exact .calm (calm_of_eq rfl rfl)

/-- An update of the schedule keeps the votes and moves the laps on. -/
theorem update_onSchedule (ho : OnSchedule db) (h : db.updateWitnessSchedule4 = .ok db') :
    Rescheduled db.select.processed db db' ∧ OnSchedule db' := by
  obtain ⟨db₁, db₂, hadvance, -, -, -⟩ := updateWitnessSchedule4_ok h
  have hframe := updateWitnessSchedule4_frame h hadvance
  have hfront : db.select.processed <+: db.byScheduleTime := pick_snd_prefix _ _
  have hmoved := ho.timed.advance_rescheduled hfront ho.fits hadvance
  have hlaps : db'.laps = db₁.laps := by
    rw [hframe]
    rfl
  have htime : db'.currentVirtualTime = db₁.currentVirtualTime := by
    rw [hframe]
  have hmoved' : Rescheduled db.select.processed db db' := by
    cases hmoved with
    | advanced fits time laps => exact .advanced fits (htime.trans time) (hlaps ▸ laps)
    | reset wraps time laps => exact .reset wraps (htime.trans time) (hlaps ▸ laps)
  have hvotes : ∀ name, (db'.laps name).map Lap.votes = (db.laps name).map Lap.votes := by
    intro name
    cases hmoved' with
    | advanced fits time laps =>
      rw [laps, map_map]
      refine map_congr fun l _ => ?_
      split
      all_goals rfl
    | reset wraps time laps =>
      rw [laps, map_map]
      rfl
  have hkeys : db'.witnesses.keys = db.witnesses.keys := by
    rw [hframe]
    refine (keys_advance hadvance).trans (keys_mark _ _)
  have hquiet : Quiet db db' := by
    refine quiet_of_laps ?_ ?_ ?_ hkeys hvotes
    all_goals rw [hframe]
  refine ⟨hmoved', ho.sound.quiet hquiet, ?_, ho.timed.rescheduled hfront hmoved'⟩
  rw [hquiet.total]
  exact ho.total_lt

theorem reset_onSchedule (ho : OnSchedule db) (h : db.resetVirtualScheduleTime = .ok db') :
    (db'.currentVirtualTime = 0 ∧
      ∀ name, db'.laps name = (db.laps name).map fun l => fullLap l.votes 0) ∧
    OnSchedule db' := by
  obtain rfl := resetVirtualScheduleTime_ok h
  have hlaps := ho.timed.laps_restarted ho.fits
  refine ⟨⟨rfl, hlaps⟩, ho.sound.quiet ?_, ho.total_lt, Nat.two_pow_pos 128, fun name l hl => ?_⟩
  · refine quiet_of_laps rfl rfl rfl (Table.keys_map _ _) fun name => ?_
    rw [hlaps, map_map]
    rfl
  · rw [hlaps] at hl
    obtain ⟨old, hold, rfl⟩ := map_eq_some_iff.mp hl
    exact onLap_fullLap (ho.timed.onLap name old hold).votes_nonneg (fullLap_zero_lt old.votes)

/-- **Every step is exact**, and leads to a state on schedule again. -/
theorem step_onSchedule {e : Event} (ho : OnSchedule db) (h : step db e = .ok db') :
    Moves db e db' ∧ OnSchedule db' := by
  cases e with
  | ledger e =>
    simp only [step, eq_ok] at h
    obtain ⟨db₁, hstep, htotal, rfl⟩ := h
    have hadjusts := ho.timed.adjusts (ledger_adjusts ho.sound ho.total_lt htotal hstep)
    exact ⟨hadjusts.1, Voting.step_sound ho.sound hstep, htotal, hadjusts.2⟩
  | setWitness name settings =>
    cases h
    unfold setWitness
    split
    · next hnew =>
      have hcalm := Calm.emplaceWitness (w := settings.set { id := db.nextWitnessId })
        (n := db.nextWitnessId + 1) hnew rfl
      exact ⟨.calm hcalm, ho.sound.quiet (.emplaceWitness hnew rfl), ho.total_lt,
        ho.timed.calm hcalm⟩
    · have hcalm : Calm db (db.modifyWitness name settings.set) := .modifyWitness fun _ => rfl
      exact ⟨.calm hcalm, ho.sound.quiet (.modifyWitness fun _ => rfl), ho.total_lt,
        ho.timed.calm hcalm⟩
  | setHardforks hardforks schedule =>
    cases h
    have hcalm : Calm db { db with hardforks := hardforks, schedule := schedule } :=
      calm_of_eq rfl rfl
    exact ⟨.calm hcalm, ho.sound.quiet ⟨rfl, rfl, fun _ hw => hw⟩, ho.total_lt,
      ho.timed.calm hcalm⟩
  | resetVirtualScheduleTime => exact reset_onSchedule ho h
  | updateWitnessSchedule => exact update_onSchedule ho h

theorem run_onSchedule {start : Database} {events : List Event} (ho : OnSchedule start)
    (h : Run.exec (Run.checked step) start events = some db) : OnSchedule db :=
  Run.checked_induct OnSchedule (fun _ _ _ ho hstep => (step_onSchedule ho hstep).2) ho h

theorem genesis_onSchedule (supply : Int) : OnSchedule (genesis supply) := by
  have htotal : (0 : Int) < 2 ^ 63 := by decide
  refine ⟨genesis_sound supply, htotal, Nat.two_pow_pos 128, fun name l hl => ?_⟩
  simp only [laps, genesis, Table.find?_emplace, Table.find?_empty] at hl
  split at hl
  · cases hl
    exact onLap_firstLap (Nat.two_pow_pos 128)
  · cases hl

/-- **Virtual time is exact along every run.** Every witness was last updated in the past and is
scheduled for the future. Whatever happens next, nothing wraps around in `adjust_witness_vote` or
when witnesses are rescheduled, besides the sum of the virtual time and a lap, which is then
saturated or makes all start anew. -/
theorem virtual_time_exact (supply : Int) (events : List Event)
    (h : Run.exec (Run.checked step) (genesis supply) events = some db) :
    (∀ name w, db.witnesses.find? name = some w →
      w.virtualLastUpdate ≤ db.currentVirtualTime ∧
        db.currentVirtualTime ≤ w.virtualScheduledTime) ∧
    ∀ e db', step db e = .ok db' → Moves db e db' := by
  have ho : OnSchedule db := run_onSchedule (genesis_onSchedule supply) h
  refine ⟨fun name w hw => ?_, fun e db' hstep => (step_onSchedule ho hstep).1⟩
  have hlap := ho.timed.onLap name (lapOf w) (congrArg (Option.map lapOf) hw)
  exact ⟨hlap.past, hlap.future⟩

/-- The first witness is voted for in the middle of its lap, by an account that then votes for
another one too, and is scheduled twice. -/
theorem virtual_time_exact_voted : ∃ db, Run.exec (Run.checked step) (genesis 1000000)
      [.ledger (.transferToVesting initMinerName "" ⟨1000, .delta⟩),
        .ledger (.accountWitnessVote initMinerName initMinerName true),
        .updateWitnessSchedule,
        .ledger (.witnessUpdate { owner := tempAccount, blockSigningKey := some 1 }),
        .ledger (.accountWitnessVote initMinerName tempAccount true),
        .updateWitnessSchedule] = some db ∧
    (∀ name w, db.witnesses.find? name = some w →
      w.virtualLastUpdate ≤ db.currentVirtualTime ∧
        db.currentVirtualTime ≤ w.virtualScheduledTime) ∧
    ∀ e db', step db e = .ok db' → Moves db e db' := by
  exact Run.exists_end (P := fun _ => True) (by decide +kernel) fun _ h _ => virtual_time_exact _ _ h

end DeltaChain.Schedule

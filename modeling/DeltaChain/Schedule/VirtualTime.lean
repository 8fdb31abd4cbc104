import DeltaChain.Schedule.Update

/-!
# Virtual time

A witness runs laps at a speed of one more than its votes. Its record says where on the lap it
was at its last update and when it will be at the end. A lap is as long as the 128 bits allow,
so that nothing but the place of the witness on its lap (`OnLap`) keeps the arithmetic of
`adjust_witness_vote` from wrapping around: with it the distance run, the position and what is
left of the lap are what they are in the integers, and the one sum that does wrap, that of the
virtual time and the rest of the lap, is noticed (`OnLap.exact`). The witness is on its lap
again after (`OnLap.adjusted`).
-/

namespace DeltaChain.Ledger.Database

open Lib Protocol List Option

/-- What a witness knows about its lap. -/
structure Lap where
  votes : Int
  position : Nat
  lastUpdate : Nat
  scheduledTime : Nat

def lapOf (w : Witness) : Lap :=
  ⟨w.votes, w.virtualPosition, w.virtualLastUpdate, w.virtualScheduledTime⟩

/-- The lap of a witness that was just created. -/
def firstLap : Lap := ⟨0, 0, 0, 2 ^ 128 - 1⟩

/-- The whole of a lap from `now` on. -/
def fullLap (votes : Int) (now : Nat) : Lap :=
  ⟨votes, 0, now, now + virtualScheduleLapLength2 / (votes.toNat + 1)⟩

-- # Places on a lap

/-- The place on a lap at the virtual time `now`: until its scheduled time the witness does not
run past the end. -/
structure OnLap (now : Nat) (l : Lap) : Prop where
  votes_nonneg : 0 ≤ l.votes
  past : l.lastUpdate ≤ now
  future : now ≤ l.scheduledTime
  bounded : l.scheduledTime < 2 ^ 128
  within : l.position + (l.votes + 1) * (l.scheduledTime - l.lastUpdate : Int) ≤
    virtualScheduleLapLength2

/-- The distance run since the last update, with the votes until now. -/
def distance (w : Witness) (now : Nat) : Int := w.votes * ((now : Int) - w.virtualLastUpdate)

/-- What is left of the lap, in virtual time, with the new votes. -/
def restOfLap (w : Witness) (now : Nat) (delta : Int) : Int :=
  (virtualScheduleLapLength2 - (w.virtualPosition + distance w now)) / (w.votes + delta + 1)

/-- A call of `adjust_witness_vote` in which nothing wraps around but the last sum, and that
only noticed. -/
structure Exact (now : Nat) (w : Witness) (delta : Int) : Prop where
  elapsed : w.virtualLastUpdate ≤ now
  distance_nonneg : 0 ≤ distance w now
  distance_lt : distance w now < 2 ^ 128
  position_lt : w.virtualPosition + distance w now < 2 ^ 128
  position_le : w.virtualPosition + distance w now ≤ virtualScheduleLapLength2
  position : ((adjustedWitness w now delta).virtualPosition : Int) =
    w.virtualPosition + distance w now
  scheduled :
    now + restOfLap w now delta < 2 ^ 128 ∧
      ((adjustedWitness w now delta).virtualScheduledTime : Int) = now + restOfLap w now delta ∨
    2 ^ 128 ≤ now + restOfLap w now delta ∧ u128 (now + restOfLap w now delta) < now ∧
      (adjustedWitness w now delta).virtualScheduledTime = 2 ^ 128 - 1

/-- The votes after a change fit into 64 bits. -/
def InRange (w : Witness) (delta : Int) : Prop := 0 ≤ w.votes + delta ∧ w.votes + delta < 2 ^ 63

section Adjust

variable {now : Nat} {w : Witness} {delta : Int} (h : OnLap now (lapOf w))

include h

theorem OnLap.distance_nonneg : 0 ≤ distance w now := by
  have hpast : w.virtualLastUpdate ≤ now := h.past
  exact mul_nonneg h.votes_nonneg (by omega)

theorem OnLap.position_le : w.virtualPosition + distance w now ≤ virtualScheduleLapLength2 := by
  have hpast : w.virtualLastUpdate ≤ now := h.past
  have hfuture : now ≤ w.virtualScheduledTime := h.future
  have hvotes : 0 ≤ w.votes := h.votes_nonneg
  have hwithin : (w.virtualPosition : Int) +
    (w.votes + 1) * (w.virtualScheduledTime - w.virtualLastUpdate) ≤ _ := h.within
  have hrun : distance w now ≤
      (w.votes + 1) * ((w.virtualScheduledTime : Int) - w.virtualLastUpdate) := by
    unfold distance
    gcongr
    all_goals omega
  omega

theorem OnLap.position_eq : ((adjustedWitness w now delta).virtualPosition : Int) =
    w.virtualPosition + distance w now := by
  have hpast : w.virtualLastUpdate ≤ now := h.past
  have hfuture : now ≤ w.virtualScheduledTime := h.future
  have hbounded : w.virtualScheduledTime < 2 ^ 128 := h.bounded
  have hdistance := h.distance_nonneg
  have hposition := h.position_le
  unfold virtualScheduleLapLength2 at hposition
  unfold adjustedWitness
  simp only
  rw [u128_of_lt (x := (now : Int) - w.virtualLastUpdate) (by omega) (by omega)]
  rw [u128_of_lt (x := w.votes * _) hdistance (by unfold distance at hposition; omega)]
  rw [u128_of_lt]
  · rfl
  · change 0 ≤ _ + distance w now
    omega
  · change _ + distance w now < _
    omega

theorem OnLap.restOfLap_lt : restOfLap w now delta < 2 ^ 128 := by
  have hposition := h.position_le
  have hdistance := h.distance_nonneg
  have hle : restOfLap w now delta ≤
      virtualScheduleLapLength2 - (w.virtualPosition + distance w now) :=
    Int.ediv_le_self _ (by omega)
  unfold virtualScheduleLapLength2 at hle
  omega

variable (hrange : InRange w delta)

include hrange

theorem OnLap.scheduled_eq : (adjustedWitness w now delta).virtualScheduledTime =
    if u128 (now + restOfLap w now delta) < now then 2 ^ 128 - 1
    else u128 (now + restOfLap w now delta) := by
  have hposition := h.position_le
  have hnew : ((adjustedWitness w now delta).virtualPosition : Int) = _ := h.position_eq
  obtain ⟨hnonneg, hlt⟩ := hrange
  unfold virtualScheduleLapLength2 at hposition
  have hrest : ((u128 ((virtualScheduleLapLength2 : Int) -
      (adjustedWitness w now delta).virtualPosition) / u128 (w.votes + delta + 1) : Nat) : Int) =
        restOfLap w now delta := by
    rw [Int.natCast_div, u128_of_lt (x := w.votes + delta + 1) (by omega) (by omega), u128_of_lt]
    · rw [hnew, restOfLap]
    · unfold virtualScheduleLapLength2
      omega
    · unfold virtualScheduleLapLength2
      omega
  rw [← hrest]
  rfl

theorem OnLap.restOfLap_nonneg : 0 ≤ restOfLap w now delta := by
  have hposition := h.position_le
  obtain ⟨hnonneg, -⟩ := hrange
  exact Int.ediv_nonneg (by omega) (by omega)

/-- The sum of the time and the rest of the lap, and what is stored for it. -/
theorem OnLap.scheduled_cases :
    now + restOfLap w now delta < 2 ^ 128 ∧
      ((adjustedWitness w now delta).virtualScheduledTime : Int) = now + restOfLap w now delta ∨
    2 ^ 128 ≤ now + restOfLap w now delta ∧ u128 (now + restOfLap w now delta) < now ∧
      (adjustedWitness w now delta).virtualScheduledTime = 2 ^ 128 - 1 := by
  have hrest := h.restOfLap_nonneg hrange
  have hlt : restOfLap w now delta < _ := h.restOfLap_lt
  rw [h.scheduled_eq hrange]
  generalize restOfLap w now delta = rest at *
  by_cases hfits : now + rest < 2 ^ 128
  · have hsum := u128_of_lt (x := now + rest) (by omega) hfits
    refine .inl ⟨hfits, ?_⟩
    rw [if_neg (by omega)]
    exact hsum
  · -- the sum has wrapped around once, to below the time it started from
    have hwrapped : u128 (now + rest) < now := by
      unfold u128
      omega
    exact .inr ⟨by omega, hwrapped, if_pos hwrapped⟩

/-- **Nothing wraps around unnoticed** in `adjust_witness_vote`. -/
theorem OnLap.exact : Exact now w delta := by
  have hposition := h.position_le
  have hdistance := h.distance_nonneg
  have hlap : (virtualScheduleLapLength2 : Int) < 2 ^ 128 := by decide
  exact ⟨h.past, hdistance, by omega, by omega, hposition, h.position_eq,
    h.scheduled_cases hrange⟩

/-- After the change of its votes the witness is on its lap again. -/
theorem OnLap.adjusted : OnLap now (lapOf (adjustedWitness w now delta)) := by
  have hfuture : now ≤ w.virtualScheduledTime := h.future
  have hbounded : w.virtualScheduledTime < 2 ^ 128 := h.bounded
  have hrest := h.restOfLap_nonneg hrange
  have hposition : ((adjustedWitness w now delta).virtualPosition : Int) = _ := h.position_eq
  have hcases := h.scheduled_cases hrange
  obtain ⟨hnonneg, -⟩ := hrange
  have hmul : (w.votes + delta + 1) * restOfLap w now delta ≤ _ :=
    Int.mul_ediv_self_le (k := w.votes + delta + 1) (by omega)
  set new := adjustedWitness w now delta with hnew
  have hvotes : new.votes = w.votes + delta := rfl
  have hupdate : new.virtualLastUpdate = now := rfl
  have hle : (new.virtualScheduledTime : Int) - now ≤ restOfLap w now delta := by
    rcases hcases with ⟨-, heq⟩ | ⟨hwrap, -, heq⟩ <;> omega
  have hwithin : (new.virtualPosition : Int) + (new.votes + 1) *
      (new.virtualScheduledTime - new.virtualLastUpdate) ≤ virtualScheduleLapLength2 := by
    have hrun := mul_le_mul_of_nonneg_left hle (show 0 ≤ w.votes + delta + 1 by omega)
    rw [hposition, hvotes, hupdate]
    omega
  refine ⟨hnonneg, le_of_eq hupdate, ?_, ?_, hwithin⟩
  · change now ≤ new.virtualScheduledTime
    rcases hcases with ⟨-, heq⟩ | ⟨-, -, heq⟩ <;> omega
  · change new.virtualScheduledTime < 2 ^ 128
    rcases hcases with ⟨hfits, heq⟩ | ⟨-, -, heq⟩ <;> omega

end Adjust

-- # The whole schedule

def laps (db : Database) (name : AccountName) : Option Lap := (db.witnesses.find? name).map lapOf

/-- Every witness is on its lap. -/
structure Timed (db : Database) : Prop where
  time_lt : db.currentVirtualTime < 2 ^ 128
  onLap : ∀ name l, db.laps name = some l → OnLap db.currentVirtualTime l

/-- The votes of every witness fit into 64 bits. -/
def Fits (db : Database) : Prop := ∀ name l, db.laps name = some l → l.votes < 2 ^ 63

/-- What an update does to the virtual schedule. Either no sum of the new time and a lap wraps
around and those that were processed start a lap, or one does and all start anew. -/
inductive Rescheduled (processed : List (AccountName × Witness)) (db db' : Database) : Prop where
  | advanced
      (fits : ∀ e ∈ processed,
        (fullLap e.2.votes (db.newVirtualTime processed)).scheduledTime < 2 ^ 128)
      (time : db'.currentVirtualTime = db.newVirtualTime processed)
      (laps : ∀ name, db'.laps name = (db.laps name).map fun l =>
        if name ∈ processed.map Prod.fst then fullLap l.votes (db.newVirtualTime processed) else l)
  | reset
      (wraps : ∃ e ∈ processed,
        2 ^ 128 ≤ (fullLap e.2.votes (db.newVirtualTime processed)).scheduledTime)
      (time : db'.currentVirtualTime = 0)
      (laps : ∀ name, db'.laps name = (db.laps name).map fun l => fullLap l.votes 0)

theorem onLap_firstLap {now : Nat} (hnow : now < 2 ^ 128) : OnLap now firstLap := by
  refine ⟨le_refl _, Nat.zero_le _, Nat.le_sub_one_of_lt hnow, by decide, ?_⟩
  unfold firstLap virtualScheduleLapLength2
  norm_num

theorem fullLap_zero_lt (votes : Int) : (fullLap votes 0).scheduledTime < 2 ^ 128 := by
  have hle : virtualScheduleLapLength2 / (votes.toNat + 1) ≤ virtualScheduleLapLength2 :=
    Nat.div_le_self _ _
  have hlap : virtualScheduleLapLength2 < 2 ^ 128 := by decide
  simp only [fullLap]
  omega

section Lap

variable {votes : Int} {now : Nat} (hnonneg : 0 ≤ votes)

include hnonneg

theorem lapTime_eq (hlt : votes < 2 ^ 63) :
    lapTime votes = virtualScheduleLapLength2 / (votes.toNat + 1) := by
  have hspeed := u128_of_lt (x := votes + 1) (by omega) (by omega)
  have heq : u128 (votes + 1) = votes.toNat + 1 := by omega
  rw [lapTime, heq]

theorem onLap_fullLap (hfits : (fullLap votes now).scheduledTime < 2 ^ 128) :
    OnLap now (fullLap votes now) := by
  refine ⟨hnonneg, le_refl _, Nat.le_add_right _ _, hfits, ?_⟩
  have hrun : (votes.toNat + 1) * (virtualScheduleLapLength2 / (votes.toNat + 1)) ≤
    virtualScheduleLapLength2 := Nat.mul_div_le _ _
  have hspeed : votes + 1 = ((votes.toNat + 1 : Nat) : Int) := by omega
  simp only [fullLap, hspeed]
  push_cast at hrun ⊢
  rw [add_sub_cancel_left, zero_add]
  exact_mod_cast hrun

theorem wrapped_iff (hlt : votes < 2 ^ 63) (hnow : now < 2 ^ 128) :
    Wrapped now votes ↔ 2 ^ 128 ≤ (fullLap votes now).scheduledTime := by
  have hle : virtualScheduleLapLength2 / (votes.toNat + 1) ≤ virtualScheduleLapLength2 :=
    Nat.div_le_self _ _
  have hlap : virtualScheduleLapLength2 < 2 ^ 128 := by decide
  rw [Wrapped, lapTime_eq hnonneg hlt]
  simp only [fullLap, u128]
  generalize virtualScheduleLapLength2 / (votes.toNat + 1) = lap at *
  omega

theorem lapOf_startLap {w : Witness} (hw : votes = w.votes) (hlt : votes < 2 ^ 63)
    (hfits : (fullLap votes now).scheduledTime < 2 ^ 128) :
    lapOf (startLap w now) = fullLap votes now := by
  subst hw
  have hsum := u128_of_lt (x := now + lapTime w.votes) (by omega)
    (by rw [lapTime_eq hnonneg hlt]; simp only [fullLap] at hfits; omega)
  simp only [lapOf, startLap, fullLap, Lap.mk.injEq, true_and]
  rw [lapTime_eq hnonneg hlt] at hsum ⊢
  omega

end Lap

section Reschedule

variable {db db' : Database} {processed : List (AccountName × Witness)} (ht : Timed db)
  {e : AccountName × Witness}

instance : IsTrans (AccountName × Witness) scheduledBefore where
  trans _ _ _ h₁ h₂ := by
    unfold scheduledBefore at *
    omega

instance : Std.Total scheduledBefore where
  total _ _ := by
    unfold scheduledBefore
    omega

variable (hfront : processed <+: db.byScheduleTime)

include hfront

theorem find?_of_front (he : e ∈ processed) : db.witnesses.find? e.1 = some e.2 :=
  Table.mem_entries_iff.mp ((perm_insertionSort _ _).mem_iff.mp (hfront.subset he))

theorem nodup_front : (processed.map Prod.fst).Nodup := by
  have hperm : db.byScheduleTime.Perm db.witnesses.entries := perm_insertionSort _ _
  have hall : (db.byScheduleTime.map Prod.fst).Nodup :=
    (hperm.map Prod.fst).nodup_iff.mpr db.witnesses.nodup
  exact hall.sublist (hfront.sublist.map _)

/-- A witness that was not processed is not scheduled before one that was. -/
theorem scheduledTime_le (he : e ∈ processed) {name : AccountName} {w : Witness}
    (hname : name ∉ processed.map Prod.fst) (hw : db.witnesses.find? name = some w) :
    e.2.virtualScheduledTime ≤ w.virtualScheduledTime := by
  have hmem : (name, w) ∈ db.byScheduleTime :=
    (perm_insertionSort _ _).mem_iff.mpr (Table.mem_entries_iff.mpr hw)
  have hsorted := pairwise_insertionSort scheduledBefore db.witnesses.entries
  obtain ⟨rest, hrest⟩ := hfront
  change Pairwise _ db.byScheduleTime at hsorted
  rw [← hrest] at hmem hsorted
  rcases mem_append.mp hmem with hin | hin
  · exact absurd (mem_map_of_mem hin) hname
  · have hbefore := (pairwise_append.mp hsorted).2.2 e he (name, w) hin
    unfold scheduledBefore at hbefore
    simp only at hbefore
    omega

include ht

theorem Timed.onLap_front (he : e ∈ processed) : OnLap db.currentVirtualTime (lapOf e.2) :=
  ht.onLap e.1 _ (congrArg (Option.map lapOf) (find?_of_front hfront he))

theorem Timed.le_newVirtualTime : db.currentVirtualTime ≤ db.newVirtualTime processed := by
  unfold newVirtualTime
  split
  · exact le_refl _
  · next e hlast => exact (ht.onLap_front hfront (mem_of_getLast? hlast)).future

theorem Timed.newVirtualTime_lt : db.newVirtualTime processed < 2 ^ 128 := by
  unfold newVirtualTime
  split
  · exact ht.time_lt
  · next e hlast => exact (ht.onLap_front hfront (mem_of_getLast? hlast)).bounded

/-- **An update leaves every witness on its lap.** -/
theorem Timed.rescheduled (h : Rescheduled processed db db') : Timed db' := by
  cases h with
  | advanced fits time laps =>
    refine ⟨time ▸ ht.newVirtualTime_lt hfront, fun name l' hl' => ?_⟩
    rw [laps, map_eq_some_iff] at hl'
    obtain ⟨l, hl, rfl⟩ := hl'
    obtain ⟨w, hw, rfl⟩ := map_eq_some_iff.mp hl
    have hlap := ht.onLap name (lapOf w) hl
    rw [time]
    by_cases hname : name ∈ processed.map Prod.fst
    · rw [if_pos hname]
      obtain ⟨e, he, rfl⟩ := mem_map.mp hname
      obtain rfl := mem_unique hw (find?_of_front hfront he)
      exact onLap_fullLap hlap.votes_nonneg (fits e he)
    · -- it runs on, until a time that has not come yet
      rw [if_neg hname]
      refine ⟨hlap.votes_nonneg, hlap.past.trans (ht.le_newVirtualTime hfront), ?_, hlap.bounded,
        hlap.within⟩
      unfold newVirtualTime
      split
      · exact hlap.future
      · next e hlast => exact scheduledTime_le hfront (mem_of_getLast? hlast) hname hw
  | reset wraps time laps =>
    refine ⟨time ▸ Nat.two_pow_pos 128, fun name l' hl' => ?_⟩
    rw [laps, map_eq_some_iff] at hl'
    obtain ⟨l, hl, rfl⟩ := hl'
    rw [time]
    exact onLap_fullLap (ht.onLap name l hl).votes_nonneg (fullLap_zero_lt l.votes)

omit hfront in
theorem Timed.laps_restarted (hfits : Fits db) (name : AccountName) :
    db.restarted.laps name = (db.laps name).map fun l => fullLap l.votes 0 := by
  unfold laps restarted
  rw [Table.find?_map, Option.map_map, Option.map_map]
  refine Option.map_congr fun w hw => ?_
  have hl : db.laps name = some (lapOf w) := congrArg (Option.map lapOf) hw
  have htime := lapTime_eq (ht.onLap name _ hl).votes_nonneg (hfits name _ hl)
  simp only [Function.comp, lapOf, fullLap, Lap.mk.injEq, true_and, Nat.zero_add]
  exact htime

/-- The virtual schedule of an update, over what the loops have written down. -/
theorem Timed.advance_rescheduled {s : Selection} (hfits : Fits db)
    (h : (db.mark s).advance processed = .ok db') : Rescheduled processed db db' := by
  have hlaps : ∀ name, (db.mark s).laps name = db.laps name :=
    map_find?_mark (fun _ _ _ => rfl) s db
  have hnow : (db.mark s).newVirtualTime processed = db.newVirtualTime processed := by
    rw [mark_frame]
    rfl
  -- what the loop notices is that a sum has wrapped around
  have hwrapped : ∀ e ∈ processed, Wrapped (db.newVirtualTime processed) e.2.votes ↔
      2 ^ 128 ≤ (fullLap e.2.votes (db.newVirtualTime processed)).scheduledTime := fun e he =>
    wrapped_iff (ht.onLap_front hfront he).votes_nonneg
      (hfits e.1 (lapOf e.2) (congrArg (Option.map lapOf) (find?_of_front hfront he)))
      (ht.newVirtualTime_lt hfront)
  have hcases := advance_cases h
  rw [hnow] at hcases
  rcases hcases with ⟨hall, rfl⟩ | ⟨⟨e, he, hsum⟩, rfl⟩
  · have hsums : ∀ e ∈ processed,
        (fullLap e.2.votes (db.newVirtualTime processed)).scheduledTime < 2 ^ 128 := fun e he =>
      Nat.lt_of_not_le fun hle => hall e he ((hwrapped e he).mpr hle)
    refine .advanced hsums rfl fun name => ?_
    rw [← hlaps name]
    refine (congrArg (Option.map lapOf) (find?_markWitnesses (nodup_front hfront) ..)).trans ?_
    unfold laps
    by_cases hname : name ∈ processed.map Prod.fst
    · simp only [if_pos hname, Option.map_map]
      refine map_congr fun w hw => ?_
      obtain ⟨e, he, rfl⟩ := mem_map.mp hname
      have hvotes : lapOf w = lapOf e.2 := by
        have hlap := hlaps e.1
        unfold laps at hlap
        rw [find?_of_front hfront he, hw] at hlap
        exact some.inj hlap
      have heq : e.2.votes = w.votes := congrArg Lap.votes hvotes.symm
      have hlap := lapOf_startLap (ht.onLap_front hfront he).votes_nonneg heq
        (hfits e.1 (lapOf e.2) (congrArg (Option.map lapOf) (find?_of_front hfront he)))
        (hsums e he)
      exact hlap.trans (congrArg (fullLap · _) heq)
    · simp only [if_neg hname, Option.map_id']
  · refine .reset ⟨e, he, (hwrapped e he).mp hsum⟩ rfl fun name => ?_
    have htime : (db.mark s).currentVirtualTime = db.currentVirtualTime := by
      rw [mark_frame]
    have ht' : Timed (db.mark s) := ⟨htime ▸ ht.time_lt, fun name l hl =>
      htime ▸ ht.onLap name l (hlaps name ▸ hl)⟩
    rw [← hlaps name]
    exact ht'.laps_restarted (fun name l hl => hfits name l (hlaps name ▸ hl)) name

end Reschedule

end DeltaChain.Ledger.Database

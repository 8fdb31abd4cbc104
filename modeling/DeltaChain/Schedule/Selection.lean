import DeltaChain.Lib.Swaps
import DeltaChain.Schedule.Update

/-!
# Who is scheduled

The three loops choose different witnesses that all may be scheduled, and as many of them as
there are places or such witnesses (`length_active`). Those with the most votes are among them
(`mem_elected`). The names are then shuffled, which rearranges them (`scheduledNames_perm`) and
leaves the empty names behind them (`drop_storeSchedule`).
-/

namespace DeltaChain.Ledger.Database

open Lib Protocol List

variable {db db' : Database} {name : AccountName} {s : Selection} {e : AccountName × Witness}

def eligibleCount (db : Database) : Nat := db.witnesses.entries.countP fun e => db.eligible e.2

theorem byVoteName_perm (db : Database) : db.byVoteName.Perm db.witnesses.entries :=
  perm_insertionSort _ _

theorem byScheduleTime_perm (db : Database) : db.byScheduleTime.Perm db.witnesses.entries :=
  perm_insertionSort _ _

-- # Choices

/-- Different witnesses that may be scheduled. -/
structure Choice (db : Database) (chosen : List (AccountName × Witness)) : Prop where
  nodup : (chosen.map Prod.fst).Nodup
  found : ∀ e ∈ chosen, db.witnesses.find? e.1 = some e.2
  eligible : ∀ e ∈ chosen, db.eligible e.2 = true

theorem Choice.pick {ok : AccountName × Witness → Bool} {l : List (AccountName × Witness)}
    (room : Nat) (hl : l.Subperm db.witnesses.entries)
    (hok : ∀ e, ok e = true → db.eligible e.2 = true) : Choice db (pick ok room l).1 where
  nodup := by
    have hsub : (Lib.pick ok room l).1.Subperm db.witnesses.entries :=
      (pick_fst_sublist room l).subperm.trans hl
    obtain ⟨k, hperm, hk⟩ := hsub
    have hnodup : (k.map Prod.fst).Nodup := db.witnesses.nodup.sublist (hk.map _)
    exact (hperm.map Prod.fst).nodup_iff.mp hnodup
  found e he := Table.mem_entries_iff.mp (hl.subset ((pick_fst_sublist room l).subset he))
  eligible e he := hok e (ok_of_mem_pick_fst he)

theorem elect_choice (db : Database) : Choice db db.elect :=
  .pick _ (byVoteName_perm db).subperm fun _ he => he

theorem mine_choice (db : Database) (elected : List AccountName) :
    Choice db (db.mine elected).1 := by
  refine .pick _ ((perm_insertionSort _ _).subperm.trans filter_sublist.subperm) fun e he => ?_
  rw [Bool.and_eq_true] at he
  exact he.2

theorem share_choice (db : Database) (chosen : List AccountName) :
    Choice db (db.share chosen).1 := by
  refine .pick _ (byScheduleTime_perm db).subperm fun e he => ?_
  rw [Bool.and_eq_true] at he
  exact he.1

theorem not_mem_of_mine {elected : List AccountName}
    (he : e ∈ (db.mine elected).1) : e.1 ∉ elected := by
  have hok := ok_of_mem_pick_fst he
  rw [Bool.and_eq_true, decide_eq_true_eq] at hok
  exact hok.1

theorem not_mem_of_share {chosen : List AccountName}
    (he : e ∈ (db.share chosen).1) : e.1 ∉ chosen := by
  have hok := ok_of_mem_pick_fst he
  rw [Bool.and_eq_true, decide_eq_true_eq] at hok
  exact hok.2

/-- The witnesses that were elected or mine, of all that are scheduled. -/
def early (s : Selection) : List AccountName := s.elected ++ s.miners

theorem nodup_early (db : Database) : (early db.select).Nodup := by
  refine nodup_append.mpr ⟨(elect_choice db).nodup, (mine_choice db _).nodup, ?_⟩
  rintro n hn m hm rfl
  obtain ⟨e, he, rfl⟩ := mem_map.mp hm
  exact not_mem_of_mine he hn

/-- **Nobody is scheduled twice.** -/
theorem nodup_active (db : Database) : db.select.active.Nodup := by
  refine nodup_append.mpr ⟨nodup_early db, (share_choice db _).nodup, ?_⟩
  rintro n hn m hm rfl
  obtain ⟨e, he, rfl⟩ := mem_map.mp hm
  exact not_mem_of_share he hn

theorem Choice.exists_of_mem {chosen : List (AccountName × Witness)} (h : Choice db chosen)
    (hname : name ∈ chosen.map Prod.fst) :
    ∃ w, db.witnesses.find? name = some w ∧ db.eligible w = true := by
  obtain ⟨e, he, rfl⟩ := mem_map.mp hname
  exact ⟨e.2, h.found e he, h.eligible e he⟩

theorem eligible_of_early (hname : name ∈ early db.select) :
    ∃ w, db.witnesses.find? name = some w ∧ db.eligible w = true := by
  rcases mem_append.mp hname with h | h
  · exact (elect_choice db).exists_of_mem h
  · exact (mine_choice db _).exists_of_mem h

theorem eligible_of_active (hname : name ∈ db.select.active) :
    ∃ w, db.witnesses.find? name = some w ∧ db.eligible w = true := by
  rcases mem_append.mp hname with h | h
  · exact eligible_of_early h
  · exact (share_choice db _).exists_of_mem h

-- # How many

theorem countP_share (db : Database) : db.byScheduleTime.countP
    (fun e => db.eligible e.2 && decide (e.1 ∉ early db.select)) + (early db.select).length =
      db.eligibleCount := by
  rw [(byScheduleTime_perm db).countP_eq]
  refine countP_not_mem_add_length db.witnesses.nodup (nodup_early db) fun n hn => ?_
  obtain ⟨w, hw, hok⟩ := eligible_of_early hn
  exact ⟨(n, w), Table.mem_entries_iff.mpr hw, rfl, hok⟩

theorem length_early_le (hroom : db.schedule.maxVotedWitnesses + db.schedule.maxMinerWitnesses ≤
    maxWitnesses) : (early db.select).length ≤ maxWitnesses := by
  have helected : db.select.elected.length ≤ db.schedule.maxVotedWitnesses := by
    refine (length_map _).trans_le ?_
    exact (length_pick_fst _ _).trans_le (min_le_left _ _)
  have hminers : db.select.miners.length ≤ db.schedule.maxMinerWitnesses := by
    refine (length_map _).trans_le ?_
    exact (length_pick_fst _ _).trans_le (min_le_left _ _)
  rw [early, length_append]
  omega

/-- **All places are taken**, or all witnesses that may be scheduled are. -/
theorem length_active (hroom : db.schedule.maxVotedWitnesses + db.schedule.maxMinerWitnesses ≤
    maxWitnesses) : db.select.active.length = min maxWitnesses db.eligibleCount := by
  have hcount := countP_share db
  have hearly := length_early_le hroom
  have hshare : db.select.timeshare.length = min (maxWitnesses - (early db.select).length)
      (db.byScheduleTime.countP
        fun e => db.eligible e.2 && decide (e.1 ∉ early db.select)) :=
    (length_map _).trans (length_pick_fst _ _)
  refine (length_append : (early db.select ++ _).length = _).trans ?_
  omega

-- # The highest voted

/-- More votes, or as many and an earlier name. -/
def outranks (e f : AccountName × Witness) : Prop :=
  e.2.votes > f.2.votes ∨ e.2.votes = f.2.votes ∧ e.1 < f.1

instance : DecidableRel outranks := fun _ _ => inferInstanceAs (Decidable (_ ∨ _ ∧ _))

instance : IsTrans (AccountName × Witness) votedBefore where
  trans e f g h₁ h₂ := by
    rcases h₁ with h₁ | ⟨h₁, hn₁⟩ <;> rcases h₂ with h₂ | ⟨h₂, hn₂⟩
    · exact .inl (h₂.trans h₁)
    · exact .inl (h₂ ▸ h₁)
    · exact .inl (h₁ ▸ h₂)
    · exact .inr ⟨h₁.trans h₂, hn₁.trans hn₂⟩

instance : Std.Total votedBefore where
  total e f := by
    rcases lt_trichotomy e.2.votes f.2.votes with h | h | h
    · exact .inr (.inl h)
    · rcases le_total e.1 f.1 with hn | hn
      · exact .inl (.inr ⟨h, hn⟩)
      · exact .inr (.inr ⟨h.symm, hn⟩)
    · exact .inl (.inl h)

theorem byVoteName_pairwise (db : Database) : db.byVoteName.Pairwise outranks := by
  have hsorted : db.byVoteName.Pairwise votedBefore := pairwise_insertionSort _ _
  have hnodup : (db.byVoteName.map Prod.fst).Nodup :=
    ((byVoteName_perm db).map Prod.fst).nodup_iff.mpr db.witnesses.nodup
  refine hsorted.imp₂ (fun e f hbefore hne => ?_) (pairwise_map.mp hnodup)
  rcases hbefore with h | ⟨h, hle⟩
  · exact .inl h
  · exact .inr ⟨h, lt_of_le_of_ne hle hne⟩

/-- **The highest voted are elected**: everyone who may be scheduled and is outranked by fewer
such witnesses than may be elected. -/
theorem mem_elected {w : Witness} (hw : db.witnesses.find? name = some w)
    (hok : db.eligible w = true)
    (hrank : db.witnesses.entries.countP
      (fun e => db.eligible e.2 && decide (outranks e (name, w))) < db.schedule.maxVotedWitnesses) :
    name ∈ db.select.elected := by
  have hmem : (name, w) ∈ db.byVoteName.filter fun e => db.eligible e.2 :=
    mem_filter.mpr ⟨(byVoteName_perm db).mem_iff.mpr (Table.mem_entries_iff.mpr hw), hok⟩
  have hcount : (db.byVoteName.filter fun e => db.eligible e.2).countP
      (fun e => decide (outranks e (name, w))) < db.schedule.maxVotedWitnesses := by
    rw [countP_filter, (byVoteName_perm db).countP_eq]
    simpa only [Bool.and_comm] using hrank
  have htake := mem_take_of_countP_lt ((byVoteName_pairwise db).filter _) hmem hcount
  refine mem_map_of_mem (f := Prod.fst) (a := (name, w)) ?_
  rw [elect, pick_fst]
  exact htake

-- # The shuffle

theorem shuffleIndex_lt {now count i : Nat} (hi : i < count) : shuffleIndex now count i < count := by
  unfold shuffleIndex
  have hmod := Nat.mod_lt
    (xorshift ((now.toUInt64 <<< 32) + i.toUInt64 * 2685821657736338717)).toNat
    (Nat.sub_pos_of_lt hi)
  omega

theorem toList_padded {names : List AccountName} (h : names.length ≤ maxWitnesses) :
    (padded names).toList = names ++ List.replicate (maxWitnesses - names.length) "" :=
  toList_ofFn_getD h

theorem length_scheduledNames_pos (db : Database) (s : Selection) :
    0 < (scheduledNames (db.storeSchedule s).schedule).length := by
  have hplaces : 0 < maxWitnesses := by decide
  have hlength : (scheduledNames (db.storeSchedule s).schedule).length =
      min (max s.active.length 1) maxWitnesses := by
    unfold scheduledNames storeSchedule
    rw [length_take, Vector.length_toList]
  omega

section Store

variable (hone : 1 ≤ s.active.length) (hmax : s.active.length ≤ maxWitnesses)

include hone hmax

/-- **The names that are scheduled are those chosen**, in another order. -/
theorem scheduledNames_perm : (scheduledNames (db.storeSchedule s).schedule).Perm s.active := by
  unfold scheduledNames storeSchedule
  simp only [Nat.max_eq_left hone]
  refine (take_swaps_perm hmax (fun i hi => ?_) _).trans ?_
  · exact ⟨mem_range.mp hi, shuffleIndex_lt (mem_range.mp hi)⟩
  · rw [toList_padded hmax, take_left]

theorem drop_storeSchedule : (db.storeSchedule s).schedule.currentShuffledWitnesses.toList.drop
    (db.storeSchedule s).schedule.numScheduledWitnesses =
      List.replicate (maxWitnesses - s.active.length) "" := by
  unfold storeSchedule
  simp only [Nat.max_eq_left hone]
  refine (drop_swaps hmax (fun i hi => ?_) _).trans ?_
  · exact ⟨mem_range.mp hi, shuffleIndex_lt (mem_range.mp hi)⟩
  · rw [toList_padded hmax, drop_left]

end Store

end DeltaChain.Ledger.Database

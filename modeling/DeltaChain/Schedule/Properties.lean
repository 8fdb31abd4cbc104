import DeltaChain.Ledger.WitnessProperties
import DeltaChain.Lib.Trace
import DeltaChain.Schedule.Rounds

/-!
# The bounds of chain properties

Two operations write the chain properties of a witness, and `update_median_witness_props` takes
the medians of what the scheduled ones propose. `witness_update` keeps all bounds;
`witness_set_properties` does not bound the block size from above. As long as it is not used to
propose a larger one, all properties and all medians stay within their bounds.
-/

namespace DeltaChain.Schedule

open Lib Protocol Ledger Ledger.Database Checked Option Table

-- # Bounds

/-- The bounds of the properties of a witness, and of their medians. -/
structure InBounds (fee : Int) (blockSize interestRate : Nat) (budget : Int) (decay : Nat) :
    Prop where
  fee : minAccountCreationFee ≤ fee ∧ fee ≤ maxAccountCreationFee
  blockSize : minBlockSizeLimit ≤ blockSize ∧ blockSize ≤ softMaxBlockSize
  interestRate : interestRate ≤ percent100
  budget : rdMinBudget ≤ budget ∧ budget ≤ rdMaxBudget
  decay : rdMinDecay ≤ decay ∧ decay ≤ rdMaxDecay

/-- The properties that a witness proposes are within their bounds. -/
def PropsInBounds (p : ChainProperties) : Prop :=
  InBounds p.accountCreationFee p.maximumBlockSize p.dbdInterestRate p.accountSubsidyBudget
    p.accountSubsidyDecay

/-- All that an operation sets is within its bounds. -/
structure SetsInBounds (fee : Option Int) (blockSize interestRate : Option Nat)
    (budget : Option Int) (decay : Option Nat) : Prop where
  fee : ∀ x ∈ fee, minAccountCreationFee ≤ x ∧ x ≤ maxAccountCreationFee
  blockSize : ∀ x ∈ blockSize, minBlockSizeLimit ≤ x ∧ x ≤ softMaxBlockSize
  interestRate : ∀ x ∈ interestRate, x ≤ percent100
  budget : ∀ x ∈ budget, rdMinBudget ≤ x ∧ x ≤ rdMaxBudget
  decay : ∀ x ∈ decay, rdMinDecay ≤ x ∧ x ≤ rdMaxDecay

def UpdateInBounds (op : WitnessUpdate) : Prop :=
  SetsInBounds (some op.accountCreationFee) (some op.maximumBlockSize) (some op.dbdInterestRate)
    none none

def SetInBounds (op : WitnessSetProperties) : Prop :=
  SetsInBounds (op.accountCreationFee.map (·.amount)) op.maximumBlockSize op.dbdInterestRate
    op.accountSubsidyBudget op.accountSubsidyDecay

/-- The medians in the schedule and in the global properties are within their bounds. -/
structure MediansInBounds (db : Database) : Prop where
  schedule : InBounds db.accountCreationFee db.schedule.medianMaximumBlockSize
    db.schedule.medianDbdInterestRate db.schedule.medianAccountSubsidyBudget
    db.schedule.medianAccountSubsidyDecay
  blockSize : minBlockSizeLimit ≤ db.props.maximumBlockSize ∧
    db.props.maximumBlockSize ≤ softMaxBlockSize
  interestRate : db.props.dbdInterestRate ≤ percent100

/-- All that the witnesses propose is within its bounds. -/
def Moderate (db : Database) : Prop :=
  ∀ name w, db.witnesses.find? name = some w → PropsInBounds w.props

-- # The two operations

variable {db db' : Database} {α : Type} {o : Option α}

theorem option_forM_eq_ok {f : α → Checked Unit} {u : Unit} :
    o.forM f = .ok u ↔ ∀ x ∈ o, f x = .ok () := by
  cases o with
  | none => simp [Option.forM, pure, Except.pure]
  | some a => simp [Option.forM]

theorem validateBudget_eq_ok {budget : Option Int} {b : Option SubsidyBudget}
    (h : validateBudget budget = .ok b) : budget = b.map Subtype.val := by
  cases budget with
  | none =>
    cases h
    rfl
  | some budget =>
    simp only [validateBudget] at h
    split_ifs at h
    cases h
    rfl

theorem validateDecay_eq_ok {decay : Option Nat} {d : Option SubsidyDecay}
    (h : validateDecay decay = .ok d) : decay = d.map Subtype.val := by
  cases decay with
  | none =>
    cases h
    rfl
  | some decay =>
    simp only [validateDecay] at h
    split_ifs at h
    cases h
    rfl

/-- What `witness_set_properties` has checked and does. -/
structure PropertiesSet (db db' : Database) (op : WitnessSetProperties) : Prop where
  fee : ∀ x ∈ op.accountCreationFee.map (·.amount),
    minAccountCreationFee ≤ x ∧ x ≤ maxAccountCreationFee
  blockSize : ∀ x ∈ op.maximumBlockSize, minBlockSizeLimit ≤ x
  interestRate : ∀ x ∈ op.dbdInterestRate, x ≤ percent100
  result : ∃ budget decay, op.accountSubsidyBudget = budget.map Subtype.val ∧
    op.accountSubsidyDecay = decay.map Subtype.val ∧
    (∃ w, db.witnesses.find? op.owner = some w) ∧ db' = db.modifyWitness op.owner (op.set budget decay)

variable {op : WitnessSetProperties}

theorem witnessSetProperties_set (h : db.witnessSetProperties op = .ok db') :
    PropertiesSet db db' op := by
  simp only [witnessSetProperties, eq_ok, option_forM_eq_ok, getWitness_eq_ok, Unique.exists_iff] at h
  obtain ⟨-, hfee, hsize, hrate, -, -, budget, hbudget, decay, hdecay, w, hw, -, hmax, rfl⟩ := h
  refine ⟨?_, hsize, hrate, budget, decay, validateBudget_eq_ok hbudget, validateDecay_eq_ok hdecay,
    ⟨w, hw⟩, rfl⟩
  intro x hx
  obtain ⟨fee, hmem, rfl⟩ := map_eq_some_iff.mp hx
  exact ⟨(hfee fee hmem).2, hmax fee hmem⟩

theorem witnessUpdate_inBounds {op : WitnessUpdate} (h : db.witnessUpdate op = .ok db') :
    UpdateInBounds op := by
  simp only [witnessUpdate, eq_ok] at h
  obtain ⟨hfee, hsize, hrate, _, -, hmaxFee, hmaxSize, -⟩ := h
  refine ⟨?_, ?_, ?_, by simp, by simp⟩
  · rintro x ⟨⟩
    exact ⟨hfee, hmaxFee⟩
  · rintro x ⟨⟩
    exact ⟨hsize, hmaxSize⟩
  · rintro x ⟨⟩
    exact hrate

/-- `witness_set_properties` does so exactly if it does not set a block size that is too large. -/
theorem witnessSetProperties_inBounds_iff (h : db.witnessSetProperties op = .ok db') :
    SetInBounds op ↔ ∀ size ∈ op.maximumBlockSize, size ≤ softMaxBlockSize := by
  obtain ⟨hfee, hsize, hrate, budget, decay, hbudget, hdecay, -⟩ := witnessSetProperties_set h
  constructor
  · intro hset size hmem
    exact (hset.blockSize size hmem).2
  · intro hmax
    refine ⟨hfee, fun x hx => ⟨hsize x hx, hmax x hx⟩, hrate, ?_, ?_⟩
    · intro x hx
      rw [hbudget] at hx
      obtain ⟨b, -, rfl⟩ := map_eq_some_iff.mp hx
      exact b.2
    · intro x hx
      rw [hdecay] at hx
      obtain ⟨d, -, rfl⟩ := map_eq_some_iff.mp hx
      exact d.2

theorem propsInBounds_update {op : WitnessUpdate} (h : UpdateInBounds op) (w : Witness) :
    PropsInBounds (op.set w).props :=
  ⟨h.fee _ rfl, h.blockSize _ rfl, h.interestRate _ rfl, w.props.budget_bounds, w.props.decay_bounds⟩

theorem getD_inBounds {P : α → Prop} {a : α} (ho : ∀ x ∈ o, P x) (ha : P a) : P (o.getD a) := by
  cases o with
  | none => exact ha
  | some x => exact ho x rfl

/-- The block size is all that `witness_set_properties` can set wrong. -/
theorem propsInBounds_set_iff (h : PropertiesSet db db' op) (budget : Option SubsidyBudget)
    (decay : Option SubsidyDecay) {w : Witness} (hw : PropsInBounds w.props) :
    PropsInBounds (op.set budget decay w).props ↔
      ∀ size ∈ op.maximumBlockSize, size ≤ softMaxBlockSize := by
  have hprops : (op.set budget decay w).props.accountCreationFee =
        (op.accountCreationFee.map (·.amount)).getD w.props.accountCreationFee ∧
      (op.set budget decay w).props.maximumBlockSize =
        op.maximumBlockSize.getD w.props.maximumBlockSize ∧
      (op.set budget decay w).props.dbdInterestRate =
        op.dbdInterestRate.getD w.props.dbdInterestRate := by
    cases budget <;> cases decay <;> exact ⟨rfl, rfl, rfl⟩
  obtain ⟨hfee, hsize, hrate⟩ := hprops
  constructor
  · intro hset size hmem
    have hbound := hset.blockSize.2
    rw [hsize, hmem] at hbound
    exact hbound
  · intro hmax
    refine ⟨?_, ?_, ?_, ChainProperties.budget_bounds _, ChainProperties.decay_bounds _⟩
    · rw [hfee]
      exact getD_inBounds h.fee hw.fee
    · rw [hsize]
      exact getD_inBounds (P := fun x => minBlockSizeLimit ≤ x ∧ x ≤ softMaxBlockSize)
        (fun x hx => ⟨h.blockSize x hx, hmax x hx⟩) hw.blockSize
    · rw [hrate]
      exact getD_inBounds (P := fun x => x ≤ percent100) h.interestRate hw.interestRate

-- # Medians

theorem exists_of_median [LinearOrder α] {ws : List Witness} {f : Witness → α} {m : α}
    (h : median ws f = .ok m) : ∃ w ∈ ws, f w = m := by
  have hmem := Rank.mem_of_nthElement (get_eq_ok.mp h)
  exact List.mem_map.mp hmem

section

variable (hs : Moderate db)

include hs

theorem Moderate.updateMedianWitnessProps (h : db.updateMedianWitnessProps = .ok db') :
    MediansInBounds db' := by
  simp only [Database.updateMedianWitnessProps, eq_ok] at h
  obtain ⟨active, hactive, fee, hfee, blockSize, hsize, rate, hrate, budget, hbudget, decay, hdecay,
    available, -, u, -, rd, -, witnessRd, -, rfl⟩ := h
  have hscheduled : ∀ w ∈ active, PropsInBounds w.props := by
    intro w hmem
    obtain ⟨name, -, hget⟩ := exists_of_mem_mapM_eq_ok hactive hmem
    exact hs name w (getWitness_eq_ok.mp hget)
  obtain ⟨w₁, hw₁, rfl⟩ := exists_of_median hfee
  obtain ⟨w₂, hw₂, rfl⟩ := exists_of_median hsize
  obtain ⟨w₃, hw₃, rfl⟩ := exists_of_median hrate
  obtain ⟨w₄, hw₄, rfl⟩ := exists_of_median hbudget
  obtain ⟨w₅, hw₅, rfl⟩ := exists_of_median hdecay
  exact ⟨⟨(hscheduled w₁ hw₁).fee, (hscheduled w₂ hw₂).blockSize, (hscheduled w₃ hw₃).interestRate,
    w₄.props.budget_bounds, w₅.props.decay_bounds⟩, (hscheduled w₂ hw₂).blockSize,
    (hscheduled w₃ hw₃).interestRate⟩

theorem Moderate.of_props
    (hsame : ∀ name, (db'.witnesses.find? name).map Witness.props =
      (db.witnesses.find? name).map Witness.props) : Moderate db' := by
  intro name w hfind
  have hmap := hsame name
  rw [hfind, map_some, eq_comm, map_eq_some_iff] at hmap
  obtain ⟨w₀, hw₀, heq⟩ := hmap
  rw [← heq]
  exact hs name w₀ hw₀

theorem Moderate.updateWitnessSchedule4 (h : db.updateWitnessSchedule4 = .ok db') :
    Moderate db' ∧ MediansInBounds db' := by
  obtain ⟨db₁, db₂, hadvance, -, hversions, hmedians⟩ := updateWitnessSchedule4_ok h
  have hs' : Moderate db' := hs.of_props fun name => by
    rw [updateWitnessSchedule4_frame h hadvance]
    exact (map_find?_advance (fun _ _ _ _ => rfl) hadvance name).trans
      (map_find?_mark (fun _ _ _ => rfl) ..)
  refine ⟨hs', Moderate.updateMedianWitnessProps ?_ hmedians⟩
  intro name w hfind
  refine hs' name w ?_
  rw [(updateMedianWitnessProps_frame hmedians).1]
  exact hfind

-- # Steps

/-- What happens to the properties: the two operations, an update of the schedule, and anything
else, which leaves what the witnesses propose alone. -/
inductive PropertyEvent where
  | witnessUpdate (op : WitnessUpdate)
  | witnessSetProperties (op : WitnessSetProperties)
  | updateWitnessSchedule
  | rest (db' : Database)

def propertyStep (db : Database) : PropertyEvent → Checked Database
  | .witnessUpdate op => db.witnessUpdate op
  | .witnessSetProperties op => db.witnessSetProperties op
  | .updateWitnessSchedule => db.updateWitnessSchedule
  | .rest db' => do
    assert ((db'.witnesses.map Witness.props).entries = (db.witnesses.map Witness.props).entries)
      "nothing else writes the properties"
    return db'

/-- The event sets no block size that is too large. -/
def PropertyEvent.Soft : PropertyEvent → Prop
  | .witnessSetProperties op => ∀ size ∈ op.maximumBlockSize, size ≤ softMaxBlockSize
  | _ => True

/-- After the step all properties are within their bounds, and so are the medians that it copied. -/
structure KeepsBounds (db : Database) (e : PropertyEvent) (db' : Database) : Prop where
  witnesses : Moderate db'
  medians : e = .updateWitnessSchedule → db.props.headBlockNumber % maxWitnesses = 0 →
    MediansInBounds db'

theorem Moderate.witnessUpdate {op : WitnessUpdate}
    (h : db.witnessUpdate op = .ok db') : Moderate db' := by
  have hop := witnessUpdate_inBounds h
  simp only [Database.witnessUpdate, eq_ok] at h
  obtain ⟨-, -, -, _, -, -, -, h⟩ := h
  split at h
  · next hnone =>
    cases h
    intro name w hfind
    rw [find?_emplace, hnone] at hfind
    split at hfind
    · cases hfind
      exact propsInBounds_update hop _
    · exact hs name w hfind
  · cases h
    intro name w hfind
    rw [modifyWitness, find?_modify] at hfind
    split at hfind
    · obtain ⟨w₀, -, rfl⟩ := map_eq_some_iff.mp hfind
      exact propsInBounds_update hop w₀
    · exact hs name w hfind

theorem moderate_witnessSetProperties_iff (h : db.witnessSetProperties op = .ok db') :
    Moderate db' ↔ ∀ size ∈ op.maximumBlockSize, size ≤ softMaxBlockSize := by
  have hset := witnessSetProperties_set h
  obtain ⟨budget, decay, -, -, ⟨w₀, hw₀⟩, rfl⟩ := hset.result
  have hfind : ∀ name, (db.modifyWitness op.owner (op.set budget decay)).witnesses.find? name =
      if name = op.owner then (db.witnesses.find? op.owner).map (op.set budget decay)
      else db.witnesses.find? name := by
    intro name
    rw [modifyWitness, find?_modify]
    split
    · next heq => rw [heq]
    · rfl
  rw [← propsInBounds_set_iff hset budget decay (hs op.owner w₀ hw₀)]
  constructor
  · intro hs'
    refine hs' op.owner _ ?_
    rw [hfind, if_pos rfl, hw₀, map_some]
  · intro hw name w hname
    rw [hfind, hw₀, map_some] at hname
    split at hname
    · cases hname
      exact hw
    · exact hs name w hname

/-- **Step lemma.** From a moderate state, a step keeps the bounds exactly if it sets no block size
that is too large. -/
theorem keepsBounds_iff {e : PropertyEvent} (h : propertyStep db e = .ok db') :
    KeepsBounds db e db' ↔ e.Soft := by
  cases e with
  | witnessUpdate op => exact iff_of_true ⟨hs.witnessUpdate h, by rintro ⟨⟩⟩ trivial
  | witnessSetProperties op =>
    rw [PropertyEvent.Soft, ← moderate_witnessSetProperties_iff hs h]
    exact ⟨KeepsBounds.witnesses, fun hs' => ⟨hs', by rintro ⟨⟩⟩⟩
  | updateWitnessSchedule =>
    refine iff_of_true ?_ trivial
    change db.updateWitnessSchedule = .ok db' at h
    rw [Database.updateWitnessSchedule] at h
    split at h
    · obtain ⟨hs', hmedians⟩ := hs.updateWitnessSchedule4 h
      exact ⟨hs', fun _ _ => hmedians⟩
    · next hnot =>
      cases h
      exact ⟨hs, fun _ hround => absurd hround hnot⟩
  | rest db'' =>
    simp only [propertyStep, eq_ok, Unique.exists_iff] at h
    obtain ⟨hprops, rfl⟩ := h
    refine iff_of_true ⟨hs.of_props fun name => ?_, by rintro ⟨⟩⟩ trivial
    rw [← find?_map, ← find?_map, find?, find?, hprops]

end

-- # Runs

/-- **The bounds of the chain properties.** `witness_update` sets only what is within its bounds;
`witness_set_properties` does so exactly if it sets no block size above the soft maximum. Over a
run from a moderate state, all properties and all medians copied from them stay within their bounds
exactly if no step sets such a block size. -/
theorem properties_in_bounds_iff (db₀ : Database) (h₀ : Moderate db₀) (events : List PropertyEvent) :
    (∀ db db' op, Database.witnessUpdate db op = .ok db' → UpdateInBounds op) ∧
    (∀ db db' op, Database.witnessSetProperties db op = .ok db' →
      (SetInBounds op ↔ ∀ size ∈ op.maximumBlockSize, size ≤ softMaxBlockSize)) ∧
    (Run.AllSteps (Run.checked propertyStep) db₀ events KeepsBounds ↔
      Run.AllSteps (Run.checked propertyStep) db₀ events fun _ e _ => e.Soft) := by
  refine ⟨fun _ _ _ => witnessUpdate_inBounds, fun _ _ _ => witnessSetProperties_inBounds_iff, ?_⟩
  refine Run.allSteps_congr Moderate (fun _ _ _ hs h => keepsBounds_iff hs h) ?_ h₀
  intro db e db' hs h hsoft
  exact ((keepsBounds_iff hs h).mpr hsoft).witnesses

theorem genesis_moderate (supply : Int) : Moderate (genesis supply) := by
  intro name w hfind
  change (empty.emplace initMinerName { signingKey := some 0, schedule := .miner }).find? name =
    some w at hfind
  rw [find?_emplace] at hfind
  split at hfind
  · cases hfind
    exact ⟨by decide, by decide, by decide, by decide, by decide⟩
  · cases hfind

/-- The first witness proposes a block size. -/
def proposeBlockSize (size : Nat) : WitnessSetProperties where
  owner := initMinerName
  key := some (some 0)
  maximumBlockSize := some size

/-- A proposal of 3 MiB passes, and is the median as soon as the schedule is updated. -/
theorem large_blocks_accepted :
    ¬ Run.AllSteps (Run.checked propertyStep) (genesis 1000000)
      [.witnessSetProperties (proposeBlockSize (3 * 1024 * 1024)), .updateWitnessSchedule] KeepsBounds := by
  intro hall
  have hrun : (Run.exec (Run.checked propertyStep) (genesis 1000000)
      [.witnessSetProperties (proposeBlockSize (3 * 1024 * 1024)), .updateWitnessSchedule]).map
        (fun db => db.props.maximumBlockSize) = some (3 * 1024 * 1024) := by decide +kernel
  obtain ⟨db₂, hdb₂, hsize⟩ := map_eq_some_iff.mp hrun
  rw [Run.exec_cons, bind_eq_some_iff] at hdb₂
  obtain ⟨db₁, hfirst, hsecond⟩ := hdb₂
  rw [Run.exec_cons, bind_eq_some_iff] at hsecond
  obtain ⟨db₃, hsecond, hlast⟩ := hsecond
  obtain rfl := some.inj hlast
  have hkeeps := hall [.witnessSetProperties (proposeBlockSize (3 * 1024 * 1024))] .updateWitnessSchedule [] db₁ db₃ rfl
    (by rw [Run.exec_cons, hfirst]; rfl) hsecond
  have hround : db₁.props.headBlockNumber % maxWitnesses = 0 := by
    obtain ⟨_, _, _, _, _, rfl⟩ := (witnessSetProperties_set (Run.checked_eq_some.mp hfirst)).result
    rfl
  have hbound := (hkeeps.medians rfl hround).blockSize.2
  rw [hsize] at hbound
  exact absurd hbound (by decide)

/-- A run whose steps are all soft. -/
theorem properties_in_bounds_genesis :
    (Run.exec (Run.checked propertyStep) (genesis 1000000)
      [.witnessSetProperties (proposeBlockSize 131072), .updateWitnessSchedule]).isSome = true ∧
    Run.AllSteps (Run.checked propertyStep) (genesis 1000000)
      [.witnessSetProperties (proposeBlockSize 131072), .updateWitnessSchedule] KeepsBounds := by
  refine ⟨by decide +kernel, (properties_in_bounds_iff _ (genesis_moderate _) _).2.2.mpr ?_⟩
  intro pre e post db db' hsplit _ _
  have hmem : e ∈ pre ++ e :: post := by simp
  rw [← hsplit] at hmem
  rcases List.mem_cons.mp hmem with rfl | hmem
  · rintro size ⟨⟩
    decide
  · obtain rfl := List.mem_singleton.mp hmem
    trivial

end DeltaChain.Schedule

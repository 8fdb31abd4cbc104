import DeltaChain.Fork.Moves
import DeltaChain.Lib.Rank
import DeltaChain.Lib.Run
import DeltaChain.Protocol.Config

/-!
# The last irreversible block

What applying a block does to `last_irreversible_block_num`, over every run of blocks,
new witnesses and new schedules. In a run the number never goes down and never passes
the head, and when the scheduled witnesses' confirmations raise it, three quarters of
them have confirmed the new number.

* `applyBlock_irreversible` — the above, for every reachable state;
* `updateLastIrreversibleBlock_greatest` — the number that is reached is the greatest
  one that many witnesses have confirmed;
* `irreversible_branches_share` — two branches with irreversible blocks share signers;
* `chainExec_libSound` — the fork database's assumption on the applied blocks.

Block numbers are natural numbers. Block times are 32 bit seconds and a block takes
three of them, so no reachable block number comes near the 32 bit bound at which the
numbers of the source would wrap.
-/

namespace DeltaChain.Chain

open Lib Protocol List Option Table

/-- `witness_object`, with what the confirmations need of it. -/
structure Witness where
  lastConfirmedBlockNum : Nat
deriving DecidableEq, Repr

/-- `witness_schedule_object`: the first `num_scheduled_witnesses` entries of
`current_shuffled_witnesses`. There is always one. -/
structure WitnessSchedule where
  witnesses : List AccountName
  nonempty : witnesses ≠ []

/-- The part of the state that `update_last_irreversible_block` depends on. -/
structure Confirmations where
  headBlockNumber : Nat
  lastIrreversibleBlockNum : Nat
  witnesses : Table AccountName Witness
  schedule : WitnessSchedule

namespace Confirmations

/-- `get_witness`; throws for an unknown name. -/
def getWitness (s : Confirmations) (name : AccountName) : Option Witness := s.witnesses.find? name

/-- The head moves to the new block. The flag `skip_undo_history_check` is not set. -/
def updateGlobalDynamicData (s : Confirmations) : Option Confirmations :=
  let s := { s with headBlockNumber := s.headBlockNumber + 1 }
  if s.headBlockNumber - s.lastIrreversibleBlockNum < maxUndoHistory then some s else none

/-- The witness has confirmed the block it signed. -/
def updateSigningWitness (s : Confirmations) (signingWitness : AccountName) : Option Confirmations :=
  (s.witnesses.modify? signingWitness fun w =>
    { w with lastConfirmedBlockNum := s.headBlockNumber }).map fun t => { s with witnesses := t }

/-- The position of the quorum among `n` witnesses, counted from the lowest. -/
def offset (n : Nat) : Nat := (percent100 - irreversibleThreshold) * n / percent100

def updateLastIrreversibleBlock (s : Confirmations) : Option Confirmations :=
  if s.headBlockNumber < startMinerVotingBlock then
    -- before voting takes over, a fixed distance
    some (if s.headBlockNumber > maxWitnesses then
      { s with lastIrreversibleBlockNum := s.headBlockNumber - maxWitnesses } else s)
  else do
    let witObjs ← s.schedule.witnesses.mapM s.getWitness
    let newLastIrreversibleBlockNum ←
      Rank.nthElement (witObjs.map Witness.lastConfirmedBlockNum) (offset witObjs.length)
    return if newLastIrreversibleBlockNum > s.lastIrreversibleBlockNum then
      { s with lastIrreversibleBlockNum := newLastIrreversibleBlockNum } else s

/-- The part of `_apply_block` up to the last irreversible block. -/
def applyBlock (s : Confirmations) (signingWitness : AccountName) : Option Confirmations := do
  let s ← s.updateGlobalDynamicData
  let s ← s.updateSigningWitness signingWitness
  s.updateLastIrreversibleBlock

/-- A new `witness_object`. -/
def createWitness (s : Confirmations) (owner : AccountName) : Option Confirmations :=
  (s.witnesses.insert? owner ⟨0⟩).map fun t => { s with witnesses := t }

/-- What happens to the confirmations in a run: a block is applied, an operation makes
a witness, or `update_witness_schedule` draws the next round. -/
inductive Event where
  | applyBlock (signingWitness : AccountName)
  | createWitness (owner : AccountName)
  | updateWitnessSchedule (schedule : WitnessSchedule)

def step (s : Confirmations) : Event → Option Confirmations
  | .applyBlock signingWitness => s.applyBlock signingWitness
  | .createWitness owner => s.createWitness owner
  | .updateWitnessSchedule schedule => some { s with schedule := schedule }

/-- The state that `init_genesis` makes. -/
def genesis : Confirmations where
  headBlockNumber := 0
  lastIrreversibleBlockNum := 0
  witnesses := Table.empty.emplace initMinerName ⟨0⟩
  schedule := ⟨[initMinerName], by simp⟩

/-- The number of scheduled witnesses that have confirmed block `num`. -/
def confirmedBy (s : Confirmations) (num : Nat) : Nat :=
  s.schedule.witnesses.countP fun name =>
    (s.getWitness name).any fun w => decide (num ≤ w.lastConfirmedBlockNum)

-- # The quorum

variable {signingWitness : AccountName} {α β : Type} {num : Nat}

theorem countP_of_mapM {g : α → Option β} {p : β → Bool} :
    ∀ {names : List α} {objs : List β}, names.mapM g = some objs →
      objs.length = names.length ∧ names.countP (fun n => (g n).any p) = objs.countP p
  | [], objs, h => by
    obtain rfl : [] = objs := some.inj h
    exact ⟨rfl, rfl⟩
  | n :: names, objs, h => by
    rw [mapM_cons] at h
    obtain ⟨w, hw, h⟩ := bind_eq_some_iff.mp h
    obtain ⟨ws, hws, h⟩ := bind_eq_some_iff.mp h
    cases h
    obtain ⟨hlen, hcount⟩ := countP_of_mapM (p := p) hws
    refine ⟨congrArg (· + 1) hlen, ?_⟩
    rw [countP_cons, countP_cons, hcount, hw, any_some]

theorem exists_of_mapM {g : α → Option β} {b : β} :
    ∀ {names : List α} {objs : List β}, names.mapM g = some objs → b ∈ objs →
      ∃ n ∈ names, g n = some b
  | [], objs, h, hb => by
    obtain rfl : [] = objs := some.inj h
    cases hb
  | n :: names, objs, h, hb => by
    rw [mapM_cons] at h
    obtain ⟨w, hw, h⟩ := bind_eq_some_iff.mp h
    obtain ⟨ws, hws, h⟩ := bind_eq_some_iff.mp h
    cases h
    rcases mem_cons.mp hb with rfl | hb
    · exact ⟨n, mem_cons_self .., hw⟩
    · obtain ⟨m, hm, heq⟩ := exists_of_mapM hws hb
      exact ⟨m, mem_cons_of_mem _ hm, heq⟩

theorem threshold_le_offset (n : Nat) :
    irreversibleThreshold * n ≤ percent100 * (n - offset n) := by
  unfold offset irreversibleThreshold percent100
  omega

variable {s s' : Confirmations}

/-- What `update_last_irreversible_block` can do: keep its distance on an early chain,
or look for the block that the quorum has confirmed. -/
theorem updateLastIrreversibleBlock_cases (h : s.updateLastIrreversibleBlock = some s') :
    (s.headBlockNumber < startMinerVotingBlock ∧
      s' = if s.headBlockNumber > maxWitnesses then
        { s with lastIrreversibleBlockNum := s.headBlockNumber - maxWitnesses } else s) ∨
    startMinerVotingBlock ≤ s.headBlockNumber ∧
      ∃ witObjs num, s.schedule.witnesses.mapM s.getWitness = some witObjs ∧
        Rank.nthElement (witObjs.map Witness.lastConfirmedBlockNum) (offset witObjs.length) =
          some num ∧
        s' = if num > s.lastIrreversibleBlockNum then
          { s with lastIrreversibleBlockNum := num } else s := by
  unfold updateLastIrreversibleBlock at h
  split at h
  · next hlt => exact Or.inl ⟨hlt, (some.inj h).symm⟩
  · next hge =>
    obtain ⟨witObjs, hobjs, h⟩ := bind_eq_some_iff.mp h
    obtain ⟨num, hnum, h⟩ := bind_eq_some_iff.mp h
    exact Or.inr ⟨Nat.le_of_not_lt hge, witObjs, num, hobjs, hnum, (some.inj h).symm⟩

/-- The number the confirmations lead to: confirmed by the share of scheduled witnesses
that the threshold demands, and by a witness in particular. -/
theorem quorum_of_nthElement {witObjs : List Witness}
    (hobjs : s.schedule.witnesses.mapM s.getWitness = some witObjs)
    (hnum : Rank.nthElement (witObjs.map Witness.lastConfirmedBlockNum) (offset witObjs.length) =
      some num) :
    irreversibleThreshold * s.schedule.witnesses.length ≤ percent100 * s.confirmedBy num ∧
      s.confirmedBy (num + 1) < s.schedule.witnesses.length - offset s.schedule.witnesses.length ∧
      ∃ w ∈ witObjs, w.lastConfirmedBlockNum = num := by
  have hcount : ∀ k, s.confirmedBy k =
      (witObjs.map Witness.lastConfirmedBlockNum).countP fun a => decide (k ≤ a) := by
    intro k
    rw [countP_map]
    exact (countP_of_mapM hobjs).2
  have hlen := (countP_of_mapM (p := fun _ => true) hobjs).1
  have hle := Rank.le_countP_of_nthElement hnum
  have hlt := Rank.countP_lt_of_nthElement hnum
  rw [length_map, hlen] at hle hlt
  refine ⟨?_, ?_, mem_map.mp (Rank.mem_of_nthElement hnum)⟩
  · rw [hcount]
    have := threshold_le_offset s.schedule.witnesses.length
    unfold percent100 at this ⊢
    omega
  · rw [hcount]
    exact hlt

/-- The confirmations lead to the greatest number that they carry: a greater one has
fewer witnesses than the positions from the offset on. -/
theorem updateLastIrreversibleBlock_greatest (h : s.updateLastIrreversibleBlock = some s')
    (hvoting : startMinerVotingBlock ≤ s.headBlockNumber)
    (hnum : s.schedule.witnesses.length - offset s.schedule.witnesses.length ≤ s.confirmedBy num) :
    num ≤ s'.lastIrreversibleBlockNum := by
  rcases updateLastIrreversibleBlock_cases h with ⟨hlt, -⟩ | ⟨-, witObjs, k, hobjs, hk, rfl⟩
  · omega
  · obtain ⟨-, hfewer, -⟩ := quorum_of_nthElement hobjs hk
    have hle : num ≤ k := by
      by_contra hgt
      have hmono : s.confirmedBy num ≤ s.confirmedBy (k + 1) := by
        refine countP_mono_left fun name _ hname => ?_
        obtain ⟨w, hw, hle⟩ := (any_eq_true _ _).mp hname
        refine (any_eq_true _ _).mpr ⟨w, hw, ?_⟩
        have := of_decide_eq_true hle
        exact decide_eq_true (by omega)
      omega
    split
    · exact hle
    · omega

-- # Runs

/-- Nothing above the head is confirmed or irreversible, and an early chain keeps its
fixed distance. -/
structure Sound (s : Confirmations) : Prop where
  confirmed : ∀ {name w}, s.getWitness name = some w → w.lastConfirmedBlockNum ≤ s.headBlockNumber
  le_head : s.lastIrreversibleBlockNum ≤ s.headBlockNumber
  early : s.headBlockNumber < startMinerVotingBlock →
    s.lastIrreversibleBlockNum = s.headBlockNumber - maxWitnesses

theorem sound_genesis : genesis.Sound := by
  refine ⟨fun {name w} h => ?_, le_refl _, fun _ => rfl⟩
  have h' : (empty.emplace initMinerName (⟨0⟩ : Witness)).find? name = some w := h
  rw [find?_emplace] at h'
  split at h'
  · cases h'
    exact le_refl _
  · cases h'

/-- The state on which `update_last_irreversible_block` works. -/
theorem applyBlock_cases (h : s.applyBlock signingWitness = some s') :
    ∃ s₁ : Confirmations, s₁.headBlockNumber = s.headBlockNumber + 1 ∧
      s₁.lastIrreversibleBlockNum = s.lastIrreversibleBlockNum ∧
      (∀ {name w}, s₁.getWitness name = some w →
        w.lastConfirmedBlockNum = s₁.headBlockNumber ∨ s.getWitness name = some w) ∧
      s₁.updateLastIrreversibleBlock = some s' := by
  obtain ⟨s₀, hs₀, h⟩ := bind_eq_some_iff.mp h
  obtain ⟨s₁, hs₁, h⟩ := bind_eq_some_iff.mp h
  unfold updateGlobalDynamicData at hs₀
  simp only at hs₀
  split at hs₀
  · cases hs₀
    obtain ⟨t, ht, rfl⟩ := map_eq_some_iff.mp hs₁
    obtain ⟨-, rfl⟩ := modify?_eq_some ht
    refine ⟨_, ?_, ?_, ?_, h⟩
    · rfl
    · rfl
    intro name w hw
    have hw' := (find?_modify s.witnesses signingWitness _ name).symm.trans hw
    split at hw'
    · obtain ⟨w₀, -, rfl⟩ := map_eq_some_iff.mp hw'
      exact Or.inl rfl
    · exact Or.inr hw'
  · cases hs₀

/-- **Applying a block.** -/
theorem Sound.applyBlock (hs : s.Sound) (h : s.applyBlock signingWitness = some s') :
    s'.Sound ∧ s'.headBlockNumber = s.headBlockNumber + 1 ∧
      s.lastIrreversibleBlockNum ≤ s'.lastIrreversibleBlockNum := by
  obtain ⟨s₁, hhead, hlib, hconf, h⟩ := applyBlock_cases h
  have hconf₁ : ∀ {name w}, s₁.getWitness name = some w →
      w.lastConfirmedBlockNum ≤ s₁.headBlockNumber := by
    intro name w hw
    rcases hconf hw with heq | hold
    · exact le_of_eq heq
    · have := hs.confirmed hold
      omega
  have hle := hs.le_head
  have hearly := hs.early
  rcases updateLastIrreversibleBlock_cases h with ⟨hlt, rfl⟩ | ⟨hge, witObjs, num, hobjs, hnum, rfl⟩
  · -- the early chain: the distance stays `maxWitnesses`
    split
    · next hfar =>
      refine ⟨⟨hconf₁, Nat.sub_le _ _, fun _ => rfl⟩, hhead, ?_⟩
      show s.lastIrreversibleBlockNum ≤ s₁.headBlockNumber - maxWitnesses
      omega
    · next hnear => exact ⟨⟨hconf₁, by omega, fun _ => by omega⟩, hhead, by omega⟩
  · obtain ⟨-, -, w, hw, hwnum⟩ := quorum_of_nthElement hobjs hnum
    split
    · next hraise =>
      refine ⟨⟨hconf₁, ?_, fun h => ?_⟩, hhead, ?_⟩
      · -- the new number is one that some witness has confirmed
        show num ≤ s₁.headBlockNumber
        obtain ⟨name, -, hname⟩ := exists_of_mapM hobjs hw
        exact hwnum ▸ hconf₁ hname
      · exact absurd (show s₁.headBlockNumber < startMinerVotingBlock from h) (by omega)
      · show s.lastIrreversibleBlockNum ≤ num
        omega
    · exact ⟨⟨hconf₁, by omega, fun h => by omega⟩, hhead, by omega⟩

theorem Sound.createWitness {owner : AccountName} (hs : s.Sound)
    (h : s.createWitness owner = some s') :
    s'.Sound ∧ s'.headBlockNumber = s.headBlockNumber ∧
      s'.lastIrreversibleBlockNum = s.lastIrreversibleBlockNum := by
  obtain ⟨t, ht, rfl⟩ := map_eq_some_iff.mp h
  refine ⟨⟨fun {name w} hw => ?_, hs.le_head, hs.early⟩, rfl, rfl⟩
  have hw' := (find?_insert? ht name).symm.trans hw
  split at hw'
  · cases hw'
    exact Nat.zero_le _
  · exact hs.confirmed hw'

theorem Sound.step {event : Event} (hs : s.Sound) (h : s.step event = some s') : s'.Sound := by
  cases event with
  | applyBlock signingWitness => exact (hs.applyBlock h).1
  | createWitness owner => exact (hs.createWitness h).1
  | updateWitnessSchedule schedule =>
    cases h
    exact ⟨hs.confirmed, hs.le_head, hs.early⟩

theorem sound_run {events : List Event} (hrun : Run.exec step genesis events = some s) : s.Sound :=
  Run.exec_induct Sound (fun _ _ _ hs h => hs.step h) sound_genesis hrun

/-- After every run from genesis, the next block does not lower the last irreversible
block number nor raise it above the head. In every state, with any schedule and any
confirmed numbers, a number set by the confirmations is confirmed by as many of the
scheduled witnesses as the threshold demands. -/
theorem applyBlock_irreversible :
    (∀ {events : List Event} {s s' : Confirmations} {signingWitness : AccountName},
      Run.exec step genesis events = some s → s.applyBlock signingWitness = some s' →
      s.lastIrreversibleBlockNum ≤ s'.lastIrreversibleBlockNum ∧
        s'.lastIrreversibleBlockNum ≤ s'.headBlockNumber) ∧
    ∀ {s s' : Confirmations}, s.updateLastIrreversibleBlock = some s' →
      startMinerVotingBlock ≤ s.headBlockNumber →
      s'.lastIrreversibleBlockNum ≠ s.lastIrreversibleBlockNum →
      irreversibleThreshold * s'.schedule.witnesses.length ≤
        percent100 * s'.confirmedBy s'.lastIrreversibleBlockNum := by
  refine ⟨fun hrun hblock => ?_, fun h hvoting hset => ?_⟩
  · obtain ⟨hs', -, hle⟩ := (sound_run hrun).applyBlock hblock
    exact ⟨hle, hs'.le_head⟩
  · rcases updateLastIrreversibleBlock_cases h with ⟨hlt, -⟩ | ⟨-, witObjs, num, hobjs, hnum, rfl⟩
    · omega
    · split at hset
      · next hraise =>
        rw [if_pos hraise]
        exact (quorum_of_nthElement hobjs hnum).1
      · exact absurd rfl hset

/-- Four witnesses that have confirmed blocks 10, 20, 30 and 40. -/
def fourWitnesses : Confirmations where
  headBlockNumber := startMinerVotingBlock
  lastIrreversibleBlockNum := 5
  witnesses := (((Table.empty.emplace "a" ⟨30⟩).emplace "b" ⟨10⟩).emplace "c" ⟨40⟩).emplace "d" ⟨20⟩
  schedule := ⟨["a", "b", "c", "d"], by simp⟩

theorem applyBlock_irreversible_four :
    (∃ s', genesis.applyBlock initMinerName = some s' ∧ 0 ≤ s'.lastIrreversibleBlockNum ∧
      s'.lastIrreversibleBlockNum ≤ s'.headBlockNumber) ∧
    ∃ s', fourWitnesses.updateLastIrreversibleBlock = some s' ∧ s'.lastIrreversibleBlockNum = 20 ∧
      irreversibleThreshold * 4 ≤ percent100 * s'.confirmedBy 20 := by
  have hfirst : (genesis.applyBlock initMinerName).isSome := by decide
  have hfour : (fourWitnesses.updateLastIrreversibleBlock).map
      (fun s => (s.lastIrreversibleBlockNum, s.schedule.witnesses.length)) = some (20, 4) := by
    decide
  obtain ⟨s₁, hs₁⟩ := isSome_iff_exists.mp hfirst
  obtain ⟨s₂, hs₂, heq⟩ := map_eq_some_iff.mp hfour
  obtain ⟨hnum, hlen⟩ := Prod.mk.inj heq
  refine ⟨⟨s₁, hs₁, applyBlock_irreversible.1 (Run.exec_nil step genesis) hs₁⟩, s₂, hs₂, hnum, ?_⟩
  have hquorum := applyBlock_irreversible.2 hs₂ (by decide) (by rw [hnum]; decide)
  rw [hnum, hlen] at hquorum
  exact hquorum

theorem updateLastIrreversibleBlock_greatest_four :
    ∃ s', fourWitnesses.updateLastIrreversibleBlock = some s' ∧ 20 ≤ s'.lastIrreversibleBlockNum := by
  have hfour : fourWitnesses.updateLastIrreversibleBlock.isSome := by decide
  obtain ⟨s', h⟩ := isSome_iff_exists.mp hfour
  exact ⟨s', h, updateLastIrreversibleBlock_greatest h (le_refl _) (by decide)⟩

-- # Two branches

variable {s₁ s₂ : Confirmations}

theorem applyBlock_eq (h : s.applyBlock signingWitness = some s') :
    updateLastIrreversibleBlock { s with
      headBlockNumber := s.headBlockNumber + 1
      witnesses := s.witnesses.modify signingWitness fun _ => ⟨s.headBlockNumber + 1⟩ } =
        some s' := by
  obtain ⟨s₀, hs₀, h⟩ := bind_eq_some_iff.mp h
  obtain ⟨s₁, hs₁, h⟩ := bind_eq_some_iff.mp h
  obtain ⟨-, hs₀⟩ := ite_none_right_eq_some.mp hs₀
  cases hs₀
  obtain ⟨t, ht, rfl⟩ := map_eq_some_iff.mp hs₁
  obtain ⟨-, rfl⟩ := modify?_eq_some ht
  exact h

/-- What a branch shows above the block `n` it starts from: whoever has confirmed a block there has
signed one of its blocks, and so has a quorum of the scheduled witnesses if one is irreversible. -/
structure Signed (n : Nat) (scheduled : List AccountName) (branch : List Event)
    (s : Confirmations) : Prop where
  voting : startMinerVotingBlock ≤ s.headBlockNumber
  perm : s.schedule.witnesses.Perm scheduled
  signed : ∀ name w, s.getWitness name = some w → n < w.lastConfirmedBlockNum →
    .applyBlock name ∈ branch
  quorum : n < s.lastIrreversibleBlockNum → ∃ p : AccountName → Bool,
    irreversibleThreshold * scheduled.length ≤ percent100 * scheduled.countP p ∧
      ∀ name, p name = true → .applyBlock name ∈ branch

variable {n : Nat} {scheduled : List AccountName} {branch branch₁ branch₂ : List Event}

theorem Signed.applyBlock (hs : Signed n scheduled branch s)
    (he : .applyBlock signingWitness ∈ branch) (h : s.applyBlock signingWitness = some s') :
    Signed n scheduled branch s' := by
  have hvoting := hs.voting
  rcases updateLastIrreversibleBlock_cases (applyBlock_eq h) with
    ⟨hlt, -⟩ | ⟨hge, witObjs, num, hobjs, hnum, rfl⟩
  · exact absurd hlt (by dsimp only; omega)
  have hsigned : ∀ name w, (s.witnesses.modify signingWitness fun _ =>
      ⟨s.headBlockNumber + 1⟩).find? name = some w → n < w.lastConfirmedBlockNum →
      .applyBlock name ∈ branch := by
    intro name w hw hlt
    by_cases hname : name = signingWitness
    · rwa [hname]
    · exact hs.signed name w ((find?_modify_ne _ _ hname).symm.trans hw) hlt
  have hquorum := (quorum_of_nthElement hobjs hnum).1
  unfold confirmedBy at hquorum
  rw [hs.perm.length_eq, hs.perm.countP_eq] at hquorum
  split
  · refine ⟨hge, hs.perm, hsigned, fun hlt => ⟨_, hquorum, fun name hname => ?_⟩⟩
    obtain ⟨w, hw, hle⟩ := (any_eq_true _ _).mp hname
    exact hsigned name w hw (lt_of_lt_of_le hlt (of_decide_eq_true hle))
  · exact ⟨hge, hs.perm, hsigned, hs.quorum⟩

/-- **A branch in which the scheduled witnesses stay the same.** -/
theorem signed_of_run (hs : s.Sound) (hvoting : startMinerVotingBlock ≤ s.headBlockNumber)
    (hsame : ∀ schedule, .updateWitnessSchedule schedule ∈ branch →
      schedule.witnesses.Perm s.schedule.witnesses)
    (hrun : Run.exec step s branch = some s') :
    Signed s.headBlockNumber s.schedule.witnesses branch s' := by
  refine Run.exec_induct_mem (Signed s.headBlockNumber s.schedule.witnesses branch) ?_
    ⟨hvoting, .refl _, fun _ _ hw hlt => absurd (hs.confirmed hw) (not_le.mpr hlt),
      fun hlt => absurd hs.le_head (not_le.mpr hlt)⟩ hrun
  rintro (signer | owner | schedule) he t t' ht hstep
  · exact ht.applyBlock he hstep
  · obtain ⟨u, hu, rfl⟩ := map_eq_some_iff.mp hstep
    refine ⟨ht.voting, ht.perm, fun name w hw hlt => ?_, ht.quorum⟩
    have hw' := (find?_insert? hu name).symm.trans hw
    split at hw'
    · cases hw'
      cases hlt
    · exact ht.signed name w hw' hlt
  · cases hstep
    exact ⟨ht.voting, hsame schedule he, ht.signed, ht.quorum⟩

/-- **Agreement.** Two branches from one block, on which the same witnesses stay scheduled. If both
make blocks above it irreversible, at least half of these witnesses have signed on both. -/
theorem irreversible_branches_share (hs : s.Sound)
    (hvoting : startMinerVotingBlock ≤ s.headBlockNumber)
    (hsame : ∀ schedule, .updateWitnessSchedule schedule ∈ branch₁ ++ branch₂ →
      schedule.witnesses.Perm s.schedule.witnesses)
    (h₁ : Run.exec step s branch₁ = some s₁) (h₂ : Run.exec step s branch₂ = some s₂)
    (hlib₁ : s.headBlockNumber < s₁.lastIrreversibleBlockNum)
    (hlib₂ : s.headBlockNumber < s₂.lastIrreversibleBlockNum) :
    ∃ names : List AccountName, names <+ s.schedule.witnesses ∧
      s.schedule.witnesses.length ≤ 2 * names.length ∧
      ∀ name ∈ names, .applyBlock name ∈ branch₁ ∧ .applyBlock name ∈ branch₂ := by
  obtain ⟨p, hp, hsigned⟩ := (signed_of_run hs hvoting
    (fun σ h => hsame σ (mem_append_left _ h)) h₁).quorum hlib₁
  obtain ⟨q, hq, hsigned'⟩ := (signed_of_run hs hvoting
    (fun σ h => hsame σ (mem_append_right _ h)) h₂).quorum hlib₂
  set names := s.schedule.witnesses
  refine ⟨(names.filter q).filter p, filter_sublist.trans filter_sublist, ?_, fun name h => ?_⟩
  · have hsplit := countP_eq_countP_filter_add names p q
    have hrest := countP_le_length (p := p) (l := names.filter fun a => !q a)
    have hall := length_eq_countP_add_countP q (l := names)
    simp only [Bool.not_eq_true, Bool.decide_eq_false] at hall
    rw [← countP_eq_length_filter] at hrest ⊢
    -- two times three quarters: half of the witnesses count twice
    unfold irreversibleThreshold percent100 at hp hq
    omega
  · simp only [mem_filter] at h
    exact ⟨hsigned name h.2, hsigned' name h.1.2⟩

/-- `b` and `c` have signed on both branches. -/
theorem irreversible_branches_share_four :
    ∃ names : List AccountName, names <+ ["a", "b", "c", "d"] ∧ 4 ≤ 2 * names.length ∧
      ∀ name ∈ names, name ∈ ["a", "b", "c"] ∧ name ∈ ["d", "c", "b"] := by
  let start := { fourWitnesses with lastIrreversibleBlockNum := startMinerVotingBlock }
  have hs : start.Sound := by
    refine ⟨fun {name w} h => ?_, le_refl _, fun h => absurd h (lt_irrefl _)⟩
    simp only [start, getWitness, fourWitnesses, find?_emplace, find?_empty] at h
    split_ifs at h <;> cases h <;> decide
  have h : ∀ names ∈ [["a", "b", "c"], ["d", "c", "b"]], (Run.exec step start
      (names.map .applyBlock)).map lastIrreversibleBlockNum = some (startMinerVotingBlock + 1) := by
    decide
  obtain ⟨s₁, h₁, hlib₁⟩ := map_eq_some_iff.mp (h ["a", "b", "c"] (by simp))
  obtain ⟨s₂, h₂, hlib₂⟩ := map_eq_some_iff.mp (h ["d", "c", "b"] (by simp))
  simpa [fourWitnesses, start] using irreversible_branches_share hs (le_refl _) (by simp) h₁ h₂
    (hlib₁ ▸ Nat.lt_succ_self _) (hlib₂ ▸ Nat.lt_succ_self _)

-- # What the fork database relies on

/-- What a block does to the confirmations: the witness that signed it, the witnesses
its transactions make, and the next schedule, if one is drawn. -/
structure BlockEffects where
  signingWitness : AccountName
  created : List AccountName
  schedule : Option WitnessSchedule

/-- The confirmations after a block. -/
def afterBlock (s : Confirmations) (e : BlockEffects) : Option Confirmations := do
  let s ← Run.exec createWitness s e.created
  let s ← s.applyBlock e.signingWitness
  return { s with schedule := e.schedule.getD s.schedule }

/-- The confirmations in a chain state. -/
def ofChainState (s : Fork.ChainState (Table AccountName Witness × WitnessSchedule)) :
    Confirmations :=
  ⟨s.headBlockNum, s.lastIrreversibleBlockNum, s.rest.1, s.rest.2⟩

/-- Applying blocks with the given effects, as the fork database sees it. -/
def chainExec (effects : Fork.Block → BlockEffects) :
    Fork.Exec (Table AccountName Witness × WitnessSchedule) := fun s b =>
  ((ofChainState s).afterBlock (effects b)).map fun s =>
    (s.lastIrreversibleBlockNum, s.witnesses, s.schedule)

theorem Sound.afterBlock {e : BlockEffects} (hs : s.Sound) (h : s.afterBlock e = some s') :
    s'.Sound ∧ s'.headBlockNumber = s.headBlockNumber + 1 ∧
      s.lastIrreversibleBlockNum ≤ s'.lastIrreversibleBlockNum := by
  obtain ⟨s₁, hs₁, h⟩ := bind_eq_some_iff.mp h
  obtain ⟨s₂, hs₂, h⟩ := bind_eq_some_iff.mp h
  cases h
  -- the transactions leave the head and the number alone
  obtain ⟨hsound, hhead, hlib⟩ := Run.exec_induct
    (fun t : Confirmations => t.Sound ∧ t.headBlockNumber = s.headBlockNumber ∧
      t.lastIrreversibleBlockNum = s.lastIrreversibleBlockNum)
    (fun t owner t' ht hstep => by
      obtain ⟨hsound, hhead, hlib⟩ := ht.1.createWitness hstep
      exact ⟨hsound, hhead.trans ht.2.1, hlib.trans ht.2.2⟩)
    (show s.Sound ∧ _ = _ ∧ _ = _ from ⟨hs, rfl, rfl⟩) hs₁
  obtain ⟨hsound₂, hhead₂, hle⟩ := hsound.applyBlock hs₂
  refine ⟨⟨hsound₂.confirmed, hsound₂.le_head, hsound₂.early⟩, ?_, ?_⟩
  · show s₂.headBlockNumber = s.headBlockNumber + 1
    omega
  · show s.lastIrreversibleBlockNum ≤ s₂.lastIrreversibleBlockNum
    omega

/-- `update_last_irreversible_block` gives the fork database what it relies on, from
every sound start state. -/
theorem chainExec_libSound (effects : Fork.Block → BlockEffects)
    {start : Fork.ChainState (Table AccountName Witness × WitnessSchedule)}
    (hstart : (ofChainState start).Sound) : Fork.Database.LibSound (chainExec effects) start := by
  refine Fork.Database.libSound_of_inv (J := fun s => (ofChainState s).Sound) hstart hstart.le_head
    fun {s s' b} hs h => ?_
  have hnum := Fork.execBlock_num h
  unfold Fork.Database.execBlock chainExec at h
  split at h
  · obtain ⟨r, hr, rfl⟩ := map_eq_some_iff.mp h
    obtain ⟨c, hc, rfl⟩ := map_eq_some_iff.mp hr
    obtain ⟨hsound, hhead, hle⟩ := hs.afterBlock hc
    have hhead' : c.headBlockNumber = s.headBlockNum + 1 := hhead
    have heq : ofChainState ⟨b.id, c.lastIrreversibleBlockNum, c.witnesses, c.schedule⟩ = c := by
      unfold ofChainState
      rw [hnum, ← hhead']
    have hle' := hsound.le_head
    refine ⟨?_, hle, ?_⟩
    · show (ofChainState ⟨b.id, c.lastIrreversibleBlockNum, c.witnesses, c.schedule⟩).Sound
      rw [heq]
      exact hsound
    · show c.lastIrreversibleBlockNum ≤ _
      omega
  · cases h

theorem chainExec_libSound_genesis : Fork.Database.LibSound
    (chainExec fun _ => ⟨initMinerName, [], none⟩) ⟨.zero, 0, genesis.witnesses, genesis.schedule⟩ :=
  chainExec_libSound _ sound_genesis

end Confirmations

end DeltaChain.Chain

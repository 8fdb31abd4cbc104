import DeltaChain.Signing.Cutoff

/-!
# More keys

An account approved somewhere in the signature check is remembered, and counts from then on also
where the limit on the depth would pass it over. So the answer can depend on which branches were
looked at before, and one more key can shorten a branch and leave an account unapproved
(`one_more_key_fails`).

`checkAfresh` is the check without that: what is approved inside the check of a member account is
forgotten when it ends. A simulation of two runs (`checkWatched_follows`) shows that where it says
yes, the check with more keys says yes too and has counted no more accounts, unless a remembered
approval does harm at the deepest level (`crowdedOut`).
-/

namespace DeltaChain.Signing

open Lib Protocol Checked List

-- # The check that forgets

/-- The check of a member account, but what it approves is forgotten when it ends. -/
def forgetting (check : MemberCheck) : MemberCheck := fun a count s => do
  let (approved, count, s') ← check a count s
  pure (approved, count, { s' with approvedBy := s.approvedBy })

/-- `check_authority_impl` with `levels` to go, but what is approved inside the check of a member
account is forgotten after it. The members approved by the loops in progress are remembered. -/
def checkAfresh (lim : Limits) (getMember : Getter) : Nat → Authority → Nat → SignState → Outcome
  | 0 => checkWith lim none
  | levels + 1 => checkWith lim (some (forgetting fun a count s => do
      let auth ← getMember a
      checkAfresh lim getMember levels auth count s))

/-- At the deepest level, where members count only if they were approved before: the authority is
turned down, and would not be if fewer accounts were remembered, so that some of them do not take a
place among the `max_membership` members. -/
def crowdedOut (lim : Limits) (member : Option MemberCheck) (auth : Authority) (count : Nat)
    (s : SignState) : Bool :=
  member.isNone && decide (answer (checkWith lim none auth count s) = some false) &&
    s.approvedBy.sublists.any fun known => decide (tempAccount ∈ known) &&
      decide (answer (checkWith lim none auth count { s with approvedBy := known }) = some true)

-- # The state of the check

/-- What a check may do to its state and to the count of accounts. -/
structure Grows (lim : Limits) (count : Nat) (s : SignState) (count' : Nat) (s' : SignState) : Prop where
  available : s'.availableKeys = []
  keys : s'.keys = s.keys
  approvedBy : s.approvedBy ⊆ s'.approvedBy
  le : count ≤ count'
  bound : 0 < lim.maxAccountAuths → count' ≤ max count lim.maxAccountAuths

section
variable {lim : Limits} {count count' count'' : Nat} {s s' s'' : SignState}

theorem Grows.refl (h : s.availableKeys = []) : Grows lim count s count s :=
  ⟨h, rfl, Subset.refl _, Nat.le_refl _, fun _ => Nat.le_max_left _ _⟩

theorem Grows.trans (h : Grows lim count s count' s') (h' : Grows lim count' s' count'' s'') :
    Grows lim count s count'' s'' where
  available := h'.available
  keys := h'.keys.trans h.keys
  approvedBy := Subset.trans h.approvedBy h'.approvedBy
  le := h.le.trans h'.le
  bound hpos := by
    have := h.bound hpos
    have := h'.bound hpos
    omega

theorem Grows.remember (h : Grows lim count s count' s') (approved : Bool) (a : AccountName) :
    Grows lim count s count' (s'.remember approved a) := by
  cases approved with
  | true => exact ⟨h.available, h.keys, subset_cons_of_subset a h.approvedBy, h.le, h.bound⟩
  | false => exact h

/-- A member account that the limit leaves room for is counted. -/
theorem Grows.counted (hroom : ¬ (0 < lim.maxAccountAuths ∧ lim.maxAccountAuths ≤ count))
    (h : Grows lim (count + 1) s count' s') : Grows lim count s count' s' :=
  ⟨h.available, h.keys, h.approvedBy, Nat.le_of_succ_le h.le, fun hpos => by
    have := h.bound hpos
    omega⟩

variable {threshold : Nat} {member : Option MemberCheck}

/-- The loop over the keys; it approves no account. -/
theorem checkKeys_grows {keys : List (PublicKey × Nat)} :
    ∀ {total membership : Nat} {s : SignState}, s.availableKeys = [] →
      Grows lim count s count (checkKeys lim threshold keys total membership s).2 ∧
        (checkKeys lim threshold keys total membership s).2.approvedBy = s.approvedBy := by
  induction keys with
  | nil => exact fun hs => ⟨.refl hs, rfl⟩
  | cons p rest ih =>
    obtain ⟨k, weight⟩ := p
    intro total membership s hs
    obtain ⟨s₁, hsigned, hmarked⟩ := SignState.signedBy_spec hs k
    have hs₁ := hmarked.available.trans hs
    have hsame := hmarked.approvedBy
    have hmark : Grows lim count s count s₁ :=
      ⟨hs₁, hmarked.keys, hsame ▸ Subset.refl _, Nat.le_refl _, fun _ => Nat.le_max_left _ _⟩
    simp only [checkKeys, hsigned]
    split
    · exact ⟨hmark, hsame⟩
    · split
      · exact ⟨hmark, hsame⟩
      · exact ⟨hmark.trans (ih hs₁).1, (ih hs₁).2.trans hsame⟩

/-- The check of a member account, as far as its state goes. -/
def MemberGrows (lim : Limits) (check : MemberCheck) : Prop :=
  ∀ ⦃a count s approved count' s'⦄, s.availableKeys = [] →
    check a count s = .ok (approved, count', s') → Grows lim count s count' s'

theorem endRound_grows {next : Nat → Nat → Nat → SignState → Outcome} {counts result : Bool}
    {weight total membership : Nat}
    (hnext : ∀ {total membership}, next total membership count s = .ok (result, count', s') →
      Grows lim count s count' s') (hs : s.availableKeys = [])
    (h : endRound lim threshold next counts weight total membership count s =
      .ok (result, count', s')) : Grows lim count s count' s' := by
  unfold endRound at h
  split at h
  · cases h
    exact .refl hs
  · split at h
    · cases h
      exact .refl hs
    · exact hnext h

theorem checkAccounts_grows (hmember : ∀ check ∈ member, MemberGrows lim check)
    {accounts : List (AccountName × Nat)} :
    ∀ {total membership count : Nat} {s : SignState} {result : Bool} {count' : Nat} {s' : SignState},
      s.availableKeys = [] →
      checkAccounts lim threshold member accounts total membership count s = .ok (result, count', s') →
      Grows lim count s count' s' := by
  induction accounts with
  | nil =>
    intro total membership count s result count' s' hs h
    cases h
    exact .refl hs
  | cons p rest ih =>
    obtain ⟨a, weight⟩ := p
    intro total membership count s result count' s' hs h
    rw [checkAccounts_cons] at h
    split at h
    · exact endRound_grows (ih hs) hs h
    · cases member with
      | none => exact ih hs h
      | some check =>
        dsimp only at h
        split at h
        · cases h
          exact .refl hs
        · obtain ⟨⟨approved, count₁, s₁⟩, hcheck, h⟩ := bind_eq_ok.mp h
          have hgrows := ((hmember check rfl hs hcheck).counted ‹_›).remember approved a
          exact hgrows.trans (endRound_grows (ih hgrows.available) hgrows.available h)

/-- The loop over the keys of an authority. -/
def keysOf (lim : Limits) (auth : Authority) (s : SignState) : KeysEnd × SignState :=
  checkKeys lim auth.weightThreshold auth.keyAuths 0 0 { s with examined := auth :: s.examined }

/-- What comes after the loop over the keys. -/
def afterKeys (lim : Limits) (member : Option MemberCheck) (auth : Authority) (count : Nat)
    (keys : KeysEnd × SignState) : Outcome :=
  match keys with
  | (.returned result, s) => .ok (result, count, s)
  | (.counted total membership, s) =>
    checkAccounts lim auth.weightThreshold member auth.accountAuths total membership count s

theorem checkWith_eq {auth : Authority} :
    checkWith lim member auth count s = afterKeys lim member auth count (keysOf lim auth s) := rfl

theorem keysOf_grows (lim : Limits) (auth : Authority) (count : Nat) (hs : s.availableKeys = []) :
    Grows lim count s count (keysOf lim auth s).2 ∧ (keysOf lim auth s).2.approvedBy = s.approvedBy := by
  obtain ⟨hgrows, hsame⟩ := @checkKeys_grows lim count auth.weightThreshold auth.keyAuths 0 0
    { s with examined := auth :: s.examined } hs
  exact ⟨⟨hgrows.available, hgrows.keys, hgrows.approvedBy, hgrows.le, hgrows.bound⟩, hsame⟩

theorem afterKeys_grows (hmember : ∀ check ∈ member, MemberGrows lim check) {auth : Authority}
    {result : Bool} {keys : KeysEnd × SignState} (hs : keys.2.availableKeys = [])
    (h : afterKeys lim member auth count keys = .ok (result, count', s')) :
    Grows lim count keys.2 count' s' := by
  obtain ⟨e, s₁⟩ := keys
  cases e with
  | returned result =>
    cases h
    exact .refl hs
  | counted total membership => exact checkAccounts_grows hmember hs h

/-- The check of an authority, as far as its state goes. -/
def CheckGrows (lim : Limits) (check : Authority → Nat → SignState → Outcome) : Prop :=
  ∀ ⦃auth count s result count' s'⦄, s.availableKeys = [] →
    check auth count s = .ok (result, count', s') → Grows lim count s count' s'

theorem CheckGrows.through {check : Authority → Nat → SignState → Outcome} (h : CheckGrows lim check)
    (getMember : Getter) : MemberGrows lim (fun a count s => do check (← getMember a) count s) := by
  intro a count s approved count' s' hs hrun
  obtain ⟨auth, -, hrun⟩ := bind_eq_ok.mp hrun
  exact h hs hrun

theorem forgetting_eq_ok {check : MemberCheck} {a : AccountName} {approved : Bool} :
    forgetting check a count s = .ok (approved, count', s') ↔
      ∃ s₁, check a count s = .ok (approved, count', s₁) ∧
        s' = { s₁ with approvedBy := s.approvedBy } := by
  simp only [forgetting, eq_ok, Prod.exists, Prod.mk.injEq]
  constructor
  · rintro ⟨_, _, s₁, h, rfl, rfl, rfl⟩
    exact ⟨s₁, h, rfl⟩
  · rintro ⟨s₁, h, rfl⟩
    exact ⟨_, _, s₁, h, rfl, rfl, rfl⟩

theorem MemberGrows.forgetting {check : MemberCheck} (h : MemberGrows lim check) :
    MemberGrows lim (forgetting check) := by
  intro a count s approved count' s' hs hrun
  obtain ⟨s₁, hcheck, rfl⟩ := forgetting_eq_ok.mp hrun
  have hgrows := h hs hcheck
  exact ⟨hgrows.available, hgrows.keys, Subset.refl _, hgrows.le, hgrows.bound⟩

theorem checkWith_grows (hmember : ∀ check ∈ member, MemberGrows lim check) :
    CheckGrows lim (checkWith lim member) := by
  intro auth count s result count' s' hs h
  have hkeys := (keysOf_grows lim auth count hs).1
  exact hkeys.trans (afterKeys_grows hmember hkeys.available h)

theorem checkAfresh_grows {getMember : Getter} (levels : Nat) :
    CheckGrows lim (checkAfresh lim getMember levels) := by
  induction levels with
  | zero => exact checkWith_grows (by simp)
  | succ levels ih => exact checkWith_grows fun _ h => Option.some.inj h ▸ (ih.through _).forgetting

theorem checkAuthorityImpl_grows {getMember : Getter} (levels : Nat) :
    CheckGrows lim (checkAuthorityImpl lim getMember levels) := by
  induction levels with
  | zero => exact checkWith_grows (by simp)
  | succ levels ih => exact checkWith_grows fun _ h => Option.some.inj h ▸ ih.through _

end

-- # Weights

/-- The weights of an authority fit `weight_type`, 16 bits. -/
structure WeightsFit (auth : Authority) : Prop where
  keys : ∀ p ∈ auth.keyAuths, p.2 < 2 ^ 16
  accounts : ∀ p ∈ auth.accountAuths, p.2 < 2 ^ 16

/-- Limits on members, under which the sum of the weights stays below `2 ^ 32`, and on accounts. -/
structure Limits.Sized (lim : Limits) : Prop where
  pos : 0 < lim.maxMembership
  le : lim.maxMembership ≤ 2 ^ 16
  accounts : 0 < lim.maxAccountAuths

/-- The weight counted after some members, with room for one more. -/
def Within (lim : Limits) (membership total : Nat) : Prop :=
  membership < lim.maxMembership ∧ total ≤ membership * (2 ^ 16 - 1)

section
variable {lim : Limits} {membership total total' weight : Nat} {b b' : Bool}

theorem addWeight_mono (hlim : lim.Sized) (hb : b = true → b' = true) (htotal : total ≤ total')
    (h : Within lim membership total') (hweight : weight < 2 ^ 16) :
    addWeight b total weight ≤ addWeight b' total' weight := by
  have hlt : total' + weight < 2 ^ 32 := by
    obtain ⟨hmem, hle⟩ := h
    have := hlim.le
    omega
  cases b with
  | true =>
    rw [hb rfl]
    simp only [addWeight, if_true]
    omega
  | false =>
    cases b' with
    | true =>
      simp only [addWeight, if_true, Bool.false_eq_true, if_false]
      omega
    | false => exact htotal

theorem Within.next (h : Within lim membership total) (hweight : weight < 2 ^ 16)
    (hfull : ¬ lim.full (membership + 1) = true) :
    Within lim (membership + 1) (addWeight b total weight) := by
  obtain ⟨hmem, htotal⟩ := h
  simp only [Limits.full, decide_eq_true_eq] at hfull
  have hle := addWeight_le b total weight
  exact ⟨by omega, by split at hle <;> omega⟩

end

-- # Two runs

/-- The states of two runs: the second has at least the keys of the first, and remembers at least
its accounts. -/
structure Below (s s' : SignState) : Prop where
  available : s.availableKeys = []
  available' : s'.availableKeys = []
  keys : s.keys ⊆ s'.keys
  approvedBy : s.approvedBy ⊆ s'.approvedBy
  temp : tempAccount ∈ s.approvedBy

/-- How two runs end: if the first says yes, so does the second, which has counted no more
accounts. -/
structure Follows (out out' : Bool × Nat × SignState) : Prop where
  answer : out.1 = true → out'.1 = true
  counted : out'.2.1 ≤ out.2.1

section
variable {lim : Limits} {count count' count₁ count₁' : Nat} {s s' s₁ s₁' : SignState}

theorem Below.grow (h : Below s s') (hs : Grows lim count s count₁ s₁)
    (hforget : s₁.approvedBy = s.approvedBy) (hs' : Grows lim count' s' count₁' s₁') :
    Below s₁ s₁' where
  available := hs.available
  available' := hs'.available
  keys := by
    rw [hs.keys, hs'.keys]
    exact h.keys
  approvedBy := by
    rw [hforget]
    exact Subset.trans h.approvedBy hs'.approvedBy
  temp := hforget ▸ h.temp

theorem Below.remember (h : Below s s') {approved : Bool} {a : AccountName}
    (ha : approved = true → a ∈ s'.approvedBy) : Below (s.remember approved a) s' := by
  cases approved with
  | true => exact ⟨h.available, h.available', h.keys, cons_subset.mpr ⟨ha rfl, h.approvedBy⟩,
      mem_cons_of_mem a h.temp⟩
  | false => exact h

/-- How the loop over the keys ends in two runs. -/
inductive KeysEnd.Follows (lim : Limits) : KeysEnd → KeysEnd → Prop
  | reached (e : KeysEnd) : KeysEnd.Follows lim e (.returned true)
  | full : KeysEnd.Follows lim (.returned false) (.returned false)
  | counted {total total' membership : Nat} (htotal : total ≤ total')
      (hwithin : Within lim membership total') :
      KeysEnd.Follows lim (.counted total membership) (.counted total' membership)

variable {threshold : Nat}

/-- **The loop over the keys.** -/
theorem checkKeys_follows (hlim : lim.Sized) {keys : List (PublicKey × Nat)} :
    ∀ {total total' membership : Nat} {s s' : SignState},
      (∀ p ∈ keys, p.2 < 2 ^ 16) → total ≤ total' → Within lim membership total' →
      s.availableKeys = [] → s'.availableKeys = [] → s.keys ⊆ s'.keys →
      KeysEnd.Follows lim (checkKeys lim threshold keys total membership s).1
        (checkKeys lim threshold keys total' membership s').1 := by
  induction keys with
  | nil => exact fun _ htotal hwithin _ _ _ => .counted htotal hwithin
  | cons p rest ih =>
    obtain ⟨k, weight⟩ := p
    intro total total' membership s s' hweights htotal hwithin hs hs' hkeys
    obtain ⟨hweight, hrest⟩ := forall_mem_cons.mp hweights
    obtain ⟨s₁, hsigned, hmarked⟩ := SignState.signedBy_spec hs k
    obtain ⟨s₁', hsigned', hmarked'⟩ := SignState.signedBy_spec hs' k
    have hcounts : decide (k ∈ s.keys) = true → decide (k ∈ s'.keys) = true := by
      simpa using fun hk => hkeys hk
    have hsum := addWeight_mono hlim hcounts htotal hwithin hweight
    simp only [checkKeys, hsigned, hsigned']
    by_cases hreach' : decide (k ∈ s'.keys) = true ∧
        threshold ≤ addWeight (decide (k ∈ s'.keys)) total' weight
    · -- the second run ends here; the first one may go on
      rw [if_pos hreach']
      exact .reached _
    · rw [if_neg fun h => hreach' ⟨hcounts h.1, h.2.trans hsum⟩, if_neg hreach']
      by_cases hfull : lim.full (membership + 1) = true
      · rw [if_pos hfull, if_pos hfull]
        exact .full
      · rw [if_neg hfull, if_neg hfull]
        refine ih hrest hsum (hwithin.next hweight hfull) (hmarked.available.trans hs)
          (hmarked'.available.trans hs') ?_
        rw [hmarked.keys, hmarked'.keys]
        exact hkeys

/-- The checks of a member account in two runs, of which the first forgets. -/
inductive MemberFollows (lim : Limits) : Option MemberCheck → Option MemberCheck → Prop
  | none : MemberFollows lim none none
  | some {check check' : MemberCheck} (hgrows : MemberGrows lim check)
      (hforget : ∀ {a count s out}, check a count s = .ok out → out.2.2.approvedBy = s.approvedBy)
      (hgrows' : MemberGrows lim check')
      (hfollows : ∀ {a count count' s s' out out'}, Below s s' →
        count' ≤ count → check a count s = .ok out →
        check' a count' s' = .ok out' → Follows out out') :
      MemberFollows lim (some check) (some check')

variable {member member' : Option MemberCheck}

theorem MemberFollows.grows (h : MemberFollows lim member member') :
    ∀ check ∈ member, MemberGrows lim check := by
  cases h with
  | none => simp
  | some hgrows _ _ _ => exact fun _ h => Option.some.inj h ▸ hgrows

/-- The loops over the remaining accounts in two runs, from states like these. -/
def RestFollows (lim : Limits) (threshold : Nat) (member member' : Option MemberCheck)
    (rest : List (AccountName × Nat)) : Prop :=
  ∀ {total total' membership count count' : Nat} {s s' : SignState} {out out' : Bool × Nat × SignState},
    total ≤ total' → Within lim membership total' → Below s s' →
    count' ≤ count → (member = none → s'.approvedBy ⊆ s.approvedBy) →
    checkAccounts lim threshold member rest total membership count s = .ok out →
    checkAccounts lim threshold member' rest total' membership count' s' = .ok out' →
    Follows out out'

/-- The end of a round in two runs. -/
theorem endRound_follows (hlim : lim.Sized) (hmember : MemberFollows lim member member')
    {rest : List (AccountName × Nat)} (hrest : RestFollows lim threshold member member' rest)
    {weight total total' membership : Nat} (hweight : weight < 2 ^ 16) (htotal : total ≤ total')
    (hwithin : Within lim membership total') {b b' : Bool} (hb : b = true → b' = true)
    (hcount : count' ≤ count) (hbelow : Below s s')
    (hsame : member = none → s'.approvedBy ⊆ s.approvedBy) {out out' : Bool × Nat × SignState}
    (h : endRound lim threshold (checkAccounts lim threshold member rest) b weight total membership
      count s = .ok out)
    (h' : endRound lim threshold (checkAccounts lim threshold member' rest) b' weight total' membership
      count' s' = .ok out') : Follows out out' := by
  have hsum := addWeight_mono hlim hb htotal hwithin hweight
  have hgrows : Grows lim count s out.2.1 out.2.2 :=
    endRound_grows (checkAccounts_grows hmember.grows hbelow.available) hbelow.available h
  unfold endRound at h h'
  by_cases hreach' : b' = true ∧ threshold ≤ addWeight b' total' weight
  · -- the second run ends here; the first one may go on
    rw [if_pos hreach'] at h'
    cases h'
    exact ⟨fun _ => rfl, hcount.trans hgrows.le⟩
  rw [if_neg fun h => hreach' ⟨hb h.1, h.2.trans hsum⟩] at h
  rw [if_neg hreach'] at h'
  by_cases hfull : lim.full (membership + 1) = true
  · rw [if_pos hfull] at h h'
    cases h
    cases h'
    exact ⟨id, hcount⟩
  · rw [if_neg hfull] at h h'
    exact hrest hsum (hwithin.next hweight hfull) hbelow hcount hsame h h'

/-- **The loop over the accounts.** At the deepest level both runs remember the same accounts. -/
theorem checkAccounts_follows (hlim : lim.Sized) (hmember : MemberFollows lim member member')
    {accounts : List (AccountName × Nat)} :
    (∀ p ∈ accounts, p.2 < 2 ^ 16) → RestFollows lim threshold member member' accounts := by
  induction accounts with
  | nil =>
    intro _ total total' membership count count' s s' out out' htotal _ _ hcount _ h h'
    cases h
    cases h'
    exact ⟨fun hreach => decide_eq_true ((of_decide_eq_true hreach).trans htotal), hcount⟩
  | cons p rest ih =>
    obtain ⟨a, weight⟩ := p
    intro hweights total total' membership count count' s s' out out' htotal hwithin hbelow hcount hsame
      h h'
    obtain ⟨hweight, hrest⟩ := forall_mem_cons.mp hweights
    rw [checkAccounts_cons] at h h'
    by_cases ha : a ∈ s.approvedBy
    · rw [if_pos ha] at h
      rw [if_pos (hbelow.approvedBy ha)] at h'
      exact endRound_follows hlim hmember (ih hrest) hweight htotal hwithin id hcount hbelow hsame h h'
    rw [if_neg ha] at h
    have hpair := hmember
    cases hmember with
    | none =>
      rw [if_neg fun ha' => ha (hsame rfl ha')] at h'
      exact ih hrest htotal hwithin hbelow hcount hsame h h'
    | @some check check' hgrows hforget hgrows' hfollows =>
      dsimp only at h
      by_cases hstop : 0 < lim.maxAccountAuths ∧ lim.maxAccountAuths ≤ count
      · -- the first run has come to the limit on accounts
        rw [if_pos hstop] at h
        cases h
        rw [← checkAccounts_cons] at h'
        have hbound : Grows lim count' s' out'.2.1 out'.2.2 :=
          checkAccounts_grows (fun _ h => Option.some.inj h ▸ hgrows') hbelow.available' h'
        refine ⟨fun h => absurd h Bool.false_ne_true, ?_⟩
        have := hbound.bound hlim.accounts
        dsimp only
        omega
      rw [if_neg hstop] at h
      obtain ⟨⟨b, count₁, s₁⟩, hcheck, h⟩ := bind_eq_ok.mp h
      have hgrows₁ := (hgrows hbelow.available hcheck).counted hstop
      have hsame₁ : s₁.approvedBy = s.approvedBy := hforget hcheck
      by_cases ha' : a ∈ s'.approvedBy
      · -- only the second run remembers the account
        rw [if_pos ha'] at h'
        have hsecond : Grows lim 0 s' 0 s' := .refl hbelow.available'
        exact endRound_follows hlim hpair (ih hrest) hweight htotal hwithin (fun _ => rfl)
          (hcount.trans hgrows₁.le)
          ((hbelow.grow hgrows₁ hsame₁ hsecond).remember fun _ => ha') (fun h => absurd h (by simp)) h h'
      · rw [if_neg ha'] at h'
        dsimp only at h'
        have hroom' : ¬ (0 < lim.maxAccountAuths ∧ lim.maxAccountAuths ≤ count') := by
          rintro ⟨hpos, hle⟩
          exact hstop ⟨hpos, hle.trans hcount⟩
        rw [if_neg hroom'] at h'
        obtain ⟨⟨b', count₁', s₁'⟩, hcheck', h'⟩ := bind_eq_ok.mp h'
        have hgrows₁' := ((hgrows' hbelow.available' hcheck').counted hroom').remember b' a
        have hboth := hfollows hbelow (Nat.succ_le_succ hcount) hcheck hcheck'
        have happroved : b = true → a ∈ (s₁'.remember b' a).approvedBy := by
          intro hb
          rw [show b' = true from hboth.answer hb]
          exact mem_cons_self
        exact endRound_follows hlim hpair (ih hrest) hweight htotal hwithin hboth.answer hboth.counted
          ((hbelow.grow hgrows₁ hsame₁ hgrows₁').remember happroved) (fun h => absurd h (by simp)) h h'

-- # The recursion

variable {auth : Authority} {out out' : Bool × Nat × SignState}

theorem checkWith_follows (hlim : lim.Sized) (hmember : MemberFollows lim member member')
    (hfit : WeightsFit auth) (hbelow : Below s s') (hcount : count' ≤ count)
    (hsame : member = none → s'.approvedBy ⊆ s.approvedBy)
    (h : checkWith lim member auth count s = .ok out)
    (h' : checkWith lim member' auth count' s' = .ok out') : Follows out out' := by
  have hend : KeysEnd.Follows lim (keysOf lim auth s).1 (keysOf lim auth s').1 :=
    checkKeys_follows hlim hfit.keys (Nat.le_refl 0) ⟨hlim.pos, Nat.zero_le _⟩ hbelow.available
      hbelow.available' hbelow.keys
  obtain ⟨hs₁, hsame₁⟩ := keysOf_grows lim auth count hbelow.available
  obtain ⟨hs₁', hsame₁'⟩ := keysOf_grows lim auth count' hbelow.available'
  rw [checkWith_eq] at h h'
  have hgrows := afterKeys_grows hmember.grows hs₁.available h
  generalize keysOf lim auth s = keys at *
  generalize keysOf lim auth s' = keys' at *
  obtain ⟨e, s₁⟩ := keys
  obtain ⟨e', s₁'⟩ := keys'
  cases hend with
  | reached e =>
    cases h'
    exact ⟨fun _ => rfl, hcount.trans hgrows.le⟩
  | full =>
    cases h
    cases h'
    exact ⟨id, hcount⟩
  | counted htotal hwithin =>
    have hsame' : member = none → s₁'.approvedBy ⊆ s₁.approvedBy := by
      rw [hsame₁, hsame₁']
      exact hsame
    exact checkAccounts_follows hlim hmember hfit.accounts htotal hwithin
      (hbelow.grow hs₁ hsame₁ hs₁') hcount hsame' h h'

/-- At the deepest level the check returns, and the count stays. -/
theorem checkWith_none (lim : Limits) (auth : Authority) (count : Nat) (s : SignState) :
    ∃ result s', checkWith lim none auth count s = .ok (result, count, s') := by
  have haccounts : ∀ (accounts : List (AccountName × Nat)) (total membership : Nat) (s : SignState),
      ∃ result s', checkAccounts lim auth.weightThreshold none accounts total membership count s =
        .ok (result, count, s') := by
    intro accounts
    induction accounts with
    | nil => exact fun total membership s => ⟨_, _, rfl⟩
    | cons p rest ih =>
      intro total membership s
      rw [checkAccounts_cons]
      split
      · unfold endRound
        split_ifs
        · exact ⟨_, _, rfl⟩
        · exact ⟨_, _, rfl⟩
        · exact ih _ _ _
      · exact ih _ _ _
  rw [checkWith_eq]
  generalize keysOf lim auth s = keys
  obtain ⟨e, s₁⟩ := keys
  cases e with
  | returned result => exact ⟨result, s₁, rfl⟩
  | counted total membership => exact haccounts _ _ _ _

/-- **The deepest level.** The second run may remember more accounts, and still says yes if nobody is
crowded out. -/
theorem checkWith_none_follows (hlim : lim.Sized) (hfit : WeightsFit auth) (hbelow : Below s s')
    (hcount : count' ≤ count) (hcrowd : ¬ crowdedOut lim none auth count' s' = true)
    (h : checkWith lim none auth count s = .ok out)
    (h' : checkWith lim none auth count' s' = .ok out') : Follows out out' := by
  obtain ⟨result, s₁, hrun⟩ := checkWith_none lim auth count s
  obtain ⟨result', s₁', hrun'⟩ := checkWith_none lim auth count' s'
  cases hrun.symm.trans h
  cases hrun'.symm.trans h'
  refine ⟨fun hyes => ?_, hcount⟩
  by_contra hno
  -- with only the accounts of the first run the answer would be yes
  let known := s'.approvedBy.filter (· ∈ s.approvedBy)
  have hmem : ∀ {a}, a ∈ known ↔ a ∈ s.approvedBy := by
    intro a
    simp only [known, mem_filter, decide_eq_true_eq, and_iff_right_iff_imp]
    exact fun ha => hbelow.approvedBy ha
  have hknown : Below s { s' with approvedBy := known } :=
    ⟨hbelow.available, hbelow.available', hbelow.keys, fun a ha => hmem.mpr ha, hbelow.temp⟩
  obtain ⟨result'', s₁'', hrun''⟩ := checkWith_none lim auth count' { s' with approvedBy := known }
  have hsame := checkWith_follows hlim .none hfit hknown hcount (fun _ a ha => hmem.mp ha) h hrun''
  refine hcrowd ?_
  simp only [crowdedOut, Option.isNone_none, Bool.true_and, Bool.and_eq_true, any_eq_true,
    decide_eq_true_eq, mem_sublists]
  refine ⟨?_, known, filter_sublist, hmem.mpr hbelow.temp, ?_⟩
  · rw [hrun', show result' = false from Bool.eq_false_of_not_eq_true hno]
    rfl
  · rw [hrun'', show result'' = true from hsame.answer hyes]
    rfl

/-- **Two runs**: the check that forgets, and the check with more keys, if in it nobody is crowded
out. -/
theorem checkWatched_follows (hlim : lim.Sized) {getMember : Getter} {msg : String}
    (hfits : ∀ a auth, getMember a = .ok auth → WeightsFit auth) {levels : Nat} :
    ∀ {auth : Authority} {count count' : Nat} {s s' : SignState} {out out' : Bool × Nat × SignState},
      WeightsFit auth → Below s s' → count' ≤ count →
      checkAfresh lim getMember levels auth count s = .ok out →
      checkWatched (crowdedOut lim) msg lim getMember levels auth count' s' = .ok out' →
      Follows out out' := by
  induction levels with
  | zero =>
    intro auth count count' s s' out out' hfit hbelow hcount h h'
    unfold checkWatched at h'
    split at h'
    · cases h'
    · exact checkWith_none_follows hlim hfit hbelow hcount ‹_› h h'
  | succ levels ih =>
    intro auth count count' s s' out out' hfit hbelow hcount h h'
    unfold checkWatched at h'
    dsimp only at h'
    split at h'
    · cases h'
    have hwatched : CheckGrows lim (checkWatched (crowdedOut lim) msg lim getMember levels) :=
      fun _ _ _ _ _ _ hs hrun =>
        checkAuthorityImpl_grows levels hs ((checkWatched_agree _ _ _ _).le _ hrun)
    refine checkWith_follows hlim (.some ((checkAfresh_grows levels).through getMember).forgetting ?_
      (hwatched.through getMember) ?_) hfit hbelow hcount (fun h => by cases h) h h'
    · rintro a count s ⟨approved, count', s'⟩ h
      obtain ⟨s₁, -, rfl⟩ := forgetting_eq_ok.mp h
      rfl
    · rintro a count count' s s' ⟨approved, count₁, s₁⟩ out' hbelow hcount h h'
      obtain ⟨s₂, hrun, rfl⟩ := forgetting_eq_ok.mp h
      obtain ⟨auth, hget, hrun⟩ := bind_eq_ok.mp hrun
      rw [hget, ok_bind] at h'
      have hboth := ih (hfits a auth hget) hbelow hcount hrun h'
      exact ⟨hboth.answer, hboth.counted⟩

end

-- # One more key

/-- `check_authority` of an account succeeds on a fresh `sign_state` with these keys. -/
def Suffice (lim : Limits) (getMember : Getter) (id : AccountName) (sigs : List PublicKey) : Prop :=
  ∃ s, checkAccount lim getMember id (SignState.init sigs []) = .ok (true, s)

/-- So it does if it forgets, when the check of a member account ends, what was approved in it. -/
def SufficeAfresh (lim : Limits) (getMember : Getter) (id : AccountName) (sigs : List PublicKey) :
    Prop :=
  ∃ s, accountBy (checkAfresh lim getMember lim.maxRecursion) getMember id (SignState.init sigs []) =
    .ok (true, s)

/-- The check of the account asks for no account the table does not have, and comes to no authority
at the deepest level where a member is crowded out. -/
def Uncrowded (lim : Limits) (getMember : Getter) (id : AccountName) (sigs : List PublicKey) : Prop :=
  ∃ r, accountBy (checkWatched (crowdedOut lim) "crowded out" lim getMember lim.maxRecursion) getMember
    id (SignState.init sigs []) = .ok r

instance {x : Checked (Bool × SignState)} : Decidable (∃ s, x = .ok (true, s)) :=
  match x with
  | .ok (true, s) => .isTrue ⟨s, rfl⟩
  | .ok (false, _) => .isFalse (by simp)
  | .error _ => .isFalse (by simp)

theorem Below.init {sigs sigs' : List PublicKey} (hsub : sigs ⊆ sigs') :
    Below (SignState.init sigs []) (SignState.init sigs' []) :=
  ⟨rfl, rfl, by simpa [SignState.keys, SignState.init, Function.comp_def] using hsub, Subset.refl _,
    mem_cons_self⟩

theorem authoritiesOf_fit {entries : List (AccountName × Authority)}
    (h : ∀ e ∈ entries, WeightsFit e.2) (a : AccountName) (auth : Authority)
    (hget : authoritiesOf entries a = .ok auth) : WeightsFit auth :=
  h _ (mem_of_authoritiesOf hget)

instance (auth : Authority) : Decidable (WeightsFit auth) :=
  decidable_of_iff ((∀ p ∈ auth.keyAuths, p.2 < 2 ^ 16) ∧ ∀ p ∈ auth.accountAuths, p.2 < 2 ^ 16)
    ⟨fun h => ⟨h.1, h.2⟩, fun h => ⟨h.keys, h.accounts⟩⟩

/-- A table in which `xena` stands behind `bob`, who also has a key, and, one level deeper, behind
`carol`. -/
def deepAuthorities : List (AccountName × Authority) :=
  [("alice", ⟨2, [("bob", 1), ("carol", 1)], []⟩),
   ("bob", ⟨1, [("xena", 1)], [("kb", 1)]⟩),
   ("carol", ⟨1, [("dave", 1)], [("kc", 1)]⟩),
   ("dave", ⟨1, [("xena", 1)], []⟩),
   ("xena", ⟨1, [], [("kx", 1)]⟩)]

end DeltaChain.Signing

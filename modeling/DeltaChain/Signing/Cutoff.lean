import DeltaChain.Signing.Watch

/-!
# The cut-off at the limit on members

The loops of the signature check stop after `max_membership` members, with the answer no. For an
authority with at most that many members the cut-off can only come after the last of them, and
then the answer is no anyway, unless the authority is open: its threshold is zero, and none of its
members has counted (`checkWith_cutoff`). Where the check comes to no such authority, the limit
changes nothing (`membership_limit_unnoticed`).
-/

namespace DeltaChain.Signing

open Lib Protocol Checked List

/-- The same limits, without one on members. -/
def Limits.withoutMembership (lim : Limits) : Limits := { lim with maxMembership := 0 }

@[simp] theorem Limits.withoutMembership_full (lim : Limits) (n : Nat) :
    lim.withoutMembership.full n = false := by
  simp [Limits.withoutMembership, Limits.full]

/-- The answer of a check that returns. -/
def answer (run : Outcome) : Option Bool := run.toOption.map Prod.fst

/-- An authority that needs no signature is turned down at its last member: the answer is no, and
without the limit on members it would be yes. -/
def turnedDown (lim : Limits) (member : Option MemberCheck) (auth : Authority) (count : Nat)
    (s : SignState) : Bool :=
  decide (auth.weightThreshold = 0 ∧ answer (checkWith lim member auth count s) = some false ∧
    answer (checkWith lim.withoutMembership member auth count s) = some true)

/-- How two checks of an authority end, with the limit on members and without: in the same way, or
the threshold is zero and the first one turns down what the second one accepts. -/
def SameUnlessOpen (threshold : Nat) (limited unlimited : Outcome) : Prop :=
  limited = unlimited ∨
    threshold = 0 ∧ ∃ count s, limited = .ok (false, count, s) ∧ unlimited = .ok (true, count, s)

/-- The threshold was not reached by a member. -/
def Unreached (threshold total : Nat) : Prop := total < threshold ∨ threshold = 0

theorem Unreached.next {threshold total weight : Nat} {counts : Bool} (h : Unreached threshold total)
    (hreach : ¬ (counts = true ∧ threshold ≤ addWeight counts total weight)) :
    Unreached threshold (addWeight counts total weight) := by
  cases counts with
  | false => exact h
  | true => exact .inl (by simpa using hreach)

theorem Limits.full_of_lt {lim : Limits} {n : Nat} (h : n < lim.maxMembership) :
    lim.full n = false := by
  simp only [Limits.full, decide_eq_false_iff_not]
  omega

/-- The last line of the check, where the loop was cut off. -/
theorem sameUnlessOpen_cut {threshold total count : Nat} {s : SignState} (h : Unreached threshold total) :
    SameUnlessOpen threshold (.ok (false, count, s)) (.ok (decide (threshold ≤ total), count, s)) := by
  by_cases hreach : threshold ≤ total
  · rw [decide_eq_true hreach]
    exact .inr ⟨h.resolve_left (Nat.not_lt.mpr hreach), count, s, rfl, rfl⟩
  · exact .inl (by rw [decide_eq_false hreach])

section
variable {lim : Limits} {threshold : Nat} {member : Option MemberCheck}

/-- The end of a round: the cut-off comes after the last member only. -/
theorem endRound_cutoff {rest : List (AccountName × Nat)} {total membership weight : Nat}
    (hsize : membership + 1 + rest.length ≤ lim.maxMembership) (htotal : Unreached threshold total)
    (hrest : ∀ {total count s}, Unreached threshold total →
      SameUnlessOpen threshold (checkAccounts lim threshold member rest total (membership + 1) count s)
        (checkAccounts lim.withoutMembership threshold member rest total (membership + 1) count s))
    (counts : Bool) (count : Nat) (s : SignState) :
    SameUnlessOpen threshold
      (endRound lim threshold (checkAccounts lim threshold member rest) counts weight total
        membership count s)
      (endRound lim.withoutMembership threshold
        (checkAccounts lim.withoutMembership threshold member rest) counts weight total membership
        count s) := by
  unfold endRound
  rw [Limits.withoutMembership_full, if_neg Bool.false_ne_true]
  by_cases hreach : counts = true ∧ threshold ≤ addWeight counts total weight
  · rw [if_pos hreach, if_pos hreach]
    exact .inl rfl
  rw [if_neg hreach, if_neg hreach]
  by_cases hfull : membership + 1 < lim.maxMembership
  · rw [Limits.full_of_lt hfull, if_neg Bool.false_ne_true]
    exact hrest (htotal.next hreach)
  · obtain rfl : rest = [] := eq_nil_of_length_eq_zero (by omega)
    split
    · exact sameUnlessOpen_cut (htotal.next hreach)
    · exact .inl rfl

/-- **The loop over the accounts**, with the limit and without. -/
theorem checkAccounts_cutoff :
    ∀ {accounts : List (AccountName × Nat)} {total membership count : Nat} {s : SignState},
      membership + accounts.length ≤ lim.maxMembership → Unreached threshold total →
      SameUnlessOpen threshold (checkAccounts lim threshold member accounts total membership count s)
        (checkAccounts lim.withoutMembership threshold member accounts total membership count s) := by
  intro accounts
  induction accounts with
  | nil => exact fun _ _ => .inl rfl
  | cons p rest ih =>
    obtain ⟨a, weight⟩ := p
    intro total membership count s hsize htotal
    rw [length_cons] at hsize
    have hround := @endRound_cutoff lim threshold member rest total membership weight (by omega) htotal
      (ih (by omega))
    rw [checkAccounts_cons, checkAccounts_cons]
    by_cases ha : a ∈ s.approvedBy
    · rw [if_pos ha, if_pos ha]
      exact hround true count s
    rw [if_neg ha, if_neg ha]
    cases member with
    | none => exact ih (by omega) htotal
    | some check =>
      dsimp only
      rw [show lim.withoutMembership.maxAccountAuths = lim.maxAccountAuths from rfl]
      by_cases hmany : 0 < lim.maxAccountAuths ∧ lim.maxAccountAuths ≤ count
      · rw [if_pos hmany, if_pos hmany]
        exact .inl rfl
      rw [if_neg hmany, if_neg hmany]
      cases hcheck : check a (count + 1) s with
      | error msg => exact .inl rfl
      | ok r => exact hround r.1 r.2.1 _

/-- How the loop over the keys ends with and without the limit: the same way, or it is cut off
after the last member. -/
theorem checkKeys_cutoff {accounts : Nat} :
    ∀ {keys : List (PublicKey × Nat)} {total membership : Nat} {s : SignState},
      membership + keys.length + accounts ≤ lim.maxMembership → Unreached threshold total →
      (checkKeys lim threshold keys total membership s =
          checkKeys lim.withoutMembership threshold keys total membership s ∧
        ∀ total' membership' s', checkKeys lim threshold keys total membership s =
          (.counted total' membership', s') →
            membership' + accounts ≤ lim.maxMembership ∧ Unreached threshold total') ∨
      ∃ total' membership' s', checkKeys lim threshold keys total membership s = (.returned false, s') ∧
        checkKeys lim.withoutMembership threshold keys total membership s =
          (.counted total' membership', s') ∧ Unreached threshold total' ∧ accounts = 0 := by
  intro keys
  induction keys with
  | nil =>
    intro total membership s hsize htotal
    refine .inl ⟨rfl, ?_⟩
    intro total' membership' s' h
    obtain ⟨⟨rfl, rfl⟩, rfl⟩ := h
    exact ⟨hsize, htotal⟩
  | cons p rest ih =>
    obtain ⟨k, weight⟩ := p
    intro total membership s hsize htotal
    rw [length_cons] at hsize
    unfold checkKeys
    obtain ⟨⟨signed, s₁⟩, hsigned⟩ : ∃ r, s.signedBy k = r := ⟨_, rfl⟩
    simp only [hsigned, Limits.withoutMembership_full, if_neg Bool.false_ne_true]
    split
    case isTrue => exact .inl ⟨rfl, fun _ _ _ h => by simp at h⟩
    case isFalse hreach =>
      by_cases hfull : membership + 1 < lim.maxMembership
      · rw [Limits.full_of_lt hfull, if_neg Bool.false_ne_true]
        exact ih (by omega) (htotal.next hreach)
      · obtain rfl : rest = [] := eq_nil_of_length_eq_zero (by omega)
        have hcut : lim.full (membership + 1) = true := by
          simp only [Limits.full, decide_eq_true_eq]
          omega
        rw [hcut, if_pos rfl]
        exact .inr ⟨_, _, s₁, rfl, rfl, htotal.next hreach, by omega⟩

/-- **The cut-off does not matter** for an authority within the limit, unless it is open and turned
down. -/
theorem checkWith_cutoff {auth : Authority} {count : Nat} {s : SignState}
    (hsize : auth.numAuths ≤ lim.maxMembership) :
    SameUnlessOpen auth.weightThreshold (checkWith lim member auth count s)
      (checkWith lim.withoutMembership member auth count s) := by
  have hnum : auth.numAuths = auth.accountAuths.length + auth.keyAuths.length := rfl
  have hstart : Unreached auth.weightThreshold 0 := by
    unfold Unreached
    omega
  unfold checkWith
  rcases checkKeys_cutoff (s := { s with examined := auth :: s.examined })
    (show 0 + auth.keyAuths.length + auth.accountAuths.length ≤ lim.maxMembership by omega) hstart with
    ⟨hsame, hcounted⟩ | ⟨total, membership, s', hcut, hfull, hless, hnone⟩
  · rw [← hsame]
    split
    case h_1 => exact .inl rfl
    case h_2 total membership s' hkeys =>
      obtain ⟨hrest, htotal⟩ := hcounted total membership s' hkeys
      exact checkAccounts_cutoff hrest htotal
  · rw [hcut, hfull, eq_nil_of_length_eq_zero hnone]
    exact sameUnlessOpen_cut hless

theorem checkWith_eq_of_not_turnedDown {auth : Authority} {count : Nat} {s : SignState}
    (hsize : auth.numAuths ≤ lim.maxMembership) (h : ¬ turnedDown lim member auth count s = true) :
    checkWith lim.withoutMembership member auth count s = checkWith lim member auth count s := by
  have hcutoff : SameUnlessOpen _ (checkWith lim member auth count s) _ := checkWith_cutoff hsize
  rcases hcutoff with hsame | ⟨hopen, count', s', hno, hyes⟩
  · exact hsame.symm
  · refine absurd (decide_eq_true ⟨hopen, ?_, ?_⟩) h
    · rw [hno]
      rfl
    · rw [hyes]
      rfl

end

section
variable {lim : Limits} {getMember : Getter} {msg : String}

/-- The check without the limit on members, where the check comes to no open authority that is
turned down. -/
theorem checkWatched_cutoff
    (hsize : ∀ a auth, getMember a = .ok auth → auth.numAuths ≤ lim.maxMembership) :
    ∀ {levels : Nat} {auth : Authority} {count : Nat} {s : SignState},
      auth.numAuths ≤ lim.maxMembership →
      AgreeUnless msg (checkWatched (turnedDown lim) msg lim getMember levels auth count s)
        (checkAuthorityImpl lim.withoutMembership getMember levels auth count s) := by
  intro levels
  induction levels with
  | zero =>
    intro auth count s hauth h
    unfold checkWatched at h ⊢
    split at h
    · exact absurd rfl h
    · rw [if_neg ‹_›]
      exact checkWith_eq_of_not_turnedDown hauth ‹_›
  | succ levels ih =>
    intro auth count s hauth h
    unfold checkWatched at h ⊢
    dsimp only at h ⊢
    split at h
    · exact absurd rfl h
    case isFalse hnot =>
      rw [if_neg hnot]
      rw [← checkWith_eq_of_not_turnedDown hauth hnot] at h ⊢
      refine checkWith_agree (fun a count s => ?_) _ _ _ h
      cases hget : getMember a with
      | error e => exact .refl _ _
      | ok auth => exact ih (hsize a auth hget)

/-- **The limit on members changes nothing**, neither the answer nor the keys marked as used, if
every authority of the table is within it and the check of the account comes to no authority that
needs no signature and is turned down at its last member. -/
theorem membership_limit_unnoticed
    (hsize : ∀ a auth, getMember a = .ok auth → auth.numAuths ≤ lim.maxMembership) {id : AccountName}
    {s : SignState}
    (hnot : Avoids msg (accountBy (checkWatched (turnedDown lim) msg lim getMember lim.maxRecursion)
      getMember id s)) :
    checkAccount lim getMember id s = checkAccount lim.withoutMembership getMember id s := by
  unfold checkAccount
  unfold accountBy at hnot ⊢
  split at hnot
  case isTrue h => rw [if_pos h, if_pos h]
  case isFalse h =>
    rw [if_neg h, if_neg h]
    cases hget : getMember id with
    | error e => rfl
    | ok auth =>
      rw [hget, ok_bind, Avoids.bind_iff] at hnot
      rw [ok_bind, ok_bind, checkWatched_agree _ _ _ _ hnot.1]
      exact congrArg (· >>= _) (checkWatched_cutoff hsize (hsize id auth hget) hnot.1).symm

end

/-- `carol` and `zed` need no signature and have two members each; `temp` counts for `carol`, and
nobody asks for `zed`. -/
def openAuthorities : List (AccountName × Authority) :=
  [("alice", ⟨2, [("bob", 1), ("carol", 1)], []⟩),
   ("bob", ⟨1, [], [("ka", 1), ("kb", 1)]⟩),
   ("carol", ⟨0, [("temp", 1)], [("kc", 1)]⟩),
   ("zed", ⟨0, [], [("ky", 1), ("kz", 1)]⟩)]

theorem mem_of_authoritiesOf {entries : List (AccountName × Authority)} {a : AccountName}
    {auth : Authority} (hget : authoritiesOf entries a = .ok auth) : (a, auth) ∈ entries := by
  obtain ⟨before, after, rfl, -⟩ := lookup_eq_some_iff.mp (get_eq_ok.mp hget)
  simp

theorem membership_limit_two_members :
    (checkAccount { maxMembership := 2 } (authoritiesOf openAuthorities) "alice"
        (.init ["kb"] [])).map Prod.fst = .ok true ∧
      checkAccount { maxMembership := 2 } (authoritiesOf openAuthorities) "alice" (.init ["kb"] []) =
        checkAccount (Limits.withoutMembership { maxMembership := 2 }) (authoritiesOf openAuthorities)
          "alice" (.init ["kb"] []) := by
  have hsize : ∀ e ∈ openAuthorities, e.2.numAuths ≤ 2 := by decide
  refine ⟨by decide +kernel, @membership_limit_unnoticed _ _ "turned down"
    (fun a auth hget => hsize _ (mem_of_authoritiesOf hget)) _ _ ?_⟩
  unfold Avoids
  decide +kernel

/-- `zed` asks for a signature: the limit is reached at the second key. -/
theorem membership_limit_noticed :
    (checkAccount { maxMembership := 2 } (authoritiesOf openAuthorities) "zed"
        (.init [] [])).map Prod.fst = .ok false ∧
      (checkAccount (Limits.withoutMembership { maxMembership := 2 }) (authoritiesOf openAuthorities)
        "zed" (.init [] [])).map Prod.fst = .ok true := by
  decide +kernel

end DeltaChain.Signing

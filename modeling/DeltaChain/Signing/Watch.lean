import DeltaChain.Signing.SignState

/-!
# Watching the signature check

What looking for a signature does (`signedBy_spec`), the rounds of the loop over the member accounts
(`checkAccounts_cons`), and the check that watches itself: `checkWatched` is `check_authority_impl`, but it stops at an authority where something is
seen. Where it does not stop, it is the check (`checkWatched_agree`). So a condition on the
authorities that are looked at is a condition on how `checkWatched` ends.
-/

namespace DeltaChain.Signing

open Lib Protocol Checked List

namespace SignState

/-- The keys of the signatures. -/
def keys (s : SignState) : List PublicKey := s.providedSignatures.map Prod.fst

/-- At most the signature of `k` is marked as used. -/
structure Marked (k : PublicKey) (s s' : SignState) : Prop where
  available : s'.availableKeys = s.availableKeys
  keys : s'.keys = s.keys
  approvedBy : s'.approvedBy = s.approvedBy
  examined : s'.examined = s.examined
  used : ∀ k', (k', true) ∈ s'.providedSignatures → (k', true) ∈ s.providedSignatures ∨ k' = k

/-- A signature that is looked for counts if there is one. -/
theorem signedBy_spec {s : SignState} (h : s.availableKeys = []) (k : PublicKey) :
    ∃ s', s.signedBy k = (decide (k ∈ s.keys), s') ∧ Marked k s s' := by
  unfold signedBy
  by_cases hk : k ∈ s.providedSignatures.map Prod.fst
  · rw [if_pos hk, decide_eq_true (show k ∈ s.keys from hk)]
    refine ⟨_, rfl, rfl, ?_, rfl, rfl, fun k' hk' => ?_⟩
    · -- marking a key leaves the keys themselves alone
      simp only [keys, map_map]
      refine map_congr_left fun p _ => ?_
      show (if p.1 = k then (k, true) else p).1 = p.1
      split
      · exact Eq.symm ‹p.1 = k›
      · rfl
    · obtain ⟨p, hp, hpk⟩ := mem_map.mp hk'
      split at hpk
      · exact .inr (congrArg Prod.fst hpk).symm
      · exact .inl (hpk ▸ hp)
  · rw [if_neg hk, if_neg (h ▸ not_mem_nil), decide_eq_false (show k ∉ s.keys from hk)]
    exact ⟨s, rfl, rfl, rfl, rfl, rfl, fun _ => .inl⟩

end SignState

theorem addWeight_le (counts : Bool) (total weight : Nat) :
    addWeight counts total weight ≤ total + if counts then weight else 0 := by
  unfold addWeight
  split
  · exact Nat.mod_le _ _
  · exact Nat.le_refl _

/-- The end of a round of the loop over the accounts, once it is known whether the member counts. -/
def endRound (lim : Limits) (threshold : Nat) (next : Nat → Nat → Nat → SignState → Outcome)
    (counts : Bool) (weight total membership count : Nat) (s : SignState) : Outcome :=
  if counts ∧ threshold ≤ addWeight counts total weight then .ok (true, count, s)
  else if lim.full (membership + 1) then .ok (false, count, s)
  else next (addWeight counts total weight) (membership + 1) count s

/-- An approved account is remembered. -/
def SignState.remember (approved : Bool) (a : AccountName) (s : SignState) : SignState :=
  if approved then { s with approvedBy := a :: s.approvedBy } else s

section
variable {lim : Limits} {threshold : Nat} {member : Option MemberCheck}

/-- One round of the loop over the accounts. -/
theorem checkAccounts_cons {a : AccountName} {weight : Nat} {rest : List (AccountName × Nat)}
    {total membership count : Nat} {s : SignState} :
    checkAccounts lim threshold member ((a, weight) :: rest) total membership count s =
      if a ∈ s.approvedBy then
        endRound lim threshold (checkAccounts lim threshold member rest) true weight total membership
          count s
      else match member with
        | none => checkAccounts lim threshold none rest total membership count s
        | some check =>
          if 0 < lim.maxAccountAuths ∧ lim.maxAccountAuths ≤ count then .ok (false, count, s)
          else check a (count + 1) s >>= fun r =>
            endRound lim threshold (checkAccounts lim threshold (some check) rest) r.1 weight total
              membership r.2.1 (r.2.2.remember r.1 a) := by
  refine if_congr Iff.rfl ?_ (by cases member <;> rfl)
  unfold endRound
  simp only [true_and]

end

/-- `check_authority_impl`, but it stops with the message at an authority where `sight` sees
something: it is given the check of the member accounts, of which there is none at the deepest
level, the authority, the count and the state. -/
def checkWatched (sight : Option MemberCheck → Authority → Nat → SignState → Bool) (msg : String)
    (lim : Limits) (getMember : Getter) : Nat → Authority → Nat → SignState → Outcome
  | 0, auth, count, s =>
    if sight none auth count s then .error msg else checkWith lim none auth count s
  | levels + 1, auth, count, s =>
    let member := fun a count s => do
      let auth ← getMember a
      checkWatched sight msg lim getMember levels auth count s
    if sight (some member) auth count s then .error msg
    else checkWith lim (some member) auth count s

section
variable {lim : Limits} {threshold : Nat} {msg : String} {check check' : MemberCheck}

theorem endRound_agree {next next' : Nat → Nat → Nat → SignState → Outcome}
    (hnext : ∀ total membership count s,
      AgreeUnless msg (next total membership count s) (next' total membership count s))
    (counts : Bool) (weight total membership count : Nat) (s : SignState) :
    AgreeUnless msg (endRound lim threshold next counts weight total membership count s)
      (endRound lim threshold next' counts weight total membership count s) :=
  .ite (.refl _ _) (.ite (.refl _ _) (hnext _ _ _ _))

/-- The loop over the accounts, with two checks of a member account that agree. -/
theorem checkAccounts_agree
    (hcheck : ∀ a count s, AgreeUnless msg (check a count s) (check' a count s))
    (accounts : List (AccountName × Nat)) : ∀ (total membership count : Nat) (s : SignState),
      AgreeUnless msg (checkAccounts lim threshold (some check) accounts total membership count s)
        (checkAccounts lim threshold (some check') accounts total membership count s) := by
  induction accounts with
  | nil => exact fun _ _ _ _ => .refl _ _
  | cons p rest ih =>
    obtain ⟨a, weight⟩ := p
    intro total membership count s
    simp only [checkAccounts_cons]
    refine .ite (endRound_agree ih _ _ _ _ _ _) (.ite (.refl _ _) ?_)
    exact (hcheck a (count + 1) s).bind fun r => endRound_agree ih _ _ _ _ _ _

theorem checkWith_agree (hcheck : ∀ a count s, AgreeUnless msg (check a count s) (check' a count s))
    (auth : Authority) (count : Nat) (s : SignState) :
    AgreeUnless msg (checkWith lim (some check) auth count s)
      (checkWith lim (some check') auth count s) := by
  unfold checkWith
  split
  · exact .refl _ _
  · exact checkAccounts_agree hcheck _ _ _ _ _

/-- **The check that watches itself** is the check, unless it stops. -/
theorem checkWatched_agree
    {sight : Option MemberCheck → Authority → Nat → SignState → Bool}
    {getMember : Getter} (levels : Nat) : ∀ (auth : Authority) (count : Nat) (s : SignState),
      AgreeUnless msg (checkWatched sight msg lim getMember levels auth count s)
        (checkAuthorityImpl lim getMember levels auth count s) := by
  induction levels with
  | zero =>
    intro auth count s h
    unfold checkWatched at h ⊢
    split at h
    · exact absurd rfl h
    · rw [if_neg ‹_›]
      rfl
  | succ levels ih =>
    intro auth count s h
    unfold checkWatched at h ⊢
    dsimp only at h ⊢
    split at h
    · exact absurd rfl h
    · rw [if_neg ‹_›]
      exact checkWith_agree (fun a count s => .bind (.refl _ _) fun auth => ih auth count s) _ _ _ h

end

end DeltaChain.Signing

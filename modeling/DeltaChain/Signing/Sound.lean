import DeltaChain.Signing.Watch

/-!
# Soundness of the signature check

`Satisfied` says, without depth, counts or cache, when the signing keys satisfy an authority.
The invariant `Sound` of the check says that the cache of approved accounts holds only accounts
whose own authority is satisfied, and that a signature is marked as used only for an authority
that was examined. Every loop keeps it (`checkKeys_spec`, `checkAccounts_spec`), so does the
recursion (`checkAuthorityImpl_spec`), and `verifyAuthority` inherits it.
-/

namespace DeltaChain.Signing

open Lib Protocol Checked List

-- # When an authority is satisfied

/-- The weight of the keys that have signed. -/
def keyWeight (sigs : List PublicKey) (keys : List (PublicKey × Nat)) : Nat :=
  ((keys.filter (·.1 ∈ sigs)).map Prod.snd).sum

/-- The weight of a list of members. -/
def memberWeight (members : List (AccountName × Nat)) : Nat := (members.map Prod.snd).sum

mutual

/-- The signing keys satisfy an authority: the weights of its keys that have signed and of some
of its member accounts that have signed reach the threshold. -/
inductive Satisfied (sigs : List PublicKey) (getMember : Getter) : Authority → Prop
  | reach {auth : Authority} (members : List (AccountName × Nat))
      (hsub : members.Sublist auth.accountAuths)
      (happroved : ∀ m ∈ members, Approved sigs getMember m.1)
      (hweight : auth.weightThreshold ≤ keyWeight sigs auth.keyAuths + memberWeight members) :
      Satisfied sigs getMember auth

/-- An account that counts as having signed: `temp`, or one whose own authority is satisfied. -/
inductive Approved (sigs : List PublicKey) (getMember : Getter) : AccountName → Prop
  | temp : Approved sigs getMember tempAccount
  | member {a : AccountName} {auth : Authority} (hget : getMember a = .ok auth)
      (hsat : Satisfied sigs getMember auth) : Approved sigs getMember a

end

/-- The authority that `getter` gives for the account is satisfied. -/
def Meets (sigs : List PublicKey) (getMember getter : Getter) (a : AccountName) : Prop :=
  ∃ auth, getter a = .ok auth ∧ Satisfied sigs getMember auth

variable {a : AccountName}

theorem Approved.meets {sigs : List PublicKey} {getMember : Getter} (h : Approved sigs getMember a)
    (ha : a ≠ tempAccount) : Meets sigs getMember getMember a := by
  cases h with
  | temp => exact absurd rfl ha
  | member hget hsat => exact ⟨_, hget, hsat⟩

-- # The invariant of the check

variable {lim : Limits} {sigs : List PublicKey} {getMember : Getter}

/-- The state of the check is sound for the signing keys. -/
structure Sound (sigs : List PublicKey) (getMember : Getter) (s : SignState) : Prop where
  available : s.availableKeys = []
  provided : s.keys = sigs
  cache : ∀ a ∈ s.approvedBy, Approved sigs getMember a
  used : ∀ k, (k, true) ∈ s.providedSignatures → ∃ auth ∈ s.examined, k ∈ auth.keyAuths.map Prod.fst

theorem Sound.init (sigs : List PublicKey) (getMember : Getter) :
    Sound sigs getMember (SignState.init sigs []) where
  available := rfl
  provided := by simp [SignState.keys, SignState.init, Function.comp_def]
  cache a ha := by
    rw [mem_singleton.mp ha]
    exact .temp
  used k hk := by simp [SignState.init] at hk

variable {s : SignState} {rest : List (AccountName × Nat)} {auth : Authority} {s' : SignState}
  {total : Nat}

theorem Sound.examine (h : Sound sigs getMember s) (auth : Authority) :
    Sound sigs getMember { s with examined := auth :: s.examined } where
  available := h.available
  provided := h.provided
  cache := h.cache
  used k hk := by
    obtain ⟨auth', hmem, hkey⟩ := h.used k hk
    exact ⟨auth', mem_cons_of_mem _ hmem, hkey⟩

theorem Sound.approve (h : Sound sigs getMember s) (ha : Approved sigs getMember a) :
    Sound sigs getMember { s with approvedBy := a :: s.approvedBy } where
  available := h.available
  provided := h.provided
  cache b hb := by
    rcases mem_cons.mp hb with rfl | hb
    · exact ha
    · exact h.cache b hb
  used := h.used

/-- A key of an examined authority may be marked as used. -/
theorem Sound.marked {k : PublicKey} (h : Sound sigs getMember s) (hauth : auth ∈ s.examined)
    (hk : k ∈ auth.keyAuths.map Prod.fst) (hmarked : s.Marked k s') : Sound sigs getMember s' where
  available := hmarked.available.trans h.available
  provided := hmarked.keys.trans h.provided
  cache := by
    rw [hmarked.approvedBy]
    exact h.cache
  used k' hk' := by
    rw [hmarked.examined]
    rcases hmarked.used k' hk' with hused | rfl
    · exact h.used k' hused
    · exact ⟨auth, hauth, hk⟩

-- # The loops

/-- The bound that the loop over the keys leaves on the weight it has counted. -/
def KeysEnd.Bounded (threshold bound : Nat) : KeysEnd → Prop
  | .returned result => result = true → threshold ≤ bound
  | .counted total _ => total ≤ bound

variable {threshold : Nat}

theorem KeysEnd.Bounded.mono {b b' : Nat} {e : KeysEnd} (h : e.Bounded threshold b) (hb : b ≤ b') :
    e.Bounded threshold b' := by
  cases e with
  | returned result => exact fun hr => (h hr).trans hb
  | counted total membership => exact le_trans h hb

/-- **The loop over the keys.** It counts at most the weights of the keys that have signed. -/
theorem checkKeys_spec :
    ∀ {keys : List (PublicKey × Nat)} {total membership : Nat} {s s' : SignState} {e : KeysEnd},
      (∀ p ∈ keys, p.1 ∈ auth.keyAuths.map Prod.fst) → auth ∈ s.examined → Sound sigs getMember s →
      checkKeys lim threshold keys total membership s = (e, s') →
      Sound sigs getMember s' ∧ s'.examined = s.examined ∧
        e.Bounded threshold (total + keyWeight sigs keys) := by
  intro keys
  induction keys with
  | nil =>
    intro total membership s s' e _ _ hs h
    cases h
    exact ⟨hs, rfl, Nat.le_add_right _ _⟩
  | cons p rest ih =>
    obtain ⟨k, weight⟩ := p
    intro total membership s s' e hkeys hauth hs h
    obtain ⟨s₁, hsigned, hmarked⟩ := SignState.signedBy_spec hs.available k
    have hs₁ := hs.marked hauth (hkeys _ mem_cons_self) hmarked
    have hex := hmarked.examined
    rw [hs.provided] at hsigned
    simp only [checkKeys, hsigned] at h
    have hbound : addWeight (decide (k ∈ sigs)) total weight + keyWeight sigs rest ≤
        total + keyWeight sigs ((k, weight) :: rest) := by
      have hle := addWeight_le (decide (k ∈ sigs)) total weight
      simp only [decide_eq_true_eq] at hle
      have hcons : keyWeight sigs ((k, weight) :: rest) =
          (if k ∈ sigs then weight else 0) + keyWeight sigs rest := by
        unfold keyWeight
        rw [filter_cons]
        split <;> simp_all
      omega
    split at h
    case isTrue hreach =>
      cases h
      exact ⟨hs₁, hex, fun _ => by omega⟩
    case isFalse =>
      split at h
      case isTrue =>
        cases h
        exact ⟨hs₁, hex, fun hfalse => absurd hfalse (by simp)⟩
      case isFalse =>
        obtain ⟨hs', hex', hend⟩ := ih (fun p hp => hkeys p (mem_cons_of_mem _ hp))
          (hex ▸ hauth) hs₁ h
        exact ⟨hs', hex'.trans hex, hend.mono hbound⟩

/-- What a check of a member account has to do for the loop over the accounts. -/
def MemberSpec (sigs : List PublicKey) (getMember : Getter) (check : MemberCheck) : Prop :=
  ∀ {a count s out}, Sound sigs getMember s → check a count s = .ok out →
    Sound sigs getMember out.2.2 ∧ (out.1 = true → Approved sigs getMember a)

/-- Members of the list that have signed, and with whose weights the total reaches the
threshold. -/
def Reached (sigs : List PublicKey) (getMember : Getter) (threshold total : Nat)
    (accounts : List (AccountName × Nat)) : Prop :=
  ∃ members : List (AccountName × Nat), members.Sublist accounts ∧
    (∀ m ∈ members, Approved sigs getMember m.1) ∧ threshold ≤ total + memberWeight members

theorem Reached.skip {p : AccountName × Nat} (h : Reached sigs getMember threshold total rest) :
    Reached sigs getMember threshold total (p :: rest) := by
  obtain ⟨members, hsub, happroved, hweight⟩ := h
  exact ⟨members, hsub.cons p, happroved, hweight⟩

theorem Reached.count {total weight : Nat} {counts : Bool}
    (ha : counts = true → Approved sigs getMember a)
    (h : Reached sigs getMember threshold (addWeight counts total weight) rest) :
    Reached sigs getMember threshold total ((a, weight) :: rest) := by
  have hle := addWeight_le counts total weight
  cases counts with
  | false => exact h.skip
  | true =>
    obtain ⟨members, hsub, happroved, hweight⟩ := h
    refine ⟨(a, weight) :: members, hsub.cons_cons _, forall_mem_cons.mpr ⟨ha rfl, happroved⟩, ?_⟩
    simp only [memberWeight, map_cons, sum_cons, if_true] at hweight hle ⊢
    omega

theorem Reached.here {accounts : List (AccountName × Nat)} (h : threshold ≤ total) :
    Reached sigs getMember threshold total accounts :=
  ⟨[], nil_sublist _, fun _ hm => absurd hm not_mem_nil, h.trans (Nat.le_add_right _ _)⟩

/-- The end of a round, once it is known whether the member counts. -/
theorem endRound_spec {member : Option MemberCheck} {counts : Bool} {weight membership count : Nat}
    {out : Bool × Nat × SignState}
    (hrest : ∀ {total membership}, checkAccounts lim threshold member rest total membership count s =
      .ok out → Sound sigs getMember out.2.2 ∧
        (out.1 = true → Reached sigs getMember threshold total rest))
    (hs : Sound sigs getMember s) (ha : counts = true → Approved sigs getMember a)
    (h : endRound lim threshold (checkAccounts lim threshold member rest) counts weight total
      membership count s = .ok out) :
    Sound sigs getMember out.2.2 ∧
      (out.1 = true → Reached sigs getMember threshold total ((a, weight) :: rest)) := by
  unfold endRound at h
  split at h
  case isTrue hreach =>
    cases h
    exact ⟨hs, fun _ => .count ha (.here hreach.2)⟩
  case isFalse =>
    split at h
    case isTrue =>
      cases h
      exact ⟨hs, fun hfalse => absurd hfalse (by simp)⟩
    case isFalse =>
      obtain ⟨hs', hreach⟩ := hrest h
      exact ⟨hs', fun hresult => .count ha (hreach hresult)⟩

/-- **The loop over the accounts.** If it says yes, accounts that have signed made the total
reach the threshold. -/
theorem checkAccounts_spec {member : Option MemberCheck}
    (hmember : ∀ check ∈ member, MemberSpec sigs getMember check) {accounts : List (AccountName × Nat)} :
    ∀ {total membership count : Nat} {s : SignState} {out : Bool × Nat × SignState},
      Sound sigs getMember s →
      checkAccounts lim threshold member accounts total membership count s = .ok out →
      Sound sigs getMember out.2.2 ∧
        (out.1 = true → Reached sigs getMember threshold total accounts) := by
  induction accounts with
  | nil =>
    intro total membership count s out hs h
    cases h
    exact ⟨hs, fun hreach => .here (of_decide_eq_true hreach)⟩
  | cons p rest ih =>
    obtain ⟨a, weight⟩ := p
    intro total membership count s out hs h
    rw [checkAccounts_cons] at h
    split at h
    case isTrue happroved => exact endRound_spec (ih hs) hs (fun _ => hs.cache a happroved) h
    case isFalse =>
      cases member with
      | none =>
        obtain ⟨hs', hreach⟩ := ih hs h
        exact ⟨hs', fun hresult => (hreach hresult).skip⟩
      | some check =>
        dsimp only at h
        split at h
        case isTrue =>
          cases h
          exact ⟨hs, fun hfalse => absurd hfalse (by simp)⟩
        case isFalse =>
          obtain ⟨⟨approved, count₁, s₁⟩, hcheck, h⟩ := bind_eq_ok.mp h
          obtain ⟨hs₁, ha⟩ := hmember check rfl hs hcheck
          have hs₂ : Sound sigs getMember (s₁.remember approved a) := by
            cases approved with
            | true => exact hs₁.approve (ha rfl)
            | false => exact hs₁
          exact endRound_spec (ih hs₂) hs₂ ha h

-- # The recursion

theorem checkWith_spec {member : Option MemberCheck}
    (hmember : ∀ check ∈ member, MemberSpec sigs getMember check) {auth : Authority} {count : Nat}
    {out : Bool × Nat × SignState} (hs : Sound sigs getMember s)
    (h : checkWith lim member auth count s = .ok out) :
    Sound sigs getMember out.2.2 ∧ (out.1 = true → Satisfied sigs getMember auth) := by
  unfold checkWith at h
  obtain ⟨⟨e, s₁⟩, hkeys⟩ : ∃ r, checkKeys lim auth.weightThreshold auth.keyAuths 0 0
      { s with examined := auth :: s.examined } = r := ⟨_, rfl⟩
  obtain ⟨hs₁, -, hend⟩ := checkKeys_spec (fun p hp => mem_map_of_mem hp)
    mem_cons_self (hs.examine auth) hkeys
  rw [hkeys] at h
  rw [Nat.zero_add] at hend
  cases e with
  | returned result =>
    cases h
    refine ⟨hs₁, fun hresult => ?_⟩
    -- the keys alone reach the threshold
    exact .reach [] (nil_sublist _) (fun _ hm => absurd hm not_mem_nil)
      ((hend hresult).trans (Nat.le_add_right _ _))
  | counted total membership =>
    obtain ⟨hs', hreach⟩ := checkAccounts_spec hmember hs₁ h
    refine ⟨hs', fun hresult => ?_⟩
    obtain ⟨members, hsub, happroved, hweight⟩ := hreach hresult
    have htotal : total ≤ keyWeight sigs auth.keyAuths := hend
    exact .reach members hsub happroved (by omega)

/-- **The check of an authority**, at any depth: if it says yes, the authority is satisfied. -/
theorem checkAuthorityImpl_spec {levels : Nat} :
    ∀ {auth : Authority} {count : Nat} {s : SignState} {out : Bool × Nat × SignState},
      Sound sigs getMember s → checkAuthorityImpl lim getMember levels auth count s = .ok out →
      Sound sigs getMember out.2.2 ∧ (out.1 = true → Satisfied sigs getMember auth) := by
  induction levels with
  | zero => exact fun hs h => checkWith_spec (by simp) hs h
  | succ levels ih =>
    intro auth count s out hs h
    refine checkWith_spec (fun check hcheck => ?_) hs h
    cases hcheck
    intro a count s out hs h
    obtain ⟨auth, hget, h⟩ := bind_eq_ok.mp h
    obtain ⟨hs', hsat⟩ := ih hs h
    exact ⟨hs', fun hresult => .member hget (hsat hresult)⟩

/-- What an assertion of `verify_authority` checks: if the check says yes, `P` holds. -/
def CheckSpec (sigs : List PublicKey) (getMember : Getter) (P : Prop)
    (check : SignState → Checked (Bool × SignState)) : Prop :=
  ∀ {s result s'}, Sound sigs getMember s → check s = .ok (result, s') →
    Sound sigs getMember s' ∧ (result = true → P)

theorem checkAuthority_spec (auth : Authority) :
    CheckSpec sigs getMember (Satisfied sigs getMember auth) (checkAuthority lim getMember auth) := by
  intro s result s' hs h
  simp only [checkAuthority, eq_ok, Prod.mk.injEq] at h
  obtain ⟨⟨_, _, _⟩, himpl, rfl, rfl⟩ := h
  exact checkAuthorityImpl_spec hs himpl

theorem checkAuthority_of_getter_spec (getter : Getter) (id : AccountName) :
    CheckSpec sigs getMember (Meets sigs getMember getter id)
      (fun s => do checkAuthority lim getMember (← getter id) s) := by
  intro s result s' hs h
  obtain ⟨auth, hget, h⟩ := bind_eq_ok.mp h
  obtain ⟨hs', hsat⟩ := checkAuthority_spec auth hs h
  exact ⟨hs', fun hresult => ⟨auth, hget, hsat hresult⟩⟩

theorem checkAccount_spec (id : AccountName) :
    CheckSpec sigs getMember (Approved sigs getMember id) (checkAccount lim getMember id) := by
  intro s result s' hs h
  unfold checkAccount accountBy at h
  split at h
  case isTrue happroved =>
    cases h
    exact ⟨hs, fun _ => hs.cache id happroved⟩
  case isFalse =>
    simp only [eq_ok, Prod.mk.injEq] at h
    obtain ⟨auth, hget, ⟨_, _, _⟩, himpl, rfl, rfl⟩ := h
    obtain ⟨hs', hsat⟩ := checkAuthorityImpl_spec hs himpl
    exact ⟨hs', fun hresult => .member hget (hsat hresult)⟩

theorem orElse_spec {P Q : Prop} {first second : SignState → Checked (Bool × SignState)}
    (hfirst : CheckSpec sigs getMember P first) (hsecond : CheckSpec sigs getMember Q second) :
    CheckSpec sigs getMember (P ∨ Q) (orElse first second) := by
  intro s result s' hs h
  obtain ⟨⟨yes, s₁⟩, hyes, h⟩ := bind_eq_ok.mp h
  obtain ⟨hs₁, hP⟩ := hfirst hs hyes
  cases yes with
  | true =>
    cases h
    exact ⟨hs₁, fun _ => .inl (hP rfl)⟩
  | false =>
    obtain ⟨hs', hQ⟩ := hsecond hs₁ h
    exact ⟨hs', fun hresult => .inr (hQ hresult)⟩

-- # The whole transaction

/-- A loop of assertions: each of them holds, and the state stays sound. -/
theorem requireAll_spec {α : Type} {P : α → Prop} {check : α → SignState → Checked (Bool × SignState)}
    {msg : α → String} (hcheck : ∀ x, CheckSpec sigs getMember (P x) (check x)) :
    ∀ {l : List α} {s s' : SignState}, Sound sigs getMember s →
      l.foldlM (fun s x => require (check x) (msg x) s) s = .ok s' →
      Sound sigs getMember s' ∧ ∀ x ∈ l, P x := by
  intro l
  induction l with
  | nil =>
    intro s s' hs h
    rw [foldlM_nil, pure_eq_ok] at h
    exact ⟨h ▸ hs, fun _ hx => absurd hx not_mem_nil⟩
  | cons x l ih =>
    intro s s' hs h
    rw [foldlM_cons, bind_eq_ok] at h
    obtain ⟨s₁, hreq, hrest⟩ := h
    simp only [require, eq_ok] at hreq
    obtain ⟨⟨result, _⟩, hrun, hyes, rfl⟩ := hreq
    obtain ⟨hs₁, hP⟩ := hcheck x hs hrun
    obtain ⟨hs', hall⟩ := ih hs₁ hrest
    exact ⟨hs', forall_mem_cons.mpr ⟨hP hyes, hall⟩⟩

theorem finishSignatures_spec (hs : Sound sigs getMember s) (h : finishSignatures s = .ok s') :
    ∀ k ∈ sigs, ∃ auth ∈ s'.examined, k ∈ auth.keyAuths.map Prod.fst := by
  simp only [finishSignatures, SignState.removeUnusedSignatures, eq_ok] at h
  obtain ⟨_, hassert, rfl⟩ := h
  have hused := assert_eq_ok.mp hassert
  intro k hk
  rw [← hs.provided] at hk
  obtain ⟨⟨_, marked⟩, hmem, rfl⟩ := mem_map.mp hk
  have hmarked : marked = true := by
    have := any_eq_false.mp hused _ hmem
    simpa using this
  exact hs.used _ (hmarked ▸ hmem)

/-- What it means that the requirements of the operations are met: the account of a requirement
on the active or posting authority may be `temp`, which needs no signature. -/
structure Authorised (sigs : List PublicKey) (tables : Tables) (containers : List AuthContainer) :
    Prop where
  active : ∀ c ∈ containers, ∀ a ∈ c.active, a ≠ tempAccount →
    Meets sigs tables.active tables.active a ∨ Meets sigs tables.active tables.owner a
  owner : ∀ c ∈ containers, ∀ a ∈ c.owner, Meets sigs tables.active tables.owner a
  posting : ∀ c ∈ containers, ∀ a ∈ c.posting, a ≠ tempAccount →
    Meets sigs tables.posting tables.posting a ∨ Meets sigs tables.posting tables.active a ∨
      Meets sigs tables.posting tables.owner a
  other : ∀ c ∈ containers, ∀ auth ∈ c.other, Satisfied sigs tables.active auth

variable {containers : List AuthContainer}

theorem mem_requiredAuths_active :
    a ∈ (requiredAuths containers).active ↔ ∃ c ∈ containers, a ∈ c.active := by
  simp [requiredAuths]

theorem mem_requiredAuths_owner :
    a ∈ (requiredAuths containers).owner ↔ ∃ c ∈ containers, a ∈ c.owner := by
  simp [requiredAuths]

theorem mem_requiredAuths_posting :
    a ∈ (requiredAuths containers).posting ↔ ∃ c ∈ containers, a ∈ c.posting := by
  simp [requiredAuths]

theorem mem_requiredAuths_other :
    auth ∈ (requiredAuths containers).other ↔ ∃ c ∈ containers, auth ∈ c.other := by
  simp [requiredAuths]

/-- If all required authorities are met, the requirements of the operations are, and the state is
sound. -/
theorem requireAuths_spec {tables : Tables}
    (h : requireAuths lim containers sigs tables {} = .ok s) :
    Authorised sigs tables containers ∧ ∃ getMember, Sound sigs getMember s := by
  unfold requireAuths at h
  dsimp only at h
  split at h
  case isTrue =>
    simp only [eq_ok, append_nil, length_eq_zero_iff] at h
    obtain ⟨hactive, howner, hother, hposting⟩ := h
    obtain ⟨hs, hall⟩ := requireAll_spec (fun id => orElse_spec (checkAccount_spec id)
      (orElse_spec (checkAuthority_of_getter_spec tables.active id)
        (checkAuthority_of_getter_spec tables.owner id))) (Sound.init sigs tables.posting) hposting
    refine ⟨⟨?_, ?_, ?_, ?_⟩, tables.posting, hs⟩
    · intro c hc a ha
      exact absurd (mem_requiredAuths_active.mpr ⟨c, hc, ha⟩) (hactive ▸ not_mem_nil)
    · intro c hc a ha
      exact absurd (mem_requiredAuths_owner.mpr ⟨c, hc, ha⟩) (howner ▸ not_mem_nil)
    · intro c hc a ha htemp
      rcases hall a (mem_requiredAuths_posting.mpr ⟨c, hc, ha⟩) with happroved | hmeets
      · exact .inl (happroved.meets htemp)
      · exact .inr hmeets
    · intro c hc auth hauth
      exact absurd (mem_requiredAuths_other.mpr ⟨c, hc, hauth⟩) (hother ▸ not_mem_nil)
  case isFalse hnone =>
    rw [not_not] at hnone
    simp only [bind_eq_ok, append_nil, not_mem_nil, if_false] at h
    obtain ⟨s₁, hother, s₂, hactive, howner⟩ := h
    obtain ⟨hs₁, hallOther⟩ := requireAll_spec (fun auth => checkAuthority_spec auth)
      (Sound.init sigs tables.active) hother
    obtain ⟨hs₂, hallActive⟩ := requireAll_spec (fun id => orElse_spec (checkAccount_spec id)
      (checkAuthority_of_getter_spec tables.owner id)) hs₁ hactive
    obtain ⟨hs, hallOwner⟩ := requireAll_spec
      (fun id => checkAuthority_of_getter_spec tables.owner id) hs₂ howner
    refine ⟨⟨?_, ?_, ?_, ?_⟩, tables.active, hs⟩
    · intro c hc a ha htemp
      rcases hallActive a (mem_requiredAuths_active.mpr ⟨c, hc, ha⟩) with happroved | hmeets
      · exact .inl (happroved.meets htemp)
      · exact .inr hmeets
    · intro c hc a ha
      exact hallOwner a (mem_requiredAuths_owner.mpr ⟨c, hc, ha⟩)
    · intro c hc a ha
      exact absurd (mem_requiredAuths_posting.mpr ⟨c, hc, ha⟩) (hnone ▸ not_mem_nil)
    · intro c hc auth hauth
      exact hallOther auth (mem_requiredAuths_other.mpr ⟨c, hc, hauth⟩)

/-- Whether a transaction without signatures passes that asks for this. -/
def PassesUnsigned (lim : Limits) (container : AuthContainer) (tables : Tables) : Prop :=
  ∃ s, verifyAuthority lim [container] [] tables {} = .ok s

/-- **The signature check is sound.** If `verify_authority` returns without explicit approvals,
every requirement of the operations is met, but for requirements on the active or posting
authority of `temp`, and every signing key occurs in an authority that was examined. Requirements
on the active or posting authority of `temp` pass with no signature, whatever the tables hold. -/
theorem verifyAuthority_sound {lim : Limits} {containers : List AuthContainer}
    {sigs : List PublicKey} {tables : Tables} {s : SignState}
    (h : verifyAuthority lim containers sigs tables {} = .ok s) :
    Authorised sigs tables containers ∧
      (∀ k ∈ sigs, ∃ auth ∈ s.examined, k ∈ auth.keyAuths.map Prod.fst) ∧
      ∀ (lim : Limits) (tables : Tables), PassesUnsigned lim { active := [tempAccount] } tables ∧
        PassesUnsigned lim { posting := [tempAccount] } tables := by
  obtain ⟨s₁, hrequire, hfinish⟩ := bind_eq_ok.mp h
  obtain ⟨hauthorised, getMember, hs₁⟩ := requireAuths_spec hrequire
  refine ⟨hauthorised, finishSignatures_spec hs₁ hfinish, ?_⟩
  -- `temp` is approved from the start, so no table is asked
  exact fun lim tables => ⟨⟨_, rfl⟩, ⟨_, rfl⟩⟩

/-- A table in which `alice` is held by `bob` and `carol` together, and those by a key each. -/
def sampleAuthorities : Tables := .all <| authoritiesOf
  [("alice", ⟨2, [("bob", 1), ("carol", 1)], []⟩),
   ("bob", ⟨1, [], [("kb", 1)]⟩),
   ("carol", ⟨1, [("alice", 1)], [("kc", 1)]⟩)]

theorem verifyAuthority_sound_sample :
    ∃ s, verifyAuthority {} [{ active := ["alice"] }, { active := ["bob"] }] ["kb", "kc"]
        sampleAuthorities {} = .ok s ∧
      Authorised ["kb", "kc"] sampleAuthorities
        [{ active := ["alice"] }, { active := ["bob"] }] := by
  obtain ⟨s, hs⟩ : ∃ s, verifyAuthority {} [{ active := ["alice"] }, { active := ["bob"] }]
      ["kb", "kc"] sampleAuthorities {} = .ok s := by
    decide +kernel
  exact ⟨s, hs, (verifyAuthority_sound hs).1⟩

theorem not_satisfied_of_no_members : ¬ Satisfied sigs getMember { weightThreshold := 1 } := by
  rintro ⟨members, hsub, -, hweight⟩
  obtain rfl := eq_nil_of_sublist_nil hsub
  simp [keyWeight, memberWeight] at hweight

/-- Tables in which nobody can satisfy any authority. -/
def unsatisfiable : Tables := .all fun _ => .ok { weightThreshold := 1 }

/-- A requirement on the active authority of `temp` is met without any signature, also where the
tables hold an authority for `temp` that nobody can satisfy. -/
theorem temp_needs_no_signature :
    ∃ s, verifyAuthority {} [{ active := [tempAccount] }] [] unsatisfiable {} = .ok s ∧
      ¬ (Meets [] unsatisfiable.active unsatisfiable.active tempAccount ∨
        Meets [] unsatisfiable.active unsatisfiable.owner tempAccount) := by
  refine ⟨⟨[], [tempAccount], [], []⟩, by rfl, ?_⟩
  rintro (⟨auth, hget, hsat⟩ | ⟨auth, hget, hsat⟩)
  · cases hget
    exact not_satisfied_of_no_members hsat
  · cases hget
    exact not_satisfied_of_no_members hsat

end DeltaChain.Signing

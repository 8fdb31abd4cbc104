import DeltaChain.Recovery.Model

/-!
# What the operations write

One lemma for each function of the model, with the tables it writes and those it leaves alone.
-/

namespace DeltaChain.Recovery

open Lib Protocol Checked List Option Table Unique

/-- The authority of an account of the given kind. -/
def AccountAuthority.of (auth : AccountAuthority) : State.Classification → Authority
  | .owner => auth.owner
  | .active => auth.active
  | .posting => auth.posting

namespace State

/-- An authority within the bound on members. -/
def Small (auth : Authority) : Prop := auth.numAuths ≤ maxAuthorityMembership

instance (auth : Authority) : Decidable (Small auth) := Nat.decLe _ _

variable {f : AccountAuthority → AccountAuthority} {producing : Bool} {creator : AccountName}
  {recovery : AccountName} {l l' : List Authority} {u : Unit}

theorem validateAuthSize_eq_ok {auth : Authority} : validateAuthSize auth = .ok u ↔ Small auth := by
  unfold validateAuthSize
  rw [assert_eq_ok]
  exact Iff.rfl

variable {s : State} {a : AccountName}

theorem getAccount_eq_ok {account : Account} :
    s.getAccount a = .ok account ↔ s.accounts.find? a = some account := get_eq_ok

theorem getAuthority_eq_ok {auth : AccountAuthority} :
    s.getAuthority a = .ok auth ↔ s.authorities.find? a = some auth := get_eq_ok

theorem whenGiven_validateAuthSize {auth : Option Authority} :
    whenGiven auth validateAuthSize = .ok u ↔ ∀ x ∈ auth, Small x := by
  cases auth with
  | none => simp [whenGiven]
  | some auth => simp [whenGiven, validateAuthSize_eq_ok]

/-- Every authority of an account after the step is one of those listed, or was there before. -/
def StoresOnly (written : List Authority) (s s' : State) : Prop :=
  ∀ x auth', s'.authorities.find? x = some auth' → ∀ cls, auth'.of cls ∈ written ∨
    ∃ auth, s.authorities.find? x = some auth ∧ auth'.of cls = auth.of cls

variable {s' : State}

theorem StoresOnly.of_eq (h : s'.authorities = s.authorities) : StoresOnly [] s s' := by
  intro x auth' hauth' cls
  exact .inr ⟨auth', h ▸ hauth', rfl⟩

theorem StoresOnly.trans {s₁ s₂ : State} (h : StoresOnly l s s₁)
    (h' : StoresOnly l' s₁ s₂) : StoresOnly (l ++ l') s s₂ := by
  intro x auth₂ hauth₂ cls
  rcases h' x auth₂ hauth₂ cls with hmem | ⟨auth₁, hauth₁, heq⟩
  · exact .inl (mem_append_right _ hmem)
  · rcases h x auth₁ hauth₁ cls with hmem | ⟨auth, hauth, heq'⟩
    · exact .inl (mem_append_left _ (heq ▸ hmem))
    · exact .inr ⟨auth, hauth, heq.trans heq'⟩

theorem StoresOnly.modify {l : List Authority} (h : s'.authorities = s.authorities.modify a f)
    (hf : ∀ auth cls, (f auth).of cls ∈ l ∨ (f auth).of cls = auth.of cls) : StoresOnly l s s' := by
  intro x auth' hauth' cls
  rw [h, find?_modify] at hauth'
  split at hauth'
  · obtain ⟨auth, hauth, rfl⟩ := map_eq_some_iff.mp hauth'
    rcases hf auth cls with hmem | hsame
    · exact .inl hmem
    · exact .inr ⟨auth, hauth, hsame⟩
  · exact .inr ⟨auth', hauth', rfl⟩

/-- What `create_account` does: a new row in both tables. -/
structure Created (s s' : State) (name : AccountName) (owner active posting : Authority) :
    Prop where
  fresh : s.accounts.find? name = none
  accounts : ∀ a, a ≠ name → s'.accounts.find? a = s.accounts.find? a
  authorities : StoresOnly [owner, active, posting] s s'
  frame : s' = { s with accounts := s'.accounts, authorities := s'.authorities }

variable {owner active posting : Authority} {name : AccountName}

theorem createAccount_created (h : s.createAccount name recovery owner active posting = .ok s') :
    Created s s' name owner active posting := by
  simp only [createAccount, eq_ok, get_eq_ok] at h
  obtain ⟨accounts, haccounts, authorities, hauthorities, rfl⟩ := h
  refine ⟨find?_eq_none_iff.mpr (insert?_eq_some_iff.mp haccounts).1, ?_, ?_, rfl⟩
  · intro a ha
    show accounts.find? a = _
    rw [find?_insert? haccounts, if_neg ha]
  · intro x auth' hauth' cls
    change authorities.find? x = some auth' at hauth'
    rw [find?_insert? hauthorities] at hauth'
    split at hauth'
    · cases hauth'
      cases cls <;> simp [AccountAuthority.of]
    · exact .inr ⟨auth', hauth', rfl⟩

theorem accountCreate_created
    (h : s.accountCreate producing creator name owner active posting = .ok s') :
    Created s s' name owner active posting ∧
      (s.hasHardfork hardfork020 → Small owner ∧ Small active ∧ Small posting) := by
  simp only [accountCreate, bind_eq_ok, whenever_eq_ok, validateAuthSize_eq_ok,
    exists_iff] at h
  obtain ⟨-, -, -, -, -, hsmall, -, hcreate⟩ := h
  exact ⟨createAccount_created hcreate, fun hf => hsmall (.inr hf)⟩

theorem accountCreateWithDelegation_created
    (h : s.accountCreateWithDelegation producing creator name owner active posting = .ok s') :
    Created s s' name owner active posting ∧
      (s.hasHardfork hardfork020 → Small owner ∧ Small active ∧ Small posting) := by
  simp only [accountCreateWithDelegation, eq_ok, whenever_eq_ok, validateAuthSize_eq_ok,
    exists_iff] at h
  obtain ⟨-, -, -, -, -, hold, -, -, -, -, -, -, hcreate⟩ := h
  exact ⟨createAccount_created hcreate, fun hf => absurd hf hold⟩

theorem createClaimedAccount_created
    (h : s.createClaimedAccount creator name owner active posting = .ok s') :
    Created s s' name owner active posting ∧ Small owner ∧ Small active ∧ Small posting := by
  simp only [createClaimedAccount, eq_ok, validateAuthSize_eq_ok, exists_iff] at h
  obtain ⟨-, -, -, -, -, howner, hactive, hposting, -, -, -, -, -, -, hcreate⟩ := h
  exact ⟨createAccount_created hcreate, howner, hactive, hposting⟩

theorem mineAccount_created {worker : AccountName} {key : PublicKey}
    (h : s.mineAccount worker key = .ok s') :
    s' = s ∨ Created s s' worker (initAuthority key) (initAuthority key) (initAuthority key) := by
  unfold mineAccount at h
  split at h
  · exact .inl (Except.ok.inj h).symm
  · exact .inr (createAccount_created h)

/-- What `update_owner_authority` does: another owner authority, and perhaps an entry of the
history about the one before. -/
structure OwnerReplaced (s s' : State) (a : AccountName) (owner : Authority) : Prop where
  history : ∃ auth, s.authorities.find? a = some auth ∧
    (s'.ownerHistory = s.ownerHistory ∨
      s'.ownerHistory = s.ownerHistory ++ [⟨a, auth.owner, s.time⟩])
  authorities : s'.authorities = s.authorities.modify a fun auth =>
    { auth with owner := owner, lastOwnerUpdate := s.time }
  frame : s' = { s with authorities := s'.authorities, ownerHistory := s'.ownerHistory }

theorem updateOwnerAuthority_replaced (h : s.updateOwnerAuthority a owner = .ok s') :
    OwnerReplaced s s' a owner := by
  simp only [updateOwnerAuthority, eq_ok, getAuthority_eq_ok] at h
  obtain ⟨auth, hauth, rfl⟩ := h
  split
  · exact ⟨⟨auth, hauth, .inr rfl⟩, rfl, rfl⟩
  · exact ⟨⟨auth, hauth, .inl rfl⟩, rfl, rfl⟩

/-- The history after a step that may have replaced one owner authority. -/
def HistoryStep (s s' : State) : Prop :=
  s'.ownerHistory = s.ownerHistory ∨
    ∃ a auth, s.authorities.find? a = some auth ∧
      s'.ownerHistory = s.ownerHistory ++ [⟨a, auth.owner, s.time⟩]

theorem OwnerReplaced.historyStep (h : OwnerReplaced s s' a owner) : HistoryStep s s' := by
  obtain ⟨auth, hauth, hsame | hnew⟩ := h.history
  · exact .inl hsame
  · exact .inr ⟨a, auth, hauth, hnew⟩

theorem OwnerReplaced.storesOnly (h : OwnerReplaced s s' a owner) : StoresOnly [owner] s s' := by
  refine .modify h.authorities fun auth cls => ?_
  cases cls <;> simp [AccountAuthority.of]

/-- What a step does that writes authorities of accounts that exist. -/
structure Updated (s s' : State) (written : List Authority) : Prop where
  history : HistoryStep s s'
  authorities : StoresOnly written s s'
  frame : s' = { s with authorities := s'.authorities, ownerHistory := s'.ownerHistory }

theorem Updated.modifyAuthority (h : Updated s s' l)
    (hf : ∀ auth cls, (f auth).of cls ∈ l' ∨ (f auth).of cls = auth.of cls) :
    Updated s (s'.modifyAuthority a f) (l ++ l') where
  history := h.history
  authorities := h.authorities.trans (.modify rfl hf)
  frame := by
    have hframe := h.frame
    generalize s'.authorities = authorities at hframe
    generalize s'.ownerHistory = history at hframe
    subst hframe
    rfl

theorem OwnerReplaced.updated (h : OwnerReplaced s s' a owner) :
    Updated s s' [owner] := ⟨h.historyStep, h.storesOnly, h.frame⟩

theorem Updated.refl (s : State) : Updated s s [] := ⟨.inl rfl, .of_eq rfl, rfl⟩

theorem accountUpdate_updated {account : AccountName}
    {owner active posting : Option Authority}
    (h : s.accountUpdate producing account owner active posting = .ok s') :
    Updated s s' (owner.toList ++ (active.toList ++ posting.toList)) ∧
      (s.hasHardfork hardfork020 → ∀ x ∈ owner.toList ++ (active.toList ++ posting.toList), Small x) := by
  simp only [accountUpdate, eq_ok, whenever_eq_ok, whenGiven_validateAuthSize, exists_iff] at h
  obtain ⟨-, -, -, -, -, auth, -, hsmall, s₁, howner, -, rfl⟩ := h
  refine ⟨Updated.modifyAuthority ?_ ?_, ?_⟩
  · cases owner with
    | none =>
      cases howner
      exact .refl s
    | some newOwner =>
      simp only [replaceOwner, bind_eq_ok, exists_iff] at howner
      exact (updateOwnerAuthority_replaced howner.2.2).updated
  · intro auth cls
    cases cls <;> cases active <;> cases posting <;> simp [AccountAuthority.of]
  · intro hf x hx
    obtain ⟨howner, hactive, hposting⟩ := hsmall (.inr hf)
    simp only [mem_append, mem_toList] at hx
    rcases hx with hx | hx | hx
    · exact howner x hx
    · exact hactive x hx
    · exact hposting x hx

/-- Hardfork 9 throws at the first compromised account that exists. -/
theorem resetCompromised_eq (h : s.resetCompromised a = .ok s') :
    s.hardfork + 1 = hardfork09 ∧ s' = s := by
  simp only [resetCompromised, eq_ok] at h
  obtain ⟨hfork, h⟩ := h
  refine ⟨hfork, ?_⟩
  split at h
  · cases h
    rfl
  · obtain ⟨key, hkey, -⟩ := bind_eq_ok.mp h
    cases hkey

-- # Requests

/-- The stored owner authority of an account. -/
def ownerOf (s : State) (a : AccountName) : Option Authority := (s.authorities.find? a).map (·.owner)

/-- The stored recovery account of an account. -/
def recoveryOf (s : State) (a : AccountName) : Option AccountName :=
  (s.accounts.find? a).map (·.recoveryAccount)

/-- What `request_account_recovery` does: it writes or cancels the request for the account. -/
structure Requested (s s' : State) (recovery a : AccountName) (newOwner : Authority) : Prop where
  partner : ∃ account, s.accounts.find? a = some account ∧ s.recoveryPartner account = recovery
  row : s'.recoveryRequests.find? a =
    if s.recoveryRequests.find? a ≠ none ∧ newOwner.weightThreshold = 0 then none
    else some ⟨newOwner, s.time + accountRecoveryRequestExpirationPeriod⟩
  others : ∀ x, x ≠ a → s'.recoveryRequests.find? x = s.recoveryRequests.find? x
  small : s.hasHardfork hardfork020 → s.recoveryRequests.find? a = none → Small newOwner
  frame : s' = { s with recoveryRequests := s'.recoveryRequests }

theorem requestAccountRecovery_requested {newOwner : Authority}
    (h : s.requestAccountRecovery producing recovery a newOwner = .ok s') :
    Requested s s' recovery a newOwner := by
  simp only [requestAccountRecovery, eq_ok, getAccount_eq_ok, exists_iff] at h
  obtain ⟨-, -, -, account, haccount, hpartner, h⟩ := h
  have hpartner : ∃ account, s.accounts.find? a = some account ∧ s.recoveryPartner account = recovery :=
    ⟨account, haccount, hpartner⟩
  split at h
  case isTrue hnone =>
    rw [isNone_iff_eq_none] at hnone
    simp only [eq_ok, whenever_eq_ok, validateAuthSize_eq_ok, exists_iff] at h
    obtain ⟨-, -, hsmall, -, rfl⟩ := h
    refine ⟨hpartner, ?_, ?_, fun hf _ => hsmall (.inr hf), rfl⟩
    · rw [if_neg (fun hopen => hopen.1 hnone), find?_emplace, if_pos rfl, hnone]
      rfl
    · intro x hx
      rw [find?_emplace, if_neg hx]
  case isFalse hsome =>
    rw [isNone_iff_eq_none] at hsome
    split at h
    case isTrue hopen =>
      cases h
      refine ⟨hpartner, ?_, ?_, fun _ hnone => absurd hnone hsome, rfl⟩
      · rw [if_pos ⟨hsome, hopen⟩, find?_erase, if_pos rfl]
      · intro x hx
        rw [find?_erase, if_neg hx]
    case isFalse hclosed =>
      simp only [eq_ok, exists_iff] at h
      obtain ⟨-, -, rfl⟩ := h
      refine ⟨hpartner, ?_, ?_, fun _ hnone => absurd hnone hsome, rfl⟩
      · obtain ⟨req, hreq⟩ := ne_none_iff_exists'.mp hsome
        rw [if_neg (fun hopen => hclosed hopen.2), find?_modify_self, hreq]
        rfl
      · intro x hx
        exact find?_modify_ne _ _ hx

/-- What `recover_account` does: it uses the request up. -/
structure Recovered (s s' : State) (a : AccountName) (newOwner recent : Authority) : Prop where
  request : ∃ req, s.recoveryRequests.find? a = some req ∧ req.newOwnerAuthority = newOwner
  recent : ∃ h ∈ s.ownerHistory, h.account = a ∧ h.previousOwnerAuthority = recent
  row : s'.recoveryRequests.find? a = none
  others : ∀ x, x ≠ a → s'.recoveryRequests.find? x = s.recoveryRequests.find? x
  history : HistoryStep s s'
  authorities : StoresOnly [newOwner] s s'
  recoveryOf : ∀ x, s'.recoveryOf x = s.recoveryOf x
  changeRequests : s'.changeRequests = s.changeRequests
  time : s'.time = s.time
  hardfork : s'.hardfork = s.hardfork

theorem recoverAccount_recovered {newOwner recent : Authority}
    (h : s.recoverAccount a newOwner recent = .ok s') : Recovered s s' a newOwner recent := by
  simp only [recoverAccount, eq_ok, get_eq_ok, exists_iff] at h
  obtain ⟨-, -, -, -, -, -, -, account, -, -, req, hreq, hnew, hany, s₁, howner, rfl⟩ := h
  have hrep := updateOwnerAuthority_replaced howner
  have hframe := hrep.frame
  obtain ⟨hist, hhist, hmatch⟩ := any_eq_true.mp hany
  rw [decide_eq_true_eq] at hmatch
  refine ⟨⟨req, hreq, hnew⟩, ⟨hist, hhist, hmatch⟩, ?_, ?_, hrep.historyStep, hrep.storesOnly, ?_, ?_,
    ?_, ?_⟩
  · show s₁.recoveryRequests.find? a = none
    rw [hframe, find?_erase, if_pos rfl]
  · intro x hx
    show s₁.recoveryRequests.find? x = _
    rw [hframe, find?_erase, if_neg hx]
  · intro x
    have haccounts : s₁.accounts = s.accounts := by rw [hframe]
    simp only [State.recoveryOf, haccounts, find?_modify]
    split
    · rw [Option.map_map]
      rfl
    · rfl
  · show s₁.changeRequests = s.changeRequests
    rw [hframe]
  · show s₁.time = s.time
    rw [hframe]
  · show s₁.hardfork = s.hardfork
    rw [hframe]

/-- What `change_recovery_account` does: it writes or cancels the request for the account. -/
structure Changed (s s' : State) (a newRecovery : AccountName) : Prop where
  exists_account : ∃ account, s.accounts.find? a = some account
  row : s'.changeRequests.find? a = none ∨
    s'.changeRequests.find? a = some ⟨newRecovery, s.time + ownerAuthRecoveryPeriod⟩
  others : ∀ x, x ≠ a → s'.changeRequests.find? x = s.changeRequests.find? x
  frame : s' = { s with changeRequests := s'.changeRequests }

theorem changeRecoveryAccount_changed {newRecovery : AccountName}
    (h : s.changeRecoveryAccount a newRecovery = .ok s') : Changed s s' a newRecovery := by
  simp only [changeRecoveryAccount, bind_eq_ok, getAccount_eq_ok, exists_iff] at h
  obtain ⟨-, -, -, -, account, haccount, h⟩ := h
  split at h
  case isTrue hnone =>
    cases h
    rw [isNone_iff_eq_none] at hnone
    refine ⟨⟨account, haccount⟩, .inr ?_, ?_, rfl⟩
    · rw [find?_emplace, if_pos rfl, hnone]
      rfl
    · intro x hx
      rw [find?_emplace, if_neg hx]
  case isFalse hsome =>
    rw [isNone_iff_eq_none] at hsome
    obtain ⟨req, hreq⟩ := ne_none_iff_exists'.mp hsome
    split at h
    case isTrue =>
      cases h
      refine ⟨⟨account, haccount⟩, .inr ?_, fun x hx => find?_modify_ne _ _ hx, rfl⟩
      rw [find?_modify_self, hreq]
      rfl
    case isFalse =>
      cases h
      refine ⟨⟨account, haccount⟩, .inl ?_, ?_, rfl⟩
      · rw [find?_erase, if_pos rfl]
      · intro x hx
        rw [find?_erase, if_neg hx]

-- # The end of a block

/-- The loop over requests that are due: each takes effect for its own account. -/
theorem applyChangeRequests_spec {due : List (AccountName × ChangeRequest)} :
    ∀ {s s' : State}, (due.map Prod.fst).Nodup → due.foldlM applyChangeRequest s = .ok s' →
      (∀ x c, due.lookup x = some c →
        s'.recoveryOf x = some c.recoveryAccount ∧ s'.changeRequests.find? x = none) ∧
      (∀ x, due.lookup x = none →
        s'.recoveryOf x = s.recoveryOf x ∧ s'.changeRequests.find? x = s.changeRequests.find? x) ∧
      s' = { s with accounts := s'.accounts, changeRequests := s'.changeRequests } := by
  induction due with
  | nil =>
    intro s s' _ h
    cases h
    exact ⟨fun x c hc => absurd hc (by simp), fun x _ => ⟨rfl, rfl⟩, rfl⟩
  | cons e due ih =>
    obtain ⟨a, req⟩ := e
    intro s s' hnodup h
    rw [map_cons, nodup_cons] at hnodup
    rw [foldlM_cons, bind_eq_ok] at h
    obtain ⟨s₁, hstep, hrest⟩ := h
    simp only [applyChangeRequest, eq_ok, getAccount_eq_ok] at hstep
    obtain ⟨account, haccount, rfl⟩ := hstep
    obtain ⟨hdue, hother, hframe⟩ := ih hnodup.2 hrest
    refine ⟨?_, ?_, ?_⟩
    · intro x c hc
      rw [lookup_cons] at hc
      by_cases hx : x = a
      · subst hx
        -- no later request is for this account
        rw [beq_self_eq_true] at hc
        cases hc
        obtain ⟨hrec, hrow⟩ := hother x (lookup_eq_none_iff.mpr hnodup.1)
        rw [hrec, hrow]
        refine ⟨?_, ?_⟩
        · simp [State.recoveryOf, haccount]
        · show (s.changeRequests.erase x).find? x = none
          rw [find?_erase, if_pos rfl]
      · rw [beq_eq_false_iff_ne.mpr hx] at hc
        exact hdue x c hc
    · intro x hx
      rw [lookup_cons] at hx
      have hne : x ≠ a := by
        rintro rfl
        rw [beq_self_eq_true] at hx
        cases hx
      rw [beq_eq_false_iff_ne.mpr hne] at hx
      obtain ⟨hrec, hrow⟩ := hother x hx
      rw [hrec, hrow]
      refine ⟨?_, ?_⟩
      · simp [State.recoveryOf, find?_modify_ne _ _ hne]
      · show (s.changeRequests.erase a).find? x = _
        rw [find?_erase, if_neg hne]
    · exact hframe

/-- What the end of a block does. -/
structure Processed (s s' : State) (now : Nat) : Prop where
  later : s.time < now
  time : s'.time = now
  requests : s'.recoveryRequests = s.recoveryRequests.filter fun _ req => decide (now < req.expires)
  history : s'.ownerHistory = s.ownerHistory.dropWhile fun h =>
    decide (h.lastValidTime + ownerAuthRecoveryPeriod < now)
  due : ∀ x c, s.changeRequests.find? x = some c → c.effectiveOn ≤ now →
    s'.recoveryOf x = some c.recoveryAccount ∧ s'.changeRequests.find? x = none
  waiting : ∀ x, (∀ c, s.changeRequests.find? x = some c → now < c.effectiveOn) →
    s'.recoveryOf x = s.recoveryOf x ∧ s'.changeRequests.find? x = s.changeRequests.find? x
  authorities : s'.authorities = s.authorities
  hardfork : s'.hardfork = s.hardfork

theorem block_processed {time : Nat} (h : s.block time = .ok s') : Processed s s' time := by
  simp only [block, eq_ok, accountRecoveryProcessing] at h
  obtain ⟨hlater, hloop⟩ := h
  have hnodup := (s.changeRequests.filter fun _ c => decide (c.effectiveOn ≤ time)).nodup
  obtain ⟨hdue, hother, hframe⟩ := applyChangeRequests_spec hnodup hloop
  refine ⟨hlater, by rw [hframe], by rw [hframe], by rw [hframe], ?_, ?_, by rw [hframe],
    by rw [hframe]⟩
  · intro x c hc hle
    refine hdue x c ?_
    show (s.changeRequests.filter fun _ c => decide (c.effectiveOn ≤ time)).find? x = some c
    rw [Table.find?_filter, hc]
    simp [hle]
  · intro x hx
    refine hother x ?_
    show (s.changeRequests.filter fun _ c => decide (c.effectiveOn ≤ time)).find? x = none
    rw [Table.find?_filter]
    cases hc : s.changeRequests.find? x with
    | none => rfl
    | some c => simp [hx c hc]

end State

end DeltaChain.Recovery

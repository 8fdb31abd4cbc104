import DeltaChain.Recovery.Timely
import DeltaChain.Signing.Cutoff

/-!
# The size of stored authorities

From hardfork 20 on every operation that stores an authority bounds its members, but for a
recovery request that is changed: `request_account_recovery` looks at the size of a new request
only. In runs in which no request is changed to a larger one, everything that is stored is within
the bound; one changed request is enough to store a larger owner authority.
-/

namespace DeltaChain.Recovery

open Lib Protocol State Option List

/-- Every authority that a step stores, in an account or in a request, is within the bound. -/
structure WritesSmall (s s' : State) : Prop where
  authorities : ∀ x auth', s'.authorities.find? x = some auth' → ∀ cls, Small (auth'.of cls) ∨
    ∃ auth, s.authorities.find? x = some auth ∧ auth'.of cls = auth.of cls
  requests : ∀ x req', s'.recoveryRequests.find? x = some req' → Small req'.newOwnerAuthority ∨
    ∃ req, s.recoveryRequests.find? x = some req ∧ req'.newOwnerAuthority = req.newOwnerAuthority

/-- Hardfork 20 is in force, and the pending requests are within the bound. -/
structure Bounded (s : State) : Prop where
  hardfork : s.hasHardfork hardfork020
  requests : ∀ x req, s.recoveryRequests.find? x = some req → Small req.newOwnerAuthority

/-- The event does not change a pending request to an authority beyond the bound. -/
def Event.KeepsBound (s : State) : Event → Prop
  | .operation _ (.requestAccountRecovery _ a newOwner) =>
    s.recoveryRequests.find? a ≠ none → newOwner.weightThreshold ≠ 0 → Small newOwner
  | _ => True

variable {s s' : State} {l : List Authority} {e : Event}

theorem State.StoresOnly.small (h : StoresOnly l s s') (hl : ∀ auth ∈ l, Small auth) :
    ∀ x auth', s'.authorities.find? x = some auth' → ∀ cls, Small (auth'.of cls) ∨
      ∃ auth, s.authorities.find? x = some auth ∧ auth'.of cls = auth.of cls := by
  intro x auth' hauth' cls
  exact (h x auth' hauth' cls).imp (hl _) id

theorem WritesSmall.of_stores (h : StoresOnly l s s') (hl : ∀ auth ∈ l, Small auth)
    (hreq : s'.recoveryRequests = s.recoveryRequests) : WritesSmall s s' :=
  ⟨h.small hl, fun _ req' hreq' => .inr ⟨req', hreq ▸ hreq', rfl⟩⟩

theorem State.Created.writesSmall {name : AccountName}
    {owner active posting : Authority} (h : Created s s' name owner active posting)
    (hsmall : Small owner ∧ Small active ∧ Small posting) : WritesSmall s s' := by
  refine .of_stores h.authorities ?_ (by rw [h.frame])
  intro auth hauth
  simp only [mem_cons, not_mem_nil, or_false] at hauth
  rcases hauth with rfl | rfl | rfl
  · exact hsmall.1
  · exact hsmall.2.1
  · exact hsmall.2.2

theorem small_initAuthority (key : PublicKey) : Small (initAuthority key) := by
  show 1 ≤ maxAuthorityMembership
  decide

/-- What is stored within the bound was not changed beyond it. -/
theorem WritesSmall.keepsBound (hw : WritesSmall s s') (hs : Bounded s) (h : step s e = .ok s') :
    e.KeepsBound s := by
  unfold Event.KeepsBound
  split
  · next a newOwner =>
    intro hpending hclosed
    have hrow := (requestAccountRecovery_requested h).row
    rw [if_neg (fun hopen => hclosed hopen.2)] at hrow
    rcases hw.requests a _ hrow with hsmall | ⟨req, hreq, heq⟩
    · exact hsmall
    · have heq : newOwner = req.newOwnerAuthority := heq
      rw [heq]
      exact hs.requests a req hreq
  · trivial

theorem State.Requested.writesSmall {recovery a : AccountName} {newOwner : Authority}
    (h : Requested s s' recovery a newOwner) (hs : Bounded s)
    (hkeeps : s.recoveryRequests.find? a ≠ none → newOwner.weightThreshold ≠ 0 → Small newOwner) :
    WritesSmall s s' := by
  refine ⟨(StoresOnly.of_eq (by rw [h.frame])).small (by simp), fun x req' hreq' => ?_⟩
  by_cases hx : x = a
  · subst hx
    rw [h.row] at hreq'
    split at hreq'
    case isTrue => cases hreq'
    case isFalse hopen =>
      cases hreq'
      left
      by_cases hpending : s.recoveryRequests.find? x = none
      · exact h.small hs.hardfork hpending
      · exact hkeeps hpending fun hzero => hopen ⟨hpending, hzero⟩
  · rw [h.others x hx] at hreq'
    exact .inr ⟨req', hreq', rfl⟩

/-- What is installed is the authority of the request. -/
theorem State.Recovered.writesSmall {a : AccountName} {newOwner recent : Authority}
    (h : Recovered s s' a newOwner recent) (hs : Bounded s) : WritesSmall s s' := by
  obtain ⟨req, hreq, rfl⟩ := h.request
  refine ⟨h.authorities.small ?_, fun x req' hreq' => ?_⟩
  · intro auth hauth
    rw [mem_singleton.mp hauth]
    exact hs.requests a req hreq
  · by_cases hx : x = a
    · rw [hx, h.row] at hreq'
      cases hreq'
    · rw [h.others x hx] at hreq'
      exact .inr ⟨req', hreq', rfl⟩

theorem operation_writesSmall {producing : Bool} {op : Operation} (hs : Bounded s)
    (h : step s (.operation producing op) = .ok s')
    (hkeeps : (Event.operation producing op).KeepsBound s) : WritesSmall s s' := by
  cases op with
  | accountCreate =>
    obtain ⟨hcreated, hsmall⟩ := accountCreate_created h
    exact hcreated.writesSmall (hsmall hs.hardfork)
  | accountCreateWithDelegation =>
    obtain ⟨hcreated, hsmall⟩ := accountCreateWithDelegation_created h
    exact hcreated.writesSmall (hsmall hs.hardfork)
  | createClaimedAccount =>
    obtain ⟨hcreated, hsmall⟩ := createClaimedAccount_created h
    exact hcreated.writesSmall hsmall
  | pow worker key =>
    rcases mineAccount_created h with rfl | hcreated
    · exact .of_stores (.of_eq rfl) (by simp) rfl
    · have hkey := small_initAuthority key
      exact hcreated.writesSmall ⟨hkey, hkey, hkey⟩
  | accountUpdate =>
    obtain ⟨hupdated, hsmall⟩ := accountUpdate_updated h
    exact .of_stores hupdated.authorities (hsmall hs.hardfork) (by rw [hupdated.frame])
  | requestAccountRecovery => exact (requestAccountRecovery_requested h).writesSmall hs hkeeps
  | recoverAccount => exact (recoverAccount_recovered h).writesSmall hs
  | changeRecoveryAccount =>
    have hframe := (changeRecoveryAccount_changed h).frame
    exact .of_stores (.of_eq (by rw [hframe])) (by simp) (by rw [hframe])

/-- **One step.** After hardfork 20 a step stores only authorities within the bound exactly if it
does not change a request to one beyond it. -/
theorem writesSmall_iff (hs : Bounded s) (h : step s e = .ok s') :
    WritesSmall s s' ↔ e.KeepsBound s := by
  refine ⟨fun hw => hw.keepsBound hs h, fun hkeeps => ?_⟩
  have hlate : hardfork020 ≤ s.hardfork := hs.hardfork
  simp only [hardfork020] at hlate
  cases e with
  | operation => exact operation_writesSmall hs h hkeeps
  | block now =>
    have hp := block_processed h
    refine ⟨(StoresOnly.of_eq hp.authorities).small (by simp), fun x req' hreq' => ?_⟩
    rw [hp.requests, Table.find?_filter] at hreq'
    exact .inr ⟨req', (filter_eq_some_iff.mp hreq').1, rfl⟩
  | compromised a =>
    -- hardfork 9 is long over
    have hfork := (resetCompromised_eq h).1
    simp only [hardfork09] at hfork
    omega
  | hardfork =>
    cases h
    have hfork : s.hardfork + 1 ≠ hardfork012 := by
      simp only [hardfork012]
      omega
    unfold applyHardfork
    rw [if_neg hfork]
    exact .of_stores (.of_eq rfl) (by simp) rfl
  | votes top =>
    cases h
    exact .of_stores (.of_eq rfl) (by simp) rfl

theorem Bounded.step (hs : Bounded s) (h : step s e = .ok s')
    (hkeeps : e.KeepsBound s) : Bounded s' where
  hardfork := by
    have hle : s.hardfork ≤ s'.hardfork := by
      rcases between_or_block h with hb | ⟨now, -, hp⟩
      · exact hb.hardfork
      · exact hp.hardfork.ge
    exact Nat.le_trans hs.hardfork hle
  requests x req' hreq' := by
    rcases ((writesSmall_iff hs h).mpr hkeeps).requests x req' hreq' with hsmall | ⟨req, hreq, heq⟩
    · exact hsmall
    · rw [heq]
      exact hs.requests x req hreq

/-- **The bound on stored authorities.** In a run after hardfork 20, from a state whose pending
requests are within the bound, every step stores only authorities within the bound exactly if no
step changes a pending request to one beyond it; and the cut-off of the signature check makes no
difference for an authority within the bound that is not open. -/
theorem stored_authorities_small_iff {s₀ : State} (h₀ : Bounded s₀) (es : List Event) :
    (Run.AllSteps (Run.checked step) s₀ es (fun s _ s' => WritesSmall s s') ↔
      Run.AllSteps (Run.checked step) s₀ es (fun s e _ => e.KeepsBound s)) ∧
    ∀ auth : Authority, State.Small auth → auth.weightThreshold ≠ 0 → ∀ (lim : Signing.Limits) member count s,
      lim.maxMembership = maxAuthorityMembership →
      Signing.checkWith lim member auth count s =
        Signing.checkWith lim.withoutMembership member auth count s := by
  refine ⟨?_, ?_⟩
  · exact Run.allSteps_congr Bounded (fun _ _ _ => writesSmall_iff) (fun _ _ _ => Bounded.step) h₀
  · intro auth hsmall hopen lim member count s hlim
    have hsize : auth.numAuths ≤ lim.maxMembership := hlim ▸ hsmall
    exact (Signing.checkWith_cutoff hsize).resolve_right fun h => hopen h.1

/-- An authority of `n` keys. -/
def manyKeys (n : Nat) : Authority where
  weightThreshold := 1
  keyAuths := (List.range n).map fun i => (toString i, 1)

/-- The state of `idleState` after all hardforks. -/
def afterHardforks (key : PublicKey) (n : Nat) : State := { idleState key n with hardfork := 20 }

theorem bounded_afterHardforks (key : PublicKey) (n : Nat) : Bounded (afterHardforks key n) :=
  ⟨Nat.le_refl 20, fun x req hreq => by cases hreq⟩

theorem stored_authorities_small_sample :
    Run.AllSteps (Run.checked step) (afterHardforks "k1" 0)
      [.operation false (.requestAccountRecovery "initminer" "initminer" (manyKeys 40))]
      (fun s _ s' => WritesSmall s s') := by
  refine (stored_authorities_small_iff (bounded_afterHardforks "k1" 0) _).1.mpr ?_
  intro pre e post s s' heq hs _
  -- the only event makes the first request of the run
  obtain ⟨rfl, rfl⟩ : pre = [] ∧
      e = .operation false (.requestAccountRecovery "initminer" "initminer" (manyKeys 40)) := by
    cases pre with
    | nil => exact ⟨rfl, (cons.inj heq).1.symm⟩
    | cons a pre => simp at heq
  cases hs
  intro hpending
  exact absurd rfl hpending

/-- After hardfork 20, `initminer` asks for its recovery, changes the request to an authority of 41
keys, and with it recovers its account. -/
theorem changed_request_exceeds :
    ∃ es s owner, exec (genesis "k1") es = some s ∧ s.hasHardfork hardfork020 ∧
      s.ownerOf "initminer" = some owner ∧ ¬ State.Small owner := by
  have hrun : (exec (idleState "k1" ownerAuthHistoryTrackingStartBlockNum)
      (replicate 20 .hardfork ++
        [.operation false (.accountUpdate "initminer" (some (initAuthority "k2")) none none),
         .operation false (.requestAccountRecovery "initminer" "initminer" (initAuthority "k3")),
         .operation false (.requestAccountRecovery "initminer" "initminer" (manyKeys 41)),
         .operation false (.recoverAccount "initminer" (manyKeys 41) (initAuthority "k1"))])).map
      (fun s => (s.hardfork, s.ownerOf "initminer")) = some (20, some (manyKeys 41)) := by
    decide +kernel
  obtain ⟨s, hs, hview⟩ := map_eq_some_iff.mp hrun
  obtain ⟨hfork, howner⟩ := Prod.mk.inj hview
  have hexec := (Run.exec_append (genesis "k1") _ _).trans
    (bind_eq_some_iff.mpr ⟨_, exec_idleBlocks "k1" _, hs⟩)
  exact ⟨_, s, manyKeys 41, hexec, hfork.ge, howner, by decide⟩

end DeltaChain.Recovery

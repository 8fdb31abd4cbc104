import DeltaChain.Lib.Trace
import DeltaChain.Recovery.Steps

/-!
# Account recovery is timely

In every run: an account is recovered only with a fresh request of its recovery account and with
an owner authority it had in the last 30 days, and its recovery account is replaced only 30 days
after the last request to do so. The tables are pruned at the end of every block (`Timely` is
what holds between blocks), and each row is traced back to the event that wrote it by
`Run.last_writer`.
-/

namespace DeltaChain.Recovery

open Lib Protocol Checked State List Option

/-- Events that write or remove the recovery request of an account. -/
def Event.WritesRequest (a : AccountName) : Event → Prop
  | .operation _ (.requestAccountRecovery _ b _) => b = a
  | .operation _ (.recoverAccount b _ _) => b = a
  | _ => False

/-- Events that ask for a change of the recovery account. -/
def Event.ChangesRecovery (a : AccountName) : Event → Prop
  | .operation _ (.changeRecoveryAccount b _) => b = a
  | _ => False

-- # One step

/-- What every event but the end of a block leaves alone. -/
structure Between (s s' : State) (e : Event) : Prop where
  time : s'.time = s.time
  hardfork : s.hardfork ≤ s'.hardfork
  history : HistoryStep s s'
  requests : ∀ a, ¬ e.WritesRequest a → s'.recoveryRequests.find? a = s.recoveryRequests.find? a
  changes : ∀ a, ¬ e.ChangesRecovery a → s'.changeRequests.find? a = s.changeRequests.find? a
  recovery : ∀ a r, s.recoveryOf a = some r → s'.recoveryOf a = some r

variable {s s' : State} {e : Event}

theorem State.Created.between {name : AccountName} {owner active posting : Authority}
    (h : Created s s' name owner active posting) : Between s s' e := by
  have hframe := h.frame
  refine ⟨by rw [hframe], by rw [hframe], .inl (by rw [hframe]), fun a _ => by rw [hframe], fun a _ => by rw [hframe], ?_⟩
  intro a r hr
  have hne : a ≠ name := by
    rintro rfl
    rw [recoveryOf, h.fresh] at hr
    cases hr
  rw [recoveryOf, h.accounts a hne]
  exact hr

theorem State.Updated.between {written : List Authority} (h : Updated s s' written) :
    Between s s' e := by
  have hframe := h.frame
  refine ⟨by rw [hframe], by rw [hframe], h.history, fun a _ => by rw [hframe], fun a _ => by rw [hframe], ?_⟩
  intro a r hr
  rw [hframe]
  exact hr

theorem step_between (he : ∀ now, e ≠ .block now) (h : step s e = .ok s') : Between s s' e := by
  cases e with
  | operation producing op =>
    cases op with
    | accountCreate => exact (accountCreate_created h).1.between
    | accountCreateWithDelegation => exact (accountCreateWithDelegation_created h).1.between
    | createClaimedAccount => exact (createClaimedAccount_created h).1.between
    | pow =>
      rcases mineAccount_created h with rfl | hcreated
      · exact (Updated.refl _).between
      · exact hcreated.between
    | accountUpdate => exact (accountUpdate_updated h).1.between
    | requestAccountRecovery =>
      have hreq := requestAccountRecovery_requested h
      have hframe := hreq.frame
      refine ⟨by rw [hframe], by rw [hframe], .inl (by rw [hframe]), ?_, fun a _ => by rw [hframe], ?_⟩
      · intro a ha
        exact hreq.others a fun heq => ha heq.symm
      · intro a r hr
        rw [hframe]
        exact hr
    | recoverAccount =>
      have hrec := recoverAccount_recovered h
      refine ⟨hrec.time, hrec.hardfork.ge, hrec.history, ?_, fun a _ => by rw [hrec.changeRequests], ?_⟩
      · intro a ha
        exact hrec.others a fun heq => ha heq.symm
      · intro a r hr
        rw [hrec.recoveryOf]
        exact hr
    | changeRecoveryAccount =>
      have hchanged := changeRecoveryAccount_changed h
      have hframe := hchanged.frame
      refine ⟨by rw [hframe], by rw [hframe], .inl (by rw [hframe]), fun a _ => by rw [hframe], ?_, ?_⟩
      · intro a ha
        exact hchanged.others a fun heq => ha heq.symm
      · intro a r hr
        rw [hframe]
        exact hr
  | block now => exact absurd rfl (he now)
  | compromised a =>
    obtain ⟨-, rfl⟩ := resetCompromised_eq h
    exact (Updated.refl _).between
  | hardfork =>
    cases h
    unfold applyHardfork
    dsimp only
    split
    · exact ⟨rfl, Nat.le_succ _, .inl rfl, fun _ _ => rfl, fun _ _ => rfl, fun _ _ hr => hr⟩
    · exact ⟨rfl, Nat.le_succ _, .inl rfl, fun _ _ => rfl, fun _ _ => rfl, fun _ _ hr => hr⟩
  | votes top =>
    cases h
    exact ⟨rfl, Nat.le_refl _, .inl rfl, fun _ _ => rfl, fun _ _ => rfl, fun _ _ hr => hr⟩

-- # What holds between blocks

/-- No request has expired, and no entry of the history is too old. -/
structure Timely (s : State) : Prop where
  fresh : ∀ a req, s.recoveryRequests.find? a = some req → s.time < req.expires
  sorted : s.ownerHistory.Pairwise fun h h' => h.lastValidTime ≤ h'.lastValidTime
  past : ∀ h ∈ s.ownerHistory, h.lastValidTime ≤ s.time
  recent : ∀ h ∈ s.ownerHistory, s.time ≤ h.lastValidTime + ownerAuthRecoveryPeriod
  account : ∀ a c, s.changeRequests.find? a = some c → ∃ r, s.recoveryOf a = some r

/-- What `dropWhile` keeps of a list in which the condition holds of everything before an entry of
which it holds. -/
theorem not_of_mem_dropWhile {α : Type} {p : α → Bool} {l : List α}
    (h : l.Pairwise fun x y => p y = true → p x = true) : ∀ x ∈ l.dropWhile p, p x = false := by
  induction l with
  | nil => intro x hx; cases hx
  | cons y l ih =>
    rw [pairwise_cons] at h
    intro x hx
    rw [dropWhile_cons] at hx
    split at hx
    case isTrue => exact ih h.2 x hx
    case isFalse hy =>
      rw [Bool.not_eq_true] at hy
      rcases mem_cons.mp hx with rfl | hx
      · exact hy
      · rw [← Bool.not_eq_true]
        intro hpx
        exact absurd (h.1 x hx hpx) (by simp [hy])

variable {a : AccountName} {key : PublicKey} {es : List Event} {req : RecoveryRequest}
  {c : ChangeRequest} {r : AccountName}

/-- The request that an event writes is fresh. -/
theorem fresh_of_writesRequest (h : step s e = .ok s')
    (he : e.WritesRequest a) (hreq : s'.recoveryRequests.find? a = some req) :
    ∃ producing recovery,
      e = .operation producing (.requestAccountRecovery recovery a req.newOwnerAuthority) ∧
      Requested s s' recovery a req.newOwnerAuthority ∧
      req.expires = s.time + accountRecoveryRequestExpirationPeriod := by
  match e, he with
  | .operation producing (.requestAccountRecovery recovery b newOwner), hb =>
    obtain rfl : b = a := hb
    have hrequested := requestAccountRecovery_requested h
    rw [hrequested.row] at hreq
    split at hreq
    · cases hreq
    · cases hreq
      exact ⟨producing, recovery, rfl, hrequested, rfl⟩
  | .operation producing (.recoverAccount b newOwner recent), hb =>
    obtain rfl : b = a := hb
    rw [(recoverAccount_recovered h).row] at hreq
    cases hreq

theorem change_of_changesRecovery (h : step s e = .ok s')
    (he : e.ChangesRecovery a) (hc : s'.changeRequests.find? a = some c) :
    ∃ producing, e = .operation producing (.changeRecoveryAccount a c.recoveryAccount) ∧
      Changed s s' a c.recoveryAccount ∧ c.effectiveOn = s.time + ownerAuthRecoveryPeriod := by
  match e, he with
  | .operation producing (.changeRecoveryAccount b newRecovery), hb =>
    obtain rfl : b = a := hb
    have hchanged := changeRecoveryAccount_changed h
    rcases hchanged.row with hnone | hsome
    · rw [hnone] at hc
      cases hc
    · obtain rfl := mem_unique hsome hc
      exact ⟨producing, rfl, hchanged, rfl⟩

theorem Changed.recoveryOf {newRecovery : AccountName} (h : Changed s s' a newRecovery)
    (x : AccountName) : s'.recoveryOf x = s.recoveryOf x := by
  rw [h.frame]
  rfl

theorem Timely.of_between (hs : Timely s) (hb : Between s s' e) (h : step s e = .ok s') :
    Timely s' where
  fresh a req hreq := by
    by_cases he : e.WritesRequest a
    · obtain ⟨_, _, _, _, hexpires⟩ := fresh_of_writesRequest h he hreq
      rw [hb.time, hexpires]
      exact Nat.lt_add_of_pos_right (by decide)
    · rw [hb.requests a he] at hreq
      rw [hb.time]
      exact hs.fresh a req hreq
  sorted := by
    rcases hb.history with hsame | ⟨a, auth, _, hnew⟩
    · rw [hsame]
      exact hs.sorted
    · rw [hnew, pairwise_append]
      refine ⟨hs.sorted, pairwise_singleton _ _, ?_⟩
      intro h hh h' hh'
      obtain rfl := mem_singleton.mp hh'
      exact hs.past h hh
  past h hh := by
    rw [hb.time]
    rcases hb.history with hsame | ⟨a, auth, _, hnew⟩
    · exact hs.past h (hsame ▸ hh)
    · rw [hnew] at hh
      rcases mem_append.mp hh with hh | hh
      · exact hs.past h hh
      · obtain rfl := mem_singleton.mp hh
        exact Nat.le_refl _
  recent h hh := by
    rw [hb.time]
    rcases hb.history with hsame | ⟨a, auth, _, hnew⟩
    · exact hs.recent h (hsame ▸ hh)
    · rw [hnew] at hh
      rcases mem_append.mp hh with hh | hh
      · exact hs.recent h hh
      · obtain rfl := mem_singleton.mp hh
        exact Nat.le_add_right _ _
  account a c hc := by
    by_cases he : e.ChangesRecovery a
    · obtain ⟨_, _, hchanged, _⟩ := change_of_changesRecovery h he hc
      obtain ⟨account, haccount⟩ := hchanged.exists_account
      refine ⟨account.recoveryAccount, ?_⟩
      rw [Changed.recoveryOf hchanged, recoveryOf, haccount]
      rfl
    · rw [hb.changes a he] at hc
      obtain ⟨r, hr⟩ := hs.account a c hc
      exact ⟨r, hb.recovery a r hr⟩

theorem Timely.block {now : Nat} (hs : Timely s) (h : s.block now = .ok s') : Timely s' := by
  have hp := block_processed h
  have hsub : s'.ownerHistory.Sublist s.ownerHistory := by
    rw [hp.history]
    exact dropWhile_sublist _
  refine ⟨?_, hs.sorted.sublist hsub, ?_, ?_, ?_⟩
  · intro a req hreq
    rw [hp.requests, Table.find?_filter] at hreq
    rw [hp.time]
    exact of_decide_eq_true (filter_eq_some_iff.mp hreq).2
  · intro h hh
    rw [hp.time]
    exact (hs.past h (hsub.subset hh)).trans hp.later.le
  · intro h hh
    rw [hp.history] at hh
    have hkept := not_of_mem_dropWhile (hs.sorted.imp ?_) h hh
    · rw [decide_eq_false_iff_not] at hkept
      rw [hp.time]
      omega
    · intro h₁ h₂ hle hold
      rw [decide_eq_true_eq] at hold ⊢
      omega
  · intro a c hc
    by_cases hdue : ∃ c, s.changeRequests.find? a = some c ∧ c.effectiveOn ≤ now
    · obtain ⟨c', hc', hle⟩ := hdue
      exact ⟨_, (hp.due a c' hc' hle).1⟩
    · push Not at hdue
      obtain ⟨hrec, hrow⟩ := hp.waiting a hdue
      rw [hrec]
      exact hs.account a c (hrow ▸ hc)

theorem between_or_block (h : step s e = .ok s') :
    Between s s' e ∨ ∃ now, e = .block now ∧ Processed s s' now := by
  by_cases he : ∃ now, e = .block now
  · obtain ⟨now, rfl⟩ := he
    exact .inr ⟨now, rfl, block_processed h⟩
  · push Not at he
    exact .inl (step_between he h)

theorem timely_of_exec (h : exec (genesis key) es = some s) : Timely s := by
  refine Run.checked_induct Timely ?_ ?_ h
  · intro s e s' hs hstep
    rcases between_or_block hstep with hb | ⟨now, rfl, -⟩
    · exact hs.of_between hb hstep
    · exact hs.block hstep
  · exact ⟨fun a req hreq => absurd hreq (by simp [genesis]), .nil,
      fun h hh => absurd hh not_mem_nil, fun h hh => absurd hh not_mem_nil,
      fun a c hc => absurd hc (by simp [genesis])⟩

-- # Where the rows come from

theorem request_kept (he : ¬ e.WritesRequest a) (h : step s e = .ok s') :
    s'.recoveryRequests.find? a = s.recoveryRequests.find? a ∨ s'.recoveryRequests.find? a = none := by
  rcases between_or_block h with hb | ⟨now, -, hp⟩
  · exact .inl (hb.requests a he)
  · rw [hp.requests, Table.find?_filter]
    cases s.recoveryRequests.find? a with
    | none => exact .inr rfl
    | some req =>
      rw [filter_some]
      split
      · exact .inl rfl
      · exact .inr rfl

/-- A request to change the recovery account, with the account that is in force. -/
def pendingChange (a : AccountName) (s : State) : Option (ChangeRequest × AccountName) :=
  (s.changeRequests.find? a).bind fun c => (s.recoveryOf a).map fun r => (c, r)

theorem pendingChange_eq_some :
    pendingChange a s = some (c, r) ↔ s.changeRequests.find? a = some c ∧ s.recoveryOf a = some r := by
  simp only [pendingChange, bind_eq_some_iff, map_eq_some_iff, Prod.mk.injEq]
  constructor
  · rintro ⟨_, hc, _, hr, rfl, rfl⟩
    exact ⟨hc, hr⟩
  · rintro ⟨hc, hr⟩
    exact ⟨c, hc, r, hr, rfl, rfl⟩

/-- While a change is pending, the recovery account is the same. -/
theorem pendingChange_kept (hs : Timely s) (he : ¬ e.ChangesRecovery a) (h : step s e = .ok s') :
    pendingChange a s' = pendingChange a s ∨ pendingChange a s' = none := by
  cases hc : s.changeRequests.find? a with
  | none =>
    -- nobody asks for a change, so there is none afterwards
    have hnone : s'.changeRequests.find? a = none := by
      rcases between_or_block h with hb | ⟨now, -, hp⟩
      · rw [hb.changes a he, hc]
      · rw [(hp.waiting a fun c hc' => absurd (hc.symm.trans hc') (by simp)).2, hc]
    exact .inr (by rw [pendingChange, hnone, bind_none])
  | some c =>
    obtain ⟨r, hr⟩ := hs.account a c hc
    rcases between_or_block h with hb | ⟨now, -, hp⟩
    · refine .inl ?_
      rw [pendingChange, pendingChange, hb.changes a he, hb.recovery a r hr, hr]
    · by_cases hdue : c.effectiveOn ≤ now
      · exact .inr (by rw [pendingChange, (hp.due a c hc hdue).2, bind_none])
      · obtain ⟨hrec, hrow⟩ := hp.waiting a fun c' hc' => by
          obtain rfl := mem_unique hc hc'
          omega
        exact .inl (by rw [pendingChange, pendingChange, hrec, hrow])

/-- The recovery request that `new` was to be used for was made or last changed in the run `es` by
the recovery partner of the account, less than a day before `now`, and is unchanged since. -/
def RequestedInTime (key : PublicKey) (es : List Event) (now : Nat) (a : AccountName)
    (newOwner : Authority) : Prop :=
  ∃ pre producing recovery mid s₁ account,
    es = pre ++ .operation producing (.requestAccountRecovery recovery a newOwner) :: mid ∧
    exec (genesis key) pre = some s₁ ∧
    s₁.accounts.find? a = some account ∧ s₁.recoveryPartner account = recovery ∧
    now < s₁.time + accountRecoveryRequestExpirationPeriod ∧
    ∀ e ∈ mid, ¬ e.WritesRequest a

/-- The authority was the owner authority of the account at a moment of the run `es` not more than
30 days before `now`. -/
def OwnerInTime (key : PublicKey) (es : List Event) (now : Nat) (a : AccountName)
    (recent : Authority) : Prop :=
  ∃ pre s₁, pre <+: es ∧ exec (genesis key) pre = some s₁ ∧ s₁.ownerOf a = some recent ∧
    now ≤ s₁.time + ownerAuthRecoveryPeriod

/-- The last request in the run `es` to change the recovery account of `a` is at least 30 days
older than `now`; it asked for `r'`, and `r` has been in force since. -/
def ChangedInTime (key : PublicKey) (es : List Event) (now : Nat) (a r r' : AccountName) : Prop :=
  ∃ pre producing mid s₁, es = pre ++ .operation producing (.changeRecoveryAccount a r') :: mid ∧
    exec (genesis key) pre = some s₁ ∧ s₁.recoveryOf a = some r ∧
    s₁.time + ownerAuthRecoveryPeriod ≤ now ∧
    (∀ e ∈ mid, ¬ e.ChangesRecovery a) ∧
    ∀ mid' s₂, mid' <+: mid →
      exec (genesis key) (pre ++ .operation producing (.changeRecoveryAccount a r') :: mid') = some s₂ →
      s₂.recoveryOf a = some r

theorem requestedInTime_of_exec (h : exec (genesis key) es = some s)
    (hreq : s.recoveryRequests.find? a = some req) :
    RequestedInTime key es s.time a req.newOwnerAuthority := by
  have hkeep : ∀ (as : List Event) (s : State) (e : Event) (s' : State),
      exec (genesis key) as = some s → ¬ e.WritesRequest a → Run.checked step s e = some s' →
      s'.recoveryRequests.find? a = s.recoveryRequests.find? a ∨
        s'.recoveryRequests.find? a = none := fun _ _ _ _ _ he hstep =>
    request_kept he (Run.checked_eq_some.mp hstep)
  obtain ⟨pre, e, mid, s₁, s₂, rfl, hpre, hstep, hwrites, hrow, hmid, -⟩ :=
    Run.last_writer rfl hkeep h hreq
  obtain ⟨producing, recovery, rfl, hrequested, hexpires⟩ :=
    fresh_of_writesRequest (Run.checked_eq_some.mp hstep) hwrites hrow
  obtain ⟨account, haccount, hpartner⟩ := hrequested.partner
  refine ⟨pre, producing, recovery, mid, s₁, account, rfl, hpre, haccount, hpartner, ?_, hmid⟩
  rw [← hexpires]
  exact (timely_of_exec h).fresh a req hreq

theorem ownerInTime_of_exec {hist : OwnerHistory}
    (h : exec (genesis key) es = some s) (hhist : hist ∈ s.ownerHistory) :
    OwnerInTime key es s.time hist.account hist.previousOwnerAuthority := by
  obtain ⟨pre, e, mid, s₁, s₂, rfl, hpre, hstep, hnew, hold⟩ :=
    Run.appears (P := fun s => hist ∈ s.ownerHistory) not_mem_nil h hhist
  refine ⟨pre, s₁, prefix_append _ _, hpre, ?_⟩
  rw [Run.checked_eq_some] at hstep
  have hrecent := (timely_of_exec h).recent hist hhist
  rcases between_or_block hstep with hb | ⟨now, -, hp⟩
  · rcases hb.history with hsame | ⟨a, auth, hauth, happend⟩
    · exact absurd (hsame ▸ hold) hnew
    · rw [happend] at hold
      rcases mem_append.mp hold with hmem | hmem
      · exact absurd hmem hnew
      · obtain rfl := mem_singleton.mp hmem
        exact ⟨by rw [ownerOf, hauth]; rfl, hrecent⟩
  · -- the end of a block adds no entry
    rw [hp.history] at hold
    exact absurd ((dropWhile_sublist _).subset hold) hnew

theorem changedInTime_of_exec (h : exec (genesis key) es = some s) (hstep : step s e = .ok s')
    (hr : s.recoveryOf a = some r) (hne : s'.recoveryOf a ≠ some r) :
    ∃ r', s'.recoveryOf a = some r' ∧ ChangedInTime key es s'.time a r r' := by
  -- only the end of a block at which a change is due replaces the recovery account
  rcases between_or_block hstep with hb | ⟨now, -, hp⟩
  · exact absurd (hb.recovery a r hr) hne
  obtain ⟨c, hc, hdue⟩ : ∃ c, s.changeRequests.find? a = some c ∧ c.effectiveOn ≤ now := by
    by_contra hnone
    push Not at hnone
    exact hne ((hp.waiting a hnone).1.trans hr)
  have hkeep : ∀ (as : List Event) (s : State) (e : Event) (s' : State),
      exec (genesis key) as = some s → ¬ e.ChangesRecovery a → Run.checked step s e = some s' →
      pendingChange a s' = pendingChange a s ∨ pendingChange a s' = none :=
    fun _ _ _ _ hrun he hstep =>
      pendingChange_kept (timely_of_exec hrun) he (Run.checked_eq_some.mp hstep)
  obtain ⟨pre, e', mid, s₁, s₂, rfl, hpre, hstep', hwrites, hview, hmid, hheld⟩ :=
    Run.last_writer rfl hkeep h (pendingChange_eq_some.mpr ⟨hc, hr⟩)
  obtain ⟨hrow, hr₂⟩ := pendingChange_eq_some.mp hview
  obtain ⟨producing, rfl, hchanged, heffective⟩ :=
    change_of_changesRecovery (Run.checked_eq_some.mp hstep') hwrites hrow
  refine ⟨c.recoveryAccount, (hp.due a c hc hdue).1, pre, producing, mid, s₁, rfl, hpre, ?_, ?_, hmid,
    ?_⟩
  · rw [← Changed.recoveryOf hchanged]
    exact hr₂
  · rw [hp.time, ← heffective]
    exact hdue
  · intro mid' s₃ hmid' hs₃
    refine (pendingChange_eq_some.mp (hheld mid' s₃ hmid' ?_)).2
    rw [exec, Run.exec_append, hpre, bind_some, Run.exec_cons, hstep', bind_some] at hs₃
    exact hs₃

/-- **Account recovery is timely.** In every run from genesis: whoever recovers an account at time
`t` uses a request that the recovery partner of the account made or last changed less than a day
before `t` and that was not changed, cancelled or used since, and names an authority that was the
owner authority of the account not more than 30 days before `t`; and the recovery account of an
account is replaced only 30 days after the last request to change it, until which the previous
one has stayed in force. -/
theorem recovery_timely {key : PublicKey} {es : List Event} {s : State}
    (h : exec (genesis key) es = some s) :
    (∀ producing a newOwner recent s',
      step s (.operation producing (.recoverAccount a newOwner recent)) = .ok s' →
      RequestedInTime key es s.time a newOwner ∧ OwnerInTime key es s.time a recent) ∧
    ∀ e s' a r, step s e = .ok s' → s.recoveryOf a = some r → s'.recoveryOf a ≠ some r →
      ∃ r', s'.recoveryOf a = some r' ∧ ChangedInTime key es s'.time a r r' := by
  refine ⟨?_, fun e s' a r hstep hr hne => changedInTime_of_exec h hstep hr hne⟩
  intro producing a newOwner recent s' hstep
  have hrec := recoverAccount_recovered hstep
  obtain ⟨req, hreq, rfl⟩ := hrec.request
  obtain ⟨hist, hhist, rfl, rfl⟩ := hrec.recent
  exact ⟨requestedInTime_of_exec h hreq, ownerInTime_of_exec h hhist⟩

/-- Blocks without operations, three seconds apart. -/
def idleBlocks (n : Nat) : List Event :=
  (List.range n).map fun i => .block (genesisTime + 3 * (i + 1))

/-- The state after `n` of them. -/
def idleState (key : PublicKey) (n : Nat) : State :=
  { genesis key with headBlockNumber := n, time := genesisTime + 3 * n }

theorem exec_idleBlocks (key : PublicKey) (n : Nat) :
    exec (genesis key) (idleBlocks n) = some (idleState key n) := by
  induction n with
  | zero => rfl
  | succ n ih =>
    rw [idleBlocks, range_succ, map_append]
    refine Run.exec_concat.mpr ⟨_, ih, ?_⟩
    rw [Run.checked_eq_some]
    simp only [step, block, eq_ok]
    refine ⟨?_, rfl⟩
    show genesisTime + 3 * n < genesisTime + 3 * (n + 1)
    omega

/-- Once the history is kept, `initminer` gives itself another owner authority, asks for its own
recovery as the top witness, and recovers the account. -/
theorem recovery_timely_sample :
    ∃ es s s', exec (genesis "k1") es = some s ∧
      step s (.operation false (.recoverAccount "initminer" (initAuthority "k3") (initAuthority "k1")))
        = .ok s' ∧
      RequestedInTime "k1" es s.time "initminer" (initAuthority "k3") ∧
      OwnerInTime "k1" es s.time "initminer" (initAuthority "k1") := by
  have hrun : (exec (idleState "k1" ownerAuthHistoryTrackingStartBlockNum)
      ([.operation false (.accountUpdate "initminer" (some (initAuthority "k2")) none none),
        .operation false (.requestAccountRecovery "initminer" "initminer" (initAuthority "k3"))] ++
        [.operation false
          (.recoverAccount "initminer" (initAuthority "k3") (initAuthority "k1"))])).isSome = true := by
    decide +kernel
  obtain ⟨s', hs'⟩ := isSome_iff_exists.mp hrun
  obtain ⟨s, hs, hstep⟩ := Run.exec_concat.mp hs'
  rw [Run.checked_eq_some] at hstep
  have hexec := (Run.exec_append (genesis "k1") _ _).trans
    (bind_eq_some_iff.mpr ⟨_, exec_idleBlocks "k1" _, hs⟩)
  obtain ⟨hreq, howner⟩ := (recovery_timely hexec).1 false _ _ _ s' hstep
  exact ⟨_, s, s', hexec, hstep, hreq, howner⟩

end DeltaChain.Recovery

import DeltaChain.AccountByKey.Model
import DeltaChain.Recovery.Steps

/-!
# The table follows the authorities

The lookup is right for a key and an account (`InStep`) as long as no step changes the keys of the
account behind the plugin's back (`Misses`), which two do: `create_claimed_account`, which has no
handler, and hardfork 12, which replaces authorities. The key of genesis is not in the table at all
(`key_lookup_in_step_iff`). Hardfork 9 would be a third one, but it throws where a compromised
account exists.
-/

namespace DeltaChain.AccountByKey

open Lib Protocol Checked List Option Table Unique
open Recovery (AccountAuthority Operation)

-- # The table

variable {s s' : State} {a x account : AccountName} {k key : PublicKey}
  {auth : AccountAuthority} {compromised : List AccountName}

/-- The table has the pair. -/
def Listed (s : State) (k : PublicKey) (a : AccountName) : Prop :=
  s.keyLookup.find? (k, a) = some ()

/-- The key is in an authority of the account. -/
def Occurs (chain : Recovery.State) (k : PublicKey) (a : AccountName) : Prop :=
  ∃ auth, chain.authorities.find? a = some auth ∧ k ∈ keys auth

/-- The table is right about the pair. -/
def InStep (k : PublicKey) (a : AccountName) (s : State) : Prop := Listed s k a ↔ Occurs s.chain k a

instance (s : State) (k : PublicKey) (a : AccountName) : Decidable (Listed s k a) :=
  inferInstanceAs (Decidable (_ = _))

theorem occurs_iff {chain : Recovery.State} (hrow : chain.authorities.find? a = some auth) :
    Occurs chain k a ↔ k ∈ keys auth := by
  unfold Occurs
  rw [hrow]
  simp only [some.injEq, exists_eq_left']

theorem occurs_congr {chain chain' : Recovery.State}
    (hrow : chain'.authorities.find? a = chain.authorities.find? a) :
    Occurs chain' k a ↔ Occurs chain k a := by
  unfold Occurs
  rw [hrow]

theorem nodup_keys (auth : AccountAuthority) : (keys auth).Nodup := nodup_dedup _

theorem lookUpKey_cached (s : State) (key k : PublicKey) :
    k ∈ (s.lookUpKey account key).cachedKeys ↔ k ∈ s.cachedKeys ∧ k ≠ key := by
  unfold State.lookUpKey
  split
  · grind
  · simp only [mem_filter, decide_eq_true_eq]

theorem lookUpKey_chain (s : State) (key : PublicKey) :
    (s.lookUpKey account key).chain = s.chain := by
  unfold State.lookUpKey
  split
  · rfl
  · rfl

/-- The first loop: new keys get into the table, and the cached keys that are among the new ones are
struck out. -/
theorem lookUpKeys_spec (account : AccountName) {new : List PublicKey} (hnew : new.Nodup)
    (s : State) :
    (new.foldl (State.lookUpKey account) s).chain = s.chain ∧
      (∀ k, k ∈ (new.foldl (State.lookUpKey account) s).cachedKeys ↔ k ∈ s.cachedKeys ∧ k ∉ new) ∧
      ∀ k x, Listed (new.foldl (State.lookUpKey account) s) k x ↔
        Listed s k x ∨ x = account ∧ k ∈ new ∧ k ∉ s.cachedKeys := by
  induction new generalizing s with
  | nil => simp
  | cons key new ih =>
    obtain ⟨hkey, hnew⟩ := nodup_cons.mp hnew
    obtain ⟨hchain, hcached, hlisted⟩ := ih hnew (s.lookUpKey account key)
    refine ⟨hchain.trans (lookUpKey_chain s key), ?_, ?_⟩
    · intro k
      rw [foldl_cons, hcached, lookUpKey_cached, mem_cons]
      tauto
    · intro k x
      rw [foldl_cons, hlisted, lookUpKey_cached, mem_cons]
      unfold State.lookUpKey Listed
      split
      · rw [find?_emplace]
        grind
      · grind

theorem dropKeys_spec (account : AccountName) (old : List PublicKey) (s : State) :
    (old.foldl (State.dropKey account) s).chain = s.chain ∧
      ∀ k x, Listed (old.foldl (State.dropKey account) s) k x ↔
        Listed s k x ∧ ¬ (x = account ∧ k ∈ old) := by
  induction old generalizing s with
  | nil => simp
  | cons key old ih =>
    obtain ⟨hchain, hlisted⟩ := ih (s.dropKey account key)
    refine ⟨hchain, ?_⟩
    intro k x
    have hdrop : Listed (s.dropKey account key) k x ↔ Listed s k x ∧ (k, x) ≠ (key, account) := by
      unfold State.dropKey Listed
      rw [find?_erase]
      grind
    rw [foldl_cons, hlisted, hdrop, mem_cons, ne_eq, Prod.mk.injEq]
    tauto

/-- **`update_key_lookup`.** -/
theorem updateKeyLookup_spec (s : State) (account : AccountName) (auth : AccountAuthority) :
    (s.updateKeyLookup account auth).chain = s.chain ∧
      ∀ k x, Listed (s.updateKeyLookup account auth) k x ↔
        (Listed s k x ∨ x = account ∧ k ∈ keys auth ∧ k ∉ s.cachedKeys) ∧
          ¬ (x = account ∧ k ∈ s.cachedKeys ∧ k ∉ keys auth) := by
  obtain ⟨hchain, hcached, hlisted⟩ := lookUpKeys_spec account (nodup_keys auth) s
  obtain ⟨hchain', hlisted'⟩ := dropKeys_spec account
    ((keys auth).foldl (State.lookUpKey account) s).cachedKeys
    ((keys auth).foldl (State.lookUpKey account) s)
  refine ⟨hchain'.trans hchain, ?_⟩
  intro k x
  rw [← hlisted, ← hcached]
  exact hlisted' k x

/-- The authorities of one account were written. -/
structure Rewritten (account : AccountName) (auth : AccountAuthority) (chain chain' : Recovery.State) :
    Prop where
  row : chain'.authorities.find? account = some auth
  others : ∀ x, x ≠ account → chain'.authorities.find? x = chain.authorities.find? x

/-- **The handlers keep the table right**, if the cached keys are keys of the account before the
operation, and all of those that are gone after it. -/
theorem InStep.update {t : State} (hs : InStep k a s) (htable : t.keyLookup = s.keyLookup)
    (hrow : Rewritten account auth s.chain t.chain)
    (hcached : ∀ k, k ∈ t.cachedKeys → Occurs s.chain k account)
    (hgone : ∀ k, Occurs s.chain k account → k ∉ keys auth → k ∈ t.cachedKeys) :
    InStep k a (t.updateKeyLookup account auth) := by
  obtain ⟨hchain, hlisted⟩ := updateKeyLookup_spec t account auth
  have hsame : Listed t k a ↔ Occurs s.chain k a := by
    unfold Listed
    rw [htable]
    exact hs
  unfold InStep
  rw [hlisted, hchain, hsame]
  by_cases ha : a = account
  · subst ha
    have hoccurs := occurs_iff (k := k) hrow.row
    tauto
  · have hoccurs := occurs_congr (k := k) (hrow.others a ha)
    tauto

-- # Operations

section Rows

variable {c c' : Recovery.State} {name creator : AccountName} {owner active posting : Authority}
  {producing : Bool}

theorem createAccount_rewritten {recovery : AccountName}
    (h : c.createAccount name recovery owner active posting = .ok c') :
    c.authorities.find? name = none ∧ Rewritten name { owner, active, posting } c c' := by
  simp only [Recovery.State.createAccount, eq_ok, get_eq_ok] at h
  obtain ⟨accounts, -, authorities, hauthorities, rfl⟩ := h
  refine ⟨find?_eq_none_iff.mpr (insert?_eq_some_iff.mp hauthorities).1, ?_, ?_⟩
  · show authorities.find? name = _
    rw [find?_insert? hauthorities, if_pos rfl]
  · intro x hx
    show authorities.find? x = _
    rw [find?_insert? hauthorities, if_neg hx]

theorem rewritten_modify {f : AccountAuthority → AccountAuthority}
    (hauth : c.authorities.find? account = some auth)
    (h : c'.authorities = c.authorities.modify account f) : Rewritten account (f auth) c c' := by
  refine ⟨?_, ?_⟩
  · rw [h, find?_modify_self, hauth]
    rfl
  · intro x hx
    rw [h, find?_modify_ne _ _ hx]

theorem rewritten_modifyAuthority (f : AccountAuthority → AccountAuthority)
    (hauth : c.authorities.find? account = some auth) :
    Rewritten account (f auth) c (c.modifyAuthority account f) := rewritten_modify hauth rfl

theorem Rewritten.trans {auth' : AccountAuthority} {c₁ : Recovery.State}
    (h : Rewritten account auth c c₁) (h' : Rewritten account auth' c₁ c') :
    Rewritten account auth' c c' :=
  ⟨h'.row, fun x hx => (h'.others x hx).trans (h.others x hx)⟩

theorem updateOwnerAuthority_rewritten (h : c.updateOwnerAuthority account owner = .ok c') :
    ∃ auth, Rewritten account auth c c' := by
  have hrep := Recovery.State.updateOwnerAuthority_replaced h
  obtain ⟨auth, hauth, -⟩ := hrep.history
  exact ⟨_, rewritten_modify hauth hrep.authorities⟩

theorem accountUpdate_rewritten {owner active posting : Option Authority}
    (h : c.accountUpdate producing account owner active posting = .ok c') :
    ∃ auth, Rewritten account auth c c' := by
  simp only [Recovery.State.accountUpdate, eq_ok, Recovery.State.getAuthority_eq_ok, exists_iff] at h
  obtain ⟨-, -, -, -, -, auth, hauth, -, c₁, howner, -, rfl⟩ := h
  cases owner with
  | none =>
    cases howner
    exact ⟨_, rewritten_modifyAuthority _ hauth⟩
  | some newOwner =>
    simp only [Recovery.State.replaceOwner, bind_eq_ok, exists_iff] at howner
    obtain ⟨auth₁, h₁⟩ := updateOwnerAuthority_rewritten howner.2.2
    exact ⟨_, h₁.trans (rewritten_modifyAuthority _ h₁.row)⟩

theorem recoverAccount_rewritten {newOwner recent : Authority}
    (h : c.recoverAccount account newOwner recent = .ok c') : ∃ auth, Rewritten account auth c c' := by
  simp only [Recovery.State.recoverAccount, eq_ok, exists_iff] at h
  obtain ⟨-, -, -, -, -, -, -, -, -, -, -, -, -, -, c₁, howner, rfl⟩ := h
  obtain ⟨auth, hauth⟩ := updateOwnerAuthority_rewritten howner
  exact ⟨auth, hauth.row, hauth.others⟩

end Rows

variable {t : State}

theorem InStep.created {owner active posting : Authority} {recovery : AccountName}
    (hs : InStep k a s) (h : s.chain.createAccount account recovery owner active posting = .ok t.chain)
    (htable : t.keyLookup = s.keyLookup) (hcached : t.cachedKeys = []) :
    InStep k a (t.withAuths account (State.updateKeyLookup · account)) := by
  obtain ⟨hnone, hrow⟩ := createAccount_rewritten h
  have hnever : ∀ k, ¬ Occurs s.chain k account := by
    rintro k ⟨auth, hauth, -⟩
    rw [hnone] at hauth
    cases hauth
  rw [State.withAuths, hrow.row]
  exact hs.update htable hrow (by simp [hcached]) fun k hk => absurd hk (hnever k)

/-- An account whose keys were cached. -/
theorem InStep.updated (hs : InStep k a s) (hrow : Rewritten account auth s.chain t.chain)
    (htable : t.keyLookup = s.keyLookup)
    (hcached : t.cachedKeys = (s.clearCache.withAuths account State.cacheAuths).cachedKeys) :
    InStep k a (t.withAuths account (State.updateKeyLookup · account)) := by
  have hkeys : ∀ k, k ∈ t.cachedKeys ↔ Occurs s.chain k account := by
    intro k
    rw [hcached]
    unfold State.withAuths
    split
    · next auth hauth =>
      have hauth : s.chain.authorities.find? account = some auth := hauth
      rw [occurs_iff hauth]
      simp [State.cacheAuths, State.clearCache]
    · next hnone =>
      have hnone : s.chain.authorities.find? account = none := hnone
      simp [State.clearCache, Occurs, hnone]
  rw [State.withAuths, hrow.row]
  exact hs.update htable hrow (fun k => (hkeys k).mp) fun k hk _ => (hkeys k).mpr hk

/-- A worker, whether it has just got an account or had one. -/
theorem InStep.mined {worker : AccountName} {pow : PublicKey} (hs : InStep k a s)
    (h : s.chain.mineAccount worker pow = .ok t.chain) (htable : t.keyLookup = s.keyLookup)
    (hcached : t.cachedKeys = []) :
    InStep k a (t.withAuths worker (State.updateKeyLookup · worker)) := by
  unfold Recovery.State.mineAccount at h
  split at h
  · have hsame : t.chain = s.chain := (Except.ok.inj h).symm
    cases hauth : s.chain.authorities.find? worker with
    | none =>
      rw [State.withAuths, hsame, hauth]
      unfold InStep Listed
      rw [htable, hsame]
      exact hs
    | some auth =>
      rw [State.withAuths, hsame, hauth]
      refine hs.update htable ⟨by rw [hsame, hauth], fun x _ => by rw [hsame]⟩ (by simp [hcached]) ?_
      -- no key is gone
      rintro k ⟨auth', hauth', hk⟩ hgone
      obtain rfl := mem_unique hauth hauth'
      exact absurd hk hgone
  · exact hs.created h htable hcached

theorem withAuths_frame (s : State) (account : AccountName) :
    (s.withAuths account State.cacheAuths).chain = s.chain ∧
      (s.withAuths account State.cacheAuths).keyLookup = s.keyLookup := by
  unfold State.withAuths
  split
  · exact ⟨rfl, rfl⟩
  · exact ⟨rfl, rfl⟩

-- # Hardforks

section Hardforks

variable {c c' : Recovery.State} {l : List AccountName}

/-- The loops of hardfork 9 come to an end only if no compromised account exists. -/
theorem resetCompromised_loop (h : l.foldlM Recovery.State.resetCompromised c = .ok c') : c' = c :=
  foldlM_induct (· = c) (fun _ _ _ _ hs h => (Recovery.State.resetCompromised_eq h).2.trans hs) rfl h

theorem lookUpCompromised_loop (h : l.foldlM State.lookUpCompromised s = .ok s') : s' = s := by
  refine foldlM_induct (· = s) (fun a _ s₁ s₂ hs h => ?_) rfl h
  unfold State.lookUpCompromised at h
  split at h
  · cases h
    exact hs
  · obtain ⟨key, hkey, -⟩ := bind_eq_ok.mp h
    cases hkey

/-- A posting authority with which nobody can sign. -/
def closePosting (auth : AccountAuthority) : AccountAuthority :=
  { auth with posting := { weightThreshold := 1 } }

/-- The accounts whose posting authority hardfork 12 closes. -/
def closedAccounts : List AccountName := [minerAccount, nullAccount, tempAccount]

theorem applyHardfork_rows (c : Recovery.State) (x : AccountName) :
    c.applyHardfork.authorities.find? x =
      if c.hardfork + 1 = hardfork012 ∧ x ∈ closedAccounts then
        (c.authorities.find? x).map closePosting
      else c.authorities.find? x := by
  unfold Recovery.State.applyHardfork
  by_cases hfork : c.hardfork + 1 = hardfork012
  · rw [if_pos hfork]
    show (((c.authorities.modify minerAccount closePosting).modify nullAccount closePosting).modify
      tempAccount closePosting).find? x = _
    simp only [find?_modify, hfork, true_and, closedAccounts, mem_cons, not_mem_nil,
      or_false]
    -- the three names are different
    by_cases htemp : x = tempAccount
    · subst htemp
      rw [if_pos rfl, if_neg (by decide), if_neg (by decide), if_pos (.inr (.inr rfl))]
    rw [if_neg htemp]
    by_cases hnull : x = nullAccount
    · subst hnull
      rw [if_pos rfl, if_neg (by decide), if_pos (.inr (.inl rfl))]
    rw [if_neg hnull]
    by_cases hminer : x = minerAccount
    · rw [if_pos hminer, if_pos (.inl hminer)]
    · rw [if_neg hminer, if_neg (by tauto)]
  · rw [if_neg hfork, if_neg fun h => hfork h.1]

end Hardforks

-- # Steps behind the plugin's back

/-- The step changes whether the key is in an authority of the account, and the plugin does not
follow. -/
def Misses (k : PublicKey) (a : AccountName) (s : State) : Event → Prop
  | .operation _ (.createClaimedAccount _ name owner active posting) =>
    name = a ∧ k ∈ keys { owner, active, posting }
  | .hardfork => ∃ auth, s.chain.authorities.find? a = some auth ∧ k ∈ keys auth ∧
    s.chain.hardfork + 1 = hardfork012 ∧ a ∈ closedAccounts ∧ k ∉ keys (closePosting auth)
  | _ => False

theorem inStep_congr (htable : s'.keyLookup = s.keyLookup)
    (hrow : s'.chain.authorities.find? a = s.chain.authorities.find? a) :
    InStep k a s' ↔ InStep k a s := by
  unfold InStep Listed Occurs
  rw [htable, hrow]

variable {chain : Recovery.State}

theorem InStep.other (hs : InStep k a s)
    (h : chain.authorities = s.chain.authorities) : InStep k a { s with chain := chain } := by
  have hsame : InStep k a { s with chain := chain } ↔ InStep k a s := inStep_congr rfl (by rw [h])
  exact hsame.mpr hs

theorem claimed_inStep_iff {creator name : AccountName} {owner active posting : Authority}
    (hs : InStep k a s)
    (h : s.chain.createClaimedAccount creator name owner active posting = .ok chain) :
    InStep k a { s with chain := chain } ↔ ¬ (name = a ∧ k ∈ keys { owner, active, posting }) := by
  simp only [Recovery.State.createClaimedAccount, bind_eq_ok, exists_iff] at h
  obtain ⟨-, -, -, -, -, -, -, -, -, -, -, -, -, -, hcreate⟩ := h
  obtain ⟨hnone, hrow⟩ := createAccount_rewritten hcreate
  by_cases ha : a = name
  · subst ha
    -- the account had no keys, and nothing is written
    have hnever : ¬ Listed s k a := by
      intro hlisted
      obtain ⟨auth, hauth, -⟩ := Iff.mp hs hlisted
      rw [hnone] at hauth
      cases hauth
    change (Listed s k a ↔ Occurs chain k a) ↔ _
    rw [occurs_iff hrow.row]
    simp only [hnever, false_iff, true_and]
  · have hsame : InStep k a { s with chain := chain } ↔ InStep k a s :=
      inStep_congr rfl (hrow.others a ha)
    rw [hsame]
    simp only [hs, Ne.symm ha, false_and, not_false_eq_true]

/-- A hardfork that is applied. -/
theorem hardfork_eq (h : step compromised s .hardfork = .ok s') :
    s' = { s with chain := s.chain.applyHardfork } := by
  obtain ⟨chain, hchain, hpost⟩ := bind_eq_ok.mp h
  obtain rfl : chain = s.chain.applyHardfork := by
    unfold applyHardfork at hchain
    dsimp only at hchain
    split at hchain
    · obtain ⟨c, hloop, hchain⟩ := bind_eq_ok.mp hchain
      cases hchain
      rw [resetCompromised_loop hloop]
    · cases hchain
      rfl
  unfold State.postHardfork at hpost
  split at hpost
  · exact lookUpCompromised_loop hpost
  · exact (pure_eq_ok.mp hpost).symm

/-- The hardforks: only hardfork 12 changes authorities. -/
theorem hardfork_inStep_iff (hs : InStep k a s) (h : step compromised s .hardfork = .ok s') :
    InStep k a s' ↔ ¬ ∃ auth, s.chain.authorities.find? a = some auth ∧ k ∈ keys auth ∧
      s.chain.hardfork + 1 = hardfork012 ∧ a ∈ closedAccounts ∧ k ∉ keys (closePosting auth) := by
  obtain rfl := hardfork_eq h
  have hsame : Listed { s with chain := s.chain.applyHardfork } k a ↔ Occurs s.chain k a := hs
  unfold InStep
  rw [hsame]
  change (_ ↔ ∃ auth, s.chain.applyHardfork.authorities.find? a = some auth ∧ k ∈ keys auth) ↔ _
  rw [applyHardfork_rows]
  unfold Occurs
  split
  · next hclosed =>
    cases hauth : s.chain.authorities.find? a with
    | none => simp
    | some auth =>
      have hsub : k ∈ keys (closePosting auth) → k ∈ keys auth := by
        unfold keys closePosting
        simp only [mem_dedup, map_append, mem_append, append_nil]
        tauto
      simp only [map_some, some.injEq, exists_eq_left', hclosed, true_and]
      tauto
  · next hopen =>
    simp only [true_iff, not_exists]
    rintro auth ⟨-, -, h12, hclosed, -⟩
    exact hopen ⟨h12, hclosed⟩

/-- **One step.** Where the table was right about a pair, it is right after the step exactly if the
step is not one that the plugin misses. -/
theorem step_inStep_iff {e : Event} (hs : InStep k a s) (h : step compromised s e = .ok s') :
    InStep k a s' ↔ ¬ Misses k a s e := by
  -- the operations with a handler, and what does not change an authority
  have hright : (InStep k a s' ↔ ¬ False) ↔ InStep k a s' := by simp
  cases e with
  | operation producing op =>
    rw [step, bind_eq_ok] at h
    obtain ⟨chain, h, heq⟩ := h
    cases heq
    cases op with
    | createClaimedAccount creator name owner active posting => exact claimed_inStep_iff hs h
    | accountCreate creator name owner active posting =>
      change Recovery.State.accountCreate _ _ _ _ _ _ _ = _ at h
      simp only [Recovery.State.accountCreate, bind_eq_ok, exists_iff] at h
      obtain ⟨-, -, -, -, -, -, -, hcreate⟩ := h
      exact hright.mpr (hs.created (t := { s with chain := chain, cachedKeys := [] }) hcreate rfl rfl)
    | accountCreateWithDelegation creator name owner active posting =>
      change Recovery.State.accountCreateWithDelegation _ _ _ _ _ _ _ = _ at h
      simp only [Recovery.State.accountCreateWithDelegation, bind_eq_ok, exists_iff] at h
      obtain ⟨-, -, -, -, -, -, -, -, -, -, -, -, hcreate⟩ := h
      exact hright.mpr (hs.created (t := { s with chain := chain, cachedKeys := [] }) hcreate rfl rfl)
    | pow worker key =>
      exact hright.mpr (hs.mined (t := { s with chain := chain, cachedKeys := [] }) h rfl rfl)
    | accountUpdate account owner active posting =>
      obtain ⟨hchain, htable⟩ := withAuths_frame s.clearCache account
      obtain ⟨auth, hrow⟩ := accountUpdate_rewritten h
      exact hright.mpr (hs.updated (t := { s.clearCache.withAuths account State.cacheAuths with
        chain := chain }) (hchain ▸ hrow) htable rfl)
    | recoverAccount account newOwner recent =>
      obtain ⟨hchain, htable⟩ := withAuths_frame s.clearCache account
      obtain ⟨auth, hrow⟩ := recoverAccount_rewritten h
      exact hright.mpr (hs.updated (t := { s.clearCache.withAuths account State.cacheAuths with
        chain := chain }) (hchain ▸ hrow) htable rfl)
    | requestAccountRecovery recovery account newOwner =>
      have hframe := (Recovery.State.requestAccountRecovery_requested h).frame
      exact hright.mpr (hs.other (by rw [hframe]; rfl))
    | changeRecoveryAccount account recovery =>
      have hframe := (Recovery.State.changeRecoveryAccount_changed h).frame
      exact hright.mpr (hs.other (by rw [hframe]; rfl))
  | undone cachedKeys =>
    cases h
    exact hright.mpr hs
  | block time =>
    simp only [step, eq_ok] at h
    obtain ⟨chain, h, rfl⟩ := h
    exact hright.mpr (hs.other (Recovery.State.block_processed h).authorities)
  | hardfork => exact hardfork_inStep_iff hs h
  | votes top =>
    cases h
    exact hright.mpr hs

theorem inStep_genesis_iff (initKey : PublicKey) :
    InStep k a (genesis initKey) ↔ (k, a) ≠ (initKey, initMinerName) := by
  have hoccurs : Occurs (genesis initKey).chain k a ↔ k = initKey ∧ a = initMinerName := by
    unfold Occurs
    simp only [genesis, Recovery.genesis, find?_emplace, find?_empty]
    by_cases hinit : a = initMinerName
    · subst hinit
      simp [keys, Recovery.initAuthority, initMinerName, minerAccount, nullAccount, tempAccount]
    · -- the other accounts have no keys
      simp only [hinit, and_false, iff_false, not_exists]
      rintro auth ⟨hauth, hk⟩
      simp only [if_false] at hauth
      have hnone : keys auth = [] := by
        split_ifs at hauth
        all_goals
          cases hauth
          rfl
      rw [hnone] at hk
      exact not_mem_nil hk
  have hlisted : ¬ Listed (genesis initKey) k a := by
    unfold Listed
    simp [genesis]
  unfold InStep
  simp only [hlisted, hoccurs, false_iff, ne_eq, Prod.mk.injEq]

/-- **The lookup of accounts by key.** In every run from genesis, and for every key and account: in
all states of the run the pair is in the table if and only if the key is in an authority of the
account, exactly if it is not the key that genesis gives to the first witness and no step of the
run is one that the plugin misses. -/
theorem key_lookup_in_step_iff (compromised : List AccountName) (initKey : PublicKey)
    (es : List Event) (k : PublicKey) (a : AccountName) :
    (∀ pre s, pre <+: es → exec compromised (genesis initKey) pre = some s →
        (Listed s k a ↔ Occurs s.chain k a)) ↔
      (k, a) ≠ (initKey, initMinerName) ∧
        Run.AllSteps (Run.checked (step compromised)) (genesis initKey) es
          fun s e _ => ¬ Misses k a s e := by
  rw [← inStep_genesis_iff]
  refine Run.forall_states_iff.trans (and_congr_right fun h₀ => ?_)
  exact Run.allSteps_congr (InStep k a) (fun _ _ _ => step_inStep_iff)
    (fun _ _ _ hs hstep => (step_inStep_iff hs hstep).mpr) h₀

/-- The authority of one key. -/
def ofKey (key : PublicKey) : Authority := { weightThreshold := 1, keyAuths := [(key, 1)] }

/-- All hardforks, and then an account that is made with a claimed one. -/
def claimedRun : List Event :=
  List.replicate 20 .hardfork ++ [.operation false (.createClaimedAccount initMinerName "alice"
    (ofKey "k1") (ofKey "k1") (ofKey "k1"))]

/-- The table does not have the key of the new account. -/
theorem claimed_account_not_listed :
    ∃ s, exec [] (genesis "k0") claimedRun = some s ∧ Occurs s.chain "k1" "alice" ∧
      ¬ Listed s "k1" "alice" := by
  unfold Occurs
  decide +kernel

end DeltaChain.AccountByKey

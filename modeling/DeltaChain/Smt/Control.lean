import DeltaChain.Ledger.Accounts
import DeltaChain.Smt.Model

/-!
# Who controls a token

An operation should change a token only for the account that controls it, and nothing should change
the parameters of a token once its setup is completed. All operations keep to that but `smt_setup`,
which neither compares the control account nor looks at the phase. `control_respected_iff` says
exactly which runs keep to it: those in which every `smt_setup` that succeeds is one of the control
account, and after the setup one that repeats what was set up.
-/

namespace DeltaChain.Smt

open Lib Protocol Ledger Checked Option Table

variable {hash : RevealedCap → Digest} {s s' s₁ : State} {op : Operation} {id : Nat} {t t' : Token}
  {control : AccountName} {symbol : SymbolNum}

-- # What is to hold

/-- The account that an operation names as the one that controls the token. -/
def Operation.controlAccount? : Operation → Option AccountName
  | .create control .. => some control
  | .setup control .. => some control
  | .capReveal control .. => some control
  | .refund .. => none
  | .setupEmissions control .. => some control
  | .setSetupParameters control .. => some control
  | .setRuntimeParameters control .. => some control

/-- The setup is over. -/
def Token.IsSetUp (t : Token) : Prop := Phase.setupCompleted.index ≤ t.phase.index

/-- What must not change afterwards: the symbol with its precision, the parameters of the setup, and
the emissions. -/
structure Token.SameSetup (t t' : Token) : Prop where
  symbol : t'.liquidSymbol = t.liquidSymbol
  parameters : t'.setupParameters = t.setupParameters
  generation : t'.generation = t.generation
  emissions : t'.emissions = t.emissions

/-- Every token is still there, under the same control account, and unchanged in its setup if that
was over. -/
def Kept (s s' : State) : Prop :=
  ∀ id t, s.tokens.find? id = some t → ∃ t', s'.tokens.find? id = some t' ∧
    t'.controlAccount = t.controlAccount ∧ (t.IsSetUp → t'.IsSetUp ∧ t.SameSetup t')

/-- A token that was changed was changed in the name of its control account. -/
def Authorised (s : State) (op : Operation) (s' : State) : Prop :=
  ∀ id t t', s.tokens.find? id = some t → s'.tokens.find? id = some t' → t' ≠ t →
    op.controlAccount? = some t.controlAccount

/-- The `smt_setup` that `smt_setup_evaluator` should allow. -/
def Respects (s : State) : Operation → Prop
  | .setup control symbol decimalPlaces generation => ∀ id t, s.findBySymbol symbol = some (id, t) →
    control = t.controlAccount ∧
      (t.IsSetUp → decimalPlaces = t.liquidSymbol.decimals ∧ generation = t.generation)
  | _ => True

theorem Token.SameSetup.refl (t : Token) : t.SameSetup t := ⟨rfl, rfl, rfl, rfl⟩

theorem Kept.refl (s : State) : Kept s s := fun _ t ht => ⟨t, ht, rfl, fun h => ⟨h, .refl t⟩⟩

theorem Kept.trans (h : Kept s s₁) (h' : Kept s₁ s') : Kept s s' := by
  intro id t ht
  obtain ⟨t₁, ht₁, hcontrol, hsetup⟩ := h id t ht
  obtain ⟨t', ht', hcontrol', hsetup'⟩ := h' id t₁ ht₁
  refine ⟨t', ht', hcontrol'.trans hcontrol, ?_⟩
  intro hover
  obtain ⟨hover₁, hsame⟩ := hsetup hover
  obtain ⟨hover', hsame'⟩ := hsetup' hover₁
  exact ⟨hover', hsame'.symbol.trans hsame.symbol, hsame'.parameters.trans hsame.parameters,
    hsame'.generation.trans hsame.generation, hsame'.emissions.trans hsame.emissions⟩

-- # Looking up and changing one token

theorem find_of_findBySymbol (h : s.findBySymbol symbol = some (id, t)) :
    s.tokens.find? id = some t :=
  mem_entries_iff.mp (List.mem_of_find?_eq_some h)

variable {f : Token → Token}

theorem modifyToken_tokens (h : s.modifyToken id f = .ok s') :
    s'.tokens = s.tokens.modify id f := by
  simp only [State.modifyToken, eq_ok] at h
  obtain ⟨-, rfl⟩ := h
  rfl

theorem getControlledSmt_ok (h : s.getControlledSmt control symbol = .ok (id, t)) :
    s.tokens.find? id = some t ∧ t.controlAccount = control := by
  simp only [State.getControlledSmt, eq_ok, get_eq_ok] at h
  obtain ⟨⟨id', t'⟩, hfind, hcontrol, heq⟩ := h
  cases heq
  exact ⟨find_of_findBySymbol hfind, hcontrol⟩

theorem kept_modify (htokens : s'.tokens = s.tokens.modify id f) (ht : s.tokens.find? id = some t)
    (hcontrol : (f t).controlAccount = t.controlAccount)
    (hsetup : t.IsSetUp → (f t).IsSetUp ∧ t.SameSetup (f t)) : Kept s s' := by
  intro x tx hx
  rw [htokens, find?_modify]
  split
  · next heq =>
    subst heq
    obtain rfl := mem_unique ht hx
    exact ⟨f t, by rw [ht]; rfl, hcontrol, hsetup⟩
  · exact ⟨tx, hx, rfl, fun h => ⟨h, .refl tx⟩⟩

theorem authorised_modify (htokens : s'.tokens = s.tokens.modify id f)
    (ht : s.tokens.find? id = some t) (hcontrol : op.controlAccount? = some t.controlAccount) :
    Authorised s op s' := by
  intro x tx tx' hx hx' hne
  rw [htokens, find?_modify] at hx'
  split at hx'
  · next heq =>
    subst heq
    obtain rfl := mem_unique ht hx
    exact hcontrol
  · exact absurd (mem_unique hx' hx) hne

-- # The operations

theorem smtCreate_kept {fee : Asset} (h : s.smtCreate control symbol fee = .ok s') :
    Kept s s' ∧ Authorised s op s' := by
  simp only [State.smtCreate, eq_ok, get_eq_ok] at h
  obtain ⟨-, -, -, -, fee', -, -, -, account, -, balance, -, -, db, -, db', -, -, tokens, hinsert,
    rfl⟩ := h
  have hold : ∀ id t, s.tokens.find? id = some t → tokens.find? id = some t := by
    intro id t ht
    rw [find?_insert? hinsert, if_neg]
    · exact ht
    · rintro rfl
      have hnone := find?_eq_none_iff.mpr (insert?_eq_some_iff.mp hinsert).1
      rw [hnone] at ht
      cases ht
  refine ⟨fun id t ht => ⟨t, hold id t ht, rfl, fun h => ⟨h, .refl t⟩⟩, ?_⟩
  intro id t t' ht ht' hne
  exact absurd (mem_unique ht' (hold id t ht)) hne

/-- The caps are not part of the setup. -/
theorem smtCapReveal_kept {cap : RevealedCap}
    (h : s.smtCapReveal hash control symbol cap = .ok s') :
    Kept s s' ∧ Authorised s (.capReveal control symbol cap) s' := by
  simp only [State.smtCapReveal, eq_ok] at h
  obtain ⟨-, ⟨id, t⟩, hfind, -, -, -, h⟩ := h
  obtain ⟨ht, rfl⟩ := getControlledSmt_ok hfind
  have hcap : ∀ {f : Token → Token}, s.modifyToken id f = .ok s' →
      (∀ t, (f t).controlAccount = t.controlAccount) →
      (∀ t : Token, t.IsSetUp → (f t).IsSetUp ∧ t.SameSetup (f t)) →
      Kept s s' ∧ Authorised s (.capReveal t.controlAccount symbol cap) s' := by
    intro f h hcontrol hsetup
    have htokens := modifyToken_tokens h
    exact ⟨kept_modify htokens ht (hcontrol t) (hsetup t), authorised_modify htokens ht rfl⟩
  have hhard : (cap.validate hash t.generation.policy.hardCapDeltaUnitsCommitment >>= fun _ =>
      s.modifyToken id fun t => { t with deltaUnitsHardCap := cap.amount }) = .ok s' →
      Kept s s' ∧ Authorised s (.capReveal t.controlAccount symbol cap) s' := by
    intro h
    obtain ⟨-, -, h⟩ := bind_eq_ok.mp h
    exact hcap h (fun _ => rfl) fun t h => ⟨h, rfl, rfl, rfl, rfl⟩
  split at h
  · split at h
    · exact hcap h (fun _ => rfl) fun t h => ⟨h, rfl, rfl, rfl, rfl⟩
    · split at h
      · cases h
      · exact hhard h
  · exact hhard h

theorem preSetup_kept (hfind : s.commonPreSetupEvaluation symbol control = .ok (id, t))
    (hop : op.controlAccount? = some control) (hcontrol : (f t).controlAccount = t.controlAccount)
    (h : s.modifyToken id f = .ok s') : Kept s s' ∧ Authorised s op s' := by
  simp only [State.commonPreSetupEvaluation, eq_ok] at hfind
  obtain ⟨⟨id', t'⟩, hfind, hphase, heq⟩ := hfind
  cases heq
  obtain ⟨ht, rfl⟩ := getControlledSmt_ok hfind
  have htokens := modifyToken_tokens h
  exact ⟨kept_modify htokens ht hcontrol fun hover => absurd hover (Nat.not_le.mpr hphase),
    authorised_modify htokens ht hop⟩

variable {decimalPlaces : Nat}

theorem fromNai_decimals {nai n : Nat} (h : SymbolNum.fromNai nai decimalPlaces = .ok n) :
    SymbolNum.decimals n = decimalPlaces := by
  simp only [SymbolNum.fromNai, eq_ok] at h
  obtain ⟨-, h⟩ := h
  unfold SymbolNum.decimals
  split_ifs at h
  all_goals
    simp only [eq_ok] at h
    obtain ⟨hplaces, rfl⟩ := h
  · rw [hplaces]
    rfl
  · rw [hplaces]
    rfl
  · rw [hplaces]
    rfl
  · unfold assetMaxDecimals at hplaces
    omega

variable {generation : Generation} {newSymbol : SymbolNum}

/-- **`smt_setup`** changes the token that has the symbol, whoever it is that asks. -/
theorem smtSetup_ok (h : s.smtSetup control symbol decimalPlaces generation = .ok s') :
    ∃ id t newSymbol, s.findBySymbol symbol = some (id, t) ∧
      t.withDecimals decimalPlaces = .ok newSymbol ∧
      s'.tokens = s.tokens.modify id (State.setUp control decimalPlaces generation newSymbol) := by
  simp only [State.smtSetup, eq_ok, get_eq_ok] at h
  obtain ⟨-, ⟨id, t⟩, hfind, newSymbol, hsymbol, s₁, hmodify, rfl⟩ := h
  have htokens := modifyToken_tokens hmodify
  exact ⟨id, t, newSymbol, hfind, hsymbol, htokens⟩

theorem setUp_same :
    State.setUp control t.liquidSymbol.decimals generation newSymbol t =
      { t with phase := .setupCompleted, controlAccount := control, generation := generation } := by
  unfold State.setUp
  rw [if_neg (not_not.mpr rfl)]

theorem setUp_control :
    (State.setUp control decimalPlaces generation newSymbol t).controlAccount = control ∧
      (State.setUp control decimalPlaces generation newSymbol t).generation = generation := by
  unfold State.setUp
  dsimp only
  split
  · exact ⟨rfl, rfl⟩
  · exact ⟨rfl, rfl⟩

theorem smtSetup_kept (h : s.smtSetup control symbol decimalPlaces generation = .ok s')
    (hrespects : Respects s (.setup control symbol decimalPlaces generation)) :
    Kept s s' ∧ Authorised s (.setup control symbol decimalPlaces generation) s' := by
  obtain ⟨id, t, newSymbol, hfind, -, htokens⟩ := smtSetup_ok h
  obtain ⟨rfl, hsame⟩ := hrespects id t hfind
  have ht := find_of_findBySymbol hfind
  refine ⟨kept_modify htokens ht setUp_control.1 ?_, authorised_modify htokens ht rfl⟩
  intro hover
  obtain ⟨rfl, rfl⟩ := hsame hover
  rw [setUp_same]
  exact ⟨le_rfl, rfl, rfl, rfl, rfl⟩

theorem smtSetup_respects (h : s.smtSetup control symbol decimalPlaces generation = .ok s')
    (hkept : Kept s s') : Respects s (.setup control symbol decimalPlaces generation) := by
  obtain ⟨id, t, newSymbol, hfind, hsymbol, htokens⟩ := smtSetup_ok h
  intro id' t₀ hfind'
  obtain ⟨rfl, rfl⟩ := Prod.mk.inj (mem_unique hfind hfind')
  obtain ⟨t', ht', hcontrol, hsetup⟩ := hkept id t (find_of_findBySymbol hfind)
  rw [htokens, find?_modify_self, find_of_findBySymbol hfind] at ht'
  cases ht'
  refine ⟨setUp_control.1.symm.trans hcontrol, ?_⟩
  intro hover
  obtain ⟨-, hsame⟩ := hsetup hover
  refine ⟨?_, setUp_control.2.symm.trans hsame.generation⟩
  by_contra hne
  -- other decimal places give another symbol
  have hne : t.liquidSymbol.decimals ≠ decimalPlaces := Ne.symm hne
  rw [Token.withDecimals, if_pos hne] at hsymbol
  have hnew : (State.setUp control decimalPlaces generation newSymbol t).liquidSymbol = newSymbol := by
    unfold State.setUp
    rw [if_pos hne]
  have heq : newSymbol = t.liquidSymbol := hnew.symm.trans hsame.symbol
  exact hne (heq ▸ fromNai_decimals hsymbol)

/-- **One step.** -/
theorem step_kept_iff (h : step hash s op = .ok s') :
    Kept s s' ∧ Authorised s op s' ↔ Respects s op := by
  simp only [step, bind_eq_ok] at h
  obtain ⟨-, -, h⟩ := h
  cases op with
  | create control symbol fee precision => exact iff_of_true (smtCreate_kept h) trivial
  | setup control symbol decimalPlaces generation =>
    exact ⟨fun hkept => smtSetup_respects h hkept.1, smtSetup_kept h⟩
  | capReveal control symbol cap => exact iff_of_true (smtCapReveal_kept h) trivial
  | refund executor symbol contributor amount =>
    simp only [State.smtRefund, eq_ok] at h
    obtain ⟨-, -, rfl⟩ := h
    refine iff_of_true ⟨.refl s, ?_⟩ trivial
    intro id t t' ht ht' hne
    exact absurd (mem_unique ht' ht) hne
  | setupEmissions control symbol emissions =>
    simp only [State.smtSetupEmissions, bind_eq_ok] at h
    obtain ⟨-, -, ⟨id, t⟩, hfind, -, -, h⟩ := h
    exact iff_of_true (preSetup_kept hfind rfl rfl h) trivial
  | setSetupParameters control symbol params =>
    simp only [State.smtSetSetupParameters, bind_eq_ok] at h
    obtain ⟨-, -, ⟨id, t⟩, hfind, h⟩ := h
    exact iff_of_true (preSetup_kept hfind rfl rfl h) trivial
  | setRuntimeParameters control symbol params =>
    simp only [State.smtSetRuntimeParameters, bind_eq_ok] at h
    obtain ⟨-, -, ⟨id, t⟩, hfind, h⟩ := h
    exact iff_of_true (preSetup_kept hfind rfl rfl h) trivial

/-- **Who controls a token.** In a run of SMT operations from any state: between any two states of
the run every token keeps its control account, and from the end of its setup on its symbol, its
parameters and its emissions, and every operation that changes a token names its control account,
exactly if every `smt_setup` of the run is one of the control account, which after the setup repeats
what was set up. -/
theorem control_respected_iff (hash : RevealedCap → Digest) (s₀ : State) (ops : List Operation) :
    ((∀ pre mid s s', pre ++ mid <+: ops → exec hash s₀ pre = some s → exec hash s mid = some s' →
        Kept s s') ∧
      Run.AllSteps (Run.checked (step hash)) s₀ ops Authorised) ↔
      Run.AllSteps (Run.checked (step hash)) s₀ ops fun s op _ => Respects s op := by
  constructor
  · rintro ⟨hkept, hauthorised⟩ pre op post s s' rfl hs hstep
    have hone : exec hash s [op] = some s' := by
      show (Run.checked (step hash) s op).bind _ = some s'
      rw [hstep]
      rfl
    refine (step_kept_iff (Run.checked_eq_some.mp hstep)).mp
      ⟨?_, hauthorised pre op post s s' rfl hs hstep⟩
    exact hkept pre [op] s s' ⟨post, by rw [List.append_assoc]; rfl⟩ hs hone
  · intro hrespects
    refine ⟨?_, ?_⟩
    · intro pre mid s s' hpre hs hs'
      -- by induction on the operations in between
      induction mid using List.reverseRecOn generalizing s' with
      | nil =>
        cases hs'
        exact .refl s
      | append_singleton mid op ih =>
        obtain ⟨s₁, hs₁, hstep⟩ := Run.exec_concat.mp hs'
        obtain ⟨post, hpost⟩ := hpre
        have hmid : exec hash s₀ (pre ++ mid) = some s₁ := by
          show Run.exec (Run.checked (step hash)) s₀ (pre ++ mid) = some s₁
          rw [Run.exec_append]
          exact bind_eq_some_iff.mpr ⟨s, hs, hs₁⟩
        have hlast := hrespects (pre ++ mid) op post s₁ s' (by rw [← hpost]; simp) hmid hstep
        refine (ih s₁ ⟨op :: post, by rw [← hpost]; simp⟩ hs₁).trans ?_
        exact ((step_kept_iff (Run.checked_eq_some.mp hstep)).mpr hlast).1
    · intro pre op post s s' heq hs hstep
      exact ((step_kept_iff (Run.checked_eq_some.mp hstep)).mpr
        (hrespects pre op post s s' heq hs hstep)).2

-- # A token taken over

/-- A hash for the examples. -/
def plainHash (cap : RevealedCap) : Digest := cap.amount.toNat + cap.nonce

/-- A cap that is not hidden. -/
def openCap : CapCommitment := ⟨10000, 10000, 10000⟩

def plainGeneration : Generation where
  maxSupply := 1000000
  policy :=
    { preSoftCapUnit := ⟨[("alice", 1)], [("$from", 1)]⟩
      minDeltaUnitsCommitment := openCap
      hardCapDeltaUnitsCommitment := openCap
      softCapPercent := percent100
      minUnitRatio := 1
      maxUnitRatio := 1 }
  generationBeginTime := genesisTime + 1
  generationEndTime := genesisTime + 2
  announcedLaunchTime := genesisTime + 3
  launchExpirationTime := genesisTime + 4

/-- After hardfork 21, with two more accounts, of which the first can pay the fee. -/
def twoAccounts : State where
  db := { Database.genesis 0 with
    accounts := ((Database.genesis 0).accounts.emplace "alice"
      { dbdBalance := 1000000, dbdSecondsLastUpdate := genesisTime }).emplace "mallory" {}
    hardforks := { processedHardforks := List.replicate 22 genesisTime, lastHardfork := 21 } }

/-- The symbol 10000000, with three and with four decimal places. -/
def tokenSymbol (decimalPlaces : Nat) : SymbolNum := 10000000 * 32 + 16 + decimalPlaces

/-- `alice` creates a token and completes its setup. Then `mallory` sets it up again: the token is now
controlled by `mallory`, and has other decimal places. -/
theorem setup_takes_over :
    (exec plainHash twoAccounts
      [.create "alice" (tokenSymbol 3) ⟨1000000, .dbd⟩ 3,
        .setup "alice" (tokenSymbol 3) 3 plainGeneration]).map
        (fun s => (s.tokens.find? 0).map fun t => (t.controlAccount, t.phase, t.liquidSymbol)) =
      some (some ("alice", .setupCompleted, tokenSymbol 3)) ∧
    (exec plainHash twoAccounts
      [.create "alice" (tokenSymbol 3) ⟨1000000, .dbd⟩ 3,
        .setup "alice" (tokenSymbol 3) 3 plainGeneration,
        .setup "mallory" (tokenSymbol 3) 4 plainGeneration]).map
        (fun s => (s.tokens.find? 0).map fun t => (t.controlAccount, t.phase, t.liquidSymbol)) =
      some (some ("mallory", .setupCompleted, tokenSymbol 4)) := by
  decide +kernel

end DeltaChain.Smt

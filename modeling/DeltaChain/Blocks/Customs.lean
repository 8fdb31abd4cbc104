import DeltaChain.Blocks.Pending
import DeltaChain.Signing.SignState

/-!
# The witness plugin and transactions that fail

The witness plugin allows every account one custom operation a block. It keeps the accounts in a set
of its own (`_dupe_customs`), which it writes after each operation and clears with each block. What a
transaction changes in the state is undone if it throws; what its operations have put into the set is
not. `push_after_failed_iff` says which transactions notice.
-/

namespace DeltaChain.Blocks

open Lib Protocol Fork Chainbase List Option Pool
open Signing (flatSet mem_flatSet)

-- # The plugin

/-- Operations. The plugin looks at the accounts of the custom ones. -/
inductive NodeOp (ν : Type) where
  | custom (requiredAuths : List AccountName) (op : ν)
  | customJson (requiredAuths requiredPostingAuths : List AccountName) (op : ν)
  | customBinary (requiredOwnerAuths requiredActiveAuths requiredPostingAuths : List AccountName)
      (op : ν)
  | other (op : ν)
deriving DecidableEq

/-- `operation_get_impacted_accounts`, for the operations that the plugin asks about. -/
def NodeOp.customAccounts {ν : Type} : NodeOp ν → List AccountName
  | .custom auths _ => flatSet auths
  | .customJson auths postingAuths _ => flatSet (postingAuths ++ auths)
  | .customBinary ownerAuths activeAuths postingAuths _ =>
    flatSet (postingAuths ++ (activeAuths ++ ownerAuths))
  | .other _ => []

/-- The loop of `on_post_apply_operation`: the set, and whether no assertion failed. -/
def noteCustoms : List AccountName → List AccountName → List AccountName × Bool
  | dupes, [] => (dupes, true)
  | dupes, a :: l => if a ∈ dupes then (dupes, false) else noteCustoms (a :: dupes) l

def onPostApplyOperation {ν : Type} (producing : Bool) (dupes : List AccountName) (op : NodeOp ν) :
    List AccountName × Bool :=
  if producing then noteCustoms dupes op.customAccounts else (dupes, true)

/-- The rules of a chain, whose operations are applied one by one. -/
structure NodeRules (ν ω : Type) where
  rules : Rules (NodeOp ν) ω
  /-- One operation, with the handlers that keep no memory. -/
  evaluateOperation : Env → ω → NodeOp ν → Option ω
  /-- The handlers after a transaction. -/
  finishTransaction : Env → ω → Transaction (NodeOp ν) → Option ω

variable {ν ω : Type} (P : NodeRules ν ω)

namespace NodeRules

/-- The loop of `_apply_transaction` over the operations: the set of the plugin, and the state
unless something has thrown. -/
def applyOperations (env : Env) :
    List AccountName → ω → List (NodeOp ν) → List AccountName × Option ω
  | dupes, w, [] => (dupes, some w)
  | dupes, w, op :: ops =>
    match P.evaluateOperation env w op with
    | none => (dupes, none)
    | some w =>
      match onPostApplyOperation env.pending dupes op with
      | (dupes, false) => (dupes, none)
      | (dupes, true) => applyOperations env dupes w ops

/-- The operations of a transaction, for a given set. -/
def evaluate (dupes : List AccountName) (env : Env) (w : ω) (tx : Transaction (NodeOp ν)) : Option ω :=
  (P.applyOperations env dupes w tx.operations).2.bind (P.finishTransaction env · tx)

/-- The rules for a given set. -/
def rulesWith (dupes : List AccountName) : Rules (NodeOp ν) ω :=
  { P.rules with evaluate := P.evaluate dupes }

end NodeRules

/-- A node with the witness plugin. -/
structure Node (ν ω : Type) where
  pool : Pool (NodeOp ν) ω
  dupeCustoms : List AccountName

/-- What is checked before the operations of a transaction. -/
def Admitted (R : Rules (NodeOp ν) ω) (pending : Bool) (headBlockNum : Nat) (s : State ω)
    (tx : SignedTransaction (NodeOp ν)) : Prop :=
  R.validate tx.toTransaction = true ∧ s.transactions.find? (R.transactionId tx.toTransaction) = none ∧
    R.authorized (s.env pending headBlockNum) s.world tx = true ∧
    (0 < headBlockNum → Timely R s tx.toTransaction)

instance (R : Rules (NodeOp ν) ω) (pending : Bool) (headBlockNum : Nat) (s : State ω)
    (tx : SignedTransaction (NodeOp ν)) : Decidable (Admitted R pending headBlockNum s tx) :=
  inferInstanceAs (Decidable (_ ∧ _ ∧ _ ∧ _))

namespace Node

/-- What the operations of a pushed transaction see. -/
def env (n : Node ν ω) : Env := n.pool.visible.rest.env true n.pool.visible.headBlockNum

/-- The transaction comes to its operations. -/
def Reaches (n : Node ν ω) (tx : SignedTransaction (NodeOp ν)) : Prop :=
  P.rules.packSize tx ≤ P.rules.maximumBlockSize n.pool.visible.rest.world - 256 ∧
    Admitted P.rules true n.pool.visible.headBlockNum n.pool.visible.rest tx

instance (n : Node ν ω) (tx : SignedTransaction (NodeOp ν)) : Decidable (n.Reaches P tx) :=
  inferInstanceAs (Decidable (_ ∧ _))

/-- `_dupe_customs` after a transaction was pushed, whether it was accepted or not. -/
def dupesAfter (n : Node ν ω) (tx : SignedTransaction (NodeOp ν)) : List AccountName :=
  if n.Reaches P tx then
    (P.applyOperations n.env n.dupeCustoms n.pool.visible.rest.world tx.operations).1
  else n.dupeCustoms

/-- `push_transaction`, and whether it returns. -/
def pushTransaction (n : Node ν ω) (tx : SignedTransaction (NodeOp ν)) : Node ν ω × Bool :=
  let r := n.pool.pushTransaction (P.rulesWith n.dupeCustoms) tx
  (⟨r.1, n.dupesAfter P tx⟩, r.2)

end Node

-- # The set

variable {P} {dupes dupes' : List AccountName} {env : Env}

/-- The loop goes through for accounts that are all different and not in the set. -/
theorem noteCustoms_iff (dupes l : List AccountName) :
    (noteCustoms dupes l).2 = true ↔ l.Nodup ∧ ∀ a ∈ l, a ∉ dupes := by
  induction l generalizing dupes with
  | nil => simp [noteCustoms]
  | cons a l ih =>
    unfold noteCustoms
    split
    · next ha => simp [ha]
    · next ha =>
      rw [ih, nodup_cons]
      simp only [mem_cons, not_or, forall_eq_or_imp]
      constructor
      · rintro ⟨hnodup, hnew⟩
        exact ⟨⟨fun hmem => (hnew a hmem).1 rfl, hnodup⟩, ha, fun b hb => (hnew b hb).2⟩
      · rintro ⟨⟨hmem, hnodup⟩, -, hnew⟩
        exact ⟨hnodup, fun b hb => ⟨fun heq => hmem (heq ▸ hb), hnew b hb⟩⟩

theorem mem_noteCustoms {l : List AccountName} (h : (noteCustoms dupes l).2 = true) (a : AccountName) :
    a ∈ (noteCustoms dupes l).1 ↔ a ∈ dupes ∨ a ∈ l := by
  induction l generalizing dupes with
  | nil => simp [noteCustoms]
  | cons b l ih =>
    unfold noteCustoms at h ⊢
    split at h
    · cases h
    · next hb =>
      rw [if_neg hb, ih h, mem_cons, mem_cons]
      tauto

/-- Accounts that were not in the set were put in front. -/
def Grows (dupes dupes' : List AccountName) : Prop :=
  ∃ added, dupes' = added ++ dupes ∧ ∀ a ∈ added, a ∉ dupes

protected theorem Grows.refl (dupes : List AccountName) : Grows dupes dupes :=
  ⟨[], rfl, fun _ ha => absurd ha not_mem_nil⟩

theorem Grows.trans {dupes'' : List AccountName} (h : Grows dupes dupes') (h' : Grows dupes' dupes'') :
    Grows dupes dupes'' := by
  obtain ⟨added, rfl, hnew⟩ := h
  obtain ⟨later, rfl, hlater⟩ := h'
  refine ⟨later ++ added, (append_assoc ..).symm, fun a ha => ?_⟩
  rcases mem_append.mp ha with ha | ha
  · exact fun hmem => hlater a ha (mem_append_right added hmem)
  · exact hnew a ha

theorem noteCustoms_grows (dupes l : List AccountName) : Grows dupes (noteCustoms dupes l).1 := by
  induction l generalizing dupes with
  | nil => exact .refl dupes
  | cons b l ih =>
    unfold noteCustoms
    split
    · exact .refl dupes
    · next hb =>
      have hone : Grows dupes (b :: dupes) := ⟨[b], rfl, fun a ha => mem_singleton.mp ha ▸ hb⟩
      exact hone.trans (ih (b :: dupes))

/-- The accounts of the custom operations among some operations. -/
def customAccounts (ops : List (NodeOp ν)) : List AccountName := ops.flatMap NodeOp.customAccounts

/-- The operations without the plugin. -/
def evaluateAll (P : NodeRules ν ω) (env : Env) : ω → List (NodeOp ν) → Option ω :=
  List.foldlM (P.evaluateOperation env)

/-- **What the plugin lets pass**: custom operations of accounts that are all different, and not in
the set. -/
theorem applyOperations_iff (henv : env.pending = true) (dupes : List AccountName) (w w' : ω)
    (ops : List (NodeOp ν)) :
    (P.applyOperations env dupes w ops).2 = some w' ↔
      evaluateAll P env w ops = some w' ∧ (customAccounts ops).Nodup ∧
        ∀ a ∈ customAccounts ops, a ∉ dupes := by
  induction ops generalizing dupes w with
  | nil => simp [NodeRules.applyOperations, evaluateAll, customAccounts]
  | cons op ops ih =>
    have hcustoms : customAccounts (op :: ops) = op.customAccounts ++ customAccounts ops := rfl
    unfold NodeRules.applyOperations
    simp only [evaluateAll, foldlM_cons, onPostApplyOperation, henv, if_true]
    cases hop : P.evaluateOperation env w op with
    | none => simp
    | some w₁ =>
      have hnote := noteCustoms_iff dupes op.customAccounts
      rw [hcustoms, nodup_append']
      rcases hres : noteCustoms dupes op.customAccounts with ⟨dupes₁, _ | _⟩
      · -- an account of the operation stands twice, or is in the set
        rw [hres] at hnote
        have hfails := mt hnote.mpr Bool.false_ne_true
        simp only [reduceCtorEq, false_iff, mem_append]
        rintro ⟨-, ⟨hnodup, -, -⟩, hnew⟩
        exact hfails ⟨hnodup, fun a ha => hnew a (Or.inl ha)⟩
      · have hmem : ∀ a, a ∈ (noteCustoms dupes op.customAccounts).1 ↔ _ :=
          mem_noteCustoms (by rw [hres])
        rw [hres] at hnote hmem
        obtain ⟨hnodup, hnew⟩ := hnote.mp rfl
        show (P.applyOperations env dupes₁ w₁ ops).2 = some w' ↔ evaluateAll P env w₁ ops = some w' ∧ _
        rw [ih]
        refine and_congr_right fun _ => ⟨?_, ?_⟩
        · rintro ⟨hnodup₁, hnew₁⟩
          have hout : ∀ a ∈ customAccounts ops, a ∉ dupes ∧ a ∉ op.customAccounts := fun a ha =>
            not_or.mp fun h => hnew₁ a ha ((hmem a).mpr h)
          refine ⟨⟨hnodup, hnodup₁, fun a ha h => (hout a h).2 ha⟩, fun a ha => ?_⟩
          exact (mem_append.mp ha).elim (hnew a) fun ha => (hout a ha).1
        · rintro ⟨⟨-, hnodup₁, hdisjoint⟩, hnew₁⟩
          refine ⟨hnodup₁, fun a ha h => ?_⟩
          rcases (hmem a).mp h with h | h
          · exact hnew₁ a (mem_append_right _ ha) h
          · exact hdisjoint h ha

/-- Operations only add to the set. -/
theorem applyOperations_grows (env : Env) (dupes : List AccountName) (w : ω)
    (ops : List (NodeOp ν)) : Grows dupes (P.applyOperations env dupes w ops).1 := by
  induction ops generalizing dupes w with
  | nil => exact .refl dupes
  | cons op ops ih =>
    unfold NodeRules.applyOperations
    split
    · exact .refl dupes
    · next w₁ _ =>
      have hpost : Grows dupes (onPostApplyOperation env.pending dupes op).1 := by
        unfold onPostApplyOperation
        split
        · exact noteCustoms_grows dupes op.customAccounts
        · exact .refl dupes
      split
      · next dupes₁ hres =>
        rw [hres] at hpost
        exact hpost
      · next dupes₁ hres =>
        rw [hres] at hpost
        exact hpost.trans (ih dupes₁ w₁)

-- # What a push does

namespace Pool

variable {Op : Type} {R : Rules Op ω} {p q : Pool Op ω} {tx : SignedTransaction Op}

theorem openSession_pendingSession (p : Pool Op ω) : p.openSession.pendingSession = true := by
  unfold openSession
  split
  · assumption
  · rfl

theorem openSession_eq (h : p.pendingSession = true) : p.openSession = p := if_pos h

theorem openSession_visible (p : Pool Op ω) : p.openSession.visible = p.visible := by
  unfold openSession
  split <;> rfl

theorem visible_congr (h : p.openSession = q.openSession) : p.visible = q.visible := by
  rw [← openSession_visible p, h, openSession_visible]

/-- The state that `push_transaction` would leave. -/
def attempt (R : Rules Op ω) (s : ChainState (State ω)) (tx : SignedTransaction Op) :
    Option (State ω) :=
  if R.packSize tx ≤ R.maximumBlockSize s.rest.world - 256 then
    applyTransaction R true s.headBlockNum s.rest tx
  else none

/-- The pool with an open session, after a transaction with the given result. -/
def pushed (p : Pool Op ω) (tx : SignedTransaction Op) : Option (State ω) → Pool Op ω
  | none => p
  | some s =>
    { p.withChain (p.db.chain.startUndoSession.set { p.visible with rest := s }).squash with
      pendingTx := p.pendingTx ++ [tx] }

/-- What a push does is determined by the state that can be read, up to the session that a
transaction opens. -/
theorem pushTransaction_eq (R : Rules Op ω) (p : Pool Op ω) (tx : SignedTransaction Op) :
    (p.pushTransaction R tx).2 = (attempt R p.visible tx).isSome ∧
    (p.pushTransaction R tx).1.openSession = p.openSession.pushed tx (attempt R p.visible tx) := by
  have hvisible : p.openSession.db.chain.startUndoSession.cur = p.visible := openSession_visible p
  unfold Pool.pushTransaction attempt
  split
  · unfold Pool.pushTx
    simp only [hvisible]
    cases applyTransaction R true p.visible.headBlockNum p.visible.rest tx with
    | none =>
      refine ⟨rfl, ?_⟩
      have hundo : p.openSession.db.chain.startUndoSession.undo = p.openSession.db.chain :=
        UndoStack.undo_set_startUndoSession p.openSession.db.chain p.openSession.db.chain.cur
      simp only [hundo]
      exact openSession_eq (openSession_pendingSession p)
    | some s =>
      refine ⟨rfl, (openSession_eq ?_).trans ?_⟩
      · exact openSession_pendingSession p
      · simp only [pushed, openSession_visible]
  · exact ⟨rfl, rfl⟩

theorem openSession_of_refused (h : (p.pushTransaction R tx).2 = false) :
    (p.pushTransaction R tx).1.openSession = p.openSession := by
  obtain ⟨hresult, hpool⟩ := pushTransaction_eq R p tx
  rw [h, eq_comm, isSome_eq_false_iff, isNone_iff_eq_none] at hresult
  rw [hpool, hresult]
  rfl

end Pool

-- # Two pushes

variable {n n' : Node ν ω} {s t : SignedTransaction (NodeOp ν)}

/-- **Whether a transaction passes** depends on the set through the accounts of its custom
operations only. -/
theorem attempt_iff (cs : ChainState (State ω)) (tx : SignedTransaction (NodeOp ν))
    (s' : State ω) (hsub : dupes ⊆ dupes') :
    Pool.attempt (P.rulesWith dupes') cs tx = some s' ↔
      Pool.attempt (P.rulesWith dupes) cs tx = some s' ∧
        ∀ a ∈ customAccounts tx.operations, a ∉ dupes' := by
  have hevaluate : ∀ w', P.evaluate dupes' (cs.rest.env true cs.headBlockNum) cs.rest.world
        tx.toTransaction = some w' ↔
      P.evaluate dupes (cs.rest.env true cs.headBlockNum) cs.rest.world tx.toTransaction = some w' ∧
        ∀ a ∈ customAccounts tx.operations, a ∉ dupes' := by
    intro w'
    have henv : (cs.rest.env true cs.headBlockNum).pending = true := rfl
    simp only [NodeRules.evaluate, bind_eq_some_iff, applyOperations_iff henv]
    constructor
    · rintro ⟨w, ⟨hall, hnodup, hnew⟩, hfinish⟩
      exact ⟨⟨w, ⟨hall, hnodup, fun a ha h => hnew a ha (hsub h)⟩, hfinish⟩, hnew⟩
    · rintro ⟨⟨w, ⟨hall, hnodup, -⟩, hfinish⟩, hnew⟩
      exact ⟨w, ⟨hall, hnodup, hnew⟩, hfinish⟩
  have hattempt : ∀ d, Pool.attempt (P.rulesWith d) cs tx =
      if P.rules.packSize tx ≤ P.rules.maximumBlockSize cs.rest.world - 256 then
        applyTransaction (P.rulesWith d) true cs.headBlockNum cs.rest tx else none := fun _ => rfl
  rw [hattempt, hattempt]
  split
  · simp only [applyTransaction, bind_eq_bind, bind_eq_some_iff, Option.pure_def,
      Option.some.injEq, guard_eq_some']
    simp only [NodeRules.rulesWith, hevaluate]
    constructor
    · rintro ⟨-, hvalid, -, hnew, -, hauth, -, htimely, w, ⟨heval, hcustoms⟩, rfl⟩
      exact ⟨⟨(), hvalid, (), hnew, (), hauth, (), htimely, w, heval, rfl⟩, hcustoms⟩
    · rintro ⟨⟨-, hvalid, -, hnew, -, hauth, -, htimely, w, heval, rfl⟩, hcustoms⟩
      exact ⟨(), hvalid, (), hnew, (), hauth, (), htimely, w, ⟨heval, hcustoms⟩, rfl⟩
  · simp

/-- A transaction leaves an account in the set. -/
def Leaves (P : NodeRules ν ω) (n : Node ν ω) (tx : SignedTransaction (NodeOp ν))
    (a : AccountName) : Prop :=
  a ∈ n.dupesAfter P tx ∧ a ∉ n.dupeCustoms

/-- Two pushes end the same way: both accepted or both refused, with the same database and the same
pending transactions, up to the session that the first transaction opens. -/
structure SameOutcome (r r' : Node ν ω × Bool) : Prop where
  accepted : r'.2 = r.2
  pool : r'.1.pool.openSession = r.1.pool.openSession

theorem dupesAfter_grows (n : Node ν ω) (tx : SignedTransaction (NodeOp ν)) :
    Grows n.dupeCustoms (n.dupesAfter P tx) := by
  unfold Node.dupesAfter
  split
  · exact applyOperations_grows ..
  · exact .refl _

theorem dupesAfter_eq (h : ∀ a, ¬ Leaves P n s a) : n.dupesAfter P s = n.dupeCustoms := by
  obtain ⟨added, heq, hnew⟩ := dupesAfter_grows (P := P) n s
  cases added with
  | nil => exact heq
  | cons a added =>
    have ha := mem_cons_self (a := a) (l := added)
    refine absurd ⟨?_, hnew a ha⟩ (h a)
    rw [heq]
    exact mem_append_left _ ha

theorem dupesAfter_nil (n : Node ν ω) (h : t.operations = []) :
    n.dupesAfter P t = n.dupeCustoms := by
  unfold Node.dupesAfter
  rw [h]
  exact ite_self n.dupeCustoms

theorem new_of_accepted (h : (n.pushTransaction P t).2 = true) (a : AccountName)
    (ha : a ∈ customAccounts t.operations) : a ∉ n.dupeCustoms := by
  have hresult : (n.pushTransaction P t).2 = _ :=
    (pushTransaction_eq (P.rulesWith n.dupeCustoms) n.pool t).1
  rw [h, eq_comm, isSome_iff_exists] at hresult
  obtain ⟨s', hs'⟩ := hresult
  exact ((attempt_iff n.pool.visible t s' (List.Subset.refl n.dupeCustoms)).mp hs').2 a ha

/-- **One push**, from two nodes that read the same state, one with more accounts in its set. -/
theorem sameOutcome_iff (hpool : n'.pool.openSession = n.pool.openSession)
    (hsub : n.dupeCustoms ⊆ n'.dupeCustoms) :
    SameOutcome (n.pushTransaction P t) (n'.pushTransaction P t) ↔
      ¬ ((n.pushTransaction P t).2 = true ∧
        ∃ a ∈ customAccounts t.operations, a ∈ n'.dupeCustoms) := by
  obtain ⟨hresult, hafter⟩ :=
    pushTransaction_eq (P.rulesWith n.dupeCustoms) n.pool t
  obtain ⟨hresult', hafter'⟩ :=
    pushTransaction_eq (P.rulesWith n'.dupeCustoms) n'.pool t
  rw [visible_congr hpool] at hresult' hafter'
  have hiff := fun s' => attempt_iff (P := P) n.pool.visible t s' hsub
  have hbool : (n.pushTransaction P t).2 = _ := hresult
  have hbool' : (n'.pushTransaction P t).2 = _ := hresult'
  rw [hbool]
  constructor
  · rintro ⟨haccepted, -⟩ ⟨hsome, a, ha, hmem⟩
    rw [hbool', hbool, hsome] at haccepted
    obtain ⟨s', hs'⟩ := isSome_iff_exists.mp haccepted
    exact ((hiff s').mp hs').2 a ha hmem
  · intro h
    have hsame : Pool.attempt (P.rulesWith n'.dupeCustoms) n.pool.visible t =
        Pool.attempt (P.rulesWith n.dupeCustoms) n.pool.visible t := by
      ext s'
      rw [hiff s', and_iff_left_iff_imp]
      intro hs' a ha hmem
      exact h ⟨by rw [hs']; rfl, a, ha, hmem⟩
    refine ⟨by rw [hbool', hbool, hsame], ?_⟩
    show (n'.pool.pushTransaction (P.rulesWith n'.dupeCustoms) t).1.openSession =
      (n.pool.pushTransaction (P.rulesWith n.dupeCustoms) t).1.openSession
    rw [hafter', hafter, hsame, hpool]

/-- **A transaction that is refused stays without effect** on another one pushed after it, unless
that one would be accepted and has a custom operation of an account that the first one has left in
the set of the plugin. Nothing changes at all if it leaves no account there, and only then. -/
theorem push_after_failed_iff (P : NodeRules ν ω) (n : Node ν ω)
    (s : SignedTransaction (NodeOp ν)) (hthrows : (n.pushTransaction P s).2 = false) :
    (∀ t, SameOutcome (n.pushTransaction P t) ((n.pushTransaction P s).1.pushTransaction P t) ↔
      ¬ ((n.pushTransaction P t).2 = true ∧
        ∃ a ∈ customAccounts t.operations, Leaves P n s a)) ∧
    ((∀ t, SameOutcome (n.pushTransaction P t) ((n.pushTransaction P s).1.pushTransaction P t) ∧
        ∀ a, a ∈ ((n.pushTransaction P s).1.pushTransaction P t).1.dupeCustoms ↔
          a ∈ (n.pushTransaction P t).1.dupeCustoms) ↔
      ∀ a, ¬ Leaves P n s a) := by
  have hpool : (n.pushTransaction P s).1.pool.openSession = n.pool.openSession :=
    openSession_of_refused hthrows
  obtain ⟨added, hgrows, hnew⟩ := dupesAfter_grows (P := P) n s
  have hsub : n.dupeCustoms ⊆ (n.pushTransaction P s).1.dupeCustoms := by
    show n.dupeCustoms ⊆ n.dupesAfter P s
    rw [hgrows]
    exact subset_append_right added n.dupeCustoms
  have hfirst : ∀ t, SameOutcome (n.pushTransaction P t)
      ((n.pushTransaction P s).1.pushTransaction P t) ↔ ¬ ((n.pushTransaction P t).2 = true ∧
        ∃ a ∈ customAccounts t.operations, Leaves P n s a) := by
    intro t
    rw [sameOutcome_iff hpool hsub]
    refine not_congr (and_congr_right fun haccepted => ?_)
    refine exists_congr fun a => and_congr_right fun ha => ?_
    exact (and_iff_left (new_of_accepted haccepted a ha)).symm
  refine ⟨hfirst, fun h a hleaves => ?_, fun h t => ?_⟩
  · -- a transaction without operations shows what is in the set
    have hset : ∀ m : Node ν ω, (m.pushTransaction P { s with operations := [] }).1.dupeCustoms =
        m.dupeCustoms := fun m => dupesAfter_nil m rfl
    have hsame := (h { s with operations := [] }).2 a
    rw [hset, hset] at hsame
    exact hleaves.2 (hsame.mp hleaves.1)
  · refine ⟨(hfirst t).mpr fun ⟨_, a, _, hleaves⟩ => h a hleaves, fun a => ?_⟩
    have hset : (n.pushTransaction P s).1.dupesAfter P t = n.dupesAfter P t := by
      have hvisible := visible_congr hpool
      have hdupes : (n.pushTransaction P s).1.dupeCustoms = n.dupeCustoms := dupesAfter_eq h
      refine if_congr ?_ ?_ hdupes
      · unfold Node.Reaches
        rw [hvisible]
      · rw [Node.env, hvisible, hdupes]
        rfl
    exact iff_of_eq (congrArg (a ∈ ·) hset)

/-- Operations do nothing, or fail. -/
def sampleNodeRules : NodeRules Bool Unit where
  rules :=
    { sampleRules with
      contents := fun n => { sampleRules.contents n with transactions := [] }
      transactionId := fun tx => tx.operations.length
      merkleRoot := fun _ => 0
      packSize := fun _ => 100
      validate := fun tx => decide (tx.operations ≠ [])
      authorized := fun _ _ _ => true
      evaluate := fun _ w _ => some w
      finish := fun _ _ w => some (0, w) }
  evaluateOperation _ w
    | .other false => none
    | _ => some w
  finishTransaction _ w _ := some w

def nodeTx (ops : List (NodeOp Bool)) : SignedTransaction (NodeOp Bool) where
  refBlockNum := 0
  refBlockPrefix := 0
  expiration := 20
  operations := ops
  signatures := []

/-- An operation of one account. -/
def aliceJson : NodeOp Bool := .customJson [] ["alice"] true

/-- A transaction that fails after a custom operation. -/
def failingTx : SignedTransaction (NodeOp Bool) := nodeTx [aliceJson, .other false]

/-- It is refused, and so is a transaction after it that would have been accepted. -/
theorem failed_push_blocks_account : ∃ db, Fork.Database.openOn sampleStart [] = some db ∧
    let n : Node Bool Unit := ⟨⟨db, [], false⟩, []⟩
    (n.pushTransaction sampleNodeRules failingTx).2 = false ∧
    (n.pushTransaction sampleNodeRules (nodeTx [aliceJson])).2 = true ∧
    ((n.pushTransaction sampleNodeRules failingTx).1.pushTransaction sampleNodeRules
      (nodeTx [aliceJson])).2 = false := by
  exact ⟨_, rfl, by decide +kernel⟩

/-- Another account is free to act after the same transaction. -/
theorem push_after_failed_other : ∃ db, Fork.Database.openOn sampleStart [] = some db ∧
    let n : Node Bool Unit := ⟨⟨db, [], false⟩, []⟩
    let t := nodeTx [.custom ["bob"] true]
    (n.pushTransaction sampleNodeRules failingTx).2 = false ∧
    (n.pushTransaction sampleNodeRules t).2 = true ∧
    SameOutcome (n.pushTransaction sampleNodeRules t)
      ((n.pushTransaction sampleNodeRules failingTx).1.pushTransaction sampleNodeRules t) := by
  refine ⟨_, rfl, by decide +kernel, by decide +kernel, ?_⟩
  refine ((push_after_failed_iff sampleNodeRules _ failingTx (by decide +kernel)).1 _).mpr ?_
  rintro ⟨-, hleaves⟩
  revert hleaves
  unfold Leaves
  decide +kernel

end DeltaChain.Blocks

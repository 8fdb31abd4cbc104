import DeltaChain.Lib.Run

/-!
# Computations with assertions

`Checked α` is a computation that either returns or stops with the message of a
failed assertion. The rules `eq_ok` take a successful computation apart, and
`foldlM_induct` is the invariant rule for a loop in which every round may fail. `Le` says
that one computation does what another one does, or fails; `Avoids` that a computation does not
stop with a given message, and `AgreeUnless` that two computations are the same unless the first one
does.
-/

namespace DeltaChain.Lib

open List

/-- A result, or the message of the assertion that failed. -/
abbrev Checked := Except String

namespace Checked

variable {α β S : Type}

/-- Stops with the message unless `p` holds. -/
def assert (p : Prop) [Decidable p] (msg : String) : Checked Unit :=
  if p then .ok () else .error msg

/-- A check that is only made under a condition. -/
def whenever (p : Prop) [Decidable p] (check : Checked Unit) : Checked Unit :=
  if p then check else .ok ()

/-- The value of a lookup, or the message. -/
def get (o : Option α) (msg : String) : Checked α :=
  match o with
  | some a => .ok a
  | none => .error msg

variable {x : Checked α} {f : α → Checked β} {body : S → α → Checked S} {l : List α} {bs : List β}
  {p : Prop} {a : α} {u : Unit} {b : β}

@[simp] theorem bind_eq_ok : (x >>= f) = .ok b ↔ ∃ a, x = .ok a ∧ f a = .ok b := by
  cases x with
  | error e => simp [bind, Except.bind]
  | ok a => simp [bind, Except.bind]

theorem ok_bind (a : α) (f : α → Checked β) : ((.ok a : Checked α) >>= f) = f a := rfl

@[simp] theorem pure_eq_ok {a b : α} : (pure a : Checked α) = .ok b ↔ a = b := by
  simp [pure, Except.pure]

@[simp] theorem assert_eq_ok [Decidable p] {msg : String} : assert p msg = .ok u ↔ p := by
  unfold assert
  split <;> simp_all

/-- What takes a successful computation apart, as one set of rewrite rules. -/
theorem eq_ok :
    (∀ {α β : Type} {x : Checked α} {f : α → Checked β} {b : β},
      (x >>= f) = .ok b ↔ ∃ a, x = .ok a ∧ f a = .ok b) ∧
    (∀ {α : Type} {a b : α}, (pure a : Checked α) = .ok b ↔ a = b) ∧
    (∀ {p : Prop} [Decidable p] {msg : String} {u : Unit}, assert p msg = .ok u ↔ p) ∧
    ∀ {p : Prop}, (∃ _ : Unit, p) ↔ p :=
  ⟨bind_eq_ok, pure_eq_ok, assert_eq_ok, exists_const _⟩

@[simp] theorem get_eq_ok {o : Option α} {msg : String} : get o msg = .ok a ↔ o = some a := by
  cases o <;> simp [get]

@[simp] theorem whenever_eq_ok [Decidable p] {check : Checked Unit} :
    whenever p check = .ok u ↔ (p → check = .ok ()) := by
  unfold whenever
  split <;> simp_all

instance {P : α → Prop} [DecidablePred P] : Decidable (∃ a, x = .ok a ∧ P a) :=
  match x with
  | .error _ => isFalse (by simp)
  | .ok a => decidable_of_iff (P a) (by simp)

instance : Decidable (∃ a, x = .ok a) := decidable_of_iff (∃ a, x = .ok a ∧ True) (by simp)

instance {msg : String} : Decidable (x = .error msg) :=
  match x with
  | .error e => decidable_of_iff (e = msg) (by simp)
  | .ok _ => isFalse (by simp)

theorem toOption_eq_some : x.toOption = some a ↔ x = .ok a := by
  cases x <;> simp [Except.toOption]

theorem mapM_eq_ok : l.mapM f = .ok bs ↔ List.Forall₂ (fun a b => f a = .ok b) l bs := by
  induction l generalizing bs with
  | nil =>
    rw [mapM_nil, pure_eq_ok, forall₂_nil_left_iff]
    exact eq_comm
  | cons a l ih =>
    simp only [mapM_cons, bind_eq_ok, pure_eq_ok, ih]
    constructor
    · rintro ⟨b, hb, cs, hcs, rfl⟩
      exact .cons hb hcs
    · intro h
      cases h with
      | cons hb hcs => exact ⟨_, hb, _, hcs, rfl⟩

theorem exists_of_mapM_eq_ok (h : l.mapM f = .ok bs) (ha : a ∈ l) : ∃ b ∈ bs, f a = .ok b := by
  have hall := mapM_eq_ok.mp h
  clear h
  induction hall with
  | nil => cases ha
  | cons hb _ ih =>
    rcases mem_cons.mp ha with rfl | ha
    · exact ⟨_, mem_cons_self, hb⟩
    · obtain ⟨b, hmem, hb⟩ := ih ha
      exact ⟨b, mem_cons_of_mem _ hmem, hb⟩

theorem exists_of_mem_mapM_eq_ok (h : l.mapM f = .ok bs) (hb : b ∈ bs) : ∃ a ∈ l, f a = .ok b := by
  have hall := mapM_eq_ok.mp h
  clear h
  induction hall with
  | nil => cases hb
  | cons ha _ ih =>
    rcases mem_cons.mp hb with rfl | hb
    · exact ⟨_, mem_cons_self, ha⟩
    · obtain ⟨a, hmem, ha⟩ := ih hb
      exact ⟨a, mem_cons_of_mem _ hmem, ha⟩

theorem exists_mapM_eq_ok (h : ∀ a ∈ l, ∃ b, f a = .ok b) : ∃ bs, l.mapM f = .ok bs := by
  induction l with
  | nil => exact ⟨[], mapM_eq_ok.mpr .nil⟩
  | cons a l ih =>
    obtain ⟨b, hb⟩ := h a mem_cons_self
    obtain ⟨bs, hbs⟩ := ih fun c hc => h c (mem_cons_of_mem _ hc)
    exact ⟨b :: bs, mapM_eq_ok.mpr (.cons hb (mapM_eq_ok.mp hbs))⟩

/-- **Loop rule**, for an invariant that speaks of what the loop has still to go through. -/
theorem foldlM_induct_rest (I : List α → S → Prop)
    (hbody : ∀ a l s s', I (a :: l) s → body s a = .ok s' → I l s') :
    ∀ {l : List α} {s s' : S}, I l s → l.foldlM body s = .ok s' → I [] s' := by
  intro l
  induction l with
  | nil =>
    intro s s' hs h
    cases h
    exact hs
  | cons a l ih =>
    intro s s' hs h
    rw [foldlM_cons, bind_eq_ok] at h
    obtain ⟨s₁, hs₁, hrest⟩ := h
    exact ih (hbody a l s s₁ hs hs₁) hrest

/-- **Loop rule.** What holds before a loop and is kept by every round that succeeds
holds after the loop. -/
theorem foldlM_induct (I : S → Prop) {l : List α} {s s' : S}
    (hbody : ∀ a ∈ l, ∀ s s', I s → body s a = .ok s' → I s') (hs : I s)
    (h : l.foldlM body s = .ok s') : I s' := by
  refine (foldlM_induct_rest (fun rest s => rest ⊆ l ∧ I s) ?_ ⟨Subset.refl _, hs⟩ h).2
  rintro a rest s s' ⟨hsub, hs⟩ hstep
  obtain ⟨ha, hrest⟩ := cons_subset.mp hsub
  exact ⟨hrest, hbody a ha s s' hs hstep⟩

/-- **Loop rule** for a loop that goes through: what holds of the rounds to come lets every round
succeed. -/
theorem foldlM_total (I : List α → S → Prop)
    (hbody : ∀ a l s, I (a :: l) s → ∃ s', body s a = .ok s' ∧ I l s') :
    ∀ {l : List α} {s : S}, I l s → ∃ s', l.foldlM body s = .ok s' ∧ I [] s' := by
  intro l
  induction l with
  | nil => exact fun {s} hs => ⟨s, rfl, hs⟩
  | cons a l ih =>
    intro s hs
    obtain ⟨s₁, h₁, hs₁⟩ := hbody a l s hs
    obtain ⟨s', h', hs'⟩ := ih hs₁
    exact ⟨s', by rw [foldlM_cons, h₁]; exact h', hs'⟩

/-- Where `x` has a result, `y` has the same one. -/
def Le (x y : Checked α) : Prop := ∀ a, x = .ok a → y = .ok a

theorem Le.refl (x : Checked α) : Le x x := fun _ h => h

theorem Le.bind {y : Checked α} {g : α → Checked β} (hx : Le x y) (hf : ∀ a, Le (f a) (g a)) :
    Le (x >>= f) (y >>= g) := by
  intro b h
  rw [bind_eq_ok] at h ⊢
  obtain ⟨a, ha, hb⟩ := h
  exact ⟨a, hx a ha, hf a b hb⟩

theorem Le.ite [Decidable p] {x' y y' : Checked α} (h : Le x y) (h' : Le x' y') :
    Le (if p then x else x') (if p then y else y') := by
  split
  · exact h
  · exact h'

theorem Le.foldlM {f g : S → α → Checked S} (hf : ∀ s a, Le (f s a) (g s a)) (l : List α) (s : S) :
    Le (l.foldlM f s) (l.foldlM g s) := by
  induction l generalizing s with
  | nil => exact Le.refl _
  | cons a l ih =>
    exact (hf s a).bind fun s' => ih s'

/-- The computation does not stop with this message. -/
def Avoids (msg : String) (x : Checked α) : Prop := x ≠ .error msg

namespace Avoids

variable {msg m : String} {p : Prop}

@[simp] theorem bind_iff :
    Avoids msg (x >>= f) ↔ Avoids msg x ∧ ∀ a, x = .ok a → Avoids msg (f a) := by
  cases x with
  | error e => simp [Avoids, bind, Except.bind]
  | ok a => simp [Avoids, bind, Except.bind]

@[simp] theorem pure (a : α) : Avoids msg (Pure.pure a) := by
  intro h
  cases h

@[simp] theorem map_iff {f : α → β} : Avoids msg (f <$> x) ↔ Avoids msg x := by
  cases x with
  | error e => simp [Avoids]
  | ok a => simp [Avoids]

@[simp] theorem ite_iff [Decidable p] {y : Checked α} :
    Avoids msg (if p then x else y) ↔ (p → Avoids msg x) ∧ (¬ p → Avoids msg y) := by
  split <;> simp_all

@[simp] theorem error_iff : Avoids msg (.error m : Checked α) ↔ m ≠ msg := by
  simp [Avoids]

@[simp] theorem assert_iff [Decidable p] : Avoids msg (assert p m) ↔ (m = msg → p) := by
  unfold Checked.assert Avoids
  split <;> simp_all

@[simp] theorem get_iff {o : Option α} : Avoids msg (get o m) ↔ (m = msg → o ≠ none) := by
  cases o <;> simp [Avoids, Checked.get]

/-- **Loop rule.** No round stops with the message, in a state in which the rounds before it have
kept `I`. -/
theorem foldlM (I : List α → S → Prop) {body : S → α → Checked S}
    (havoid : ∀ a l s, I (a :: l) s → Avoids msg (body s a))
    (hkeep : ∀ a l s s', I (a :: l) s → body s a = .ok s' → I l s') :
    ∀ {l : List α} {s : S}, I l s → Avoids msg (l.foldlM body s) := by
  intro l
  induction l with
  | nil =>
    intro s _
    exact Avoids.pure s
  | cons a l ih =>
    intro s hs
    rw [foldlM_cons, bind_iff]
    exact ⟨havoid a l s hs, fun s₁ hs₁ => ih (hkeep a l s s₁ hs hs₁)⟩

end Avoids

/-- Unless `x` stops with this message, `y` is the same computation. -/
def AgreeUnless (msg : String) (x y : Checked α) : Prop := Avoids msg x → y = x

namespace AgreeUnless

variable {msg : String} {y : Checked α}

theorem refl (msg : String) (x : Checked α) : AgreeUnless msg x x := fun _ => rfl

theorem bind {g : α → Checked β} (hx : AgreeUnless msg x y) (hf : ∀ a, AgreeUnless msg (f a) (g a)) :
    AgreeUnless msg (x >>= f) (y >>= g) := by
  intro h
  rw [Avoids.bind_iff] at h
  rw [hx h.1]
  cases x with
  | error e => rfl
  | ok a => exact hf a (h.2 a rfl)

theorem ite [Decidable p] {x' y' : Checked α} (h : AgreeUnless msg x y) (h' : AgreeUnless msg x' y') :
    AgreeUnless msg (if p then x else x') (if p then y else y') := by
  split
  · exact h
  · exact h'

theorem le (h : AgreeUnless msg x y) : Le x y := by
  rintro a rfl
  exact h fun hstop => by cases hstop

end AgreeUnless

end Checked

namespace Run

variable {S A : Type} {s s' : S} {as : List A}

/-- The states reached by inputs that are all accepted. -/
def checked (step : S → A → Checked S) (s : S) (a : A) : Option S := (step s a).toOption

theorem checked_eq_some {step : S → A → Checked S} {a : A} :
    checked step s a = some s' ↔ step s a = .ok s' :=
  Checked.toOption_eq_some

/-- What every step that is accepted keeps, every run keeps. -/
theorem checked_induct (I : S → Prop) {step : S → A → Checked S}
    (hstep : ∀ s a s', I s → step s a = .ok s' → I s') (hs : I s)
    (h : exec (checked step) s as = some s') : I s' :=
  exec_induct I (fun s a s' hs h => hstep s a s' hs (checked_eq_some.mp h)) hs h

theorem exec_le {step step' : S → A → Checked S} (hstep : ∀ s a, Checked.Le (step s a) (step' s a))
    (h : exec (checked step) s as = some s') : exec (checked step') s as = some s' := by
  induction as generalizing s with
  | nil => exact h
  | cons a as ih =>
    rw [exec_cons] at h ⊢
    obtain ⟨s₁, hs₁, hrest⟩ := Option.bind_eq_some_iff.mp h
    have hs₁' : checked step' s a = some s₁ :=
      checked_eq_some.mpr (hstep s a s₁ (checked_eq_some.mp hs₁))
    rw [hs₁', Option.bind_some]
    exact ih hrest

end Run

end DeltaChain.Lib

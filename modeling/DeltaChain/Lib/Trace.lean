import DeltaChain.Lib.Checked

/-!
# Where in a run something was written

`last_writer` finds, for a row that some inputs write and all others at most remove, the last
input of the run that wrote what the row holds; `appears` finds the step at which something
began to hold; `AllSteps` says something of every step of a run.
-/

namespace DeltaChain.Lib.Run

open List Option

variable {S A V : Type} {step : S → A → Option S} {as : List A} {s₀ : S} {s : S}

theorem exec_append (s : S) (as bs : List A) :
    exec step s (as ++ bs) = (exec step s as).bind (exec step · bs) := foldlM_append

theorem exec_concat {s s' : S} {a : A} :
    exec step s (as ++ [a]) = some s' ↔ ∃ s₁, exec step s as = some s₁ ∧ step s₁ a = some s' := by
  rw [exec_append, bind_eq_some_iff]
  simp only [exec_cons, exec_nil, bind_fun_some]

/-- **Invariant rule**, for an invariant that speaks of the inputs so far. -/
theorem exec_induct_trace (I : List A → S → Prop) (h₀ : I [] s₀)
    (hstep : ∀ as s a s', exec step s₀ as = some s → I as s → step s a = some s' → I (as ++ [a]) s') :
    ∀ {as : List A} {s : S}, exec step s₀ as = some s → I as s := by
  intro as
  induction as using reverseRecOn with
  | nil =>
    intro s h
    cases h
    exact h₀
  | append_singleton as a ih =>
    intro s h
    obtain ⟨s₁, hs₁, ha⟩ := exec_concat.mp h
    exact hstep as s₁ a s hs₁ (ih hs₁) ha

/-- The inputs `as` end in a part after the last input that writes the row; that input wrote `v`,
and the row has held it ever since. -/
def Written (step : S → A → Option S) (s₀ : S) (writes : A → Prop) (view : S → Option V)
    (as : List A) (v : V) : Prop :=
  ∃ pre a mid s₁ s₂, as = pre ++ a :: mid ∧ exec step s₀ pre = some s₁ ∧ step s₁ a = some s₂ ∧
    writes a ∧ view s₂ = some v ∧ (∀ b ∈ mid, ¬ writes b) ∧
    ∀ mid' s₃, mid' <+: mid → exec step s₂ mid' = some s₃ → view s₃ = some v

/-- **The last writer.** Let every input that does not write a row leave it alone or remove it, in
every state that a run reaches. Then what the row holds after a run was written by the last input that writes it. -/
theorem last_writer {writes : A → Prop} {view : S → Option V} (h₀ : view s₀ = none)
    (hkeep : ∀ as s a s', exec step s₀ as = some s → ¬ writes a → step s a = some s' →
      view s' = view s ∨ view s' = none)
    {v : V} (h : exec step s₀ as = some s) (hv : view s = some v) :
    Written step s₀ writes view as v := by
  revert v
  refine exec_induct_trace (fun as s => ∀ {v}, view s = some v → Written step s₀ writes view as v)
    ?_ ?_ h
  · intro v hv
    rw [h₀] at hv
    cases hv
  intro as s a s' hs ih hstep v hv
  by_cases ha : writes a
  · refine ⟨as, a, [], s, s', rfl, hs, hstep, ha, hv, fun b hb => absurd hb not_mem_nil, ?_⟩
    intro mid' s₃ hmid' hs₃
    obtain rfl := eq_nil_of_prefix_nil hmid'
    cases hs₃
    exact hv
  · have hsame : view s' = view s := by
      rcases hkeep as s a s' hs ha hstep with hsame | hnone
      · exact hsame
      · rw [hnone] at hv
        cases hv
    obtain ⟨pre, b, mid, s₁, s₂, rfl, hpre, hb, hwrites, hv₂, hmid, hheld⟩ := ih (hsame ▸ hv)
    refine ⟨pre, b, mid ++ [a], s₁, s₂, by simp, hpre, hb, hwrites, hv₂, ?_, ?_⟩
    · intro c hc
      rcases mem_append.mp hc with hc | hc
      · exact hmid c hc
      · exact mem_singleton.mp hc ▸ ha
    · intro mid' s₃ hmid' hs₃
      rcases prefix_concat_iff.mp hmid' with rfl | hmid'
      · -- the whole of the run: its end is `s'`
        obtain ⟨s₄, hs₄, ha₄⟩ := exec_concat.mp hs₃
        have hs₄ : s₄ = s := by
          have hrun : exec step s₀ (pre ++ b :: mid) = some s₄ := by
            rw [exec_append, hpre, bind_some, exec_cons, hb, bind_some, hs₄]
          exact mem_unique hrun hs
        subst hs₄
        obtain rfl := mem_unique hstep ha₄
        exact hv
      · exact hheld mid' s₃ hmid' hs₃

/-- Something that did not hold at the start of a run and holds at its end began to hold at one
of its steps. -/
theorem appears {P : S → Prop} (h₀ : ¬ P s₀) (h : exec step s₀ as = some s) (hs : P s) :
    ∃ pre a mid s₁ s₂, as = pre ++ a :: mid ∧ exec step s₀ pre = some s₁ ∧ step s₁ a = some s₂ ∧
      ¬ P s₁ ∧ P s₂ := by
  revert hs
  refine exec_induct_trace (fun as s => P s → ∃ pre a mid s₁ s₂, as = pre ++ a :: mid ∧
    exec step s₀ pre = some s₁ ∧ step s₁ a = some s₂ ∧ ¬ P s₁ ∧ P s₂) (fun hs => absurd hs h₀) ?_ h
  intro as s a s' hrun ih hstep hs'
  by_cases hs : P s
  · obtain ⟨pre, b, mid, s₁, s₂, rfl, hpre, hb, hn, hp⟩ := ih hs
    exact ⟨pre, b, mid ++ [a], s₁, s₂, by simp, hpre, hb, hn, hp⟩
  · exact ⟨as, a, [], s, s', rfl, hrun, hstep, hs, hs'⟩

/-- Every step of a run has the property. -/
def AllSteps (step : S → A → Option S) (s₀ : S) (as : List A) (P : S → A → S → Prop) : Prop :=
  ∀ pre a post s s', as = pre ++ a :: post → exec step s₀ pre = some s → step s a = some s' → P s a s'

theorem forall_states_iff {I : S → Prop} :
    (∀ pre s, pre <+: as → exec step s₀ pre = some s → I s) ↔
      I s₀ ∧ AllSteps step s₀ as fun _ _ s' => I s' := by
  constructor
  · intro hall
    refine ⟨hall [] s₀ nil_prefix rfl, ?_⟩
    rintro pre a post s s' rfl hs hstep
    exact hall (pre ++ [a]) s' ⟨post, by rw [append_assoc]; rfl⟩
      (exec_concat.mpr ⟨s, hs, hstep⟩)
  · rintro ⟨h₀, hall⟩ pre s ⟨post, rfl⟩ hs
    rcases eq_nil_or_concat' pre with rfl | ⟨pre, a, rfl⟩
    · exact some.inj hs ▸ h₀
    · obtain ⟨s₁, hs₁, hstep⟩ := exec_concat.mp hs
      exact hall pre a post s₁ s (by rw [append_assoc]; rfl) hs₁ hstep

/-- **Two properties of steps** that say the same wherever an invariant holds, where the second
one keeps the invariant, hold of all steps of the same runs. -/
theorem allSteps_congr {step : S → A → Checked S} (I : S → Prop) {P Q : S → A → S → Prop}
    (hiff : ∀ s a s', I s → step s a = .ok s' → (P s a s' ↔ Q s a s'))
    (hkeep : ∀ s a s', I s → step s a = .ok s' → Q s a s' → I s') (h₀ : I s₀) :
    AllSteps (checked step) s₀ as P ↔ AllSteps (checked step) s₀ as Q := by
  simp only [← @checked_eq_some S A _ _ step] at hiff hkeep
  -- either property gives the invariant before every step of the run
  have hinv : ∀ {R : S → A → S → Prop}, AllSteps (checked step) s₀ as R →
      (∀ s a s', I s → checked step s a = some s' → R s a s' → Q s a s') →
      ∀ {pre s}, pre <+: as → exec (checked step) s₀ pre = some s → I s := by
    intro R hall hR pre s hpre hs
    refine exec_induct_trace (fun pre s => pre <+: as → I s) (fun _ => h₀) ?_ hs hpre
    intro pre s a s' hs ih hstep hpre
    obtain ⟨post, rfl⟩ := hpre
    rw [append_assoc] at hall ih
    have hI := ih (prefix_append _ _)
    exact hkeep s a s' hI hstep (hR s a s' hI hstep (hall pre a post s s' rfl hs hstep))
  constructor
  · intro hall pre a post s s' heq hs hstep
    have hI := hinv hall (fun s a s' hI hstep => (hiff s a s' hI hstep).mp)
      ⟨a :: post, heq.symm⟩ hs
    exact (hiff s a s' hI hstep).mp (hall pre a post s s' heq hs hstep)
  · intro hall pre a post s s' heq hs hstep
    have hI := hinv hall (fun _ _ _ _ _ hQ => hQ) ⟨a :: post, heq.symm⟩ hs
    exact (hiff s a s' hI hstep).mpr (hall pre a post s s' heq hs hstep)

end DeltaChain.Lib.Run

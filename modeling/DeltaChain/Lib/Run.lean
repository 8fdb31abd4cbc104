import Mathlib

/-!
# Runs

A run feeds a list of inputs to a step function that may fail; `Run.exec` is the
state after them. `exec_induct` is the invariant rule: what holds at the start
and is kept by every successful step holds after every run.
-/

namespace DeltaChain.Lib.Run

variable {S A : Type} {step : S → A → Option S} {as : List A} {s s' : S}

/-- The state after feeding the inputs `as` to `step`, if every step succeeds. -/
def exec (step : S → A → Option S) (s : S) (as : List A) : Option S := as.foldlM step s

@[simp] theorem exec_nil (step : S → A → Option S) (s : S) : exec step s [] = some s := rfl

@[simp] theorem exec_cons (step : S → A → Option S) (s : S) (a : A) (as : List A) :
    exec step s (a :: as) = (step s a).bind (exec step · as) := rfl

/-- **Invariant rule**, for a run whose inputs are known. -/
theorem exec_induct_mem (I : S → Prop) (hstep : ∀ a ∈ as, ∀ s s', I s → step s a = some s' → I s')
    (hs : I s) (h : exec step s as = some s') : I s' := by
  induction as generalizing s with
  | nil =>
    cases h
    exact hs
  | cons a as ih =>
    obtain ⟨s₁, hs₁, hrest⟩ := Option.bind_eq_some_iff.mp h
    exact ih (fun b hb => hstep b (List.mem_cons_of_mem a hb))
      (hstep a List.mem_cons_self s s₁ hs hs₁) hrest

/-- **Invariant rule.** -/
theorem exec_induct (I : S → Prop) (hstep : ∀ s a s', I s → step s a = some s' → I s') (hs : I s)
    (h : exec step s as = some s') : I s' :=
  exec_induct_mem I (fun a _ s s' => hstep s a s') hs h

/-- Where a run on fixed inputs ends can be evaluated. -/
instance decidableEnd {o : Option S} {P : S → Prop} [DecidablePred P] :
    Decidable (∃ s, o = some s ∧ P s) :=
  match o with
  | none => isFalse (by simp)
  | some s => decidable_of_iff (P s) (by simp)

theorem exists_end {o : Option S} {P Q : S → Prop} (hend : ∃ s, o = some s ∧ P s)
    (h : ∀ s, o = some s → P s → Q s) : ∃ s, o = some s ∧ Q s := by
  obtain ⟨s, hs, hp⟩ := hend
  exact ⟨s, hs, h s hs hp⟩

end DeltaChain.Lib.Run

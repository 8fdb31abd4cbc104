import DeltaChain.Lib.Checked

/-!
# Pruning a set with a test

`prune` goes once through the elements of a list and drops those without which the rest still
passes a test. The test may fail, and a failure ends the loop.

* `prune_isOk_iff`: the loop ends well if and only if the test does not fail on the lists it is put to.
* `prune_pruned`: if, besides, a list that it finds too small has no part that passes, then the
  result passes and none of its elements can be dropped.

Nothing is asked of lists that the loop does not come to.
-/

namespace DeltaChain.Lib

open Checked List

variable {α : Type} [DecidableEq α]

/-- The loop: each element is taken out, and put back unless the rest passes. -/
def prune (test : List α → Checked Bool) : List α → List α → Checked (List α)
  | [], result => .ok result
  | k :: rest, result => do
    let passed ← test (result.erase k)
    prune test rest (if passed then result.erase k else result)

/-- The lists that the loop puts to the test. -/
def tried (test : List α → Checked Bool) : List α → List α → List (List α)
  | [], _ => []
  | k :: rest, result =>
    result.erase k ::
      tried test rest (if test (result.erase k) = .ok true then result.erase k else result)

/-- What the loop leaves: a list that passes, and none of its elements can be dropped. -/
structure Pruned (test : List α → Checked Bool) (s m : List α) : Prop where
  sublist : m.Sublist s
  passes : test m = .ok true
  minimal : ∀ k ∈ m, test (m.erase k) ≠ .ok true

section
variable {test : List α → Checked Bool} {keys : List α}

/-- **The loop ends well** if and only if the test answers on all lists it is put to. -/
theorem prune_isOk_iff : ∀ {result : List α}, (∃ m, prune test keys result = .ok m) ↔
    ∀ r ∈ tried test keys result, ∃ passed, test r = .ok passed := by
  induction keys with
  | nil => simp [prune, tried]
  | cons k rest ih =>
    intro result
    rw [prune, tried, forall_mem_cons]
    cases hpassed : test (result.erase k) with
    | error e => simp
    | ok passed =>
      rw [ok_bind, ih]
      simp

omit [DecidableEq α] in
/-- The test answers on the list, and if it is not passed, it is by no part of the list. -/
structure Settles (test : List α → Checked Bool) (r : List α) : Prop where
  answers : ∃ passed, test r = .ok passed
  parts : test r = .ok false → ∀ r', r'.Sublist r → test r' ≠ .ok true

instance (r : List α) : Decidable (Settles test r) :=
  decidable_of_iff ((test r = .ok true ∨ test r = .ok false) ∧
      (test r = .ok false → ∀ r' ∈ r.sublists, test r' ≠ .ok true)) <| by
    simp only [mem_sublists]
    refine ⟨fun h => ⟨?_, h.2⟩, fun h => ⟨?_, h.parts⟩⟩
    · exact h.1.elim (fun h => ⟨true, h⟩) fun h => ⟨false, h⟩
    · obtain ⟨passed, h⟩ := h.answers
      cases passed with
      | true => exact .inl h
      | false => exact .inr h

/-- Without the element no part of the list passes. -/
def Needed (test : List α → Checked Bool) (result : List α) (k : α) : Prop :=
  ∀ r, r.Sublist (result.erase k) → test r ≠ .ok true

theorem prune_loop : ∀ {result : List α}, result.Nodup →
    (∀ r ∈ tried test keys result, Settles test r) → test result = .ok true →
    (∀ k ∈ result, k ∈ keys ∨ Needed test result k) →
    ∃ m, prune test keys result = .ok m ∧ m.Sublist result ∧ test m = .ok true ∧
      ∀ k ∈ m, Needed test m k := by
  induction keys with
  | nil =>
    intro result _ _ hpass hall
    refine ⟨result, rfl, Sublist.refl _, hpass, fun k hk => ?_⟩
    exact (hall k hk).resolve_left not_mem_nil
  | cons k rest ih =>
    intro result hnodup htried hpass hall
    obtain ⟨hk, hrest⟩ := forall_mem_cons.mp htried
    have herase : (result.erase k).Sublist result := erase_sublist
    obtain ⟨passed, hpassed⟩ := hk.answers
    rw [prune, hpassed, ok_bind]
    rw [hpassed] at hrest
    cases passed with
    | true =>
      obtain ⟨m, hrun, hsub, hm⟩ := ih (hnodup.sublist herase) hrest hpassed fun j hj => by
        have hne : j ≠ k := fun h => hnodup.not_mem_erase (h ▸ hj)
        rcases hall j (herase.subset hj) with hj | hneeded
        · exact .inl ((mem_cons.mp hj).resolve_left hne)
        · exact .inr fun r hr => hneeded r (hr.trans (herase.erase j))
      exact ⟨m, hrun, hsub.trans herase, hm⟩
    | false =>
      refine ih hnodup hrest hpass fun j hj => ?_
      rcases hall j hj with hj | hneeded
      · rcases mem_cons.mp hj with rfl | hj
        · exact .inr (hk.parts hpassed)
        · exact .inl hj
      · exact .inr hneeded

/-- **The loop finds a minimal list**, where the test settles the lists it is put to. -/
theorem prune_pruned {s : List α} (hnodup : s.Nodup) (hpass : test s = .ok true)
    (hsettles : ∀ r ∈ tried test s s, Settles test r) :
    ∃ m, prune test s s = .ok m ∧ Pruned test s m := by
  obtain ⟨m, hrun, hsub, hm, hneeded⟩ := prune_loop hnodup hsettles hpass fun k hk => .inl hk
  exact ⟨m, hrun, hsub, hm, fun k hk => hneeded k hk _ (Sublist.refl _)⟩

end

end DeltaChain.Lib

import Mathlib

/-!
# Counting in an ordered map

`tally before counts a` counts `a` in a map from keys to numbers that is kept as a list in the
order `before`, as `flat_map` keeps it. The keys with a property are counted as often as they
came (`weight_tallies`), and the keys are in order (`tallies_sorted`).

`majority required counts` is the first key at which the sum of the numbers reaches `required`.
When larger keys come first, at least `required` of what was counted is as large as that key,
and fewer are larger (`majority_spec`).
-/

namespace DeltaChain.Lib

open List

variable {α : Type} [DecidableEq α] {e : α × Nat}

/-- Counts `a`. -/
def tally (before : α → α → Bool) : List (α × Nat) → α → List (α × Nat)
  | [], a => [(a, 1)]
  | (b, n) :: counts, a =>
    if a = b then (b, n + 1) :: counts
    else if before a b then (a, 1) :: (b, n) :: counts
    else (b, n) :: tally before counts a

/-- Counts everything in a list. -/
def tallies (before : α → α → Bool) (l : List α) : List (α × Nat) := l.foldl (tally before) []

/-- How often keys with the property `p` were counted. -/
def weight (p : α → Bool) (counts : List (α × Nat)) : Nat :=
  (counts.map fun e => if p e.1 then e.2 else 0).sum

omit [DecidableEq α] in
@[simp] theorem weight_cons (p : α → Bool) (e : α × Nat) (counts : List (α × Nat)) :
    weight p (e :: counts) = (if p e.1 then e.2 else 0) + weight p counts := rfl

theorem weight_tally (before : α → α → Bool) (p : α → Bool) (counts : List (α × Nat)) (a : α) :
    weight p (tally before counts a) = weight p counts + if p a then 1 else 0 := by
  induction counts with
  | nil =>
    exact Nat.add_comm _ _
  | cons e counts ih =>
    unfold tally
    split
    · next hab =>
      subst hab
      rw [weight_cons, weight_cons]
      split <;> omega
    · split
      · exact Nat.add_comm _ _
      · rw [weight_cons, weight_cons, ih, Nat.add_assoc]

/-- **Everything is counted once.** -/
theorem weight_tallies (before : α → α → Bool) (p : α → Bool) (l : List α) :
    weight p (tallies before l) = l.countP p := by
  have hfold : ∀ (l : List α) (counts : List (α × Nat)),
      weight p (l.foldl (tally before) counts) = weight p counts + l.countP p := by
    intro l
    induction l with
    | nil => exact fun _ => rfl
    | cons a l ih =>
      intro counts
      rw [foldl_cons, ih, weight_tally, countP_cons, Nat.add_assoc,
        Nat.add_comm (countP p l)]
  exact (hfold l []).trans (Nat.zero_add _)

theorem le_count_of_mem_tallies {before : α → α → Bool} {l : List α}
    (h : e ∈ tallies before l) : e.2 ≤ l.count e.1 := by
  have hweight := weight_tallies before (fun a => a == e.1) l
  rw [count, ← hweight]
  have hterm : (if (e.1 == e.1) = true then e.2 else 0) = e.2 := by simp
  rw [← hterm]
  exact le_sum_of_mem (mem_map.mpr ⟨e, h, rfl⟩)

-- # The order of the keys

theorem mem_keys_tally {before : α → α → Bool} {counts : List (α × Nat)} {a : α}
    (h : e ∈ tally before counts a) : e.1 = a ∨ ∃ f ∈ counts, f.1 = e.1 := by
  induction counts with
  | nil =>
    rw [tally, mem_singleton] at h
    exact .inl (congrArg Prod.fst h)
  | cons f counts ih =>
    obtain ⟨b, n⟩ := f
    unfold tally at h
    split at h
    · next hab =>
      subst hab
      rcases mem_cons.mp h with rfl | h
      · exact .inl rfl
      · exact .inr ⟨e, mem_cons_of_mem _ h, rfl⟩
    · split at h
      · rcases mem_cons.mp h with rfl | h
        · exact .inl rfl
        · exact .inr ⟨e, h, rfl⟩
      · rcases mem_cons.mp h with rfl | h
        · exact .inr ⟨(b, n), mem_cons_self, rfl⟩
        · rcases ih h with ha | ⟨f, hf, hfe⟩
          · exact .inl ha
          · exact .inr ⟨f, mem_cons_of_mem _ hf, hfe⟩

omit [DecidableEq α] in
theorem weight_eq_zero {p : α → Bool} {counts : List (α × Nat)} (h : ∀ e ∈ counts, p e.1 = false) :
    weight p counts = 0 := by
  refine sum_eq_zero fun n hn => ?_
  obtain ⟨e, he, rfl⟩ := mem_map.mp hn
  rw [h e he]
  rfl

theorem weight_eq_of_mem {counts : List (α × Nat)} (hkeys : counts.Pairwise fun e f => e.1 ≠ f.1)
    (he : e ∈ counts) : weight (fun b => b == e.1) counts = e.2 := by
  induction counts with
  | nil => cases he
  | cons f counts ih =>
    rw [pairwise_cons] at hkeys
    rw [weight_cons]
    rcases mem_cons.mp he with rfl | he
    · have hrest : weight (fun b => b == e.1) counts = 0 :=
        weight_eq_zero fun f hf => beq_eq_false_iff_ne.mpr (hkeys.1 f hf).symm
      rw [hrest, if_pos (beq_self_eq_true _), Nat.add_zero]
    · rw [ih hkeys.2 he, if_neg (by simpa using hkeys.1 e he), Nat.zero_add]

section Order

variable {before : α → α → Bool} (htrans : ∀ a b c, before a b → before b c → before a c)
  (htotal : ∀ a b, a ≠ b → before a b ∨ before b a)

include htrans htotal

theorem tally_sorted {counts : List (α × Nat)} (a : α)
    (h : counts.Pairwise fun e f => before e.1 f.1) :
    (tally before counts a).Pairwise fun e f => before e.1 f.1 := by
  induction counts with
  | nil => exact pairwise_singleton _ _
  | cons e counts ih =>
    obtain ⟨b, n⟩ := e
    rw [pairwise_cons] at h
    unfold tally
    split
    · exact pairwise_cons.mpr ⟨h.1, h.2⟩
    · next hab =>
      split
      · next hbefore =>
        refine pairwise_cons.mpr ⟨fun f hf => ?_, pairwise_cons.mpr h⟩
        rcases mem_cons.mp hf with rfl | hf
        · exact hbefore
        · exact htrans _ _ _ hbefore (h.1 f hf)
      · next hnot =>
        refine pairwise_cons.mpr ⟨fun f hf => ?_, ih h.2⟩
        rcases mem_keys_tally hf with hfa | ⟨g, hg, hgf⟩
        · rw [hfa]
          exact (htotal a b hab).resolve_left hnot
        · rw [← hgf]
          exact h.1 g hg

theorem tallies_sorted (l : List α) : (tallies before l).Pairwise fun e f => before e.1 f.1 := by
  have hfold : ∀ (l : List α) (counts : List (α × Nat)),
      (counts.Pairwise fun e f => before e.1 f.1) →
      (l.foldl (tally before) counts).Pairwise fun e f => before e.1 f.1 := by
    intro l
    induction l with
    | nil => exact fun _ h => h
    | cons a l ih => exact fun counts h => ih _ (tally_sorted htrans htotal a h)
  exact hfold l [] Pairwise.nil

/-- With the keys in order, every key that came is in the map with how often it came. -/
theorem mem_tallies (hirrefl : ∀ a, ¬ before a a) {l : List α} {a : α} (ha : a ∈ l) :
    (a, l.count a) ∈ tallies before l := by
  have hweight := weight_tallies before (fun b => b == a) l
  obtain ⟨e, he, rfl⟩ : ∃ e ∈ tallies before l, e.1 = a := by
    by_contra hnone
    have hzero : weight (fun b => b == a) (tallies before l) = 0 := by
      refine weight_eq_zero fun e he => beq_eq_false_iff_ne.mpr fun heq => hnone ⟨e, he, heq⟩
    rw [hzero] at hweight
    exact absurd hweight.symm (count_pos_iff.mpr ha).ne'
  have hsorted := tallies_sorted htrans htotal l
  have hkeys : (tallies before l).Pairwise fun e f => e.1 ≠ f.1 := by
    refine hsorted.imp ?_
    intro e f hbefore heq
    rw [heq] at hbefore
    exact hirrefl _ hbefore
  rw [weight_eq_of_mem hkeys he] at hweight
  rw [count, ← hweight]
  exact he

end Order

-- # The largest key that a majority reaches

/-- The first key at which the sum of the numbers, and of `seen`, reaches `required`. -/
def majority (required : Nat) : Nat → List (α × Nat) → Option α
  | _, [] => none
  | seen, (a, n) :: counts =>
    if seen + n ≥ required then some a else majority required (seen + n) counts

section Majority

variable {required seen : Nat} {counts : List (Nat × Nat)}

/-- **The majority.** With the larger keys first, `v` is the largest number that the numbers
counted from the largest key down to it reach. -/
theorem majority_spec (hsorted : counts.Pairwise fun e f => f.1 < e.1) (hseen : seen < required) :
    (∀ v, majority required seen counts = some v →
      required ≤ seen + weight (fun k => decide (v ≤ k)) counts ∧
      ∀ u, v < u → seen + weight (fun k => decide (u ≤ k)) counts < required) ∧
    (majority required seen counts = none →
      ∀ u, seen + weight (fun k => decide (u ≤ k)) counts < required) := by
  induction counts generalizing seen with
  | nil =>
    constructor
    · intro v hv
      cases hv
    · intro _ u
      exact hseen
  | cons e counts ih =>
    obtain ⟨k, n⟩ := e
    rw [pairwise_cons] at hsorted
    -- keys above `k` are not in the map
    have habove : ∀ u, k < u → weight (fun j => decide (u ≤ j)) ((k, n) :: counts) = 0 := by
      intro u hu
      refine weight_eq_zero fun f hf => ?_
      rcases mem_cons.mp hf with rfl | hf
      · exact decide_eq_false (by dsimp only; omega)
      · have := hsorted.1 f hf
        exact decide_eq_false (by dsimp only at this; omega)
    by_cases hreach : seen + n ≥ required
    · refine ⟨fun v hv => ?_, fun hnone => ?_⟩
      · rw [majority, if_pos hreach, Option.some.injEq] at hv
        subst hv
        refine ⟨?_, fun u hu => ?_⟩
        · rw [weight_cons, if_pos (by simp)]
          omega
        · rw [habove u hu]
          exact hseen
      · rw [majority, if_pos hreach] at hnone
        cases hnone
    · obtain ⟨hsome, hnone⟩ := ih hsorted.2 (not_le.mp hreach)
      have hstep : majority required seen ((k, n) :: counts) = majority required (seen + n) counts := by
        rw [majority, if_neg hreach]
      -- down to `k` and below, the number of `k` is in the sum
      have hbelow : ∀ u, u ≤ k → seen + weight (fun j => decide (u ≤ j)) ((k, n) :: counts) =
          seen + n + weight (fun j => decide (u ≤ j)) counts := by
        intro u hu
        rw [weight_cons, if_pos (decide_eq_true hu), Nat.add_assoc]
      rw [hstep]
      refine ⟨fun v hv => ?_, fun hn u => ?_⟩
      · obtain ⟨henough, hfewer⟩ := hsome v hv
        have hvk : v ≤ k := by
          by_contra hkv
          have hzero := habove v (not_le.mp hkv)
          rw [weight_cons, if_neg (by simpa using hkv), Nat.zero_add] at hzero
          omega
        refine ⟨by rw [hbelow v hvk]; exact henough, fun u hu => ?_⟩
        rcases le_or_gt u k with huk | hku
        · rw [hbelow u huk]
          exact hfewer u hu
        · rw [habove u hku]
          exact hseen
      · rcases le_or_gt u k with huk | hku
        · rw [hbelow u huk]
          exact hnone hn u
        · rw [habove u hku]
          exact hseen

end Majority

end DeltaChain.Lib

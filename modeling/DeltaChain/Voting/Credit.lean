import DeltaChain.Voting.Polls

/-!
# The way up the chain of proxies

`Polls.credit` says at once what a change at one voter does to everybody above it. Here the
same is done one proxy after the other, with a bounded number of levels, and
`creditLevels_eq_credit` says that the two agree.
-/

namespace DeltaChain.Voting

open Lib.Forest Finset Option

variable {N : Type} [DecidableEq N] {D : ℕ}

namespace Polls

/-- The shares proxied to `b` change by `delta`, moved up by `depth` entries. -/
def addProxied (p : Polls N D) (b : N) (delta : Fin (D + 1) → ℤ) (depth : ℕ) : Polls N D :=
  { p with proxied := Function.update p.proxied b fun j =>
      p.proxied b j + ∑ i : Fin (D + 1), if i.val + depth = j.val then delta i else 0 }

/-- The ballots of `b` gain `δ`. -/
def addVotes (p : Polls N D) (b : N) (δ : ℤ) : Polls N D :=
  { p with votes := fun w => p.votes w + if (b, w) ∈ p.ballots then δ else 0 }

/-- The way up from `c`, at most `levels` proxies far. -/
def creditLevels (delta : Fin (D + 1) → ℤ) : ℕ → N → Polls N D → Polls N D
  | levels, c, p =>
    match p.proxy c with
    | none => p.addVotes c (∑ i : Fin (D + 1), if i.val + (D - levels) ≤ D then delta i else 0)
    | some q =>
      match levels with
      | 0 => p
      | l + 1 => creditLevels delta l q (p.addProxied q delta (D - (l + 1)))

end Polls

section

variable {delta : Fin (D + 1) → ℤ} {p : Polls N D} {c q : N} {levels : ℕ}

theorem creditLevels_none (hc : p.proxy c = none) :
    p.creditLevels delta levels c = p.addVotes c
      (∑ i : Fin (D + 1), if i.val + (D - levels) ≤ D then delta i else 0) := by
  unfold Polls.creditLevels
  rw [hc]

theorem creditLevels_zero (hc : p.proxy c = some q) : p.creditLevels delta 0 c = p := by
  unfold Polls.creditLevels
  rw [hc]

theorem creditLevels_succ (hc : p.proxy c = some q) :
    p.creditLevels delta (levels + 1) c =
      (p.addProxied q delta (D - (levels + 1))).creditLevels delta levels q := by
  rw [Polls.creditLevels, hc]

/-- The way up leaves everything but the kept numbers alone. -/
theorem creditLevels_frame (levels : ℕ) (c : N) (p : Polls N D) :
    (p.creditLevels delta levels c).voters = p.voters ∧
      (p.creditLevels delta levels c).proxy = p.proxy ∧
      (p.creditLevels delta levels c).shares = p.shares ∧
      (p.creditLevels delta levels c).ballots = p.ballots := by
  induction levels generalizing c p <;> cases hc : p.proxy c
  case zero.none | succ.none =>
    rw [creditLevels_none hc]
    exact ⟨rfl, rfl, rfl, rfl⟩
  case zero.some q =>
    rw [creditLevels_zero hc]
    exact ⟨rfl, rfl, rfl, rfl⟩
  case succ.some l ih q =>
    rw [creditLevels_succ hc]
    exact ih q (p.addProxied q delta (D - (l + 1)))

/-- The entries of the voter one step up, and those further up, make all entries. -/
private theorem sum_step (hc : p.proxy c = some q) (b : N) (j depth : ℕ) :
    (∑ i : Fin (D + 1), if i.val + depth ≤ j ∧ up p.proxy (j + 1 - depth - i.val) c = some b
        then delta i else 0) =
      (∑ i : Fin (D + 1), if i.val + depth = j ∧ b = q then delta i else 0) +
        ∑ i : Fin (D + 1), if i.val + (depth + 1) ≤ j ∧
          up p.proxy (j + 1 - (depth + 1) - i.val) q = some b then delta i else 0 := by
  rw [← sum_add_distrib]
  refine sum_congr rfl fun i _ => ?_
  rcases Nat.lt_trichotomy (i.val + depth) j with hlt | heq | hgt
  · have hd : j + 1 - depth - i.val = (j + 1 - (depth + 1) - i.val) + 1 := by omega
    have hne : ¬ (i.val + depth = j ∧ b = q) := fun h => hlt.ne h.1
    rw [hd, up_succ_some hc, if_neg hne, zero_add]
    exact if_congr (and_congr_left fun _ => ⟨fun _ => hlt, fun _ => hlt.le⟩) rfl rfl
  · have hd : j + 1 - depth - i.val = 0 + 1 := by omega
    have hne : ¬ (i.val + (depth + 1) ≤ j ∧
        up p.proxy (j + 1 - (depth + 1) - i.val) q = some b) := fun h => by omega
    rw [hd, up_succ_some hc, up_zero, if_neg hne, add_zero]
    refine if_congr ⟨fun h => ⟨heq, (some.inj h.2).symm⟩, fun h => ⟨heq.le, ?_⟩⟩ rfl rfl
    rw [h.2]
  · rw [if_neg fun h => by omega, if_neg fun h => by omega, if_neg fun h => by omega, add_zero]

theorem creditLevels_proxied (hl : levels ≤ D) (b : N) (j : Fin D) :
    (p.creditLevels delta levels c).proxied b j = p.proxied b j + ∑ i : Fin (D + 1),
      if i.val + (D - levels) ≤ j.val ∧ up p.proxy (j.val + 1 - (D - levels) - i.val) c = some b
        then delta i else 0 := by
  induction levels generalizing c p with
  | zero =>
    -- nothing is left of the array
    have hzero : (∑ i : Fin (D + 1), if i.val + (D - 0) ≤ j.val ∧
        up p.proxy (j.val + 1 - (D - 0) - i.val) c = some b then delta i else 0) = 0 :=
      sum_eq_zero fun i _ => if_neg fun h => by omega
    rw [hzero, add_zero]
    cases hc : p.proxy c with
    | none => rw [creditLevels_none hc]; rfl
    | some q => rw [creditLevels_zero hc]
  | succ l ih =>
    cases hc : p.proxy c with
    | none =>
      -- nobody is above `c`
      rw [creditLevels_none hc]
      refine ((congrArg _ (sum_eq_zero fun i _ => if_neg ?_)).trans (add_zero _)).symm
      rintro ⟨hi, hup⟩
      have hd : j.val + 1 - (D - (l + 1)) - i.val = (j.val - (D - (l + 1)) - i.val) + 1 := by omega
      rw [hd, up_succ_none hc] at hup
      cases hup
    | some q =>
      have hdepth : D - l = D - (l + 1) + 1 := by omega
      rw [creditLevels_succ hc, ih (Nat.le_of_succ_le hl), sum_step hc, ← add_assoc, hdepth]
      refine congrArg (· + _) ?_
      by_cases hb : b = q
      · subst hb
        simp only [Polls.addProxied, Function.update_self, and_true]
      · simp only [Polls.addProxied, Function.update_of_ne hb, hb, and_false, if_false,
          sum_const_zero, add_zero]

open Classical in
theorem creditLevels_votes (hl : levels ≤ D) (w : N) :
    (p.creditLevels delta levels c).votes w = p.votes w + ∑ e ∈ range (levels + 1),
      if Hit p.proxy e c (p.Backs w) then
        ∑ i : Fin (D + 1), if i.val + (D - levels) + e ≤ D then delta i else 0 else 0 := by
  induction levels generalizing c p with
  | zero =>
    rw [sum_range_one]
    cases hc : p.proxy c with
    | none =>
      rw [creditLevels_none hc]
      refine congrArg (p.votes w + ·) (if_congr ?_ rfl rfl)
      exact ⟨fun h => ⟨c, rfl, hc, h⟩, fun ⟨r, hr, hb⟩ => some.inj hr ▸ hb.2⟩
    | some q =>
      rw [creditLevels_zero hc, if_neg, add_zero]
      rintro ⟨r, hr, hb⟩
      cases hr
      exact absurd (hc.symm.trans hb.1) (by simp)
  | succ l ih =>
    rw [sum_range_succ']
    cases hc : p.proxy c with
    | none =>
      rw [creditLevels_none hc]
      have hzero : ∀ e ∈ range (l + 1), (if Hit p.proxy (e + 1) c (p.Backs w) then
          ∑ i : Fin (D + 1), if i.val + (D - (l + 1)) + (e + 1) ≤ D then delta i else 0 else 0) =
          0 := by
        intro e _
        refine if_neg ?_
        rintro ⟨r, hr, -⟩
        rw [up_succ_none hc] at hr
        cases hr
      rw [sum_eq_zero hzero, zero_add]
      refine congrArg (p.votes w + ·) (if_congr ?_ rfl rfl)
      exact ⟨fun h => ⟨c, rfl, hc, h⟩, fun ⟨r, hr, hb⟩ => some.inj hr ▸ hb.2⟩
    | some q =>
      have hself : ¬ Hit p.proxy 0 c (p.Backs w) := by
        rintro ⟨r, hr, hb⟩
        cases hr
        exact absurd (hc.symm.trans hb.1) (by simp)
      rw [creditLevels_succ hc, ih (Nat.le_of_succ_le hl), if_neg hself, add_zero]
      refine congrArg (p.votes w + ·) (sum_congr rfl fun e _ => ?_)
      have hhit : Hit p.proxy (e + 1) c (p.Backs w) ↔ Hit p.proxy e q (p.Backs w) := by
        unfold Hit
        rw [up_succ_some hc]
      have hdepth : ∀ i, i + (D - (l + 1)) + (e + 1) = i + (D - l) + e := by
        intro i
        omega
      simp only [hhit, hdepth]
      rfl

/-- One proxy after the other, or all at once. -/
theorem creditLevels_eq_credit (p : Polls N D) (x : N) :
    p.creditLevels delta D x = p.credit x delta := by
  have hframe := @creditLevels_frame N _ D delta D x p
  obtain ⟨hvoters, hproxy, hshares, hballots⟩ := hframe
  have hproxied : (p.creditLevels delta D x).proxied = (p.credit x delta).proxied := by
    funext b j
    rw [creditLevels_proxied le_rfl]
    simp only [Nat.sub_self, Nat.add_zero, Nat.sub_zero]
    rfl
  have hvotes : (p.creditLevels delta D x).votes = (p.credit x delta).votes := by
    funext w
    rw [creditLevels_votes le_rfl]
    simp only [Nat.sub_self, Nat.add_zero]
    rfl
  generalize p.creditLevels delta D x = p' at *
  cases p'
  subst hvoters hproxy hshares hballots hproxied hvotes
  rfl

end

end DeltaChain.Voting

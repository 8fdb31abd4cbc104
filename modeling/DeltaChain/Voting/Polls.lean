import DeltaChain.Lib.Forest

/-!
# Votes through proxies

What the vote accounting of the chain is for, apart from how the code does it. Voters own
shares and either vote themselves or through a proxy. For every voter the shares proxied
to it are kept by distance, up to distance `D`, and for every candidate the votes. Both
are *tallied* when they agree with the proxies, shares and ballots.

`Polls.credit` is the way up the chain of proxies by which the kept numbers follow a
change at one voter. The results say that a tallied state is tallied again after

* `Tallied.gain` — a change of a voter's shares,
* `Tallied.detach` — taking a voter's proxy and ballots away,
* `Tallied.attach` — giving a voter without ballots a proxy that leads nowhere back,
* `Tallied.cast`, `Tallied.uncast` — a ballot more or less,
* `Tallied.join` — a new voter,

and that the votes then are the sum over the ballots (`Tallied.votes_eq_tally`) and never
more than the shares (`Tallied.votes_le`).
-/

namespace DeltaChain.Voting

open Lib.Forest Finset Function Option

variable {N : Type} [DecidableEq N] {D : ℕ}

/-- Voters, proxies, shares and ballots, and the numbers kept about them. -/
structure Polls (N : Type) (D : ℕ) where
  voters : Finset N
  proxy : N → Option N
  shares : N → ℤ
  ballots : Finset (N × N)
  proxied : N → Fin D → ℤ
  votes : N → ℤ

namespace Polls

variable (p : Polls N D)

/-- The weight of a voter's own ballots. -/
def weight (a : N) : ℤ := p.shares a + ∑ j, p.proxied a j

/-- The voting power of a voter, by distance. -/
def power (a : N) : Fin (D + 1) → ℤ := Fin.cons (p.shares a) (p.proxied a)

/-- `r` votes for `w` itself. -/
def Backs (w r : N) : Prop := p.proxy r = none ∧ (r, w) ∈ p.ballots

instance (p : Polls N D) (w r : N) : Decidable (p.Backs w r) := inferInstanceAs (Decidable (_ ∧ _))

/-- The votes of `w`, counted from the ballots. -/
def tally (w : N) : ℤ := ∑ r ∈ p.voters, if p.Backs w r then p.weight r else 0

/-- The shares at and under `x`, by distance. -/
noncomputable def under (x : N) (i : ℕ) : ℤ :=
  below p.voters p.proxy p.shares i x

open Classical in
/-- A change `delta` of the power of `x` goes up the chain of proxies: the voter at
distance `e` sees of it what lies at most `D - e` below `x`. -/
noncomputable def credit (x : N) (delta : Fin (D + 1) → ℤ) : Polls N D :=
  { p with
    proxied := fun b j => p.proxied b j + ∑ i : Fin (D + 1),
      if i.val ≤ j.val ∧ up p.proxy (j.val + 1 - i.val) x = some b then delta i else 0
    votes := fun w => p.votes w + ∑ e ∈ range (D + 1), if Hit p.proxy e x (p.Backs w) then
      ∑ i : Fin (D + 1), if i.val + e ≤ D then delta i else 0 else 0 }

/-- A change of the shares of `x`. -/
def addShares (x : N) (δ : ℤ) : Polls N D :=
  { p with shares := Function.update p.shares x (p.shares x + δ) }

/-- `x` votes itself, with no ballots yet. -/
def reset (x : N) : Polls N D :=
  { p with proxy := cut p.proxy x, ballots := p.ballots.filter fun b => b.1 ≠ x }

/-- `x` votes through `q`. -/
def follow (x q : N) : Polls N D := { p with proxy := link p.proxy x q }

/-- `x` puts in a ballot for `w`. -/
def cast (x w : N) : Polls N D :=
  { p with
    ballots := insert (x, w) p.ballots
    votes := Function.update p.votes w (p.votes w + p.weight x) }

/-- `x` takes its ballot for `w` back. -/
def uncast (x w : N) : Polls N D :=
  { p with
    ballots := p.ballots.erase (x, w)
    votes := Function.update p.votes w (p.votes w + -p.weight x) }

def join (x : N) : Polls N D := { p with voters := insert x p.voters }

end Polls

/-- The power a change of the shares alone amounts to. -/
def single (δ : ℤ) : Fin (D + 1) → ℤ := fun i => (Pi.single 0 δ : ℕ → ℤ) i.val

theorem single_apply (δ : ℤ) (i : Fin (D + 1)) : single δ i = (Pi.single 0 δ : ℕ → ℤ) i.val := rfl

/-- The kept numbers are those of the proxies, shares and ballots. -/
structure Tallied (p : Polls N D) : Prop where
  acyclic : Acyclic p.proxy
  voter : ∀ a q, p.proxy a = some q → a ∈ p.voters ∧ q ∈ p.voters
  ballot : ∀ a w, (a, w) ∈ p.ballots → a ∈ p.voters ∧ p.proxy a = none
  proxied : ∀ a ∈ p.voters, ∀ j : Fin D,
    p.proxied a j = below p.voters p.proxy p.shares (j.val + 1) a
  votes : ∀ w, p.votes w =
    ∑ k ∈ range (D + 1), hits p.voters p.proxy p.shares k (p.Backs w)

namespace Tallied

variable {p : Polls N D} {x q w : N}

-- # What tallied numbers are

section

variable (h : Tallied p)

include h

omit [DecidableEq N] in
theorem power_eq (hx : x ∈ p.voters) (i : Fin (D + 1)) : p.power x i = p.under x i.val := by
  cases i using Fin.cases with
  | zero => exact (below_zero hx).symm
  | succ j => exact h.proxied x hx j

omit [DecidableEq N] in
theorem weight_eq (hx : x ∈ p.voters) :
    p.weight x = ∑ k ∈ range (D + 1), below p.voters p.proxy p.shares k x := by
  rw [sum_range, Fin.sum_univ_succ]
  rw [Fin.val_zero, below_zero hx]
  exact congrArg _ (sum_congr rfl fun j _ => h.proxied x hx j)

omit [DecidableEq N] in
theorem neg_power_eq (hx : x ∈ p.voters) (i : Fin (D + 1)) : (-p.power x) i = (-p.under x) i.val :=
  congrArg Neg.neg (h.power_eq hx i)

/-- The kept votes are those counted from the ballots. -/
theorem votes_eq_tally (w : N) : p.votes w = p.tally w := by
  classical
  have hroot : ∀ k a, a ∈ p.voters →
      (if Hit p.proxy k a (p.Backs w) then p.shares a else 0) =
        ∑ r ∈ p.voters, if p.Backs w r then (if up p.proxy k a = some r then p.shares a else 0)
          else 0 := by
    intro k a ha
    by_cases hit : Hit p.proxy k a (p.Backs w)
    · -- the voter that is hit is the only one that counts
      obtain ⟨r, hr, hback⟩ := id hit
      rw [if_pos hit, sum_eq_single_of_mem r (h.ballot r w hback.2).1]
      · rw [if_pos hback, if_pos hr]
      · intro s _ hsr
        have hne : up p.proxy k a ≠ some s := fun hs => hsr (mem_unique hs hr)
        rw [if_neg hne, ite_self]
    · rw [if_neg hit]
      refine (sum_eq_zero fun r _ => ?_).symm
      split
      · next hback => exact if_neg fun hr => hit ⟨r, hr, hback⟩
      · rfl
  calc p.votes w
      = ∑ k ∈ range (D + 1), ∑ a ∈ p.voters, ∑ r ∈ p.voters, if p.Backs w r then
          (if up p.proxy k a = some r then p.shares a else 0) else 0 := by
        rw [h.votes]
        exact sum_congr rfl fun k _ => sum_congr rfl fun a ha => hroot k a ha
    _ = ∑ r ∈ p.voters, ∑ k ∈ range (D + 1), ∑ a ∈ p.voters, if p.Backs w r then
          (if up p.proxy k a = some r then p.shares a else 0) else 0 := by
        rw [sum_congr rfl fun k _ => sum_comm, sum_comm]
    _ = p.tally w := by
        refine sum_congr rfl fun r hr => ?_
        by_cases hback : p.Backs w r
        · simp only [hback, if_true]
          rw [h.weight_eq hr]
          exact sum_congr rfl fun k _ => (below_eq_sum k r).symm
        · simp only [hback, if_false, sum_const_zero]

omit [DecidableEq N] in
theorem votes_nonneg (hpos : ∀ a ∈ p.voters, 0 ≤ p.shares a) (w : N) : 0 ≤ p.votes w := by
  rw [h.votes]
  exact sum_nonneg fun k _ => hits_nonneg hpos k

omit [DecidableEq N] in
theorem votes_le (hpos : ∀ a ∈ p.voters, 0 ≤ p.shares a) (w : N) :
    p.votes w ≤ ∑ a ∈ p.voters, p.shares a := by
  rw [h.votes]
  exact sum_roots_le hpos (fun r hr => hr.1) (D + 1)

end

-- # Credits

section Credit

variable {delta : Fin (D + 1) → ℤ} (g : ℕ → ℤ)

open Classical in
theorem credit_proxied (hg : ∀ i, delta i = g i.val) (b : N) (j : Fin D) :
    (p.credit x delta).proxied b j = p.proxied b j + ∑ i ∈ range (D + 1),
      if i < j.val + 1 ∧ Hit p.proxy (j.val + 1 - i) x (· = b) then g i else 0 := by
  rw [sum_range]
  refine congrArg (p.proxied b j + ·) (sum_congr rfl fun i _ => ?_)
  rw [hg]
  exact if_congr (and_congr Nat.lt_succ_iff.symm hit_eq.symm) rfl rfl

open Classical in
theorem credit_votes (hg : ∀ i, delta i = g i.val) (w : N) :
    (p.credit x delta).votes w = p.votes w + ∑ k ∈ range (D + 1), ∑ i ∈ range (D + 1),
      if i ≤ k ∧ Hit p.proxy (k - i) x (p.Backs w) then g i else 0 := by
  rw [sum_seen]
  refine congrArg (p.votes w + ·) (sum_congr rfl fun e _ => ?_)
  rw [sum_range, sum_congr rfl fun i _ => by rw [hg]]

/-- A voter with neither proxy nor ballots passes nothing on. -/
theorem credit_of_silent (hproxy : p.proxy x = none) (hballots : ∀ w, (x, w) ∉ p.ballots) :
    p.credit x delta = p := by
  have hproxied : (p.credit x delta).proxied = p.proxied := by
    funext b j
    refine (congrArg _ (sum_eq_zero fun i _ => if_neg ?_)).trans (add_zero _)
    rintro ⟨hij, hup⟩
    rw [Nat.succ_sub hij, up_succ_none hproxy] at hup
    cases hup
  have hvotes : (p.credit x delta).votes = p.votes := by
    funext w
    refine (congrArg _ (sum_eq_zero fun e _ => if_neg ?_)).trans (add_zero _)
    rintro ⟨r, hup, -, hmem⟩
    cases e with
    | zero => exact hballots w (some.inj hup ▸ hmem)
    | succ e =>
      rw [up_succ_none hproxy] at hup
      cases hup
  unfold Polls.credit at hproxied hvotes ⊢
  simp only at hproxied hvotes
  rw [hproxied, hvotes]

theorem power_credit (h : Tallied p) : (p.credit x delta).power x = p.power x := by
  refine congrArg (Fin.cons _) (funext fun j => ?_)
  refine (congrArg _ (sum_eq_zero fun i _ => if_neg ?_)).trans (add_zero _)
  rintro ⟨hij, hup⟩
  obtain ⟨d, hd⟩ : ∃ d, j.val + 1 - i.val = d + 1 := ⟨j.val - i.val, by omega⟩
  rw [hd] at hup
  exact h.acyclic x d hup

end Credit

/-- **Shares.** A change of the shares, passed up. -/
theorem gain (h : Tallied p) (hx : x ∈ p.voters) (δ : ℤ) :
    Tallied ((p.addShares x δ).credit x (single δ)) where
  acyclic := h.acyclic
  voter := h.voter
  ballot := h.ballot
  proxied a ha j := by
    classical
    -- only the entry for distance 0 is not zero
    rw [credit_proxied _ (single_apply δ), sum_eq_single_of_mem 0 (by simp)]
    · change p.proxied a j + _ = hits p.voters p.proxy (update p.shares x _) _ _
      rw [hits_addWeight hx, h.proxied a ha j, Pi.single_eq_same]
      exact congrArg _ (if_congr (and_iff_right (Nat.succ_pos _)) rfl rfl)
    · intro i _ hi
      rw [Pi.single_eq_of_ne hi, ite_self]
  votes w := by
    classical
    rw [credit_votes _ (single_apply δ)]
    change p.votes w + _ =
      ∑ k ∈ range (D + 1), hits p.voters p.proxy (update p.shares x _) k (p.Backs w)
    rw [sum_congr rfl fun k _ => hits_addWeight hx δ k, sum_add_distrib, h.votes]
    refine congrArg _ (sum_congr rfl fun k _ => ?_)
    rw [sum_eq_single_of_mem 0 (by simp)]
    · exact if_congr (and_iff_right (Nat.zero_le _)) rfl rfl
    · intro i _ hi
      rw [Pi.single_eq_of_ne hi, ite_self]

-- # Proxies

/-- **No proxy.** The power of `x` is taken back along its chain and `x` starts again. -/
theorem detach (h : Tallied p) (hx : x ∈ p.voters) :
    Tallied ((p.credit x (-p.power x)).reset x) where
  acyclic := acyclic_cut h.acyclic
  voter a q haq := by
    have hax : a ≠ x := by
      rintro rfl
      exact absurd haq (by simp [Polls.reset])
    exact h.voter a q ((cut_of_ne hax).symm.trans haq)
  ballot a w ha := by
    obtain ⟨ha, hax⟩ := mem_filter.mp ha
    obtain ⟨hvoter, hnone⟩ := h.ballot a w ha
    exact ⟨hvoter, (cut_of_ne hax).trans hnone⟩
  proxied a ha j := by
    change (p.credit x (-p.power x)).proxied a j = hits p.voters (cut p.proxy x) p.shares _ _
    rw [credit_proxied _ (h.neg_power_eq hx),
      hits_cut h.acyclic (Nat.succ_le_succ j.isLt.le), h.proxied a ha j, sub_eq_add_neg,
      ← sum_neg_distrib]
    refine congrArg _ (sum_congr rfl fun i _ => ?_)
    rw [apply_ite Neg.neg, neg_zero]
    rfl
  votes w := by
    classical
    -- `x` itself votes for nobody any more
    have hback : ∀ r, ((p.credit x (-p.power x)).reset x).Backs w r ↔ p.Backs w r ∧ r ≠ x := by
      intro r
      constructor
      · rintro ⟨hnone, hmem⟩
        obtain ⟨hmem, hrx⟩ := mem_filter.mp hmem
        exact ⟨⟨(cut_of_ne hrx).symm.trans hnone, hmem⟩, hrx⟩
      · rintro ⟨⟨hnone, hmem⟩, hrx⟩
        exact ⟨(cut_of_ne hrx).trans hnone, mem_filter.mpr ⟨hmem, hrx⟩⟩
    have hlevel : ∀ k ∈ range (D + 1), hits p.voters (cut p.proxy x) p.shares k
        (((p.credit x (-p.power x)).reset x).Backs w) =
          hits p.voters p.proxy p.shares k (p.Backs w) - ∑ i ∈ range (D + 1),
            if i ≤ k ∧ Hit p.proxy (k - i) x (p.Backs w) then p.under x i else 0 := by
      intro k hk
      rw [funext fun r => propext (hback r)]
      exact hits_cut_ne h.acyclic (mem_range.mp hk)
    change (p.credit x (-p.power x)).votes w =
      ∑ k ∈ range (D + 1), hits p.voters (cut p.proxy x) p.shares k _
    rw [credit_votes _ (h.neg_power_eq hx),
      sum_congr rfl hlevel, sum_sub_distrib, h.votes, sub_eq_add_neg,
      ← sum_neg_distrib]
    refine congrArg _ (sum_congr rfl fun k _ => ?_)
    rw [← sum_neg_distrib]
    refine sum_congr rfl fun i _ => ?_
    rw [apply_ite Neg.neg, neg_zero]
    rfl

/-- **New proxy.** A voter without ballots gets a proxy that does not lead back to it, and
its power is passed up the new chain. -/
theorem attach (h : Tallied p) (hx : x ∈ p.voters) (hq : q ∈ p.voters) (hnone : p.proxy x = none)
    (hball : ∀ w, (x, w) ∉ p.ballots) (hfree : ∀ k, up p.proxy k q ≠ some x) :
    Tallied ((p.follow x q).credit x (p.power x)) where
  acyclic := acyclic_link h.acyclic hnone hfree
  voter a r har := by
    by_cases hax : a = x
    · subst hax
      obtain rfl : q = r := mem_unique link_self har
      exact ⟨hx, hq⟩
    · exact h.voter a r ((link_of_ne hax).symm.trans har)
  ballot a w ha := by
    obtain ⟨hvoter, ha'⟩ := h.ballot a w ha
    have hax : a ≠ x := by
      rintro rfl
      exact hball w ha
    exact ⟨hvoter, (link_of_ne hax).trans ha'⟩
  proxied a ha j := by
    change ((p.follow x q).credit x (p.power x)).proxied a j =
      hits p.voters (link p.proxy x q) p.shares _ _
    rw [credit_proxied _ (h.power_eq hx),
      hits_link hnone (acyclic_link h.acyclic hnone hfree) (Nat.succ_le_succ j.isLt.le)]
    exact congrArg (· + _) (h.proxied a ha j)
  votes w := by
    classical
    have hback : ∀ r, (p.follow x q).Backs w r ↔ p.Backs w r := by
      intro r
      refine and_congr_left fun hmem => ?_
      have hrx : r ≠ x := by
        rintro rfl
        exact hball w hmem
      exact ⟨fun hr => (link_of_ne hrx).symm.trans hr, fun hr => (link_of_ne hrx).trans hr⟩
    have hacyc := acyclic_link h.acyclic hnone hfree
    change ((p.follow x q).credit x (p.power x)).votes w =
      ∑ k ∈ range (D + 1), hits p.voters (link p.proxy x q) p.shares k ((p.follow x q).Backs w)
    rw [credit_votes _ (h.power_eq hx), funext fun r => propext (hback r),
      sum_congr rfl fun k hk => hits_link hnone hacyc (mem_range.mp hk).le,
      sum_add_distrib]
    refine congrArg₂ (· + ·) (h.votes w) (sum_congr rfl fun k _ =>
      sum_congr rfl fun i _ => if_congr ?_ rfl rfl)
    refine ⟨fun hi => ⟨hi.1.lt_of_ne ?_, hi.2⟩, fun hi => ⟨hi.1.le, hi.2⟩⟩
    -- at distance 0 there is `x` itself, which backs nobody
    rintro rfl
    obtain ⟨r, hr, hback⟩ := hi.2
    rw [Nat.sub_self, up_zero, some.injEq] at hr
    subst hr
    exact hball w hback.2

-- # Ballots and voters

theorem cast (h : Tallied p) (hx : x ∈ p.voters) (hnone : p.proxy x = none)
    (hnew : (x, w) ∉ p.ballots) : Tallied (p.cast x w) where
  acyclic := h.acyclic
  voter := h.voter
  ballot a v ha := by
    rcases mem_insert.mp ha with heq | ha
    · cases heq
      exact ⟨hx, hnone⟩
    · exact h.ballot a v ha
  proxied := h.proxied
  votes v := by
    change update p.votes w _ v =
      ∑ k ∈ range (D + 1), hits p.voters p.proxy p.shares k ((p.cast x w).Backs v)
    by_cases hvw : v = w
    · subst hvw
      have hback : ∀ r, (p.cast x v).Backs v r ↔ p.Backs v r ∨ r = x := by
        intro r
        constructor
        · rintro ⟨hr, hmem⟩
          rcases mem_insert.mp hmem with heq | hmem
          · exact Or.inr (Prod.mk.inj heq).1
          · exact Or.inl ⟨hr, hmem⟩
        · rintro (⟨hr, hmem⟩ | rfl)
          · exact ⟨hr, mem_insert_of_mem hmem⟩
          · exact ⟨hnone, mem_insert_self ..⟩
      rw [update_self, h.votes, funext fun r => propext (hback r), h.weight_eq hx,
        ← sum_add_distrib]
      exact sum_congr rfl fun k _ => (hits_or_eq (fun hb => hnew hb.2) k).symm
    · have hback : ∀ r, (p.cast x w).Backs v r ↔ p.Backs v r := by
        intro r
        refine and_congr_right fun _ => mem_insert.trans (or_iff_right fun heq => ?_)
        exact hvw (Prod.mk.inj heq).2
      rw [update_of_ne hvw, funext fun r => propext (hback r), h.votes]

theorem uncast (h : Tallied p) (hx : x ∈ p.voters) (hnone : p.proxy x = none)
    (hold : (x, w) ∈ p.ballots) : Tallied (p.uncast x w) where
  acyclic := h.acyclic
  voter := h.voter
  ballot a v ha := h.ballot a v (Finset.mem_of_mem_erase ha)
  proxied := h.proxied
  votes v := by
    change update p.votes w _ v =
      ∑ k ∈ range (D + 1), hits p.voters p.proxy p.shares k ((p.uncast x w).Backs v)
    by_cases hvw : v = w
    · subst hvw
      have hback : ∀ r, p.Backs v r ↔ (p.uncast x v).Backs v r ∨ r = x := by
        intro r
        constructor
        · rintro ⟨hr, hmem⟩
          by_cases hrx : r = x
          · exact Or.inr hrx
          · refine Or.inl ⟨hr, mem_erase.mpr ⟨fun heq => hrx (Prod.mk.inj heq).1, hmem⟩⟩
        · rintro (⟨hr, hmem⟩ | rfl)
          · exact ⟨hr, mem_of_mem_erase hmem⟩
          · exact ⟨hnone, hold⟩
      have hnot : ¬ (p.uncast x v).Backs v x := fun hb => notMem_erase _ _ hb.2
      rw [update_self, h.votes, funext fun r => propext (hback r), h.weight_eq hx,
        sum_congr rfl fun k _ => hits_or_eq hnot k, sum_add_distrib]
      ring
    · have hback : ∀ r, (p.uncast x w).Backs v r ↔ p.Backs v r := by
        intro r
        refine and_congr_right fun _ => mem_erase.trans (and_iff_right fun heq => ?_)
        exact hvw (Prod.mk.inj heq).2
      rw [update_of_ne hvw, funext fun r => propext (hback r), h.votes]

/-- Nobody has a proxy, and nobody has voted. -/
theorem init (hproxy : ∀ a, p.proxy a = none) (hballots : p.ballots = ∅)
    (hproxied : ∀ a, p.proxied a = 0) (hvotes : ∀ w, p.votes w = 0) : Tallied p where
  acyclic a k h := by
    rw [up_succ_none (hproxy a)] at h
    cases h
  voter a q haq := absurd haq (by simp [hproxy])
  ballot a w ha := absurd ha (by simp [hballots])
  proxied a ha j := by
    rw [hproxied, below_eq_sum]
    refine (sum_eq_zero fun c _ => if_neg ?_).symm
    rw [up_succ_none (hproxy c)]
    simp
  votes w := by
    rw [hvotes]
    refine (sum_eq_zero fun k _ => sum_eq_zero fun c _ => if_neg ?_).symm
    rintro ⟨r, -, -, hmem⟩
    simp [hballots] at hmem

theorem join (h : Tallied p) (hx : x ∉ p.voters) (hshares : p.shares x = 0)
    (hproxied : p.proxied x = 0) : Tallied (p.join x) where
  acyclic := h.acyclic
  voter a q haq := by
    obtain ⟨ha, hq⟩ := h.voter a q haq
    exact ⟨mem_insert_of_mem ha, mem_insert_of_mem hq⟩
  ballot a w ha := by
    obtain ⟨hvoter, hnone⟩ := h.ballot a w ha
    exact ⟨mem_insert_of_mem hvoter, hnone⟩
  proxied a ha j := by
    change p.proxied a j = hits (insert x p.voters) p.proxy p.shares _ _
    rw [hits_insert hx hshares]
    rcases mem_insert.mp ha with rfl | ha
    · -- nobody's proxies lead to a voter that did not exist
      have hzero : below p.voters p.proxy p.shares (j.val + 1) a = 0 := by
        rw [below_eq_sum]
        refine sum_eq_zero fun c hc => if_neg fun hup => hx ?_
        exact up_mem (fun a _ q haq => (h.voter a q haq).2) hc hup
      rw [hproxied]
      exact hzero.symm
    · exact h.proxied a ha j
  votes w := by
    change p.votes w = ∑ k ∈ range (D + 1), hits (insert x p.voters) p.proxy p.shares k (p.Backs w)
    rw [sum_congr rfl fun k _ => hits_insert hx hshares k, h.votes]

end Tallied

end DeltaChain.Voting

import Mathlib

/-!
# Forests with weights

A parent function `parent : N → Option N` without cycles makes a forest. `up parent k a`
is the ancestor of `a` at distance `k`. With a weight on every node, `hits` is the weight
of the nodes whose ancestor at a given distance satisfies a predicate and `below` the
weight at a given distance under a node.

* `acyclic_cut`, `acyclic_link` — taking away an edge, or adding one that closes no loop,
  leaves a forest;
* `hits_addWeight`, `hits_cut`, `hits_link` — how `hits` changes with the weight of a node
  and with the edge above a node;
* `sum_roots_le` — the roots together see no weight twice;
* `sum_arrived` — with what is still on its way up after `D` steps they see all of it.
-/

namespace DeltaChain.Lib.Forest

open Finset Option Function

variable {N : Type}

/-- The ancestor at distance `k`. -/
def up (parent : N → Option N) : ℕ → N → Option N
  | 0, a => some a
  | k + 1, a => (parent a).bind (up parent k)

/-- No node is its own ancestor. -/
def Acyclic (parent : N → Option N) : Prop := ∀ a k, up parent (k + 1) a ≠ some a

-- # Ancestors

variable {k : ℕ}

section Ancestors

variable {parent : N → Option N} {j : ℕ}

@[simp] theorem up_zero (a : N) : up parent 0 a = some a := rfl

theorem up_succ (k : ℕ) (a : N) : up parent (k + 1) a = (parent a).bind (up parent k) := rfl

theorem up_succ_some {a p : N} (h : parent a = some p) (k : ℕ) :
    up parent (k + 1) a = up parent k p := by rw [up_succ, h, bind_some]

theorem up_succ_none {a : N} (h : parent a = none) (k : ℕ) : up parent (k + 1) a = none := by
  rw [up_succ, h, bind_none]

theorem up_add (j k : ℕ) (a : N) : up parent (j + k) a = (up parent j a).bind (up parent k) := by
  induction j generalizing a with
  | zero => simp
  | succ j ih =>
    rw [Nat.add_right_comm, up_succ, up_succ]
    cases parent a with
    | none => rfl
    | some p => exact ih p

theorem up_sub {a x : N} (hj : up parent j a = some x) (hjk : j ≤ k) :
    up parent k a = up parent (k - j) x := by
  have h : up parent (j + (k - j)) a = _ := up_add j (k - j) a
  rw [Nat.add_sub_cancel' hjk, hj] at h
  exact h

theorem Acyclic.up_unique (hp : Acyclic parent) {a x : N} (hj : up parent j a = some x)
    (hk : up parent k a = some x) : j = k := by
  -- the longer way would go round from `x` to itself
  have key : ∀ {i l : ℕ}, up parent i a = some x → up parent l a = some x → ¬ i < l := by
    intro i l hi hl hlt
    rw [up_sub hi hlt.le] at hl
    obtain ⟨d, hd⟩ : ∃ d, l - i = d + 1 := ⟨l - i - 1, by omega⟩
    rw [hd] at hl
    exact hp x d hl
  have h₁ := key hj hk
  have h₂ := key hk hj
  omega

theorem up_root_unique {a r s : N} (hj : up parent j a = some r) (hr : parent r = none)
    (hk : up parent k a = some s) (hs : parent s = none) : j = k := by
  have key : ∀ {i l : ℕ} {r s : N}, up parent i a = some r → parent r = none →
      up parent l a = some s → ¬ i < l := by
    intro i l r s hi hr hl hlt
    rw [up_sub hi hlt.le] at hl
    obtain ⟨d, hd⟩ : ∃ d, l - i = d + 1 := ⟨l - i - 1, by omega⟩
    rw [hd, up_succ_none hr] at hl
    cases hl
  have h₁ := key hj hr hk
  have h₂ := key hk hs hj
  omega

end Ancestors

-- # Cutting and linking

section Edges

variable [DecidableEq N] {parent : N → Option N} {x p : N} {a : N}

/-- The forest without the edge above `x`. -/
def cut (parent : N → Option N) (x : N) : N → Option N := Function.update parent x none

/-- The forest with the edge above `x` leading to `p`. -/
def link (parent : N → Option N) (x p : N) : N → Option N := Function.update parent x (some p)

@[simp] theorem cut_self : cut parent x x = none := update_self ..

theorem cut_of_ne (h : a ≠ x) : cut parent x a = parent a := update_of_ne h ..

@[simp] theorem link_self : link parent x p x = some p := update_self ..

theorem link_of_ne (h : a ≠ x) : link parent x p a = parent a :=
  update_of_ne h ..

theorem cut_link (hx : parent x = none) : cut (link parent x p) x = parent := by
  unfold cut link
  rw [update_idem, ← hx, update_eq_self]

/-- The ways that are left after a cut are those that did not go through `x`. -/
theorem up_cut {a b : N} :
    up (cut parent x) k a = some b ↔
      up parent k a = some b ∧ ∀ j < k, up parent j a ≠ some x := by
  induction k generalizing a with
  | zero => simp
  | succ k ih =>
    by_cases ha : a = x
    · subst ha
      rw [up_succ_none cut_self]
      simp only [reduceCtorEq, false_iff, not_and, not_forall]
      exact fun _ => ⟨0, k.succ_pos, fun h => h rfl⟩
    · rw [up_succ, up_succ, cut_of_ne ha]
      cases hpa : parent a with
      | none => simp
      | some q =>
        rw [bind_some, bind_some, ih]
        refine and_congr_right fun _ => ⟨fun h j hj => ?_, fun h j hj => ?_⟩
        · cases j with
          | zero => exact fun h' => ha (some.inj h')
          | succ j =>
            rw [up_succ_some hpa]
            exact h j (Nat.lt_of_succ_lt_succ hj)
        · rw [← up_succ_some hpa]
          exact h (j + 1) (Nat.succ_lt_succ hj)

theorem acyclic_cut (hp : Acyclic parent) : Acyclic (cut parent x) :=
  fun a k h => hp a k (up_cut.mp h).1

/-- A new edge closes no loop when its end does not lead to its start. -/
theorem acyclic_link (hp : Acyclic parent) (hx : parent x = none)
    (hfree : ∀ k, up parent k p ≠ some x) : Acyclic (link parent x p) := by
  -- first, `x` itself is on no loop: take the first return to `x`
  have hself : ∀ k, up (link parent x p) k p ≠ some x := by
    intro k h
    have hex : ∃ k, up (link parent x p) k p = some x := ⟨k, h⟩
    have hfirst : up (cut (link parent x p) x) (Nat.find hex) p = some x :=
      up_cut.mpr ⟨Nat.find_spec hex, fun j hj => Nat.find_min hex hj⟩
    rw [cut_link hx] at hfirst
    exact hfree _ hfirst
  intro a k h
  by_cases hthrough : ∃ j < k + 1, up (link parent x p) j a = some x
  · -- a loop through `x` is one that starts there
    obtain ⟨j, hj, hjx⟩ := hthrough
    have hloop : up (link parent x p) (k + 1 - j + j) x = some x := by
      rw [up_add, ← up_sub hjx hj.le, h, bind_some, hjx]
    obtain ⟨d, hd⟩ : ∃ d, k + 1 - j + j = d + 1 := ⟨k, by omega⟩
    rw [hd, up_succ_some link_self] at hloop
    exact hself d hloop
  · push Not at hthrough
    have hold : up (cut (link parent x p) x) (k + 1) a = some a := up_cut.mpr ⟨h, hthrough⟩
    rw [cut_link hx] at hold
    exact hp a k hold

end Edges

-- # Weights

section Weights

/-- The ancestor of `a` at distance `k` satisfies `P`. -/
def Hit (parent : N → Option N) (k : ℕ) (a : N) (P : N → Prop) : Prop :=
  ∃ r, up parent k a = some r ∧ P r

open Classical in
/-- The weight of the nodes whose ancestor at distance `k` satisfies `P`. -/
noncomputable def hits (nodes : Finset N) (parent : N → Option N) (w : N → ℤ) (k : ℕ)
    (P : N → Prop) : ℤ := ∑ a ∈ nodes, if Hit parent k a P then w a else 0

/-- The weight at distance `k` under `b`. -/
noncomputable def below (nodes : Finset N) (parent : N → Option N) (w : N → ℤ) (k : ℕ)
    (b : N) : ℤ := hits nodes parent w k (· = b)

variable {nodes : Finset N} {parent : N → Option N} {w : N → ℤ} {x p : N} {P : N → Prop} {n : ℕ}
  {a b : N}

theorem hit_eq : Hit parent k a (· = b) ↔ up parent k a = some b := by
  simp [Hit]

theorem hit_sub {j : ℕ} {a : N} (hj : up parent j a = some x) (hjk : j ≤ k) :
    Hit parent k a P ↔ Hit parent (k - j) x P := by
  unfold Hit
  rw [up_sub hj hjk]

theorem below_eq_sum [DecidableEq N] (k : ℕ) (b : N) :
    below nodes parent w k b = ∑ a ∈ nodes, if up parent k a = some b then w a else 0 := by
  classical
  exact sum_congr rfl fun a _ => if_congr hit_eq rfl rfl

theorem below_zero {b : N} (hb : b ∈ nodes) : below nodes parent w 0 b = w b := by
  classical
  rw [below_eq_sum]
  simp [hb]

/-- One more node to hit adds what lies under it. -/
theorem hits_or_eq {b : N} (hb : ¬ P b) (k : ℕ) :
    hits nodes parent w k (fun r => P r ∨ r = b) =
      hits nodes parent w k P + below nodes parent w k b := by
  classical
  unfold below hits
  rw [← sum_add_distrib]
  refine sum_congr rfl fun a _ => ?_
  by_cases hit : Hit parent k a (· = b)
  · have hP : ¬ Hit parent k a P := by
      rintro ⟨r, hr, hPr⟩
      rw [hit_eq] at hit
      obtain rfl := mem_unique hr hit
      exact hb hPr
    have hor : Hit parent k a fun r => P r ∨ r = b := ⟨b, hit_eq.mp hit, Or.inr rfl⟩
    rw [if_pos hor, if_neg hP, if_pos hit, zero_add]
  · rw [if_neg hit, add_zero]
    refine if_congr (exists_congr fun r => and_congr_right fun hr => ?_) rfl rfl
    exact or_iff_left fun hrb => hit ⟨r, hr, hrb⟩

theorem hits_nonneg (hw : ∀ a ∈ nodes, 0 ≤ w a) (k : ℕ) : 0 ≤ hits nodes parent w k P := by
  refine sum_nonneg fun a ha => ?_
  split
  · exact hw a ha
  · exact le_refl _

theorem hits_insert {a : N} [DecidableEq N] (ha : a ∉ nodes) (hw : w a = 0) (k : ℕ) :
    hits (insert a nodes) parent w k P = hits nodes parent w k P := by
  unfold hits
  rw [sum_insert ha, hw, ite_self, zero_add]

theorem up_mem (hclosed : ∀ a ∈ nodes, ∀ q, parent a = some q → q ∈ nodes)
    (ha : a ∈ nodes) (h : up parent k a = some b) : b ∈ nodes := by
  induction k generalizing a with
  | zero =>
    cases h
    exact ha
  | succ k ih =>
    obtain ⟨q, hq, h⟩ := bind_eq_some_iff.mp h
    exact ih (hclosed a ha q hq) h

open Classical in
/-- The roots together see no weight twice. -/
theorem sum_roots_le (hw : ∀ a ∈ nodes, 0 ≤ w a) (hP : ∀ r, P r → parent r = none) (n : ℕ) :
    ∑ k ∈ range n, hits nodes parent w k P ≤ ∑ a ∈ nodes, w a := by
  unfold hits
  rw [sum_comm]
  refine sum_le_sum fun a ha => ?_
  by_cases hroot : ∃ k ∈ range n, Hit parent k a P
  · -- the root of `a` is at one distance only
    obtain ⟨k, hk, r, hr, hPr⟩ := hroot
    rw [sum_eq_single_of_mem k hk]
    · rw [if_pos ⟨r, hr, hPr⟩]
    · rintro j - hjk
      rw [if_neg]
      rintro ⟨s, hs, hPs⟩
      exact hjk (up_root_unique hs (hP s hPs) hr (hP r hPr))
  · push Not at hroot
    rw [sum_eq_zero fun k hk => if_neg (hroot k hk)]
    exact hw a ha

theorem hits_true_succ (k : ℕ) :
    hits nodes parent w k (fun _ => True) =
      hits nodes parent w k (parent · = none) + hits nodes parent w (k + 1) (fun _ => True) := by
  unfold hits
  rw [← sum_add_distrib]
  refine sum_congr rfl fun a _ => ?_
  unfold Hit
  rw [up_add k 1 a]
  cases hr : up parent k a with
  | none => simp
  | some r =>
    cases hp : parent r with
    | none => simp [up_succ, hp]
    | some q => simp [up_succ, hp]

open Classical in
theorem hits_eq_sum_below (hclosed : ∀ a ∈ nodes, ∀ q, parent a = some q → q ∈ nodes) (k : ℕ) :
    hits nodes parent w k P = ∑ b ∈ nodes, if P b then below nodes parent w k b else 0 := by
  have hnode : ∀ a ∈ nodes, (if Hit parent k a P then w a else 0) =
      ∑ b ∈ nodes, if P b then (if up parent k a = some b then w a else 0) else 0 := by
    intro a ha
    cases hr : up parent k a with
    | none => simp [Hit, hr]
    | some r =>
      rw [sum_eq_single_of_mem r (up_mem hclosed ha hr)]
      · simp [Hit, hr]
      · intro b _ hb
        simp [Ne.symm hb]
  unfold hits
  rw [sum_congr rfl hnode, sum_comm]
  refine sum_congr rfl fun b _ => ?_
  split
  · rw [below_eq_sum]
  · exact sum_const_zero

theorem sum_hits_roots (parent : N → Option N) (D : ℕ) :
    ∑ k ∈ range D, hits nodes parent w k (parent · = none) +
      hits nodes parent w D (fun _ => True) = ∑ b ∈ nodes, w b := by
  induction D with
  | zero =>
    rw [sum_range_zero, zero_add]
    exact sum_congr rfl fun a _ => if_pos ⟨a, rfl, trivial⟩
  | succ D ih => rw [sum_range_succ, add_assoc, ← hits_true_succ, ih]

open Classical in
/-- **Nothing is lost on the way up.** Counted at its root, or at its ancestor at distance `D`
if that is none, every weight is counted once. -/
theorem sum_arrived (hclosed : ∀ a ∈ nodes, ∀ q, parent a = some q → q ∈ nodes) (D : ℕ) :
    (∑ b ∈ nodes, if parent b = none then ∑ k ∈ range (D + 1), below nodes parent w k b
      else below nodes parent w D b) = ∑ b ∈ nodes, w b := by
  refine Eq.trans ?_ (sum_hits_roots parent D)
  rw [hits_eq_sum_below hclosed, sum_congr rfl fun k _ => hits_eq_sum_below hclosed k,
    sum_comm, ← sum_add_distrib]
  refine sum_congr rfl fun b _ => ?_
  rw [if_pos trivial]
  split
  · rw [sum_range_succ]
  · rw [sum_const_zero, zero_add]

variable [DecidableEq N]

open Classical in
theorem hits_addWeight (hx : x ∈ nodes) (δ : ℤ) (k : ℕ) :
    hits nodes parent (update w x (w x + δ)) k P =
      hits nodes parent w k P + if Hit parent k x P then δ else 0 := by
  unfold hits
  rw [← add_sum_erase _ _ hx, ← add_sum_erase _ _ hx, update_self]
  have hrest : ∀ a ∈ nodes.erase x,
      (if Hit parent k a P then update w x (w x + δ) a else 0) =
        if Hit parent k a P then w a else 0 := by
    intro a ha
    rw [update_of_ne (ne_of_mem_erase ha)]
  rw [sum_congr rfl hrest]
  split <;> ring

section

variable (hp : Acyclic parent)

include hp

omit [DecidableEq N] in
/-- A node through which the way to its ancestor at distance `k` goes, counted once for
every distance at which the way can pass `x`. -/
private theorem sum_through (a : N) (k n : ℕ) (hk : k ≤ n) (c : ℤ)
    [Decidable (∃ j < k, up parent j a = some x)] [∀ j, Decidable (up parent j a = some x)] :
    (if ∃ j < k, up parent j a = some x then c else 0) =
      ∑ j ∈ range n, if j < k ∧ up parent j a = some x then c else 0 := by
  by_cases h : ∃ j < k, up parent j a = some x
  · rw [if_pos h]
    obtain ⟨j, hj, hjx⟩ := h
    rw [sum_eq_single j]
    · rw [if_pos ⟨hj, hjx⟩]
    · intro i _ hi
      rw [if_neg]
      rintro ⟨-, hix⟩
      exact hi (hp.up_unique hix hjx)
    · intro hout
      exact absurd (mem_range.mpr (by omega)) hout
  · rw [if_neg h]
    refine (sum_eq_zero fun j _ => if_neg ?_).symm
    rintro ⟨hj, hjx⟩
    exact h ⟨j, hj, hjx⟩

open Classical in
/-- The weight whose way meets `P` at distance `k` and does not pass `x` before distance
`m`: what is missing is the weight at and under `x`, as far as `x` leads to `P`. -/
private theorem sum_avoiding {m n : ℕ} (hm : m ≤ k + 1) (hn : m ≤ n) :
    (∑ a ∈ nodes, if Hit parent k a P ∧ ¬ ∃ j < m, up parent j a = some x then w a else 0) =
      hits nodes parent w k P -
        ∑ j ∈ range n, if j < m ∧ Hit parent (k - j) x P then below nodes parent w j x else 0 := by
  -- per node: what it loses is the one round of the sum in which its way passes `x`
  have hnode : ∀ a, (if Hit parent k a P ∧ ¬ ∃ j < m, up parent j a = some x then w a else 0) =
      (if Hit parent k a P then w a else 0) -
        ∑ j ∈ range n, if j < m ∧ Hit parent (k - j) x P then
          (if up parent j a = some x then w a else 0) else 0 := by
    intro a
    have hsum : (∑ j ∈ range n, if j < m ∧ Hit parent (k - j) x P then
        (if up parent j a = some x then w a else 0) else 0) =
        if ∃ j < m, up parent j a = some x then
          (if Hit parent k a P then w a else 0) else 0 := by
      rw [sum_through hp a m n hn]
      refine sum_congr rfl fun j _ => ?_
      by_cases hj : j < m ∧ up parent j a = some x
      · obtain ⟨hjm, hjx⟩ := hj
        have hjk : j ≤ k := by omega
        simp only [hjm, hjx, true_and, and_self, if_true, hit_sub hjx hjk]
      · rw [if_neg hj]
        split
        · next hP => rw [if_neg fun h => hj ⟨hP.1, h⟩]
        · rfl
    rw [hsum]
    by_cases hthrough : ∃ j < m, up parent j a = some x
    · rw [if_pos hthrough, sub_self, if_neg fun h => h.2 hthrough]
    · rw [if_neg hthrough, sub_zero]
      exact if_congr (and_iff_left hthrough) rfl rfl
  unfold hits
  rw [sum_congr rfl fun a _ => hnode a, sum_sub_distrib, sum_comm]
  congr 1
  refine sum_congr rfl fun j _ => ?_
  rw [below_eq_sum]
  split
  · rfl
  · exact sum_const_zero

open Classical in
/-- **Cut.** Without the edge above `x`, everything at or under `x` is lost to the
ancestors of `x`. -/
theorem hits_cut (hk : k ≤ n) :
    hits nodes (cut parent x) w k P = hits nodes parent w k P -
      ∑ j ∈ range n, if j < k ∧ Hit parent (k - j) x P then below nodes parent w j x else 0 := by
  rw [← sum_avoiding hp k.le_succ hk]
  refine sum_congr rfl fun a _ => if_congr ?_ rfl rfl
  constructor
  · rintro ⟨r, hr, hP⟩
    obtain ⟨hr, havoid⟩ := up_cut.mp hr
    exact ⟨⟨r, hr, hP⟩, fun ⟨j, hj, hjx⟩ => havoid j hj hjx⟩
  · rintro ⟨⟨r, hr, hP⟩, havoid⟩
    exact ⟨r, up_cut.mpr ⟨hr, fun j hj hjx => havoid ⟨j, hj, hjx⟩⟩, hP⟩

open Classical in
/-- `hits_cut` for a target that `x` itself is no longer part of. -/
theorem hits_cut_ne (hk : k < n) :
    hits nodes (cut parent x) w k (fun r => P r ∧ r ≠ x) = hits nodes parent w k P -
      ∑ j ∈ range n, if j ≤ k ∧ Hit parent (k - j) x P then below nodes parent w j x else 0 := by
  have hsum : (∑ a ∈ nodes, if Hit parent k a P ∧ ¬ ∃ j < k + 1, up parent j a = some x
      then w a else 0) = _ := sum_avoiding hp le_rfl hk
  simp only [Nat.lt_succ_iff] at hsum
  rw [← hsum]
  refine sum_congr rfl fun a _ => if_congr ?_ rfl rfl
  constructor
  · rintro ⟨r, hr, hP, hrx⟩
    obtain ⟨hr, havoid⟩ := up_cut.mp hr
    refine ⟨⟨r, hr, hP⟩, ?_⟩
    rintro ⟨j, hj, hjx⟩
    rcases hj.lt_or_eq with hj | rfl
    · exact havoid j hj hjx
    · exact hrx (mem_unique hr hjx)
  · rintro ⟨⟨r, hr, hP⟩, havoid⟩
    refine ⟨r, up_cut.mpr ⟨hr, fun j hj hjx => havoid ⟨j, hj.le, hjx⟩⟩, hP, ?_⟩
    rintro rfl
    exact havoid ⟨k, le_rfl, hr⟩

theorem below_cut_self (k : ℕ) : below nodes (cut parent x) w k x = below nodes parent w k x := by
  unfold below
  rw [hits_cut hp le_rfl, sub_eq_self]
  refine sum_eq_zero fun j _ => if_neg ?_
  rintro ⟨hj, hit⟩
  obtain ⟨d, hd⟩ : ∃ d, k - j = d + 1 := ⟨k - j - 1, by omega⟩
  rw [hd, hit_eq] at hit
  exact hp x d hit

end

open Classical in
/-- **Link.** With a new edge above `x`, everything at or under `x` is gained by the new
ancestors of `x`. -/
theorem hits_link (hx : parent x = none) (hp : Acyclic (link parent x p)) (hk : k ≤ n) :
    hits nodes (link parent x p) w k P = hits nodes parent w k P +
      ∑ j ∈ range n, if j < k ∧ Hit (link parent x p) (k - j) x P then
        below nodes parent w j x else 0 := by
  have hcut : hits nodes (cut (link parent x p) x) w k P = _ := hits_cut hp hk
  have hbelow : ∀ j, below nodes (link parent x p) w j x = below nodes parent w j x := by
    intro j
    rw [← below_cut_self hp, cut_link hx]
  rw [cut_link hx] at hcut
  rw [hcut]
  simp only [hbelow]
  ring

-- # All distances together

/-- A sum over the distances from `i` on, counted from `i`. -/
theorem sum_shift (g : ℕ → ℤ) (D i : ℕ) :
    (∑ k ∈ range (D + 1), if i ≤ k then g (k - i) else 0) =
      ∑ e ∈ range (D + 1), if i + e ≤ D then g e else 0 := by
  rw [← sum_filter, ← sum_filter]
  refine sum_nbij' (· - i) (· + i) ?_ ?_ ?_ ?_ ?_
  · intro k hk
    simp only [mem_filter, mem_range] at hk ⊢
    omega
  · intro e he
    simp only [mem_filter, mem_range] at he ⊢
    omega
  · intro k hk
    exact Nat.sub_add_cancel (mem_filter.mp hk).2
  · intro e _
    exact Nat.add_sub_cancel e i
  · intro k _
    rfl

omit [DecidableEq N] in
open Classical in
/-- What the ancestors of `x` see of the weights at and under `x`, up to distance `D`:
summed over the distance from the top, or over the distance above `x`. -/
theorem sum_seen (δ : ℕ → ℤ) (D : ℕ) (P : N → Prop) :
    (∑ k ∈ range (D + 1), ∑ i ∈ range (D + 1),
        if i ≤ k ∧ Hit parent (k - i) x P then δ i else 0) =
      ∑ e ∈ range (D + 1), if Hit parent e x P then
        ∑ i ∈ range (D + 1), if i + e ≤ D then δ i else 0 else 0 := by
  rw [sum_comm]
  have hinner : ∀ i, (∑ k ∈ range (D + 1), if i ≤ k ∧ Hit parent (k - i) x P then δ i else 0) =
      ∑ e ∈ range (D + 1), if i + e ≤ D then (if Hit parent e x P then δ i else 0) else 0 := by
    intro i
    rw [← sum_shift]
    exact sum_congr rfl fun k _ => ite_and ..
  rw [sum_congr rfl fun i _ => hinner i, sum_comm]
  refine sum_congr rfl fun e _ => ?_
  split
  · rfl
  · simp

end Weights

end DeltaChain.Lib.Forest

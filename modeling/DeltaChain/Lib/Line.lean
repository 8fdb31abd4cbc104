import DeltaChain.Lib.Forest

/-!
# Lines of ancestors and descendants

The line of a node is the list of the node, its parent, and so on up to a root. A node is under
another one if that is a proper ancestor of it; `descendants` is the set of the nodes under a node.

* `Line.nodup`, `Line.mem_iff` — a line has no node twice and holds the ancestors;
* `exists_line` — there is one if parents come lower in some rank;
* `descendants_link_leaf`, `descendants_cut_leaf` — what a new leaf, or one that goes, changes.
-/

namespace DeltaChain.Lib.Forest

open List Function Option

variable {N : Type} {parent : N → Option N}

/-- A node and everything above it. -/
inductive Line (parent : N → Option N) : N → List N → Prop
  | root {a : N} : parent a = none → Line parent a [a]
  | step {a p : N} {l : List N} : parent a = some p → Line parent p l → Line parent a (a :: l)

namespace Line

variable {a b : N} {l l' : List N}

theorem unique (h : Line parent a l) (h' : Line parent a l') : l = l' := by
  induction h generalizing l' with
  | root hroot =>
    cases h' with
    | root => rfl
    | step hp => exact absurd (hroot.symm.trans hp) (by simp)
  | step hp _ ih =>
    cases h' with
    | root hroot => exact absurd (hroot.symm.trans hp) (by simp)
    | step hp' hl' =>
      obtain rfl := mem_unique hp hp'
      rw [ih hl']

theorem suffix_of_mem (h : Line parent a l) (hb : b ∈ l) : ∃ l', Line parent b l' ∧ l' <:+ l := by
  induction h with
  | root hroot =>
    obtain rfl := mem_singleton.mp hb
    exact ⟨_, .root hroot, suffix_refl _⟩
  | step hp hl ih =>
    rcases mem_cons.mp hb with rfl | hb
    · exact ⟨_, .step hp hl, suffix_refl _⟩
    · obtain ⟨l', hl', hsuf⟩ := ih hb
      exact ⟨l', hl', hsuf.trans (suffix_cons ..)⟩

theorem nodup (h : Line parent a l) : l.Nodup := by
  induction h with
  | root => exact nodup_singleton _
  | @step a p l hp hl ih =>
    refine nodup_cons.mpr ⟨fun hmem => ?_, ih⟩
    -- the line of the node would be part of the line above it, and longer than that
    obtain ⟨l', hl', hsuf⟩ := hl.suffix_of_mem hmem
    have heq := hl'.unique (.step hp hl)
    have hlen := hsuf.length_le
    rw [heq, length_cons] at hlen
    omega

theorem mem_iff (h : Line parent a l) : b ∈ l ↔ ∃ k, up parent k a = some b := by
  induction h with
  | @root a hroot =>
    rw [mem_singleton]
    constructor
    · rintro rfl
      exact ⟨0, rfl⟩
    · rintro ⟨k, hk⟩
      cases k with
      | zero => exact (some.inj hk).symm
      | succ k => exact absurd hk (by rw [up_succ_none hroot]; simp)
  | @step a p l hp _ ih =>
    rw [mem_cons, ih]
    constructor
    · rintro (rfl | ⟨k, hk⟩)
      · exact ⟨0, rfl⟩
      · exact ⟨k + 1, by rw [up_succ_some hp, hk]⟩
    · rintro ⟨k, hk⟩
      cases k with
      | zero => exact .inl (some.inj hk).symm
      | succ k => exact .inr ⟨k, by rw [← up_succ_some hp, hk]⟩

end Line

/-- What lies above a node with the given parent. -/
def LineAbove (parent : N → Option N) : Option N → List N → Prop
  | none, l => l = []
  | some p, l => Line parent p l

theorem exists_line (rank : N → ℕ) (hrank : ∀ a p, parent a = some p → rank p < rank a) (a : N) :
    ∃ l, Line parent a l := by
  induction h : rank a using Nat.strong_induction_on generalizing a with
  | _ n ih =>
    cases hp : parent a with
    | none => exact ⟨_, .root hp⟩
    | some p =>
      obtain ⟨l, hl⟩ := ih (rank p) (h ▸ hrank a p hp) p rfl
      exact ⟨_, .step hp hl⟩

-- # Descendants

/-- The nodes under a node. -/
def descendants (parent : N → Option N) (b : N) : Set N := {a | ∃ k, up parent (k + 1) a = some b}

theorem not_mem_descendants_of_root {a b : N} (h : parent a = none) : a ∉ descendants parent b := by
  rintro ⟨k, hk⟩
  rw [up_succ_none h] at hk
  cases hk

theorem mem_descendants_iff {a b : N} {l : List N} (hl : LineAbove parent (parent a) l) :
    a ∈ descendants parent b ↔ b ∈ l := by
  cases hp : parent a with
  | none =>
    rw [hp] at hl
    rw [show l = [] from hl]
    exact iff_of_false (not_mem_descendants_of_root hp) (by simp)
  | some p =>
    rw [hp] at hl
    rw [Line.mem_iff hl]
    exact exists_congr fun k => by rw [up_succ_some hp]

theorem mem_descendants_of_parent {a b : N} (h : parent a = some b) : a ∈ descendants parent b :=
  ⟨0, by rw [up_succ_some h, up_zero]⟩

theorem descendants_of_leaf {x : N} (hleaf : ∀ a, parent a ≠ some x) : descendants parent x = ∅ := by
  refine Set.eq_empty_of_forall_notMem ?_
  rintro a ⟨k, hk⟩
  rw [up_add k 1 a] at hk
  obtain ⟨p, -, hp⟩ := bind_eq_some_iff.mp hk
  obtain ⟨q, hq, hup⟩ := bind_eq_some_iff.mp hp
  cases hup
  exact hleaf p hq

variable [DecidableEq N] {x : N} (hleaf : ∀ a, parent a ≠ some x)

include hleaf

theorem up_update_leaf (o : Option N) (k : ℕ) {a : N} (ha : a ≠ x) :
    up (update parent x o) k a = up parent k a := by
  induction k generalizing a with
  | zero => rfl
  | succ k ih =>
    rw [up_succ, up_succ, update_of_ne ha]
    cases hp : parent a with
    | none => rfl
    | some p => exact ih fun hpx => hleaf a (hpx ▸ hp)

theorem mem_descendants_update (o : Option N) {a b : N} (ha : a ≠ x) :
    a ∈ descendants (update parent x o) b ↔ a ∈ descendants parent b := by
  exact exists_congr fun k => by rw [up_update_leaf hleaf o (k + 1) ha]

theorem Line.update_leaf (o : Option N) {a : N} {l : List N} (ha : a ≠ x) (h : Line parent a l) :
    Line (update parent x o) a l := by
  induction h with
  | root hroot => exact .root (by rw [update_of_ne ha, hroot])
  | @step a p l hp _ ih =>
    exact .step (by rw [update_of_ne ha, hp]) (ih fun hpx => hleaf a (hpx ▸ hp))

theorem LineAbove.update_leaf (o' : Option N) {o : Option N} {l : List N} (ho : o ≠ some x)
    (h : LineAbove parent o l) : LineAbove (update parent x o') o l := by
  cases o with
  | none => exact h
  | some p => exact Line.update_leaf hleaf o' (fun hpx => ho (hpx ▸ rfl)) h

/-- A new leaf comes under the line above it, and nowhere else. -/
theorem descendants_link_leaf (hx : parent x = none) {o : Option N} {b : N} {l : List N}
    (ho : o ≠ some x) (hl : LineAbove parent o l) :
    descendants (update parent x o) b =
      if b ∈ l then insert x (descendants parent b) else descendants parent b := by
  have hl' : LineAbove (update parent x o) (update parent x o x) l := by
    rw [update_self]
    exact hl.update_leaf hleaf o ho
  have hxmem : x ∈ descendants (update parent x o) b ↔ b ∈ l := mem_descendants_iff hl'
  have hold : x ∉ descendants parent b := not_mem_descendants_of_root hx
  ext a
  by_cases ha : a = x
  · subst ha
    split <;> simp_all
  · rw [mem_descendants_update hleaf _ ha]
    split <;> simp [ha]

theorem descendants_cut_leaf (b : N) :
    descendants (update parent x none) b = descendants parent b \ {x} := by
  ext a
  by_cases ha : a = x
  · subst ha
    have hnot : a ∉ descendants (update parent a none) b :=
      not_mem_descendants_of_root (update_self ..)
    simp [hnot]
  · rw [mem_descendants_update hleaf _ ha]
    simp [ha]

end DeltaChain.Lib.Forest

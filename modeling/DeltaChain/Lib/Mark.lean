import Mathlib

/-!
# Change marks

How a key of a keyed store changed between two points in time, kept well enough
to go back: a `Mark` says that the key is new, was updated, was deleted or was
left alone, and the last three know the value the key had before. `Links` says
that a mark describes a change from `before` to `after`; `revert` computes the
earlier value from the later one; `andThen` composes the marks of two
consecutive changes.

Main results:

* `revert_of_links` — reverting gives back the value before;
* `links_andThen` — composed marks describe the composed change, unless a
  deleted key was created again.
-/

namespace DeltaChain.Lib

/-- What happened to one key between two points in time. -/
inductive Mark (V : Type) where
  | new
  | upd (was : V)
  | del (was : V)
  | nop
deriving DecidableEq, Repr

namespace Mark

variable {V : Type}

/-- The mark describes the change of a key from `before` to `after`. -/
def Links : Mark V → Option V → Option V → Prop
  | new, before, after => before = none ∧ after.isSome
  | upd was, before, after => before = some was ∧ after.isSome
  | del was, before, after => before = some was ∧ after = none
  | nop, before, after => before = after

/-- The value a key had before the change, from the value it has after it. -/
def revert : Mark V → Option V → Option V
  | new, _ => none
  | upd was, _ => some was
  | del was, _ => some was
  | nop, after => after

/-- The mark of a change `a` followed by a change `b`. The pairs no sequence of
changes produces keep the first mark. -/
def andThen : Mark V → Mark V → Mark V
  | new, del _ => nop
  | upd x, del _ => del x
  | nop, b => b
  | a, _ => a

theorem revert_of_links {m : Mark V} {before after : Option V} (h : m.Links before after) :
    m.revert after = before := by
  cases m with
  | new => exact h.1.symm
  | upd was => exact h.1.symm
  | del was => exact h.1.symm
  | nop => exact h.symm

/-- Composition of marks is composition of changes. The one pair that has to be
excluded is a deletion followed by a creation under the same key; in the other
pairs that `andThen` does not compose, the two changes disagree on the value in
between. -/
theorem links_andThen {a b : Mark V} {x y z : Option V} (ha : a.Links x y) (hb : b.Links y z)
    (hne : ∀ was, a = del was → b ≠ new) : (a.andThen b).Links x z := by
  cases a with
  | nop =>
    have hxy : x = y := ha
    rw [hxy]
    exact hb
  | new =>
    obtain ⟨rfl, hy⟩ := ha
    cases b with
    | new => rw [hb.1] at hy; cases hy
    | upd was => exact ⟨rfl, hb.2⟩
    | del was => exact hb.2.symm
    | nop => exact ⟨rfl, (show y = z from hb) ▸ hy⟩
  | upd v =>
    obtain ⟨rfl, hy⟩ := ha
    cases b with
    | new => rw [hb.1] at hy; cases hy
    | upd was => exact ⟨rfl, hb.2⟩
    | del was => exact ⟨rfl, hb.2⟩
    | nop => exact ⟨rfl, (show y = z from hb) ▸ hy⟩
  | del v =>
    obtain ⟨rfl, rfl⟩ := ha
    cases b with
    | new => exact absurd rfl (hne v rfl)
    | upd was => exact absurd hb.1 (by simp)
    | del was => exact absurd hb.1 (by simp)
    | nop => exact ⟨rfl, (show none = z from hb).symm⟩

end Mark

end DeltaChain.Lib

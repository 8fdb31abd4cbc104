import Mathlib

/-!
# The element of a given rank

`nthElement l k` is the element that sorting would put at position `k`, which is all
that `std::nth_element` promises about that position. The two counting facts pin it
down: the elements from it on are at least as many as the positions from `k` on, and
those above it are fewer.
-/

namespace DeltaChain.Lib.Rank

open List

variable {α : Type} [LinearOrder α] {l : List α} {k : Nat} {v : α}

/-- The element at position `k` of the sorted list. -/
def nthElement (l : List α) (k : Nat) : Option α := (l.insertionSort (· ≤ ·))[k]?

theorem exists_nthElement (hk : k < l.length) : ∃ v, nthElement l k = some v := by
  refine ⟨_, getElem?_eq_getElem ?_⟩
  rw [length_insertionSort]
  exact hk

section

variable (h : nthElement l k = some v)

include h

theorem mem_of_nthElement : v ∈ l :=
  (perm_insertionSort (· ≤ ·) l).mem_iff.mp (mem_of_getElem? h)

theorem split_of_nthElement :
    ∃ low high, l.Perm (low ++ v :: high) ∧ low.length = k ∧ (∀ a ∈ low, a ≤ v) ∧
      ∀ a ∈ high, v ≤ a := by
  obtain ⟨hk, hv⟩ := List.getElem?_eq_some_iff.mp h
  have hsplit : (l.insertionSort (· ≤ ·)).take k ++ v :: (l.insertionSort (· ≤ ·)).drop (k + 1) =
      l.insertionSort (· ≤ ·) := by
    rw [← hv, getElem_cons_drop, take_append_drop]
  have hsorted := pairwise_insertionSort (· ≤ ·) l
  rw [← hsplit, pairwise_append, pairwise_cons] at hsorted
  obtain ⟨-, ⟨hhigh, -⟩, hlow⟩ := hsorted
  refine ⟨_, _, ?_, ?_, fun a ha => hlow a ha v (mem_cons_self ..), hhigh⟩
  · rw [hsplit]
    exact (perm_insertionSort (· ≤ ·) l).symm
  · rw [length_take]
    omega

theorem le_countP_of_nthElement : l.length - k ≤ l.countP fun a => decide (v ≤ a) := by
  obtain ⟨low, high, hperm, hlen, -, hhigh⟩ := split_of_nthElement h
  have hall : (v :: high).countP (fun a => decide (v ≤ a)) = (v :: high).length := by
    rw [countP_eq_length]
    intro a ha
    rcases mem_cons.mp ha with rfl | ha
    · simp
    · simpa using hhigh a ha
  rw [hperm.length_eq, hperm.countP_eq, countP_append, hall, length_append]
  omega

theorem countP_lt_of_nthElement : (l.countP fun a => decide (v < a)) < l.length - k := by
  obtain ⟨low, high, hperm, hlen, hlow, -⟩ := split_of_nthElement h
  have hnone : low.countP (fun a => decide (v < a)) = 0 := by
    rw [countP_eq_zero]
    intro a ha
    simpa using hlow a ha
  have hle : high.countP (fun a => decide (v < a)) ≤ high.length := countP_le_length
  rw [hperm.length_eq, hperm.countP_eq, countP_append, hnone, countP_cons,
    length_append, length_cons]
  simp only [lt_self_iff_false, decide_false, Bool.false_eq_true, if_false]
  omega

end

end DeltaChain.Lib.Rank

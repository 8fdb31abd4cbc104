import Mathlib

/-!
# Swapping within the front of a vector

Swaps of entries among the first `count` rearrange these (`take_swaps_perm`) and leave the others
where they are (`drop_swaps`).
-/

namespace DeltaChain.Lib

variable {α : Type} {n : Nat}

theorem toList_swap {v : Vector α n} {i j : Nat} (hi : i < n) (hj : j < n) :
    (v.swapIfInBounds i j).toList = (v.toList.set i v[j]).set j v[i] := by
  rw [← Vector.toList_toArray, Vector.toArray_swapIfInBounds, Array.swapIfInBounds_def,
    dif_pos (by simpa using hi), dif_pos (by simpa using hj), Array.toList_swap]
  rfl

theorem take_swap_perm {v : Vector α n} {i j count : Nat} (hi : i < count) (hj : j < count)
    (hn : count ≤ n) : ((v.swapIfInBounds i j).toList.take count).Perm (v.toList.take count) := by
  have hlength : (v.toList.take count).length = count := by simp [hn]
  have hi' : i < (v.toList.take count).length := hlength.symm ▸ hi
  have hj' : j < (v.toList.take count).length := hlength.symm ▸ hj
  have hperm := List.set_set_perm hi' hj'
  rw [List.getElem_take, List.getElem_take] at hperm
  rw [toList_swap (hi.trans_le hn) (hj.trans_le hn), List.take_set, List.take_set]
  exact hperm

section Swaps

variable {f : Nat → Nat} {count : Nat} {l : List Nat} (hn : count ≤ n)
  (hl : ∀ i ∈ l, i < count ∧ f i < count)

include hn hl

theorem take_swaps_perm (v : Vector α n) :
    ((l.foldl (fun v i => v.swapIfInBounds i (f i)) v).toList.take count).Perm
      (v.toList.take count) := by
  induction l generalizing v with
  | nil => exact .refl _
  | cons i l ih =>
    obtain ⟨hi, hfi⟩ := hl i List.mem_cons_self
    refine (ih (fun j hj => hl j (List.mem_cons_of_mem _ hj)) _).trans ?_
    exact take_swap_perm hi hfi hn

theorem drop_swaps (v : Vector α n) :
    (l.foldl (fun v i => v.swapIfInBounds i (f i)) v).toList.drop count = v.toList.drop count := by
  induction l generalizing v with
  | nil => rfl
  | cons i l ih =>
    obtain ⟨hi, hfi⟩ := hl i List.mem_cons_self
    rw [List.foldl_cons, ih fun j hj => hl j (List.mem_cons_of_mem _ hj)]
    rw [toList_swap (hi.trans_le hn) (hfi.trans_le hn), List.drop_set_of_lt hfi,
      List.drop_set_of_lt hi]

end Swaps

theorem toList_ofFn_getD {names : List α} {d : α} (h : names.length ≤ n) :
    (Vector.ofFn fun i : Fin n => names.getD i.val d).toList =
      names ++ List.replicate (n - names.length) d := by
  have hlength : (names ++ List.replicate (n - names.length) d).length = n := by
    rw [List.length_append, List.length_replicate]
    omega
  refine List.ext_getElem (by rw [Vector.length_toList, hlength]) fun i hi _ => ?_
  rw [Vector.getElem_toList, Vector.getElem_ofFn, List.getD_eq_getElem?_getD]
  by_cases hlt : i < names.length
  · rw [List.getElem?_eq_getElem hlt, List.getElem_append_left hlt, Option.getD_some]
  · have hle := Nat.le_of_not_lt hlt
    rw [List.getElem?_eq_none hle, List.getElem_append_right hle, List.getElem_replicate,
      Option.getD_none]

end DeltaChain.Lib

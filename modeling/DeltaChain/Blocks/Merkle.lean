import Mathlib

/-!
# The merkle root of a block

`calculate_merkle_root` hashes neighbours in place, level by level. What it writes on a level it does
not read again there, so the root is that of the tree (`treeRoot`), and if the hashes have no
collisions it tells the lists of a length apart (`merkle_root_tree`).
-/

namespace DeltaChain.Blocks

open List Option

variable {D : Type} (hash : D → D → D) {ids l l' : List D} {n k : Nat}

-- # The tree

/-- The next level of the tree; a last node without a neighbour is kept. -/
def nextLevel : List D → List D
  | [] => []
  | [a] => [a]
  | a :: b :: l => hash a b :: nextLevel l

theorem length_nextLevel (l : List D) : (nextLevel hash l).length = (l.length + 1) / 2 := by
  fun_induction nextLevel with
  | case1 | case2 => simp
  | case3 a b l ih =>
    simp only [length_cons, ih]
    omega

/-- The node at the top. -/
def treeRoot : List D → Option D
  | [] => none
  | [a] => some a
  | a :: b :: l => treeRoot (nextLevel hash (a :: b :: l))
termination_by l => l.length
decreasing_by
  simp only [length_nextLevel, length_cons]
  omega

-- # `calculate_merkle_root`

/-- The body of the inner loop, `ids[k++] = hash( ids[i], ids[i+1] )` for `i = 2 k`. -/
def hashPair (ids : List D) (k : Nat) : Option (List D) := do
  let a ← ids[2 * k]?
  let b ← ids[2 * k + 1]?
  return ids.set k (hash a b)

/-- The body of the outer loop, on the first `n` hashes. -/
def mergeLevel (n : Nat) (ids : List D) : Option (List D) := do
  let ids ← (range (n / 2)).foldlM (hashPair hash) ids
  if n % 2 = 1 then
    let last ← ids[n - 1]?
    return ids.set (n / 2) last
  else return ids

/-- The outer loop. -/
def mergeAll (n : Nat) (ids : List D) : Option D :=
  if 1 < n then (mergeLevel hash n ids).bind (mergeAll ((n + 1) / 2)) else ids[0]?

/-- `calculate_merkle_root`; `none` stands for a read outside of the array. -/
def calculateMerkleRoot {Tx C : Type} (checksum : D → C) (zero : C) (digest : Tx → D)
    (transactions : List Tx) : Option C :=
  if transactions.length = 0 then some zero
  else
    let ids := transactions.map digest
    (mergeAll hash ids.length ids).map checksum

theorem getElem?_nextLevel (l : List D) (k : Nat) : (nextLevel hash l)[k]? =
    (l[2 * k]?).map fun a => (l[2 * k + 1]?).elim a (hash a) := by
  fun_induction nextLevel generalizing k with
  | case1 => simp
  | case2 a => cases k <;> simp
  | case3 a b l ih =>
    cases k with
    | zero => simp
    | succ k => exact ih k

/-- **The inner loop** has written the first nodes of the next level, and nothing else. -/
theorem foldlM_hashPair (h : l <+: ids) (hk : k ≤ l.length / 2) :
    ∃ ids', (range k).foldlM (hashPair hash) ids = some ids' ∧ ids'.length = ids.length ∧
      ∀ j, ids'[j]? = if j < k then (nextLevel hash l)[j]? else ids[j]? := by
  induction k with
  | zero => exact ⟨ids, rfl, rfl, fun j => by simp⟩
  | succ k ih =>
    obtain ⟨ids₁, hloop, hlength, hget⟩ := ih (by omega)
    have hle := h.length_le
    have ha := prefix_iff_getElem?.mp h _ (show 2 * k < l.length by omega)
    have hb := prefix_iff_getElem?.mp h _ (show 2 * k + 1 < l.length by omega)
    refine ⟨ids₁.set k (hash l[2 * k] l[2 * k + 1]), ?_, by rw [length_set, hlength], fun j => ?_⟩
    · rw [range_succ, foldlM_append, hloop]
      simp [hashPair, hget, ha, hb, show ¬ 2 * k < k by omega, show ¬ 2 * k + 1 < k by omega]
    · rw [getElem?_set, hget]
      rcases lt_trichotomy j k with hj | rfl | hj
      · rw [if_neg (by omega), if_pos hj, if_pos (by omega)]
      · rw [if_pos rfl, if_pos (by omega), if_pos (by omega), getElem?_nextLevel,
          getElem?_eq_getElem, getElem?_eq_getElem]
        rfl
      · rw [if_neg (by omega), if_neg (by omega), if_neg (by omega)]

/-- **The outer loop** goes to the next level. -/
theorem mergeLevel_spec (h : l <+: ids) :
    ∃ ids', mergeLevel hash l.length ids = some ids' ∧ nextLevel hash l <+: ids' := by
  obtain ⟨ids₁, hloop, hlength, hget⟩ := foldlM_hashPair hash h le_rfl
  have hle := h.length_le
  unfold mergeLevel
  rw [hloop]
  simp only [prefix_iff_getElem?, length_nextLevel, ← getElem?_eq_getElem]
  split
  · next hodd =>
    have hlast := prefix_iff_getElem?.mp h _ (show l.length - 1 < l.length by omega)
    refine ⟨ids₁.set (l.length / 2) l[l.length - 1], ?_, fun j hj => ?_⟩
    · simp [hget, hlast, show ¬ l.length - 1 < l.length / 2 by omega]
    · rw [getElem?_set]
      split
      · next heq =>
        have hend : l[l.length - 1 + 1]? = none := getElem?_eq_none (by omega)
        rw [← heq, if_pos (by omega), getElem?_nextLevel,
          show 2 * (l.length / 2) = l.length - 1 by omega, hend, getElem?_eq_getElem]
        rfl
      · rw [hget, if_pos (by omega)]
  · exact ⟨ids₁, rfl, fun j hj => by rw [hget, if_pos (by omega)]⟩

theorem mergeAll_eq (hne : l ≠ []) (h : l <+: ids) :
    mergeAll hash l.length ids = treeRoot hash l := by
  fun_induction treeRoot hash l generalizing ids with
  | case1 => exact absurd rfl hne
  | case2 a =>
    obtain ⟨r, rfl⟩ := h
    rw [mergeAll]
    rfl
  | case3 a b l ih =>
    obtain ⟨ids', hmerge, hnext⟩ := mergeLevel_spec hash h
    rw [mergeAll, if_pos (by simp), hmerge, bind_some, ← length_nextLevel hash]
    exact ih (cons_ne_nil _ _) hnext

theorem calculateMerkleRoot_eq {Tx C : Type} (checksum : D → C) (zero : C) (digest : Tx → D)
    {transactions : List Tx} (hne : transactions ≠ []) :
    calculateMerkleRoot hash checksum zero digest transactions =
      (treeRoot hash (transactions.map digest)).map checksum := by
  rw [calculateMerkleRoot, if_neg (length_eq_zero_iff.not.mpr hne)]
  exact congrArg (Option.map checksum)
    (mergeAll_eq hash (map_eq_nil_iff.not.mpr hne) (prefix_refl _))

theorem exists_treeRoot (h : l ≠ []) : ∃ root, treeRoot hash l = some root := by
  fun_induction treeRoot hash l with
  | case1 => exact absurd rfl h
  | case2 a => exact ⟨a, rfl⟩
  | case3 a b l ih => exact ih (cons_ne_nil _ _)

theorem nextLevel_injective (hhash : Function.Injective2 hash) (hlength : l.length = l'.length)
    (h : nextLevel hash l = nextLevel hash l') : l = l' := by
  fun_induction nextLevel hash l generalizing l' with
  | case1 => exact (length_eq_zero_iff.mp hlength.symm).symm
  | case2 a =>
    obtain ⟨b, rfl⟩ := length_eq_one_iff.mp hlength.symm
    exact h
  | case3 a b l ih =>
    match l' with
    | c :: d :: l' =>
      rw [nextLevel, cons.injEq] at h
      obtain ⟨rfl, rfl⟩ := hhash h.1
      rw [ih (by simpa using hlength) h.2]

theorem treeRoot_injective (hhash : Function.Injective2 hash) (hlength : l.length = l'.length)
    (h : treeRoot hash l = treeRoot hash l') : l = l' := by
  fun_induction treeRoot hash l generalizing l' with
  | case1 => exact (length_eq_zero_iff.mp hlength.symm).symm
  | case2 a =>
    obtain ⟨b, rfl⟩ := length_eq_one_iff.mp hlength.symm
    simpa [treeRoot] using h
  | case3 a b l ih =>
    match l' with
    | c :: d :: l' =>
      rw [treeRoot] at h
      refine nextLevel_injective hash hhash hlength (ih ?_ h)
      rw [length_nextLevel, length_nextLevel, hlength]

/-- **The merkle root** is the checksum of the root of the tree; before step `k` of a level the entries
from `k` on, of which `2 k` and `2 k + 1` are read, are as at its start. Without collisions it tells
lists of one length apart. -/
theorem merkle_root_tree {Tx C : Type} (checksum : D → C) (zero : C) (digest : Tx → D)
    (transactions : List Tx) (hne : transactions ≠ []) :
    (∃ root, treeRoot hash (transactions.map digest) = some root ∧
      calculateMerkleRoot hash checksum zero digest transactions = some (checksum root)) ∧
    (∀ n k (ids : List D), n ≤ ids.length → k ≤ n / 2 →
      ∃ ids', (range k).foldlM (hashPair hash) ids = some ids' ∧ ∀ j, k ≤ j → ids'[j]? = ids[j]?) ∧
    (Function.Injective2 hash → Function.Injective checksum → ∀ other : List Tx,
      other.length = transactions.length → other.map digest ≠ transactions.map digest →
      calculateMerkleRoot hash checksum zero digest other ≠
        calculateMerkleRoot hash checksum zero digest transactions) := by
  refine ⟨?_, fun n k ids hn hk => ?_, fun hhash hsum other hlength hdiff heq => hdiff ?_⟩
  · obtain ⟨root, hroot⟩ := exists_treeRoot hash (map_eq_nil_iff.not.mpr hne)
    exact ⟨root, hroot, by rw [calculateMerkleRoot_eq hash _ _ _ hne, hroot, map_some]⟩
  · obtain ⟨ids', hloop, -, hget⟩ := foldlM_hashPair hash (k := k) ( take_prefix n ids)
      (by rwa [length_take_of_le hn])
    exact ⟨ids', hloop, fun j hj => by rw [hget, if_neg (by omega)]⟩
  · have hother : other ≠ [] := ne_nil_of_length_pos (hlength ▸ length_pos_iff.mpr hne)
    rw [calculateMerkleRoot_eq hash _ _ _ hne, calculateMerkleRoot_eq hash _ _ _ hother] at heq
    refine treeRoot_injective hash hhash ?_ (map_injective hsum heq)
    rw [length_map, length_map, hlength]

/-- Three transactions: the last one is promoted. -/
theorem merkle_root_tree_three :
    calculateMerkleRoot Nat.pair id 0 id [1, 2, 3] = some (Nat.pair (Nat.pair 1 2) 3) ∧
    calculateMerkleRoot Nat.pair id 0 id [2, 1, 3] ≠ calculateMerkleRoot Nat.pair id 0 id [1, 2, 3] := by
  obtain ⟨⟨root, hroot, heq⟩, -, hinj⟩ :=
    merkle_root_tree Nat.pair id 0 id [1, 2, 3] (cons_ne_nil _ _)
  refine ⟨?_, hinj (fun a b c d => Nat.pair_eq_pair.mp) Function.injective_id [2, 1, 3] rfl (by decide)⟩
  rw [heq, id, ← hroot]
  simp [treeRoot, nextLevel]

end DeltaChain.Blocks

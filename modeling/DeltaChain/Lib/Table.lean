import Mathlib

/-!
# Keyed tables

A `Table K V` is a finite map kept as a list of entries with pairwise distinct
keys; the distinctness is a field, so a table with two rows for one key cannot
be built. The file has three layers:

* the operations (`find?`, `insert?`, `emplace`, `modify`, `modify?`, `erase`,
  `erase?`) and what each does to the lookup view `find?`;
* `foldlM_view` — a loop over entries with distinct keys whose body touches
  only the view at its own key acts on every key independently;
* `sum` — a weighted sum over all rows, and how the operations change it.
-/

namespace DeltaChain.Lib

open List Option Function

/-- A finite map as a list of entries with distinct keys. -/
structure Table (K V : Type) where
  entries : List (K × V)
  nodup : (entries.map Prod.fst).Nodup

namespace Table

variable {K V : Type}

/-- The table without rows. -/
def empty : Table K V := ⟨[], nodup_nil⟩

/-- The keys in row order. -/
def keys (t : Table K V) : List K := t.entries.map Prod.fst

variable [DecidableEq K]

/-- The row stored under `k`. -/
def find? (t : Table K V) (k : K) : Option V := t.entries.lookup k

-- # Lookups in a list of entries

variable {k : K} {l : List (K × V)} {v : V} {W : Type}

theorem lookup_isSome_iff : (l.lookup k).isSome = true ↔ k ∈ l.map Prod.fst := by
  induction l with
  | nil => simp
  | cons e l ih =>
    obtain ⟨j, v⟩ := e
    by_cases h : k = j
    · subst h
      simp
    · have hb : (k == j) = false := beq_eq_false_iff_ne.mpr h
      rw [lookup_cons, hb]
      simp [ih, h]

theorem lookup_eq_none_iff : l.lookup k = none ↔ k ∉ l.map Prod.fst := by
  rw [← lookup_isSome_iff]
  cases l.lookup k <;> simp

theorem mem_of_lookup (h : l.lookup k = some v) : (k, v) ∈ l := by
  obtain ⟨l₁, l₂, rfl, -⟩ := lookup_eq_some_iff.mp h
  simp

theorem lookup_of_mem (hn : (l.map Prod.fst).Nodup) (h : (k, v) ∈ l) : l.lookup k = some v := by
  induction l with
  | nil => simp at h
  | cons e l ih =>
    obtain ⟨j, w⟩ := e
    rw [map_cons, nodup_cons] at hn
    rcases mem_cons.mp h with heq | hmem
    · cases heq
      simp
    · have hkj : k ≠ j := by
        rintro rfl
        exact hn.1 (mem_map.mpr ⟨_, hmem, rfl⟩)
      have hb : (k == j) = false := beq_eq_false_iff_ne.mpr hkj
      rw [lookup_cons, hb]
      exact ih hn.2 hmem

@[simp] theorem find?_empty (k : K) : (empty : Table K V).find? k = none := rfl

variable {t : Table K V}

theorem find?_isSome_iff : (t.find? k).isSome = true ↔ k ∈ t.keys := lookup_isSome_iff

theorem find?_eq_none_iff : t.find? k = none ↔ k ∉ t.keys :=
  lookup_eq_none_iff

theorem mem_entries_iff : (k, v) ∈ t.entries ↔ t.find? k = some v :=
  ⟨lookup_of_mem t.nodup, mem_of_lookup⟩

-- # Operations

/-- Insert a row under a fresh key; `none` when the key is taken. -/
def insert? (t : Table K V) (k : K) (v : V) : Option (Table K V) :=
  if h : k ∈ t.keys then none
  else some ⟨(k, v) :: t.entries, nodup_cons.mpr ⟨h, t.nodup⟩⟩

/-- Insert a row unless the key is taken, in which case nothing happens. -/
def emplace (t : Table K V) (k : K) (v : V) : Table K V := (t.insert? k v).getD t

private theorem map_fst_modify (l : List (K × V)) (k : K) (f : V → V) :
    (l.map fun e => if e.1 = k then (e.1, f e.2) else e).map Prod.fst = l.map Prod.fst := by
  rw [List.map_map]
  apply map_congr_left
  intro e _
  simp only [Function.comp_apply]
  split <;> rfl

/-- Rewrite the row under `k`, if there is one. -/
def modify (t : Table K V) (k : K) (f : V → V) : Table K V :=
  ⟨t.entries.map fun e => if e.1 = k then (e.1, f e.2) else e, by
    rw [map_fst_modify]
    exact t.nodup⟩

/-- Rewrite the row under `k`; `none` when there is none. -/
def modify? (t : Table K V) (k : K) (f : V → V) : Option (Table K V) :=
  if k ∈ t.keys then some (t.modify k f) else none

/-- Drop the row under `k`, if there is one. -/
def erase (t : Table K V) (k : K) : Table K V :=
  ⟨t.entries.filter fun e => decide (e.1 ≠ k), by
    exact t.nodup.sublist (filter_sublist.map Prod.fst)⟩

/-- Drop the row under `k`; `none` when there is none. -/
def erase? (t : Table K V) (k : K) : Option (Table K V) :=
  if k ∈ t.keys then some (t.erase k) else none

/-- Keep the rows that satisfy `p`. -/
def filter (t : Table K V) (p : K → V → Bool) : Table K V :=
  ⟨t.entries.filter fun e => p e.1 e.2, t.nodup.sublist (filter_sublist.map Prod.fst)⟩

omit [DecidableEq K] in
private theorem map_fst_map (l : List (K × V)) (f : V → W) :
    (l.map fun e => (e.1, f e.2)).map Prod.fst = l.map Prod.fst := by
  rw [List.map_map]
  rfl

/-- Rewrite every row. -/
def map {W : Type} (t : Table K V) (f : V → W) : Table K W :=
  ⟨t.entries.map fun e => (e.1, f e.2), by
    rw [map_fst_map]
    exact t.nodup⟩

-- # What the operations do to the lookup view

omit [DecidableEq K] in
@[simp] theorem keys_map (t : Table K V) (f : V → W) : (t.map f).keys = t.keys :=
  map_fst_map t.entries f

@[simp] theorem find?_map (t : Table K V) (f : V → W) (j : K) :
    (t.map f).find? j = (t.find? j).map f := by
  unfold map find?
  simp only
  induction t.entries with
  | nil => rfl
  | cons e l ih =>
    rw [map_cons, lookup_cons, lookup_cons]
    cases j == e.1 with
    | true => rfl
    | false => exact ih

theorem keys_modify (t : Table K V) (k : K) (f : V → V) : (t.modify k f).keys = t.keys :=
  map_fst_modify t.entries k f

theorem find?_modify (t : Table K V) (k : K) (f : V → V) (j : K) :
    (t.modify k f).find? j = if j = k then (t.find? j).map f else t.find? j := by
  unfold modify find?
  simp only
  induction t.entries with
  | nil => split <;> rfl
  | cons e l ih =>
    obtain ⟨i, v⟩ := e
    by_cases hik : i = k
    · subst hik
      simp only [map_cons, if_true, lookup_cons]
      by_cases hj : j = i
      · subst hj
        simp
      · have hb : (j == i) = false := beq_eq_false_iff_ne.mpr hj
        simp only [hb, hj, if_false] at ih ⊢
        exact ih
    · simp only [map_cons, hik, if_false, lookup_cons]
      by_cases hj : j = i
      · subst hj
        simp [hik]
      · have hb : (j == i) = false := beq_eq_false_iff_ne.mpr hj
        simp only [hb]
        exact ih

@[simp] theorem find?_modify_self (t : Table K V) (k : K) (f : V → V) :
    (t.modify k f).find? k = (t.find? k).map f := by
  rw [find?_modify, if_pos rfl]

theorem find?_modify_ne (t : Table K V) {j : K} (f : V → V) (h : j ≠ k) :
    (t.modify k f).find? j = t.find? j := by
  rw [find?_modify, if_neg h]

theorem find?_modify_of_some {v : V} (h : t.find? k = some v) (f : V → V) (j : K) :
    (t.modify k f).find? j = if j = k then some (f v) else t.find? j := by
  rw [find?_modify]
  split
  · next hj =>
    rw [hj, h]
    rfl
  · rfl

theorem modify_id (t : Table K V) (k : K) : (t.modify k fun v => v) = t := by
  simp [modify]

theorem modify_modify (t : Table K V) (k : K) (f g : V → V) :
    (t.modify k f).modify k g = t.modify k (g ∘ f) := by
  simp only [modify, List.map_map, mk.injEq]
  refine map_congr_left fun e _ => ?_
  by_cases he : e.1 = k <;> simp [he]

theorem find?_filter (t : Table K V) (p : K → V → Bool) (j : K) :
    (t.filter p).find? j = (t.find? j).filter (p j) := by
  cases h : t.find? j with
  | none =>
    rw [find?_eq_none_iff] at h
    rw [filter_none, find?_eq_none_iff]
    exact fun hj => h ((filter_sublist.map Prod.fst).subset hj)
  | some v =>
    have hmem : (j, v) ∈ t.entries := mem_entries_iff.mpr h
    rw [filter_some]
    split
    · next hp =>
      rw [← mem_entries_iff]
      exact mem_filter.mpr ⟨hmem, hp⟩
    · next hp =>
      -- a row that was kept under `j` would be this one
      rw [eq_none_iff_forall_not_mem]
      intro w hw
      obtain ⟨hw, hpw⟩ := mem_filter.mp (mem_entries_iff.mpr hw)
      obtain rfl : v = w := mem_unique h (mem_entries_iff.mp hw)
      exact hp hpw

theorem find?_erase (t : Table K V) (k j : K) :
    (t.erase k).find? j = if j = k then none else t.find? j := by
  rw [show t.erase k = t.filter fun i _ => decide (i ≠ k) from rfl, find?_filter]
  split
  · next hj => cases t.find? j <;> simp [hj]
  · next hj => cases t.find? j <;> simp [hj]

variable {t' : Table K V}

theorem insert?_eq_some_iff :
    t.insert? k v = some t' ↔ k ∉ t.keys ∧ t'.entries = (k, v) :: t.entries := by
  unfold insert?
  by_cases h : k ∈ t.keys
  · simp [h]
  · rw [dif_neg h, some.injEq]
    constructor
    · rintro rfl
      exact ⟨h, rfl⟩
    · rintro ⟨-, he⟩
      cases t'
      simp_all

theorem find?_insert? (h : t.insert? k v = some t') (j : K) :
    t'.find? j = if j = k then some v else t.find? j := by
  obtain ⟨-, he⟩ := insert?_eq_some_iff.mp h
  unfold find?
  rw [he, lookup_cons]
  by_cases hj : j = k
  · simp [hj]
  · have hb : (j == k) = false := beq_eq_false_iff_ne.mpr hj
    simp [hb, hj]

theorem insert?_isSome (v : V) (h : t.find? k = none) : ∃ t', t.insert? k v = some t' := by
  unfold insert?
  rw [dif_neg (find?_eq_none_iff.mp h)]
  exact ⟨_, rfl⟩

theorem find?_emplace (t : Table K V) (k : K) (v : V) (j : K) :
    (t.emplace k v).find? j =
      if j = k then some ((t.find? k).getD v) else t.find? j := by
  unfold emplace
  cases hk : t.find? k with
  | none =>
    obtain ⟨t', ht'⟩ := insert?_isSome v hk
    rw [ht', getD_some, find?_insert? ht']
    simp
  | some w =>
    have hmem : k ∈ t.keys := find?_isSome_iff.mp (by rw [hk]; rfl)
    have hnone : t.insert? k v = none := by
      unfold insert?
      rw [dif_pos hmem]
    rw [hnone, getD_none]
    by_cases hj : j = k
    · rw [if_pos hj, hj, hk]
      rfl
    · rw [if_neg hj]

theorem modify?_isSome (f : V → V) (h : t.find? k ≠ none) :
    t.modify? k f = some (t.modify k f) := by
  unfold modify?
  rw [if_pos]
  exact find?_isSome_iff.mp (isSome_iff_ne_none.mpr h)

theorem modify?_eq_some {f : V → V} (h : t.modify? k f = some t') :
    t.find? k ≠ none ∧ t' = t.modify k f := by
  unfold modify? at h
  split at h
  · next hk =>
    refine ⟨?_, (some.inj h).symm⟩
    rw [ne_eq, find?_eq_none_iff]
    exact fun hn => hn hk
  · cases h

theorem erase?_isSome (h : t.find? k ≠ none) : t.erase? k = some (t.erase k) := by
  unfold erase?
  rw [if_pos]
  exact find?_isSome_iff.mp (isSome_iff_ne_none.mpr h)

theorem erase?_eq_some (h : t.erase? k = some t') : t.find? k ≠ none ∧ t' = t.erase k := by
  unfold erase? at h
  split at h
  · next hk =>
    refine ⟨?_, (some.inj h).symm⟩
    rw [ne_eq, find?_eq_none_iff]
    exact fun hn => hn hk
  · cases h

theorem ext_find {u : Table K V} (hkeys : t.keys = u.keys) (hfind : ∀ k, t.find? k = u.find? k) :
    t = u := by
  have hvals : ∀ (t : Table K V), t.entries = t.keys.filterMap fun k => (t.find? k).map (k, ·) := by
    intro t
    rw [keys, filterMap_map]
    refine (filterMap_some.symm.trans (filterMap_congr fun e he => ?_))
    rw [comp_apply, mem_entries_iff.mp he, map_some]
  have hentries : t.entries = u.entries := by
    rw [hvals t, hvals u, hkeys]
    exact filterMap_congr fun k _ => by rw [hfind]
  cases t
  cases u
  congr

-- # Loops over entries with distinct keys

/-- **Key-wise loops.** Let the body of a loop, run for entry `e`, succeed
whenever `ok e` holds of the view at `e`'s key, change the view there by `g e`
and leave the view at every other key alone. Then the loop over entries with
distinct keys succeeds and changes every key by at most one application of
`g`. -/
theorem foldlM_view {S W β : Type} (view : S → K → β)
    (body : S → K × W → Option S) (ok : K × W → β → Prop) (g : K × W → β → β)
    (hbody : ∀ s e, ok e (view s e.1) → ∃ s', body s e = some s' ∧
      view s' e.1 = g e (view s e.1) ∧ ∀ k, k ≠ e.1 → view s' k = view s k) :
    ∀ (es : List (K × W)) (s : S), (es.map Prod.fst).Nodup →
      (∀ e ∈ es, ok e (view s e.1)) →
      ∃ s', es.foldlM body s = some s' ∧ ∀ k, view s' k =
        match es.lookup k with
        | some w => g (k, w) (view s k)
        | none => view s k := by
  intro es
  induction es with
  | nil =>
    intro s _ _
    exact ⟨s, rfl, fun k => rfl⟩
  | cons e es ih =>
    intro s hn hok
    obtain ⟨j, w⟩ := e
    rw [map_cons, nodup_cons] at hn
    obtain ⟨s₁, hs₁, hself, hother⟩ := hbody s (j, w) (hok _ (mem_cons_self ..))
    have hrest : ∀ e ∈ es, ok e (view s₁ e.1) := by
      intro e he
      have hne : e.1 ≠ j := by
        rintro rfl
        exact hn.1 (mem_map.mpr ⟨e, he, rfl⟩)
      rw [hother _ hne]
      exact hok e (mem_cons_of_mem _ he)
    obtain ⟨s₂, hs₂, hview⟩ := ih s₁ hn.2 hrest
    refine ⟨s₂, ?_, fun k => ?_⟩
    · rw [foldlM_cons, hs₁]
      exact hs₂
    · rw [hview k, lookup_cons]
      by_cases hk : k = j
      · -- the head entry's key: no later entry touches it again
        subst hk
        rw [lookup_eq_none_iff.mpr hn.1, beq_self_eq_true]
        exact hself
      · rw [beq_eq_false_iff_ne.mpr hk, hother k hk]

/-- `foldlM_view` for a loop whose body cannot fail. -/
theorem foldl_view {S W β : Type} (view : S → K → β) (body : S → K × W → S) (g : K × W → β → β)
    (hself : ∀ s e, view (body s e) e.1 = g e (view s e.1))
    (hother : ∀ s e k, k ≠ e.1 → view (body s e) k = view s k)
    (es : List (K × W)) (s : S) (hn : (es.map Prod.fst).Nodup) (k : K) :
    view (es.foldl body s) k =
      match es.lookup k with
      | some w => g (k, w) (view s k)
      | none => view s k := by
  obtain ⟨s', hs', hview⟩ := foldlM_view view (fun s e => some (body s e)) (fun _ _ => True) g
    (fun s e _ => ⟨_, rfl, hself s e, hother s e⟩) es s hn (fun _ _ => trivial)
  have hfold : es.foldlM (fun s e => some (body s e)) s = some (es.foldl body s) := by
    induction es generalizing s with
    | nil => rfl
    | cons e es ih => exact foldlM_pure
  rw [hfold, some.injEq] at hs'
  rw [hs']
  exact hview k

-- # Sums over the rows

section Sum

variable {M : Type} [AddCommGroup M] {v : V}

/-- The sum of a weight over all rows. -/
def sum (t : Table K V) (f : K → V → M) : M := (t.entries.map fun e => f e.1 e.2).sum

omit [DecidableEq K] in
@[simp] theorem sum_empty (f : K → V → M) : (empty : Table K V).sum f = 0 := rfl

omit [DecidableEq K] in
theorem sum_add (t : Table K V) (f g : K → V → M) :
    (t.sum fun k v => f k v + g k v) = t.sum f + t.sum g := sum_map_add ..

omit [DecidableEq K] in
@[simp] theorem sum_map {W : Type} (t : Table K V) (g : V → W) (f : K → W → M) :
    (t.map g).sum f = t.sum fun k v => f k (g v) := by
  unfold sum map
  rw [List.map_map]
  rfl

theorem sum_insert? (h : t.insert? k v = some t') (f : K → V → M) : t'.sum f = t.sum f + f k v := by
  obtain ⟨-, he⟩ := insert?_eq_some_iff.mp h
  unfold sum
  rw [he, map_cons, sum_cons, add_comm]

theorem sum_emplace (hk : t.find? k = none) (v : V) (f : K → V → M) :
    (t.emplace k v).sum f = t.sum f + f k v := by
  obtain ⟨t', ht'⟩ := insert?_isSome v hk
  unfold emplace
  rw [ht', getD_some]
  exact sum_insert? ht' f

private theorem sum_filter_ne (l : List (K × V)) (hn : (l.map Prod.fst).Nodup) (k : K)
    (f : K → V → M) (hv : l.lookup k = some v) :
    ((l.filter fun e => decide (e.1 ≠ k)).map fun e => f e.1 e.2).sum =
      (l.map fun e => f e.1 e.2).sum - f k v := by
  induction l with
  | nil => simp at hv
  | cons e l ih =>
    obtain ⟨j, w⟩ := e
    rw [map_cons, nodup_cons] at hn
    rw [lookup_cons] at hv
    by_cases hj : j = k
    · subst hj
      simp only [beq_self_eq_true, some.injEq] at hv
      subst hv
      have hrest : (l.filter fun e => decide (e.1 ≠ j)) = l := by
        rw [filter_eq_self]
        intro e he
        have : e.1 ≠ j := fun h => hn.1 (mem_map.mpr ⟨e, he, h⟩)
        simp [this]
      rw [filter_cons_of_neg (by simp), hrest, map_cons, sum_cons]
      abel
    · have hb : (k == j) = false := beq_eq_false_iff_ne.mpr (Ne.symm hj)
      rw [hb] at hv
      rw [filter_cons_of_pos (by simpa using hj), map_cons, sum_cons,
        map_cons, sum_cons, ih hn.2 hv]
      abel

theorem sum_erase (hv : t.find? k = some v) (f : K → V → M) : (t.erase k).sum f = t.sum f - f k v :=
  sum_filter_ne t.entries t.nodup k f hv

private theorem map_eq_self {l : List (K × V)} (h : ∀ e ∈ l, e.1 ≠ k) (g : V → V) :
    (l.map fun e => if e.1 = k then (e.1, g e.2) else e) = l :=
  (map_congr_left fun e he => if_neg (h e he)).trans (List.map_id l)

theorem modify_of_none (h : t.find? k = none) (g : V → V) : t.modify k g = t := by
  have hk : k ∉ t.keys := find?_eq_none_iff.mp h
  unfold modify
  obtain ⟨l, hl⟩ := t
  congr 1
  exact map_eq_self (fun e he hek => hk (mem_map.mpr ⟨e, he, hek⟩)) g

theorem erase_modify (t : Table K V) (k : K) (g : V → V) : (t.modify k g).erase k = t.erase k := by
  unfold erase modify
  congr 1
  rw [List.filter_map, List.filter_congr (q := fun e => decide (e.1 ≠ k))]
  · exact map_eq_self (fun e he => of_decide_eq_true (mem_filter.mp he).2) g
  · intro e _
    rw [Function.comp_apply]
    split <;> rfl

theorem sum_modify (hv : t.find? k = some v) (g : V → V) (f : K → V → M) :
    (t.modify k g).sum f = t.sum f + (f k (g v) - f k v) := by
  have hsum := sum_erase (t := t.modify k g) (k := k) (v := g v) (by rw [find?_modify_self, hv]; rfl) f
  rw [erase_modify, sum_erase hv] at hsum
  rw [eq_add_of_sub_eq hsum.symm]
  abel

theorem sum_modify_of_eq {g : V → V} {f : K → V → M} (h : ∀ v, f k (g v) = f k v) :
    (t.modify k g).sum f = t.sum f := by
  cases hv : t.find? k with
  | none => rw [modify_of_none hv]
  | some v => rw [sum_modify hv, h v, sub_self, add_zero]

theorem sum_nonneg {f : K → V → Int} (hf : ∀ k v, t.find? k = some v → 0 ≤ f k v) :
    0 ≤ t.sum f := by
  refine List.sum_nonneg fun x hx => ?_
  obtain ⟨e, he, rfl⟩ := List.mem_map.mp hx
  exact hf e.1 e.2 (mem_entries_iff.mp he)

theorem sum_eq_sum_keys (t : Table K V) (f : K → V → M) (g : K → M)
    (hg : ∀ k v, t.find? k = some v → g k = f k v) : t.sum f = ∑ k ∈ t.keys.toFinset, g k := by
  unfold sum keys
  rw [sum_toFinset _ t.nodup, List.map_map]
  refine congrArg List.sum (map_congr_left fun e he => ?_)
  exact (hg e.1 e.2 (mem_entries_iff.mp he)).symm

end Sum

end Table

end DeltaChain.Lib

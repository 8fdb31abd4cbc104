import DeltaChain.Chainbase.Undo
import DeltaChain.Chainbase.UniqueKeys

/-!
# Undo with unique secondary keys

`undo` puts old values back one by one, before new objects go and removed ones come back. An old
key that another object still has makes it throw half-way (`Unobstructed` says when it does not).
Where it does not throw it restores what the session started from, as without keys.

A call of `modify` that throws has taken the object out and left a record of it. No `undo` gets
past that record.
-/

namespace DeltaChain.Lib.Table

variable {V K : Type} [DecidableEq K] {keys : List (V → K)} {t t' : Table Nat V} {id : Nat} {v : V}

@[simp] theorem find?_sorted (t : Table Nat V) (id : Nat) : t.sorted.find? id = t.find? id := by
  refine Option.ext fun v => ?_
  rw [← mem_entries_iff, ← mem_entries_iff]
  exact (List.perm_insertionSort _ _).mem_iff

theorem sorted_pairwise (t : Table Nat V) : t.sorted.entries.Pairwise fun e f => e.1 < f.1 := by
  have hle : t.sorted.entries.Pairwise fun e f => e.1 ≤ f.1 := List.pairwise_insertionSort _ _
  have hne : t.sorted.entries.Pairwise fun e f => e.1 ≠ f.1 := by
    have := t.sorted.nodup
    rwa [List.Nodup, List.pairwise_map] at this
  exact hle.imp₂ (fun e f hle hne => lt_of_le_of_ne hle hne) hne

omit [DecidableEq K] in
theorem collides_iff : Collides keys t id v ↔
    ∃ j w, t.find? j = some w ∧ j ≠ id ∧ Clash keys v w := by
  constructor
  · rintro ⟨e, he, hne, hclash⟩
    exact ⟨e.1, e.2, mem_entries_iff.mp he, hne, hclash⟩
  · rintro ⟨j, w, hw, hne, hclash⟩
    exact ⟨(j, w), mem_entries_iff.mpr hw, hne, hclash⟩

theorem insertKeyed_eq_some : t.insertKeyed keys id v = some t' ↔
    ¬ Collides keys t id v ∧ t.insert? id v = some t' := by
  unfold insertKeyed
  split <;> simp [*]

end DeltaChain.Lib.Table

namespace DeltaChain.Chainbase

open Lib Lib.Table List Option GenericIndex Table

variable {V K : Type} [DecidableEq K] {keys : List (V → K)} {t t' : Table Nat V}
  {u : UndoState V} {g g' : GenericIndex V} {l : List (Nat × V)}

/-- No two objects have a key in common. -/
def Contents.Unique (keys : List (V → K)) (c : Contents V) : Prop :=
  ∀ i j v w, c.objects i = some v → c.objects j = some w → Clash keys v w → i = j

/-- Where an object gets its old value back, every other object that has one of its keys has
itself got its old value back before. -/
def Unobstructed (keys : List (V → K)) (head : UndoState V) (t : Table Nat V) : Prop :=
  ∀ i was, head.oldValues.find? i = some was → ∀ j v, t.find? j = some v → j ≠ i →
    Clash keys was v → (head.oldValues.find? j).isSome ∧ j < i

-- # The loops of `undo`

theorem restoreOld_eq_some {e : Nat × V} : restoreOld keys t e = some t' ↔
    ¬ Collides keys t e.1 e.2 ∧ t.modify? e.1 (fun _ => e.2) = some t' := by
  unfold restoreOld Table.modifyKeyed Table.modify?
  cases hrow : t.find? e.1 with
  | none =>
    have hkey : e.1 ∉ t.keys := find?_eq_none_iff.mp hrow
    simp [hkey]
  | some v =>
    have hkey : e.1 ∈ t.keys := find?_isSome_iff.mp (by rw [hrow]; rfl)
    by_cases hcollides : Collides keys t e.1 e.2
    · simp [hcollides]
    · simp [hcollides, hkey]

/-- **The first loop.** Old values that have no key in common can be put back in order if and
only if no object that is still to be restored, or will not be, is in the way. -/
theorem restoreOld_loop (hsorted : l.Pairwise fun e f => e.1 < f.1)
    (hunique : ∀ e ∈ l, ∀ f ∈ l, Clash keys e.2 f.2 → e.1 = f.1) :
    l.foldlM (restoreOld keys) t = some t' ↔
      (∀ e ∈ l, ∀ j v, t.find? j = some v → j ≠ e.1 → Clash keys e.2 v →
        ∃ f ∈ l, f.1 = j ∧ j < e.1) ∧
      l.foldlM (fun t item => t.modify? item.1 fun _ => item.2) t = some t' := by
  induction l generalizing t with
  | nil => simp
  | cons e l ih =>
    rw [pairwise_cons] at hsorted
    have hrest := fun {t} => ih (t := t) hsorted.2 fun f hf f' hf' =>
      hunique f (mem_cons_of_mem _ hf) f' (mem_cons_of_mem _ hf')
    rw [foldlM_cons, foldlM_cons]
    simp only [bind_eq_bind, bind_eq_some_iff, restoreOld_eq_some]
    constructor
    · rintro ⟨t₁, ⟨hcollides, hmodify⟩, hloop⟩
      obtain ⟨hfree, hbase⟩ := hrest.mp hloop
      refine ⟨?_, t₁, hmodify, hbase⟩
      obtain ⟨-, rfl⟩ := modify?_eq_some hmodify
      intro f hf j v hv hne hclash
      rcases mem_cons.mp hf with rfl | hf
      · exact absurd (collides_iff.mpr ⟨j, v, hv, hne, hclash⟩) hcollides
      · by_cases hj : j = e.1
        · exact ⟨e, mem_cons_self, hj.symm, hj ▸ hsorted.1 f hf⟩
        · rw [← find?_modify_ne t (fun _ => e.2) hj] at hv
          obtain ⟨f', hf', heq⟩ := hfree f hf j v hv hne hclash
          exact ⟨f', mem_cons_of_mem _ hf', heq⟩
    · rintro ⟨hfree, t₁, hmodify, hbase⟩
      have hcollides : ¬ Collides keys t e.1 e.2 := by
        rw [collides_iff]
        rintro ⟨j, v, hv, hne, hclash⟩
        obtain ⟨f, hf, rfl, hlt⟩ := hfree e mem_cons_self j v hv hne hclash
        rcases mem_cons.mp hf with rfl | hf
        · exact hne rfl
        · have := hsorted.1 f hf
          omega
      refine ⟨t₁, ⟨hcollides, hmodify⟩, hrest.mpr ⟨?_, hbase⟩⟩
      obtain ⟨-, rfl⟩ := modify?_eq_some hmodify
      intro f hf j v hv hne hclash
      by_cases hj : j = e.1
      · -- the object just restored has no key in common with the others
        subst hj
        rw [find?_modify_self] at hv
        obtain ⟨-, -, rfl⟩ := map_eq_some_iff.mp hv
        have heq := hunique f (mem_cons_of_mem _ hf) e mem_cons_self hclash
        exact absurd heq.symm hne
      · rw [find?_modify_ne t _ hj] at hv
        obtain ⟨f', hf', heq, hlt⟩ := hfree f (mem_cons_of_mem _ hf) j v hv hne hclash
        rcases mem_cons.mp hf' with rfl | hf'
        · exact absurd heq.symm hj
        · exact ⟨f', hf', heq, hlt⟩

/-- **The third loop** never fails, as all that is there and all that comes back is from the start
of the session. -/
theorem restoreRemoved_loop {c : Contents V} (hunique : c.Unique keys)
    (hl : ∀ e ∈ l, c.objects e.1 = some e.2)
    (ht : ∀ j v, t.find? j = some v → c.objects j = some v) :
    l.foldlM (fun t item => t.insertKeyed keys item.1 item.2) t =
      l.foldlM (fun t item => t.insert? item.1 item.2) t := by
  induction l generalizing t with
  | nil => rfl
  | cons e l ih =>
    have hcollides : ¬ Collides keys t e.1 e.2 := by
      rw [collides_iff]
      rintro ⟨j, v, hv, hne, hclash⟩
      have heq := hunique e.1 j e.2 v (hl e mem_cons_self) (ht j v hv) hclash
      exact hne heq.symm
    have hfirst : t.insertKeyed keys e.1 e.2 = t.insert? e.1 e.2 := if_neg hcollides
    rw [foldlM_cons, foldlM_cons, hfirst]
    cases hinsert : t.insert? e.1 e.2 with
    | none => rfl
    | some t₁ =>
      refine ih (fun f hf => hl f (mem_cons_of_mem _ hf)) fun j v hv => ?_
      rw [find?_insert? hinsert] at hv
      split at hv
      · next hj =>
        cases hv
        exact hj ▸ hl e mem_cons_self
      · exact ht j v hv

theorem find?_of_insert_loop (h : l.foldlM (fun t item => t.insert? item.1 item.2) t = some t')
    {j : Nat} {v : V} (hv : t.find? j = some v) : t'.find? j = some v := by
  induction l generalizing t with
  | nil =>
    cases h
    exact hv
  | cons e l ih =>
    obtain ⟨t₁, hinsert, hrest⟩ := bind_eq_some_iff.mp h
    refine ih hrest ?_
    rw [find?_insert? hinsert, if_neg, hv]
    rintro rfl
    have hnone := (insert?_eq_some_iff.mp hinsert).1
    exact hnone (find?_isSome_iff.mp (by rw [hv]; rfl))

theorem hasMark_sorted {id : Nat} {m : Mark V} (h : u.HasMark id m) : u.sorted.HasMark id m := by
  unfold UndoState.HasMark UndoState.slots UndoState.sorted at *
  simpa only [find?_sorted] using h

section Restore

variable {c : Contents V} (hunique : c.Unique keys)
  (hmarks : ∀ id, ∃ m, u.HasMark id m ∧ m.Links (c.objects id) (t.find? id))

include hunique hmarks

/-- The first loop, for the values that the undo state has on record. -/
theorem restoreOld_loop_sorted :
    u.oldValues.sorted.entries.foldlM (restoreOld keys) t = some t' ↔
      Unobstructed keys u t ∧ u.oldValues.sorted.entries.foldlM
        (fun t item => t.modify? item.1 fun _ => item.2) t = some t' := by
  have hmem : ∀ e, e ∈ u.oldValues.sorted.entries ↔ u.oldValues.find? e.1 = some e.2 := by
    intro e
    rw [← find?_sorted]
    exact mem_entries_iff
  have hstart : ∀ e ∈ u.oldValues.sorted.entries, c.objects e.1 = some e.2 := by
    intro e he
    obtain ⟨m, hm, hlinks⟩ := hmarks e.1
    obtain rfl := hm.of_entry.1 _ ((hmem e).mp he)
    exact hlinks.1
  rw [restoreOld_loop (sorted_pairwise _) fun e he f hf hclash =>
    hunique e.1 f.1 e.2 f.2 (hstart e he) (hstart f hf) hclash]
  refine and_congr_left fun _ => ⟨fun h i was hwas j v hv hne hclash => ?_, fun h e he j v hv hne
    hclash => ?_⟩
  · obtain ⟨f, hf, rfl, hlt⟩ := h (i, was) ((hmem _).mpr hwas) j v hv hne hclash
    exact ⟨isSome_iff_exists.mpr ⟨f.2, (hmem f).mp hf⟩, hlt⟩
  · obtain ⟨hsome, hlt⟩ := h e.1 e.2 ((hmem e).mp he) j v hv hne hclash
    obtain ⟨b, hb⟩ := isSome_iff_exists.mp hsome
    exact ⟨(j, b), (hmem (j, b)).mpr hb, rfl, hlt⟩

omit [DecidableEq K] hunique in
theorem find?_restore_sorted : ∃ t', restore u.sorted t = some t' ∧
    ∀ id, t'.find? id = c.objects id :=
  find?_restore fun id => by
    obtain ⟨m, hm, hlinks⟩ := hmarks id
    exact ⟨m, hasMark_sorted hm, hlinks⟩

/-- **The loops of `undo` with keys** do what they do without, or throw. -/
theorem restoreKeyed_eq_some : restoreKeyed keys u t = some t' ↔
    Unobstructed keys u t ∧ restore u.sorted t = some t' := by
  obtain ⟨t₃, hbase, hfind⟩ := find?_restore_sorted hmarks
  have hloops := hbase
  simp only [restore, bind_eq_bind, bind_eq_some_iff] at hloops
  obtain ⟨t₁, ht₁, t₂, ht₂, ht₃⟩ := hloops
  have hthird : u.removedValues.sorted.entries.foldlM
      (fun t item => t.insertKeyed keys item.1 item.2) t₂ = some t₃ := by
    rw [← ht₃]
    refine restoreRemoved_loop hunique (fun e he => ?_) fun j v hv => ?_
    · obtain ⟨m, hm, hlinks⟩ := hmarks e.1
      have hrow : u.removedValues.find? e.1 = some e.2 := by
        rw [← find?_sorted]
        exact mem_entries_iff.mp he
      obtain rfl := hm.of_entry.2.2 _ hrow
      exact hlinks.1
    · rw [← hfind]
      exact find?_of_insert_loop ht₃ hv
  simp only [restoreKeyed, bind_eq_bind, bind_eq_some_iff,
    restoreOld_loop_sorted hunique hmarks]
  rw [hbase]
  constructor
  · rintro ⟨s₁, ⟨hfree, hs₁⟩, s₂, hs₂, hs₃⟩
    obtain rfl : t₁ = s₁ := mem_unique ht₁ hs₁
    obtain rfl : t₂ = s₂ := mem_unique ht₂ hs₂
    exact ⟨hfree, hthird.symm.trans hs₃⟩
  · rintro ⟨hfree, heq⟩
    cases heq
    exact ⟨t₁, ⟨hfree, ht₁⟩, t₂, ht₂, hthird⟩

theorem find?_restoreKeyed (h : restoreKeyed keys u t = some t') (id : Nat) :
    t'.find? id = c.objects id := by
  obtain ⟨t₃, hbase, hfind⟩ := find?_restore_sorted hmarks
  obtain ⟨-, hrestore⟩ := (restoreKeyed_eq_some hunique hmarks).mp h
  obtain rfl : t₃ = t' := mem_unique hbase hrestore
  exact hfind id

end Restore

-- # Calls

omit [DecidableEq K] in
theorem Contents.Unique.mono {c c' : Contents V} (h : c.Unique keys)
    (hsub : ∀ j v, c'.objects j = some v → c.objects j = some v) : c'.Unique keys :=
  fun i j v w hv hw => h i j v w (hsub i v hv) (hsub j w hw)

omit [DecidableEq K] in
/-- An object that collides with no other may be put under an id. -/
theorem Contents.Unique.put {c c' : Contents V} {id : Nat} {x : V} (h : c.Unique keys)
    (hobj : ∀ j, c'.objects j = if j = id then some x else c.objects j)
    (hfree : ∀ j w, c.objects j = some w → j ≠ id → ¬ Clash keys x w) : c'.Unique keys := by
  intro i j v w hv hw hclash
  rw [hobj] at hv hw
  by_cases hi : i = id
  · by_cases hj : j = id
    · rw [hi, hj]
    · rw [if_pos hi, some.injEq] at hv
      rw [if_neg hj] at hw
      subst hv
      exact absurd hclash (hfree j w hw hj)
  · rw [if_neg hi] at hv
    by_cases hj : j = id
    · rw [if_pos hj, some.injEq] at hw
      subst hw
      obtain ⟨key, hkey, heq⟩ := hclash
      exact absurd ⟨key, hkey, heq.symm⟩ (hfree i v hv hi)
    · rw [if_neg hj] at hw
      exact h i j v w hv hw hclash

variable {w : UndoState V} {ws : List (UndoState V)} {m : V → V}

/-- `modify` with keys: it returns, or it throws and the object is gone. -/
theorem modifyKeyed_eq_some {id : Nat} {ok : Bool}
    (h : g.modifyKeyed keys id m = some (g', ok)) : ∃ v, g.indices.find? id = some v ∧
      if Collides keys g.indices id (m v) then
        ok = false ∧ g' = { g.onHead (·.onModify id v) with indices := g.indices.erase id }
      else ok = true ∧ g.modify id m = some g' := by
  unfold GenericIndex.modifyKeyed Table.modifyKeyed at h
  obtain ⟨v, hv, h⟩ := bind_eq_some_iff.mp h
  refine ⟨v, hv, ?_⟩
  have hrow : (g.onHead (·.onModify id v)).indices = g.indices := rfl
  simp only [hrow, hv, bind_eq_bind, bind_some] at h
  have hkey : id ∈ g.indices.keys := find?_isSome_iff.mp (by rw [hv]; rfl)
  split
  · next hcollides =>
    simp only [hcollides, if_true, Option.pure_def, bind_some, Option.some.injEq,
      Prod.mk.injEq] at h
    exact ⟨h.2.symm, h.1.symm⟩
  · next hfree =>
    simp only [hfree, if_false, Option.pure_def, bind_some, Option.some.injEq,
      Prod.mk.injEq] at h
    refine ⟨h.2.symm, ?_⟩
    rw [← h.1]
    unfold GenericIndex.modify Table.modify?
    simp [hv, hkey]

/-- The index with keys and the copies are in the same state, and no state has two objects with a
key in common. -/
structure Keyed (keys : List (V → K)) (g : GenericIndex V) (u : UndoStack (Contents V)) : Prop where
  refines : Refines g u
  unique : g.contents.Unique keys
  saved : ∀ e ∈ u.saved, e.2.Unique keys

variable {u : UndoStack (Contents V)}

section

variable (h : Keyed keys g u)

include h

omit [DecidableEq K] in
theorem Keyed.newest (hstack : g.stack = w :: ws) : ∃ r c cs,
      u.saved = (r, c) :: cs ∧ c.Unique keys ∧
      Records w r c g.contents ∧ Linked c ws cs ∧
      ∀ id, ∃ m, w.HasMark id m ∧ m.Links (c.objects id) (g.indices.find? id) := by
  obtain ⟨r, c, cs, hsaved, hrec, hrest⟩ := h.refines.newest hstack
  refine ⟨r, c, cs, hsaved, ?_, hrec, hrest, fun id => ?_⟩
  · exact h.saved (r, c) (hsaved ▸ mem_cons_self)
  · obtain ⟨m, hm, hlinks, -⟩ := hrec.marks id
    exact ⟨m, hm, hlinks⟩

omit [DecidableEq K] in
theorem Keyed.startUndoSession : Keyed keys g.startUndoSession u.startUndoSession := by
  refine ⟨refines_startUndoSession h.refines, h.unique, fun e he => ?_⟩
  rcases mem_cons.mp he with rfl | he
  · show u.cur.Unique keys
    rw [h.refines.cur]
    exact h.unique
  · exact h.saved e he

theorem Keyed.emplace {c : Nat → V} (hg : g.emplaceKeyed keys c = some g') :
    Keyed keys g' (u.set g'.contents) := by
  obtain ⟨t, hkeyed, heq⟩ := bind_eq_some_iff.mp hg
  obtain ⟨hcollides, ht⟩ := insertKeyed_eq_some.mp hkeyed
  refine ⟨refines_emplace h.refines (bind_eq_some_iff.mpr ⟨t, ht, heq⟩), ?_, h.saved⟩
  cases heq
  refine h.unique.put (find?_insert? ht) fun j w hw hne hclash => ?_
  exact hcollides (collides_iff.mpr ⟨j, w, hw, hne, hclash⟩)

theorem Keyed.modify {id : Nat}
    (hg : g.modifyKeyed keys id m = some (g', true)) : Keyed keys g' (u.set g'.contents) := by
  obtain ⟨v, hv, hcases⟩ := modifyKeyed_eq_some hg
  split at hcases
  · exact absurd hcases.1 (by simp)
  · next hcollides =>
    refine ⟨refines_modify h.refines hcases.2, ?_, h.saved⟩
    have hmodify := hcases.2
    obtain ⟨v', -, hmodify⟩ := bind_eq_some_iff.mp hmodify
    obtain ⟨t, ht, heq⟩ := bind_eq_some_iff.mp hmodify
    cases heq
    obtain ⟨-, rfl⟩ := modify?_eq_some ht
    refine h.unique.put (find?_modify_of_some hv m) fun j w hw hne hclash => ?_
    exact hcollides (collides_iff.mpr ⟨j, w, hw, hne, hclash⟩)

omit [DecidableEq K] in
theorem Keyed.remove {id : Nat} (hg : g.remove id = some g') :
    Keyed keys g' (u.set g'.contents) := by
  refine ⟨refines_remove h.refines hg, ?_, h.saved⟩
  obtain ⟨v, -, hg⟩ := bind_eq_some_iff.mp hg
  obtain ⟨t, ht, hg⟩ := bind_eq_some_iff.mp hg
  cases hg
  obtain ⟨-, rfl⟩ := erase?_eq_some ht
  refine h.unique.mono fun j w hw => ?_
  have hrow : (g.indices.erase id).find? j = some w := hw
  rw [find?_erase] at hrow
  split at hrow
  · cases hrow
  · exact hrow

theorem Keyed.undo (hg : g.undoKeyed keys = some g') : Keyed keys g' u.undo := by
  unfold undoKeyed at hg
  cases hstack : g.stack with
  | nil =>
    rw [hstack] at hg
    cases hg
    have hundo : g.undo = some g := by
      unfold undo
      rw [hstack]
    obtain ⟨g₁, hg₁, href⟩ := refines_undo h.refines
    obtain rfl : g = g₁ := mem_unique hundo hg₁
    refine ⟨href, h.unique, fun e he => h.saved e ?_⟩
    unfold UndoStack.undo at he
    split at he
    · exact he
    · next hsaved =>
      rw [hsaved]
      exact mem_cons_of_mem _ he
  | cons w ws =>
    rw [hstack] at hg
    obtain ⟨t, ht, heq⟩ := bind_eq_some_iff.mp hg
    cases heq
    obtain ⟨r, c, cs, hsaved, hunique, hrec, hrest, hmarks⟩ := h.newest hstack
    have hfind := find?_restoreKeyed hunique hmarks ht
    refine ⟨h.refines.restored hsaved hrec hrest hfind, ?_, fun e he => h.saved e ?_⟩
    · exact hunique.mono fun j v hv => (hfind j).symm.trans hv
    · unfold UndoStack.undo at he
      rw [hsaved] at he
      rw [hsaved]
      exact mem_cons_of_mem _ he

omit [DecidableEq K] in
theorem Keyed.squash : Keyed keys g.squash u.squash := by
  refine ⟨refines_squash h.refines, ?_, fun e he => h.saved e ?_⟩
  · have hsame : g.squash.contents = g.contents := by
      unfold GenericIndex.squash
      split <;> rfl
    rw [hsame]
    exact h.unique
  · unfold UndoStack.squash at he
    split at he
    · exact he
    · cases he
    · next hsaved =>
      rw [hsaved]
      exact mem_cons_of_mem _ he

omit [DecidableEq K] in
theorem Keyed.commit (revision : Int) : Keyed keys (g.commit revision) (u.commit revision) :=
  ⟨refines_commit revision h.refines, h.unique,
    fun e he => h.saved e ((List.rdropWhile_prefix _ _).subset he)⟩

/-- **Every call that does not throw** keeps index and copies in the same state. -/
theorem Keyed.step {op : GenericIndex.Op V}
    (hg : g.stepKeyed keys op = some g') : Keyed keys g' (u.follow g' op) := by
  cases op with
  | startUndoSession =>
    cases hg
    exact h.startUndoSession
  | emplace c => exact h.emplace hg
  | modify id m =>
    obtain ⟨⟨g₁, ok⟩, hmodify, hok⟩ := bind_eq_some_iff.mp hg
    cases ok with
    | true =>
      cases hok
      exact h.modify hmodify
    | false => cases hok
  | remove id => exact h.remove hg
  | undo => exact h.undo hg
  | squash =>
    cases hg
    exact h.squash
  | commit revision =>
    cases hg
    exact h.commit revision

end

/-- One call that does not throw, followed on copies. -/
def trackedKeyed (keys : List (V → K)) (s : GenericIndex V × UndoStack (Contents V))
    (op : GenericIndex.Op V) : Option (GenericIndex V × UndoStack (Contents V)) := do
  let g ← s.1.stepKeyed keys op
  return (g, s.2.follow g op)

theorem keyed_of_run {ops : List (GenericIndex.Op V)}
    (h : Run.exec (trackedKeyed keys) trackedInit ops = some (g, u)) : Keyed keys g u := by
  refine Run.exec_induct (fun s => Keyed keys s.1 s.2) ?_ ⟨refines_init, ?_, ?_⟩ h
  · intro s op s' hs hstep
    obtain ⟨g₁, hg₁, hs'⟩ := bind_eq_some_iff.mp hstep
    cases hs'
    exact hs.step hg₁
  · intro i j v w hv
    have hnone : none = some v := hv
    cases hnone
  · intro e he
    have hnil : e ∈ [] := he
    cases hnil

-- # When `undo` completes

theorem undoKeyed_of_stack (hstack : g.stack = w :: ws) :
    g.undoKeyed keys = (restoreKeyed keys w g.indices).map fun t =>
      { stack := ws, revision := g.revision - 1, nextId := w.oldNextId, indices := t } := by
  unfold undoKeyed
  rw [hstack]
  exact bind_pure_comp ..

/-- `undo` does not throw and leaves what the innermost session started from. -/
def UndoCompletes (keys : List (V → K)) (g : GenericIndex V) (u : UndoStack (Contents V)) : Prop :=
  ∃ r c rest g', u.saved = (r, c) :: rest ∧ g.undoKeyed keys = some g' ∧ g'.contents = c

/-- **`undo` completes if and only if no key is in the way.** Along every run of calls that do
not throw, `undo` of the innermost session throws exactly if an object is to get its old value
back while another one, new or with a larger id, still has one of its keys. -/
theorem undo_completes_iff {ops : List (GenericIndex.Op V)} {w : UndoState V}
    {ws : List (UndoState V)} (hrun : Run.exec (trackedKeyed keys) trackedInit ops = some (g, u))
    (hstack : g.stack = w :: ws) : UndoCompletes keys g u ↔ Unobstructed keys w g.indices := by
  have hkeyed := keyed_of_run hrun
  obtain ⟨r, c, cs, hsaved, hunique, hrec, hrest, hmarks⟩ := hkeyed.newest hstack
  constructor
  · rintro ⟨r', c', rest', g', -, hg', -⟩
    rw [undoKeyed_of_stack hstack] at hg'
    obtain ⟨t, ht, -⟩ := map_eq_some_iff.mp hg'
    exact ((restoreKeyed_eq_some hunique hmarks).mp ht).1
  · intro hfree
    obtain ⟨t, hbase, hfind⟩ := find?_restore_sorted hmarks
    have ht := (restoreKeyed_eq_some hunique hmarks).mpr ⟨hfree, hbase⟩
    refine ⟨r, c, cs, _, hsaved, by rw [undoKeyed_of_stack hstack, ht]; rfl, ?_⟩
    exact Contents.ext (funext hfind) hrec.oldNextId

/-- Objects 0 and 1 swap their keys inside a session, by way of a third key. -/
def swappedOps : List (GenericIndex.Op Nat) :=
  [.emplace fun _ => 0, .emplace fun _ => 1, .startUndoSession, .modify 0 fun _ => 2,
    .modify 1 fun _ => 0, .modify 0 fun _ => 1]

/-- **Swapped keys cannot be swapped back.** Every call has succeeded, and `undo` throws. -/
theorem undo_throws_swapped : ∃ g u, Run.exec (trackedKeyed [fun v : Nat => v]) trackedInit
      swappedOps = some (g, u) ∧ g.undoKeyed [fun v : Nat => v] = none := by
  have hrun : (Run.exec (trackedKeyed [fun v : Nat => v]) trackedInit swappedOps).map
      (fun s => (s.1.undoKeyed [fun v : Nat => v]).isNone) = some true := by decide +kernel
  obtain ⟨⟨g, u⟩, hgu, hnone⟩ := map_eq_some_iff.mp hrun
  exact ⟨g, u, hgu, isNone_iff_eq_none.mp hnone⟩

/-- Object 1 takes over the key that object 0 has given up, and the order of the ids is such that
both get their old values back. -/
theorem undo_completes_moved : ∃ g u w ws, Run.exec (trackedKeyed [fun v : Nat => v]) trackedInit
      [.emplace fun _ => 0, .emplace fun _ => 1, .startUndoSession, .modify 1 fun _ => 2,
        .modify 0 fun _ => 1] = some (g, u) ∧ g.stack = w :: ws ∧
    (UndoCompletes [fun v : Nat => v] g u ↔ Unobstructed [fun v : Nat => v] w g.indices) ∧
    (g.undoKeyed [fun v : Nat => v]).isSome := by
  have hrun : (Run.exec (trackedKeyed [fun v : Nat => v]) trackedInit
      [.emplace fun _ => 0, .emplace fun _ => 1, .startUndoSession, .modify 1 fun _ => 2,
        .modify 0 fun _ => 1]).map
      (fun s => (s.1.stack.isEmpty, (s.1.undoKeyed [fun v : Nat => v]).isSome)) =
        some (false, true) := by decide +kernel
  obtain ⟨⟨g, u⟩, hgu, hvalues⟩ := map_eq_some_iff.mp hrun
  obtain ⟨hstack, hsome⟩ := Prod.mk.inj hvalues
  cases hs : g.stack with
  | nil => exact absurd hstack (by simp [hs])
  | cons w ws => exact ⟨g, u, w, ws, hgu, hs, undo_completes_iff hgu hs, hsome⟩

-- # After a call of `modify` that throws

/-- The first loop needs every row it writes to, and keeps all. -/
theorem rows_of_old_loop {l : List (Nat × V)} (h : l.foldlM (restoreOld keys) t = some t') :
    (∀ e ∈ l, (t.find? e.1).isSome) ∧ ∀ j, (t'.find? j).isSome = (t.find? j).isSome := by
  induction l generalizing t with
  | nil =>
    cases h
    exact ⟨fun e he => absurd he (by simp), fun _ => rfl⟩
  | cons e l ih =>
    obtain ⟨t₁, hround, hrest⟩ := bind_eq_some_iff.mp h
    obtain ⟨hkey, rfl⟩ := modify?_eq_some (restoreOld_eq_some.mp hround).2
    have hkeep : ∀ j, ((t.modify e.1 fun _ => e.2).find? j).isSome = (t.find? j).isSome := by
      intro j
      rw [find?_modify]
      split <;> simp
    obtain ⟨hrows, hkept⟩ := ih hrest
    refine ⟨fun f hf => ?_, fun j => (hkept j).trans (hkeep j)⟩
    rcases mem_cons.mp hf with rfl | hf
    · exact isSome_iff_ne_none.mpr hkey
    · exact (hkeep f.1).symm.trans (hrows f hf)

omit [DecidableEq K] in
/-- So does the second. -/
theorem rows_of_erase_loop {l : List (Nat × Unit)}
    (h : l.foldlM (fun t item => t.erase? item.1) t = some t') : ∀ e ∈ l, (t.find? e.1).isSome := by
  induction l generalizing t with
  | nil => exact fun e he => absurd he (by simp)
  | cons e l ih =>
    obtain ⟨t₁, hround, hrest⟩ := bind_eq_some_iff.mp h
    obtain ⟨hkey, rfl⟩ := erase?_eq_some hround
    intro f hf
    rcases mem_cons.mp hf with rfl | hf
    · exact isSome_iff_ne_none.mpr hkey
    · have hrow := ih hrest f hf
      rw [find?_erase] at hrow
      split at hrow
      · cases hrow
      · exact hrow

/-- `undo` needs a row for everything on record as old or as new. -/
theorem restoreKeyed_none {id : Nat} (hrow : t.find? id = none)
    (hrecord : (w.newIds.find? id).isSome ∨ (w.oldValues.find? id).isSome) :
    restoreKeyed keys w t = none := by
  by_contra hne
  obtain ⟨t', h⟩ := ne_none_iff_exists'.mp hne
  simp only [restoreKeyed, bind_eq_bind, bind_eq_some_iff] at h
  obtain ⟨t₁, hold, t₂, hnew, -⟩ := h
  obtain ⟨hrows, hkept⟩ := rows_of_old_loop hold
  rcases hrecord with hid | hid
  · obtain ⟨x, hx⟩ := isSome_iff_exists.mp hid
    rw [← find?_sorted] at hx
    have hsome := rows_of_erase_loop hnew _ (mem_entries_iff.mpr hx)
    rw [hkept, hrow] at hsome
    cases hsome
  · obtain ⟨x, hx⟩ := isSome_iff_exists.mp hid
    rw [← find?_sorted] at hx
    have hsome := hrows _ (mem_entries_iff.mpr hx)
    rw [hrow] at hsome
    cases hsome

omit [DecidableEq K] in
theorem onModify_record (w : UndoState V) (id : Nat) (v : V) :
    ((w.onModify id v).newIds.find? id).isSome ∨ ((w.onModify id v).oldValues.find? id).isSome := by
  unfold UndoState.onModify
  split
  · next hnew => exact .inl hnew
  · split
    · next hold => exact .inr hold
    · next hold =>
      refine .inr ?_
      rw [find?_emplace]
      split <;> simp_all

/-- The contents are as before the call, or undoing the innermost session gives what it started
from. -/
def Recoverable (keys : List (V → K)) (g g' : GenericIndex V) (u : UndoStack (Contents V)) : Prop :=
  g'.contents = g.contents ∨ UndoCompletes keys g' u

/-- **A call of `modify` that throws is never recovered from.** The index is as the caller may
expect after it if and only if it does not throw, for want of a collision. -/
theorem modify_recoverable_iff {ops : List (GenericIndex.Op V)} {id : Nat} {v : V} {m : V → V}
    (hrun : Run.exec (trackedKeyed keys) trackedInit ops = some (g, u))
    (hv : g.indices.find? id = some v) :
    (∀ g', g.modifyKeyed keys id m = some (g', false) → Recoverable keys g g' u) ↔
      ¬ Collides keys g.indices id (m v) := by
  have hrefines := (keyed_of_run hrun).refines
  constructor
  · intro hrecover hcollides
    have hthrows : g.modifyKeyed keys id m =
        some ({ g.onHead (·.onModify id v) with indices := g.indices.erase id }, false) := by
      unfold GenericIndex.modifyKeyed Table.modifyKeyed
      have hrow : (g.onHead (·.onModify id v)).indices = g.indices := rfl
      simp [hv, hrow, hcollides]
    have hgone : (g.indices.erase id).find? id = none := by
      rw [find?_erase, if_pos rfl]
    rcases hrecover _ hthrows with hsame | ⟨r, c, rest, g', hsaved, hundo, -⟩
    · -- the object is not there any more
      have hobject : (g.indices.erase id).find? id = g.indices.find? id :=
        congrFun (congrArg Contents.objects hsame) id
      rw [hgone, hv] at hobject
      cases hobject
    · cases hstack : g.stack with
      | nil =>
        have hlinked := hrefines.linked
        rw [hstack, hsaved] at hlinked
        exact hlinked
      | cons w ws =>
        have hhead : ({ g.onHead (·.onModify id v) with
            indices := g.indices.erase id } : GenericIndex V).stack = w.onModify id v :: ws := by
          unfold onHead
          rw [hstack]
        have hstuck : restoreKeyed keys (w.onModify id v) (g.indices.erase id) = none :=
          restoreKeyed_none hgone (onModify_record w id v)
        have hthrow := hundo.symm.trans (undoKeyed_of_stack hhead)
        rw [hstuck] at hthrow
        cases hthrow
  · intro hfree g' hthrows
    obtain ⟨v', hv', hcases⟩ := modifyKeyed_eq_some hthrows
    obtain rfl : v = v' := mem_unique hv hv'
    rw [if_neg hfree] at hcases
    exact absurd hcases.1 (by simp)

/-- **A failed modification takes the object out for good.** Object 0 wants the key of object 1:
the call throws, object 0 is gone, and `undo` of the session throws as well. -/
theorem modify_throws_lost : ∃ g u g', Run.exec (trackedKeyed [fun v : Nat => v]) trackedInit
      [.emplace fun _ => 0, .emplace fun _ => 1, .startUndoSession] = some (g, u) ∧
    g.modifyKeyed [fun v : Nat => v] 0 (fun _ => 1) = some (g', false) ∧
    g.indices.find? 0 = some 0 ∧ g'.indices.find? 0 = none ∧
    g'.undoKeyed [fun v : Nat => v] = none := by
  obtain ⟨⟨g, u⟩, hgu, ⟨g', _⟩, hmodify, rfl, hrest⟩ : ∃ s, Run.exec
      (trackedKeyed [fun v : Nat => v]) trackedInit
      [.emplace fun _ => 0, .emplace fun _ => 1, .startUndoSession] = some s ∧
    ∃ r, s.1.modifyKeyed [fun v : Nat => v] 0 (fun _ => 1) = some r ∧ r.2 = false ∧
      s.1.indices.find? 0 = some 0 ∧ r.1.indices.find? 0 = none ∧
      (r.1.undoKeyed [fun v : Nat => v]).isNone = true := by decide +kernel
  exact ⟨g, u, g', hgu, hmodify, hrest.1, hrest.2.1, isNone_iff_eq_none.mp hrest.2.2⟩

/-- Object 0 gets a key that nobody has. -/
theorem modify_recoverable_free : ∃ g u, Run.exec (trackedKeyed [fun v : Nat => v]) trackedInit
      [.emplace fun _ => 0, .emplace fun _ => 1, .startUndoSession] = some (g, u) ∧
    g.indices.find? 0 = some 0 ∧
    ((∀ g', g.modifyKeyed [fun v : Nat => v] 0 (fun _ => 2) = some (g', false) →
      Recoverable [fun v : Nat => v] g g' u) ↔ ¬ Collides [fun v : Nat => v] g.indices 0 2) := by
  have hrun : (Run.exec (trackedKeyed [fun v : Nat => v]) trackedInit
      [.emplace fun _ => 0, .emplace fun _ => 1, .startUndoSession]).map
        (fun s => s.1.indices.find? 0) = some (some 0) := by decide +kernel
  obtain ⟨⟨g, u⟩, hgu, hrow⟩ := map_eq_some_iff.mp hrun
  exact ⟨g, u, hgu, hrow, modify_recoverable_iff (m := fun _ => 2) hgu hrow⟩

end DeltaChain.Chainbase

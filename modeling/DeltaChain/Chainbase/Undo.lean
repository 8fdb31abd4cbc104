import DeltaChain.Lib.Mark
import DeltaChain.Lib.Run
import DeltaChain.Chainbase.GenericIndex
import DeltaChain.Chainbase.UndoStack

/-!
# Undo states restore the state they were started in

The index of `Chainbase.GenericIndex` records changes; the stack of
`Chainbase.UndoStack` keeps copies. This module relates the two. An undo state
gives every id a `Mark`, and the marks of an undo state link the objects at the
start of its session to the objects after it:

* `records_onCreate`, `records_onModify`, `records_onRemove` — recording a
  change extends the link;
* `find?_restore` — the loops of `undo` revert every mark;
* `slots_merge` — the loops of `squash` compose the marks;
* `refines_step` — every call of the index is the call of the same name on
  copies;
* `undo_restores_started` — in every run, `undo` succeeds and gives back the
  contents the index had when the session was started.
-/

namespace DeltaChain.Chainbase

open Lib Option Table UndoState GenericIndex

variable {V : Type}

-- # Marks of an undo state

/-- The entries of an undo state for one id: new, old value, removed value. -/
def UndoState.slots (u : UndoState V) (id : Nat) : Option Unit × Option V × Option V :=
  (u.newIds.find? id, u.oldValues.find? id, u.removedValues.find? id)

/-- The entries that stand for a mark. -/
def slotsOf : Mark V → Option Unit × Option V × Option V
  | .new => (some (), none, none)
  | .upd was => (none, some was, none)
  | .del was => (none, none, some was)
  | .nop => (none, none, none)

/-- The undo state gives `id` the mark `m`. -/
def UndoState.HasMark (u : UndoState V) (id : Nat) (m : Mark V) : Prop :=
  u.slots id = slotsOf m

/-- The part of an index that `undo` restores. -/
@[ext]
structure Contents (V : Type) where
  objects : Nat → Option V
  nextId : Nat

def GenericIndex.contents (g : GenericIndex V) : Contents V := ⟨g.indices.find?, g.nextId⟩

theorem slots_onCreate (u : UndoState V) (id j : Nat) :
    (u.onCreate id).slots j =
      if j = id then (some (), (u.slots j).2) else u.slots j := by
  unfold slots onCreate
  simp only [find?_emplace]
  by_cases hj : j = id
  · subst hj
    cases u.newIds.find? j <;> simp
  · simp [hj]

variable {m : Mark V}

variable {id : Nat} {cs : List (Int × Contents V)} {ws : List (UndoState V)} {r : Int} {v : V}
  {t : Table Nat V} {w : UndoState V} {j : Nat}

-- # The loops of `undo`

/-- An entry tells the mark. -/
theorem UndoState.HasMark.of_entry {u : UndoState V} (hm : u.HasMark id m) :
    (∀ v, u.oldValues.find? id = some v → m = .upd v) ∧
      (u.newIds.find? id = some () → m = .new) ∧
      ∀ v, u.removedValues.find? id = some v → m = .del v := by
  unfold HasMark slots at hm
  cases m <;> simp_all [slotsOf]

/-- One loop of `undo`: `body` succeeds on the rows the loop visits and puts
`g` of the entry there. -/
private theorem restore_loop {W : Type} (body : Table Nat V → Nat × W → Option (Table Nat V))
    (ok : Option V → Prop) (g : W → Option V)
    (hbody : ∀ (t : Table Nat V) e, ok (t.find? e.1) → ∃ t', body t e = some t' ∧
      ∀ k, t'.find? k = if k = e.1 then g e.2 else t.find? k)
    (es : Table Nat W) (t : Table Nat V) (hok : ∀ k w, es.find? k = some w → ok (t.find? k)) :
    ∃ t', es.entries.foldlM body t = some t' ∧ ∀ k, t'.find? k =
      match es.find? k with
      | some w => g w
      | none => t.find? k := by
  refine foldlM_view find? body (fun _ x => ok x) (fun e _ => g e.2) ?_ es.entries t
    es.nodup ?_
  · intro t e he
    obtain ⟨t', ht', hfind⟩ := hbody t e he
    refine ⟨t', ht', ?_, ?_⟩
    · rw [hfind, if_pos rfl]
    · intro k hk
      rw [hfind, if_neg hk]
  · intro e he
    exact hok e.1 e.2 (mem_entries_iff.mp he)

/-- **The loops of `undo` revert every mark.** If the marks of an undo state
link `before` to the rows of the index, the loops succeed and leave exactly
`before`. -/
theorem find?_restore {u : UndoState V} {before : Nat → Option V}
    (h : ∀ id, ∃ m, u.HasMark id m ∧ m.Links (before id) (t.find? id)) :
    ∃ t', restore u t = some t' ∧ ∀ id, t'.find? id = before id := by
  -- the first loop visits the updated ids, and these have a row
  obtain ⟨t₁, ht₁, hfind₁⟩ := restore_loop
    (fun t item => t.modify? item.1 fun _ => item.2) (fun x => x ≠ none) some
    (by
      intro t e he
      refine ⟨_, modify?_isSome _ he, fun k => ?_⟩
      rw [find?_modify]
      by_cases hk : k = e.1
      · obtain ⟨v, hv⟩ := ne_none_iff_exists'.mp he
        simp [hk, hv]
      · simp [hk])
    u.oldValues t
    (by
      intro id v hv
      obtain ⟨m, hm, hlinks⟩ := h id
      obtain rfl := hm.of_entry.1 v hv
      exact isSome_iff_ne_none.mp hlinks.2)
  -- the second visits the new ids, which the first did not touch
  obtain ⟨t₂, ht₂, hfind₂⟩ := restore_loop
    (fun t (item : Nat × Unit) => t.erase? item.1) (fun x => x ≠ none) (fun _ => none)
    (by
      intro t e he
      exact ⟨_, erase?_isSome he, fun k => find?_erase t e.1 k⟩)
    u.newIds t₁
    (by
      intro id _ hid
      obtain ⟨m, hm, hlinks⟩ := h id
      obtain rfl := hm.of_entry.2.1 hid
      have hold : u.oldValues.find? id = none := congrArg (fun s => s.2.1) hm
      rw [hfind₁, hold]
      exact isSome_iff_ne_none.mp hlinks.2)
  -- the third visits the removed ids, which have no row and were not touched
  obtain ⟨t₃, ht₃, hfind₃⟩ := restore_loop
    (fun t item => t.insert? item.1 item.2) (fun x => x = none) some
    (by
      intro t e he
      obtain ⟨t', ht'⟩ := insert?_isSome e.2 he
      exact ⟨t', ht', fun k => find?_insert? ht' k⟩)
    u.removedValues t₂
    (by
      intro id v hv
      obtain ⟨m, hm, hlinks⟩ := h id
      obtain rfl := hm.of_entry.2.2 v hv
      have hnew : u.newIds.find? id = none := congrArg (fun s => s.1) hm
      have hold : u.oldValues.find? id = none := congrArg (fun s => s.2.1) hm
      rw [hfind₂, hnew]
      rw [hfind₁, hold]
      exact hlinks.2)
  refine ⟨t₃, ?_, fun id => ?_⟩
  · unfold restore
    simp only [ht₁, ht₂, ht₃, bind_eq_bind, bind_some]
  · obtain ⟨m, hm, hlinks⟩ := h id
    rw [← Mark.revert_of_links hlinks, hfind₃, hfind₂, hfind₁]
    unfold HasMark slots at hm
    cases m <;> simp_all [slotsOf, Mark.revert]

-- # The loops of `squash`

private theorem slots_squashOld (u : UndoState V) (e : Nat × V) (k : Nat) :
    (u.squashOld e).slots k =
      if k = e.1 ∧ (u.slots k).1 = none ∧ (u.slots k).2.1 = none then
        (none, some e.2, (u.slots k).2.2)
      else u.slots k := by
  unfold squashOld slots
  by_cases hk : k = e.1
  · subst hk
    cases hn : u.newIds.find? e.1 <;> cases ho : u.oldValues.find? e.1 <;>
      simp [hn, ho, find?_emplace]
  · split
    · simp [hk]
    · split
      · simp [hk]
      · simp [hk, find?_emplace]

private theorem slots_squashRemoved (u : UndoState V) (e : Nat × V) (k : Nat) :
    (u.squashRemoved e).slots k =
      if k = e.1 then
        match u.slots k with
        | (some _, s) => (none, s)
        | (none, some was, r) => (none, none, some (r.getD was))
        | (none, none, r) => (none, none, some (r.getD e.2))
      else u.slots k := by
  unfold squashRemoved slots
  by_cases hk : k = e.1
  · subst hk
    cases hn : u.newIds.find? e.1 <;> cases ho : u.oldValues.find? e.1 <;>
      simp [hn, ho, find?_emplace, find?_erase]
  · split
    · simp [hk, find?_erase]
    · split
      · simp [hk, find?_emplace, find?_erase]
      · simp [hk, find?_emplace]

/-- `on_remove` writes down what the third loop would, and `on_modify` what the first one would. -/
theorem onRemove_eq (u : UndoState V) (id : Nat) (v : V) :
    u.onRemove id v = u.squashRemoved (id, v) := by
  unfold onRemove squashRemoved
  split
  · rfl
  · cases u.oldValues.find? id with
    | some was => rfl
    | none =>
      dsimp only
      split
      · next hr => rw [Table.emplace, insert?, dif_pos (find?_isSome_iff.mp hr), getD_none]
      · rfl

theorem squashOld_header (u : UndoState V) (e : Nat × V) :
    (u.squashOld e).revision = u.revision ∧ (u.squashOld e).oldNextId = u.oldNextId := by
  unfold squashOld
  split
  · exact ⟨rfl, rfl⟩
  · split <;> exact ⟨rfl, rfl⟩

theorem squashRemoved_header (u : UndoState V) (e : Nat × V) :
    (u.squashRemoved e).revision = u.revision ∧ (u.squashRemoved e).oldNextId = u.oldNextId := by
  unfold squashRemoved
  split
  · exact ⟨rfl, rfl⟩
  · split <;> exact ⟨rfl, rfl⟩

/-- **The loops of `squash` compose the marks.** The pairs of the case matrix
marked N/A in the source cannot come from two consecutive changes, except a
creation under a deleted id, which the ids handed out by the index rule out. -/
theorem slots_merge {u w : UndoState V} {a b : Mark V} {x y z : Option V} (hu : u.HasMark id a)
    (hw : w.HasMark id b) (ha : a.Links x y) (hb : b.Links y z)
    (hne : ∀ was, a = .del was → b ≠ .new) : (u.merge w).HasMark id (a.andThen b) := by
  have hold := foldl_view (fun (s : UndoState V) k => s.slots k) squashOld
    (fun e s => if s.1 = none ∧ s.2.1 = none then (none, some e.2, s.2.2) else s)
    (fun s e => by rw [slots_squashOld]; simp)
    (fun s e k hk => by rw [slots_squashOld]; simp [hk])
    w.oldValues.entries u w.oldValues.nodup id
  have hnew := foldl_view (fun (s : UndoState V) k => s.slots k) squashNew
    (fun _ s => (some (), s.2))
    (fun s e => by
      rw [show s.squashNew e = s.onCreate e.1 from rfl, slots_onCreate, if_pos rfl])
    (fun s e k hk => by
      rw [show s.squashNew e = s.onCreate e.1 from rfl, slots_onCreate, if_neg hk])
    w.newIds.entries (w.oldValues.entries.foldl squashOld u) w.newIds.nodup id
  have hrem := foldl_view (fun (s : UndoState V) k => s.slots k) squashRemoved
    (fun e s => match s with
      | (some _, s) => (none, s)
      | (none, some was, r) => (none, none, some (r.getD was))
      | (none, none, r) => (none, none, some (r.getD e.2)))
    (fun s e => by rw [slots_squashRemoved, if_pos rfl])
    (fun s e k hk => by rw [slots_squashRemoved, if_neg hk])
    w.removedValues.entries
    (w.newIds.entries.foldl squashNew (w.oldValues.entries.foldl squashOld u))
    w.removedValues.nodup id
  obtain ⟨hw₁, hw₂, hw₃⟩ : w.newIds.entries.lookup id = (slotsOf b).1 ∧
      w.oldValues.entries.lookup id = (slotsOf b).2.1 ∧
      w.removedValues.entries.lookup id = (slotsOf b).2.2 :=
    ⟨congrArg (fun s => s.1) hw, congrArg (fun s => s.2.1) hw, congrArg (fun s => s.2.2) hw⟩
  unfold HasMark at hu ⊢
  unfold UndoState.merge
  rw [hrem, hnew, hold, hw₁, hw₂, hw₃, hu]
  cases a with
  | nop => cases b <;> simp [slotsOf, Mark.andThen]
  | new | upd _ =>
    cases b with
    | new => simp [Mark.Links] at ha hb; simp [hb.1] at ha
    | upd was | del was | nop => simp [slotsOf, Mark.andThen]
  | del v =>
    cases b with
    | new => exact absurd rfl (hne v rfl)
    | upd was | del was => simp [Mark.Links] at ha hb; simp [hb.1] at ha
    | nop => simp [slotsOf, Mark.andThen]

-- # Undo states against copies

/-- The undo state `u` of a session with revision `r` leads from the contents
`c` at its start to the contents `c'`. -/
structure Records (u : UndoState V) (r : Int) (c c' : Contents V) : Prop where
  revision : u.revision = r
  oldNextId : u.oldNextId = c.nextId
  nextId_le : c.nextId ≤ c'.nextId
  bound : ∀ id, c.nextId ≤ id → c.objects id = none
  marks : ∀ id, ∃ m, u.HasMark id m ∧ m.Links (c.objects id) (c'.objects id) ∧
    (m = .new → c.nextId ≤ id)

/-- The undo states of an index lead, one after the other, through the copies
to the current contents. -/
def Linked : Contents V → List (UndoState V) → List (Int × Contents V) → Prop
  | _, [], [] => True
  | c', u :: us, (r, c) :: cs => Records u r c c' ∧ Linked c us cs
  | _, _, _ => False

/-- The index and the stack of copies are in the same state. -/
structure Refines (g : GenericIndex V) (u : UndoStack (Contents V)) : Prop where
  cur : u.cur = g.contents
  revision : u.revision = g.revision
  bound : ∀ id, g.nextId ≤ id → g.indices.find? id = none
  linked : Linked g.contents g.stack u.saved

/-- The call on copies that a call of the index stands for; the calls that
change objects set the current state to what the index made of it. -/
def UndoStack.follow (u : UndoStack (Contents V)) (g' : GenericIndex V) :
    GenericIndex.Op V → UndoStack (Contents V)
  | .startUndoSession => u.startUndoSession
  | .undo => u.undo
  | .squash => u.squash
  | .commit revision => u.commit revision
  | .emplace _ | .modify _ _ | .remove _ => u.set g'.contents

variable {c' c'' : Contents V}

/-- A change recorded by `f` in the current session keeps the undo states linked
if it turns a link to the old contents into a link to the new ones. -/
theorem linked_onHead {g : GenericIndex V} {f : UndoState V → UndoState V}
    (h : Linked c' g.stack cs) (hf : ∀ u r c, Records u r c c' → Records (f u) r c c'') :
    Linked c'' (g.onHead f).stack cs := by
  unfold onHead
  match g.stack, cs, h with
  | [], [], _ => trivial
  | u :: us, (r, c) :: cs, h => exact ⟨hf u r c h.1, h.2⟩
  | [], _ :: _, h => exact h.elim
  | _ :: _, [], h => exact h.elim

private theorem not_del_of_some {x y : Option V} (hm : m.Links x y) (hy : y = some v) :
    ∀ was, m ≠ .del was := by
  rintro was rfl
  have hnone : y = none := hm.2
  rw [hnone] at hy
  cases hy

variable {c : Contents V}

theorem records_onCreate {u : UndoState V} (h : Records u r c c')
    (hobj : ∀ id, c''.objects id = if id = c'.nextId then some v else c'.objects id)
    (hnext : c''.nextId = c'.nextId + 1) : Records (u.onCreate c'.nextId) r c c'' := by
  refine ⟨h.revision, h.oldNextId, ?_, h.bound, fun id => ?_⟩
  · have := h.nextId_le
    omega
  obtain ⟨m, hm, hlinks, hnew⟩ := h.marks id
  by_cases hid : id = c'.nextId
  · subst hid
    -- the id was free at the start of the session too, so its mark is `nop`
    have hbefore : c.objects c'.nextId = none := h.bound _ h.nextId_le
    have hslots : (u.slots c'.nextId).2 = (none, none) := by
      rw [show u.slots c'.nextId = slotsOf m from hm]
      cases m with
      | new | nop => rfl
      | upd was | del was =>
        have hsome : c.objects c'.nextId = some was := hlinks.1
        rw [hbefore] at hsome
        cases hsome
    refine ⟨.new, ?_, ⟨hbefore, ?_⟩, fun _ => h.nextId_le⟩
    · unfold HasMark
      rw [slots_onCreate, if_pos rfl, hslots]
      rfl
    · rw [hobj, if_pos rfl]
      rfl
  · refine ⟨m, ?_, ?_, hnew⟩
    · unfold HasMark
      rw [slots_onCreate, if_neg hid]
      exact hm
    · rw [hobj, if_neg hid]
      exact hlinks

/-- `on_modify` and `on_remove` add one more change of one object: `f` composes
the mark `b` onto the mark of `id` and leaves the others alone. -/
private theorem records_change {u : UndoState V} {b : Mark V} {x : Option V}
    {f : UndoState V} (h : Records u r c c') (hv : c'.objects id = some v) (hb : b.Links (some v) x)
    (hself : ∀ m, u.HasMark id m → (∀ was, m ≠ .del was) → f.HasMark id (m.andThen b))
    (hother : ∀ j, j ≠ id → f.slots j = u.slots j) (hrev : f.revision = u.revision)
    (hold : f.oldNextId = u.oldNextId)
    (hobj : ∀ j, c''.objects j = if j = id then x else c'.objects j)
    (hnext : c''.nextId = c'.nextId) : Records f r c c'' := by
  refine ⟨hrev.trans h.revision, hold.trans h.oldNextId, ?_, h.bound, fun j => ?_⟩
  · rw [hnext]
    exact h.nextId_le
  obtain ⟨m, hm, hlinks, hnew⟩ := h.marks j
  by_cases hj : j = id
  · subst hj
    have hdel := not_del_of_some hlinks hv
    have hbnew : b ≠ .new := by
      rintro rfl
      exact absurd hb.1 (by simp)
    refine ⟨m.andThen b, hself m hm hdel, ?_, ?_⟩
    · rw [hobj, if_pos rfl]
      exact Mark.links_andThen hlinks (hv ▸ hb) (fun was _ => hbnew)
    · intro hm'
      apply hnew
      cases m with
      | new => rfl
      | nop => exact absurd hm' hbnew
      | upd was | del was => cases b <;> exact absurd hm' (by simp [Mark.andThen])
  · refine ⟨m, (hother j hj).trans hm, ?_, hnew⟩
    rw [hobj, if_neg hj]
    exact hlinks

theorem records_onModify {u : UndoState V} {v v' : V} (h : Records u r c c')
    (hv : c'.objects id = some v)
    (hobj : ∀ j, c''.objects j = if j = id then some v' else c'.objects j)
    (hnext : c''.nextId = c'.nextId) : Records (u.onModify id v) r c c'' := by
  have hslots := slots_squashOld u (id, v)
  obtain ⟨hrev, hold⟩ := squashOld_header u (id, v)
  refine records_change (b := .upd v) h hv ⟨rfl, rfl⟩ (fun m hm hdel => ?_)
    (fun j hj => (hslots j).trans (if_neg fun h => hj h.1)) hrev hold hobj hnext
  refine (hslots id).trans ?_
  rw [show u.slots id = slotsOf m from hm]
  cases m with
  | del was => exact absurd rfl (hdel was)
  | new | upd _ | nop => simp [slotsOf, Mark.andThen]

theorem records_onRemove {u : UndoState V} (h : Records u r c c') (hv : c'.objects id = some v)
    (hobj : ∀ j, c''.objects j = if j = id then none else c'.objects j)
    (hnext : c''.nextId = c'.nextId) : Records (u.onRemove id v) r c c'' := by
  have hslots := slots_squashRemoved u (id, v)
  obtain ⟨hrev, hold⟩ := squashRemoved_header u (id, v)
  rw [onRemove_eq]
  refine records_change (b := .del v) h hv ⟨rfl, rfl⟩ (fun m hm hdel => ?_)
    (fun j hj => (hslots j).trans (if_neg hj)) hrev hold hobj hnext
  refine (hslots id).trans ?_
  rw [if_pos rfl, show u.slots id = slotsOf m from hm]
  cases m with
  | del was => exact absurd rfl (hdel was)
  | new | upd _ | nop => simp [slotsOf, Mark.andThen]

-- # Every call of the index is a call on copies

variable {g g' : GenericIndex V} {u : UndoStack (Contents V)}

theorem refines_init : Refines (GenericIndex.init : GenericIndex V)
    (UndoStack.init GenericIndex.init.contents 0) :=
  ⟨rfl, rfl, fun _ _ => rfl, trivial⟩

section

variable (h : Refines g u)

include h

theorem refines_startUndoSession : Refines g.startUndoSession u.startUndoSession := by
  have hrec : Records
      { oldValues := empty, removedValues := empty, newIds := empty,
        oldNextId := g.nextId, revision := g.revision + 1 }
      (g.revision + 1) g.contents g.contents :=
    ⟨rfl, rfl, le_refl _, h.bound, fun id => ⟨.nop, rfl, rfl, fun hm => absurd hm (by simp)⟩⟩
  refine ⟨h.cur, ?_, h.bound, ?_⟩
  · exact congrArg (· + 1) h.revision
  · show Linked g.contents (_ :: g.stack) ((u.revision + 1, u.cur) :: u.saved)
    rw [h.cur, h.revision]
    exact ⟨hrec, h.linked⟩

theorem refines_emplace {c : Nat → V} (hg : g.emplace c = some g') :
    Refines g' (u.set g'.contents) := by
  obtain ⟨t, ht, hg⟩ := bind_eq_some_iff.mp hg
  cases hg
  have hfind := find?_insert? ht
  refine ⟨rfl, h.revision, ?_, ?_⟩
  · intro id hid
    have hid' : g.nextId + 1 ≤ id := hid
    show t.find? id = none
    rw [hfind, if_neg (by omega)]
    exact h.bound id (by omega)
  · exact linked_onHead h.linked fun w r b hw => records_onCreate hw hfind rfl

theorem refines_modify {m : V → V} (hg : g.modify id m = some g') :
    Refines g' (u.set g'.contents) := by
  obtain ⟨v, hv, hg⟩ := bind_eq_some_iff.mp hg
  obtain ⟨t, ht, hg⟩ := bind_eq_some_iff.mp hg
  cases hg
  obtain ⟨-, rfl⟩ := modify?_eq_some ht
  refine ⟨rfl, h.revision, ?_, ?_⟩
  · intro j hj
    have hjn : g.nextId ≤ j := hj
    show (g.indices.modify id m).find? j = none
    rw [find?_modify, h.bound j hjn]
    split <;> rfl
  · exact linked_onHead h.linked fun w r b hw => records_onModify hw hv (find?_modify_of_some hv m) rfl

theorem refines_remove (hg : g.remove id = some g') : Refines g' (u.set g'.contents) := by
  obtain ⟨v, hv, hg⟩ := bind_eq_some_iff.mp hg
  obtain ⟨t, ht, hg⟩ := bind_eq_some_iff.mp hg
  cases hg
  obtain ⟨-, rfl⟩ := erase?_eq_some ht
  refine ⟨rfl, h.revision, ?_, ?_⟩
  · intro j hj
    have hjn : g.nextId ≤ j := hj
    show (g.indices.erase id).find? j = none
    rw [find?_erase, h.bound j hjn]
    split <;> rfl
  · exact linked_onHead h.linked fun w r b hw => records_onRemove hw hv (find?_erase _ id) rfl

theorem Refines.newest (hstack : g.stack = w :: ws) : ∃ r c cs, u.saved = (r, c) :: cs ∧
      Records w r c g.contents ∧ Linked c ws cs := by
  have hlinked := h.linked
  rw [hstack] at hlinked
  match hu : u.saved, hlinked with
  | (r, c) :: cs, hlinked => exact ⟨r, c, cs, rfl, hlinked⟩

/-- With the rows of the newest copy, the index is in the state of the copies after `undo`. -/
theorem Refines.restored
    (hsaved : u.saved = (r, c) :: cs) (hrec : Records w r c g.contents) (hrest : Linked c ws cs)
    (hfind : ∀ id, t.find? id = c.objects id) :
    Refines { stack := ws, revision := g.revision - 1, nextId := w.oldNextId, indices := t }
      u.undo := by
  have hcontents : (⟨t.find?, w.oldNextId⟩ : Contents V) = c :=
    Contents.ext (funext hfind) hrec.oldNextId
  unfold UndoStack.undo
  rw [hsaved]
  refine ⟨hcontents.symm, congrArg (· - 1) h.revision, ?_, ?_⟩
  · intro id hid
    show t.find? id = none
    rw [hfind]
    exact hrec.bound id (hrec.oldNextId ▸ hid)
  · show Linked ⟨t.find?, w.oldNextId⟩ ws cs
    rw [hcontents]
    exact hrest

/-- `undo` of the index succeeds and puts the newest copy back. -/
theorem refines_undo : ∃ g', g.undo = some g' ∧ Refines g' u.undo := by
  cases hs : g.stack with
  | nil =>
    have hsaved : u.saved = [] := by
      have hlinked := h.linked
      rw [hs] at hlinked
      match hu : u.saved, hlinked with
      | [], _ => rfl
    refine ⟨g, by unfold undo; rw [hs], ?_⟩
    unfold UndoStack.undo
    rw [hsaved]
    exact h
  | cons w ws =>
    obtain ⟨r, c, cs, hsaved, hrec, hrest⟩ := h.newest hs
    have hmarks : ∀ id, ∃ m, w.HasMark id m ∧ m.Links (c.objects id) (g.indices.find? id) := by
      intro id
      obtain ⟨m, hm, hlinks, -⟩ := hrec.marks id
      exact ⟨m, hm, hlinks⟩
    obtain ⟨t, ht, hfind⟩ := find?_restore hmarks
    refine ⟨_, ?_, h.restored hsaved hrec hrest hfind⟩
    unfold undo
    rw [hs]
    show (restore w g.indices).bind _ = _
    rw [ht]
    rfl

end

theorem merge_kept (prev w : UndoState V) : ((prev.merge w).revision, (prev.merge w).oldNextId) =
    (prev.revision, prev.oldNextId) := by
  -- none of the three loops writes to these two fields
  have hfold : ∀ {W : Type} (f : UndoState V → W → UndoState V), (∀ s e,
      ((f s e).revision, (f s e).oldNextId) = (s.revision, s.oldNextId)) → ∀ (es : List W) s,
      ((es.foldl f s).revision, (es.foldl f s).oldNextId) = (s.revision, s.oldNextId) := by
    intro W f hf es
    induction es with
    | nil => exact fun s => rfl
    | cons e es ih => exact fun s => (ih (f s e)).trans (hf s e)
  refine (hfold squashRemoved (fun s e => ?_) _ _).trans
    ((hfold squashNew (fun s e => rfl) _ _).trans (hfold squashOld (fun s e => ?_) _ _))
  · unfold squashRemoved
    split
    · rfl
    · split <;> rfl
  · unfold squashOld
    split
    · rfl
    · split <;> rfl

/-- Two consecutive undo states merge into one that leads over both. -/
theorem records_merge {w prev : UndoState V} {r r' : Int} (hprev : Records prev r c c')
    (hw : Records w r' c' c'') : Records (prev.merge w) r c c'' := by
  obtain ⟨hrev, hold⟩ := Prod.mk.inj (merge_kept prev w)
  refine ⟨hrev.trans hprev.revision, hold.trans hprev.oldNextId,
    hprev.nextId_le.trans hw.nextId_le, hprev.bound, fun id => ?_⟩
  obtain ⟨a, ha, halinks, hanew⟩ := hprev.marks id
  obtain ⟨b, hb, hblinks, hbnew⟩ := hw.marks id
  -- an id deleted in the older session is below the ids the newer one hands out
  have hne : ∀ was, a = .del was → b ≠ .new := by
    rintro was rfl rfl
    have hsome : c.objects id = some was := halinks.1
    rw [hprev.bound id (hprev.nextId_le.trans (hbnew rfl))] at hsome
    cases hsome
  refine ⟨a.andThen b, slots_merge ha hb halinks hblinks hne,
    Mark.links_andThen halinks hblinks hne, fun hnew => ?_⟩
  cases a with
  | new => exact hanew rfl
  | nop => exact hprev.nextId_le.trans (hbnew hnew)
  | upd was | del was => cases b <;> exact absurd hnew (by simp [Mark.andThen])

theorem refines_squash (h : Refines g u) : Refines g.squash u.squash := by
  obtain ⟨hcur, hrev, hbound, hlinked⟩ := h
  unfold squash UndoStack.squash
  match hs : g.stack, hu : u.saved, hlinked with
  | [], [], _ => exact ⟨hcur, hrev, hbound, by rw [hs, hu]; trivial⟩
  | [_], [_], _ => exact ⟨hcur, hrev, hbound, trivial⟩
  | w :: prev :: ws, (r, c) :: (r', c') :: cs, hlinked =>
    obtain ⟨hw, hprev, hrest⟩ := hlinked
    exact ⟨hcur, congrArg (· - 1) hrev, hbound, records_merge hprev hw, hrest⟩

/-- `commit` drops as many undo states as copies, from the old end. -/
theorem linked_commit {revision : Int} :
    ∀ {c : Contents V} {us : List (UndoState V)} {cs : List (Int × Contents V)},
      Linked c us cs →
      Linked c (us.rdropWhile fun s => decide (s.revision ≤ revision))
        (cs.rdropWhile fun e => decide (e.1 ≤ revision))
  | _, [], [], _ => trivial
  | c', w :: ws, (r, c) :: cs, h => by
    obtain ⟨hw, hrest⟩ := h
    have ih : Linked c (ws.rdropWhile fun s => decide (s.revision ≤ revision))
        (cs.rdropWhile fun e => decide (e.1 ≤ revision)) := linked_commit hrest
    rw [UndoStack.rdropWhile_cons, UndoStack.rdropWhile_cons, hw.revision]
    generalize ws.rdropWhile (fun s => decide (s.revision ≤ revision)) = ws' at ih ⊢
    generalize cs.rdropWhile (fun e => decide (e.1 ≤ revision)) = cs' at ih ⊢
    match ws', cs', ih with
    | [], [], _ =>
      by_cases hr : r ≤ revision
      · simp [hr, Linked]
      · simp [hr, Linked, hw]
    | _ :: _, _ :: _, ih => exact ⟨hw, ih⟩

theorem refines_commit (revision : Int) (h : Refines g u) :
    Refines (g.commit revision) (u.commit revision) :=
  ⟨h.cur, h.revision, h.bound, linked_commit h.linked⟩

/-- **The index refines undo by copying.** -/
theorem refines_step {op : GenericIndex.Op V} (h : Refines g u) (hg : g.step op = some g') :
    Refines g' (u.follow g' op) := by
  cases op with
  | startUndoSession =>
    cases hg
    exact refines_startUndoSession h
  | emplace c => exact refines_emplace h hg
  | modify id m => exact refines_modify h hg
  | remove id => exact refines_remove h hg
  | undo =>
    obtain ⟨g'', hg'', href⟩ := refines_undo h
    obtain rfl : g'' = g' := mem_unique hg'' hg
    exact href
  | squash =>
    cases hg
    exact refines_squash h
  | commit revision =>
    cases hg
    exact refines_commit revision h

/-- One successful call, followed on copies. -/
def tracked (s : GenericIndex V × UndoStack (Contents V)) (op : GenericIndex.Op V) :
    Option (GenericIndex V × UndoStack (Contents V)) := do
  let g ← s.1.step op
  return (g, s.2.follow g op)

/-- The fresh index, with no copies. -/
def trackedInit : GenericIndex V × UndoStack (Contents V) :=
  (GenericIndex.init, UndoStack.init GenericIndex.init.contents 0)

theorem refines_of_run {ops : List (GenericIndex.Op V)}
    (h : Run.exec tracked trackedInit ops = some (g, u)) : Refines g u := by
  refine Run.exec_induct (fun s => Refines s.1 s.2) ?_ refines_init h
  intro s op s' hs hstep
  obtain ⟨g₁, hg₁, hs'⟩ := bind_eq_some_iff.mp hstep
  cases hs'
  exact refines_step hs hg₁

/-- In a run of successful calls from the fresh index, the copies show the
index's own contents at every moment, and `undo` with an open session succeeds,
discards exactly the newest undo state and gives back the contents copied when
that state was started (for a state that absorbed others, when the oldest of
them was). -/
theorem undo_restores_started {ops : List (GenericIndex.Op V)} {w : UndoState V}
    {ws : List (UndoState V)} (hrun : Run.exec tracked trackedInit ops = some (g, u))
    (hstack : g.stack = w :: ws) :
    u.cur = g.contents ∧ ∃ r c rest g', u.saved = (r, c) :: rest ∧ g.undo = some g' ∧
      g'.contents = c ∧ g'.stack = ws := by
  have href := refines_of_run hrun
  obtain ⟨g', hg', href'⟩ := refines_undo href
  have hlinked := href.linked
  rw [hstack] at hlinked
  refine ⟨href.cur, ?_⟩
  match hu : u.saved, hlinked with
  | (r, c) :: rest, _ =>
    refine ⟨r, c, rest, g', rfl, hg', ?_, ?_⟩
    · rw [← href'.cur]
      unfold UndoStack.undo
      rw [hu]
    · unfold undo at hg'
      rw [hstack] at hg'
      obtain ⟨t, -, ht⟩ := bind_eq_some_iff.mp hg'
      cases ht
      rfl

/-- Object 0 exists when the outer session starts; inside it is updated twice and
removed in a nested session that is squashed, and object 1 is created. -/
def squashedOps : List (GenericIndex.Op Nat) :=
  [.emplace fun _ => 7, .startUndoSession, .modify 0 (· + 1), .startUndoSession,
    .modify 0 (· + 1), .emplace fun id => id, .remove 0, .squash]

theorem undo_restores_squashed :
    ∃ g u r c rest g', Run.exec tracked trackedInit squashedOps = some (g, u) ∧
      u.saved = (r, c) :: rest ∧ g.undo = some g' ∧ g'.contents = c ∧
      c.objects 0 = some 7 ∧ c.objects 1 = none ∧ c.nextId = 1 := by
  have hrun : Run.exec tracked trackedInit squashedOps = some _ := rfl
  obtain ⟨-, r, c, rest, g', hsaved, hundo, hcontents, -⟩ := undo_restores_started hrun rfl
  refine ⟨_, _, r, c, rest, g', hrun, hsaved, hundo, hcontents, ?_⟩
  have hc : c = ⟨(empty.emplace 0 7).find?, 1⟩ :=
    (Prod.mk.inj (List.cons.inj hsaved).1).2.symm
  rw [hc]
  exact ⟨rfl, rfl, rfl⟩

end DeltaChain.Chainbase

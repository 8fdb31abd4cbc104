import DeltaChain.Fork.Replay

/-!
# Walks over the fork database

Items of a well-formed fork database point to the item of their previous block.
Along such links the block number goes down by one per step, so an item that a
walk passes is never the fork head above it, and following a link means that the
index or the running call owns the item (`alive`).

* `fetchBranchFrom_spec` — the two branches are chains of links from the two
  blocks down to two blocks with one previous block;
* `live` — the items that `pop_block` can step through, one after the other.
-/

namespace DeltaChain.Fork

open List Option

/-- Every link leads to the item of the previous block. -/
def ForkItem.WF : ForkItem → Prop
  | .unlinked _ _ => True
  | .linked _ data prev => data.previous = prev.id ∧ prev.WF

variable {x : ForkItem} {p : ForkItem}

theorem ForkItem.WF.of_prev (hx : x.WF) (hp : x.prev? = some p) : x.previousId = p.id ∧ p.WF := by
  cases x with
  | unlinked ref data => exact absurd hp (by simp [ForkItem.prev?])
  | linked ref data prev =>
    cases hp
    exact hx

theorem ForkItem.WF.num_prev (hx : x.WF) (hp : x.prev? = some p) : x.num = p.num + 1 := by
  rw [x.num_eq, (hx.of_prev hp).1, ForkItem.num_id]

/-- Two items in a row along a link. -/
def PrevOf (x y : ForkItem) : Prop := x.prev? = some y

namespace ForkDatabase

variable {f : ForkDatabase} {first second : List ForkItem} {y : ForkItem} {h : ForkItem}

/-- The index is keyed by id, its items are older than the next one, and all links are in
order. -/
structure WF (f : ForkDatabase) : Prop where
  index : ∀ {id x}, f.index.find? id = some x → x.id = id ∧ x.WF
  head : ∀ {h}, f.head = some h → h.WF
  held : ∀ {x}, x ∈ f.held → x.WF
  older : ∀ {id x}, f.index.find? id = some x → x.ref < f.nextRef

/-- The item is owned by the index or by the running call. -/
def alive (f : ForkDatabase) (x : ForkItem) : Bool := f.contains x || decide (x ∈ f.held)

theorem contains_iff : f.contains x = true ↔ f.index.find? x.id = some x := by
  simp [contains]

theorem WF.contains_of_find? (hf : f.WF) {id : BlockId} (h : f.index.find? id = some x) :
    f.contains x = true := by
  rw [contains_iff, (hf.index h).1]
  exact h

theorem eq_of_contains (hx : f.contains x = true) (hy : f.contains y = true)
    (hid : x.id = y.id) : x = y := by
  rw [contains_iff] at hx hy
  rw [hid, hy] at hx
  exact (some.inj hx).symm

theorem lock_eq_alive (hh : f.head = some h) (hx : x.num < h.num) : f.lock x = f.alive x := by
  have hne : ¬ f.head = some x := by
    rw [hh]
    intro heq
    rw [some.inj heq] at hx
    exact absurd hx (lt_irrefl _)
  unfold lock alive
  simp [hne]

-- # Branches

/-- A branch: items in a row along links, from `x` on, all but `x` locked. -/
structure Branch (f : ForkDatabase) (x : ForkItem) (items : List ForkItem) : Prop where
  head : items.head? = some x
  links : items.IsChain PrevOf
  lock : ∀ z ∈ items, z = x ∨ f.lock z = true ∧ z.num < x.num

variable {items : List ForkItem}

theorem Branch.single : Branch f x [x] := ⟨rfl, isChain_singleton _, by simp⟩

theorem Branch.cons {p : ForkItem} (hx : x.WF) (hp : x.prev? = some p) (hlock : f.lock p = true)
    (h : Branch f p items) : Branch f x (x :: items) := by
  have hnum := hx.num_prev hp
  refine ⟨rfl, ?_, ?_⟩
  · obtain ⟨hhead, hlinks, -⟩ := h
    cases items with
    | nil => cases hhead
    | cons y ys =>
      obtain rfl : y = p := some.inj hhead
      exact isChain_cons_cons.mpr ⟨hp, hlinks⟩
  · intro z hz
    rcases mem_cons.mp hz with rfl | hz
    · exact Or.inl rfl
    · rcases h.lock z hz with rfl | ⟨hz, hlt⟩
      · exact Or.inr ⟨hlock, by omega⟩
      · exact Or.inr ⟨hz, by omega⟩

theorem walkDown_spec {num : Nat} :
    ∀ {x y : ForkItem} {passed : List ForkItem}, x.WF →
      f.walkDown num x = some (passed, y) → Branch f x (passed ++ [y]) ∧ y.WF ∧ y.num ≤ num ∧
        (num ≤ x.num → y.num = num) ∧ passed.length + y.num = x.num
  | .unlinked ref data, y, passed, hx, h => by
    rw [walkDown] at h
    split at h
    · cases h
    · next hnum =>
      cases h
      have hle : (ForkItem.unlinked ref data).num ≤ num := Nat.le_of_not_lt hnum
      exact ⟨.single, hx, hle, fun h => le_antisymm hle h, by simp⟩
  | .linked ref data prev, y, passed, hx, h => by
    rw [walkDown] at h
    split at h
    · next hnum =>
      split at h
      · next hlock =>
        obtain ⟨⟨passed', y'⟩, hrest, heq⟩ := map_eq_some_iff.mp h
        cases heq
        obtain ⟨hbranch, hy, hle, hreach, hlen⟩ := walkDown_spec hx.2 hrest
        have hstep : (ForkItem.linked ref data prev).num = prev.num + 1 :=
          hx.num_prev rfl
        have hnum' : num < (ForkItem.linked ref data prev).num := hnum
        refine ⟨Branch.cons hx rfl hlock hbranch, hy, hle, fun _ => hreach (by omega), ?_⟩
        show passed'.length + 1 + y'.num = (ForkItem.linked ref data prev).num
        omega
      · cases h
    · next hnum =>
      cases h
      have hle : (ForkItem.linked ref data prev).num ≤ num := Nat.le_of_not_lt hnum
      exact ⟨.single, hx, hle, fun h => le_antisymm hle h, by simp⟩

theorem Branch.append {z : ForkItem} {passed : List ForkItem} (h₁ : Branch f x (passed ++ [z]))
    (h₂ : Branch f z items) : Branch f x (passed ++ items) := by
  obtain ⟨hhead, hlinks, hlock⟩ := h₂
  have hz : z = x ∨ f.lock z = true ∧ z.num < x.num := h₁.lock z (by simp)
  cases items with
  | nil => cases hhead
  | cons y ys =>
    obtain rfl : y = z := some.inj hhead
    refine ⟨?_, ?_, ?_⟩
    · have := h₁.head
      cases passed <;> simpa using this
    · rw [append_cons]
      cases ys with
      | nil =>
        rw [append_nil]
        exact h₁.links
      | cons w ws =>
        obtain ⟨hyw, hrest⟩ := isChain_cons_cons.mp hlinks
        refine IsChain.append h₁.links hrest ?_
        intro a ha b hb
        obtain rfl : y = a := by simpa using ha
        obtain rfl : w = b := by simpa using hb
        exact hyw
    · intro w hw
      rcases mem_append.mp hw with hw | hw
      · exact h₁.lock w (mem_append_left _ hw)
      · rcases hlock w hw with rfl | ⟨hw, hlt⟩
        · exact hz
        · rcases hz with rfl | ⟨-, hzx⟩
          · exact Or.inr ⟨hw, hlt⟩
          · exact Or.inr ⟨hw, by omega⟩

/-- Two branches that end in two items with one previous block. -/
def Meet (first second : List ForkItem) : Prop :=
  ∃ x y, first.getLast? = some x ∧ second.getLast? = some y ∧ x.previousId = y.previousId

theorem Meet.append (h : Meet first second) (passed₁ passed₂ : List ForkItem) :
    Meet (passed₁ ++ first) (passed₂ ++ second) := by
  obtain ⟨a, b, ha, hb, heq⟩ := h
  refine ⟨a, b, ?_, ?_, heq⟩
  · rw [getLast?_append, ha]
    rfl
  · rw [getLast?_append, hb]
    rfl

theorem walkBoth_spec :
    ∀ {x y : ForkItem} {first second : List ForkItem}, x.WF → y.WF →
      f.walkBoth x y = some (first, second) →
      Branch f x first ∧ Branch f y second ∧ Meet first second ∧ first.length = second.length
  | .unlinked ref data, y, first, second, hx, hy, h => by
    rw [walkBoth] at h
    split at h
    · cases h
    · next hprev =>
      cases h
      exact ⟨.single, .single, ⟨_, _, rfl, rfl, not_not.mp hprev⟩, rfl⟩
  | .linked ref data prev, y, first, second, hx, hy, h => by
    rw [walkBoth] at h
    split at h
    · split at h
      · next hlock hlock₂ =>
        obtain ⟨⟨first', second'⟩, hrest, heq⟩ := map_eq_some_iff.mp h
        cases heq
        obtain ⟨hp, hlock₂⟩ := filter_eq_some_iff.mp hlock₂
        obtain ⟨h₁, h₂, hmeet, hlen⟩ := walkBoth_spec hx.2 (hy.of_prev hp).2 hrest
        exact ⟨Branch.cons hx rfl hlock h₁, Branch.cons hy hp hlock₂ h₂,
          hmeet.append [_] [_], congrArg (· + 1) hlen⟩
      · cases h
    · next hprev =>
      cases h
      exact ⟨.single, .single, ⟨_, _, rfl, rfl, not_not.mp hprev⟩, rfl⟩

/-- What a successful `fetch_branch_from` returns: chains of links from the two
blocks down to one previous block, the first as much longer than the second as
`a` is higher than `b`. -/
structure Branches (f : ForkDatabase) (a b : BlockId) (first second : List ForkItem) : Prop where
  fromFirst : ∃ x, f.index.find? a = some x ∧ Branch f x first
  fromSecond : ∃ y, f.index.find? b = some y ∧ Branch f y second
  meet : Meet first second
  length : b.num ≤ a.num → first.length + b.num = second.length + a.num

theorem fetchBranchFrom_spec {a b : BlockId} (hf : f.WF)
    (h : f.fetchBranchFrom a b = some (first, second)) : Branches f a b first second := by
  obtain ⟨x, hx, h⟩ := bind_eq_some_iff.mp h
  obtain ⟨y, hy, h⟩ := bind_eq_some_iff.mp h
  obtain ⟨⟨passed₁, x'⟩, hwalk₁, h⟩ := bind_eq_some_iff.mp h
  obtain ⟨⟨passed₂, y'⟩, hwalk₂, h⟩ := bind_eq_some_iff.mp h
  obtain ⟨⟨rest₁, rest₂⟩, hboth, h⟩ := bind_eq_some_iff.mp h
  cases h
  obtain ⟨hxid, hxwf⟩ := hf.index hx
  obtain ⟨hyid, hywf⟩ := hf.index hy
  obtain ⟨hb₁, hxwf', hle₁, hreach₁, hlen₁⟩ := walkDown_spec hxwf hwalk₁
  obtain ⟨hb₂, hywf', hle₂, hreach₂, hlen₂⟩ := walkDown_spec hywf hwalk₂
  obtain ⟨hr₁, hr₂, hmeet, hlen⟩ := walkBoth_spec hxwf' hywf' hboth
  have hxn : x.num = a.num := congrArg BlockId.num hxid
  have hyn : y.num = b.num := congrArg BlockId.num hyid
  refine ⟨⟨x, hx, hb₁.append hr₁⟩, ⟨y, hy, hb₂.append hr₂⟩, hmeet.append _ _, fun hab => ?_⟩
  rw [length_append, length_append]
  omega

theorem wf_of_isChain :
    ∀ {items : List ForkItem} {x : ForkItem}, (x :: items).IsChain PrevOf → x.WF →
      ∀ z ∈ x :: items, z.WF
  | [], x, _, hx, z, hz => by
    obtain rfl : z = x := by simpa using hz
    exact hx
  | y :: ys, x, hchain, hx, z, hz => by
    obtain ⟨hxy, hrest⟩ := isChain_cons_cons.mp hchain
    rcases mem_cons.mp hz with rfl | hz
    · exact hx
    · exact wf_of_isChain hrest (hx.of_prev hxy).2 z hz

theorem Branch.wf (hb : Branch f x items) (hx : x.WF) : ∀ z ∈ items, z.WF := by
  obtain ⟨hhead, hlinks, -⟩ := hb
  cases items with
  | nil => simp
  | cons y ys =>
    obtain rfl : y = x := some.inj hhead
    exact wf_of_isChain hlinks hx

theorem id_of_isChain :
    ∀ {items : List ForkItem} {x : ForkItem}, (x :: items).IsChain PrevOf → x.WF →
      ∀ {j : Nat} {z : ForkItem}, (x :: items)[j]? = some z →
        z.id = BlockId.up^[j] x.id ∧ z.num + j = x.num
  | _, x, _, _, 0, z, hz => by
    obtain rfl : x = z := some.inj hz
    exact ⟨rfl, rfl⟩
  | [], _, _, _, j + 1, z, hz => absurd hz (by simp)
  | y :: ys, x, hchain, hx, j + 1, z, hz => by
    obtain ⟨hxy, hrest⟩ := isChain_cons_cons.mp hchain
    obtain ⟨hprev, hy⟩ := hx.of_prev hxy
    have hnum := hx.num_prev hxy
    obtain ⟨hid, hz⟩ := id_of_isChain hrest hy (j := j) (by simpa using hz)
    refine ⟨?_, by omega⟩
    rw [hid, Function.iterate_succ_apply, ForkItem.up_id, hprev]

theorem Branch.contains {h z : ForkItem} (hb : Branch f x items) (hx : f.contains x = true)
    (hh : f.head = some h) (hnum : x.num ≤ h.num) (hheld : f.held = []) (hz : z ∈ items) :
    f.contains z = true := by
  rcases hb.lock z hz with rfl | ⟨hlock, hlt⟩
  · exact hx
  · rw [lock_eq_alive hh (by omega)] at hlock
    simpa [alive, hheld] using hlock

-- # Popping

/-- The items `pop_block` steps through from `x` on, one after the other. -/
def live (f : ForkDatabase) : ForkItem → List ForkItem
  | .unlinked _ _ => []
  | .linked _ _ prev => if f.alive prev then prev :: f.live prev else []

theorem live_setHead (f : ForkDatabase) (h : Option ForkItem) :
    ∀ x, ({ f with head := h } : ForkDatabase).live x = f.live x
  | .unlinked _ _ => rfl
  | .linked _ _ prev => by
    rw [live, live, live_setHead f h prev]
    rfl

theorem popBlock_eq (hh : f.head = some h) (hwf : h.WF) :
    f.popBlock = match f.live h with
      | [] => .error .popLastItem
      | p :: _ => .ok { f with head := some p } := by
  unfold popBlock lockPrev
  rw [hh]
  cases h with
  | unlinked ref data => rfl
  | linked ref data prev =>
    have hnum : (ForkItem.linked ref data prev).num = prev.num + 1 := hwf.num_prev rfl
    simp only [ForkItem.prev?, filter_some, lock_eq_alive hh (show prev.num < _ by omega),
      live]
    cases f.alive prev <;> rfl

theorem live_cons {h p : ForkItem} {ps : List ForkItem} (hlive : f.live h = p :: ps) :
    h.prev? = some p ∧ f.alive p = true ∧ f.live p = ps := by
  cases h with
  | unlinked ref data => exact absurd hlive (by simp [live])
  | linked ref data prev =>
    rw [live] at hlive
    split at hlive
    · next ha =>
      obtain ⟨rfl, rfl⟩ := cons.inj hlive
      exact ⟨rfl, ha, rfl⟩
    · cases hlive

theorem live_congr (h : x.prev? = y.prev?) : f.live x = f.live y := by
  cases x <;> cases y <;> simp_all [ForkItem.prev?, live]

theorem wf_of_mem_live : ∀ {h x : ForkItem}, h.WF → x ∈ f.live h → x.WF
  | .unlinked _ _, _, _, hx => absurd hx (by simp [live])
  | .linked _ _ prev, x, hwf, hx => by
    rw [live] at hx
    split at hx
    · rcases mem_cons.mp hx with rfl | hx
      · exact hwf.2
      · exact wf_of_mem_live hwf.2 hx
    · cases hx

/-- The live items below the head of a chain of links continue with the rest of
the chain, as long as its items are owned. -/
theorem live_of_isChain :
    ∀ {items : List ForkItem} {x : ForkItem}, (x :: items).IsChain PrevOf →
      (∀ z ∈ items, f.alive z = true) → ∃ rest, f.live x = items ++ rest
  | [], x, _, _ => ⟨f.live x, rfl⟩
  | y :: ys, x, hchain, halive => by
    obtain ⟨hxy, hrest⟩ := isChain_cons_cons.mp hchain
    obtain ⟨rest, hrest⟩ := live_of_isChain hrest fun z hz => halive z (mem_cons_of_mem _ hz)
    refine ⟨rest, ?_⟩
    cases x with
    | unlinked ref data => exact absurd hxy (by simp [PrevOf, ForkItem.prev?])
    | linked ref data prev =>
      obtain rfl : prev = y := some.inj hxy
      rw [live, if_pos (halive prev (mem_cons_self ..)), hrest]
      rfl

end ForkDatabase

end DeltaChain.Fork

import DeltaChain.Fork.Walk

/-!
# The main branch among the known items

`fetch_block_on_main_branch_by_number` takes a shortcut: an item that is alone at
its height is taken to be on the main branch. For a set of known items this is
right when `Main` holds: the branch below the head goes through all heights at
which there are items, with items of the set. `Linked` is what keeps `Main` across
a switch to another branch: items whose previous block is known, and good, point to
the item of that block.

* `Main.add`, `Main.extend`, `Main.restrict`, `Main.switch` — how the main
  branch survives a new item, a new head, items taken out and a switch;
* `Linked.add`, `Linked.prune`, `Linked.drop` — the same for the links;
* `ForkDatabase.fetch_mem`, `ForkDatabase.fetch_isSome` — what this says about
  `fetch_block_on_main_branch_by_number`.
-/

namespace DeltaChain.Fork

open Lib List Option ForkItem

-- # Ancestors

/-- The item and its ancestors by `prev` links, newest first. -/
def ForkItem.ancestors : ForkItem → List ForkItem
  | .unlinked ref data => [.unlinked ref data]
  | .linked ref data prev => .linked ref data prev :: prev.ancestors

namespace ForkItem

open Relation ReflTransGen

variable {x y z : ForkItem}

/-- The ancestors are what the `prev` links lead to. -/
theorem mem_ancestors_iff : ∀ {x : ForkItem}, y ∈ x.ancestors ↔ ReflTransGen PrevOf x y
  | .unlinked ref data => by
    rw [cases_head_iff]
    simp [ancestors, PrevOf, prev?, eq_comm]
  | .linked ref data prev => by
    rw [cases_head_iff]
    simp [ancestors, PrevOf, prev?, eq_comm, mem_ancestors_iff (x := prev)]

theorem mem_ancestors : y ∈ x.ancestors ↔ y = x ∨ ∃ p, x.prev? = some p ∧ y ∈ p.ancestors := by
  simp only [mem_ancestors_iff]
  rw [cases_head_iff, eq_comm]
  rfl

theorem self_mem_ancestors (x : ForkItem) : x ∈ x.ancestors := mem_ancestors.mpr (Or.inl rfl)

theorem ancestors_trans (hy : y ∈ x.ancestors) (hz : z ∈ y.ancestors) : z ∈ x.ancestors :=
  mem_ancestors_iff.mpr ((mem_ancestors_iff.mp hy).trans (mem_ancestors_iff.mp hz))

/-- An ancestor is the block at its height below the item. -/
theorem ancestors_spec (hx : x.WF) (hy : y ∈ x.ancestors) :
    y.num ≤ x.num ∧ y.id = BlockId.up^[x.num - y.num] x.id ∧ y.WF := by
  rw [mem_ancestors_iff] at hy
  induction hy using head_induction_on with
  | refl =>
    rw [Nat.sub_self]
    exact ⟨le_refl _, rfl, hx⟩
  | @head x p hp _ ih =>
    obtain ⟨hid, hp'⟩ := hx.of_prev hp
    obtain ⟨hle, hyid, hwf⟩ := ih hp'
    have hnum := hx.num_prev hp
    refine ⟨by omega, ?_, hwf⟩
    rw [hnum, show p.num + 1 - y.num = p.num - y.num + 1 by omega,
      Function.iterate_succ_apply, up_id, hid]
    exact hyid

/-- An item has one ancestor per height. -/
theorem ancestors_unique (hx : x.WF) (hy : y ∈ x.ancestors) (hz : z ∈ x.ancestors)
    (hnum : y.num = z.num) : y = z := by
  rw [mem_ancestors_iff] at hy
  induction hy using head_induction_on with
  | refl =>
    rcases mem_ancestors.mp hz with rfl | ⟨p, hp, hz⟩
    · rfl
    · have := hx.num_prev hp
      have := (ancestors_spec (hx.of_prev hp).2 hz).1
      omega
  | @head x p hp hy ih =>
    rcases mem_ancestors.mp hz with rfl | ⟨q, hq, hz⟩
    · have := hx.num_prev hp
      have := (ancestors_spec (hx.of_prev hp).2 (mem_ancestors_iff.mpr hy)).1
      omega
    · obtain rfl : p = q := mem_unique hp hq
      exact ih (hx.of_prev hp).2 hz

theorem exists_ancestor {n : Nat} (hx : x.WF) (hy : y ∈ x.ancestors) (hyn : y.num ≤ n)
    (hnx : n ≤ x.num) : ∃ z ∈ x.ancestors, z.num = n ∧ y ∈ z.ancestors := by
  rw [mem_ancestors_iff] at hy
  induction hy using head_induction_on with
  | refl => exact ⟨y, y.self_mem_ancestors, by omega, y.self_mem_ancestors⟩
  | @head x p hp hy ih =>
    have hnum := hx.num_prev hp
    rcases Nat.lt_or_ge p.num n with hlt | hge
    · exact ⟨x, x.self_mem_ancestors, by omega, mem_ancestors_iff.mpr (hy.head hp)⟩
    · obtain ⟨z, hz, hzn⟩ := ih (hx.of_prev hp).2 hge
      exact ⟨z, mem_ancestors.mpr (Or.inr ⟨p, hp, hz⟩), hzn⟩

end ForkItem

/-- Below a chain of links come its items, and then the ancestors of the last. -/
theorem mem_ancestors_of_isChain :
    ∀ {items : List ForkItem} {x y : ForkItem}, (x :: items).IsChain PrevOf →
      (y ∈ x.ancestors ↔ y ∈ x :: items ∨
        ∃ last p, (x :: items).getLast? = some last ∧ last.prev? = some p ∧ y ∈ p.ancestors)
  | [], x, y, _ => by
    rw [mem_ancestors]
    simp
  | z :: zs, x, y, hchain => by
    obtain ⟨hxz, hrest⟩ := isChain_cons_cons.mp hchain
    have hx : x.prev? = some z := hxz
    rw [mem_ancestors, hx, getLast?_cons_cons]
    have ih := mem_ancestors_of_isChain (y := y) hrest
    constructor
    · rintro (rfl | ⟨p, hp, hy⟩)
      · exact Or.inl (mem_cons_self ..)
      · cases hp
        rcases ih.mp hy with hy | hy
        · exact Or.inl (mem_cons_of_mem _ hy)
        · exact Or.inr hy
    · rintro (hy | hy)
      · rcases mem_cons.mp hy with rfl | hy
        · exact Or.inl rfl
        · exact Or.inr ⟨z, rfl, ih.mpr (Or.inl hy)⟩
      · exact Or.inr ⟨z, rfl, ih.mpr (Or.inr hy)⟩

-- # The main branch

variable {I J : Set ForkItem} {h item : ForkItem}

/-- The branch below `h` goes through every height at which there are items, with
items of the set, and nothing is above `h`. -/
structure Main (I : Set ForkItem) (h : ForkItem) : Prop where
  top : ∀ x ∈ I, x.num ≤ h.num
  reach : ∀ x ∈ I, ∃ y ∈ h.ancestors, y.num = x.num
  closed : ∀ x ∈ I, ∀ y ∈ h.ancestors, x.num ≤ y.num → y ∈ I

/-- The main branch has an item at every height from a known one to the head. -/
theorem Main.exists_at (hm : Main I h) (hwf : h.WF) {x : ForkItem} (hx : x ∈ I) {n : Nat}
    (hle : x.num ≤ n) (hn : n ≤ h.num) : ∃ z ∈ h.ancestors, z.num = n ∧ z ∈ I := by
  obtain ⟨y, hy, hynum⟩ := hm.reach x hx
  obtain ⟨z, hz, hznum, -⟩ := exists_ancestor hwf hy (by omega) hn
  exact ⟨z, hz, hznum, hm.closed x hx z hz (by omega)⟩

theorem Main.add (hm : Main I h) (hwf : h.WF) (hle : item.num ≤ h.num)
    (hlow : ∃ x ∈ I, x.num ≤ item.num) : Main (insert item I) h := by
  obtain ⟨x₀, hx₀, hnum₀⟩ := hlow
  refine ⟨?_, ?_, ?_⟩
  · rintro x (rfl | hx)
    · exact hle
    · exact hm.top x hx
  · rintro x (rfl | hx)
    · obtain ⟨z, hz, hznum, -⟩ := hm.exists_at hwf hx₀ hnum₀ hle
      exact ⟨z, hz, hznum⟩
    · exact hm.reach x hx
  · rintro x (rfl | hx) y hy hxy
    · exact Or.inr (hm.closed x₀ hx₀ y hy (by omega))
    · exact Or.inr (hm.closed x hx y hy hxy)

/-- A new head on top of the old one. -/
theorem Main.extend (hm : Main I h) (hwf : h.WF) (hprev : item.prev? = some h)
    (hnum : item.num = h.num + 1) : Main (insert item I) item := by
  refine ⟨?_, ?_, ?_⟩
  · rintro x (rfl | hx)
    · exact le_refl _
    · have := hm.top x hx
      omega
  · rintro x (rfl | hx)
    · exact ⟨x, x.self_mem_ancestors, rfl⟩
    · obtain ⟨y, hy, hynum⟩ := hm.reach x hx
      exact ⟨y, mem_ancestors.mpr (Or.inr ⟨h, hprev, hy⟩), hynum⟩
  · intro x hx y hy hxy
    rcases mem_ancestors.mp hy with rfl | ⟨p, hp, hy⟩
    · exact Or.inl rfl
    · obtain rfl : h = p := mem_unique hprev hp
      have hyh := (ancestors_spec hwf hy).1
      rcases hx with rfl | hx
      · omega
      · exact Or.inr (hm.closed x hx y hy hxy)

theorem Main.restrict (hm : Main I h) (hsub : J ⊆ I)
    (hkeep : ∀ x ∈ J, ∀ y ∈ h.ancestors, y ∈ I → x.num ≤ y.num → y ∈ J) : Main J h :=
  ⟨fun x hx => hm.top x (hsub hx), fun x hx => hm.reach x (hsub hx),
    fun x hx y hy hxy => hkeep x hx y hy (hm.closed x (hsub hx) y hy hxy) hxy⟩

-- # Links to known blocks

variable {good : BlockId → Prop}

/-- An item points to the item of its previous block if that is known and good. If it
is not known, it is not good or the item is one of the lowest. -/
structure Linked (good : BlockId → Prop) (I : Set ForkItem) : Prop where
  link : ∀ x ∈ I, ∀ y ∈ I, y.id = x.previousId → good y.id → x.prev? = some y
  orphan : ∀ x ∈ I, (∃ y ∈ I, y.id = x.previousId) ∨ ¬ good x.previousId ∨
    ∀ z ∈ I, x.num ≤ z.num

/-- A new item fits: it points to an item of the set, or is a first block beside
another one. -/
def Fits (I : Set ForkItem) (item : ForkItem) : Prop :=
  (∃ p ∈ I, item.prev? = some p ∧ p.id = item.previousId) ∨
    item.previousId = .zero ∧ ∃ x ∈ I, x.num = 1

theorem num_of_previousId {x y : ForkItem} (h : y.id = x.previousId) : x.num = y.num + 1 := by
  rw [x.num_eq, ← h, num_id]

theorem ForkItem.id_ne_zero (x : ForkItem) : x.id ≠ .zero := by
  simp [id, Block.id]

theorem Fits.low (hfit : Fits I item) : ∃ x ∈ I, x.num ≤ item.num ∧ item.num ≤ x.num + 1 := by
  rcases hfit with ⟨p, hp, -, hid⟩ | ⟨hzero, x, hx, hnum⟩
  · have := num_of_previousId hid
    exact ⟨p, hp, by omega, by omega⟩
  · have hitem : item.num = 1 := by
      rw [item.num_eq, hzero]
      rfl
    exact ⟨x, hx, by omega, by omega⟩

theorem Linked.add (hl : Linked good I) (hunique : ∀ x ∈ I, ∀ y ∈ I, x.id = y.id → x = y)
    (hnew : ∀ x ∈ I, x.id ≠ item.id) (hfit : Fits I item) : Linked good (insert item I) := by
  obtain ⟨x₀, hx₀, hlow, -⟩ := hfit.low
  refine ⟨?_, ?_⟩
  · rintro x (rfl | hx) y (rfl | hy) hid hgood
    · have := num_of_previousId hid
      omega
    · -- the new item points to the item of its previous block
      rcases hfit with ⟨p, hp, hprev, hpid⟩ | ⟨hzero, -⟩
      · rw [hprev, hunique p hp y hy (hpid.trans hid.symm)]
      · exact absurd (hid.trans hzero) y.id_ne_zero
    · -- no good block can appear below an item that was there before it
      exfalso
      have hnum := num_of_previousId hid
      rcases hl.orphan x hx with ⟨z, hz, hzid⟩ | hbad | hlowest
      · exact hnew z hz (hzid.trans hid.symm)
      · exact hbad (hid ▸ hgood)
      · have := hlowest x₀ hx₀
        omega
    · exact hl.link x hx y hy hid hgood
  · rintro x (rfl | hx)
    · rcases hfit with ⟨p, hp, -, hpid⟩ | ⟨hzero, -⟩
      · exact Or.inl ⟨p, Or.inr hp, hpid⟩
      · right
        right
        intro z hz
        have hx : x.num = 1 := by
          rw [x.num_eq, hzero]
          rfl
        have hz : z.num = z.previousId.num + 1 := z.num_eq
        omega
    · rcases hl.orphan x hx with ⟨z, hz, hzid⟩ | hbad | hlowest
      · exact Or.inl ⟨z, Or.inr hz, hzid⟩
      · exact Or.inr (Or.inl hbad)
      · refine Or.inr (Or.inr ?_)
        rintro z (rfl | hz)
        · exact le_trans (hlowest x₀ hx₀) hlow
        · exact hlowest z hz

theorem Linked.prune (hl : Linked good I) (k : Nat) : Linked good { x ∈ I | k ≤ x.num } := by
  refine ⟨fun x hx y hy => hl.link x hx.1 y hy.1, fun x hx => ?_⟩
  rcases hl.orphan x hx.1 with ⟨y, hy, hid⟩ | hbad | hlowest
  · rcases Nat.lt_or_ge y.num k with hlt | hge
    · refine Or.inr (Or.inr fun z hz => ?_)
      have := num_of_previousId hid
      have := hz.2
      omega
    · exact Or.inl ⟨y, ⟨hy, hge⟩, hid⟩
  · exact Or.inr (Or.inl hbad)
  · exact Or.inr (Or.inr fun z hz => hlowest z hz.1)

theorem Linked.drop (hl : Linked good I) {bad : ForkItem → Prop}
    (hbad : ∀ x ∈ I, bad x → ¬ good x.id) : Linked good { x ∈ I | ¬ bad x } := by
  refine ⟨fun x hx y hy => hl.link x hx.1 y hy.1, fun x hx => ?_⟩
  rcases hl.orphan x hx.1 with ⟨y, hy, hid⟩ | hnot | hlowest
  · by_cases hb : bad y
    · exact Or.inr (Or.inl (hid ▸ hbad y hy hb))
    · exact Or.inl ⟨y, ⟨hy, hb⟩, hid⟩
  · exact Or.inr (Or.inl hnot)
  · exact Or.inr (Or.inr fun z hz => hlowest z hz.1)

/-- A switch to a branch one block longer, from a good fork point `k` blocks below
the old head. Below the fork point the two branches are one by `Linked`. -/
theorem Main.switch {last : ForkItem} {tail : List ForkItem} {k : Nat} (hm : Main I h)
    (hwf : h.WF) (hitem : item.WF) (hl : Linked good (insert item I))
    (hchain : (item :: tail).IsChain PrevOf) (hmem : ∀ z ∈ item :: tail, z ∈ insert item I)
    (hlast : (item :: tail).getLast? = some last) (hgood : good last.previousId)
    (hfork : last.previousId = BlockId.up^[k] h.id) (hlen : last.num + k = h.num + 1)
    (hnum : item.num = h.num + 1) : Main (insert item I) item := by
  have hlastmem : last ∈ item :: tail := mem_of_getLast? hlast
  have hlastanc : last ∈ item.ancestors := (mem_ancestors_of_isChain hchain).mpr (Or.inl hlastmem)
  have hlastle := (ancestors_spec hitem hlastanc).1
  -- an item below the new branch: the branch hangs on the old main branch above it
  have hbelow : ∀ x ∈ insert item I, x.num < last.num → x ∈ I ∧
      ∃ p, last.prev? = some p ∧ p ∈ h.ancestors ∧ ∃ y ∈ p.ancestors, y.num = x.num := by
    rintro x (rfl | hx) hlt
    · omega
    · obtain ⟨y, hy, hynum⟩ := hm.reach x hx
      obtain ⟨p, hp, hpnum, hyp⟩ :=
        exists_ancestor (n := last.num - 1) hwf hy (by omega) (by omega)
      have hpmem : p ∈ I := hm.closed x hx p hp (by omega)
      have hpid : p.id = last.previousId := by
        rw [hfork, (ancestors_spec hwf hp).2.1, hpnum,
          show h.num - (last.num - 1) = k by omega]
      refine ⟨hx, p, ?_, hp, y, hyp, hynum⟩
      exact hl.link last (hmem last hlastmem) p (Or.inr hpmem) hpid (hpid ▸ hgood)
  refine ⟨?_, ?_, ?_⟩
  · rintro x (rfl | hx)
    · exact le_refl _
    · have := hm.top x hx
      omega
  · intro x hx
    rcases Nat.lt_or_ge x.num last.num with hlt | hge
    · obtain ⟨-, p, hp, -, y, hy, hynum⟩ := hbelow x hx hlt
      exact ⟨y, (mem_ancestors_of_isChain hchain).mpr (Or.inr ⟨last, p, hlast, hp, hy⟩), hynum⟩
    · have hxle : x.num ≤ item.num := by
        rcases hx with rfl | hx
        · exact le_refl _
        · have := hm.top x hx
          omega
      obtain ⟨z, hz, hznum, -⟩ := exists_ancestor hitem hlastanc hge hxle
      exact ⟨z, hz, hznum⟩
  · intro x hx y hy hxy
    rcases (mem_ancestors_of_isChain hchain).mp hy with hy | ⟨last', p', hlast', hp', hy⟩
    · exact hmem y hy
    · obtain rfl : last = last' := mem_unique hlast hlast'
      have hlastwf := (ancestors_spec hitem hlastanc).2.2
      have hplast := hlastwf.num_prev hp'
      have hyp := (ancestors_spec (hlastwf.of_prev hp').2 hy).1
      obtain ⟨hxI, p, hp, hph, -⟩ := hbelow x hx (by omega)
      obtain rfl : p = p' := mem_unique hp hp'
      exact Or.inr (hm.closed x hxI y (ancestors_trans hph hy) hxy)

-- # Fetching by number

namespace ForkDatabase

variable {f : ForkDatabase} {n : Nat} {x : ForkItem}

def items (f : ForkDatabase) : Set ForkItem := { x | f.contains x = true }

theorem mem_fetchBlockByNumber (hf : f.WF) :
    x ∈ f.fetchBlockByNumber n ↔ x ∈ f.items ∧ x.num = n := by
  unfold fetchBlockByNumber
  rw [mem_filter, decide_eq_true_eq, List.mem_map]
  refine and_congr_left fun _ => ?_
  constructor
  · rintro ⟨⟨id, y⟩, hy, rfl⟩
    exact hf.contains_of_find? (Table.mem_entries_iff.mp hy)
  · intro hx
    exact ⟨(x.id, x), Table.mem_entries_iff.mpr (contains_iff.mp hx), rfl⟩

/-- The block that is fetched is on the main branch. -/
theorem fetch_mem (hf : f.WF) (hh : f.head = some h) (hm : Main f.items h)
    (hx : f.fetchBlockOnMainBranchByNumber n = some x) : n ≤ h.num ∧ x ∈ h.ancestors := by
  unfold fetchBlockOnMainBranchByNumber at hx
  split at hx
  · cases hx
  · next y hy =>
    -- alone at its height, so it is the one of the main branch
    obtain rfl := some.inj hx
    have hmem : ∀ z, z ∈ f.items ∧ z.num = n ↔ z = y := by
      intro z
      rw [← mem_fetchBlockByNumber hf, hy, mem_singleton]
    obtain ⟨hyitem, hynum⟩ := (hmem y).mpr rfl
    obtain ⟨z, hz, hznum⟩ := hm.reach y hyitem
    have hzitem := hm.closed y hyitem z hz (by omega)
    obtain rfl := (hmem z).mp ⟨hzitem, by omega⟩
    exact ⟨hynum ▸ hm.top z hyitem, hz⟩
  · unfold walkMainBranchToNum at hx
    rw [hh] at hx
    simp only at hx
    split at hx
    · cases hx
    · next hle =>
      obtain ⟨⟨passed, y⟩, hwalk, rfl⟩ := map_eq_some_iff.mp hx
      obtain ⟨⟨hhead, hlinks, -⟩, -⟩ := walkDown_spec (hf.head hh) hwalk
      refine ⟨Nat.le_of_not_lt hle, ?_⟩
      cases passed with
      | nil =>
        obtain rfl : y = h := some.inj hhead
        exact y.self_mem_ancestors
      | cons z zs =>
        obtain rfl : z = h := some.inj hhead
        exact (mem_ancestors_of_isChain hlinks).mpr (Or.inl (by simp))

theorem walkDown_isSome :
    ∀ {x : ForkItem}, x.WF → (∃ y ∈ x.ancestors, y.num ≤ n) →
      (∀ y ∈ x.ancestors, n ≤ y.num → f.lock y = true) → ∃ r, f.walkDown n x = some r
  | .unlinked ref data, _, ⟨y, hy, hyn⟩, _ => by
    obtain rfl : y = .unlinked ref data := by simpa [ancestors] using hy
    rw [walkDown, if_neg (show ¬ data.blockNum > n from Nat.not_lt.mpr hyn)]
    exact ⟨_, rfl⟩
  | .linked ref data prev, hx, ⟨y, hy, hyn⟩, hlock => by
    have hstep : (linked ref data prev).num = prev.num + 1 := hx.num_prev rfl
    have hsub : ∀ {z}, z ∈ prev.ancestors → z ∈ (linked ref data prev).ancestors :=
      fun hz => mem_ancestors.mpr (Or.inr ⟨prev, rfl, hz⟩)
    rw [walkDown]
    split
    · next hgt =>
      have hgt' : n < (linked ref data prev).num := hgt
      rw [if_pos (hlock prev (hsub prev.self_mem_ancestors) (by omega))]
      have hex : ∃ y ∈ prev.ancestors, y.num ≤ n := by
        rcases mem_ancestors.mp hy with rfl | ⟨p, hp, hy⟩
        · omega
        · obtain rfl : prev = p := some.inj hp
          exact ⟨y, hy, hyn⟩
      obtain ⟨r, hr⟩ := walkDown_isSome hx.2 hex fun z hz => hlock z (hsub hz)
      rw [hr]
      exact ⟨_, rfl⟩
    · exact ⟨_, rfl⟩

/-- A height at which the branch of the fork head is known, with everything above. -/
theorem fetch_isSome (hf : f.WF) (hh : f.head = some h) (hn : n ≤ h.num)
    (hex : ∃ y ∈ h.ancestors, y.num = n) (hall : ∀ y ∈ h.ancestors, n ≤ y.num → y ∈ f.items) :
    ∃ x, f.fetchBlockOnMainBranchByNumber n = some x := by
  obtain ⟨y, hy, hynum⟩ := hex
  have hlock : ∀ z ∈ h.ancestors, n ≤ z.num → f.lock z = true := by
    intro z hz hzn
    unfold lock
    rw [show f.contains z = true from hall z hz hzn]
    rfl
  unfold fetchBlockOnMainBranchByNumber
  split
  · next hnil =>
    have hmem := (mem_fetchBlockByNumber hf).mpr ⟨hall y hy (by omega), hynum⟩
    rw [hnil] at hmem
    cases hmem
  · exact ⟨_, rfl⟩
  · unfold walkMainBranchToNum
    rw [hh]
    simp only
    rw [if_neg (Nat.not_lt.mpr hn)]
    obtain ⟨r, hr⟩ := walkDown_isSome (hf.head hh) ⟨y, hy, le_of_eq hynum⟩ hlock
    rw [hr]
    exact ⟨_, rfl⟩

end ForkDatabase

end DeltaChain.Fork

import DeltaChain.Lib.Line
import DeltaChain.Lib.Trace
import DeltaChain.Comments.Votes

/-!
# The tree of comments

The comments are a forest: `Rooted` says it of what a comment knows of its place, its skeleton, and
`Counted` says that every comment counts the comments under it. Every operation keeps both, since a
new comment is a leaf, and so is one that is deleted. Counting again then changes nothing.
-/

namespace DeltaChain.Comments

open Lib Lib.Forest Protocol List Option Table Function

-- # Skeletons

/-- What a comment knows of its place. -/
structure Skeleton where
  id : Nat
  key : Key
  above : Option Key
  depth : Nat
  rootComment : Nat
deriving DecidableEq, Repr

/-- The comment above, if there is one. -/
def Post.above (c : Post) : Option Key :=
  if c.parentAuthor = rootPostParent then none else some c.parentKey

/-- The place of a comment. -/
def Post.skeleton (c : Post) : Skeleton := ⟨c.id, c.key, c.above, c.depth, c.rootComment⟩

def skeletons (comments : Table Key Post) (k : Key) : Option Skeleton :=
  (comments.find? k).map Post.skeleton

/-- The comment above a key. -/
def parentIn (sk : Key → Option Skeleton) (k : Key) : Option Key := (sk k).bind Skeleton.above

/-- The comment above a comment, as the table has it. -/
abbrev parentOf (comments : Table Key Post) : Key → Option Key := parentIn (skeletons comments)

/-- The places fit together. -/
structure Rooted (sk : Key → Option Skeleton) (next : Nat) : Prop where
  key : ∀ k c, sk k = some c → c.key = k
  fresh : ∀ k c, sk k = some c → c.id < next
  inj : ∀ k k' c c', sk k = some c → sk k' = some c' → c.id = c'.id → k = k'
  root : ∀ k c, sk k = some c → c.above = none → c.depth = 0 ∧ c.rootComment = c.id
  reply : ∀ k c p, sk k = some c → c.above = some p →
    ∃ d, sk p = some d ∧ c.depth = d.depth + 1 ∧ c.rootComment = d.rootComment

/-- Every comment counts the comments under it. -/
def Counted (comments : Table Key Post) : Prop :=
  ∀ k c, comments.find? k = some c → c.children = (descendants (parentOf comments) k).ncard

/-- The comments are a forest, and counted. -/
structure Tidy (s : State) : Prop where
  rooted : Rooted (skeletons s.comments) s.nextCommentId
  counted : Counted s.comments

variable {k : Key} {comments : Table Key Post} {c : Post}

theorem skeletons_eq_some {d : Skeleton} :
    skeletons comments k = some d ↔ ∃ c, comments.find? k = some c ∧ c.skeleton = d :=
  map_eq_some_iff

theorem skeletons_of_find (h : comments.find? k = some c) :
    skeletons comments k = some c.skeleton := by
  rw [skeletons, h, map_some]

theorem parentIn_of_find (h : comments.find? k = some c) : parentOf comments k = c.above := by
  rw [parentOf, parentIn, skeletons_of_find h]
  rfl

theorem parentIn_eq_some {sk : Key → Option Skeleton} {p : Key} (h : parentIn sk k = some p) :
    ∃ c, sk k = some c ∧ c.above = some p := bind_eq_some_iff.mp h

theorem parentIn_update (sk : Key → Option Skeleton) (x : Key) (o : Option Skeleton) :
    parentIn (update sk x o) = update (parentIn sk) x (o.bind Skeleton.above) := by
  funext k
  by_cases hk : k = x
  · subst hk
    rw [parentIn, update_self, update_self]
  · rw [parentIn, update_of_ne hk, update_of_ne hk, parentIn]

-- # The forest

section Rooted

variable {sk : Key → Option Skeleton} {next : Nat} {c : Skeleton} {x : Key}

section

variable (h : Rooted sk next)

include h

theorem Rooted.exists_line (k : Key) : ∃ l, Line (parentIn sk) k l := by
  refine Forest.exists_line (fun k => ((sk k).map Skeleton.depth).getD 0) ?_ k
  intro a p hp
  obtain ⟨c, hc, habove⟩ := parentIn_eq_some hp
  obtain ⟨d, hd, hdepth, -⟩ := h.reply a c p hc habove
  simp only [hc, hd, map_some, getD_some]
  omega

theorem Rooted.exists_lineAbove (o : Option Key) : ∃ l, LineAbove (parentIn sk) o l := by
  cases o with
  | none => exact ⟨[], rfl⟩
  | some p => exact h.exists_line p

theorem Rooted.line_isSome {l : List Key} (hl : Line (parentIn sk) k l)
    (hk : (sk k).isSome) : ∀ j ∈ l, (sk j).isSome := by
  induction hl with
  | root hroot =>
    intro j hj
    rw [mem_singleton.mp hj]
    exact hk
  | @step a p l hp _ ih =>
    obtain ⟨c, hc, habove⟩ := parentIn_eq_some hp
    obtain ⟨d, hd, -⟩ := h.reply a c p hc habove
    intro j hj
    rcases mem_cons.mp hj with rfl | hj
    · exact hk
    · exact ih (by rw [hd, isSome_some]) j hj

/-- The root of a comment is as far away as its depth says, and is the one it names. -/
theorem Rooted.up_depth (hc : sk k = some c) :
    ∃ r root, up (parentIn sk) c.depth k = some r ∧ sk r = some root ∧ root.above = none ∧
      c.rootComment = root.id := by
  induction hd : c.depth generalizing k c with
  | zero =>
    cases habove : c.above with
    | none => exact ⟨k, c, rfl, hc, habove, (h.root k c hc habove).2⟩
    | some p =>
      obtain ⟨d, -, hdepth, -⟩ := h.reply k c p hc habove
      omega
  | succ n ih =>
    cases habove : c.above with
    | none => exact absurd (h.root k c hc habove).1 (by omega)
    | some p =>
      obtain ⟨d, hsome, hdepth, hroot⟩ := h.reply k c p hc habove
      obtain ⟨r, root, hup, hr, hnone, hid⟩ := ih hsome (by omega)
      have hp : parentIn sk k = some p := by rw [parentIn, hc, bind_some, habove]
      exact ⟨r, root, by rw [up_succ_some hp, hup], hr, hnone, hroot.trans hid⟩

theorem Rooted.leaf_of_none (hx : sk x = none) : ∀ a, parentIn sk a ≠ some x := by
  intro a ha
  obtain ⟨c, hc, habove⟩ := parentIn_eq_some ha
  obtain ⟨d, hd, -⟩ := h.reply a c x hc habove
  exact absurd (hx.symm.trans hd) (by simp)

/-- **A new leaf.** -/
theorem Rooted.insert (hnew : sk c.key = none) (hid : c.id = next)
    (hroot : c.above = none → c.depth = 0 ∧ c.rootComment = c.id)
    (hreply : ∀ p, c.above = some p →
      ∃ d, sk p = some d ∧ c.depth = d.depth + 1 ∧ c.rootComment = d.rootComment) :
    Rooted (update sk c.key (some c)) (next + 1) := by
  have hcases : ∀ {k d}, update sk c.key (some c) k = some d →
      (k = c.key ∧ d = c) ∨ (k ≠ c.key ∧ sk k = some d) := by
    intro k d hk
    by_cases heq : k = c.key
    · rw [heq, update_self] at hk
      exact .inl ⟨heq, (some.inj hk).symm⟩
    · rw [update_of_ne heq] at hk
      exact .inr ⟨heq, hk⟩
  have hkeep : ∀ {p d}, sk p = some d → update sk c.key (some c) p = some d := by
    intro p d hp
    rw [update_of_ne, hp]
    rintro rfl
    exact absurd (hnew.symm.trans hp) (by simp)
  refine ⟨?_, ?_, ?_, ?_, ?_⟩
  · intro k d hk
    rcases hcases hk with ⟨rfl, rfl⟩ | ⟨-, hk⟩
    · rfl
    · exact h.key k d hk
  · intro k d hk
    rcases hcases hk with ⟨-, rfl⟩ | ⟨-, hk⟩
    · omega
    · exact (h.fresh k d hk).trans (Nat.lt_succ_self _)
  · intro k k' d d' hk hk' heq
    rcases hcases hk with ⟨hkey, rfl⟩ | ⟨-, hold⟩ <;>
      rcases hcases hk' with ⟨hkey', rfl⟩ | ⟨-, hold'⟩
    · rw [hkey, hkey']
    · exact absurd (h.fresh k' d' hold') (by omega)
    · exact absurd (h.fresh k d hold) (by omega)
    · exact h.inj k k' d d' hold hold' heq
  · intro k d hk habove
    rcases hcases hk with ⟨-, rfl⟩ | ⟨-, hk⟩
    · exact hroot habove
    · exact h.root k d hk habove
  · intro k d p hk habove
    rcases hcases hk with ⟨-, rfl⟩ | ⟨-, hk⟩
    · obtain ⟨e, he, hrest⟩ := hreply p habove
      exact ⟨e, hkeep he, hrest⟩
    · obtain ⟨e, he, hrest⟩ := h.reply k d p hk habove
      exact ⟨e, hkeep he, hrest⟩

/-- **A leaf that goes.** -/
theorem Rooted.erase (hleaf : ∀ a, parentIn sk a ≠ some x) : Rooted (update sk x none) next := by
  have hold : ∀ {k d}, update sk x none k = some d → k ≠ x ∧ sk k = some d := by
    intro k d hk
    by_cases heq : k = x
    · rw [heq, update_self] at hk
      cases hk
    · rw [update_of_ne heq] at hk
      exact ⟨heq, hk⟩
  refine ⟨?_, ?_, ?_, ?_, ?_⟩
  · intro k d hk
    exact h.key k d (hold hk).2
  · intro k d hk
    exact h.fresh k d (hold hk).2
  · intro k k' d d' hk hk'
    exact h.inj k k' d d' (hold hk).2 (hold hk').2
  · intro k d hk
    exact h.root k d (hold hk).2
  · intro k d p hk habove
    obtain ⟨e, he, hrest⟩ := h.reply k d p (hold hk).2 habove
    refine ⟨e, ?_, hrest⟩
    rw [update_of_ne, he]
    rintro rfl
    refine hleaf k ?_
    rw [parentIn, (hold hk).2, bind_some, habove]

end

end Rooted

theorem mem_keys_of_mem_descendants {a : Key} (h : a ∈ descendants (parentOf comments) k) :
    a ∈ comments.keys := by
  obtain ⟨n, hn⟩ := h
  obtain ⟨p, hp, -⟩ := bind_eq_some_iff.mp hn
  obtain ⟨d, hd, -⟩ := parentIn_eq_some hp
  obtain ⟨c, hc, -⟩ := skeletons_eq_some.mp hd
  exact find?_isSome_iff.mp (by rw [hc, isSome_some])

theorem finite_descendants (comments : Table Key Post) (k : Key) :
    (descendants (parentOf comments) k).Finite :=
  (finite_toSet comments.keys).subset fun _ => mem_keys_of_mem_descendants

-- # The loops

/-- What a loop over a line does to the table. -/
structure Applied (f : Post → Post) (l : List Key) (t t' : Table Key Post) : Prop where
  keys : t'.keys = t.keys
  find : ∀ j, t'.find? j = if j ∈ l then (t.find? j).map f else t.find? j

variable {f : Post → Post} {l : List Key} {t : Table Key Post} {c : Post}

theorem Applied.skeletons {t t' : Table Key Post} (h : Applied f l t t')
    (hf : ∀ c, (f c).skeleton = c.skeleton) : skeletons t' = skeletons t := by
  funext j
  rw [Comments.skeletons, Comments.skeletons, h.find]
  split
  · rw [Option.map_map]
    exact congrArg (Option.map · _) (funext hf)
  · rfl

theorem eachUpwards_succ (hc : t.find? k = some c) (fuel : Nat) :
    eachUpwards f (fuel + 1) t k =
      if c.parentAuthor ≠ rootPostParent then eachUpwards f fuel (t.modify k f) c.parentKey
      else .ok (t.modify k f) := by
  rw [eachUpwards, hc]
  rfl

/-- The loop goes over the line, if it may go round often enough. -/
theorem eachUpwards_line (hf : ∀ c, (f c).skeleton = c.skeleton) {parent : Key → Option Key}
    (hl : Line parent k l) :
    ∀ (fuel : Nat) (t : Table Key Post), parentOf t = parent → (∀ j ∈ l, (t.find? j).isSome) →
      l.length ≤ fuel → ∃ t', eachUpwards f fuel t k = .ok t' ∧ Applied f l t t' := by
  have hparent : ∀ (t : Table Key Post) (k : Key), parentOf (t.modify k f) = parentOf t := by
    intro t k
    refine congrArg parentIn (funext fun j => ?_)
    rw [skeletons, skeletons, find?_modify]
    split
    · rw [Option.map_map]
      exact congrArg (Option.map · _) (funext hf)
    · rfl
  induction hl with
  | @root a hroot =>
    intro fuel t ht hsome hfuel
    obtain ⟨n, rfl⟩ : ∃ n, fuel = n + 1 := Nat.exists_eq_add_one.mpr hfuel
    obtain ⟨c, hc⟩ := isSome_iff_exists.mp (hsome a (mem_singleton_self a))
    have habove : c.above = none := by rw [← parentIn_of_find hc, ht, hroot]
    have hauthor : c.parentAuthor = rootPostParent := by
      by_contra hne
      rw [Post.above, if_neg hne] at habove
      cases habove
    refine ⟨t.modify a f, ?_, keys_modify .., fun j => ?_⟩
    · rw [eachUpwards_succ hc, if_neg (not_not.mpr hauthor)]
    · rw [find?_modify]
      simp only [mem_singleton]
  | @step a p l hp hl ih =>
    intro fuel t ht hsome hfuel
    obtain ⟨n, rfl⟩ : ∃ n, fuel = n + 1 := Nat.exists_eq_add_one.mpr (Nat.lt_of_lt_of_le (by simp) hfuel)
    obtain ⟨c, hc⟩ := isSome_iff_exists.mp (hsome a mem_cons_self)
    have habove : c.above = some p := by rw [← parentIn_of_find hc, ht, hp]
    have hauthor : c.parentAuthor ≠ rootPostParent ∧ c.parentKey = p := by
      unfold Post.above at habove
      split at habove
      · cases habove
      · next hne => exact ⟨hne, some.inj habove⟩
    -- the rest of the line has not been touched yet
    have hnot : a ∉ l := (nodup_cons.mp (Line.step hp hl).nodup).1
    have hrest : ∀ j ∈ l, ((t.modify a f).find? j).isSome := by
      intro j hj
      rw [find?_modify_ne]
      · exact hsome j (mem_cons_of_mem _ hj)
      · rintro rfl
        exact hnot hj
    obtain ⟨t', hok, happlied⟩ := ih n (t.modify a f) ((hparent t a).trans ht) hrest
      (by simpa using hfuel)
    refine ⟨t', ?_, happlied.keys.trans (keys_modify ..), fun j => ?_⟩
    · rw [eachUpwards_succ hc, if_pos hauthor.1, hauthor.2, hok]
    · rw [happlied.find, find?_modify]
      by_cases hj : j = a
      · subst hj
        simp [hnot]
      · simp [hj]

/-- The loop over everything above a comment, in a forest. -/
theorem Rooted.loop {next : Nat} (h : Rooted (skeletons t) next)
    (hf : ∀ c, (f c).skeleton = c.skeleton)
    (hparent : ∀ p, c.above = some p → (skeletons t p).isSome)
    (hl : LineAbove (parentOf t) c.above l) :
    ∃ t', eachAbove f t c = .ok t' ∧ Applied f l t t' := by
  unfold eachAbove
  by_cases hroot : c.parentAuthor = rootPostParent
  · have habove : c.above = none := if_pos hroot
    rw [habove] at hl
    obtain rfl : l = [] := hl
    exact ⟨t, by rw [if_neg (not_not.mpr hroot)]; rfl, rfl, fun j => by simp⟩
  · have habove : c.above = some c.parentKey := if_neg hroot
    rw [habove] at hl
    rw [if_pos hroot]
    have hsome : ∀ j ∈ l, (t.find? j).isSome := by
      intro j hj
      have := h.line_isSome hl (hparent _ habove) j hj
      rwa [Comments.skeletons, isSome_map] at this
    have hsub : l ⊆ t.keys := fun j hj => find?_isSome_iff.mp (hsome j hj)
    exact eachUpwards_line hf hl _ t rfl hsome ((Line.nodup hl).subperm hsub).length_le

end DeltaChain.Comments

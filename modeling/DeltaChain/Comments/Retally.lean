import DeltaChain.Comments.Count

/-!
# Counting again

`retally_comment_children` sets all counts to nothing and goes over the comments above every comment
once more. In a forest that is counted it changes nothing.
-/

namespace DeltaChain.Comments

open Lib Lib.Forest Protocol Checked List Table Option

variable {t : Table Key Post} {next : Nat}

/-- One more comment under this one. -/
def oneMore (p : Post) : Post := { p with children := p.children + 1 }

open Classical in
/-- How many of the comments are under a key. -/
noncomputable def countUnder (t : Table Key Post) (ds : List Post) (j : Key) : Nat :=
  ds.countP fun d => d.key ∈ descendants (parentOf t) j

/-- The loop over some comments adds to every comment how many of them are under it. -/
theorem Rooted.retallyLoop (h : Rooted (skeletons t) next) (ds : List Post)
    (hds : ∀ d ∈ ds, skeletons t d.key = some d.skeleton) :
    ∃ t', ds.foldlM (eachAbove oneMore) t = .ok t' ∧ t'.keys = t.keys ∧
      ∀ j, t'.find? j =
        (t.find? j).map fun c => { c with children := c.children + countUnder t ds j } := by
  induction ds generalizing t with
  | nil =>
    refine ⟨t, rfl, rfl, fun j => ?_⟩
    simp [countUnder]
  | cons d ds ih =>
    have hd := hds d mem_cons_self
    obtain ⟨l, hl⟩ := h.exists_lineAbove d.above
    obtain ⟨t₁, hok, happ⟩ := h.loop (f := oneMore) (fun _ => rfl) (c := d) (by
      intro p hp
      obtain ⟨e, he, -⟩ := h.reply d.key d.skeleton p hd hp
      rw [he, isSome_some]) hl
    have hsk := happ.skeletons fun _ => rfl
    obtain ⟨t', hok', hkeys, hfind⟩ := ih (hsk ▸ h) fun e he => by
      rw [hsk]
      exact hds e (mem_cons_of_mem _ he)
    refine ⟨t', by rw [foldlM_cons, hok, ok_bind, hok'], hkeys.trans happ.keys, fun j => ?_⟩
    -- the comment counts for everything in the line above it
    have habove : parentOf t d.key = d.above := by
      rw [parentOf, parentIn, hd]
      rfl
    have hmem : d.key ∈ descendants (parentOf t) j ↔ j ∈ l := mem_descendants_iff (habove ▸ hl)
    have hrest : countUnder t₁ ds j = countUnder t ds j := by
      rw [countUnder, countUnder, parentOf, parentOf, hsk]
    rw [hfind, happ.find, hrest]
    by_cases hj : j ∈ l
    · have hcount : countUnder t (d :: ds) j = countUnder t ds j + 1 :=
        countP_cons_of_pos (by simpa using hmem.mpr hj)
      rw [if_pos hj, hcount, Option.map_map]
      refine congrArg (Option.map · _) (funext fun c => ?_)
      simp only [Function.comp_apply, oneMore, Nat.add_right_comm c.children 1, Nat.add_assoc]
    · have hcount : countUnder t (d :: ds) j = countUnder t ds j :=
        countP_cons_of_neg (by simpa using fun hin => hj (hmem.mp hin))
      rw [if_neg hj, hcount]

/-- All comments under a key, counted one by one. -/
theorem countUnder_byId (h : Rooted (skeletons t) next) (j : Key) :
    countUnder t (byId t) j = (descendants (parentOf t) j).ncard := by
  classical
  have hperm : ((byId t).map Post.key).Perm t.keys := by
    have hvalues : (byId t).Perm (t.entries.map Prod.snd) := perm_insertionSort ..
    refine (hvalues.map Post.key).trans (.of_eq ?_)
    rw [List.map_map, Table.keys]
    refine map_congr_left fun e he => ?_
    exact h.key e.1 e.2.skeleton (skeletons_of_find (mem_entries_iff.mp he))
  have hset : descendants (parentOf t) j =
      (t.keys.filter fun a => decide (a ∈ descendants (parentOf t) j)).toFinset := by
    ext a
    simpa using mem_keys_of_mem_descendants
  have hnodup : t.keys.Nodup := t.nodup
  rw [hset, Set.ncard_coe_finset, toFinset_card_of_nodup (hnodup.filter _),
    ← countP_eq_length_filter, ← hperm.countP_eq, countP_map]
  refine countP_congr fun d _ => ?_
  simp

/-- **Counting again changes nothing** in a forest that is counted. -/
theorem retally_eq (h : Rooted (skeletons t) next) (hcounted : Counted t) :
    retallyCommentChildren t = .ok t := by
  have hsk : skeletons (t.map fun c => { c with children := 0 }) = skeletons t := by
    funext j
    rw [skeletons, skeletons, Table.find?_map, Option.map_map]
    rfl
  obtain ⟨t', hok, hkeys, hfind⟩ := Rooted.retallyLoop (t := t.map fun c => { c with children := 0 })
    (hsk.symm ▸ h) (byId t) fun d hd => by
      have hmem : d ∈ t.entries.map Prod.snd := (mem_insertionSort _).mp hd
      obtain ⟨e, he, rfl⟩ := mem_map.mp hmem
      have hfound := skeletons_of_find (mem_entries_iff.mp he)
      rw [hsk, show e.2.key = e.1 from h.key _ _ hfound, hfound]
  have heq : t' = t := by
    refine ext_find (hkeys.trans (keys_map ..)) fun j => ?_
    rw [hfind, Table.find?_map, Option.map_map]
    cases hj : t.find? j with
    | none => rfl
    | some c =>
      have hcount : countUnder (t.map fun c => { c with children := 0 }) (byId t) j = c.children := by
        rw [countUnder, parentOf, hsk, hcounted j c hj, ← countUnder_byId h]
        rfl
      rw [map_some, Function.comp_apply, hcount, Nat.zero_add]
  rw [← heq] at hok ⊢
  exact hok

-- # Runs

variable {s s' : State} {b : Build}

/-- What holds of the place and the count of a comment. -/
structure Placed (comments : Table Key Post) (k : Key) (c : Post) : Prop where
  children : c.children = (descendants (parentOf comments) k).ncard
  root : ∃ r root, up (parentOf comments) c.depth k = some r ∧ comments.find? r = some root ∧
    root.parentAuthor = rootPostParent ∧ c.rootComment = root.id
  parent : c.parentAuthor ≠ rootPostParent → ∃ p, comments.find? c.parentKey = some p

theorem Tidy.placed (hs : Tidy s) {k : Key} {c : Post} (hc : s.comments.find? k = some c) :
    Placed s.comments k c := by
  refine ⟨hs.counted k c hc, ?_, ?_⟩
  · obtain ⟨r, root, hup, hr, habove, hid⟩ := hs.rooted.up_depth (skeletons_of_find hc)
    obtain ⟨d, hd, rfl⟩ := skeletons_eq_some.mp hr
    refine ⟨r, d, hup, hd, ?_, hid⟩
    by_contra hne
    exact absurd ((if_neg hne).symm.trans habove : some d.parentKey = none) (by simp)
  · intro hne
    obtain ⟨d, hd, -⟩ := hs.rooted.reply k c.skeleton c.parentKey (skeletons_of_find hc) (if_neg hne)
    obtain ⟨p, hp, -⟩ := skeletons_eq_some.mp hd
    exact ⟨p, hp⟩

/-- **The tree of comments.** In every run from a state whose comments are a counted forest, every
comment counts its proper descendants, is as deep as it is far from its root, names the id of that
root, and has its parent in the table; counting again changes nothing. -/
theorem comment_tree_kept (b : Build) (s₀ s : State) (events : List Event) (h₀ : Tidy s₀)
    (hrun : Run.exec (Run.checked (step b)) s₀ events = some s) :
    (∀ k c, s.comments.find? k = some c → Placed s.comments k c) ∧
      retallyCommentChildren s.comments = .ok s.comments := by
  have hs : Tidy s := Run.checked_induct Tidy (fun _ _ _ => tidy_step) h₀ hrun
  exact ⟨fun k c hc => hs.placed hc, retally_eq hs.rooted hs.counted⟩

theorem tidy_of_empty (h : s.comments = Table.empty) : Tidy s := by
  refine ⟨⟨?_, ?_, ?_, ?_, ?_⟩, ?_⟩
  all_goals simp [h, Counted, skeletons]

/-- A node that takes every text for JSON and none for a patch. -/
def plainBuild : Build where
  isValidJson := fun _ => true
  patchApply := fun _ _ => none
  clearVotes := true

/-- Two accounts and no comments. -/
def twoAuthors : State where
  headBlockTime := 1000
  votePowerReserveRate := 10
  rewardFund :=
    { name := "post", lastUpdate := 0, contentConstant := 0, percentCurationRewards := 2500
      authorRewardCurve := .linear }
  curationRewardCurve := .squareRoot
  accounts := (Table.empty.emplace "alice" {}).emplace "bob" {}

/-- A post of one of them. -/
def samplePost : CommentOperation where
  parentPermlink := "tag"
  author := "alice"
  permlink := "post"
  title := ""
  body := "a"
  jsonMetadata := ""

/-- A reply of the other. -/
def sampleReply : CommentOperation where
  parentAuthor := "alice"
  parentPermlink := "post"
  author := "bob"
  permlink := "reply"
  title := ""
  body := "b"
  jsonMetadata := ""

/-- After a post and a reply, the post has one comment under it. -/
theorem comment_tree_kept_sample : ∃ s,
    Run.exec (Run.checked (step plainBuild)) twoAuthors [.comment samplePost, .comment sampleReply] = some s ∧
      (s.comments.find? ("alice", "post")).map Post.children = some 1 ∧
      retallyCommentChildren s.comments = .ok s.comments := by
  refine Run.exists_end (P := fun s => (s.comments.find? ("alice", "post")).map Post.children = some 1)
    (by decide +kernel) fun s hs hchildren => ⟨hchildren, ?_⟩
  exact (comment_tree_kept _ _ s _ (tidy_of_empty rfl) hs).2

end DeltaChain.Comments

import DeltaChain.Comments.Tree

/-!
# Counting the comments under a comment

A new comment adds one to the count of everything above it, one that is deleted takes one away, and
nothing else touches the counts: `tidy_step`. Counting again from nothing gives the same counts,
`retally_eq`.
-/

namespace DeltaChain.Comments

open Lib Lib.Forest Protocol Checked Option Table Function

variable {t t' t₁ : Table Key Post} {next : Nat} {c : Post}

-- # Leaves

theorem skeletons_insert (h : t.insert? c.key c = some t₁) :
    skeletons t₁ = update (skeletons t) c.key (some c.skeleton) := by
  funext j
  rw [skeletons, find?_insert? h]
  by_cases hj : j = c.key
  · rw [if_pos hj, hj, update_self, map_some]
  · rw [if_neg hj, update_of_ne hj, skeletons]

theorem skeletons_erase (t : Table Key Post) (x : Key) :
    skeletons (t.erase x) = update (skeletons t) x none := by
  funext j
  rw [skeletons, find?_erase]
  by_cases hj : j = x
  · rw [if_pos hj, hj, update_self, map_none]
  · rw [if_neg hj, update_of_ne hj, skeletons]

/-- **A new comment.** The loop over the comments above it succeeds, and all counts are right again. -/
theorem Rooted.addLeaf (h : Rooted (skeletons t) next) (hcounted : Counted t)
    (hins : t.insert? c.key c = some t₁) (hid : c.id = next) (hzero : c.children = 0)
    (hroot : c.above = none → c.depth = 0 ∧ c.rootComment = c.id)
    (hreply : ∀ p, c.above = some p →
      ∃ d, skeletons t p = some d ∧ c.depth = d.depth + 1 ∧ c.rootComment = d.rootComment)
    (now : Nat) :
    ∃ t', eachAbove (State.repliedTo now) t₁ c = .ok t' ∧
      skeletons t' = update (skeletons t) c.key (some c.skeleton) ∧
      Rooted (skeletons t') (next + 1) ∧ Counted t' := by
  have hnone : t.find? c.key = none :=
    find?_eq_none_iff.mpr (insert?_eq_some_iff.mp hins).1
  have hnew : skeletons t c.key = none := by rw [skeletons, hnone, map_none]
  have hsk := skeletons_insert hins
  have hrooted : Rooted (skeletons t₁) (next + 1) := by
    rw [hsk]
    exact h.insert (c := c.skeleton) hnew hid hroot hreply
  have hleaf := h.leaf_of_none hnew
  have hself : c.above ≠ some c.key := by
    intro habove
    obtain ⟨d, hd, -⟩ := hreply _ habove
    exact absurd (hnew.symm.trans hd) (by simp)
  obtain ⟨l, hl⟩ := h.exists_lineAbove c.above
  -- the line above the new comment, before and after it is there
  have hparent : parentOf t₁ = update (parentOf t) c.key c.above := by
    rw [parentOf, hsk, parentIn_update]
    rfl
  have hl₁ : LineAbove (parentOf t₁) c.above l := by
    rw [hparent]
    exact hl.update_leaf hleaf _ hself
  have hmem : c.key ∉ l := by
    cases habove : c.above with
    | none =>
      rw [habove] at hl
      rw [show l = [] from hl]
      simp
    | some p =>
      rw [habove] at hl
      obtain ⟨d, hd, -⟩ := hreply p habove
      intro hkey
      have := h.line_isSome hl (by rw [hd, isSome_some]) _ hkey
      rw [hnew] at this
      exact absurd this (by simp)
  obtain ⟨t', hok, happ⟩ := hrooted.loop (f := State.repliedTo now) (fun _ => rfl) (c := c) (by
    intro p hp
    obtain ⟨d, hd, -⟩ := hreply p hp
    rw [hsk, update_of_ne, hd, isSome_some]
    rintro rfl
    exact hself hp) hl₁
  have hsk' := happ.skeletons fun _ => rfl
  refine ⟨t', hok, hsk'.trans hsk, hsk' ▸ hrooted, ?_⟩
  have hx : parentOf t c.key = none := by rw [parentOf, parentIn, hnew, bind_none]
  intro k d hd
  rw [parentOf, hsk', ← parentOf, hparent, descendants_link_leaf hleaf hx hself hl]
  rw [happ.find, find?_insert? hins] at hd
  by_cases hk : k = c.key
  · subst hk
    rw [if_neg hmem, if_pos rfl, some.injEq] at hd
    rw [if_neg hmem, descendants_of_leaf hleaf, Set.ncard_empty, ← hd, hzero]
  · split at hd
    · next hkl =>
      obtain ⟨d₀, hd₀, rfl⟩ := map_eq_some_iff.mp hd
      rw [if_pos hkl, Set.ncard_insert_of_notMem (not_mem_descendants_of_root hx)
        (finite_descendants t k), ← hcounted k d₀ hd₀]
      rfl
    · next hkl =>
      rw [if_neg hkl]
      exact hcounted k d hd

/-- **A comment that is deleted.** Without comments under it, it is a leaf. -/
theorem Rooted.removeLeaf (h : Rooted (skeletons t) next) (hcounted : Counted t)
    (hc : t.find? c.key = some c) (hzero : c.children = 0) (now : Nat) :
    ∃ t', eachAbove (State.replyDeleted now) t c = .ok t' ∧
      skeletons (t'.erase c.key) = update (skeletons t) c.key none ∧
      Rooted (skeletons (t'.erase c.key)) next ∧ Counted (t'.erase c.key) := by
  have hempty : descendants (parentOf t) c.key = ∅ := by
    rw [← Set.ncard_eq_zero (finite_descendants t c.key), ← hcounted c.key c hc, hzero]
  have hleaf : ∀ a, parentOf t a ≠ some c.key := by
    intro a ha
    have := mem_descendants_of_parent ha
    rw [hempty] at this
    exact this
  have hparent : parentOf t c.key = c.above := parentIn_of_find hc
  obtain ⟨l, hl⟩ := h.exists_lineAbove c.above
  obtain ⟨t', hok, happ⟩ := h.loop (f := State.replyDeleted now) (fun _ => rfl) (c := c) (by
    intro p hp
    obtain ⟨d, hd, -⟩ := h.reply c.key c.skeleton p (skeletons_of_find hc) hp
    rw [hd, isSome_some]) hl
  have hsk' := happ.skeletons fun _ => rfl
  have hsk : skeletons (t'.erase c.key) = update (skeletons t) c.key none := by
    rw [skeletons_erase, hsk']
  refine ⟨t', hok, hsk, ?_, ?_⟩
  · rw [hsk]
    exact h.erase hleaf
  · intro k d hd
    have hmem : c.key ∈ descendants (parentOf t) k ↔ k ∈ l := mem_descendants_iff (hparent ▸ hl)
    rw [parentOf, hsk, parentIn_update, bind_none, descendants_cut_leaf hleaf]
    rw [find?_erase] at hd
    split at hd
    · cases hd
    · rw [happ.find] at hd
      split at hd
      · next hkl =>
        obtain ⟨d₀, hd₀, rfl⟩ := map_eq_some_iff.mp hd
        rw [Set.ncard_sdiff_singleton_of_mem (hmem.mpr hkl), ← hcounted k d₀ hd₀]
        rfl
      · next hkl =>
        rw [Set.sdiff_singleton_eq_self fun hin => hkl (hmem.mp hin)]
        exact hcounted k d hd

-- # What does not touch the tree

/-- The same comments at the same places with the same counts. -/
def SameTree (t t' : Table Key Post) : Prop :=
  ∀ k, (t'.find? k).map (fun c => (c.skeleton, c.children)) =
    (t.find? k).map fun c => (c.skeleton, c.children)

theorem SameTree.refl (t : Table Key Post) : SameTree t t := fun _ => rfl

theorem SameTree.trans (h : SameTree t t₁) (h' : SameTree t₁ t') : SameTree t t' :=
  fun k => (h' k).trans (h k)

theorem SameTree.modify (t : Table Key Post) (k : Key) {f : Post → Post}
    (hf : ∀ c, (f c).skeleton = c.skeleton ∧ (f c).children = c.children) :
    SameTree t (t.modify k f) := by
  intro j
  rw [find?_modify]
  split
  · rw [map_map]
    refine congrArg (Option.map · _) (funext fun c => ?_)
    rw [comp_apply, (hf c).1, (hf c).2]
  · rfl

theorem SameTree.skeletons (h : SameTree t t') : skeletons t' = skeletons t := by
  funext k
  have hk := congrArg (Option.map Prod.fst) (h k)
  rwa [Option.map_map, Option.map_map] at hk

theorem SameTree.counted (h : SameTree t t') (hc : Counted t) : Counted t' := by
  intro k d hd
  rw [parentOf, h.skeletons]
  have hk := h k
  rw [hd, map_some, eq_comm, map_eq_some_iff] at hk
  obtain ⟨d₀, hd₀, heq⟩ := hk
  rw [← (Prod.mk.inj heq).2]
  exact hc k d₀ hd₀

variable {s s' : State} {b : Build}

theorem Tidy.of_sameTree (h : Tidy s) (hsame : SameTree s.comments s'.comments)
    (hnext : s'.nextCommentId = s.nextCommentId) : Tidy s' := by
  refine ⟨?_, hsame.counted h.counted⟩
  rw [hsame.skeletons, hnext]
  exact h.rooted

-- # Steps

variable {o : CommentOperation} {parent : Option Post} {auth : Account} {key : Key}

theorem getParent_some {p : Post} (h : s.getParent o = .ok (some p)) :
    o.parentAuthor ≠ rootPostParent ∧ s.comments.find? (o.parentAuthor, o.parentPermlink) = some p := by
  unfold State.getParent at h
  split at h
  · next hne =>
    simp only [State.getComment, eq_ok, get_eq_ok, Unique.exists_iff, some.injEq] at h
    obtain ⟨q, hq, -, rfl⟩ := h
    exact ⟨hne, hq⟩
  · cases h

/-- What creating a comment does to the tables. -/
structure Created (s s' : State) (c : Post) : Prop where
  inserted : ∃ t₁, s.comments.insert? c.key c = some t₁ ∧
    eachAbove (State.repliedTo s.headBlockTime) t₁ c = .ok s'.comments
  content : ∃ con, s.contents.insert? c.id con = some s'.contents
  votes : s'.votes = s.votes
  next : s'.nextCommentId = s.nextCommentId + 1

theorem createComment_created (h : s.createComment o auth parent = .ok s') :
    Created s s' (s.newPost o parent) := by
  simp only [State.createComment, eq_ok, get_eq_ok] at h
  obtain ⟨_, -, _, -, _, -, _, -, t₁, ht₁, contents, hcontents, t', ht', rfl⟩ := h
  exact ⟨⟨t₁, ht₁, ht'⟩, ⟨_, hcontents⟩, rfl, rfl⟩

/-- The new comment is a leaf, wherever it is. -/
theorem Tidy.createComment (hs : Tidy s)
    (hparent : s.getParent o = .ok parent) (h : s.createComment o auth parent = .ok s') :
    Tidy s' ∧ skeletons s'.comments =
      update (skeletons s.comments) (s.newPost o parent).key
        (some (s.newPost o parent).skeleton) := by
  have hcreated := createComment_created h
  obtain ⟨t₁, hins, hloop⟩ := hcreated.inserted
  have hroot : (s.newPost o parent).above = none →
      (s.newPost o parent).depth = 0 ∧ (s.newPost o parent).rootComment = (s.newPost o parent).id := by
    intro habove
    cases parent with
    | none => exact ⟨rfl, rfl⟩
    | some q =>
      obtain ⟨hne, hq⟩ := getParent_some hparent
      have hkey : q.key = (o.parentAuthor, o.parentPermlink) :=
        hs.rooted.key _ q.skeleton (skeletons_of_find hq)
      rw [← (Prod.mk.inj hkey).1] at hne
      exact absurd ((if_neg hne).symm.trans habove : some q.key = none) (by simp)
  have hreply : ∀ p, (s.newPost o parent).above = some p → ∃ d, skeletons s.comments p = some d ∧
      (s.newPost o parent).depth = d.depth + 1 ∧ (s.newPost o parent).rootComment = d.rootComment := by
    intro p habove
    cases parent with
    | none => exact absurd habove (by simp [Post.above, State.newPost])
    | some q =>
      obtain ⟨-, hq⟩ := getParent_some hparent
      have hkey : q.key = (o.parentAuthor, o.parentPermlink) :=
        hs.rooted.key _ q.skeleton (skeletons_of_find hq)
      have hp : q.key = p := by
        unfold Post.above at habove
        split at habove
        · cases habove
        · exact some.inj habove
      rw [← hp, hkey]
      exact ⟨q.skeleton, skeletons_of_find hq, rfl, rfl⟩
  have hzero : (s.newPost o parent).children = 0 := by cases parent <;> rfl
  have hid : (s.newPost o parent).id = s.nextCommentId := by cases parent <;> rfl
  obtain ⟨t', ht', hsk, hrooted, hcounted⟩ :=
    hs.rooted.addLeaf hs.counted hins hid hzero hroot hreply s.headBlockTime
  obtain rfl := Except.ok.inj (ht'.symm.trans hloop)
  exact ⟨⟨hcreated.next ▸ hrooted, hcounted⟩, hsk⟩

theorem editComment_sameTree (h : s.editComment b o c = .ok s') :
    SameTree s.comments s'.comments ∧ s'.nextCommentId = s.nextCommentId := by
  simp only [State.editComment, eq_ok] at h
  obtain ⟨_, -, _, -, _, -, rfl⟩ := h
  exact ⟨SameTree.modify _ _ fun _ => ⟨rfl, rfl⟩, rfl⟩

theorem comment_cases (h : s.comment b o = .ok s') :
    (∃ auth parent, s.getParent o = .ok parent ∧ s.createComment o auth parent = .ok s') ∨
      ∃ c, s.editComment b o c = .ok s' := by
  simp only [State.comment, bind_eq_ok] at h
  obtain ⟨_, -, _, -, auth, -, parent, hparent, h⟩ := h
  split at h
  · exact .inl ⟨auth, parent, hparent, h⟩
  · next c _ => exact .inr ⟨c, h⟩

theorem Tidy.comment (hs : Tidy s) (h : s.comment b o = .ok s') : Tidy s' := by
  rcases comment_cases h with ⟨auth, parent, hparent, h⟩ | ⟨c, h⟩
  · exact (hs.createComment hparent h).1
  · obtain ⟨hsame, hnext⟩ := editComment_sameTree h
    exact hs.of_sameTree hsame hnext

/-- What deleting a comment does to the tables. -/
structure Deleted (s s' : State) (c : Post) : Prop where
  found : s.comments.find? c.key = some c
  leaf : c.children = 0
  removed : ∃ t', eachAbove (State.replyDeleted s.headBlockTime) s.comments c = .ok t' ∧
    s'.comments = t'.erase c.key
  contents : s'.contents = s.contents
  votes : s'.votes = s.votes.filter fun k _ => k.1 ≠ c.id
  next : s'.nextCommentId = s.nextCommentId

theorem deleteComment_deleted (hs : Tidy s) {author : AccountName} {permlink : String}
    (h : s.deleteComment author permlink = .ok s') : ∃ c, Deleted s s' c := by
  simp only [State.deleteComment, State.getComment, eq_ok, get_eq_ok, Unique.exists_iff] at h
  obtain ⟨-, -, c, hc, hzero, -, -, t', ht', rfl⟩ := h
  have hkey : c.key = (author, permlink) := hs.rooted.key _ c.skeleton (skeletons_of_find hc)
  exact ⟨c, hkey ▸ hc, hzero, ⟨t', ht', rfl⟩, rfl, rfl, rfl⟩

theorem Tidy.deleted (hs : Tidy s) (h : Deleted s s' c) :
    Tidy s' ∧ skeletons s'.comments = update (skeletons s.comments) c.key none := by
  obtain ⟨t', ht', hcomments⟩ := h.removed
  obtain ⟨t'', ht'', hsk, hrooted, hcounted⟩ :=
    hs.rooted.removeLeaf hs.counted h.found h.leaf s.headBlockTime
  obtain rfl := Except.ok.inj (ht''.symm.trans ht')
  rw [hcomments]
  refine ⟨⟨?_, ?_⟩, hsk⟩
  · rw [hcomments, h.next]
    exact hrooted
  · rw [hcomments]
    exact hcounted

/-- What a vote does to the tables: one comment is voted on, and one vote is stored. -/
structure VotedOn (s s' : State) : Prop where
  comments : SameTree s.comments s'.comments
  contents : s'.contents = s.contents
  next : s'.nextCommentId = s.nextCommentId
  votes : ∃ key c voter, s.comments.find? key = some c ∧
    ∀ k, (s'.votes.find? k).isSome → (s.votes.find? k).isSome ∨ k = (c.id, voter)

theorem castVote_votedOn {o : VoteOperation} {rshares shares : Int}
    (hc : s.comments.find? key = some c) (h : s.castVote o c rshares shares = .ok s') :
    VotedOn s s' := by
  unfold State.castVote at h
  split at h
  · simp only [State.firstVote, bind_eq_ok, get_eq_ok, pure_eq_ok] at h
    obtain ⟨_, -, root, -, weight, -, votes, hvotes, rfl⟩ := h
    refine ⟨?_, rfl, rfl, key, c, o.voter, hc, fun k hk => ?_⟩
    · dsimp only [State.modifyComment]
      refine ((SameTree.modify _ _ ?_).trans (SameTree.modify _ _ ?_)).trans (SameTree.modify _ _ ?_)
      all_goals exact fun _ => ⟨rfl, rfl⟩
    · change (votes.find? k).isSome at hk
      rw [find?_insert? hvotes] at hk
      split at hk
      · next heq => exact .inr heq
      · exact .inl hk
  · simp only [State.changeVote, bind_eq_ok, pure_eq_ok] at h
    obtain ⟨_, -, _, -, root, -, rfl⟩ := h
    refine ⟨?_, rfl, rfl, key, c, o.voter, hc, fun k hk => .inl ?_⟩
    · refine (SameTree.modify _ _ ?_).trans (SameTree.modify _ _ ?_)
      all_goals exact fun _ => ⟨rfl, rfl⟩
    · rw [find?_modify] at hk
      split at hk
      · rwa [isSome_map] at hk
      · exact hk

theorem vote_votedOn {o : VoteOperation} (h : s.vote b o = .ok s') : VotedOn s s' := by
  simp only [State.vote, State.getComment, bind_eq_ok, get_eq_ok] at h
  obtain ⟨_, -, c, hc, voter, -, _, -, _, -, h⟩ := h
  split at h
  · cases h
    unfold State.lateVote
    split
    · exact ⟨SameTree.refl _, rfl, rfl, _, c, o.voter, hc, fun _ => .inl⟩
    · refine ⟨SameTree.refl _, rfl, rfl, _, c, o.voter, hc, fun k hk => ?_⟩
      by_cases hkey : k = (c.id, o.voter)
      · exact .inr hkey
      · rw [find?_emplace, if_neg hkey, find?_modify_ne _ _ hkey] at hk
        exact .inl hk
  · simp only [State.timelyVote, bind_eq_ok, pure_eq_ok] at h
    obtain ⟨_, -, _, -, _, -, bar, -, _, -, used, -, _, -, _, -, s₁, hs₁, rfl⟩ := h
    obtain ⟨hcomments, hcontents, hnext, hvotes⟩ := castVote_votedOn hc hs₁
    exact ⟨hcomments, hcontents, hnext, hvotes⟩

/-- A payout leaves comments and contents where they are, and makes no votes. -/
structure PaidOut (s s' : State) : Prop where
  comments : SameTree s.comments s'.comments
  contents : s'.contents = s.contents
  next : s'.nextCommentId = s.nextCommentId
  votes : ∀ k, (s'.votes.find? k).isSome → (s.votes.find? k).isSome

theorem cashout_paidOut {paid : State.Paid} (h : s.cashout b key paid = .ok s') : PaidOut s s' := by
  simp only [State.cashout, State.getComment, eq_ok, get_eq_ok] at h
  obtain ⟨c, -, _, -, rfl⟩ := h
  have hsame : SameTree s.comments (s.comments.modify key (State.paidOut s.headBlockTime paid)) :=
    SameTree.modify _ _ fun _ => ⟨rfl, rfl⟩
  split
  · refine ⟨hsame, rfl, rfl, fun k hk => ?_⟩
    obtain ⟨v, hv⟩ := isSome_iff_exists.mp hk
    rw [find?_filter] at hv
    obtain ⟨hv, -⟩ := filter_eq_some_iff.mp hv
    rw [show s.votes.find? k = some v from hv, isSome_some]
  · exact ⟨hsame, rfl, rfl, fun _ => id⟩

/-- **Step lemma.** Every step keeps the forest and its counts. -/
theorem tidy_step {e : Event} (hs : Tidy s) (h : step b s e = .ok s') : Tidy s' := by
  cases e with
  | comment o => exact hs.comment h
  | deleteComment author permlink =>
    obtain ⟨c, hdeleted⟩ := deleteComment_deleted hs h
    exact (hs.deleted hdeleted).1
  | vote o =>
    have hvoted := vote_votedOn h
    exact hs.of_sameTree hvoted.comments hvoted.next
  | cashout key paid =>
    have hpaid := cashout_paidOut h
    exact hs.of_sameTree hpaid.comments hpaid.next
  | rest now accounts =>
    cases h
    exact ⟨hs.rooted, hs.counted⟩

end DeltaChain.Comments

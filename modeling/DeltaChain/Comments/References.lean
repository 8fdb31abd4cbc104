import DeltaChain.Comments.Retally

/-!
# References between the tables

Votes and contents name a comment by its id. Votes are removed with their comment. Contents are not:
`delete_comment_evaluator` leaves the content behind, and a comment that is made anew under the same
permlink has another id.
-/

namespace DeltaChain.Comments

open Lib Protocol Checked Option Table Function

/-- There is a comment with this id. -/
def HasComment (s : State) (id : Nat) : Prop := ∃ k d, skeletons s.comments k = some d ∧ d.id = id

/-- Every vote is on a comment that exists. -/
def VotesRefer (s : State) : Prop := ∀ k, (s.votes.find? k).isSome → HasComment s k.1

/-- Every comment has a content. There is at most one, since contents are kept by comment. -/
def HaveContents (s : State) : Prop := ∀ id, HasComment s id → (s.contents.find? id).isSome

/-- Every content belongs to a comment that exists. -/
def ContentsRefer (s : State) : Prop := ∀ id, (s.contents.find? id).isSome → HasComment s id

/-- What every step keeps. -/
structure Linked (s : State) : Prop where
  tidy : Tidy s
  votes : VotesRefer s
  contents : HaveContents s

variable {s s' : State} {b : Build} {o : CommentOperation} {c : Post}

theorem hasComment_of_find {k : Key} (h : s.comments.find? k = some c) :
    HasComment s c.id := ⟨k, c.skeleton, skeletons_of_find h, rfl⟩

-- # New comments and comments that go

theorem hasComment_created (hnew : skeletons s.comments c.key = none)
    (h : skeletons s'.comments = update (skeletons s.comments) c.key (some c.skeleton))
    (id : Nat) : HasComment s' id ↔ id = c.id ∨ HasComment s id := by
  unfold HasComment
  rw [h]
  constructor
  · rintro ⟨k, d, hd, rfl⟩
    by_cases hk : k = c.key
    · rw [hk, update_self, some.injEq] at hd
      exact .inl (by rw [← hd]; rfl)
    · rw [update_of_ne hk] at hd
      exact .inr ⟨k, d, hd, rfl⟩
  · rintro (rfl | ⟨k, d, hd, rfl⟩)
    · exact ⟨c.key, c.skeleton, update_self .., rfl⟩
    · refine ⟨k, d, ?_, rfl⟩
      rw [update_of_ne, hd]
      rintro rfl
      exact absurd (hnew.symm.trans hd) (by simp)

theorem Linked.hasComment_deleted (hs : Linked s) (h : Deleted s s' c) (id : Nat) :
    HasComment s' id ↔ id ≠ c.id ∧ HasComment s id := by
  have hfound := skeletons_of_find h.found
  unfold HasComment
  rw [(hs.tidy.deleted h).2]
  constructor
  · rintro ⟨k, d, hd, rfl⟩
    by_cases hk : k = c.key
    · rw [hk, update_self] at hd
      cases hd
    · rw [update_of_ne hk] at hd
      exact ⟨fun hid => hk (hs.tidy.rooted.inj k c.key d c.skeleton hd hfound hid), k, d, hd, rfl⟩
  · rintro ⟨hne, k, d, hd, rfl⟩
    refine ⟨k, d, ?_, rfl⟩
    rw [update_of_ne, hd]
    rintro rfl
    obtain rfl := mem_unique hfound hd
    exact hne rfl

-- # Steps

/-- A step that makes and removes no comments and leaves the contents alone. -/
theorem Linked.of_sameTree (hs : Linked s) (hsame : SameTree s.comments s'.comments)
    (hnext : s'.nextCommentId = s.nextCommentId)
    (hcontents : ∀ id, (s'.contents.find? id).isSome = (s.contents.find? id).isSome)
    (hvotes : ∀ k, (s'.votes.find? k).isSome → (s.votes.find? k).isSome ∨ HasComment s k.1) :
    Linked s' ∧ (ContentsRefer s → ContentsRefer s') := by
  have hiff : ∀ id, HasComment s' id ↔ HasComment s id := fun id => by
    rw [HasComment, HasComment, hsame.skeletons]
  refine ⟨⟨hs.tidy.of_sameTree hsame hnext, ?_, ?_⟩, ?_⟩
  · intro k hk
    rw [hiff]
    rcases hvotes k hk with hold | hcomment
    · exact hs.votes k hold
    · exact hcomment
  · intro id hid
    rw [hcontents]
    exact hs.contents id ((hiff id).mp hid)
  · intro hrefer id hid
    rw [hcontents] at hid
    exact (hiff id).mpr (hrefer id hid)

theorem Linked.createComment (hs : Linked s) {auth : Account} {parent : Option Post}
    (hparent : s.getParent o = .ok parent) (h : s.createComment o auth parent = .ok s') :
    Linked s' ∧ (ContentsRefer s → ContentsRefer s') := by
  obtain ⟨htidy, hsk⟩ := hs.tidy.createComment hparent h
  have hcreated := createComment_created h
  obtain ⟨t₁, hins, -⟩ := hcreated.inserted
  obtain ⟨con, hcon⟩ := hcreated.content
  have hnew : skeletons s.comments (s.newPost o parent).key = none := by
    rw [skeletons, find?_eq_none_iff.mpr (insert?_eq_some_iff.mp hins).1, map_none]
  have hiff := hasComment_created hnew hsk
  refine ⟨⟨htidy, ?_, ?_⟩, ?_⟩
  · intro k hk
    rw [hcreated.votes] at hk
    exact (hiff _).mpr (.inr (hs.votes k hk))
  · intro id hid
    rw [find?_insert? hcon]
    split
    · rfl
    · next hne => exact hs.contents id (((hiff id).mp hid).resolve_left hne)
  · intro hrefer id hid
    rw [find?_insert? hcon] at hid
    split at hid
    · next heq => exact (hiff id).mpr (.inl heq)
    · exact (hiff id).mpr (.inr (hrefer id hid))

theorem Linked.editComment (hs : Linked s)
    (h : s.editComment b o c = .ok s') : Linked s' ∧ (ContentsRefer s → ContentsRefer s') := by
  obtain ⟨hsame, hnext⟩ := editComment_sameTree h
  simp only [State.editComment, eq_ok] at h
  obtain ⟨_, -, _, -, _, -, rfl⟩ := h
  refine hs.of_sameTree hsame hnext (fun id => ?_) fun _ => .inl
  rw [find?_modify]
  split
  · rw [isSome_map]
  · rfl

/-- Votes go with their comment, the content stays. -/
theorem Linked.deleteComment (hs : Linked s) {author : AccountName} {permlink : String}
    (h : s.deleteComment author permlink = .ok s') : Linked s' ∧ ¬ ContentsRefer s' := by
  obtain ⟨c, hdeleted⟩ := deleteComment_deleted hs.tidy h
  have hiff := hs.hasComment_deleted hdeleted
  refine ⟨⟨(hs.tidy.deleted hdeleted).1, ?_, ?_⟩, ?_⟩
  · intro k hk
    rw [hdeleted.votes, find?_filter] at hk
    obtain ⟨v, hv⟩ := isSome_iff_exists.mp hk
    obtain ⟨hfind, hne⟩ := filter_eq_some_iff.mp hv
    exact (hiff k.1).mpr ⟨by simpa using hne, hs.votes k (by rw [hfind, isSome_some])⟩
  · intro id hid
    rw [hdeleted.contents]
    exact hs.contents id ((hiff id).mp hid).2
  · intro hrefer
    have hcontent := hs.contents c.id (hasComment_of_find hdeleted.found)
    rw [← hdeleted.contents] at hcontent
    exact ((hiff c.id).mp (hrefer c.id hcontent)).1 rfl

/-- The event deletes no comment. -/
def Event.Keeps : Event → Prop
  | .deleteComment .. => False
  | _ => True

/-- **Step lemma.** A step from a state where contents refer to comments leads to another one
exactly if it deletes no comment. -/
theorem Linked.step (hs : Linked s) {e : Event} (h : Comments.step b s e = .ok s') :
    Linked s' ∧ (ContentsRefer s → (ContentsRefer s' ↔ e.Keeps)) := by
  cases e with
  | comment o =>
    have hkept : Linked s' ∧ (ContentsRefer s → ContentsRefer s') := by
      rcases comment_cases h with ⟨auth, parent, hparent, h⟩ | ⟨c, h⟩
      · exact hs.createComment hparent h
      · exact hs.editComment h
    exact ⟨hkept.1, fun hrefer => iff_of_true (hkept.2 hrefer) trivial⟩
  | deleteComment author permlink =>
    obtain ⟨hlinked, hnot⟩ := hs.deleteComment h
    exact ⟨hlinked, fun _ => iff_of_false hnot id⟩
  | vote o =>
    have hvoted := vote_votedOn h
    obtain ⟨key, c, voter, hc, hvotes⟩ := hvoted.votes
    have hkept := hs.of_sameTree hvoted.comments hvoted.next (fun id => by rw [hvoted.contents]) (by
      intro k hk
      rcases hvotes k hk with hold | rfl
      · exact .inl hold
      · exact .inr (hasComment_of_find hc))
    exact ⟨hkept.1, fun hrefer => iff_of_true (hkept.2 hrefer) trivial⟩
  | cashout key paid =>
    have hpaid := cashout_paidOut h
    have hkept := hs.of_sameTree hpaid.comments hpaid.next (fun id => by rw [hpaid.contents])
      fun k hk => .inl (hpaid.votes k hk)
    exact ⟨hkept.1, fun hrefer => iff_of_true (hkept.2 hrefer) trivial⟩
  | rest now accounts =>
    have hsame : SameTree s.comments s'.comments ∧ s'.nextCommentId = s.nextCommentId ∧
        s'.contents = s.contents ∧ s'.votes = s.votes := by
      cases h
      exact ⟨SameTree.refl _, rfl, rfl, rfl⟩
    obtain ⟨hcomments, hnext, hcontents, hvotes⟩ := hsame
    have hkept := hs.of_sameTree hcomments hnext (fun id => by rw [hcontents])
      fun k hk => .inl (hvotes ▸ hk)
    exact ⟨hkept.1, fun hrefer => iff_of_true (hkept.2 hrefer) trivial⟩

-- # Runs

/-- **References between the tables.** In every run from a consistent state, every vote is on a
comment that exists and every comment has its content. Every content belongs to a comment that
exists, after every step, exactly if no step deletes a comment. -/
theorem comment_references_iff (b : Build) (s₀ : State) (h₀ : Linked s₀) (hrefer₀ : ContentsRefer s₀)
    (events : List Event) :
    (∀ s, Run.exec (Run.checked (step b)) s₀ events = some s → VotesRefer s ∧ HaveContents s) ∧
    (Run.AllSteps (Run.checked (step b)) s₀ events (fun _ _ s' => ContentsRefer s') ↔
      Run.AllSteps (Run.checked (step b)) s₀ events fun _ e _ => e.Keeps) := by
  refine ⟨fun s hrun => ?_, ?_⟩
  · have hs : Linked s :=
      Run.checked_induct Linked (fun _ _ _ hs hstep => (hs.step hstep).1) h₀ hrun
    exact ⟨hs.votes, hs.contents⟩
  · refine Run.allSteps_congr (fun s => Linked s ∧ ContentsRefer s) ?_ ?_ ⟨h₀, hrefer₀⟩
    · intro s e s' hs hstep
      exact (hs.1.step hstep).2 hs.2
    · intro s e s' hs hstep hkeeps
      obtain ⟨hlinked, hiff⟩ := hs.1.step hstep
      exact ⟨hlinked, (hiff hs.2).mpr hkeeps⟩

theorem linked_of_empty (hcomments : s.comments = Table.empty) (hvotes : s.votes = Table.empty) :
    Linked s := by
  refine ⟨tidy_of_empty hcomments, ?_, ?_⟩
  · intro k hk
    rw [hvotes] at hk
    cases hk
  · rintro id ⟨k, d, hd, -⟩
    rw [hcomments] at hd
    exact absurd hd (by simp [skeletons])

/-- A post that is deleted leaves its content behind. -/
theorem content_outlives_comment : ∃ s, Run.exec (Run.checked (step plainBuild)) twoAuthors
      [.comment samplePost, .deleteComment "alice" "post"] = some s ∧
      s.comments.find? ("alice", "post") = none ∧ ¬ ContentsRefer s := by
  refine Run.exists_end (P := fun s => s.comments.keys = [] ∧ (s.contents.find? 0).isSome = true)
    (by decide +kernel) ?_
  rintro s - ⟨hkeys, hcontent⟩
  have hnone : ∀ k, s.comments.find? k = none := by
    intro k
    rw [find?_eq_none_iff, hkeys]
    exact List.not_mem_nil
  refine ⟨hnone _, fun hrefer => ?_⟩
  obtain ⟨k, d, hd, -⟩ := hrefer 0 hcontent
  rw [skeletons, hnone] at hd
  cases hd

/-- A run without deletions. -/
theorem comment_references_sample :
    (Run.exec (Run.checked (step plainBuild)) twoAuthors
      [.comment samplePost, .comment sampleReply]).isSome = true ∧
    Run.AllSteps (Run.checked (step plainBuild)) twoAuthors
      [.comment samplePost, .comment sampleReply] fun _ _ s' => ContentsRefer s' := by
  refine ⟨by decide +kernel, (comment_references_iff _ _ (linked_of_empty rfl rfl) ?_ _).2.mpr ?_⟩
  · intro id hid
    exact absurd hid (by simp [twoAuthors])
  · intro pre e post s s' hsplit _ _
    have hmem : e ∈ pre ++ e :: post := by simp
    rw [← hsplit] at hmem
    rcases List.mem_cons.mp hmem with rfl | hmem
    · trivial
    · obtain rfl := List.mem_singleton.mp hmem
      trivial

end DeltaChain.Comments

import DeltaChain.Protocol.Authority
import DeltaChain.Rewards.Cashout

/-!
# Comments, votes on them and their contents

`comment_evaluator`, `delete_comment_evaluator`, `hf20_vote_evaluator` and
`retally_comment_children` under the hardfork 20 rules, on a node that is built without
`IS_LOW_MEM`, and what a payout does to the tables of comments and votes.

Comments are found by author and permlink. The counters `children` and the ids are not bounded.
-/

namespace DeltaChain.Comments

open Lib Protocol Checked

/-- The key of the index `by_permlink`. -/
abbrev Key := AccountName × String

/-- `comment_object`. -/
structure Post extends Ledger.Comment where
  id : Nat
  permlink : String
  category : String
  parentAuthor : AccountName := rootPostParent
  parentPermlink : String
  lastUpdate : Nat
  created : Nat
  active : Nat
  depth : Nat := 0
  children : Nat := 0
  netVotes : Int := 0
  rootComment : Nat
  allowReplies : Bool := true
  allowVotes : Bool := true
deriving DecidableEq, Repr

/-- `comment_content_object`, kept under the id of its comment. -/
structure Content where
  title : String
  body : String
  jsonMetadata : String
deriving DecidableEq, Repr

/-- `comment_vote_object`, kept under the id of its comment and the name of the voter. -/
structure Vote where
  weight : Nat := 0
  rshares : Int := 0
  votePercent : Int := 0
  lastUpdate : Nat
  numChanges : Int := 0
deriving DecidableEq, Repr

/-- `account_object`, with what posting and voting leave in it. -/
structure Account extends Ledger.Account where
  lastPost : Nat := 0
  lastRootPost : Nat := 0
  lastVoteTime : Nat := 0
  postCount : Nat := 0

/-- The state. The fund is the one that all comments are paid from. -/
structure State where
  headBlockTime : Nat
  votePowerReserveRate : Nat := 40
  reverseAuctionSeconds : Nat := 15 * 60
  rewardFund : Ledger.RewardFund
  curationRewardCurve : Ledger.Curve
  accounts : Table AccountName Account
  nextCommentId : Nat := 0
  comments : Table Key Post := Table.empty
  contents : Table Nat Content := Table.empty
  votes : Table (Nat × AccountName) Vote := Table.empty

/-- What is taken from outside: the JSON parser, the library that patches a body (`none` if the
text is not a patch), and whether the node is built with `CLEAR_VOTES`. -/
structure Build where
  isValidJson : String → Bool
  patchApply : String → String → Option String
  clearVotes : Bool

-- # Looking up

def Post.key (c : Post) : Key := (c.author, c.permlink)

/-- The key of the comment that a comment replies to. -/
def Post.parentKey (c : Post) : Key := (c.parentAuthor, c.parentPermlink)

variable (comments : Table Key Post)

/-- The comment with an id. -/
def getById (id : Nat) : Checked Post :=
  get ((comments.entries.find? fun e => e.2.id = id).map Prod.snd) "unknown key"

variable (s : State)

namespace State

def getAccount (name : AccountName) : Checked Account :=
  get (s.accounts.find? name) "unknown key"

def getComment (key : Key) : Checked Post := get (s.comments.find? key) "unknown key"

end State

/-- The loops over a comment and everything above it. A loop that comes to an end meets no comment
twice, so it goes round at most as often as there are comments. -/
def eachUpwards (f : Post → Post) : Nat → Table Key Post → Key → Checked (Table Key Post)
  | 0, _, _ => .error "the loop does not end"
  | fuel + 1, comments, key => do
    let c ← get (comments.find? key) "unknown key"
    let comments := comments.modify key f
    if c.parentAuthor ≠ rootPostParent then eachUpwards f fuel comments c.parentKey
    else return comments

/-- The loop starts with the comment above, if there is one. -/
def eachAbove (f : Post → Post) (comments : Table Key Post) (c : Post) : Checked (Table Key Post) :=
  if c.parentAuthor ≠ rootPostParent then
    eachUpwards f comments.keys.length comments c.parentKey
  else return comments

-- # Comments

structure CommentOperation where
  parentAuthor : AccountName := rootPostParent
  parentPermlink : String
  author : AccountName
  permlink : String
  title : String
  body : String
  jsonMetadata : String

def validateAccountName (name : AccountName) : Checked Unit :=
  assert (isValidAccountName name) ("Account name " ++ name ++ " is invalid")

def validatePermlink (permlink : String) : Checked Unit :=
  assert (permlink.utf8ByteSize < maxPermlinkLength) "permlink is too long"

def validatePermlink01 (permlink : String) : Checked Unit := do
  assert (permlink.utf8ByteSize > minPermlinkLength ∧ permlink.utf8ByteSize < maxPermlinkLength)
    "Permlink is not a valid size."
  assert (permlink.toList.all fun c => 'a' ≤ c ∧ c ≤ 'z' ∨ '0' ≤ c ∧ c ≤ '9' ∨ c = '-')
    "Invalid permlink character"

def CommentOperation.validate (b : Build) (o : CommentOperation) : Checked Unit := do
  assert (o.title.utf8ByteSize < 256) "Title larger than size limit"
  assert (o.body.utf8ByteSize > 0) "Body is empty"
  whenever (o.parentAuthor ≠ "") (validateAccountName o.parentAuthor)
  validateAccountName o.author
  validatePermlink o.parentPermlink
  validatePermlink o.permlink
  whenever (o.jsonMetadata.utf8ByteSize > 0) do
    assert (b.isValidJson o.jsonMetadata) "JSON Metadata not valid JSON"

namespace State

/-- The comment that is replied to. -/
def getParent (o : CommentOperation) : Checked (Option Post) :=
  if o.parentAuthor ≠ rootPostParent then do
    let parent ← s.getComment (o.parentAuthor, o.parentPermlink)
    assert (parent.depth < maxCommentDepth) "Comment is nested too deep"
    return some parent
  else return none

/-- Replies have to be allowed where the discussion starts. -/
def checkReplies : Option Post → Checked Unit
  | none => return ()
  | some parent => do
    let root ← getById s.comments parent.rootComment
    assert root.allowReplies "The parent comment has disabled replies."

/-- Not too soon after the last one. -/
def checkInterval (o : CommentOperation) (auth : Account) : Checked Unit :=
  if o.parentAuthor = rootPostParent then
    assert ((s.headBlockTime : Int) - auth.lastRootPost > minRootCommentInterval)
      "You may only post once every 5 minutes."
  else
    assert ((s.headBlockTime : Int) - auth.lastPost ≥ minReplyIntervalHf20)
      "You may only comment once every 3 seconds."

/-- The author after a new comment. -/
def posted (o : CommentOperation) (a : Account) : Account :=
  { a with
    lastRootPost := if o.parentAuthor = rootPostParent then s.headBlockTime else a.lastRootPost
    lastPost := s.headBlockTime
    postCount := a.postCount + 1 }

def newPost (o : CommentOperation) : Option Post → Post
  | none =>
    { id := s.nextCommentId
      author := o.author
      permlink := o.permlink
      category := o.parentPermlink
      parentPermlink := o.parentPermlink
      lastUpdate := s.headBlockTime
      created := s.headBlockTime
      active := s.headBlockTime
      rewardWeight := percent100
      rootComment := s.nextCommentId
      cashoutTime := s.headBlockTime + cashoutWindowSeconds }
  | some parent =>
    { id := s.nextCommentId
      author := o.author
      permlink := o.permlink
      category := parent.category
      parentAuthor := parent.author
      parentPermlink := parent.permlink
      lastUpdate := s.headBlockTime
      created := s.headBlockTime
      active := s.headBlockTime
      depth := parent.depth + 1
      rewardWeight := percent100
      rootComment := parent.rootComment
      cashoutTime := s.headBlockTime + cashoutWindowSeconds }

/-- What a new reply does to every comment above it. -/
def repliedTo (now : Nat) (p : Post) : Post := { p with children := p.children + 1, active := now }

/-- What a reply that is deleted does to every comment above it. -/
def replyDeleted (now : Nat) (p : Post) : Post := { p with children := p.children - 1, active := now }

/-- `comment_evaluator`, for a comment that is not there yet. -/
def createComment (o : CommentOperation) (auth : Account) (parent : Option Post) :
    Checked State := do
  s.checkReplies parent
  s.checkInterval o auth
  validatePermlink01 o.parentPermlink
  validatePermlink01 o.permlink
  let c := s.newPost o parent
  let comments ← get (s.comments.insert? c.key c) "Could not insert object"
  let contents ← get
    (s.contents.insert? c.id { title := o.title, body := o.body, jsonMetadata := o.jsonMetadata })
    "Could not insert object"
  let comments ← eachAbove (repliedTo s.headBlockTime) comments c
  return { s with
    accounts := s.accounts.modify o.author (s.posted o)
    nextCommentId := s.nextCommentId + 1
    comments := comments
    contents := contents }

/-- Texts of one length count as equal. -/
def strcmpEqual (a b : String) : Bool := a.utf8ByteSize == b.utf8ByteSize || a == b

/-- The content after an edit. -/
def edited (b : Build) (o : CommentOperation) (con : Content) : Content :=
  { title := if o.title.utf8ByteSize > 0 then o.title else con.title
    jsonMetadata := if o.jsonMetadata.utf8ByteSize > 0 then o.jsonMetadata else con.jsonMetadata
    body := if o.body.utf8ByteSize > 0 then (b.patchApply o.body con.body).getD o.body else con.body }

/-- `comment_evaluator`, for a comment that is there already. -/
def editComment (b : Build) (s : State) (o : CommentOperation) (c : Post) : Checked State := do
  assert (c.parentAuthor = o.parentAuthor) "The parent of a comment cannot change."
  assert (strcmpEqual c.parentPermlink o.parentPermlink) "The permlink of a comment cannot change."
  let _ ← get (s.contents.find? c.id) "unknown key"
  return { s with
    comments := s.comments.modify c.key fun c =>
      { c with lastUpdate := s.headBlockTime, active := s.headBlockTime }
    contents := s.contents.modify c.id (edited b o) }

def comment (b : Build) (s : State) (o : CommentOperation) : Checked State := do
  o.validate b
  assert (o.title.utf8ByteSize + o.body.utf8ByteSize + o.jsonMetadata.utf8ByteSize ≠ 0)
    "Cannot update comment because nothing appears to be changing."
  let auth ← s.getAccount o.author
  let parent ← s.getParent o
  match s.comments.find? (o.author, o.permlink) with
  | none => s.createComment o auth parent
  | some c => s.editComment b o c

def deleteComment (author : AccountName) (permlink : String) : Checked State := do
  validatePermlink permlink
  validateAccountName author
  let c ← s.getComment (author, permlink)
  assert (c.children = 0) "Cannot delete a comment with replies."
  assert (c.cashoutTime ≠ timePointSecMaximum) "comment.cashout_time != fc::time_point_sec::maximum()"
  assert (c.netRshares ≤ 0) "Cannot delete a comment with net positive votes."
  let comments ← eachAbove (replyDeleted s.headBlockTime) s.comments c
  return { s with
    comments := comments.erase c.key
    votes := s.votes.filter fun k _ => k.1 ≠ c.id }

end State

-- # Counting again

/-- The comments in the order of their ids. -/
def byId : List Post :=
  (comments.entries.map Prod.snd).insertionSort fun c d => c.id ≤ d.id

def retallyCommentChildren : Checked (Table Key Post) :=
  (byId comments).foldlM (eachAbove fun p => { p with children := p.children + 1 })
    (comments.map fun c => { c with children := 0 })

end DeltaChain.Comments

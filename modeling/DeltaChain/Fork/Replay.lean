import DeltaChain.Fork.Database

/-!
# The state of a branch

The specification of the chain state: the state at a block is the start state
with the blocks on the way to it applied, in order and once each. `stateAt`
computes it from a block id, `replay` from a list of blocks, and `stateAt_path`
says that they agree along every path.
-/

namespace DeltaChain.Fork

open Option

variable {ρ : Type} {n : Nat}

-- # Ids

/-- The previous id; ids that no block has stay where they are. -/
def BlockId.up : BlockId → BlockId
  | .ofBlock previous _ => previous
  | id => id

@[simp] theorem ForkItem.num_id (x : ForkItem) : x.id.num = x.num := rfl

@[simp] theorem ForkItem.up_id (x : ForkItem) : x.id.up = x.previousId := rfl

theorem ForkItem.num_eq (x : ForkItem) : x.num = x.previousId.num + 1 := rfl

theorem ForkItem.previousId_ne_id (x y : ForkItem) (h : y.num ≤ x.num) : y.previousId ≠ x.id := by
  intro heq
  have hnum : y.previousId.num = x.num := by rw [heq, ForkItem.num_id]
  have := y.num_eq
  omega

/-- The chain a block id commits to: the id itself, the previous id, and so on
down to block number `n`. -/
def BlockId.atNum (n : Nat) : BlockId → BlockId
  | .ofBlock previous payload =>
    if previous.num + 1 ≤ n then .ofBlock previous payload else previous.atNum n
  | id => id

theorem BlockId.atNum_of_le {id : BlockId} (h : id.num ≤ n) : id.atNum n = id := by
  cases id with
  | zero | unknown num tag => rfl
  | ofBlock previous payload =>
    have : previous.num + 1 ≤ n := h
    rw [BlockId.atNum, if_pos this]

theorem BlockId.atNum_ofBlock {p : BlockId} {t : Nat} (h : n ≤ p.num) :
    (BlockId.ofBlock p t).atNum n = p.atNum n := by
  rw [BlockId.atNum, if_neg (by omega)]

-- # Replaying blocks

section

variable (exec : Exec ρ)

/-- Apply blocks one after the other. -/
def replay (s : ChainState ρ) (blocks : List Block) : Option (ChainState ρ) :=
  blocks.foldlM (Database.execBlock exec) s

/-- The state at a block, from the start state. -/
def stateAt (start : ChainState ρ) : BlockId → Option (ChainState ρ)
  | .zero => if start.headBlockId = .zero then some start else none
  | .unknown num tag => if start.headBlockId = .unknown num tag then some start else none
  | .ofBlock previous payload =>
    if start.headBlockId = .ofBlock previous payload then some start
    else (stateAt start previous).bind fun s => Database.execBlock exec s ⟨previous, payload⟩

end

/-- `blocks` lead from the block `a` to the block `b`. -/
def Path (a : BlockId) : List Block → BlockId → Prop
  | [], b => a = b
  | x :: xs, b => x.previous = a ∧ Path x.id xs b

variable {exec : Exec ρ} {start s s' : ChainState ρ} {b : Block}

theorem execBlock_eq_some (h : Database.execBlock exec s b = some s') :
    s.headBlockId = b.previous ∧ s'.headBlockId = b.id := by
  unfold Database.execBlock at h
  split at h
  · next hprev =>
    obtain ⟨r, -, rfl⟩ := map_eq_some_iff.mp h
    exact ⟨hprev, rfl⟩
  · cases h

theorem execBlock_num (h : Database.execBlock exec s b = some s') :
    s'.headBlockNum = s.headBlockNum + 1 := by
  obtain ⟨hprev, hhead⟩ := execBlock_eq_some h
  unfold ChainState.headBlockNum
  rw [hhead, hprev]
  rfl

theorem stateAt_self : stateAt exec start start.headBlockId = some start := by
  cases h : start.headBlockId <;> simp [stateAt, h]

theorem stateAt_headBlockId : ∀ {id : BlockId}, stateAt exec start id = some s → s.headBlockId = id
  | .zero, h | .unknown _ _, h => by
    rw [stateAt] at h
    split at h
    · next hid =>
      cases h
      exact hid
    · cases h
  | .ofBlock p t, h => by
    rw [stateAt] at h
    split at h
    · next hid =>
      cases h
      exact hid
    · obtain ⟨s₁, -, hexec⟩ := bind_eq_some_iff.mp h
      exact (execBlock_eq_some hexec).2

/-- Nothing below the start state is reached from it. -/
theorem stateAt_num_le :
    ∀ {id : BlockId} {s : ChainState ρ}, stateAt exec start id = some s →
      start.headBlockNum ≤ id.num
  | .zero, _, h | .unknown _ _, _, h => by
    rw [stateAt] at h
    split at h
    · next hid =>
      unfold ChainState.headBlockNum
      rw [hid]
    · cases h
  | .ofBlock p t, _, h => by
    rw [stateAt] at h
    split at h
    · next hid =>
      unfold ChainState.headBlockNum
      rw [hid]
    · obtain ⟨s₁, hs₁, -⟩ := bind_eq_some_iff.mp h
      have := stateAt_num_le hs₁
      show start.headBlockNum ≤ p.num + 1
      omega

/-- The state at a block above the start is the block applied to the state at
the block before. -/
theorem stateAt_block (h : start.headBlockNum ≤ b.previous.num) :
    stateAt exec start b.id =
      (stateAt exec start b.previous).bind fun s => Database.execBlock exec s b := by
  have hne : start.headBlockId ≠ .ofBlock b.previous b.payload := by
    intro heq
    unfold ChainState.headBlockNum at h
    rw [heq] at h
    have : b.previous.num + 1 ≤ b.previous.num := h
    omega
  unfold Block.id
  rw [stateAt, if_neg hne]

theorem stateAt_path :
    ∀ {blocks : List Block} {a b : BlockId}, Path a blocks b → start.headBlockNum ≤ a.num →
      stateAt exec start b = (stateAt exec start a).bind (replay exec · blocks)
  | [], a, b, hpath, _ => by
    obtain rfl : a = b := hpath
    cases stateAt exec start a <;> rfl
  | x :: xs, a, b, hpath, hnum => by
    obtain ⟨rfl, hrest⟩ := hpath
    have hx : start.headBlockNum ≤ x.id.num := by
      show start.headBlockNum ≤ x.previous.num + 1
      omega
    rw [stateAt_path hrest hx, stateAt_block hnum, bind_assoc]
    rfl

end DeltaChain.Fork

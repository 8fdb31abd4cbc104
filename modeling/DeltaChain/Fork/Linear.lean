import DeltaChain.Fork.Moves
import DeltaChain.Lib.Run

/-!
# The chain state is the replay of one branch

Fork switches pop, re-apply and restore, but the state they end in depends on
the head block alone: it is the start state with the blocks on the path to the
head applied once each (`pushAll_replay`).
-/

namespace DeltaChain.Fork

open Lib

theorem path_concat {x : Block} :
    ∀ {blocks : List Block} {a b : BlockId}, Path a blocks b → x.previous = b →
      Path a (blocks ++ [x]) x.id
  | [], a, b, h, hx => ⟨hx.trans (show a = b from h).symm, rfl⟩
  | _ :: _, _, _, h, hx => ⟨h.1, path_concat h.2 hx⟩

theorem path_of_atNum {n : Nat} {a : BlockId} :
    ∀ {id : BlockId}, id.atNum n = a → ∃ blocks, Path a blocks id
  | .zero, h => ⟨[], h.symm⟩
  | .unknown _ _, h => ⟨[], h.symm⟩
  | .ofBlock p t, h => by
    rw [BlockId.atNum] at h
    split at h
    · exact ⟨[], h.symm⟩
    · obtain ⟨blocks, hpath⟩ := path_of_atNum h
      exact ⟨blocks ++ [⟨p, t⟩], path_concat hpath rfl⟩

namespace Database

variable {ρ : Type} {exec : Exec ρ} {start : ChainState ρ} {db db' : Database ρ}

/-- A call of `push_block` that returns. -/
def pushReturns (exec : Exec ρ) (db : Database ρ) (b : Block) : Option (Database ρ) :=
  match db.pushBlock exec b with
  | .ok _ s => some s
  | .error _ _ => none

theorem pushReturns_moves {b : Block} (hf : db.forkDb.WF) (h : pushReturns exec db b = some db') :
    Moves exec db db' := by
  have hmoves : Moves exec db (after (db.pushBlock exec b)) := pushBlock_moves hf b
  unfold pushReturns at h
  split at h
  · next s heq =>
    cases h
    rw [heq] at hmoves
    exact hmoves
  · cases h

theorem pushAll_moves {blocks : List Block} (hinv : db.Inv exec start)
    (h : Run.exec (pushReturns exec) db blocks = some db') : Moves exec db db' := by
  refine Run.exec_induct (fun d => Moves exec db d) ?_ (Moves.refl hinv.fork) h
  intro d b d' hd hstep
  exact hd.trans (pushReturns_moves hd.2 hstep)

/-- From every reachable state, after every sequence of `push_block` calls that
return: the state at the head is the start state with the blocks on any path from
the start head to the head applied in order. Where no block of the start state
can be undone, there is such a path. -/
theorem pushAll_replay {blocks : List Block} (hreach : Reachable exec start db)
    (hrun : Run.exec (pushReturns exec) db blocks = some db') :
    (∀ path, Path db.headBlockId path db'.headBlockId →
      replay exec db.chain.cur path = some db'.chain.cur) ∧
    (depth db.chain = 0 → ∃ path, Path db.headBlockId path db'.headBlockId) := by
  have hinv := reachable_inv hreach
  have hmoves := pushAll_moves hinv hrun
  refine ⟨fun path hpath => ?_, fun hdepth => ?_⟩
  · -- both states are the ones their branches prescribe
    have hstate : stateAt exec start db'.headBlockId =
        (stateAt exec start db.headBlockId).bind (replay exec · path) :=
      stateAt_path hpath (stateAt_num_le hinv.history.cur)
    rw [show stateAt exec start db.headBlockId = some db.chain.cur from hinv.history.cur,
      Option.bind_some] at hstate
    rw [← hstate]
    exact (hmoves.inv hinv).history.cur
  · have hroot : Rooted db.headBlockNum (db.headBlockId.atNum db.headBlockNum) db.chain :=
      rooted_self hinv.history (by omega)
    obtain ⟨-, hat⟩ := hmoves.rooted hinv hroot db'.chain.cur (Or.inl rfl)
    rw [BlockId.atNum_of_le (show db.headBlockId.num ≤ db.headBlockNum from le_refl _)] at hat
    exact path_of_atNum hat

/-- Block 1, two blocks 2 on it, and a block 3 on the second of these. -/
def sampleBranches : List Block :=
  let one : Block := ⟨.zero, 1⟩
  let two : Block := ⟨one.id, 2⟩
  [one, ⟨one.id, 1⟩, two, ⟨two.id, 3⟩]

theorem pushAll_replay_switch :
    ∃ db', Run.exec (pushReturns sampleExec) sampleOpened sampleBranches = some db' ∧
      replay sampleExec sampleGenesis
        [⟨.zero, 1⟩, ⟨.ofBlock .zero 1, 2⟩, ⟨.ofBlock (.ofBlock .zero 1) 2, 3⟩] =
          some db'.chain.cur := by
  have hhead : (Run.exec (pushReturns sampleExec) sampleOpened sampleBranches).map
      (·.headBlockId) = some (.ofBlock (.ofBlock (.ofBlock .zero 1) 2) 3) := by decide +kernel
  obtain ⟨db', hrun, hid⟩ := Option.map_eq_some_iff.mp hhead
  refine ⟨db', hrun, (pushAll_replay sampleOpened_reachable hrun).1 _ ?_⟩
  rw [hid]
  exact ⟨rfl, rfl, rfl, rfl⟩

end Database

end DeltaChain.Fork

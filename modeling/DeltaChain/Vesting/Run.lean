import DeltaChain.Vesting.Books
import DeltaChain.Voting.Ballots

/-!
# Vesting, run by run

Along every run of `transfer_to_vesting`, `withdraw_vesting`, `set_withdraw_vesting_route` and
`process_vesting_withdrawals` the shares of all accounts are the total, and the supply is what
`validate_invariants` counts (`vesting_conserves`).

`validate_invariants` does not compare the shares with the total directly: it adds up the votes
of the accounts that vote themselves and those that have reached the end of a chain of proxies.
When the votes are tallied, that is the sum of the shares (`sum_vsfVotes`).
-/

namespace DeltaChain.Vesting

open Lib Protocol Ledger Ledger.Database
open Voting Checked

variable {db db' start : Database}

-- # The votes and the shares

/-- **The votes add up to the shares.** -/
theorem sum_vsfVotes (ht : Tallied db.polls) :
    db.accounts.sum (fun _ a => vsfVotes a) = db.accounts.sum fun _ a => a.vestingShares := by
  have harrived := Forest.sum_arrived (w := db.polls.shares)
    (fun a _ q hq => (ht.voter a q hq).2) maxProxyRecursionDepth
  rw [Table.sum_eq_sum_keys db.accounts _ db.polls.shares fun name a ha => polls_shares ha]
  refine (Table.sum_eq_sum_keys db.accounts _ _ fun name a ha => ?_).trans harrived
  have hmem := mem_voters.mpr ⟨a, ha⟩
  unfold vsfVotes
  rw [polls_proxy ha, ← ht.weight_eq hmem, polls_weight ha, ← polls_proxied ha]
  refine (if_congr ?_ rfl (ht.proxied name hmem (Fin.last (maxProxyRecursionDepth - 1)))).symm
  unfold Account.proxy?
  split
  · next hself => simp [hself]
  · next hself => simp [hself]

-- # Runs

/-- What happens to shares. Between blocks the time moves on. -/
inductive Event where
  | transferToVesting (fromAccount toAccount : AccountName) (amount : Asset)
  | withdrawVesting (account : AccountName) (vestingShares : Int)
  | setWithdrawVestingRoute (fromAccount toAccount : AccountName) (percent : Nat) (autoVest : Bool)
  | processVestingWithdrawals
  | nextBlock (time : Nat)

def step (db : Database) : Event → Checked Database
  | .transferToVesting fromAccount toAccount amount =>
    db.transferToVesting fromAccount toAccount amount
  | .withdrawVesting account vestingShares => db.withdrawVesting account vestingShares
  | .setWithdrawVestingRoute fromAccount toAccount percent autoVest =>
    db.setWithdrawVestingRoute fromAccount toAccount percent autoVest
  | .processVestingWithdrawals => db.processVestingWithdrawals
  | .nextBlock time => return db.modifyProps fun g => { g with time := time }

theorem step_books {e : Event} (h : step db e = .ok db') : Books 0 db db' := by
  cases e with
  | transferToVesting fromAccount toAccount amount => exact transferToVesting_books h
  | withdrawVesting account vestingShares => exact withdrawVesting_books h
  | setWithdrawVestingRoute fromAccount toAccount percent autoVest =>
    exact setWithdrawVestingRoute_books h
  | processVestingWithdrawals => exact payVestingWithdrawals_books h
  | nextBlock time =>
    cases h
    exact (Books.modifyProps _).congr (sub_self _)

theorem run_books {events : List Event}
    (h : Run.exec (Run.checked step) start events = some db) : Books 0 start db := by
  refine Run.checked_induct (Books 0 start) (fun db e db' hb hstep => ?_) Books.refl h
  exact (hb.trans (step_books hstep)).congr (add_zero _)

theorem shares_gap (db : Database) :
    db.props.totalVestingShares - db.accounts.sum (fun _ a => a.vestingShares) =
      db.imbalance .shares + db.outside .shares := by
  unfold imbalance
  rw [holdings_eq]
  simp only [Pi.sub_apply, Pi.add_apply, sum_apply, GlobalProperties.owes, Account.holds]
  ring

/-- **Vesting makes and destroys nothing.** From every state in which `validate_invariants`
passes and the votes are tallied, along every run: the total of the shares is the sum of the
shares of all accounts, and the supply is the sum of what accounts, orders and funds hold. -/
theorem vesting_conserves (start : Database) (events : List Event)
    (hstart : start.validateInvariants = .ok ()) (hvotes : Tallied start.polls)
    (h : Run.exec (Run.checked step) start events = some db) :
    db.props.totalVestingShares = db.accounts.sum (fun _ a => a.vestingShares) ∧
    db.props.currentSupply = db.totalSupply := by
  simp only [validateInvariants, eq_ok] at hstart
  obtain ⟨-, -, -, -, hsupply, -, -, htotal, -⟩ := hstart
  rw [sum_vsfVotes hvotes] at htotal
  have hb := run_books h
  have hshares := congrFun hb.imbalance .shares
  have hdelta := congrFun hb.imbalance .delta
  have houtside := congrFun hb.outside .shares
  have hgap := shares_gap start
  have hgap' := shares_gap db
  rw [imbalance_delta] at hdelta
  rw [Pi.add_apply, Pi.zero_apply, add_zero] at hshares
  rw [Pi.add_apply, Pi.zero_apply, add_zero, imbalance_delta] at hdelta
  exact ⟨by omega, by omega⟩

/-- Shares are made and powered down, half of them over a route that keeps them shares. -/
theorem vesting_conserves_routed : ∃ db, Run.exec (Run.checked step) (genesis 1000)
      [.transferToVesting initMinerName "" ⟨500, .delta⟩,
        .setWithdrawVestingRoute initMinerName tempAccount 5000 true,
        .setWithdrawVestingRoute initMinerName initMinerName 2500 false,
        .withdrawVesting initMinerName 260000,
        .nextBlock (genesisTime + vestingWithdrawIntervalSeconds),
        .processVestingWithdrawals] = some db ∧
    db.props.totalVestingShares = db.accounts.sum (fun _ a => a.vestingShares) ∧
    db.props.currentSupply = db.totalSupply := by
  have hstart : (genesis 1000).validateInvariants = .ok () := by decide +kernel
  refine Run.exists_end (P := fun _ => True) (by decide +kernel) fun _ h _ => ?_
  exact vesting_conserves (genesis 1000) _ hstart (genesis_sound 1000).tallied h

end DeltaChain.Vesting

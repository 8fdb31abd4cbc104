import DeltaChain.Ledger.Vesting

/-!
# What a payment of a power-down can stop with

`payMessages` are the messages of the assertions that such a payment meets on its way, besides the
one on the sum of its deposits. A computation that is made of them stops with no other message.
-/

namespace DeltaChain.Ledger.Database

open Lib Protocol Checked Avoids

/-- The assertions of accounts, prices, products and votes. -/
def payMessages : List String :=
  ["unknown key", "divide by zero", "hi == 0", "base.amount > share_type(0)",
    "quote.amount > share_type(0)", "base.symbol != quote.symbol", "b.base.amount.value > 0",
    "b.quote.amount.value > 0", "result.hi == 0", "invalid asset * price",
    "w.votes <= total_vesting_shares.amount", "Division by zero."]

/-- What a payment that deposits too much stops with. -/
def depositedMore : String := "Deposited more vests than were supposed to be withdrawn"

variable {msg : String} {db : Database} {name : AccountName}
  {e : AccountName × WithdrawVestingRoute} {toWithdraw : Int} {s : Database × Int} {m : String}
  {δ : Int} (hm : msg ∉ payMessages)

include hm

theorem ne_of_payMessage (hmem : m ∈ payMessages) : m ≠ msg := by
  rintro rfl
  exact hm hmem

theorem assert_avoids {p : Prop} [Decidable p] (hmem : m ∈ payMessages) : Avoids msg (assert p m) :=
  assert_iff.mpr fun h => absurd h (ne_of_payMessage hm hmem)

theorem getAccount_avoids : Avoids msg (db.getAccount name) :=
  get_iff.mpr fun h => absurd h (ne_of_payMessage hm (by decide))

theorem make_avoids {base quote : Asset} : Avoids msg (Price.make base quote) := by
  simp only [Price.make, Price.validate, bind_iff, pure, implies_true, and_true]
  exact ⟨assert_avoids hm (by decide), fun _ _ =>
    ⟨assert_avoids hm (by decide), fun _ _ => assert_avoids hm (by decide)⟩⟩

theorem mulDiv_avoids {amount num den : Int}
    (hmem : m ∈ payMessages) : Avoids msg (mulDiv amount num den m) := by
  simp only [mulDiv, bind_iff, pure, implies_true, and_true]
  exact ⟨assert_avoids hm hmem, fun _ _ => assert_avoids hm (by decide)⟩

theorem mul_avoids {x : Asset} {p : Price} : Avoids msg (x.mul p) := by
  unfold AssetOf.mul
  split
  · exact bind_iff.mpr ⟨mulDiv_avoids hm (by decide), fun _ _ => pure _⟩
  · split
    · exact bind_iff.mpr ⟨mulDiv_avoids hm (by decide), fun _ _ => pure _⟩
    · exact error_iff.mpr (ne_of_payMessage hm (by decide))

theorem vestingSharePrice_avoids {g : GlobalProperties} : Avoids msg g.vestingSharePrice := by
  unfold GlobalProperties.vestingSharePrice
  split <;> exact make_avoids hm

theorem adjustWitnessVotes_avoids : Avoids msg (db.adjustWitnessVotes name δ) := by
  refine Avoids.foldlM (fun _ _ => True) (fun w _ db _ => ?_) (fun _ _ _ _ _ _ => trivial) trivial
  simp only [adjustWitnessVote, bind_iff, pure, implies_true, and_true]
  exact ⟨get_iff.mpr fun h => absurd h (ne_of_payMessage hm (by decide)), fun _ _ =>
    ⟨assert_avoids hm (by decide), fun _ _ => assert_avoids hm (by decide)⟩⟩

theorem adjustProxiedWitnessVotes1_avoids : Avoids msg (db.adjustProxiedWitnessVotes1 name δ) := by
  unfold adjustProxiedWitnessVotes1
  generalize maxProxyRecursionDepth = levels
  induction levels generalizing db name with
  | zero =>
    refine bind_iff.mpr ⟨getAccount_avoids hm, fun a _ => ?_⟩
    split
    · exact pure _
    · exact adjustWitnessVotes_avoids hm
  | succ levels ih =>
    refine bind_iff.mpr ⟨getAccount_avoids hm, fun a _ => ?_⟩
    split
    · exact bind_iff.mpr ⟨getAccount_avoids hm, fun _ _ => ih⟩
    · exact adjustWitnessVotes_avoids hm

theorem routed_avoids {route : WithdrawVestingRoute} : Avoids msg (routed toWithdraw route) :=
  bind_iff.mpr ⟨assert_avoids hm (by decide), fun _ _ => pure _⟩

theorem depositVests_avoids : Avoids msg (depositVests toWithdraw s e) := by
  unfold depositVests
  split
  · refine bind_iff.mpr ⟨routed_avoids hm, fun d _ => ?_⟩
    split
    · exact bind_iff.mpr ⟨getAccount_avoids hm, fun _ _ =>
        bind_iff.mpr ⟨adjustProxiedWitnessVotes1_avoids hm, fun _ _ => pure _⟩⟩
    · exact pure _
  · exact pure _

theorem depositDelta_avoids : Avoids msg (depositDelta toWithdraw s e) := by
  unfold depositDelta
  split
  · exact pure _
  · simp only [bind_iff]
    refine ⟨getAccount_avoids hm, fun _ _ => ⟨routed_avoids hm, fun d _ =>
      ⟨vestingSharePrice_avoids hm, fun _ _ => ⟨mul_avoids hm, fun _ _ => ?_⟩⟩⟩⟩
    split <;> exact pure _

/-- What a payment deposits over the routes is no more than what is withdrawn. -/
def DepositsFit (db : Database) (name : AccountName) : Prop :=
  ∀ a toWithdraw s s', db.accounts.find? name = some a → toWithdrawNow a = .ok toWithdraw →
    (db.routesFrom name).foldlM (depositVests toWithdraw) (db, 0) = .ok s →
    (db.routesFrom name).foldlM (depositDelta toWithdraw) (s.1, 0) = .ok s' →
    toWithdraw - s'.2 - s.2 ≥ 0

/-- **A payment** stops with one of these messages, or because it deposits too much. -/
theorem payVestingWithdrawal_avoids (hfit : msg = depositedMore → DepositsFit db name) :
    Avoids msg (db.payVestingWithdrawal name) := by
  have hnow : ∀ a, Avoids msg (toWithdrawNow a) := by
    intro a
    unfold toWithdrawNow
    split
    · exact bind_iff.mpr ⟨assert_avoids hm (by decide), fun _ _ => pure _⟩
    · exact pure _
  have hvests : ∀ x s (l : List (AccountName × WithdrawVestingRoute)),
      Avoids msg (l.foldlM (depositVests x) s) := fun _ _ _ =>
    Avoids.foldlM (fun _ _ => True) (fun _ _ _ _ => depositVests_avoids hm)
      (fun _ _ _ _ _ _ => trivial) trivial
  have hdelta : ∀ x s (l : List (AccountName × WithdrawVestingRoute)),
      Avoids msg (l.foldlM (depositDelta x) s) := fun _ _ _ =>
    Avoids.foldlM (fun _ _ => True) (fun _ _ _ _ => depositDelta_avoids hm)
      (fun _ _ _ _ _ _ => trivial) trivial
  simp only [payVestingWithdrawal, bind_iff]
  refine ⟨getAccount_avoids hm, fun a ha => ⟨hnow a, fun x hx => ⟨hvests _ _ _, fun s hs =>
    ⟨hdelta _ _ _, fun s' hs' => ⟨?_, fun _ _ => ⟨vestingSharePrice_avoids hm, fun _ _ =>
      ⟨mul_avoids hm, fun _ _ => ?_⟩⟩⟩⟩⟩⟩⟩
  · rw [assert_iff]
    intro hmsg
    exact hfit hmsg.symm a x s s' (getAccount_eq_ok.mp ha) hx hs hs'
  · split
    · exact adjustProxiedWitnessVotes1_avoids hm
    · exact pure _

end DeltaChain.Ledger.Database

import DeltaChain.Lib.Trace
import DeltaChain.Delegation.Run
import DeltaChain.Withdrawals.Routes

/-!
# Power-downs, run by run

Runs of `withdraw_vesting`, `set_withdraw_vesting_route` and `process_vesting_withdrawals`, with
everything else that happens to a chain as one event that leaves routes and power-downs alone and
keeps the accounts covered. The state carries a log of the payments.

`Kept` is what holds along all runs, and `Since` what holds of a power-down from the operation that
started it on: after `n` payments it has paid `n` times its weekly rate, but no more than asked for.
-/

namespace DeltaChain.Withdrawals

open Lib Protocol Ledger Ledger.Database Checked List Option Table
open Delegation

variable {db db' : Database} {name : AccountName} {a a' : Account}

-- # Accounts

/-- The undelegated shares of an account cover what is outstanding. -/
def Covered (a : Account) : Prop :=
  0 ≤ a.delegatedVestingShares ∧ a.delegatedVestingShares + outstanding a ≤ a.vestingShares

instance (a : Account) : Decidable (Covered a) := inferInstanceAs (Decidable (_ ∧ _))

/-- An account that has not powered down yet. -/
def AtRest (a : Account) : Prop :=
  a.withdrawRoutes = 0 ∧ a.nextVestingWithdrawal = timePointSecMaximum ∧ a.withdrawn = 0 ∧
    a.toWithdraw = 0

instance (a : Account) : Decidable (AtRest a) := inferInstanceAs (Decidable (_ ∧ _ ∧ _ ∧ _))

/-- Routes and power-down are the same. -/
def SamePowerDown (a a' : Account) : Prop :=
  a'.withdrawRoutes = a.withdrawRoutes ∧ a'.vestingWithdrawRate = a.vestingWithdrawRate ∧
    a'.nextVestingWithdrawal = a.nextVestingWithdrawal ∧ a'.withdrawn = a.withdrawn ∧
    a'.toWithdraw = a.toWithdraw

instance (a a' : Account) : Decidable (SamePowerDown a a') :=
  inferInstanceAs (Decidable (_ ∧ _ ∧ _ ∧ _ ∧ _))

/-- An account whose power-down is in order. -/
structure Orderly (a : Account) : Prop where
  backed : Backed a
  lent : 0 ≤ a.delegatedVestingShares
  idle : a.nextVestingWithdrawal = timePointSecMaximum → a.withdrawn = a.toWithdraw

namespace Orderly

theorem grown (h : Orderly a) (hg : Grown a a') : Orderly a' where
  backed := h.backed.grown hg
  lent := by
    rw [hg.delegated]
    exact h.lent
  idle hnext := by
    rw [hg.withdrawn, hg.toWithdraw]
    exact h.idle (hg.next ▸ hnext)

theorem atRest (hrest : AtRest a) (hcovered : Covered a) : Orderly a := by
  obtain ⟨-, hnext, hwithdrawn, htoWithdraw⟩ := hrest
  exact ⟨⟨fun hgoes => absurd hnext hgoes, hcovered.2⟩, hcovered.1,
    fun _ => hwithdrawn.trans htoWithdraw.symm⟩

theorem same (h : Orderly a) (hsame : SamePowerDown a a') (hcovered : Covered a') : Orderly a' := by
  obtain ⟨-, hrate, hnext, hwithdrawn, htoWithdraw⟩ := hsame
  refine ⟨⟨fun hgoes => ?_, hcovered.2⟩, hcovered.1, fun hstops => ?_⟩
  · rw [hnext] at hgoes
    obtain ⟨hdue, hpos, hrounds, hnonneg, hlt⟩ := h.backed.powerDown hgoes
    exact ⟨by rwa [hnext], by rwa [hrate], by rwa [hrate, hwithdrawn], by rwa [hwithdrawn],
      by rwa [hwithdrawn, htoWithdraw]⟩
  · rw [hwithdrawn, htoWithdraw]
    exact h.idle (hnext ▸ hstops)

/-- **This week's payment.** -/
theorem toWithdrawNow_eq (h : Orderly a) (hgoes : a.nextVestingWithdrawal ≠ timePointSecMaximum) :
    toWithdrawNow a = .ok (min a.vestingWithdrawRate (a.toWithdraw - a.withdrawn)) := by
  have hrate := (h.backed.powerDown hgoes).rate_pos
  have hsome : ∃ x, toWithdrawNow a = .ok x := by
    unfold toWithdrawNow
    split
    · refine ⟨_, bind_eq_ok.mpr ⟨(), assert_eq_ok.mpr ?_, rfl⟩⟩
      omega
    · exact ⟨_, rfl⟩
  obtain ⟨x, hx⟩ := hsome
  rw [hx, h.backed.toWithdrawNow_eq h.lent hgoes hx]

theorem paid_nonneg (h : Orderly a) (hgoes : a.nextVestingWithdrawal ≠ timePointSecMaximum) {x : Int}
    (hx : toWithdrawNow a = .ok x) : 0 ≤ x := by
  obtain ⟨-, hrate, -, -, hlt⟩ := h.backed.powerDown hgoes
  rw [h.backed.toWithdrawNow_eq h.lent hgoes hx]
  omega

theorem paidOut (h : Orderly a)
    (hnext : a.nextVestingWithdrawal + vestingWithdrawIntervalSeconds < timePointSecMaximum)
    (hg : Grown a a') {paid : Int} (hpaid : toWithdrawNow a = .ok paid) (converted : Int) :
    Orderly (Database.paidOut a' paid converted) := by
  have hgoes : a.nextVestingWithdrawal ≠ timePointSecMaximum := by omega
  refine ⟨h.backed.paidOut h.lent hnext hg hpaid converted, ?_, fun hstops => ?_⟩
  · exact (hg.delegated.trans_ge h.lent)
  · have hamount := h.backed.toWithdrawNow_eq h.lent hgoes hpaid
    have henough := h.backed.enough
    rw [outstanding, if_pos hgoes] at henough
    have hlent := h.lent
    obtain ⟨hshares, -, -, hrate', hnext', hwithdrawn, htoWithdraw⟩ := hg
    by_cases hdone : a'.withdrawn + paid ≥ a'.toWithdraw ∨ a'.vestingShares - paid = 0
    · -- the last of the shares are the last of the power-down
      simp only [Database.paidOut]
      omega
    · simp only [Database.paidOut, if_neg hdone] at hstops
      omega

end Orderly

-- # Steps

/-- The state, and the payments of all power-downs so far. -/
structure State where
  db : Database
  paid : List (AccountName × Int)

/-- What else may happen: routes and power-downs stay as they are, new accounts have none, all
accounts are covered, and the clock is not yet in the last week that it can show. -/
def Others (db db' : Database) : Prop :=
  db'.withdrawVestingRoutes.entries = db.withdrawVestingRoutes.entries ∧
    db'.headBlockTime + vestingWithdrawIntervalSeconds < timePointSecMaximum ∧
    (∀ e ∈ db.accounts.entries, (db'.accounts.find? e.1).isSome) ∧
    ∀ e ∈ db'.accounts.entries, Covered e.2 ∧
      match db.accounts.find? e.1 with
      | some a => SamePowerDown a e.2
      | none => AtRest e.2

instance (a' : Account) : (o : Option Account) → Decidable (match o with
    | some a => SamePowerDown a a'
    | none => AtRest a')
  | some a => inferInstanceAs (Decidable (SamePowerDown a a'))
  | none => inferInstanceAs (Decidable (AtRest a'))

instance (db db' : Database) : Decidable (Others db db') :=
  inferInstanceAs (Decidable (_ ∧ _ ∧ _ ∧ _))

/-- The three ways to change a power-down or its routes, and everything else. -/
inductive Event where
  | withdrawVesting (account : AccountName) (vestingShares : Int)
  | setWithdrawVestingRoute (fromAccount toAccount : AccountName) (percent : Nat) (autoVest : Bool)
  | processVestingWithdrawals
  | others (db : Database)

def step (s : State) : Event → Checked State
  | .withdrawVesting account vestingShares => do
    let db ← s.db.withdrawVesting account vestingShares
    return { s with db }
  | .setWithdrawVestingRoute fromAccount toAccount percent autoVest => do
    let db ← s.db.setWithdrawVestingRoute fromAccount toAccount percent autoVest
    return { s with db }
  | .processVestingWithdrawals => do
    let db ← s.db.processVestingWithdrawals
    return { db, paid := s.paid ++ (payments s.db).map fun r => (r.2, amountOf r) }
  | .others db => do
    assert (Others s.db db) "others"
    return { s with db }

-- # What holds along all runs

/-- Routes and power-downs are in order. -/
structure Kept (db : Database) : Prop where
  routes : RoutesKept db
  orderly : ∀ name a, db.accounts.find? name = some a → Orderly a
  clock : db.headBlockTime + vestingWithdrawIntervalSeconds < timePointSecMaximum

theorem Kept.gains (hk : Kept db) (hg : Gains db db') (hroutes : RoutesKept db') : Kept db' where
  routes := hroutes
  orderly name a' ha' := by
    obtain ⟨a, ha, hgrown⟩ := hg.find_back ha'
    exact (hk.orderly name a ha).grown hgrown
  clock := by
    rw [hg.time]
    exact hk.clock

theorem Kept.modifyAccount {f : Account → Account} (hk : Kept db)
    (ha : db.accounts.find? name = some a) (hf : Orderly (f a))
    (hroutes : ∀ a, (f a).withdrawRoutes = a.withdrawRoutes) : Kept (db.modifyAccount name f) where
  routes := hk.routes.same (.modifyAccount hroutes)
  orderly n b hb := by
    rw [Database.modifyAccount, find?_modify] at hb
    split at hb
    · next hn =>
      rw [hn, ha, map_some, Option.some.injEq] at hb
      exact hb ▸ hf
    · exact hk.orderly n b hb
  clock := hk.clock

def weeklyRate (vestingShares : Int) : Int :=
  let rate := vestingShares.tdiv vestingWithdrawIntervals
  if rate = 0 then 1 else rate

theorem weeklyRate_pos {x : Int} (hx : 0 ≤ x) : 0 < weeklyRate x := by
  have hrate : 0 ≤ x.tdiv vestingWithdrawIntervals := Int.tdiv_nonneg hx (by decide)
  unfold weeklyRate
  dsimp only
  split <;> omega

/-- What `withdraw_vesting` leaves of an account. -/
def poweringDown (a : Account) (vestingShares : Int) (next : Nat) : Account :=
  { a with
    vestingWithdrawRate := if vestingShares = 0 then 0 else weeklyRate vestingShares
    nextVestingWithdrawal := if vestingShares = 0 then timePointSecMaximum else next
    toWithdraw := vestingShares
    withdrawn := 0 }

theorem withdrawVesting_eq {vestingShares : Int}
    (h : db.withdrawVesting name vestingShares = .ok db') :
    ∃ a, db.accounts.find? name = some a ∧ 0 ≤ vestingShares ∧
      vestingShares ≤ a.vestingShares - a.delegatedVestingShares ∧
      db' = db.modifyAccount name fun a =>
        poweringDown a vestingShares (db.headBlockTime + vestingWithdrawIntervalSeconds) := by
  simp only [withdrawVesting, eq_ok, getAccount_eq_ok] at h
  obtain ⟨a, ha, hnonneg, -, henough, h⟩ := h
  refine ⟨a, ha, by omega, henough, ?_⟩
  unfold poweringDown
  split at h
  · next hzero =>
    simp only [eq_ok] at h
    obtain ⟨-, rfl⟩ := h
    simp only [hzero, if_true]
  · next hsome =>
    simp only [eq_ok] at h
    obtain ⟨-, rfl⟩ := h
    simp only [if_neg hsome]
    rfl

theorem Orderly.poweringDown (h : Orderly a) {x : Int} {next : Nat} (hx : 0 ≤ x)
    (hnext : next < timePointSecMaximum) (henough : x ≤ a.vestingShares - a.delegatedVestingShares) :
    Orderly (poweringDown a x next) := by
  have hrate := weeklyRate_pos hx
  unfold Withdrawals.poweringDown
  by_cases hzero : x = 0
  · simp only [if_pos hzero]
    refine ⟨⟨fun hgoes => absurd rfl hgoes, ?_⟩, h.lent, fun _ => hzero.symm⟩
    simp only [outstanding, ne_eq, not_true_eq_false, if_false]
    omega
  · simp only [if_neg hzero]
    refine ⟨⟨fun _ => ⟨hnext, hrate, dvd_zero _, le_rfl, ?_⟩, ?_⟩, h.lent, fun hstops => ?_⟩
    · dsimp only
      omega
    · simp only [outstanding, if_pos hnext.ne]
      omega
    · exact absurd hstops hnext.ne

theorem withdrawVesting_kept {vestingShares : Int} (hk : Kept db)
    (h : db.withdrawVesting name vestingShares = .ok db') : Kept db' := by
  obtain ⟨a, ha, hnonneg, henough, rfl⟩ := withdrawVesting_eq h
  exact hk.modifyAccount ha ((hk.orderly name a ha).poweringDown hnonneg hk.clock henough)
    fun _ => rfl

theorem payVestingWithdrawal_kept (hk : Kept db) (hdue : Due db name)
    (h : db.payVestingWithdrawal name = .ok db') : Kept db' := by
  have hroutes := hk.routes.same (payVestingWithdrawal_sameRoutes h)
  obtain ⟨a, ha, hnext⟩ := hdue
  obtain ⟨b, paid, converted, db₁, hb, hpaid, hfirst, hvotes⟩ := payVestingWithdrawal_gains h
  obtain rfl : a = b := mem_unique ha hb
  have hclock := hk.clock
  refine ⟨hroutes, fun n b' hb' => ?_, by rwa [payVestingWithdrawal_time h]⟩
  obtain ⟨b₂, hb₂, hgrown₂⟩ := hvotes.find_back hb'
  refine Orderly.grown ?_ hgrown₂
  rw [Database.modifyAccount, find?_modify] at hb₂
  split at hb₂
  · next hn =>
    subst hn
    obtain ⟨b₁, hb₁, rfl⟩ := map_eq_some_iff.mp hb₂
    obtain ⟨c, hc, hgrown⟩ := hfirst.find_back hb₁
    obtain rfl : a = c := mem_unique ha hc
    exact (hk.orderly n a ha).paidOut (by omega) hgrown hpaid converted
  · obtain ⟨b₁, hb₁, hgrown⟩ := hfirst.find_back hb₂
    exact (hk.orderly n b₁ hb₁).grown hgrown

theorem processVestingWithdrawals_kept (hk : Kept db)
    (h : db.processVestingWithdrawals = .ok db') : Kept db' :=
  process_induct (fun _ db => Kept db)
    (fun _ _ _ _ hk hdue hpay => payVestingWithdrawal_kept hk hdue hpay) hk h

/-- The routes do not see what else happens. -/
theorem RoutesKept.others (hs : RoutesKept db) (ho : Others db db') : RoutesKept db' := by
  obtain ⟨hentries, -, hstay, hnow⟩ := ho
  have hfrom : ∀ name, db'.routesFrom name = db.routesFrom name := by
    intro name
    rw [routesFrom, routesFrom, hentries]
  have hfind : ∀ k, db'.withdrawVestingRoutes.find? k = db.withdrawVestingRoutes.find? k := by
    intro k
    rw [Table.find?, Table.find?, hentries]
  have hsome : ∀ name, (db.accounts.find? name).isSome → (db'.accounts.find? name).isSome := by
    intro name hname
    obtain ⟨a, ha⟩ := isSome_iff_exists.mp hname
    exact hstay (name, a) (mem_entries_iff.mpr ha)
  refine ⟨fun name => ?_, fun name a ha => ?_, fun k r hr => ?_⟩
  · rw [totalPercent, hfrom]
    exact hs.percent name
  · obtain ⟨-, hsame⟩ := hnow (name, a) (mem_entries_iff.mpr ha)
    rw [hfrom]
    split at hsame
    · next b hb =>
      rw [hsame.1]
      exact hs.number name b hb
    · next hnone =>
      -- nobody has a route before it has an account
      have hempty : db.routesFrom name = [] := by
        rw [eq_nil_iff_forall_not_mem]
        intro e he
        have hknown := (hs.known (name, e.1) e.2 (mem_routesFrom.mp he)).1
        rw [hnone] at hknown
        cases hknown
      rw [hempty, hsame.1]
      exact ⟨rfl, Nat.zero_le _⟩
  · rw [hfind] at hr
    exact ⟨hsome _ (hs.known k r hr).1, hsome _ (hs.known k r hr).2⟩

theorem Kept.others (hk : Kept db) (ho : Others db db') : Kept db' := by
  refine ⟨hk.routes.others ho, fun name a ha => ?_, ho.2.1⟩
  obtain ⟨hcovered, hsame⟩ := ho.2.2.2 (name, a) (mem_entries_iff.mpr ha)
  split at hsame
  · next b hb => exact (hk.orderly name b hb).same hsame hcovered
  · exact .atRest hsame hcovered

/-- **Every step keeps routes and power-downs in order.** -/
theorem step_kept {s s' : State} {e : Event} (hk : Kept s.db) (h : step s e = .ok s') :
    Kept s'.db := by
  cases e with
  | withdrawVesting account vestingShares =>
    simp only [step, eq_ok] at h
    obtain ⟨db, hdb, rfl⟩ := h
    exact withdrawVesting_kept hk hdb
  | setWithdrawVestingRoute fromAccount toAccount percent autoVest =>
    simp only [step, eq_ok] at h
    obtain ⟨db, hdb, rfl⟩ := h
    exact hk.gains (setWithdrawVestingRoute_gains hdb) (setWithdrawVestingRoute_kept hk.routes hdb)
  | processVestingWithdrawals =>
    simp only [step, eq_ok] at h
    obtain ⟨db, hdb, rfl⟩ := h
    exact processVestingWithdrawals_kept hk hdb
  | others db =>
    simp only [step, eq_ok] at h
    obtain ⟨ho, rfl⟩ := h
    exact hk.others ho

/-- **No payment deposits more than it withdraws.** -/
theorem Kept.avoids (hk : Kept db) (hdue : Due db name) :
    Avoids depositedMore (db.payVestingWithdrawal name) := by
  refine payVestingWithdrawal_avoids (by decide) fun _ => ?_
  refine hk.routes.depositsFit fun a x ha hx => ?_
  obtain ⟨b, hb, hnext⟩ := hdue
  obtain rfl : a = b := mem_unique ha hb
  have hclock := hk.clock
  exact (hk.orderly name a ha).paid_nonneg (by omega) hx

-- # One power-down from its start on

def timesPaid (name : AccountName) (log : List (AccountName × Int)) : Nat :=
  log.countP fun e => e.1 = name

def paidTo (name : AccountName) (log : List (AccountName × Int)) : Int :=
  (log.map fun e => if e.1 = name then e.2 else 0).sum

theorem timesPaid_concat (name other : AccountName) (log : List (AccountName × Int)) (x : Int) :
    timesPaid name (log ++ [(other, x)]) = timesPaid name log + if other = name then 1 else 0 := by
  unfold timesPaid
  rw [countP_append, countP_singleton]
  simp only [decide_eq_true_eq]

theorem paidTo_concat (name other : AccountName) (log : List (AccountName × Int)) (x : Int) :
    paidTo name (log ++ [(other, x)]) = paidTo name log + if other = name then x else 0 := by
  unfold paidTo
  rw [map_append, sum_append, map_singleton, sum_singleton]

/-- A power-down of `amount` that has been paid `n` times since the log was `before`. -/
structure Since (name : AccountName) (amount : Int) (before : List (AccountName × Int)) (s : State)
    (a : Account) (n : Nat) : Prop where
  find : s.db.accounts.find? name = some a
  toWithdraw : a.toWithdraw = amount
  rate : a.nextVestingWithdrawal ≠ timePointSecMaximum → a.vestingWithdrawRate = weeklyRate amount
  times : timesPaid name s.paid = timesPaid name before + n
  paid : paidTo name s.paid = paidTo name before + a.withdrawn
  withdrawn : a.withdrawn = min amount (n * weeklyRate amount)

variable {amount : Int} {before : List (AccountName × Int)} {s s' : State} {n : Nat}

theorem Since.grown (h : Since name amount before s a n) (ha' : s'.db.accounts.find? name = some a')
    (hg : Grown a a') (htimes : timesPaid name s'.paid = timesPaid name s.paid)
    (hpaid : paidTo name s'.paid = paidTo name s.paid) : Since name amount before s' a' n where
  find := ha'
  toWithdraw := hg.toWithdraw.trans h.toWithdraw
  rate hgoes := hg.rate.trans (h.rate (hg.next ▸ hgoes))
  times := htimes.trans h.times
  paid := by rw [hpaid, h.paid, hg.withdrawn]
  withdrawn := hg.withdrawn.trans h.withdrawn

/-- A payment is one more week's rate, or the rest. -/
theorem Since.round {other : AccountName} (hk : Kept s.db) (h : Since name amount before s a n)
    (hdue : Due s.db other) (hpay : s.db.payVestingWithdrawal other = .ok db') :
    ∃ a' n', Since name amount before
      ⟨db', s.paid ++ [(other, amountOf (s.db, other))]⟩ a' n' := by
  by_cases hother : other = name
  · subst hother
    obtain ⟨b, hb, hnext⟩ := hdue
    obtain rfl : a = b := mem_unique h.find hb
    obtain ⟨a', a₁, paid, converted, ha', hpaid, hgrown, hgrown'⟩ := payVestingWithdrawal_find hpay hb
    have hclock := hk.clock
    have hgoes : a.nextVestingWithdrawal ≠ timePointSecMaximum := by omega
    have horderly := hk.orderly other a hb
    obtain ⟨-, hrate, -, hnonneg, hlt⟩ := horderly.backed.powerDown hgoes
    have hamount := horderly.backed.toWithdrawNow_eq horderly.lent hgoes hpaid
    have hlogged : amountOf (s.db, other) = paid := by
      simp only [amountOf, hb, hpaid]
      rfl
    have hwithdrawn : a'.withdrawn = a.withdrawn + paid :=
      hgrown'.withdrawn.trans (congrArg (· + paid) hgrown.withdrawn)
    rw [h.rate hgoes, h.toWithdraw] at hamount
    rw [h.toWithdraw] at hlt
    refine ⟨a', n + 1, ha', ?_, fun hgoes' => ?_, ?_, ?_, ?_⟩
    · exact (hgrown'.toWithdraw.trans hgrown.toWithdraw).trans h.toWithdraw
    · rw [hgrown'.next] at hgoes'
      rw [hgrown'.rate, ← h.rate hgoes, ← hgrown.rate]
      unfold paidOut at hgoes' ⊢
      dsimp only at hgoes' ⊢
      split at hgoes'
      · exact absurd rfl hgoes'
      · next hmore => rw [if_neg hmore]
    · rw [timesPaid_concat, if_pos rfl, h.times]
      omega
    · rw [paidTo_concat, if_pos rfl, h.paid, hwithdrawn, hlogged]
      omega
    · -- so far every payment was a full one
      have hfull : a.withdrawn = n * weeklyRate amount := by
        have := h.withdrawn
        omega
      have hnext : ((n + 1 : Nat) : Int) * weeklyRate amount =
          n * weeklyRate amount + weeklyRate amount := by
        rw [Nat.cast_add, Nat.cast_one, add_mul, one_mul]
      omega
  · obtain ⟨a', ha', hgrown⟩ := payVestingWithdrawal_other hpay h.find fun heq => hother heq.symm
    exact ⟨a', n, h.grown ha' hgrown (by rw [timesPaid_concat, if_neg hother, add_zero])
      (by rw [paidTo_concat, if_neg hother, add_zero])⟩

/-- **Every step that does not start another power-down** goes on with this one. -/
theorem Since.step {e : Event} (hk : Kept s.db) (h : Since name amount before s a n)
    (he : ∀ x, e ≠ .withdrawVesting name x) (hstep : step s e = .ok s') :
    ∃ a' n', Since name amount before s' a' n' := by
  cases e with
  | withdrawVesting account vestingShares =>
    simp only [Withdrawals.step, eq_ok] at hstep
    obtain ⟨db, hdb, rfl⟩ := hstep
    obtain ⟨b, hb, -, -, rfl⟩ := withdrawVesting_eq hdb
    have hother : name ≠ account := fun heq => he vestingShares (heq ▸ rfl)
    exact ⟨a, n, h.grown ((find?_modify_ne _ _ hother).trans h.find) (.refl a) rfl rfl⟩
  | setWithdrawVestingRoute fromAccount toAccount percent autoVest =>
    simp only [Withdrawals.step, eq_ok] at hstep
    obtain ⟨db, hdb, rfl⟩ := hstep
    obtain ⟨a', ha', hgrown⟩ := (setWithdrawVestingRoute_gains hdb).find h.find
    exact ⟨a', n, h.grown ha' hgrown rfl rfl⟩
  | processVestingWithdrawals =>
    simp only [Withdrawals.step, eq_ok] at hstep
    obtain ⟨db, hdb, rfl⟩ := hstep
    refine (process_induct (fun log db => Kept db ∧ ∃ a' n', Since name amount before
      ⟨db, s.paid ++ log.map fun r => (r.2, amountOf r)⟩ a' n') ?_ ⟨hk, a, n, ?_⟩ hdb).2
    · intro log db₁ other db₂ hI hdue hpay
      obtain ⟨hk₁, a₁, n₁, h₁⟩ := hI
      refine ⟨payVestingWithdrawal_kept hk₁ hdue hpay, ?_⟩
      rw [map_append, map_singleton, ← append_assoc]
      exact h₁.round hk₁ hdue hpay
    · rw [map_nil, append_nil]
      exact h
  | others db =>
    simp only [Withdrawals.step, eq_ok] at hstep
    obtain ⟨⟨-, -, hstay, hnow⟩, rfl⟩ := hstep
    obtain ⟨a', ha'⟩ := isSome_iff_exists.mp
      (hstay (name, a) (mem_entries_iff.mpr h.find))
    obtain ⟨-, hsame⟩ := hnow (name, a') (mem_entries_iff.mpr ha')
    rw [h.find] at hsame
    obtain ⟨-, hrate, hnext, hwithdrawn, htoWithdraw⟩ := hsame
    exact ⟨a', n, ha', htoWithdraw.trans h.toWithdraw, fun hgoes => hrate.trans (h.rate (hnext ▸ hgoes)),
      h.times, h.paid.trans (by rw [hwithdrawn]), hwithdrawn.trans h.withdrawn⟩

theorem Since.start (hstep : Withdrawals.step s (.withdrawVesting name amount) = .ok s') :
    ∃ a', Since name amount s.paid s' a' 0 := by
  simp only [Withdrawals.step, eq_ok] at hstep
  obtain ⟨db, hdb, rfl⟩ := hstep
  obtain ⟨a, ha, hnonneg, -, rfl⟩ := withdrawVesting_eq hdb
  refine ⟨poweringDown a amount (s.db.headBlockTime + vestingWithdrawIntervalSeconds), ?_, rfl,
    fun hgoes => ?_, rfl, (add_zero _).symm, ?_⟩
  · exact (find?_modify_self ..).trans (by rw [ha, map_some])
  · unfold poweringDown at hgoes ⊢
    split at hgoes
    · exact absurd rfl hgoes
    · next hsome => rw [if_neg hsome]
  · rw [Nat.cast_zero, zero_mul]
    exact (min_eq_right hnonneg).symm

-- # Runs

/-- Nobody has powered down or set a route yet. -/
structure Idle (db : Database) : Prop where
  routes : db.withdrawVestingRoutes = Table.empty
  accounts : ∀ name a, db.accounts.find? name = some a → AtRest a ∧ Covered a
  clock : db.headBlockTime + vestingWithdrawIntervalSeconds < timePointSecMaximum

theorem Idle.kept (h : Idle db) : Kept db := by
  have hfrom : ∀ name, db.routesFrom name = [] := by
    intro name
    rw [routesFrom, h.routes]
    rfl
  refine ⟨⟨fun name => ?_, fun name a ha => ?_, fun k r hr => ?_⟩, fun name a ha => ?_, h.clock⟩
  · rw [totalPercent, hfrom]
    exact Nat.zero_le _
  · rw [hfrom, (h.accounts name a ha).1.1]
    exact ⟨rfl, Nat.zero_le _⟩
  · rw [h.routes] at hr
    cases hr
  · exact .atRest (h.accounts name a ha).1 (h.accounts name a ha).2

theorem exec_kept {start : State} {events : List Event} (h₀ : Kept start.db)
    (h : Run.exec (Run.checked step) start events = some s) : Kept s.db :=
  Run.checked_induct (fun s => Kept s.db) (fun _ _ _ => step_kept) h₀ h

/-- A power-down that is not changed by its account. -/
theorem exec_since {start : State} {pre post : List Event} (h₀ : Kept start.db)
    (h : Run.exec (Run.checked step) start (pre ++ .withdrawVesting name amount :: post) = some s)
    (hpost : ∀ x, .withdrawVesting name x ∉ post) :
    ∃ mid a n, Run.exec (Run.checked step) start pre = some mid ∧
      Since name amount mid.paid s a n := by
  rw [Run.exec_append] at h
  obtain ⟨mid, hmid, h⟩ := bind_eq_some_iff.mp h
  obtain ⟨next, hnext, h⟩ := bind_eq_some_iff.mp h
  rw [Run.checked_eq_some] at hnext
  obtain ⟨a, ha⟩ := Since.start hnext
  have hkept := step_kept (exec_kept h₀ hmid) hnext
  obtain ⟨-, a', n, hsince⟩ := Run.exec_induct_mem
    (fun s => Kept s.db ∧ ∃ a n, Since name amount mid.paid s a n)
    (fun e he s s' hI hstep => by
      rw [Run.checked_eq_some] at hstep
      obtain ⟨hk, a, n, hs⟩ := hI
      exact ⟨step_kept hk hstep, hs.step hk (fun x heq => hpost x (heq ▸ he)) hstep⟩)
    ⟨hkept, a, 0, ha⟩ h
  exact ⟨mid, a', n, hmid, hsince⟩

/-- **Power-downs along every run.** The routes of an account take at most all of a payment, in a
sum that never wraps, and are counted; a power-down that is scheduled has a rate and something left
to pay; every payment is the rate or the rest, every account that is due is paid, and no payment
deposits more than it withdraws; and a power-down that is not changed has paid, after `n` payments,
`n` times its rate up to what was asked for, and is scheduled until then and no longer. -/
theorem power_downs_in_order {start : State} {events : List Event} (h₀ : Idle start.db)
    (h : Run.exec (Run.checked step) start events = some s) :
    (∀ name a, s.db.accounts.find? name = some a →
      ((s.db.routesFrom name).map fun e => e.2.percent).sum ≤ percent100 ∧
      a.withdrawRoutes = (s.db.routesFrom name).length ∧ a.withdrawRoutes ≤ maxWithdrawRoutes) ∧
    (∀ fromAccount toAccount routes route db₁,
      s.db.storeRoute fromAccount toAccount routes route = .ok db₁ →
      ((db₁.routesFrom fromAccount).map fun e => e.2.percent).sum < 2 ^ 16) ∧
    (∀ name a, s.db.accounts.find? name = some a →
      a.nextVestingWithdrawal ≠ timePointSecMaximum →
      1 ≤ a.vestingWithdrawRate ∧ a.withdrawn < a.toWithdraw) ∧
    (∀ r ∈ payments s.db, ∃ a, r.1.accounts.find? r.2 = some a ∧
      toWithdrawNow a = .ok (min a.vestingWithdrawRate (a.toWithdraw - a.withdrawn))) ∧
    (∀ name db', Due s.db name → s.db.processVestingWithdrawals = .ok db' →
      name ∈ (payments s.db).map Prod.snd) ∧
    s.db.processVestingWithdrawals ≠ .error depositedMore ∧
    ∀ pre post name amount, events = pre ++ .withdrawVesting name amount :: post →
      (∀ x, .withdrawVesting name x ∉ post) →
      ∃ mid a n, Run.exec (Run.checked step) start pre = some mid ∧
        s.db.accounts.find? name = some a ∧
        timesPaid name s.paid = timesPaid name mid.paid + n ∧
        paidTo name s.paid = paidTo name mid.paid + min amount (n * weeklyRate amount) ∧
        (a.nextVestingWithdrawal ≠ timePointSecMaximum ↔ n * weeklyRate amount < amount) := by
  have hk := exec_kept h₀.kept h
  have hrounds := payments_induct Kept
    (fun _ _ _ hk hdue hpay => payVestingWithdrawal_kept hk hdue hpay) hk
  refine ⟨fun name a ha => ⟨hk.routes.percent name, hk.routes.number name a ha⟩,
    fun _ _ _ _ _ hstore => hk.routes.totalPercent_lt hstore, fun name a ha hgoes => ?_,
    fun r hr => ?_, fun name db' hdue hprocess => mem_payments_of_due hk.clock hdue hprocess,
    fun hfails => ?_, ?_⟩
  · obtain ⟨-, hrate, -, -, hlt⟩ := (hk.orderly name a ha).backed.powerDown hgoes
    exact ⟨hrate, hlt⟩
  · obtain ⟨hkr, a, ha, hnext⟩ := hrounds r hr
    have hclock := hkr.clock
    exact ⟨a, ha, (hkr.orderly r.2 a ha).toWithdrawNow_eq (by omega)⟩
  · obtain ⟨r, hr, hfails⟩ := process_error hfails
    obtain ⟨hkr, hdue⟩ := hrounds r hr
    exact hkr.avoids hdue hfails
  · rintro pre post name amount rfl hpost
    obtain ⟨mid, a, n, hmid, hs⟩ := exec_since h₀.kept h hpost
    refine ⟨mid, a, n, hmid, hs.find, hs.times, by rw [hs.paid, hs.withdrawn], fun hgoes => ?_,
      fun hmore hstops => ?_⟩
    · have hlt := ((hk.orderly name a hs.find).backed.powerDown hgoes).withdrawn_lt
      rw [hs.withdrawn, hs.toWithdraw] at hlt
      omega
    · have hall := (hk.orderly name a hs.find).idle hstops
      rw [hs.withdrawn, hs.toWithdraw] at hall
      omega

/-- The first account of the chain sends half of its power-down to another account. -/
def halfRouted : List Event :=
  [.setWithdrawVestingRoute initMinerName tempAccount 5000 true, .withdrawVesting initMinerName 27]

/-- The state a week after these two operations. -/
def weekLater (db : Database) : Database :=
  match Run.exec (Run.checked step) ⟨db, []⟩ halfRouted with
  | some s => s.db.modifyProps fun g => { g with time := g.time + vestingWithdrawIntervalSeconds }
  | none => db

/-- One week of a power-down of 27 shares at a rate of 2. -/
theorem power_downs_in_order_week : Idle (oneHolder 500000 500 1000) ∧
    ∃ s, Run.exec (Run.checked step) ⟨oneHolder 500000 500 1000, []⟩
      (halfRouted ++ [.others (weekLater (oneHolder 500000 500 1000)), .processVestingWithdrawals]) =
        some s ∧ s.paid = [(initMinerName, 2)] ∧
      ∃ mid a n, Run.exec (Run.checked step) ⟨oneHolder 500000 500 1000, []⟩
          [.setWithdrawVestingRoute initMinerName tempAccount 5000 true] = some mid ∧
        s.db.accounts.find? initMinerName = some a ∧
        timesPaid initMinerName s.paid = timesPaid initMinerName mid.paid + n ∧
        paidTo initMinerName s.paid =
          paidTo initMinerName mid.paid + min 27 (n * weeklyRate 27) ∧
        (a.nextVestingWithdrawal ≠ timePointSecMaximum ↔ n * weeklyRate 27 < 27) := by
  have hentries : ∀ e ∈ (oneHolder 500000 500 1000).accounts.entries, AtRest e.2 ∧ Covered e.2 := by
    decide +kernel
  have hidle : Idle (oneHolder 500000 500 1000) := by
    refine ⟨rfl, fun name a ha => hentries (name, a) (mem_entries_iff.mpr ha), ?_⟩
    decide +kernel
  refine ⟨hidle, Run.exists_end (P := fun s => s.paid = [(initMinerName, 2)]) (by decide +kernel)
    fun s hs hpaid => ⟨hpaid, ?_⟩⟩
  obtain ⟨-, -, -, -, -, -, hsince⟩ := power_downs_in_order hidle hs
  refine hsince [.setWithdrawVestingRoute initMinerName tempAccount 5000 true]
    [.others _, .processVestingWithdrawals] initMinerName 27 rfl fun x hx => ?_
  rcases mem_cons.mp hx with heq | hx
  · cases heq
  · cases mem_singleton.mp hx

end DeltaChain.Withdrawals

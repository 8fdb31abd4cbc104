import DeltaChain.Delegation.Backing
import DeltaChain.Ledger.Messages
import DeltaChain.Voting.Operations

/-!
# The routes of a power-down

The routes of an account never take more than all of a payment, there are as many of them as the
account counts, and not too many (`RoutesKept`). So what is deposited over them is no more than what
is withdrawn (`RoutesKept.depositsFit`).
-/

namespace DeltaChain.Withdrawals

open Lib Protocol Ledger Ledger.Database Checked List Option Table

variable {db db' db₁ : Database} {name account : AccountName}

-- # Counting routes

/-- The percents of the routes of an account. -/
def totalPercent (db : Database) (name : AccountName) : Nat :=
  ((db.routesFrom name).map fun e => e.2.percent).sum

/-- A sum over the routes of an account, as a sum over all routes. -/
theorem sum_routesFrom (f : WithdrawVestingRoute → Int) (db : Database) (name : AccountName) :
    ((db.routesFrom name).map fun e => f e.2).sum =
      db.withdrawVestingRoutes.sum fun k r => if k.1 = name then f r else 0 := by
  have hsort : (db.routesFrom name).Perm
      ((db.withdrawVestingRoutes.entries.filter fun e => e.1.1 = name).map fun e => (e.1.2, e.2)) :=
    perm_insertionSort ..
  rw [(hsort.map fun e => f e.2).sum_eq, List.map_map]
  unfold Table.sum
  induction db.withdrawVestingRoutes.entries with
  | nil => rfl
  | cons e l ih =>
    rw [map_cons, sum_cons, ← ih]
    by_cases he : e.1.1 = name
    · rw [filter_cons_of_pos (by simpa using he), map_cons, sum_cons]
      exact congrArg (· + _) (if_pos he).symm
    · rw [filter_cons_of_neg (by simpa using he)]
      exact (zero_add _).symm.trans (congrArg (· + _) (if_neg he).symm)

theorem totalPercent_eq (db : Database) (name : AccountName) :
    (totalPercent db name : Int) = ((db.routesFrom name).map fun e => (e.2.percent : Int)).sum := by
  rw [totalPercent, Nat.cast_list_sum, List.map_map]
  rfl

theorem routesFrom_length (db : Database) (name : AccountName) :
    ((db.routesFrom name).length : Int) = ((db.routesFrom name).map fun _ => (1 : Int)).sum := by
  rw [map_const', sum_replicate, nsmul_eq_mul, mul_one]

/-- The routes of all accounts are as they should be. -/
structure RoutesKept (db : Database) : Prop where
  percent : ∀ name, totalPercent db name ≤ percent100
  number : ∀ name a, db.accounts.find? name = some a →
    a.withdrawRoutes = (db.routesFrom name).length ∧ a.withdrawRoutes ≤ maxWithdrawRoutes
  known : ∀ k r, db.withdrawVestingRoutes.find? k = some r →
    (db.accounts.find? k.1).isSome ∧ (db.accounts.find? k.2).isSome

variable {e : AccountName × WithdrawVestingRoute}

theorem mem_routesFrom : e ∈ db.routesFrom name ↔
    db.withdrawVestingRoutes.find? (name, e.1) = some e.2 := by
  rw [routesFrom, mem_insertionSort, List.mem_map, ← mem_entries_iff]
  constructor
  · rintro ⟨⟨⟨n, m⟩, r⟩, hmem, rfl⟩
    rw [mem_filter, decide_eq_true_eq] at hmem
    obtain ⟨hmem, rfl⟩ := hmem
    exact hmem
  · intro hmem
    exact ⟨((name, e.1), e.2), mem_filter.mpr ⟨hmem, decide_eq_true rfl⟩, rfl⟩

theorem routesKept_iff : RoutesKept db ↔
    (∀ e ∈ db.withdrawVestingRoutes.entries, totalPercent db e.1.1 ≤ percent100 ∧
      (db.accounts.find? e.1.1).isSome ∧ (db.accounts.find? e.1.2).isSome) ∧
    ∀ e ∈ db.accounts.entries, e.2.withdrawRoutes = (db.routesFrom e.1).length ∧
      e.2.withdrawRoutes ≤ maxWithdrawRoutes := by
  constructor
  · intro h
    exact ⟨fun e he => ⟨h.percent _, h.known e.1 e.2 (mem_entries_iff.mp he)⟩,
      fun e he => h.number e.1 e.2 (mem_entries_iff.mp he)⟩
  · rintro ⟨hroutes, haccounts⟩
    refine ⟨fun name => ?_, fun name a ha => haccounts (name, a) (mem_entries_iff.mpr ha),
      fun k r hr => (hroutes (k, r) (mem_entries_iff.mpr hr)).2⟩
    -- who has no routes has no percents
    cases hfrom : db.routesFrom name with
    | nil =>
      rw [totalPercent, hfrom]
      exact Nat.zero_le _
    | cons e l =>
      have he : e ∈ db.routesFrom name := hfrom ▸ mem_cons_self
      exact (hroutes ((name, e.1), e.2) (mem_entries_iff.mpr (mem_routesFrom.mp he))).1

instance (db : Database) : Decidable (RoutesKept db) := decidable_of_iff _ routesKept_iff.symm

/-- Routes and their numbers are the same. -/
structure SameRoutes (db db' : Database) : Prop where
  routes : db'.withdrawVestingRoutes = db.withdrawVestingRoutes
  accounts : ∀ name, (db'.accounts.find? name).map Account.withdrawRoutes =
    (db.accounts.find? name).map Account.withdrawRoutes

namespace SameRoutes

theorem refl (db : Database) : SameRoutes db db := ⟨rfl, fun _ => rfl⟩

theorem trans (h : SameRoutes db db₁) (h' : SameRoutes db₁ db') : SameRoutes db db' :=
  ⟨h'.routes.trans h.routes, fun name => (h'.accounts name).trans (h.accounts name)⟩

variable {f : Account → Account}

theorem modifyAccount (hf : ∀ a, (f a).withdrawRoutes = a.withdrawRoutes) :
    SameRoutes db (db.modifyAccount name f) := by
  refine ⟨rfl, fun n => ?_⟩
  rw [Database.modifyAccount, find?_modify]
  split
  · rw [Option.map_map]
    exact congrArg (Option.map · _) (funext hf)
  · rfl

theorem voteWrites (h : VoteWrites db db') : SameRoutes db db' := by
  refine ⟨?_, h.read fun _ _ => rfl⟩
  rw [h.frame]

theorem climb {δ : Int} (h : db.adjustProxiedWitnessVotes1 name δ = .ok db') : SameRoutes db db' :=
  voteWrites (adjustProxiedWitnessVotes1_ok h).1

theorem account_then (h : SameRoutes (db.modifyAccount name f) db')
    (hf : ∀ a, (f a).withdrawRoutes = a.withdrawRoutes) : SameRoutes db db' :=
  (modifyAccount hf).trans h

theorem modifyProps (f : GlobalProperties → GlobalProperties) : SameRoutes db (db.modifyProps f) :=
  ⟨rfl, fun _ => rfl⟩

theorem routesFrom (h : SameRoutes db db') (name : AccountName) :
    db'.routesFrom name = db.routesFrom name := by
  rw [Database.routesFrom, h.routes]
  rfl

theorem isSome (h : SameRoutes db db') (name : AccountName) :
    (db'.accounts.find? name).isSome = (db.accounts.find? name).isSome := by
  have := congrArg Option.isSome (h.accounts name)
  rwa [isSome_map, isSome_map] at this

end SameRoutes

theorem RoutesKept.same (h : RoutesKept db) (hs : SameRoutes db db') : RoutesKept db' := by
  refine ⟨fun name => ?_, fun name a ha => ?_, fun k r hr => ?_⟩
  · rw [totalPercent, hs.routesFrom]
    exact h.percent name
  · have hname := hs.accounts name
    rw [ha, map_some, eq_comm, map_eq_some_iff] at hname
    obtain ⟨b, hb, heq⟩ := hname
    rw [hs.routesFrom, ← heq]
    exact h.number name b hb
  · rw [hs.routes] at hr
    rw [hs.isSome, hs.isSome]
    exact h.known k r hr

-- # Setting a route

/-- What is written where a route may be. -/
def weight (f : AccountName × AccountName → WithdrawVestingRoute → Int)
    (k : AccountName × AccountName) (route : Option WithdrawVestingRoute) : Int :=
  (route.map (f k)).getD 0

/-- One route is made, dropped or changed, and its owner counts it. -/
structure RouteChange (db db₁ : Database) (k : AccountName × AccountName)
    (new : Option WithdrawVestingRoute) : Prop where
  find : ∀ j, db₁.withdrawVestingRoutes.find? j = if j = k then new else db.withdrawVestingRoutes.find? j
  sum : ∀ f, db₁.withdrawVestingRoutes.sum f = db.withdrawVestingRoutes.sum f -
    weight f k (db.withdrawVestingRoutes.find? k) + weight f k new
  accounts : ∀ name, db₁.accounts.find? name =
    if name = k.1 then (db.accounts.find? name).map fun a =>
      { a with withdrawRoutes := a.withdrawRoutes + new.toList.length -
        (db.withdrawVestingRoutes.find? k).toList.length }
    else db.accounts.find? name

variable {fromAccount : AccountName} {route : WithdrawVestingRoute}

theorem storeRoute_change {toAccount : AccountName} {routes : Nat}
    (h : db.storeRoute fromAccount toAccount routes route = .ok db₁) :
    ∃ new, RouteChange db db₁ (fromAccount, toAccount) new ∧ (∀ r, new = some r → r = route) ∧
      (db.withdrawVestingRoutes.find? (fromAccount, toAccount) = none → routes < maxWithdrawRoutes) := by
  unfold storeRoute at h
  split at h
  · next hnone =>
    -- a new route
    simp only [eq_ok] at h
    obtain ⟨-, hroom, rfl⟩ := h
    refine ⟨some route, ⟨fun j => ?_, fun f => ?_, fun name => ?_⟩,
      fun r hr => (some.inj hr).symm, fun _ => hroom⟩
    · exact (find?_emplace ..).trans (by rw [hnone, getD_none])
    · rw [hnone]
      exact (sum_emplace hnone ..).trans (by simp only [weight, Option.map, Option.getD, sub_zero])
    · rw [hnone]
      exact find?_modify ..
  · next hsome =>
    obtain ⟨old, hold⟩ := ne_none_iff_exists'.mp hsome
    split at h
    · -- the route is dropped
      cases h
      refine ⟨none, ⟨fun j => find?_erase .., fun f => ?_, fun name => ?_⟩,
        fun r hr => (some_ne_none _ hr.symm).elim, fun hnone => absurd hnone hsome⟩
      · rw [hold]
        exact (Table.sum_erase hold _).trans (by simp only [weight, Option.map, Option.getD, add_zero])
      · rw [hold]
        exact find?_modify ..
    · -- the route is changed
      cases h
      refine ⟨some route, ⟨fun j => ?_, fun f => ?_, fun name => ?_⟩,
        fun r hr => (some.inj hr).symm, fun hnone => absurd hnone hsome⟩
      · refine (find?_modify ..).trans ?_
        split
        · next heq => rw [heq, hold, map_some]
        · rfl
      · rw [hold]
        refine (sum_modify hold ..).trans ?_
        simp only [weight, Option.map, Option.getD]
        omega
      · rw [hold]
        simp only [toList_some, length_singleton, Nat.add_sub_cancel, Option.map_id',
          ite_self]

section

variable {k : AccountName × AccountName} {new : Option WithdrawVestingRoute}

section

variable (h : RouteChange db db₁ k new)

include h

theorem RouteChange.isSome (name : AccountName) :
    (db₁.accounts.find? name).isSome = (db.accounts.find? name).isSome := by
  rw [h.accounts]
  split
  · exact isSome_map
  · rfl

theorem RouteChange.sum_from (f : WithdrawVestingRoute → Int) (name : AccountName) :
    ((db₁.routesFrom name).map fun e => f e.2).sum = ((db.routesFrom name).map fun e => f e.2).sum +
      if k.1 = name then (new.map f).getD 0 - ((db.withdrawVestingRoutes.find? k).map f).getD 0
      else 0 := by
  have hweight : ∀ o : Option WithdrawVestingRoute,
      weight (fun k r => if k.1 = name then f r else 0) k o =
        if k.1 = name then (o.map f).getD 0 else 0 := by
    intro o
    cases o with
    | none => exact (ite_self _).symm
    | some r => rfl
  rw [sum_routesFrom, sum_routesFrom, h.sum, hweight, hweight]
  split <;> omega

theorem RouteChange.percent (name : AccountName) :
    (totalPercent db₁ name : Int) = totalPercent db name +
      if k.1 = name then (new.map fun r => (r.percent : Int)).getD 0 -
        ((db.withdrawVestingRoutes.find? k).map fun r => (r.percent : Int)).getD 0 else 0 := by
  rw [totalPercent_eq, totalPercent_eq]
  exact h.sum_from (fun r => r.percent) name

theorem RouteChange.length (name : AccountName) :
    ((db₁.routesFrom name).length : Int) = (db.routesFrom name).length +
      if k.1 = name then (new.toList.length : Int) -
        (db.withdrawVestingRoutes.find? k).toList.length else 0 := by
  have hlength : ∀ o : Option WithdrawVestingRoute, (o.map fun _ => (1 : Int)).getD 0 =
      o.toList.length := by
    intro o
    cases o <;> rfl
  have hsum := h.sum_from (fun _ => 1) name
  rw [hlength, hlength] at hsum
  rw [routesFrom_length, routesFrom_length]
  exact hsum

end

end

variable {toAccount : AccountName} {s s' : Database × Int} {autoVest : Bool}

-- The running sum is kept in 16 bits and looked at after the change: it is that of a change that
-- may still be refused, of at most 100 percent more.
theorem RoutesKept.totalPercent_lt {routes : Nat} (hs : RoutesKept db)
    (h : db.storeRoute fromAccount toAccount routes route = .ok db₁) :
    totalPercent db₁ fromAccount < 2 ^ 16 := by
  obtain ⟨new, hchange, hnew, -⟩ := storeRoute_change h
  have hsum := hchange.percent fromAccount
  have hbefore := hs.percent fromAccount
  have hadded : (new.map fun r => (r.percent : Int)).getD 0 ≤ percent100 := by
    cases new with
    | none => exact Int.natCast_nonneg _
    | some r => exact Int.ofNat_le.mpr r.percent_le
  have hdropped : 0 ≤ ((db.withdrawVestingRoutes.find? (fromAccount, toAccount)).map fun r =>
      (r.percent : Int)).getD 0 := by
    cases db.withdrawVestingRoutes.find? (fromAccount, toAccount) with
    | none => exact le_rfl
    | some r => exact Int.natCast_nonneg _
  unfold percent100 at hbefore hadded
  omega

/-- **Setting a route** keeps all routes as they should be. -/
theorem setWithdrawVestingRoute_kept {percent : Nat} (hs : RoutesKept db)
    (h : db.setWithdrawVestingRoute fromAccount toAccount percent autoVest = .ok db') :
    RoutesKept db' := by
  unfold setWithdrawVestingRoute at h
  simp only [eq_ok, getAccount_eq_ok] at h
  obtain ⟨route, -, a, ha, b, hb, db₁, hstore, hpercent, rfl⟩ := h
  have hsmall := hs.totalPercent_lt hstore
  obtain ⟨new, hchange, -, hroom⟩ := storeRoute_change hstore
  refine ⟨fun name => ?_, fun name c hc => ?_, fun k r hr => ?_⟩
  · by_cases hname : name = fromAccount
    · rw [hname]
      exact (Nat.mod_eq_of_lt hsmall).symm.trans_le hpercent
    · have hsum := hchange.percent name
      rw [if_neg fun heq => hname heq.symm, add_zero] at hsum
      have := hs.percent name
      omega
  · have hlength := hchange.length name
    rw [hchange.accounts] at hc
    split at hc
    · next hname =>
      -- the owner of the route
      dsimp only at hname
      subst hname
      rw [ha, map_some, some.injEq] at hc
      obtain ⟨hcount, hmax⟩ := hs.number name a ha
      rw [if_pos rfl] at hlength
      have hone : new.toList.length ≤ 1 := by
        cases new <;> simp
      rw [← hc]
      cases hold : db.withdrawVestingRoutes.find? (name, toAccount) with
      | none =>
        have := hroom hold
        rw [hold, toList_none, length_nil] at hlength
        simp only [toList_none, length_nil]
        omega
      | some r =>
        rw [hold, toList_some, length_singleton] at hlength
        simp only [toList_some, length_singleton]
        omega
    · next hname =>
      rw [if_neg fun heq => hname heq.symm, add_zero] at hlength
      have := hs.number name c hc
      omega
  · rw [hchange.isSome, hchange.isSome]
    rw [hchange.find] at hr
    split at hr
    · next hk =>
      rw [hk]
      exact ⟨by rw [ha, isSome_some], by rw [hb, isSome_some]⟩
    · exact hs.known k r hr

-- # Deposits

variable {toWithdraw : Int}

/-- What goes over a route is at most its percent of the payment. -/
theorem routed_le {d : Int} (hx : 0 ≤ toWithdraw) (h : routed toWithdraw route = .ok d) :
    d * percent100 ≤ toWithdraw * route.percent := by
  simp only [routed, eq_ok] at h
  obtain ⟨-, rfl⟩ := h
  have hu128 : ∀ y : Int, 0 ≤ y → (u128 y : Int) ≤ y := by
    intro y hy
    unfold u128
    omega
  have hdiv := Nat.div_mul_le_self (u128 (u128 toWithdraw * route.percent : Nat)) percent100
  calc ((u128 (u128 toWithdraw * route.percent : Nat) / percent100 : Nat) : Int) * percent100
      ≤ u128 (u128 toWithdraw * route.percent : Nat) := by exact_mod_cast hdiv
    _ ≤ (u128 toWithdraw * route.percent : Nat) := hu128 _ (Int.natCast_nonneg _)
    _ = (u128 toWithdraw : Int) * route.percent := Nat.cast_mul ..
    _ ≤ toWithdraw * route.percent :=
      mul_le_mul_of_nonneg_right (hu128 _ hx) (Int.natCast_nonneg _)

/-- The percents of the routes of one kind. -/
def percentOf (autoVest : Bool) (l : List (AccountName × WithdrawVestingRoute)) : Nat :=
  (l.map fun e => if e.2.autoVest = autoVest then e.2.percent else 0).sum

theorem percentOf_add (l : List (AccountName × WithdrawVestingRoute)) :
    percentOf true l + percentOf false l = (l.map fun e => e.2.percent).sum := by
  induction l with
  | nil => rfl
  | cons e l ih =>
    simp only [percentOf, map_cons, sum_cons] at ih ⊢
    cases e.2.autoVest with
    | false => simp only [Bool.false_eq_true, if_false, if_true]; omega
    | true => simp only [Bool.true_eq_false, if_false, if_true]; omega

/-- A pass over the routes that deposits what goes over those of one kind. -/
theorem deposits_le (autoVest : Bool)
    {pass : Database × Int → AccountName × WithdrawVestingRoute → Checked (Database × Int)}
    (hx : 0 ≤ toWithdraw) (hpass : ∀ s e s', pass s e = .ok s' →
      if e.2.autoVest = autoVest then routed toWithdraw e.2 = .ok (s'.2 - s.2) else s' = s) :
    ∀ (l : List (AccountName × WithdrawVestingRoute)) (s s' : Database × Int),
      l.foldlM pass s = .ok s' → (s'.2 - s.2) * percent100 ≤ toWithdraw * percentOf autoVest l := by
  intro l
  induction l with
  | nil =>
    intro s s' h
    cases h
    simp [percentOf]
  | cons e l ih =>
    intro s s' h
    rw [foldlM_cons, bind_eq_ok] at h
    obtain ⟨s₁, hstep, hrest⟩ := h
    have htail := ih s₁ s' hrest
    have hhead := hpass s e s₁ hstep
    have hsplit : (percentOf autoVest (e :: l) : Int) =
        (if e.2.autoVest = autoVest then e.2.percent else 0 : Nat) + percentOf autoVest l := by
      rfl
    rw [hsplit, mul_add]
    split at hhead
    · next hkind =>
      have hone := routed_le hx hhead
      rw [if_pos hkind]
      linarith
    · next hkind =>
      rw [hhead] at htail
      rw [if_neg hkind, Nat.cast_zero, mul_zero, zero_add]
      exact htail

/-- **What is deposited is no more than what is withdrawn.** -/
theorem RoutesKept.depositsFit (hs : RoutesKept db)
    (hpaid : ∀ a x, db.accounts.find? name = some a → toWithdrawNow a = .ok x → 0 ≤ x) :
    DepositsFit db name := by
  intro a x s s' ha hx hvests hdelta
  have hnonneg := hpaid a x ha hx
  have hfirst := deposits_le true hnonneg (fun s e s' h => by
    obtain ⟨rfl, hnone⟩ | ⟨d, a, db₁, hauto, hrouted, -, -, rfl, -⟩ := depositVests_cases h
    · grind
    · rw [if_pos hauto, hrouted, add_sub_cancel_left]) _ _ _ hvests
  have hsecond := deposits_le false hnonneg (fun s e s' h => by
    obtain ⟨rfl, hnone⟩ | ⟨d, a, price, converted, hauto, hrouted, -, -, -, -, rfl⟩ :=
      depositDelta_cases h
    · grind
    · rw [if_pos hauto, hrouted, add_sub_cancel_left]) _ _ _ hdelta
  have hsum : (percentOf true (db.routesFrom name) : Int) + percentOf false (db.routesFrom name) ≤
      percent100 := by
    exact_mod_cast (percentOf_add _).trans_le (hs.percent name)
  have hall := mul_le_mul_of_nonneg_left hsum hnonneg
  have hpos : (0 : Int) < percent100 := by decide
  have hscaled : (s.2 + s'.2) * percent100 ≤ x * percent100 := by linarith
  have := le_of_mul_le_mul_right hscaled hpos
  omega

-- # A payment leaves the routes alone

theorem depositVests_sameRoutes (h : depositVests toWithdraw s e = .ok s') :
    SameRoutes s.1 s'.1 := by
  obtain ⟨rfl, -⟩ | ⟨d, a, db₁, -, -, -, -, rfl, hclimb⟩ := depositVests_cases h
  · exact .refl _
  · exact (SameRoutes.climb hclimb).account_then fun _ => rfl

theorem depositDelta_sameRoutes (h : depositDelta toWithdraw s e = .ok s') :
    SameRoutes s.1 s'.1 := by
  obtain ⟨rfl, -⟩ | ⟨d, a, price, converted, -, -, -, -, -, -, rfl⟩ := depositDelta_cases h
  · exact .refl _
  · dsimp only
    refine (SameRoutes.modifyAccount ?_).trans (.modifyProps _)
    exact fun _ => rfl

theorem payVestingWithdrawal_sameRoutes (h : db.payVestingWithdrawal name = .ok db') :
    SameRoutes db db' := by
  unfold payVestingWithdrawal at h
  simp only [eq_ok] at h
  obtain ⟨a, -, x, -, s, hvests, s', hdelta, -, price, -, converted, -, h⟩ := h
  have hfirst : SameRoutes db s.1 := foldlM_induct (fun s => SameRoutes db s.1)
    (fun _ _ _ _ hs hd => hs.trans (depositVests_sameRoutes hd)) (.refl db) hvests
  have hsecond : SameRoutes db s'.1 := foldlM_induct (fun s => SameRoutes db s.1)
    (fun _ _ _ _ hs hd => hs.trans (depositDelta_sameRoutes hd)) hfirst hdelta
  have hpaid : SameRoutes s'.1 (s'.1.modifyAccount name fun a => paidOut a x converted.amount) :=
    .modifyAccount fun _ => rfl
  refine (hsecond.trans hpaid).trans ?_
  split at h
  · exact (SameRoutes.modifyProps _).trans (.climb h)
  · rw [pure_eq_ok] at h
    rw [← h]
    exact .modifyProps _

end DeltaChain.Withdrawals

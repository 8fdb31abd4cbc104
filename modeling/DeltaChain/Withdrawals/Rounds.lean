import DeltaChain.Delegation.Backing

/-!
# The rounds of the withdrawal loop

`process_vesting_withdrawals` pays the accounts that are due one after the other. `payments` are the
states in which it does so, each with the account it pays, up to the payment that fails if there is
one. What every payment of a due account keeps holds in all of them (`payments_induct`) and after
the last one (`process_induct`). The bound on the number of rounds is never what ends the loop, and
the iterator passes nobody, so that every account that is due is paid (`mem_payments_of_due`).
-/

namespace DeltaChain.Withdrawals

open Lib Protocol Ledger Ledger.Database Checked List Option Table
open Delegation

variable {db db' : Database} {name : AccountName}

/-- The states in which the loop pays an account. -/
def rounds : Nat → Database → Option (Nat × AccountName) → List (Database × AccountName)
  | 0, _, _ => []
  | _ + 1, _, none => []
  | n + 1, db, some current =>
    if current.1 ≤ db.headBlockTime then
      (db, current.2) ::
        match db.payVestingWithdrawal current.2 with
        | .ok db' => rounds n db' (db.byNextVestingWithdrawal.find? fun e => dueBefore current e)
        | .error _ => []
    else []

/-- The most rounds the loop can take. -/
def maxRounds (db : Database) : Nat :=
  (db.accounts.entries.map fun e =>
    (db.headBlockTime + vestingWithdrawIntervalSeconds - e.2.nextVestingWithdrawal) /
      vestingWithdrawIntervalSeconds).sum

/-- The payments of `process_vesting_withdrawals`. -/
def payments (db : Database) : List (Database × AccountName) :=
  rounds (maxRounds db) db db.byNextVestingWithdrawal.head?

def amountOf (r : Database × AccountName) : Int :=
  match r.1.accounts.find? r.2 with
  | some a => (toWithdrawNow a).toOption.getD 0
  | none => 0

/-- The account is to be paid. -/
def Due (db : Database) (name : AccountName) : Prop :=
  ∃ a, db.accounts.find? name = some a ∧ a.nextVestingWithdrawal ≤ db.headBlockTime

-- # The iterator

theorem payVestingWithdrawal_other {other : AccountName} {b : Account}
    (h : db.payVestingWithdrawal name = .ok db') (hb : db.accounts.find? other = some b)
    (hother : other ≠ name) : ∃ b', db'.accounts.find? other = some b' ∧ Grown b b' := by
  obtain ⟨-, paid, converted, db₁, -, -, hroutes, hvotes⟩ := payVestingWithdrawal_gains h
  obtain ⟨b₁, hb₁, hgrown⟩ := hroutes.find hb
  have hb₂ : (db₁.modifyAccount name fun a => paidOut a paid converted).accounts.find? other =
      some b₁ := (find?_modify_ne _ _ hother).trans hb₁
  obtain ⟨b', hb', hgrown'⟩ := hvotes.find hb₂
  exact ⟨b', hb', hgrown.trans hgrown'⟩

variable {e : Nat × AccountName}

theorem mem_byNextVestingWithdrawal :
    e ∈ db.byNextVestingWithdrawal ↔
      ∃ a, db.accounts.find? e.2 = some a ∧ a.nextVestingWithdrawal = e.1 := by
  unfold byNextVestingWithdrawal
  rw [mem_insertionSort, List.mem_map]
  constructor
  · rintro ⟨⟨n, a⟩, hmem, rfl⟩
    exact ⟨a, mem_entries_iff.mp hmem, rfl⟩
  · rintro ⟨a, ha, hnext⟩
    exact ⟨(e.2, a), mem_entries_iff.mpr ha, Prod.ext hnext rfl⟩

/-- The iterator, if it is not at the end, stands at an account that is due when it says. -/
def Stands (db : Database) (current : Option (Nat × AccountName)) : Prop :=
  ∀ e, current = some e → e ∈ db.byNextVestingWithdrawal

variable {current : Nat × AccountName}

theorem Stands.due (h : Stands db (some current)) (hdue : current.1 ≤ db.headBlockTime) :
    Due db current.2 := by
  obtain ⟨a, ha, hnext⟩ := mem_byNextVestingWithdrawal.mp (h current rfl)
  exact ⟨a, ha, hnext.trans_le hdue⟩

/-- The iterator moves on to another account, which a payment of the first does not move. -/
theorem Stands.next (h : Stands db (some current))
    (hpay : db.payVestingWithdrawal current.2 = .ok db') :
    Stands db' (db.byNextVestingWithdrawal.find? fun e => dueBefore current e) := by
  intro e he
  obtain ⟨a, ha, hnext⟩ := mem_byNextVestingWithdrawal.mp (h current rfl)
  obtain ⟨b, hb, hb'⟩ := mem_byNextVestingWithdrawal.mp (mem_of_find?_eq_some he)
  have hlater : dueBefore current e := by simpa using find?_some he
  have hother : e.2 ≠ current.2 := by
    intro hsame
    rw [hsame, ha] at hb
    cases hb
    unfold dueBefore at hlater
    rw [hsame, ← hb', ← hnext] at hlater
    rcases hlater with hlt | ⟨-, hlt⟩
    · exact lt_irrefl _ hlt
    · exact lt_irrefl _ hlt
  obtain ⟨b', hfind, hgrown⟩ := payVestingWithdrawal_other hpay hb hother
  exact mem_byNextVestingWithdrawal.mpr ⟨b', hfind, hgrown.next.trans hb'⟩

theorem stands_head : Stands db db.byNextVestingWithdrawal.head? :=
  fun _ he => mem_of_mem_head? he

-- # Induction over the payments

/-- **What payments keep holds in every round.** -/
theorem payments_induct (I : Database → Prop)
    (hkeep : ∀ db name db', I db → Due db name → db.payVestingWithdrawal name = .ok db' → I db')
    (h₀ : I db) : ∀ r ∈ payments db, I r.1 ∧ Due r.1 r.2 := by
  have hloop : ∀ (n : Nat) (db : Database) (current : Option (Nat × AccountName)), I db →
      Stands db current → ∀ r ∈ rounds n db current, I r.1 ∧ Due r.1 r.2 := by
    intro n
    induction n with
    | zero => exact fun _ _ _ _ r hr => absurd hr not_mem_nil
    | succ n ih =>
      intro db current hI hstands r hr
      cases current with
      | none => exact absurd hr not_mem_nil
      | some current =>
        rw [rounds] at hr
        split at hr
        · next hdue =>
          rcases mem_cons.mp hr with rfl | hr
          · exact ⟨hI, hstands.due hdue⟩
          · split at hr
            · next db₁ hpay =>
              exact ih db₁ _ (hkeep db _ db₁ hI (hstands.due hdue) hpay) (hstands.next hpay) r hr
            · exact absurd hr not_mem_nil
        · exact absurd hr not_mem_nil
  exact hloop _ db _ h₀ stands_head

/-- **What payments keep holds after the last one**, together with the payments made. -/
theorem process_induct (I : List (Database × AccountName) → Database → Prop)
    (hkeep : ∀ log db name db', I log db → Due db name → db.payVestingWithdrawal name = .ok db' →
      I (log ++ [(db, name)]) db')
    (h₀ : I [] db) (h : db.processVestingWithdrawals = .ok db') : I (payments db) db' := by
  have hloop : ∀ (n : Nat) (db : Database) (current : Option (Nat × AccountName))
      (log : List (Database × AccountName)), I log db → Stands db current →
      payVestingWithdrawals n db current = .ok db' → I (log ++ rounds n db current) db' := by
    intro n
    induction n with
    | zero =>
      intro db current log hI _ h
      rw [payVestingWithdrawals, pure_eq_ok] at h
      rw [rounds, append_nil]
      exact h ▸ hI
    | succ n ih =>
      intro db current log hI hstands h
      cases current with
      | none =>
        rw [payVestingWithdrawals, pure_eq_ok] at h
        rw [rounds, append_nil]
        exact h ▸ hI
      | some current =>
        rw [payVestingWithdrawals] at h
        rw [rounds]
        split at h
        · next hdue =>
          rw [bind_eq_ok] at h
          obtain ⟨db₁, hpay, hrest⟩ := h
          have hnow := hkeep log db current.2 db₁ hI (hstands.due hdue) hpay
          have := ih db₁ _ _ hnow (hstands.next hpay) hrest
          rw [if_pos hdue, hpay]
          rwa [append_assoc] at this
        · next hdue =>
          rw [pure_eq_ok] at h
          rw [if_neg hdue, append_nil]
          exact h ▸ hI
  exact hloop _ db _ [] h₀ stands_head h

/-- **The loop stops with an error** where one of its payments does. -/
theorem process_error {msg : String} (h : db.processVestingWithdrawals = .error msg) :
    ∃ r ∈ payments db, r.1.payVestingWithdrawal r.2 = .error msg := by
  have hloop : ∀ (n : Nat) (db : Database) (current : Option (Nat × AccountName)),
      payVestingWithdrawals n db current = .error msg →
      ∃ r ∈ rounds n db current, r.1.payVestingWithdrawal r.2 = .error msg := by
    intro n
    induction n with
    | zero =>
      intro db current h
      cases h
    | succ n ih =>
      intro db current h
      cases current with
      | none => cases h
      | some current =>
        rw [payVestingWithdrawals] at h
        rw [rounds]
        split at h
        · next hdue =>
          rw [if_pos hdue]
          cases hpay : db.payVestingWithdrawal current.2 with
          | error m =>
            rw [hpay] at h
            obtain rfl : m = msg := Except.error.inj h
            exact ⟨(db, current.2), mem_cons_self, hpay⟩
          | ok db₁ =>
            rw [hpay] at h
            obtain ⟨r, hr, hfails⟩ := ih db₁ _ h
            exact ⟨r, mem_cons_of_mem _ hr, hfails⟩
        · cases h
  exact hloop _ db _ h

-- # Every account that is due is paid

/-- The payments that an account is behind with. -/
def behind (db : Database) (name : AccountName) : Nat :=
  ((db.accounts.find? name).map fun a =>
    (db.headBlockTime + vestingWithdrawIntervalSeconds - a.nextVestingWithdrawal) /
      vestingWithdrawIntervalSeconds).getD 0

theorem maxRounds_eq (db : Database) :
    maxRounds db = ∑ name ∈ db.accounts.keys.toFinset, behind db name := by
  unfold maxRounds Table.keys
  rw [sum_toFinset _ db.accounts.nodup, List.map_map]
  refine congrArg List.sum (map_congr_left fun e he => ?_)
  rw [Function.comp_apply, behind, mem_entries_iff.mp he, map_some, getD_some]

/-- **Who is paid**, and what that does to the next payment of an account. -/
theorem payVestingWithdrawal_find {a : Account} (h : db.payVestingWithdrawal name = .ok db')
    (ha : db.accounts.find? name = some a) :
    ∃ a' a₁ paid converted, db'.accounts.find? name = some a' ∧ toWithdrawNow a = .ok paid ∧
      Grown a a₁ ∧ Grown (paidOut a₁ paid converted) a' := by
  obtain ⟨b, paid, converted, db₁, hb, hpaid, hroutes, hvotes⟩ := payVestingWithdrawal_gains h
  obtain rfl : a = b := mem_unique ha hb
  obtain ⟨a₁, ha₁, hgrown⟩ := hroutes.find ha
  have hmid : (db₁.modifyAccount name fun a => paidOut a paid converted).accounts.find? name =
      some (paidOut a₁ paid converted) := by
    refine (find?_modify_self ..).trans ?_
    rw [ha₁, map_some]
  obtain ⟨a', ha', hgrown'⟩ := hvotes.find hmid
  exact ⟨a', a₁, paid, converted, ha', hpaid, hgrown, hgrown'⟩

theorem payVestingWithdrawal_isSome (h : db.payVestingWithdrawal name = .ok db') (n : AccountName) :
    (db'.accounts.find? n).isSome = (db.accounts.find? n).isSome := by
  obtain ⟨-, paid, converted, db₁, -, -, hroutes, hvotes⟩ := payVestingWithdrawal_gains h
  have hrel : ∀ {o o' : Option Account}, Rel Grown o o' → o'.isSome = o.isSome := by
    intro o o' hrel
    cases hrel with
    | none => rfl
    | some _ => rfl
  refine (hrel (hvotes.accounts n)).trans (Eq.trans ?_ (hrel (hroutes.accounts n)))
  refine (congrArg isSome (find?_modify ..)).trans ?_
  split
  · exact isSome_map
  · rfl

theorem payVestingWithdrawal_time (h : db.payVestingWithdrawal name = .ok db') :
    db'.headBlockTime = db.headBlockTime := by
  obtain ⟨_, _, _, _, _, _, hroutes, hvotes⟩ := payVestingWithdrawal_gains h
  exact hvotes.time.trans hroutes.time

theorem maxRounds_lt
    (htime : db.headBlockTime + vestingWithdrawIntervalSeconds < timePointSecMaximum)
    (hdue : Due db name) (h : db.payVestingWithdrawal name = .ok db') :
    maxRounds db' < maxRounds db := by
  have hkeys : db'.accounts.keys.toFinset = db.accounts.keys.toFinset := by
    ext n
    rw [List.mem_toFinset, List.mem_toFinset, ← find?_isSome_iff, ← find?_isSome_iff,
      payVestingWithdrawal_isSome h]
  obtain ⟨a, ha, hnext⟩ := hdue
  have hless : behind db' name < behind db name := by
    obtain ⟨a', a₁, paid, converted, ha', -, hgrown, hgrown'⟩ := payVestingWithdrawal_find h ha
    have hweek : 0 < vestingWithdrawIntervalSeconds := by decide
    have hmoved : a'.nextVestingWithdrawal = timePointSecMaximum ∨
        a'.nextVestingWithdrawal = a.nextVestingWithdrawal + vestingWithdrawIntervalSeconds := by
      rw [hgrown'.next, ← hgrown.next]
      exact ite_eq_or_eq ..
    rw [behind, behind, ha, ha', map_some, map_some, getD_some, getD_some,
      payVestingWithdrawal_time h, Nat.sub_add_comm hnext, Nat.add_div_right _ hweek]
    rcases hmoved with hend | hlater
    · rw [hend, Nat.sub_eq_zero_of_le htime.le, Nat.zero_div]
      exact Nat.zero_lt_succ _
    · rw [hlater, Nat.add_sub_add_right]
      exact Nat.lt_add_one _
  rw [maxRounds_eq, maxRounds_eq, hkeys]
  refine Finset.sum_lt_sum (fun n _ => ?_) ⟨name, ?_, hless⟩
  · by_cases hn : n = name
    · rw [hn]
      exact hless.le
    · unfold behind
      cases hb : db.accounts.find? n with
      | none =>
        have hsome := payVestingWithdrawal_isSome h n
        rw [hb, isSome_none, isSome_eq_false_iff, isNone_iff_eq_none] at hsome
        rw [hsome]
        exact Nat.zero_le _
      | some b =>
        obtain ⟨b', hb', hgrown⟩ := payVestingWithdrawal_other h hb hn
        rw [hb', map_some, map_some, hgrown.next, payVestingWithdrawal_time h]
  · rw [List.mem_toFinset, ← find?_isSome_iff, ha]
    rfl

theorem dueBefore_trans {f g : Nat × AccountName} (h : dueBefore e f) (h' : dueBefore f g) :
    dueBefore e g := by
  rcases h with h | ⟨h, hn⟩
  · rcases h' with h' | ⟨h', -⟩
    · exact .inl (h.trans h')
    · exact .inl (h'.symm ▸ h)
  · rcases h' with h' | ⟨h', hn'⟩
    · exact .inl (h ▸ h')
    · exact .inr ⟨h.trans h', hn.trans hn'⟩

theorem dueBefore_or_eq {f : Nat × AccountName} (h : ¬ dueBefore e f) : f = e ∨ dueBefore f e := by
  rcases lt_trichotomy f.1 e.1 with h₁ | h₁ | h₁
  · exact .inr (.inl h₁)
  · rcases lt_trichotomy f.2 e.2 with h₂ | h₂ | h₂
    · exact .inr (.inr ⟨h₁, h₂⟩)
    · exact .inl (Prod.ext h₁ h₂)
    · exact absurd (.inr ⟨h₁.symm, h₂⟩) h
  · exact absurd (.inl h₁) h

theorem byNextVestingWithdrawal_sorted (db : Database) :
    db.byNextVestingWithdrawal.Pairwise fun e f => e = f ∨ dueBefore e f := by
  have htotal : Std.Total fun e f : Nat × AccountName => ¬ dueBefore f e :=
    ⟨fun e f => by
      by_contra hnot
      rw [not_or, not_not, not_not] at hnot
      have hself := dueBefore_trans hnot.1 hnot.2
      rcases hself with hlt | ⟨-, hlt⟩
      · exact lt_irrefl _ hlt
      · exact lt_irrefl _ hlt⟩
  have htrans : IsTrans (Nat × AccountName) fun e f => ¬ dueBefore f e :=
    ⟨fun e f g hef hfg hge => by
      rcases dueBefore_or_eq hfg with heq | hlt
      · exact hef (heq ▸ hge)
      · exact hef (dueBefore_trans hlt hge)⟩
  refine (pairwise_insertionSort (fun e f : Nat × AccountName => ¬ dueBefore f e) _).imp ?_
  exact fun h => dueBefore_or_eq h

theorem next_le (he : e ∈ db.byNextVestingWithdrawal) (hlater : dueBefore current e) :
    ∃ c, db.byNextVestingWithdrawal.find? (fun e => dueBefore current e) = some c ∧
      (c = e ∨ dueBefore c e) := by
  have hfound : (db.byNextVestingWithdrawal.find? fun e => dueBefore current e).isSome :=
    find?_isSome.mpr ⟨e, he, decide_eq_true hlater⟩
  obtain ⟨c, hc⟩ := isSome_iff_exists.mp hfound
  refine ⟨c, hc, ?_⟩
  obtain ⟨-, before, after, hlist, hbefore⟩ := find?_eq_some_iff_append.mp hc
  have hsorted := byNextVestingWithdrawal_sorted db
  rw [hlist] at he hsorted
  rcases mem_append.mp he with hmem | hmem
  · have := hbefore e hmem
    rw [decide_eq_true hlater] at this
    cases this
  · rcases mem_cons.mp hmem with rfl | hmem
    · exact .inl rfl
    · exact (pairwise_cons.mp (pairwise_append.mp hsorted).2.1).1 e hmem

/-- **Every account that is due is paid**, by a loop that does not fail. -/
theorem mem_payments_of_due
    (htime : db.headBlockTime + vestingWithdrawIntervalSeconds < timePointSecMaximum)
    (hdue : Due db name) (h : db.processVestingWithdrawals = .ok db') :
    name ∈ (payments db).map Prod.snd := by
  have hloop : ∀ (n : Nat) (db : Database) (current e : Nat × AccountName),
      db.headBlockTime + vestingWithdrawIntervalSeconds < timePointSecMaximum → maxRounds db ≤ n →
      Stands db (some current) → e ∈ db.byNextVestingWithdrawal → e.1 ≤ db.headBlockTime →
      current = e ∨ dueBefore current e → payVestingWithdrawals n db (some current) = .ok db' →
      e.2 ∈ (rounds n db (some current)).map Prod.snd := by
    intro n
    induction n with
    | zero =>
      intro db current e htime hfuel _ he hdue _ _
      -- an account that is due is behind with a payment
      obtain ⟨a, ha, hnext⟩ := mem_byNextVestingWithdrawal.mp he
      have hzero : behind db e.2 = 0 := by
        rw [maxRounds_eq, Nat.le_zero, Finset.sum_eq_zero_iff] at hfuel
        refine hfuel e.2 (mem_toFinset.mpr ?_)
        rw [← find?_isSome_iff, ha]
        rfl
      rw [behind, ha, map_some, getD_some, Nat.div_eq_zero_iff] at hzero
      have hweek : 0 < vestingWithdrawIntervalSeconds := by decide
      omega
    | succ n ih =>
      intro db current e htime hfuel hstands he hdue hle h
      have hcurrent : current.1 ≤ db.headBlockTime := by
        rcases hle with rfl | hlt | ⟨heq, -⟩
        · exact hdue
        · omega
        · omega
      rw [payVestingWithdrawals, if_pos hcurrent, bind_eq_ok] at h
      obtain ⟨db₁, hpay, hrest⟩ := h
      rw [rounds, if_pos hcurrent, hpay, map_cons, mem_cons]
      by_cases hsame : e.2 = current.2
      · exact .inl hsame
      · right
        have hlater : dueBefore current e := hle.resolve_left fun heq => hsame (heq ▸ rfl)
        obtain ⟨c, hc, hce⟩ := next_le he hlater
        have hstands₁ := hstands.next hpay
        rw [hc] at hrest hstands₁ ⊢
        obtain ⟨a, ha, hnext⟩ := mem_byNextVestingWithdrawal.mp he
        obtain ⟨a', ha', hgrown⟩ := payVestingWithdrawal_other hpay ha hsame
        have htime₁ := payVestingWithdrawal_time hpay
        have hfewer := maxRounds_lt htime (hstands.due hcurrent) hpay
        exact ih db₁ c e (htime₁ ▸ htime) (by omega) hstands₁
          (mem_byNextVestingWithdrawal.mpr ⟨a', ha', hgrown.next.trans hnext⟩) (htime₁ ▸ hdue) hce hrest
  obtain ⟨a, ha, hnext⟩ := hdue
  have he : (a.nextVestingWithdrawal, name) ∈ db.byNextVestingWithdrawal :=
    mem_byNextVestingWithdrawal.mpr ⟨a, ha, rfl⟩
  have hsorted := byNextVestingWithdrawal_sorted db
  have hstands : Stands db db.byNextVestingWithdrawal.head? := stands_head
  change payVestingWithdrawals (maxRounds db) db _ = _ at h
  unfold payments
  cases hlist : db.byNextVestingWithdrawal with
  | nil =>
    rw [hlist] at he
    cases he
  | cons c l =>
    rw [hlist] at hsorted hstands h
    refine hloop (maxRounds db) db c _ htime le_rfl hstands he hnext ?_ h
    rw [hlist] at he
    rcases mem_cons.mp he with heq | hmem
    · exact .inl heq.symm
    · exact (pairwise_cons.mp hsorted).1 _ hmem

end DeltaChain.Withdrawals

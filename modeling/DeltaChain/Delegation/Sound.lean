import DeltaChain.Withdrawals.Rounds

/-!
# Sound delegations

In a `Sound` state every account is backed, what it has lent is the sum of its delegations and
of what is on its way back, and what it has received is the sum of the delegations to it.

Gains keep a state sound (`Sound.gains`), and so does every operation on delegations and
power-downs. The three branches of `delegate_vesting_shares` move shares between the same two
accounts (`Moved`), write the one delegation between them (`Rewrites`), and differ in how much
(`Sound.moved`).
-/

namespace DeltaChain.Delegation

open Lib Protocol Ledger Ledger.Database Checked List Option Table
open Withdrawals

-- # The state

def lentBy (t : Table (AccountName × AccountName) VestingDelegation) (name : AccountName) : Int :=
  t.sum fun k d => if k.1 = name then d.vestingShares else 0

def lentTo (t : Table (AccountName × AccountName) VestingDelegation) (name : AccountName) : Int :=
  t.sum fun k d => if k.2 = name then d.vestingShares else 0

def returningTo (t : Table Nat VestingDelegationExpiration) (name : AccountName) : Int :=
  t.sum fun _ x => if x.delegator = name then x.vestingShares else 0

structure Sound (db : Database) : Prop where
  backed : ∀ name a, db.accounts.find? name = some a → Backed a
  delegated : ∀ name a, db.accounts.find? name = some a → a.delegatedVestingShares =
    lentBy db.vestingDelegations name + returningTo db.vestingDelegationExpirations name
  received : ∀ name a, db.accounts.find? name = some a → a.receivedVestingShares =
    lentTo db.vestingDelegations name
  delegation_nonneg : ∀ k d, db.vestingDelegations.find? k = some d → 0 ≤ d.vestingShares
  expiration_nonneg : ∀ id x, db.vestingDelegationExpirations.find? id = some x →
    0 ≤ x.vestingShares
  expiration_id : ∀ id x, db.vestingDelegationExpirations.find? id = some x →
    id < db.nextDelegationExpirationId

variable {db db₁ db₂ db' : Database} {name : AccountName} {a : Account}

namespace Sound

theorem delegated_nonneg (h : Sound db) (ha : db.accounts.find? name = some a) :
    0 ≤ a.delegatedVestingShares := by
  rw [h.delegated name a ha]
  refine add_nonneg (sum_nonneg fun k d hd => ?_) (sum_nonneg fun id x hx => ?_)
  · split
    · exact h.delegation_nonneg k d hd
    · exact le_rfl
  · split
    · exact h.expiration_nonneg id x hx
    · exact le_rfl

theorem received_nonneg (h : Sound db) (ha : db.accounts.find? name = some a) :
    0 ≤ a.receivedVestingShares := by
  rw [h.received name a ha]
  refine sum_nonneg fun k d hd => ?_
  split
  · exact h.delegation_nonneg k d hd
  · exact le_rfl

theorem effective_nonneg (h : Sound db) (ha : db.accounts.find? name = some a) :
    0 ≤ a.effectiveVestingShares := (h.backed name a ha).effective_nonneg (h.received_nonneg ha)

/-- Writes to accounts that keep them backed and change nothing that is lent. -/
theorem of_accounts (h : Sound db)
    (haccounts : ∀ n b, db'.accounts.find? n = some b → ∃ a, db.accounts.find? n = some a ∧
      (Backed a → Backed b) ∧ b.delegatedVestingShares = a.delegatedVestingShares ∧
      b.receivedVestingShares = a.receivedVestingShares)
    (hdelegations : db'.vestingDelegations = db.vestingDelegations)
    (hexpirations : db'.vestingDelegationExpirations = db.vestingDelegationExpirations)
    (hnextId : db'.nextDelegationExpirationId = db.nextDelegationExpirationId) : Sound db' := by
  refine ⟨fun n b hb => ?_, fun n b hb => ?_, fun n b hb => ?_, hdelegations ▸ h.delegation_nonneg,
    hexpirations ▸ h.expiration_nonneg, hexpirations ▸ hnextId ▸ h.expiration_id⟩ <;>
    obtain ⟨a, ha, hbacked, hdelegated, hreceived⟩ := haccounts n b hb
  · exact hbacked (h.backed n a ha)
  · rw [hdelegated, hdelegations, hexpirations, h.delegated n a ha]
  · rw [hreceived, hdelegations, h.received n a ha]

theorem gains (h : Sound db) (hg : Gains db db') : Sound db' := by
  refine h.of_accounts (fun n b hb => ?_) hg.delegations hg.expirations hg.nextId
  obtain ⟨a, ha, hgrown⟩ := hg.find_back hb
  exact ⟨a, ha, fun hbacked => hbacked.grown hgrown, hgrown.delegated, hgrown.received⟩

/-- A write to one account that lends and receives nothing. -/
theorem modifyAccount {f : Account → Account} (h : Sound db) (ha : db.accounts.find? name = some a)
    (hbacked : Backed (f a)) (hdelegated : (f a).delegatedVestingShares = a.delegatedVestingShares)
    (hreceived : (f a).receivedVestingShares = a.receivedVestingShares) :
    Sound (db.modifyAccount name f) := by
  refine h.of_accounts (fun n b hb => ?_) rfl rfl rfl
  rw [Database.modifyAccount, find?_modify] at hb
  split at hb
  · next hn =>
    subst hn
    rw [ha] at hb
    obtain rfl := some.inj hb
    exact ⟨a, ha, fun _ => hbacked, hdelegated, hreceived⟩
  · exact ⟨b, hb, id, rfl, rfl⟩

end Sound

-- # Power-downs

/-- A new power-down is for shares that are not lent. -/
theorem withdrawVesting_sound {vestingShares : Int} (hs : Sound db)
    (htime : db.headBlockTime + vestingWithdrawIntervalSeconds < timePointSecMaximum)
    (h : db.withdrawVesting name vestingShares = .ok db') : Sound db' := by
  simp only [withdrawVesting, eq_ok, getAccount_eq_ok] at h
  obtain ⟨a, ha, hnonneg, -, henough, h⟩ := h
  have hbacked := hs.backed name a ha
  split at h
  · -- the power-down is called off
    simp only [eq_ok] at h
    obtain ⟨-, rfl⟩ := h
    refine hs.modifyAccount ha ⟨fun hrun => absurd rfl hrun, ?_⟩ rfl rfl
    simp only [outstanding, ne_eq, not_true_eq_false, if_false]
    omega
  · next hsome =>
    simp only [eq_ok] at h
    obtain ⟨-, rfl⟩ := h
    refine hs.modifyAccount ha ⟨fun _ => ⟨htime, ?_, dvd_zero _, le_rfl, ?_⟩, ?_⟩ rfl rfl
    · -- the rate is at least one
      dsimp only
      have hrate : 0 ≤ vestingShares.tdiv vestingWithdrawIntervals :=
        Int.tdiv_nonneg (by omega) (by decide)
      split <;> omega
    · dsimp only
      omega
    · have hrun : db.headBlockTime + vestingWithdrawIntervalSeconds ≠ timePointSecMaximum := by omega
      simp only [outstanding, if_pos hrun]
      omega

theorem payVestingWithdrawal_sound (hs : Sound db)
    (htime : db.headBlockTime + vestingWithdrawIntervalSeconds < timePointSecMaximum)
    (ha : db.accounts.find? name = some a) (hdue : a.nextVestingWithdrawal ≤ db.headBlockTime)
    (h : db.payVestingWithdrawal name = .ok db') : Sound db' := by
  obtain ⟨b, paid, converted, db₁, hb, hpaid, hroutes, hvotes⟩ := payVestingWithdrawal_gains h
  obtain rfl : a = b := mem_unique ha hb
  obtain ⟨a₁, ha₁, hgrown⟩ := hroutes.find ha
  have hbacked : Backed (paidOut a₁ paid converted) :=
    (hs.backed name a ha).paidOut (hs.delegated_nonneg ha) (by omega) hgrown hpaid converted
  exact ((hs.gains hroutes).modifyAccount ha₁ hbacked rfl rfl).gains hvotes

/-- **The loop over the payments.** -/
theorem processVestingWithdrawals_sound (hs : Sound db)
    (htime : db.headBlockTime + vestingWithdrawIntervalSeconds < timePointSecMaximum)
    (h : db.processVestingWithdrawals = .ok db') : Sound db' := by
  refine (process_induct (fun _ db₁ => Sound db₁ ∧ db₁.headBlockTime = db.headBlockTime)
    (fun log db₁ name db₂ hI hdue hpay => ?_) ⟨hs, rfl⟩ h).1
  obtain ⟨a, ha, hnext⟩ := hdue
  refine ⟨payVestingWithdrawal_sound hI.1 (by rwa [hI.2]) ha hnext hpay, ?_⟩
  obtain ⟨_, _, _, _, _, _, hroutes, hvotes⟩ := payVestingWithdrawal_gains hpay
  exact (hvotes.time.trans hroutes.time).trans hI.2

-- # Moving shares

/-- Shares move from one account to another: `out` are added to what the one has lent, `inc` to
what the other has received. Their mana follows. -/
def Moved (delegator delegatee : AccountName) (out inc : Int) (db db' : Database) : Prop :=
  ∀ n a', db'.accounts.find? n = some a' → ∃ a bar, db.accounts.find? n = some a ∧
    a' = { a with
      delegatedVestingShares := a.delegatedVestingShares + if n = delegator then out else 0
      receivedVestingShares := a.receivedVestingShares + if n = delegatee then inc else 0
      votingManabar := bar }

variable {delegator delegatee : AccountName} {out inc shares : Int} {d : VestingDelegation}
  {e : Nat × VestingDelegationExpiration}

/-- One delegation is written: it is for `δ` more shares than before, and for no less than none. -/
structure Rewrites (k : AccountName × AccountName) (δ : Int)
    (t t' : Table (AccountName × AccountName) VestingDelegation) : Prop where
  sum : ∀ (f : AccountName × AccountName → Prop) [DecidablePred f],
    (t'.sum fun k d => if f k then d.vestingShares else 0) =
      (t.sum fun k d => if f k then d.vestingShares else 0) + if f k then δ else 0
  written : ∀ k d, t'.find? k = some d → t.find? k = some d ∨ 0 ≤ d.vestingShares

namespace Rewrites

variable {t : Table (AccountName × AccountName) VestingDelegation} {k : AccountName × AccountName}

theorem emplace (hk : t.find? k = none) (hnonneg : 0 ≤ shares) (time : Nat) :
    Rewrites k shares t (t.emplace k ⟨shares, time⟩) where
  sum f _ := sum_emplace hk ..
  written k' d hd := by
    rw [find?_emplace, hk] at hd
    split at hd
    · cases hd
      exact .inr hnonneg
    · exact .inl hd

theorem modify (hk : t.find? k = some d) (hnonneg : 0 ≤ shares) :
    Rewrites k (shares - d.vestingShares) t
      (t.modify k fun d => { d with vestingShares := shares }) where
  sum f _ := by
    rw [sum_modify hk]
    split <;> ring
  written k' d' hd' := by
    rw [find?_modify] at hd'
    split at hd'
    · obtain ⟨d₁, -, rfl⟩ := map_eq_some_iff.mp hd'
      exact .inr hnonneg
    · exact .inl hd'

theorem erase (hk : t.find? k = some d) : Rewrites k (0 - d.vestingShares) t (t.erase k) where
  sum f _ := by
    rw [Table.sum_erase hk]
    split <;> ring
  written k' d' hd' := by
    rw [find?_erase] at hd'
    split at hd'
    · cases hd'
    · exact .inl hd'

theorem refl : Rewrites k 0 t t where
  sum f _ := by rw [ite_self, add_zero]
  written _ _ hd := .inl hd

end Rewrites

/-- **Shares that move are written down.** -/
theorem Sound.moved (hs : Sound db) (hm : Moved delegator delegatee out inc db db')
    (hw : Rewrites (delegator, delegatee) inc db.vestingDelegations db'.vestingDelegations)
    (hfree : ∀ a, db.accounts.find? delegator = some a →
      a.delegatedVestingShares + out + outstanding a ≤ a.vestingShares)
    (hback : ∀ n, returningTo db'.vestingDelegationExpirations n =
      returningTo db.vestingDelegationExpirations n + if delegator = n then out - inc else 0)
    (hexpirations : ∀ id x, db'.vestingDelegationExpirations.find? id = some x →
      0 ≤ x.vestingShares ∧ id < db'.nextDelegationExpirationId) : Sound db' where
  backed n a' ha' := by
    obtain ⟨a, bar, ha, rfl⟩ := hm n a' ha'
    obtain ⟨hrun, henough⟩ := hs.backed n a ha
    refine ⟨fun hnext => ?_, ?_⟩
    · obtain ⟨hdue, hrate, hrounds, hnonneg, hlt⟩ := hrun hnext
      exact ⟨hdue, hrate, hrounds, hnonneg, hlt⟩
    · have hrest : ∀ x y bar, outstanding { a with
          delegatedVestingShares := x, receivedVestingShares := y, votingManabar := bar } =
          outstanding a := fun _ _ _ => rfl
      rw [hrest]
      dsimp only
      split
      · next hn => exact hfree a (hn ▸ ha)
      · omega
  delegated n a' ha' := by
    obtain ⟨a, bar, ha, rfl⟩ := hm n a' ha'
    have hold := hs.delegated n a ha
    simp only [lentBy, hw.sum (·.1 = n), hback n, eq_comm (a := n)] at hold ⊢
    split <;> omega
  received n a' ha' := by
    obtain ⟨a, bar, ha, rfl⟩ := hm n a' ha'
    simp only [lentTo, hw.sum (·.2 = n), hs.received n a ha, eq_comm (a := n)]
  delegation_nonneg k d hd := (hw.written k d hd).elim (hs.delegation_nonneg k d) id
  expiration_nonneg id x hx := (hexpirations id x hx).1
  expiration_id id x hx := (hexpirations id x hx).2

/-- Lending moves the same shares out of the one account and into the other. -/
theorem lendShares_moved (hne : delegator ≠ delegatee)
    (h : db.lendShares delegator delegatee shares = .ok db') :
    Moved delegator delegatee shares shares db db' ∧ db' = { db with accounts := db'.accounts } := by
  simp only [lendShares, eq_ok, getAccount_eq_ok] at h
  obtain ⟨b, hb, b₁, hmana, rfl⟩ := h
  obtain ⟨bar, rfl, -⟩ := Account.gainVotingMana_eq hmana
  have hb' : db.accounts.find? delegatee = some b :=
    (find?_modify_ne _ _ hne.symm).symm.trans hb
  refine ⟨fun n a' ha' => ?_, rfl⟩
  simp only [Database.modifyAccount, find?_modify] at ha'
  split at ha'
  · next hn =>
    subst hn
    rw [if_neg hne.symm, hb', map_some, some.injEq] at ha'
    subst ha'
    exact ⟨b, bar, hb', by simp [hne.symm]⟩
  · next hn =>
    split at ha'
    · next hn' =>
      subst hn'
      obtain ⟨a, ha, rfl⟩ := map_eq_some_iff.mp ha'
      exact ⟨a, a.votingManabar.useMana shares, ha, by simp [hne]⟩
    · next hn' => exact ⟨a', a'.votingManabar, ha', by simp [hn, hn']⟩

-- # Delegations

theorem Sound.lent {accounts : Table AccountName Account}
    {t : Table (AccountName × AccountName) VestingDelegation} (hs : Sound db)
    (hm : Moved delegator delegatee shares shares db { db with accounts := accounts })
    (hw : Rewrites (delegator, delegatee) shares db.vestingDelegations t)
    (hfree : ∀ a, db.accounts.find? delegator = some a →
      a.delegatedVestingShares + shares + outstanding a ≤ a.vestingShares) :
    Sound { db with accounts := accounts, vestingDelegations := t } :=
  hs.moved hm hw hfree (fun n => by rw [sub_self, ite_self, add_zero])
    fun id x hx => ⟨hs.expiration_nonneg id x hx, hs.expiration_id id x hx⟩

theorem decreaseDelegation_sound {minDelegation minUpdate : Int}
    (hs : Sound db) (hnonneg : 0 ≤ shares) (hless : shares < d.vestingShares)
    (hd : db.vestingDelegations.find? (delegator, delegatee) = some d)
    (h : db.decreaseDelegation delegator delegatee d shares minDelegation minUpdate = .ok db') :
    Sound db' := by
  simp only [decreaseDelegation, eq_ok] at h
  obtain ⟨_, -, rfl⟩ := h
  have hfresh : db.vestingDelegationExpirations.find? db.nextDelegationExpirationId = none := by
    cases hx : db.vestingDelegationExpirations.find? db.nextDelegationExpirationId with
    | none => rfl
    | some x => exact absurd (hs.expiration_id _ x hx) (lt_irrefl _)
  -- the delegatee loses the shares, and the delegator has them lent until they are back
  have hmoved : Moved delegator delegatee 0 (-(d.vestingShares - shares)) db
      (db.modifyAccount delegatee fun a => a.loseReceived (d.vestingShares - shares)) := by
    intro n a' ha'
    simp only [Database.modifyAccount, find?_modify] at ha'
    split at ha'
    · next hn =>
      obtain ⟨a, ha, rfl⟩ := map_eq_some_iff.mp ha'
      refine ⟨a, (a.loseReceived (d.vestingShares - shares)).votingManabar, ha, ?_⟩
      rw [if_pos hn, ite_self, add_zero, ← sub_eq_add_neg]
      rfl
    · next hn =>
      refine ⟨a', a'.votingManabar, ha', ?_⟩
      rw [if_neg hn, ite_self, add_zero, add_zero]
  refine hs.moved hmoved ?_ (fun a ha => ?_) (fun n => ?_) fun id x hx => ?_
  · rw [neg_sub]
    dsimp only [Database.modifyAccount]
    split
    · exact .modify hd hnonneg
    · obtain rfl : shares = 0 := by omega
      exact .erase hd
  · have := (hs.backed delegator a ha).enough
    omega
  · -- what is no longer lent is on its way back
    simp only [returningTo, sum_emplace hfresh, zero_sub, neg_neg]
  · dsimp only [Database.modifyAccount] at hx ⊢
    rw [find?_emplace, hfresh] at hx
    split at hx
    · next hid =>
      cases hx
      exact ⟨sub_nonneg.mpr hless.le, by omega⟩
    · exact ⟨hs.expiration_nonneg id x hx, Nat.lt_succ_of_lt (hs.expiration_id id x hx)⟩

/-- **Lending.** What is lent is covered by shares that are neither lent nor powered down. -/
theorem delegateVestingShares_sound (hs : Sound db)
    (h : db.delegateVestingShares delegator delegatee shares = .ok db') : Sound db' := by
  simp only [delegateVestingShares, eq_ok, getAccount_eq_ok] at h
  obtain ⟨hne, hnonneg, a, ha, b, -, a₁, hmana, minDelegation, -, minUpdate, -, hstore⟩ := h
  obtain ⟨bar, rfl, hbar⟩ := Account.regenerateVotingMana_eq hmana
  have hg : Gains db (db.modifyAccount delegator fun _ => { a with votingManabar := bar }) := by
    refine Gains.modifyAccount fun b hb => ?_
    obtain rfl : a = b := mem_unique ha hb
    exact ⟨le_rfl, rfl, rfl, rfl, rfl, rfl, rfl, hbar⟩
  have hs₁ := hs.gains hg
  have ha₁ : (db.modifyAccount delegator fun _ =>
      { a with votingManabar := bar }).accounts.find? delegator =
      some { a with votingManabar := bar } := by
    rw [Database.modifyAccount, find?_modify_self, ha]
    rfl
  have hfree := (hs₁.backed delegator _ ha₁).availableShares_le
  have hfree' : ∀ {more}, more ≤ ({ a with votingManabar := bar } : Account).availableShares
        a.effectiveVestingShares → ∀ b, (db.modifyAccount delegator fun _ =>
      { a with votingManabar := bar }).accounts.find? delegator = some b →
      b.delegatedVestingShares + more + outstanding b ≤ b.vestingShares := by
    intro more hmore b hb
    obtain rfl := mem_unique ha₁ hb
    have heffective : ({ a with votingManabar := bar } : Account).effectiveVestingShares =
        a.effectiveVestingShares := rfl
    rw [heffective] at hfree
    omega
  unfold storeDelegation at hstore
  split at hstore
  · next hnone =>
    simp only [createDelegation, eq_ok] at hstore
    obtain ⟨henough, -, hlend⟩ := hstore
    obtain ⟨hmoved, hframe⟩ := lendShares_moved hne hlend
    rw [hframe] at hmoved ⊢
    exact hs₁.lent hmoved (.emplace hnone hnonneg _) (hfree' henough)
  · next d hd =>
    split at hstore
    · simp only [increaseDelegation, eq_ok] at hstore
      obtain ⟨-, henough, db₁, hlend, rfl⟩ := hstore
      obtain ⟨hmoved, hframe⟩ := lendShares_moved hne hlend
      rw [hframe] at hmoved ⊢
      exact hs₁.lent hmoved (.modify hd hnonneg) (hfree' henough)
    · next hless => exact decreaseDelegation_sound hs₁ hnonneg (not_le.mp hless) hd hstore

-- # Shares that return

theorem returnDelegation_sound (hs : Sound db)
    (he : db.vestingDelegationExpirations.find? e.1 = some e.2)
    (h : db.returnDelegation e = .ok db') : Sound db' := by
  simp only [returnDelegation, eq_ok, getAccount_eq_ok] at h
  obtain ⟨a, ha, a₁, hmana, rfl⟩ := h
  obtain ⟨bar, rfl, -⟩ := Account.gainVotingMana_eq hmana
  have hback := hs.expiration_nonneg e.1 e.2 he
  have hmoved : Moved e.2.delegator e.2.delegator (-e.2.vestingShares) 0 db
      { db.modifyAccount e.2.delegator fun _ =>
          { a with
            votingManabar := bar
            delegatedVestingShares := a.delegatedVestingShares - e.2.vestingShares } with
        vestingDelegationExpirations := db.vestingDelegationExpirations.erase e.1 } := by
    intro n a' ha'
    simp only [Database.modifyAccount, find?_modify] at ha'
    split at ha'
    · next hn =>
      subst hn
      rw [ha, map_some, some.injEq] at ha'
      subst ha'
      exact ⟨a, bar, ha, by simp [sub_eq_add_neg]⟩
    · next hn => exact ⟨a', a'.votingManabar, ha', by simp [hn]⟩
  refine hs.moved hmoved .refl (fun b hb => ?_) (fun n => ?_) fun id x hx => ?_
  · have := (hs.backed e.2.delegator b hb).enough
    omega
  · simp only [Database.modifyAccount, returningTo, Table.sum_erase he]
    split <;> ring
  · rw [find?_erase] at hx
    split at hx
    · cases hx
    · exact ⟨hs.expiration_nonneg id x hx, hs.expiration_id id x hx⟩

/-- What holds inside of `clear_expired_delegations`, with what it has still to go through. -/
structure Clearing (expired : List (Nat × VestingDelegationExpiration)) (db : Database) : Prop where
  sound : Sound db
  ids : (expired.map Prod.fst).Nodup
  found : ∀ e ∈ expired, db.vestingDelegationExpirations.find? e.1 = some e.2

theorem returnDelegation_clearing {expired : List (Nat × VestingDelegationExpiration)}
    (hc : Clearing (e :: expired) db) (h : db.returnDelegation e = .ok db') :
    Clearing expired db' := by
  have hids := hc.ids
  rw [map_cons, nodup_cons] at hids
  refine ⟨returnDelegation_sound hc.sound (hc.found e mem_cons_self) h, hids.2,
    fun x hx => ?_⟩
  have hother : x.1 ≠ e.1 := fun hid => hids.1 (hid ▸ mem_map_of_mem hx)
  simp only [returnDelegation, eq_ok] at h
  obtain ⟨a, -, a₁, -, rfl⟩ := h
  rw [find?_erase, if_neg hother]
  exact hc.found x (mem_cons_of_mem e hx)

theorem clearing_start (hs : Sound db) (p : Nat × VestingDelegationExpiration → Bool)
    (r : Nat × VestingDelegationExpiration → Nat × VestingDelegationExpiration → Prop)
    [DecidableRel r] :
    Clearing ((db.vestingDelegationExpirations.entries.filter p).insertionSort r) db where
  sound := hs
  ids := ((perm_insertionSort r _).map Prod.fst).nodup_iff.mpr
    (db.vestingDelegationExpirations.nodup.sublist (filter_sublist.map Prod.fst))
  found e he := by
    rw [mem_insertionSort, mem_filter] at he
    exact mem_entries_iff.mp he.1

theorem clearExpiredDelegations_sound (hs : Sound db)
    (h : db.clearExpiredDelegations = .ok db') : Sound db' :=
  (foldlM_induct_rest Clearing (fun _ _ _ _ hc hstep => returnDelegation_clearing hc hstep)
    (clearing_start hs _ _) h).sound

end DeltaChain.Delegation

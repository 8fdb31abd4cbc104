import DeltaChain.Lib.Bytes
import DeltaChain.Smt.Operations

/-!
# Numeric asset identifiers

A symbol is shown as a NAI: eight data digits and the check digit of the Damm algorithm. The check
digit finds every wrong digit and every swap of neighbours (`check_digit_detects`).

The numbers of tokens and of the core symbols share 32 bits, and one token has the number of DELTA
(`nai_faithful_iff`). The parser bounds all nine digits by the bound for eight, so it refuses every
token whose first digit is not zero (`nai_string_back_iff`). The packed form of a symbol is not the
only one that is read: the number of a core symbol is, too (`unpack_canonical_iff`).
-/

namespace DeltaChain.Smt

open Lib Protocol Checked List
open Bytes (encode decode encode_decode decode_encode_of_lt length_encode)

-- # Check digits

/-- An operation in which every wrong digit and every swap of digits shows. -/
structure Detecting {α : Type} (f : α → α → α) : Prop where
  digit : ∀ x, Function.Injective (f x)
  interim : ∀ d, Function.Injective (f · d)
  swap : ∀ x a b, f (f x a) b = f (f x b) a → a = b

/-- One digit is changed, or two neighbours are swapped. -/
inductive Misread {α : Type} : List α → List α → Prop
  | changed (l r : List α) {a b : α} : a ≠ b → Misread (l ++ a :: r) (l ++ b :: r)
  | swapped (l r : List α) {a b : α} : a ≠ b → Misread (l ++ a :: b :: r) (l ++ b :: a :: r)

section
variable {α : Type} {f : α → α → α} {s s' : List α}

theorem Misread.length_eq (h : Misread s s') : s'.length = s.length := by
  cases h <;> simp

theorem Detecting.foldl_injective (hf : Detecting f) (l : List α) :
    Function.Injective fun x => l.foldl f x := by
  induction l with
  | nil => exact Function.injective_id
  | cons d l ih => exact ih.comp (hf.interim d)

theorem Detecting.foldl_ne (hf : Detecting f) (h : Misread s s') (x : α) :
    s.foldl f x ≠ s'.foldl f x := by
  cases h with
  | changed l r hne =>
    rw [foldl_append, foldl_append]
    exact fun heq => hne (hf.digit _ (hf.foldl_injective r heq))
  | swapped l r hne =>
    rw [foldl_append, foldl_append]
    exact fun heq => hne (hf.swap _ _ _ (hf.foldl_injective r heq))

end

/-- The table `t` of `damm_checksum_8digit`. Its entries are ten times the interim digit. -/
def dammTable : List Nat :=
  [0, 30, 10, 70, 50, 90, 80, 60, 40, 20,
   70, 0, 90, 20, 10, 50, 40, 80, 60, 30,
   40, 20, 0, 60, 80, 70, 10, 30, 50, 90,
   10, 70, 50, 0, 90, 80, 30, 40, 20, 60,
   60, 10, 20, 30, 0, 40, 50, 90, 70, 80,
   30, 60, 70, 40, 20, 0, 90, 50, 80, 10,
   50, 80, 60, 90, 70, 20, 0, 10, 30, 40,
   80, 90, 40, 50, 30, 60, 20, 0, 10, 70,
   90, 40, 30, 80, 60, 10, 70, 20, 0, 50,
   20, 50, 80, 10, 40, 30, 60, 70, 90, 0]

/-- `t[x+d]`. -/
def dammStep (x d : Nat) : Nat := dammTable.getD (x + d) 0

def dammChecksum8digit (value : Nat) : Checked Nat := do
  assert (value < 100000000) "value < 100000000"
  let q0 := value / 10
  let q1 := q0 / 10
  let q2 := q1 / 10
  let q3 := q2 / 10
  let q4 := q3 / 10
  let q5 := q4 / 10
  let x := dammStep 0 (q5 / 10)
  let x := dammStep x (q5 % 10)
  let x := dammStep x (q4 % 10)
  let x := dammStep x (q3 % 10)
  let x := dammStep x (q2 % 10)
  let x := dammStep x (q1 % 10)
  let x := dammStep x (q0 % 10)
  let x := dammStep x (value % 10)
  return x / 10

/-- The operation on digits behind the table. -/
def damm (x d : Fin 10) : Fin 10 := Fin.ofNat 10 (dammStep (10 * x) d / 10)

theorem damm_detecting : Detecting damm := by
  refine ⟨?_, ?_, by decide +kernel⟩ <;> unfold Function.Injective <;> decide +kernel

theorem dammStep_eq : ∀ x d : Fin 10, dammStep (10 * x) d = 10 * damm x d := by decide +kernel

/-- The number with these digits. -/
def number (s : List (Fin 10)) : Nat := s.foldl (fun n d => n * 10 + d.val) 0

theorem number_concat (s : List (Fin 10)) (d : Fin 10) : number (s ++ [d]) = number s * 10 + d := by
  simp [number]

theorem dammChecksum8digit_number {s : List (Fin 10)} (h : s.length = 8) :
    dammChecksum8digit (number s) = .ok (s.foldl damm 0).val := by
  match s, h with
  | [d7, d6, d5, d4, d3, d2, d1, d0], _ =>
    have hstart : dammStep 0 d7 = 10 * damm 0 d7 := dammStep_eq 0 d7
    have hvalue : number [d7, d6, d5, d4, d3, d2, d1, d0] = ((((((d7.val * 10 + d6) * 10 + d5) * 10 +
        d4) * 10 + d3) * 10 + d2) * 10 + d1) * 10 + d0 := by
      simp [number]
    have hquot : ∀ (q : Nat) (d : Fin 10), (q * 10 + d.val) / 10 = q ∧ (q * 10 + d.val) % 10 = d :=
      fun q d => by omega
    rw [hvalue, dammChecksum8digit, (assert_eq_ok (u := ())).mpr (by omega), ok_bind]
    simp only [hquot, hstart, dammStep_eq, foldl_cons, foldl_nil]
    exact congrArg Except.ok (Nat.mul_div_cancel_left _ (by decide))

/-- The last digits of a number. -/
def digits : Nat → Nat → List (Fin 10)
  | 0, _ => []
  | count + 1, x => digits count (x / 10) ++ [Fin.ofNat 10 x]

theorem digits_spec (count x : Nat) :
    (digits count x).length = count ∧ number (digits count x) = x % 10 ^ count := by
  induction count generalizing x with
  | zero => exact ⟨rfl, (Nat.mod_one x).symm⟩
  | succ count ih =>
    obtain ⟨hlen, hnumber⟩ := ih (x / 10)
    refine ⟨by rw [digits, length_append, hlen]; rfl, ?_⟩
    have hdigit : (Fin.ofNat 10 x).val = x % 10 := rfl
    rw [digits, number_concat, hnumber, hdigit, Nat.pow_succ, Nat.mul_comm (10 ^ count), Nat.mod_mul]
    omega

theorem dammChecksum8digit_eq {value : Nat} (h : value < 100000000) :
    dammChecksum8digit value = .ok ((digits 8 value).foldl damm 0).val := by
  obtain ⟨hlen, hnumber⟩ := digits_spec 8 value
  rw [← dammChecksum8digit_number hlen, hnumber]
  exact congrArg _ (Nat.mod_eq_of_lt h).symm

theorem check_lt {value check : Nat} (h : dammChecksum8digit value = .ok check) : check < 10 := by
  have hvalue : value < 100000000 := by
    simp only [dammChecksum8digit, eq_ok] at h
    exact h.1
  cases (dammChecksum8digit_eq hvalue).symm.trans h
  exact Fin.isLt _

def assetNumFromNai (nai decimalPlaces : Nat) : Checked SymbolNum := do
  assert (smtMinNai ≤ nai / 10 ∧ nai / 10 ≤ smtMaxNai) "NAI out of range"
  let check ← dammChecksum8digit (nai / 10)
  assert (nai % 10 = check) "Invalid check digit"
  SymbolNum.fromNai (nai / 10) decimalPlaces

/-- **The check digit.** Of eight digits and their check digit, no digit can be changed and no two
different neighbours swapped without the NAI being refused. -/
theorem check_digit_detects (data s' : List (Fin 10)) (check : Fin 10) (hlen : data.length = 8)
    (hcheck : dammChecksum8digit (number data) = .ok check.val) (h : Misread (data ++ [check]) s')
    (decimalPlaces : Nat) : ∃ msg, assetNumFromNai (number s') decimalPlaces = .error msg := by
  have hzero : ∀ x d, damm x d = 0 ↔ x = d := by decide +kernel
  rw [dammChecksum8digit_number hlen, Except.ok.injEq, Fin.val_inj] at hcheck
  have hne := damm_detecting.foldl_ne h 0
  have hlen' : s'.length = 9 := by
    rw [h.length_eq, length_append, hlen]
    rfl
  obtain ⟨data', d, rfl⟩ : ∃ data' d, s' = data' ++ [d] :=
    ⟨_, _, (dropLast_append_getLast (ne_nil_of_length_eq_add_one hlen')).symm⟩
  rw [foldl_concat, foldl_concat, hcheck, (hzero check check).mpr rfl] at hne
  have hquot : number (data' ++ [d]) / 10 = number data' ∧ number (data' ++ [d]) % 10 = d := by
    rw [number_concat]
    omega
  cases hrun : assetNumFromNai (number (data' ++ [d])) decimalPlaces with
  | error msg => exact ⟨msg, rfl⟩
  | ok n =>
    -- a NAI that is accepted leads to zero
    simp only [assetNumFromNai, eq_ok, hquot] at hrun
    obtain ⟨-, c, hc, hd, -⟩ := hrun
    rw [dammChecksum8digit_number (by simpa using hlen')] at hc
    cases hc
    exact absurd ((hzero _ _).mpr (Fin.val_inj.mp hd).symm).symm hne

/-- With a wrong digit, and with the last data digit and the check digit swapped. -/
theorem check_digit_detects_sample :
    (∃ msg, assetNumFromNai (number [1, 2, 3, 4, 9, 6, 7, 8, 6]) 3 = .error msg) ∧
      ∃ msg, assetNumFromNai (number [1, 2, 3, 4, 5, 6, 7, 6, 8]) 3 = .error msg :=
  ⟨check_digit_detects [1, 2, 3, 4, 5, 6, 7, 8] _ 6 rfl rfl (.changed [1, 2, 3, 4] _ (by decide)) 3,
    check_digit_detects [1, 2, 3, 4, 5, 6, 7, 8] _ 6 rfl rfl (.swapped [1, 2, 3, 4, 5, 6, 7] []
      (by decide)) 3⟩

-- # Numbers of symbols

/-- `to_nai`. -/
def SymbolNum.toNaiChecked (n : SymbolNum) : Checked Nat := do
  let check ← dammChecksum8digit n.toNai
  return n.toNai * 10 + check

variable {n : SymbolNum} {data decimalPlaces : Nat}

theorem assetNumFromNai_eq_ok {nai decimalPlaces : Nat} :
    assetNumFromNai nai decimalPlaces = .ok n ↔ dammChecksum8digit (nai / 10) = .ok (nai % 10) ∧
      SymbolNum.fromNai (nai / 10) decimalPlaces = .ok n := by
  simp only [assetNumFromNai, SymbolNum.fromNai, eq_ok]
  constructor
  · rintro ⟨-, c, hc, rfl, h⟩
    exact ⟨hc, h⟩
  · rintro ⟨hc, h⟩
    exact ⟨h.1, _, hc, rfl, h⟩

/-- The data digits and the precision of the token that has the number of DELTA. -/
def Shadow (nai decimalPlaces : Nat) : Prop := nai / 10 = 50000000 ∧ decimalPlaces = 3

theorem assetNum_eq : Symbol.dbd.assetNum = 1600000003 ∧ Symbol.delta.assetNum = 1600000019 ∧
    Symbol.vests.assetNum = 1600000038 := ⟨rfl, rfl, rfl⟩

theorem fromNai_eq_ok :
    SymbolNum.fromNai data decimalPlaces = .ok n ↔
      data = 2 ∧ decimalPlaces = 3 ∧ Symbol.delta.assetNum = n ∨
      data = 1 ∧ decimalPlaces = 3 ∧ Symbol.dbd.assetNum = n ∨
      data = 3 ∧ decimalPlaces = 6 ∧ Symbol.vests.assetNum = n ∨
      4 ≤ data ∧ data ≤ smtMaxNai ∧ decimalPlaces ≤ assetMaxDecimals ∧
        data * 32 + 16 + decimalPlaces = n := by
  simp only [SymbolNum.fromNai, eq_ok]
  unfold smtMinNai smtMaxNai
  split
  · simp only [eq_ok]
    omega
  · split
    · simp only [eq_ok]
      omega
    · split
      · simp only [eq_ok]
        omega
      · simp only [eq_ok]
        unfold SymbolNum
        omega

theorem fromNai_faithful (h : SymbolNum.fromNai data decimalPlaces = .ok n) : n.validate = .ok () ∧
      n.decimals = decimalPlaces ∧ (n.toNai = data ↔ ¬ (data = 50000000 ∧ decimalPlaces = 3)) := by
  rcases fromNai_eq_ok.mp h with ⟨rfl, rfl, rfl⟩ | ⟨rfl, rfl, rfl⟩ | ⟨rfl, rfl, rfl⟩ |
    ⟨hlow, hhigh, hd, rfl⟩
  · exact ⟨rfl, rfl, by decide⟩
  · exact ⟨rfl, rfl, by decide⟩
  · exact ⟨rfl, rfl, by decide⟩
  · obtain ⟨hdbd, hdelta, hvests⟩ := assetNum_eq
    unfold smtMaxNai assetMaxDecimals at *
    refine ⟨?_, ?_, ?_⟩
    · simp only [SymbolNum.validate, whenever_eq_ok, eq_ok]
      unfold SymbolNum.decimals smtMinNai smtMaxNai assetMaxDecimals SymbolNum
      omega
    · unfold SymbolNum.decimals
      omega
    · rw [SymbolNum.toNai, hdelta, hdbd, hvests]
      unfold SymbolNum
      split
      · omega
      · split
        · omega
        · split <;> omega

/-- **From a NAI to a symbol and back.** What is accepted is a valid symbol with the given number and
precision, but for one token; and apart from that token no two of them are one symbol. -/
theorem nai_faithful_iff (nai decimalPlaces : Nat) (n : SymbolNum)
    (h : assetNumFromNai nai decimalPlaces = .ok n) :
    ((n.validate = .ok () ∧ n.toNaiChecked = .ok nai ∧ n.decimals = decimalPlaces) ↔
        ¬ Shadow nai decimalPlaces) ∧
      ∀ nai' decimalPlaces', assetNumFromNai nai' decimalPlaces' = .ok n →
        ¬ Shadow nai decimalPlaces → ¬ Shadow nai' decimalPlaces' →
        nai' = nai ∧ decimalPlaces' = decimalPlaces := by
  obtain ⟨hcheck, hnum⟩ := assetNumFromNai_eq_ok.mp h
  obtain ⟨hvalid, hdecimals, hdata⟩ := fromNai_faithful hnum
  refine ⟨⟨fun hback => hdata.mp ?_, fun hclear => ⟨hvalid, ?_, hdecimals⟩⟩,
    fun nai' decimalPlaces' h' hclear hclear' => ?_⟩
  · simp only [SymbolNum.toNaiChecked, eq_ok] at hback
    obtain ⟨-, ⟨check, hcheck', hnai⟩, -⟩ := hback
    have hdigit := check_lt hcheck'
    omega
  · rw [SymbolNum.toNaiChecked, hdata.mpr hclear, hcheck, ok_bind, Nat.mul_comm, Nat.div_add_mod]
    rfl
  · obtain ⟨hcheck', hnum'⟩ := assetNumFromNai_eq_ok.mp h'
    obtain ⟨-, hdecimals', hdata'⟩ := fromNai_faithful hnum'
    have hsame : nai' / 10 = nai / 10 := (hdata'.mpr hclear').symm.trans (hdata.mpr hclear)
    rw [hsame, hcheck, Except.ok.injEq] at hcheck'
    exact ⟨by omega, hdecimals'.symm.trans hdecimals⟩

theorem nai_faithful_token : assetNumFromNai 123456786 3 = .ok 395061715 ∧
    SymbolNum.toNaiChecked 395061715 = .ok 123456786 :=
  have h : assetNumFromNai 123456786 3 = .ok 395061715 := rfl
  ⟨h, ((nai_faithful_iff 123456786 3 395061715 h).1.mpr fun hs => absurd hs.1 (by decide)).2.1⟩

/-- The token with the data digits 50000000 and three decimals is DELTA. -/
theorem token_is_delta : assetNumFromNai 500000007 3 = .ok Symbol.delta.assetNum ∧
    assetNumFromNai 21 3 = .ok Symbol.delta.assetNum ∧
    SymbolNum.toNaiChecked Symbol.delta.assetNum = .ok 21 := ⟨rfl, rfl, rfl⟩

-- # Printed symbols

def digitChar (d : Fin 10) : Char := Char.ofNat (d + 48)

/-- Nine digits, the first of which is all that is left of the number. -/
def SymbolNum.toNaiString (n : SymbolNum) : Checked (List Char) := do
  let x ← n.toNaiChecked
  return '@' :: '@' :: (digits 9 x).map digitChar

/-- The loop of `from_nai_string` over the digits; returns the number, the count of digits and what
is left. -/
def parseDigits : List Char → Nat → Nat → Checked (Nat × Nat × List Char)
  | [], nai, digitCount => return (nai, digitCount, [])
  | c :: p, nai, digitCount =>
    if c.isDigit then do
      let newNai := nai * 10 + (c.toNat - 48)
      assert (nai ≤ newNai) "Cannot parse asset amount"
      assert (newNai ≤ smtMaxNai) "Cannot parse asset amount"
      parseDigits p newNai (digitCount + 1)
    else return (nai, digitCount, c :: p)

def skipBlanks (p : List Char) : List Char := p.dropWhile (· ∈ [' ', '\t', '\n', '\r'])

def fromNaiString (p : List Char) (decimalPlaces : Nat) : Checked SymbolNum :=
  match skipBlanks p with
  | '@' :: '@' :: p => do
    let (nai, digitCount, p) ← parseDigits p 0 0
    assert (digitCount = 9) "digit_count == 9"
    let n ← assetNumFromNai nai decimalPlaces
    assert (skipBlanks p = []) "Cannot parse asset symbol"
    return n
  | _ => .error "Cannot parse asset symbol"

/-- The object that `to_variant` makes of an asset. -/
structure AssetVariant where
  amount : String
  precision : Nat
  nai : List Char

def toVariant (a : SmtAsset) : Checked AssetVariant := do
  let nai ← a.symbol.toNaiString
  return ⟨a.amount.repr, a.symbol.decimals, nai⟩

def fromVariant (v : AssetVariant) : Checked SmtAsset := do
  let amount ← Checked.get v.amount.toInt? "bad lexical cast"
  assert (-2 ^ 63 ≤ amount ∧ amount < 2 ^ 63) "bad lexical cast"
  assert (0 ≤ amount) "Asset amount cannot be negative"
  let symbol ← fromNaiString v.nai (v.precision % 256)
  return ⟨amount, symbol⟩

/-- The bound on the digits is a bound on the number. -/
theorem parseDigits_digits (s : List (Fin 10)) {nai count : Nat} {r : Nat × Nat × List Char}
    (h : nai ≤ smtMaxNai) : parseDigits (s.map digitChar) nai count = .ok r ↔
      s.foldl (fun n d => n * 10 + d.val) nai ≤ smtMaxNai ∧
        r = (s.foldl (fun n d => n * 10 + d.val) nai, count + s.length, []) := by
  have hgrows : ∀ (s : List (Fin 10)) (n : Nat), n ≤ s.foldl (fun n d => n * 10 + d.val) n := by
    intro s
    induction s with
    | nil => exact fun n => le_rfl
    | cons d s ih => exact fun n => le_trans (show n ≤ n * 10 + d.val by omega) (ih _)
  induction s generalizing nai count with
  | nil =>
    refine ⟨?_, fun hr => hr.2 ▸ rfl⟩
    rintro ⟨⟩
    exact ⟨h, rfl⟩
  | cons d s ih =>
    have hchar : ∀ d : Fin 10, (digitChar d).isDigit = true ∧ (digitChar d).toNat - 48 = d := by decide
    simp only [map_cons, parseDigits, hchar, if_true, eq_ok, foldl_cons, length_cons]
    constructor
    · rintro ⟨-, hnew, hrest⟩
      rw [Nat.add_comm s.length, ← Nat.add_assoc]
      exact (ih hnew).mp hrest
    · rintro ⟨hle, hr⟩
      have hnew := (hgrows s _).trans hle
      rw [Nat.add_comm s.length, ← Nat.add_assoc] at hr
      exact ⟨by omega, hnew, (ih hnew).mpr ⟨hle, hr⟩⟩

theorem fromNaiString_toNaiString (h : n.toNai ≤ smtMaxNai) :
    ∃ s, n.toNaiString = .ok s ∧ ∀ decimalPlaces m, fromNaiString s decimalPlaces = .ok m ↔
      n.toNai ≤ 9999999 ∧ SymbolNum.fromNai n.toNai decimalPlaces = .ok m := by
  have hcheck := dammChecksum8digit_eq (Nat.lt_succ_of_le h)
  generalize (digits 8 n.toNai).foldl damm 0 = check at hcheck
  have hnai : n.toNaiChecked = .ok (n.toNai * 10 + check) := by
    rw [SymbolNum.toNaiChecked, hcheck]
    rfl
  obtain ⟨hlen, hnumber⟩ := digits_spec 9 (n.toNai * 10 + check)
  have hquot : (n.toNai * 10 + check.val) / 10 = n.toNai ∧ (n.toNai * 10 + check.val) % 10 = check := by
    omega
  have hbound : n.toNai * 10 + check ≤ smtMaxNai ↔ n.toNai ≤ 9999999 := by
    unfold smtMaxNai
    omega
  unfold smtMaxNai at h
  rw [Nat.mod_eq_of_lt (by omega), number] at hnumber
  refine ⟨_, by rw [SymbolNum.toNaiString, hnai]; rfl, fun decimalPlaces m => ?_⟩
  show (parseDigits _ 0 0 >>= _) = _ ↔ _
  simp only [eq_ok, parseDigits_digits _ (Nat.zero_le smtMaxNai), hnumber, hlen, hbound,
    assetNumFromNai_eq_ok]
  constructor
  · rintro ⟨_, ⟨hle, rfl⟩, -, _, ⟨-, hfrom⟩, -, rfl⟩
    exact ⟨hle, hquot.1 ▸ hfrom⟩
  · rintro ⟨hle, hfrom⟩
    exact ⟨_, ⟨hle, rfl⟩, rfl, m, ⟨by rw [hquot.1, hquot.2]; exact hcheck, hquot.1.symm ▸ hfrom⟩, rfl, rfl⟩

/-- The symbols that the parser reads back: the core symbols, and tokens below the ones that can be
created but above the three numbers of the core symbols. -/
def Readable (n : SymbolNum) : Prop := n.isLegacy ∨ 4 ≤ n / 32 ∧ n / 32 ≤ 9999999

/-- **Printing and parsing a symbol.** The parser gives back what was printed exactly for the
readable symbols, and so does the conversion of assets to variants. -/
theorem nai_string_back_iff (n : SymbolNum) (h : n.validate = .ok ()) :
    ((n.toNaiString >>= fun s => fromNaiString s n.decimals) = .ok n ↔ Readable n) ∧
      ∀ amount : Int, 0 ≤ amount → amount < 2 ^ 63 →
        ((toVariant ⟨amount, n⟩ >>= fromVariant) = .ok ⟨amount, n⟩ ↔ Readable n) := by
  have hback : n.toNai ≤ smtMaxNai ∧
      (n.toNai ≤ 9999999 ∧ SymbolNum.fromNai n.toNai n.decimals = .ok n ↔ Readable n) := by
    by_cases hlegacy : n.isLegacy
    · rcases hlegacy with rfl | rfl | rfl
      all_goals exact ⟨by decide, iff_of_true ⟨by decide, rfl⟩ (Or.inl (by decide))⟩
    · simp only [SymbolNum.validate, whenever_eq_ok, eq_ok] at h
      obtain ⟨hmin, hmax, hbit, hdecimals⟩ := h hlegacy
      have hdata : n.toNai = n / 32 := by
        unfold SymbolNum.isLegacy at hlegacy
        rw [SymbolNum.toNai, if_neg (by tauto), if_neg (by tauto), if_neg (by tauto)]
      rw [hdata, Readable, or_iff_right hlegacy]
      refine ⟨hmax, ?_, ?_⟩
      · rintro ⟨hle, hfrom⟩
        refine ⟨?_, hle⟩
        -- the first three numbers are those of the core symbols
        rcases fromNai_eq_ok.mp hfrom with hcore | hcore | hcore | htoken
        · exact absurd (Or.inl hcore.2.2.symm) hlegacy
        · exact absurd (Or.inr (Or.inl hcore.2.2.symm)) hlegacy
        · exact absurd (Or.inr (Or.inr hcore.2.2.symm)) hlegacy
        · exact htoken.1
      · rintro ⟨hle, hsmall⟩
        refine ⟨hsmall, fromNai_eq_ok.mpr (.inr (.inr (.inr ⟨hle, hmax, hdecimals, ?_⟩)))⟩
        unfold SymbolNum.decimals SymbolNum at *
        omega
  obtain ⟨s, hs, hfrom⟩ := fromNaiString_toNaiString hback.1
  have hdecimals : n.decimals % 256 = n.decimals := by
    unfold SymbolNum.decimals
    omega
  refine ⟨?_, fun amount hpos hmax => ?_⟩
  · rw [hs, ok_bind, hfrom, hback.2]
  · rw [← hback.2, ← hfrom, toVariant, hs]
    simp only [ok_bind, pure_bind, fromVariant, Int.toInt?_repr, eq_ok, hdecimals]
    constructor
    · rintro ⟨_, -, -, -, m, hm, heq⟩
      rw [AssetOf.mk.injEq] at heq
      exact heq.2 ▸ hm
    · intro hm
      exact ⟨amount, rfl, ⟨by omega, hmax⟩, hpos, n, hm, rfl⟩

theorem nai_string_back_delta : Readable Symbol.delta.assetNum ∧
    (toVariant ⟨5000, Symbol.delta.assetNum⟩ >>= fromVariant) = .ok ⟨5000, Symbol.delta.assetNum⟩ :=
  have h : Readable Symbol.delta.assetNum := .inl (.inl rfl)
  ⟨h, ((nai_string_back_iff Symbol.delta.assetNum rfl).2 5000 (by decide) (by decide)).mpr h⟩

/-- The first token that is not reserved is printed, and not read back. -/
theorem token_not_read_back : SymbolNum.validate 320000019 = .ok () ∧
    (SymbolNum.toNaiString 320000019 >>= fun s => fromNaiString s 3) =
      .error "Cannot parse asset amount" := by
  decide +kernel

-- # Packed symbols

/-- `DELTA_SYMBOL_SER`, `DBD_SYMBOL_SER` and `VESTS_SYMBOL_SER`: the precision, then the name. -/
def symbolSer : Symbol → Nat
  | .delta => 3 + 256 * Nat.ofDigits 256 (['D', 'E', 'L', 'T', 'A'].map Char.toNat)
  | .dbd => 3 + 256 * Nat.ofDigits 256 (['D', 'B', 'D'].map Char.toNat)
  | .vests => 6 + 256 * Nat.ofDigits 256 (['D', 'X'].map Char.toNat)

def pack (n : SymbolNum) : Checked (List UInt8) :=
  if n.isLegacy then
    if n = Symbol.delta.assetNum then return encode 8 (symbolSer .delta)
    else if n = Symbol.dbd.assetNum then return encode 8 (symbolSer .dbd)
    else if n = Symbol.vests.assetNum then return encode 8 (symbolSer .vests)
    else throw "Cannot serialize unknown asset symbol"
  else return encode 4 n

/-- `datastream::read`; returns the bytes, and what follows. -/
def readBytes (count : Nat) (s : List UInt8) : Checked (List UInt8 × List UInt8) := do
  assert (count ≤ s.length) "read datastream over by"
  return (s.take count, s.drop count)

/-- The case of a core symbol in `unpack`: the other half of the number is read. -/
def unpackCore (symbol : Symbol) (word s : List UInt8) : Checked (SymbolNum × List UInt8) := do
  let (high, s) ← readBytes 4 s
  assert (decode (word ++ high) = symbolSer symbol) "invalid asset bits"
  return (symbol.assetNum, s)

/-- The switch of `unpack` on the first word. -/
def unpackWord (word s : List UInt8) : Checked (SymbolNum × List UInt8) :=
  let ser := decode word
  if ser = symbolSer .delta % 2 ^ 32 then unpackCore .delta word s
  else if ser = symbolSer .dbd % 2 ^ 32 then unpackCore .dbd word s
  else if ser = symbolSer .vests % 2 ^ 32 then unpackCore .vests word s
  else return (ser, s)

def unpack (s : List UInt8) : Checked (SymbolNum × List UInt8) := do
  let (word, s) ← readBytes 4 s
  let (n, s) ← unpackWord word s
  n.validate
  return (n, s)

theorem readBytes_eq_ok {count : Nat} {s word rest : List UInt8} :
    readBytes count s = .ok (word, rest) ↔ word.length = count ∧ s = word ++ rest := by
  simp only [readBytes, eq_ok, Prod.mk.injEq]
  constructor
  · rintro ⟨hle, rfl, rfl⟩
    exact ⟨length_take_of_le hle, (take_append_drop _ _).symm⟩
  · rintro ⟨rfl, rfl⟩
    simp

theorem unpackCore_ok {symbol : Symbol} {word s rest : List UInt8}
    (hword : word.length = 4) (h : unpackCore symbol word s = .ok (n, rest)) :
    n = symbol.assetNum ∧ word ++ s = encode 8 (symbolSer symbol) ++ rest := by
  simp only [unpackCore, eq_ok, Prod.exists, Prod.mk.injEq, readBytes_eq_ok] at h
  obtain ⟨high, rest, ⟨hhigh, rfl⟩, hser, rfl, rfl⟩ := h
  have hlength : (word ++ high).length = 8 := by rw [length_append, hword, hhigh]
  rw [← hser, ← hlength, encode_decode, append_assoc]
  exact ⟨rfl, rfl⟩

theorem unpack_packed (symbol : Symbol) (rest : List UInt8) :
    unpack (encode 8 (symbolSer symbol) ++ rest) = .ok (symbol.assetNum, rest) := by
  have hsplit : encode 8 (symbolSer symbol) =
      encode 4 (symbolSer symbol) ++ encode 4 (symbolSer symbol / 2 ^ 32) := by
    cases symbol <;> decide
  have hword : ∀ s, unpackWord (encode 4 (symbolSer symbol)) s =
      unpackCore symbol (encode 4 (symbolSer symbol)) s := by
    cases symbol <;> exact fun s => rfl
  simp only [unpack, eq_ok, Prod.exists, readBytes_eq_ok, hsplit, append_assoc]
  refine ⟨_, _, ⟨length_encode 4 _, rfl⟩, _, _, (hword _).trans ?_, (), ?_, rfl⟩
  · simp only [unpackCore, eq_ok, Prod.exists, readBytes_eq_ok]
    refine ⟨_, _, ⟨length_encode 4 _, rfl⟩, ?_, rfl⟩
    cases symbol <;> decide
  · cases symbol <;> rfl

theorem pack_core (symbol : Symbol) : pack symbol.assetNum = .ok (encode 8 (symbolSer symbol)) := by
  cases symbol <;> rfl

/-- **One packed form.** Unpacking gives back what was packed, whatever follows. What is unpacked was
packed like that exactly if it does not start with the number of a core symbol. -/
theorem unpack_canonical_iff (n : SymbolNum) :
    (∀ rest, n.validate = .ok () →
      ∃ packed, pack n = .ok packed ∧ unpack (packed ++ rest) = .ok (n, rest)) ∧
    ∀ s rest, unpack s = .ok (n, rest) →
      ((∃ packed, pack n = .ok packed ∧ s = packed ++ rest) ↔
        ¬ SymbolNum.isLegacy (decode (s.take 4))) := by
  have hlow : ∀ symbol, symbolSer symbol % 2 ^ 32 % 32 < 16 := by
    rintro (_ | _ | _) <;> decide
  refine ⟨fun rest hvalid => ?_, fun s rest h => ?_⟩
  · by_cases hlegacy : n.isLegacy
    · obtain ⟨symbol, rfl⟩ : ∃ symbol : Symbol, n = symbol.assetNum := by
        rcases hlegacy with h | h | h <;> exact ⟨_, h⟩
      exact ⟨_, pack_core symbol, unpack_packed symbol rest⟩
    · have hfits := hvalid
      simp only [SymbolNum.validate, whenever_eq_ok, eq_ok] at hfits
      obtain ⟨-, hmax, hbit, -⟩ := hfits hlegacy
      unfold smtMaxNai SymbolNum at *
      refine ⟨_, if_neg hlegacy, ?_⟩
      have hne : ∀ symbol, n ≠ symbolSer symbol % 2 ^ 32 := fun symbol heq => by
        have := hlow symbol
        omega
      simp only [unpack, eq_ok, Prod.exists, readBytes_eq_ok]
      refine ⟨_, rest, ⟨length_encode 4 n, rfl⟩, n, rest, ?_, (), hvalid, rfl⟩
      simp only [unpackWord, decode_encode_of_lt (show n < 256 ^ 4 by omega), hne, if_false]
      rfl
  · simp only [unpack, eq_ok, Prod.exists, readBytes_eq_ok] at h
    obtain ⟨word, s, ⟨hword, rfl⟩, _, _, h, -, -, heq⟩ := h
    cases heq
    simp only [unpackWord] at h
    rw [take_left' hword]
    have hcore : ∀ symbol, decode word = symbolSer symbol % 2 ^ 32 →
        unpackCore symbol word s = .ok (n, rest) →
        ((∃ packed, pack n = .ok packed ∧ word ++ s = packed ++ rest) ↔
          ¬ SymbolNum.isLegacy (decode word)) := by
      intro symbol hser h
      obtain ⟨rfl, heq⟩ := unpackCore_ok hword h
      refine iff_of_true ⟨_, pack_core symbol, heq⟩ ?_
      rw [hser]
      cases symbol <;> decide
    split at h
    · next hser => exact hcore _ hser h
    split at h
    · next hser => exact hcore _ hser h
    split at h
    · next hser => exact hcore _ hser h
    cases h
    have hback : encode 4 (decode word) = word := hword ▸ encode_decode word
    constructor
    · rintro ⟨packed, hpack, heq⟩ hlegacy
      obtain ⟨symbol, hsymbol⟩ : ∃ symbol : Symbol, decode word = symbol.assetNum := by
        rcases hlegacy with h | h | h <;> exact ⟨_, h⟩
      rw [hsymbol, pack_core] at hpack
      cases hpack
      have := congrArg List.length heq
      rw [length_append, length_append, length_encode] at this
      omega
    · intro hlegacy
      exact ⟨_, if_neg hlegacy, by rw [hback]⟩

theorem unpack_canonical_token : (∃ packed, pack 395061715 = .ok packed ∧
      unpack (packed ++ [7]) = .ok (395061715, [7])) ∧
    ∃ packed, pack 395061715 = .ok packed ∧ [211, 41, 140, 23, 7] = packed ++ [7] :=
  have h := unpack_canonical_iff 395061715
  ⟨h.1 [7] rfl, (h.2 [211, 41, 140, 23, 7] [7] rfl).mpr (by decide)⟩

/-- The four bytes of the number of DELTA are read as DELTA, which is packed in eight. -/
theorem core_number_unpacked : unpack (encode 4 Symbol.delta.assetNum) =
      .ok (Symbol.delta.assetNum, []) ∧
    pack Symbol.delta.assetNum = .ok (encode 8 (symbolSer .delta)) ∧
    unpack (encode 8 (symbolSer .delta)) = .ok (Symbol.delta.assetNum, []) ∧
    encode 8 (symbolSer .delta) ≠ encode 4 Symbol.delta.assetNum :=
  ⟨rfl, rfl, rfl, by decide⟩

end DeltaChain.Smt

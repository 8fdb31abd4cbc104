import DeltaChain.Smt.Nai

/-!
# Legacy assets

`condenser_api` prints an asset as a decimal number and the name of its symbol. The parser takes
the names from the packed symbols, where VESTS has another one, so only amounts of DELTA and DBD
are read back (`legacy_asset_back_iff`).
-/

namespace DeltaChain.Smt

open Lib Protocol Checked List
open Nat (toDigits ofDigitChars)

def stringToAssetNum (p : List Char) (decimals : Nat) : Checked SymbolNum := do
  let p := skipBlanks p
  let name := p.takeWhile Char.isUpper
  assert (name ≠ [] ∧ name.length ≤ 8) "Cannot parse asset symbol"
  let nameU64 := Nat.ofDigits 256 (name.map Char.toNat)
  let symbol ← get ([.delta, .dbd, .vests].find? (symbolSer · / 256 = nameU64))
    "Cannot parse asset symbol"
  assert (decimals = SymbolNum.decimals symbol.assetNum) "Incorrect decimal places"
  assert (skipBlanks (p.dropWhile Char.isUpper) = []) "Cannot parse asset symbol"
  return symbol.assetNum

def assetNumToString (n : SymbolNum) : List Char :=
  if n = Symbol.delta.assetNum then ['D', 'E', 'L', 'T', 'A']
  else if n = Symbol.dbd.assetNum then ['D', 'B', 'D']
  else if n = Symbol.vests.assetNum then ['T', 'X']
  else ['U', 'N', 'K', 'N']

def precision (symbol : SymbolNum) : Int := 10 ^ symbol.decimals

/-- `legacy_asset::to_string`. -/
def SmtAsset.toString (a : SmtAsset) : List Char :=
  let prec := precision a.symbol
  let fract := if prec > 1 then '.' :: (prec + a.amount.tmod prec).repr.toList.tail else []
  (a.amount.tdiv prec).repr.toList ++ fract ++ ' ' :: assetNumToString a.symbol

/-- `fc::to_int64`. -/
def toInt64 (s : List Char) : Checked Int := do
  let digits := if s.head? = some '-' ∨ s.head? = some '+' then s.tail else s
  assert (digits ≠ [] ∧ ∀ c ∈ digits, c.isDigit) "Couldn't parse int64_t"
  let n : Int := ofDigitChars 10 digits 0
  let n := if s.head? = some '-' then -n else n
  assert (-2 ^ 63 ≤ n ∧ n < 2 ^ 63) "Couldn't parse int64_t"
  return n

def isSpace (c : Char) : Bool := c ∈ [' ', '\t', '\n', '\x0b', '\x0c', '\r']

def trim (s : List Char) : List Char := (s.dropWhile isSpace).rdropWhile isSpace

/-- `legacy_asset::from_string`. -/
def SmtAsset.fromString (s : List Char) : Checked SmtAsset := do
  let s := trim s
  assert (' ' ∈ s) "space_pos != std::string::npos"
  let number := s.takeWhile (· ≠ ' ')
  let strSymbol := (s.dropWhile (· ≠ ' ')).tail
  if '.' ∈ s then do
    assert ('.' ∈ number) "space_pos > dot_pos"
    let fractpart := (number.dropWhile (· ≠ '.')).tail
    let symbol ← stringToAssetNum strSymbol (fractpart.length % 256)
    let int ← toInt64 (number.takeWhile (· ≠ '.'))
    let fract ← toInt64 ('1' :: fractpart)
    -- the arithmetic on the values of the amounts is not checked
    return ⟨(int * precision symbol + fract - precision symbol).bmod (2 ^ 64), symbol⟩
  else do
    let amount ← toInt64 number
    let symbol ← stringToAssetNum strSymbol 0
    return ⟨amount, symbol⟩

theorem ne_of_isDigit {c d : Char} (h : c.isDigit = true) (hd : d.isDigit = false) : c ≠ d := by
  rintro rfl
  simp [hd] at h

theorem isDigit_toDigits {n : Nat} : ∀ c ∈ toDigits 10 n, c.isDigit = true :=
  fun _ => Nat.isDigit_of_mem_toDigits (by decide) (by decide)

theorem toInt64_toDigits {n : Nat} (h : n < 2 ^ 63) : toInt64 (toDigits 10 n) = .ok n := by
  have hhead : ∀ d : Char, d.isDigit = false → (toDigits 10 n).head? ≠ some d :=
    fun d hd hhead => ne_of_isDigit (isDigit_toDigits d (mem_of_mem_head? hhead)) hd rfl
  simp only [toInt64, hhead '-' rfl, hhead '+' rfl, or_self, if_false, eq_ok,
    Nat.ofDigitChars_ten_toDigits]
  exact ⟨⟨Nat.toDigits_ne_nil, isDigit_toDigits⟩, ⟨by omega, by omega⟩, trivial⟩

theorem trim_eq_self {s : List Char} {a c : Char} (ha : s.head? = some a) (hc : s.getLast? = some c)
    (ha' : isSpace a = false) (hc' : isSpace c = false) : trim s = s := by
  obtain ⟨t, rfl⟩ := head?_eq_some_iff.mp ha
  obtain ⟨ys, hys⟩ := getLast?_eq_some_iff.mp hc
  rw [trim, dropWhile_cons_of_neg (by simp [ha']), hys, rdropWhile_concat_neg _ _ _ (by simp [hc'])]

theorem cut {l r : List Char} {d : Char} (h : ∀ c ∈ l, c ≠ d) :
    (l ++ d :: r).takeWhile (· ≠ d) = l ∧ (l ++ d :: r).dropWhile (· ≠ d) = d :: r := by
  have h' : ∀ c ∈ l, decide (c ≠ d) = true := fun c hc => decide_eq_true (h c hc)
  rw [takeWhile_append_of_pos h', dropWhile_append_of_pos h']
  simp

/-- What was printed is cut where the printer put it together. -/
theorem fromString_printed {n : Nat} {fract name : List Char} {c : Char}
    (hfract : ∀ c ∈ fract, c.isDigit = true) (hc : name.getLast? = some c)
    (hc' : isSpace c = false) :
    SmtAsset.fromString (toDigits 10 n ++ '.' :: fract ++ ' ' :: name) = (do
      let symbol ← stringToAssetNum name (fract.length % 256)
      let int ← toInt64 (toDigits 10 n)
      let fract ← toInt64 ('1' :: fract)
      return ⟨(int * precision symbol + fract - precision symbol).bmod (2 ^ 64), symbol⟩) := by
  obtain ⟨a, rest, hn⟩ := exists_cons_of_ne_nil (Nat.toDigits_ne_nil (n := n) (b := 10))
  have ha : isSpace a = false := by
    have := isDigit_toDigits a (hn ▸ mem_cons_self)
    simp [isSpace, ne_of_isDigit this]
  have htrim := trim_eq_self (s := toDigits 10 n ++ '.' :: fract ++ ' ' :: name) (by rw [hn]; rfl)
    (by rw [getLast?_append, getLast?_cons, hc]; rfl) ha hc'
  obtain ⟨htake, hdrop⟩ := cut (l := toDigits 10 n ++ '.' :: fract) (r := name) (d := ' ') (by
    simp only [mem_append, mem_cons]
    rintro a (ha | rfl | ha)
    · exact ne_of_isDigit (isDigit_toDigits a ha) rfl
    · decide
    · exact ne_of_isDigit (hfract a ha) rfl)
  obtain ⟨htake', hdrop'⟩ := cut (l := toDigits 10 n) (r := fract) (d := '.')
    fun c hc => ne_of_isDigit (isDigit_toDigits c hc) rfl
  simp only [SmtAsset.fromString, htrim, htake, hdrop, htake', hdrop', tail_cons]
  simp [assert, ok_bind]

/-- The leading 1 that the printer takes off and the parser puts back. -/
theorem toDigits_leading_one (d f : Nat) (h : f < 10 ^ d) :
    ∃ l, toDigits 10 (10 ^ d + f) = '1' :: l ∧ l.length = d := by
  induction d generalizing f with
  | zero =>
    obtain rfl : f = 0 := by omega
    exact ⟨[], by decide, rfl⟩
  | succ d ih =>
    have hpos := Nat.one_le_pow' d 9
    obtain ⟨l, hl, hlen⟩ := ih (f / 10) (by omega)
    refine ⟨l ++ [(f % 10).digitChar], ?_, by simp [hlen]⟩
    rw [Nat.toDigits_of_base_le (by decide) (by omega),
      show (10 ^ (d + 1) + f) / 10 = 10 ^ d + f / 10 by omega, hl,
      show (10 ^ (d + 1) + f) % 10 = f % 10 by omega]
    rfl

theorem toString_eq {symbol : SymbolNum} {n p : Nat} {l : List Char}
    (hprec : precision symbol = p) (hp : 1 < p) (hl : toDigits 10 (p + n % p) = '1' :: l) :
    SmtAsset.toString ⟨n, symbol⟩ =
      toDigits 10 (n / p) ++ '.' :: l ++ ' ' :: assetNumToString symbol := by
  simp only [SmtAsset.toString, hprec]
  rw [if_pos (by exact_mod_cast hp), ← Int.ofNat_tdiv, ← Int.ofNat_tmod, ← Int.natCast_add]
  show (Nat.repr _).toList ++ '.' :: (Nat.repr _).toList.tail ++ _ = _
  rw [Nat.toList_repr, Nat.toList_repr, hl]
  rfl

/-- Amounts of DELTA and DBD, and of no other core symbol, are read back. -/
theorem legacy_asset_back_iff (symbol : Symbol) (amount : Int) (h₀ : 0 ≤ amount)
    (hmax : amount ≤ maxSatoshis) :
    SmtAsset.fromString (SmtAsset.toString ⟨amount, symbol.assetNum⟩) =
      .ok ⟨amount, symbol.assetNum⟩ ↔ symbol ≠ .vests := by
  obtain ⟨n, rfl⟩ := Int.eq_ofNat_of_zero_le h₀
  unfold maxSatoshis at hmax
  obtain ⟨d, hd⟩ : ∃ d, SymbolNum.decimals symbol.assetNum = d := ⟨_, rfl⟩
  have hprec : precision symbol.assetNum = (10 ^ d : Nat) := by simp [precision, hd]
  have hp : 1 < 10 ^ d ∧ 10 ^ d ≤ 10 ^ 6 := by
    subst hd
    cases symbol <;> decide
  have hdiv := Nat.div_add_mod' n (10 ^ d)
  have hle := Nat.div_le_self n (10 ^ d)
  have hmod := Nat.mod_lt n (by omega : 10 ^ d > 0)
  obtain ⟨l, hl, hlen⟩ := toDigits_leading_one d _ hmod
  have hparse : stringToAssetNum (assetNumToString symbol.assetNum) (d % 256) =
      if symbol = .vests then .error "Cannot parse asset symbol" else .ok symbol.assetNum := by
    subst hd
    cases symbol <;> decide +kernel
  obtain ⟨c, hc, hc'⟩ : ∃ c, (assetNumToString symbol.assetNum).getLast? = some c ∧
      isSpace c = false := by cases symbol <;> exact ⟨_, rfl, rfl⟩
  have hfract : ∀ c ∈ l, c.isDigit = true := fun c hc => isDigit_toDigits c (hl ▸ mem_cons_of_mem _ hc)
  rw [toString_eq hprec hp.1 hl, fromString_printed hfract hc hc', hlen, hparse, ← hl]
  by_cases hv : symbol = .vests
  · rw [if_pos hv]
    exact iff_of_false (by rintro ⟨⟩) (not_not.mpr hv)
  · have hback : (n / 10 ^ d : Nat) * ((10 ^ d : Nat) : Int) + (10 ^ d + n % 10 ^ d : Nat) -
        (10 ^ d : Nat) = n := by
      omega
    rw [if_neg hv, ok_bind, toInt64_toDigits (by omega), ok_bind, toInt64_toDigits (by omega),
      ok_bind, hprec, hback, Int.bmod_eq_of_le (by omega) (by omega)]
    exact iff_of_true rfl hv

theorem legacy_asset_back_delta :
    SmtAsset.fromString (SmtAsset.toString ⟨7005, Symbol.delta.assetNum⟩) =
      .ok ⟨7005, Symbol.delta.assetNum⟩ :=
  (legacy_asset_back_iff .delta 7005 (by decide) (by decide)).mpr (by decide)

/-- VESTS are printed as TX, a name the parser does not know. -/
theorem vests_not_read_back :
    SmtAsset.toString ⟨0, Symbol.vests.assetNum⟩ = "0.000000 TX".toList ∧
      SmtAsset.fromString "0.000000 TX".toList = .error "Cannot parse asset symbol" := by
  decide +kernel

end DeltaChain.Smt

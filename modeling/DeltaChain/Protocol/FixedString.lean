import DeltaChain.Lib.Bytes

/-!
# Strings in machine words

A `fixed_string` keeps a string in machine words, which are turned from big-endian to native order
after the characters are copied in. On a little-endian machine the words then compare as the strings
do: `fixed_strings_ordered`.
-/

namespace DeltaChain.Protocol

open Lib Bytes List

-- # Storage

/-- What a `_Storage` can do: it is made by default, it lies in memory, its words are reversed, and it
has an order. -/
class Storage (S : Type) where
  sizeof : Nat
  default : S
  bytes : S → List UInt8
  ofBytes : List UInt8 → S
  endianReverse : S → S
  lt : S → S → Bool

open Storage

/-- A machine word lies in memory with its least significant byte first. -/
instance : Storage UInt64 where
  sizeof := 8
  default := 0
  bytes x := encode 8 x.toNat
  ofBytes l := UInt64.ofNat (decode l)
  endianReverse x := UInt64.ofNat (decode (encode 8 x.toNat).reverse)
  lt x y := x < y

structure Uint128 where
  hi : UInt64
  lo : UInt64

instance : Storage Uint128 where
  sizeof := sizeof UInt64 + sizeof UInt64
  default := ⟨0, 0⟩
  bytes u := bytes u.hi ++ bytes u.lo
  ofBytes l := ⟨ofBytes (l.take (sizeof UInt64)), ofBytes (l.drop (sizeof UInt64))⟩
  endianReverse u := ⟨endianReverse u.hi, endianReverse u.lo⟩
  lt u v := if u.hi = v.hi then u.lo < v.lo else u.hi < v.hi

/-- `erpair`, with the order of `std::tie`. -/
structure Erpair (A B : Type) where
  first : A
  second : B

variable {A B S : Type} [Storage A] [Storage B] [Storage S]

instance : Storage (Erpair A B) where
  sizeof := sizeof A + sizeof B
  default := ⟨default, default⟩
  bytes p := bytes p.first ++ bytes p.second
  ofBytes l := ⟨ofBytes (l.take (sizeof A)), ofBytes (l.drop (sizeof A))⟩
  endianReverse p := ⟨endianReverse p.first, endianReverse p.second⟩
  lt p q := lt p.first q.first || !lt q.first p.first && lt p.second q.second

structure FixedStringImpl (S : Type) where
  data : S

abbrev FixedString16 := FixedStringImpl Uint128
abbrev FixedString24 := FixedStringImpl (Erpair Uint128 UInt64)
abbrev FixedString32 := FixedStringImpl (Erpair Uint128 Uint128)

/-- The first `n` bytes of `src` written over those of `dst`. -/
def memcpy (dst src : List UInt8) (n : Nat) : List UInt8 := src.take n ++ dst.drop n

def strnlen (l : List UInt8) (n : Nat) : Nat := ((l.take n).takeWhile (· ≠ 0)).length

namespace FixedStringImpl

def ofString (str : List UInt8) : FixedStringImpl S :=
  let d := bytes (Storage.default : S)
  let d := if str.length ≤ sizeof S then memcpy d str str.length else memcpy d str (sizeof S)
  -- `big_to_native`
  ⟨endianReverse (ofBytes d)⟩

def toString (s : FixedStringImpl S) : List UInt8 :=
  -- `native_to_big`
  let d := bytes (endianReverse s.data)
  d.take (strnlen d (sizeof S))

instance : LT (FixedStringImpl S) := ⟨fun a b => lt a.data b.data⟩

end FixedStringImpl

-- # Words in the order of their bytes

/-- Reversing a storage that was copied from memory gives the order of the bytes. -/
class LawfulStorage (S : Type) [Storage S] : Prop where
  bytes_default : bytes (default : S) = replicate (sizeof S) 0
  bytes_ofBytes {l : List UInt8} : l.length = sizeof S → bytes (ofBytes l : S) = l
  reverse_twice (s : S) : endianReverse (endianReverse s) = s
  lt_iff {l m : List UInt8} : l.length = sizeof S → m.length = sizeof S →
    (lt (endianReverse (ofBytes l : S)) (endianReverse (ofBytes m)) ↔ l < m)

open LawfulStorage

theorem lt_iff_take_drop {n k : Nat} {l m : List UInt8} (hl : l.length = n + k) (hm : m.length = n + k) :
    l < m ↔ l.take n < m.take n ∨ l.take n = m.take n ∧ l.drop n < m.drop n := by
  induction n generalizing l m with
  | zero => simp
  | succ n ih =>
    rw [Nat.add_right_comm] at hl hm
    obtain ⟨a, l, rfl⟩ := exists_cons_of_length_eq_add_one hl
    obtain ⟨b, m, rfl⟩ := exists_cons_of_length_eq_add_one hm
    simp only [take_succ_cons, drop_succ_cons, cons_lt_cons_iff, cons.injEq,
      ih (Nat.succ.inj hl) (Nat.succ.inj hm)]
    tauto

theorem endianReverse_inj [LawfulStorage S] {l m : List UInt8} (hl : l.length = sizeof S)
    (hm : m.length = sizeof S) :
    endianReverse (ofBytes l : S) = endianReverse (ofBytes m) ↔ l = m := by
  refine ⟨fun h => ?_, fun h => by rw [h]⟩
  have := congrArg (fun s : S => bytes (endianReverse s)) h
  simpa only [reverse_twice, bytes_ofBytes hl, bytes_ofBytes hm] using this

theorem length_take_drop {l : List UInt8} (hl : l.length = sizeof A + sizeof B) :
    (l.take (sizeof A)).length = sizeof A ∧ (l.drop (sizeof A)).length = sizeof B := by
  rw [length_take, length_drop]
  omega

theorem bytes_take_drop [LawfulStorage A] [LawfulStorage B] {l : List UInt8}
    (hl : l.length = sizeof A + sizeof B) :
    bytes (ofBytes (l.take (sizeof A)) : A) ++ bytes (ofBytes (l.drop (sizeof A)) : B) = l := by
  obtain ⟨htake, hdrop⟩ := length_take_drop hl
  rw [bytes_ofBytes htake, bytes_ofBytes hdrop, take_append_drop]

theorem toNat_ofBytes {l : List UInt8} (hl : l.length = 8) : (ofBytes l : UInt64).toNat = decode l := by
  have hlt := decode_lt l
  rw [hl] at hlt
  exact UInt64.toNat_ofNat_of_lt' hlt

theorem bytes_word {l : List UInt8} (hl : l.length = 8) : bytes (ofBytes l : UInt64) = l := by
  show encode 8 (ofBytes l : UInt64).toNat = l
  rw [toNat_ofBytes hl, show 8 = l.length from hl.symm, encode_decode]

theorem endianReverse_word (x : UInt64) : endianReverse x = ofBytes (bytes x).reverse := rfl

instance : LawfulStorage UInt64 where
  bytes_default := by decide
  bytes_ofBytes := bytes_word
  reverse_twice x := by
    rw [endianReverse_word, endianReverse_word, bytes_word, reverse_reverse]
    · exact (congrArg UInt64.ofNat (decode_encode_of_lt x.toNat_lt)).trans UInt64.ofNat_toNat
    · exact length_reverse.trans (length_encode ..)
  lt_iff {l m} hl hm := by
    rw [endianReverse_word, endianReverse_word, bytes_word hl, bytes_word hm,
      ← decode_reverse_lt_iff (hl.trans hm.symm), ← toNat_ofBytes (length_reverse.trans hl),
      ← toNat_ofBytes (length_reverse.trans hm)]
    exact decide_eq_true_iff

theorem uint128_lt_iff (u v : Uint128) : lt u v ↔ lt u.hi v.hi ∨ u.hi = v.hi ∧ lt u.lo v.lo := by
  show (if u.hi = v.hi then _ else _) = true ↔ decide (u.hi < v.hi) = true ∨ _
  split
  · next heq => simp [heq, lt]
  · next hne => simp [hne]

instance : LawfulStorage Uint128 where
  bytes_default := by decide
  bytes_ofBytes hl := bytes_take_drop hl
  reverse_twice u := congrArg₂ Uint128.mk (reverse_twice _) (reverse_twice _)
  lt_iff {l m} hl hm := by
    obtain ⟨hl₁, hl₂⟩ := length_take_drop hl
    obtain ⟨hm₁, hm₂⟩ := length_take_drop hm
    rw [lt_iff_take_drop hl hm]
    exact (uint128_lt_iff _ _).trans
      (or_congr (lt_iff hl₁ hm₁) (and_congr (endianReverse_inj hl₁ hm₁) (lt_iff hl₂ hm₂)))

instance [LawfulStorage A] [LawfulStorage B] : LawfulStorage (Erpair A B) where
  bytes_default := by
    show bytes (default : A) ++ bytes (default : B) = replicate (sizeof A + sizeof B) 0
    rw [bytes_default, bytes_default, replicate_append_replicate]
  bytes_ofBytes hl := bytes_take_drop hl
  reverse_twice p := congrArg₂ Erpair.mk (reverse_twice _) (reverse_twice _)
  lt_iff {l m} hl hm := by
    obtain ⟨hl₁, hl₂⟩ := length_take_drop hl
    obtain ⟨hm₁, hm₂⟩ := length_take_drop hm
    show (_ || !_ && _) = true ↔ _
    rw [Bool.or_eq_true, Bool.and_eq_true, Bool.not_eq_true', ← Bool.not_eq_true,
      lt_iff_take_drop hl hm]
    refine (or_congr (lt_iff hl₁ hm₁) (and_congr (not_congr (lt_iff hm₁ hl₁)) (lt_iff hl₂ hm₂))).trans ?_
    refine or_congr_right' fun hle => and_congr_left fun _ => ?_
    refine ⟨fun hge => List.le_antisymm hge hle, fun heq => heq ▸ List.lt_irrefl _⟩

-- # Strings

theorem padded_lt_iff {n : Nat} {a b : List UInt8} (ha : 0 ∉ a) (hb : 0 ∉ b) (hla : a.length ≤ n)
    (hlb : b.length ≤ n) :
    a ++ replicate (n - a.length) 0 < b ++ replicate (n - b.length) 0 ↔ a < b := by
  induction a generalizing b n with
  | nil =>
    cases b with
    | nil => simp
    | cons y b =>
      obtain ⟨n, rfl⟩ : ∃ k, n = k + 1 := ⟨n - 1, by rw [length_cons] at hlb; omega⟩
      have hy : 0 < y := UInt8.pos_iff_ne_zero.mpr fun h => hb (h ▸ mem_cons_self ..)
      rw [length_nil, Nat.sub_zero, nil_append, replicate_succ, cons_append, cons_lt_cons_iff]
      exact iff_of_true (.inl hy) (nil_lt_cons ..)
  | cons x a ih =>
    obtain ⟨n, rfl⟩ : ∃ k, n = k + 1 := ⟨n - 1, by rw [length_cons] at hla; omega⟩
    cases b with
    | nil =>
      have hx : x ≠ 0 := fun h => ha (h ▸ mem_cons_self ..)
      rw [length_nil, Nat.sub_zero, nil_append, replicate_succ, cons_append, cons_lt_cons_iff]
      simp [hx]
    | cons y b =>
      simp only [mem_cons, not_or, length_cons, Nat.add_le_add_iff_right] at *
      simp only [cons_append, cons_lt_cons_iff, Nat.add_sub_add_right, ih ha.2 hb.2 hla hlb]

variable [LawfulStorage S]

theorem length_padded {n : Nat} {a : List UInt8} (hla : a.length ≤ n) :
    (a ++ replicate (n - a.length) 0).length = n := by
  rw [length_append, length_replicate]
  omega

namespace FixedStringImpl

theorem ofString_eq {a : List UInt8} (hla : a.length ≤ sizeof S) :
    (ofString a : FixedStringImpl S) =
      ⟨endianReverse (ofBytes (a ++ replicate (sizeof S - a.length) 0))⟩ := by
  rw [ofString, if_pos hla, memcpy, bytes_default, take_length, drop_replicate]

theorem toString_ofString {a : List UInt8} (ha : 0 ∉ a) (hla : a.length ≤ sizeof S) :
    (ofString a : FixedStringImpl S).toString = a := by
  have hstop : (a ++ replicate (sizeof S - a.length) 0).takeWhile (· ≠ 0) = a := by
    rw [takeWhile_append_of_pos]
    · simp
    · intro x hx
      exact decide_eq_true fun hzero => ha (hzero ▸ hx)
  rw [ofString_eq hla, toString, reverse_twice, bytes_ofBytes (length_padded hla), strnlen,
    take_of_length_le (length_padded hla).le, hstop, take_left']
  rfl

theorem ofString_lt_iff {a b : List UInt8} (ha : 0 ∉ a) (hb : 0 ∉ b) (hla : a.length ≤ sizeof S)
    (hlb : b.length ≤ sizeof S) : (ofString a : FixedStringImpl S) < ofString b ↔ a < b := by
  rw [ofString_eq hla, ofString_eq hlb]
  exact (lt_iff (length_padded hla) (length_padded hlb)).trans (padded_lt_iff ha hb hla hlb)

end FixedStringImpl

open FixedStringImpl

/-- Strings of up to `n` bytes without a NUL come back from the storage, and are in their own order
there. -/
def Ordered (S : Type) [Storage S] (n : Nat) : Prop :=
  ∀ a b : List UInt8, 0 ∉ a → 0 ∉ b → a.length ≤ n → b.length ≤ n →
    (ofString a : FixedStringImpl S).toString = a ∧
      ((ofString a : FixedStringImpl S) < ofString b ↔ a < b)

theorem ordered_sizeof : Ordered S (sizeof S) :=
  fun _ _ ha hb hla hlb => ⟨toString_ofString ha hla, ofString_lt_iff ha hb hla hlb⟩

/-- **`fixed_string`.** In the storages of 16, 24 and 32 bytes, every string without a NUL that is not
longer comes back as it was, and two of them compare as the strings do, byte by byte and a proper part
at the front of a string before it. -/
theorem fixed_strings_ordered :
    Ordered Uint128 16 ∧ Ordered (Erpair Uint128 UInt64) 24 ∧ Ordered (Erpair Uint128 Uint128) 32 :=
  ⟨ordered_sizeof, ordered_sizeof, ordered_sizeof⟩

/-- "a" before "a!", and "a" before the byte 200. -/
theorem fixed_strings_ordered_sample :
    (ofString [97] : FixedString24) < ofString [97, 33] ∧ (ofString [97] : FixedString24) < ofString [200] :=
  ⟨(fixed_strings_ordered.2.1 _ _ (by decide) (by decide) (by decide) (by decide)).2.mpr (by decide),
    (fixed_strings_ordered.2.1 _ _ (by decide) (by decide) (by decide) (by decide)).2.mpr (by decide)⟩

end DeltaChain.Protocol

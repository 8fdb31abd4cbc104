import Mathlib

/-!
# Numbers as bytes

A number in a fixed number of bytes, the least significant one first. Reading back what was written
gives the number, up to what does not fit (`decode_encode`); every list of bytes is what is written for
its number (`encode_decode`).
-/

namespace DeltaChain.Lib.Bytes

/-- The lowest `count` bytes of a number. -/
def encode : Nat → Nat → List UInt8
  | 0, _ => []
  | count + 1, n => UInt8.ofNat n :: encode count (n / 256)

/-- The number that bytes stand for. -/
def decode : List UInt8 → Nat
  | [] => 0
  | b :: l => b.toNat + 256 * decode l

@[simp] theorem length_encode (count n : Nat) : (encode count n).length = count := by
  induction count generalizing n with
  | zero => rfl
  | succ count ih => rw [encode, List.length_cons, ih]

theorem decode_encode (count n : Nat) : decode (encode count n) = n % 256 ^ count := by
  induction count generalizing n with
  | zero => rw [pow_zero, Nat.mod_one, encode, decode]
  | succ count ih =>
    have hbyte : (UInt8.ofNat n).toNat = n % 256 := UInt8.toNat_ofNat'
    rw [encode, decode, ih, hbyte, Nat.pow_succ, Nat.mul_comm (256 ^ count), Nat.mod_mul]

theorem decode_encode_of_lt {count n : Nat} (h : n < 256 ^ count) : decode (encode count n) = n := by
  rw [decode_encode, Nat.mod_eq_of_lt h]

theorem encode_decode (l : List UInt8) : encode l.length (decode l) = l := by
  induction l with
  | nil => rfl
  | cons b l ih =>
    have hbyte := b.toNat_lt
    have hhead : UInt8.ofNat (b.toNat + 256 * decode l) = b := by
      rw [← UInt8.toNat_inj, UInt8.toNat_ofNat']
      omega
    rw [List.length_cons, encode, decode, hhead, show (b.toNat + 256 * decode l) / 256 = decode l by omega,
      ih]

theorem decode_append (l m : List UInt8) : decode (l ++ m) = decode l + 256 ^ l.length * decode m := by
  induction l with
  | nil => simp [decode]
  | cons b l ih =>
    rw [List.cons_append, decode, decode, ih, List.length_cons, pow_succ]
    ring

theorem decode_lt (l : List UInt8) : decode l < 256 ^ l.length := by
  induction l with
  | nil => simp [decode]
  | cons b l ih =>
    have := b.toNat_lt
    rw [decode, List.length_cons, pow_succ]
    omega

/-- With the most significant byte first, numbers are in the order of their bytes. -/
theorem decode_reverse_lt_iff {l m : List UInt8} (h : l.length = m.length) :
    decode l.reverse < decode m.reverse ↔ l < m := by
  induction l generalizing m with
  | nil =>
    obtain rfl := List.eq_nil_of_length_eq_zero h.symm
    simp
  | cons a l ih =>
    cases m with
    | nil => cases h
    | cons b m =>
      have hlen : l.length = m.length := Nat.succ.inj h
      have hl := decode_lt l.reverse
      have hm := decode_lt m.reverse
      rw [List.length_reverse] at hl hm
      rw [← hlen] at hm
      simp only [List.reverse_cons, decode_append, List.length_reverse, decode, mul_zero, add_zero]
      rw [List.cons_lt_cons_iff, ← ih hlen, UInt8.lt_iff_toNat_lt, ← UInt8.toNat_inj, ← hlen]
      rcases lt_trichotomy a.toNat b.toNat with hab | hab | hab
      · have := Nat.mul_le_mul_left (256 ^ l.length) hab
        rw [Nat.mul_succ] at this
        omega
      · rw [hab]
        omega
      · have := Nat.mul_le_mul_left (256 ^ l.length) hab
        rw [Nat.mul_succ] at this
        omega

end DeltaChain.Lib.Bytes

import DeltaChain.Rewards.Curve

/-!
# Reward curves grow

More shares never have less weight on a curve, as far as its values fit into 64 bits
(`evaluateRewardCurve_mono`). For `approx_sqrt` this is read off its closed form, one step of Heron's
method (`approxSqrt_heron`), which is also close to the root (`approxSqrt_close`). The two quadratic curves are computed in 128
bits and could wrap around, but a value that has wrapped does not fit.
-/

namespace DeltaChain.Ledger

open Lib Protocol Checked

-- # The square root

/-- `find_msb`, from the halves of a 128 bit number. -/
def findMsb (u : Nat) : Nat :=
  let x := if u % 2 ^ 64 ≠ 0 then u % 2 ^ 64 else 1
  let places := if u / 2 ^ 64 ≠ 0 then 64 else 0
  let x := if u / 2 ^ 64 ≠ 0 then u / 2 ^ 64 else x
  x.log2 + places

theorem findMsb_eq {u : Nat} (hu : u ≠ 0) : findMsb u = u.log2 := by
  unfold findMsb
  rcases Nat.eq_zero_or_pos (u / 2 ^ 64) with hhi | hhi
  · have hlo : u % 2 ^ 64 = u := by omega
    simp only [hhi, hlo, hu, ne_eq, not_true_eq_false, not_false_eq_true, if_true, if_false, add_zero]
  · have hle := Nat.log2_self_le hhi.ne'
    have hlt := Nat.lt_log2_self (n := u / 2 ^ 64)
    simp only [hhi.ne', ne_eq, not_false_eq_true, if_true]
    rw [eq_comm, Nat.log2_eq_iff hu]
    generalize (u / 2 ^ 64).log2 = l at *
    rw [Nat.add_right_comm, pow_add, pow_add]
    omega

/-- What follows the leading bit of the root, twice. -/
def sqrtMantissa (x : Nat) : Nat :=
  (if x.log2 % 2 = 1 then 2 ^ (x.log2 / 2) else 0) + x % 2 ^ x.log2 / 2 ^ (x.log2 - x.log2 / 2)

theorem mantissa_lt (x : Nat) : x % 2 ^ x.log2 / 2 ^ (x.log2 - x.log2 / 2) < 2 ^ (x.log2 / 2) := by
  have hsplit : 2 ^ x.log2 = 2 ^ (x.log2 / 2) * 2 ^ (x.log2 - x.log2 / 2) := by
    rw [← pow_add]
    congr 1
    omega
  rw [Nat.div_lt_iff_lt_mul (Nat.two_pow_pos _), ← hsplit]
  exact Nat.mod_lt _ (Nat.two_pow_pos _)

theorem sqrtMantissa_lt (x : Nat) : sqrtMantissa x < 2 * 2 ^ (x.log2 / 2) := by
  have := mantissa_lt x
  unfold sqrtMantissa
  split <;> omega

/-- **The square root** in closed form. -/
theorem approxSqrt_eq {x : Nat} (hx : x ≠ 0) (hfits : x < 2 ^ 128) :
    approxSqrt x = 2 ^ (x.log2 / 2) + sqrtMantissa x / 2 := by
  have hlog : x.log2 < 128 := (Nat.log2_lt hx).mpr hfits
  have hlow := mantissa_lt x
  have hsmall : x % 2 ^ x.log2 / 2 ^ (x.log2 - x.log2 / 2) < 2 ^ 64 :=
    hlow.trans_le (Nat.pow_le_pow_right (by decide) (by omega))
  have hor : (if x.log2 % 2 = 1 then 2 ^ (x.log2 / 2) else 0) |||
      x % 2 ^ x.log2 / 2 ^ (x.log2 - x.log2 / 2) = sqrtMantissa x := by
    unfold sqrtMantissa
    split
    · have := Nat.two_pow_add_eq_or_of_lt hlow 1
      rw [Nat.mul_one] at this
      exact this.symm
    · rw [Nat.zero_or, Nat.zero_add]
  have hhalf : sqrtMantissa x / 2 < 2 ^ (x.log2 / 2) := by
    have := sqrtMantissa_lt x
    omega
  have hlead := Nat.two_pow_add_eq_or_of_lt hhalf 1
  rw [Nat.mul_one] at hlead
  simp only [approxSqrt, if_neg hx, Nat.shiftRight_eq_div_pow, Nat.one_shiftLeft, pow_one,
    Nat.and_two_pow_sub_one_eq_mod, Nat.mod_eq_of_lt hsmall, hor, hlead]

/-- **One step of Heron's method**, from the power of two that is closest to the root. -/
theorem approxSqrt_heron {x : Nat} (hx : x ≠ 0) (hfits : x < 2 ^ 128) :
    ∃ k, let s := 2 ^ k
      s * s ≤ 2 * x ∧ x < 2 * (s * s) ∧ approxSqrt x = (x + s * s) / (2 * s) := by
  rw [approxSqrt_eq hx hfits]
  have hle := Nat.log2_self_le hx
  have hlt := Nat.lt_log2_self (n := x)
  have hpos := Nat.two_pow_pos (x.log2 / 2)
  unfold sqrtMantissa
  rcases Nat.mod_two_eq_zero_or_one x.log2 with heven | hodd
  · have hlog : 2 ^ x.log2 = 2 ^ (x.log2 / 2) * 2 ^ (x.log2 / 2) := by
      rw [← pow_add, show x.log2 / 2 + x.log2 / 2 = x.log2 by omega]
    refine ⟨x.log2 / 2, ?_⟩
    rw [show x.log2 - x.log2 / 2 = x.log2 / 2 by omega, if_neg (by omega)]
    generalize 2 ^ (x.log2 / 2) = s at *
    refine ⟨by omega, by omega, ?_⟩
    rw [Nat.mod_eq_sub_mod hle, Nat.mod_eq_of_lt (by omega), Nat.zero_add, Nat.div_div_eq_div_mul,
      Nat.mul_comm s 2, Nat.add_comm, ← Nat.add_mul_div_left _ _ (by omega), Nat.mul_assoc]
    congr 1
    omega
  · have hlog : 2 ^ x.log2 = 2 * (2 ^ (x.log2 / 2) * 2 ^ (x.log2 / 2)) := by
      rw [← pow_add, ← pow_succ', show x.log2 / 2 + x.log2 / 2 + 1 = x.log2 by omega]
    refine ⟨x.log2 / 2 + 1, ?_⟩
    rw [show x.log2 - x.log2 / 2 = x.log2 / 2 + 1 by omega, if_pos hodd]
    rw [hlog] at hle ⊢
    rw [pow_succ']
    generalize 2 ^ (x.log2 / 2) = a at *
    have hsquare : 2 * a * (2 * a) = 4 * (a * a) := by ring
    refine ⟨by omega, by omega, ?_⟩
    have hhalf : (a + (x - 2 * (a * a)) / (2 * a)) / 2 = x / (2 * (2 * a)) := by
      rw [Nat.add_comm a, ← Nat.add_mul_div_left _ _ (by omega), Nat.mul_assoc,
        Nat.sub_add_cancel hle, Nat.div_div_eq_div_mul, Nat.mul_comm (2 * a) 2]
    rw [Nat.mod_eq_sub_mod hle, Nat.mod_eq_of_lt (by omega), hhalf, Nat.add_comm,
      ← Nat.add_mul_div_left _ _ (by omega), hsquare]
    congr 2
    ring

theorem approxSqrt_mono {x y : Nat} (h : x ≤ y) (hfits : y < 2 ^ 128) :
    approxSqrt x ≤ approxSqrt y := by
  rcases Nat.eq_zero_or_pos x with rfl | hx
  · exact Nat.zero_le _
  obtain ⟨k, hxle, hxlt, hxeq⟩ := approxSqrt_heron hx.ne' (h.trans_lt hfits)
  obtain ⟨l, hyle, hylt, hyeq⟩ := approxSqrt_heron (by omega) hfits
  have hl := Nat.two_pow_pos l
  rw [hyeq, Nat.le_div_iff_mul_le (by omega), hxeq]
  have hmul := Nat.mul_div_le (x + 2 ^ k * 2 ^ k) (2 * 2 ^ k)
  generalize (x + 2 ^ k * 2 ^ k) / (2 * 2 ^ k) = z at *
  rcases Nat.lt_trichotomy k l with hlt | rfl | hgt
  · have hpow : 2 ^ (k + 1) ≤ 2 ^ l := Nat.pow_le_pow_right (by decide) hlt
    have hz : 2 * z < 3 * 2 ^ k := by
      refine Nat.lt_of_mul_lt_mul_left (a := 2 ^ k) ?_
      linarith
    have hz' := Nat.mul_le_mul_right (2 ^ l) (show 4 * z ≤ 3 * 2 ^ l by omega)
    linarith
  · linarith
  · have hpow : 2 ^ (l + 1) ≤ 2 ^ k := Nat.pow_le_pow_right (by decide) hgt
    rw [pow_succ] at hpow
    have := Nat.mul_le_mul hpow hpow
    linarith

/-- **The square root is close.** Built from the leading bit that `find_msb` finds, it grows, it is at
least the whole part of the root, and its square is at most 9/8 of the argument. -/
theorem approxSqrt_close (x y : Nat) (hx : x < 2 ^ 128) (hy : y < 2 ^ 128) :
    (x ≠ 0 → findMsb x = x.log2) ∧ (x ≤ y → approxSqrt x ≤ approxSqrt y) ∧
      Nat.sqrt x ≤ approxSqrt x ∧ 8 * approxSqrt x ^ 2 ≤ 9 * x := by
  refine ⟨findMsb_eq, fun hle => approxSqrt_mono hle hy, ?_⟩
  rcases Nat.eq_zero_or_pos x with rfl | hpos
  · exact ⟨Nat.zero_le _, le_rfl⟩
  obtain ⟨k, hle, hlt, heq⟩ := approxSqrt_heron hpos.ne' hx
  have hs := Nat.two_pow_pos k
  generalize 2 ^ k = s at *
  have hlow := Nat.mul_div_le (x + s * s) (2 * s)
  have hhigh := Nat.lt_mul_div_succ (x + s * s) (b := 2 * s) (by omega)
  rw [← heq] at hlow hhigh
  generalize approxSqrt x = z at *
  constructor
  · -- the mean of the two factors is at least the root
    rw [← Nat.lt_succ_iff, Nat.sqrt_lt']
    by_contra! hge
    have hmean := Nat.pow_lt_pow_left hhigh two_ne_zero
    have hroot := Nat.mul_le_mul_left (4 * (s * s)) hge
    zify at hmean hroot
    linarith [sq_nonneg ((x : Int) - s * s)]
  · refine Nat.le_of_mul_le_mul_left (c := 4 * (s * s)) ?_
      (Nat.mul_pos four_pos (Nat.mul_pos hs hs))
    have hmean := Nat.pow_le_pow_left hlow 2
    zify at hle hlt hmean ⊢
    have hfactor := mul_nonneg (sub_nonneg.mpr hle) (sub_nonneg.mpr hlt.le)
    linarith

/-- Just below twice a power of four, the root is 6.07 percent over the true one. -/
theorem approxSqrt_close_worst : approxSqrt 9223372036854775807 = 3221225471 ∧
    approxSqrt 9223372036854775807 ≤ approxSqrt 9223372036854775808 ∧
      Nat.sqrt 9223372036854775807 ≤ approxSqrt 9223372036854775807 ∧
      8 * approxSqrt 9223372036854775807 ^ 2 ≤ 9 * 9223372036854775807 := by
  obtain ⟨-, hmono, hclose⟩ := approxSqrt_close 9223372036854775807 9223372036854775808
    (by decide) (by decide)
  exact ⟨by decide +kernel, hmono (by decide), hclose⟩

-- # All curves

/-- The values of a curve fit into 64 bits, up to `limit` shares. -/
structure CurveFits (curve : Curve) (contentConstant limit : Nat) : Prop where
  shares : limit < 2 ^ 63
  value : ∀ r ≤ limit, ∃ n, n < 2 ^ 64 ∧ evaluateRewardCurve r curve contentConstant = .ok n

theorem CurveFits.mono {curve : Curve} {s limit limit' : Nat} (h : CurveFits curve s limit')
    (hle : limit ≤ limit') : CurveFits curve s limit :=
  ⟨hle.trans_lt h.shares, fun r hr => h.value r (hr.trans hle)⟩

theorem curveFits_squareRoot (s : Nat) {limit : Nat} (h : limit < 2 ^ 63) :
    CurveFits .squareRoot s limit := by
  refine ⟨h, fun r hr => ⟨approxSqrt r, ?_, rfl⟩⟩
  rcases Nat.eq_zero_or_pos r with rfl | hpos
  · decide
  · have hlog : r.log2 < 63 := (Nat.log2_lt hpos.ne').mpr (by omega)
    have hpow : 2 ^ (r.log2 / 2) ≤ 2 ^ 62 := Nat.pow_le_pow_right (by decide) (by omega)
    have hmantissa := sqrtMantissa_lt r
    rw [approxSqrt_eq hpos.ne' (by omega)]
    omega

/-- The quadratic curve, if its first value fits. -/
theorem quadratic_eq {s r : Nat} (hr : r < 2 ^ 63) {v : Nat} (hv : v < 2 ^ 64)
    (hone : evaluateRewardCurve 1 .quadratic s = .ok v) :
    evaluateRewardCurve r .quadratic s = .ok (r * r + r * (v - 1)) := by
  have hone : u128 ((((1 : Nat) : Int) + s) * (((1 : Nat) : Int) + s) - s * s) = v :=
    pure_eq_ok.mp hone
  have hvalue : ((2 * (s : Int) + 1) % 2 ^ 128).toNat = v := by
    rw [← hone, u128]
    congr 2
    ring
  obtain ⟨q, hq⟩ : ∃ q : Int, 2 * (s : Int) = q * 2 ^ 128 + (v - 1) := by
    refine ⟨(2 * (s : Int) + 1) / 2 ^ 128, ?_⟩
    omega
  refine congrArg Except.ok ?_
  have hexpand : ((r : Int) + s) * ((r : Int) + s) - s * s =
      ((r * r + r * (v - 1) : Nat) : Int) + r * q * 2 ^ 128 := by
    have hcast : ((v - 1 : Nat) : Int) = v - 1 := by omega
    push_cast [hcast]
    linear_combination (r : Int) * hq
  have hsmall : r * r + r * (v - 1) < 2 ^ 128 := by
    have h₁ : r * r ≤ 2 ^ 63 * 2 ^ 63 := Nat.mul_le_mul hr.le hr.le
    have h₂ : r * (v - 1) ≤ 2 ^ 63 * 2 ^ 64 := Nat.mul_le_mul hr.le (by omega)
    omega
  rw [u128, hexpand, Int.add_mul_emod_self_right, Int.emod_eq_of_lt (Int.natCast_nonneg _)
    (by exact_mod_cast hsmall), Int.toNat_natCast]

/-- The quadratic curve for curators, if the value fits. -/
theorem quadraticCuration_eq {s r n : Nat} (hr : r < 2 ^ 63) (hn : n < 2 ^ 64)
    (h : evaluateRewardCurve r .quadraticCuration s = .ok n) :
    0 < s * 2 % 2 ^ 128 + r ∧ n = r * 2 ^ 64 / (s * 2 % 2 ^ 128 + r) := by
  simp only [evaluateRewardCurve, eq_ok] at h
  obtain ⟨hdivisor, rfl⟩ := h
  have hu : u128 ((s : Int) * 2 + r) = (s * 2 + r) % 2 ^ 128 := by
    rw [u128]
    omega
  rw [hu, Nat.mod_eq_of_lt (show r < 2 ^ 64 by omega)] at hn ⊢
  rw [hu] at hdivisor
  have hlt : r < (s * 2 + r) % 2 ^ 128 := by
    rw [Nat.div_lt_iff_lt_mul (Nat.pos_of_ne_zero hdivisor)] at hn
    omega
  have hsum : (s * 2 + r) % 2 ^ 128 = s * 2 % 2 ^ 128 + r := by omega
  rw [hsum]
  exact ⟨by omega, rfl⟩

theorem share_mono {a r r' k : Nat} (h : r ≤ r') (hpos : 0 < a + r) :
    r * k / (a + r) ≤ r' * k / (a + r') := by
  have hpos' : 0 < a + r' := by omega
  rw [Nat.le_div_iff_mul_le hpos']
  have hfloor : r * k / (a + r) * (a + r) ≤ r * k := Nat.div_mul_le_self _ _
  refine Nat.le_of_mul_le_mul_right ?_ hpos
  calc r * k / (a + r) * (a + r') * (a + r)
      = r * k / (a + r) * (a + r) * (a + r') := by ring
    _ ≤ r * k * (a + r') := Nat.mul_le_mul_right _ hfloor
    _ = k * (r * a + r * r') := by ring
    _ ≤ k * (r' * a + r * r') := by gcongr
    _ = r' * k * (a + r) := by ring

/-- **Curves grow.** -/
theorem evaluateRewardCurve_mono {curve : Curve} {s r r' n n' : Nat} (hfits : CurveFits curve s r')
    (hle : r ≤ r') (h : evaluateRewardCurve r curve s = .ok n)
    (h' : evaluateRewardCurve r' curve s = .ok n') : n ≤ n' := by
  have hr' := hfits.shares
  obtain ⟨m, hm, hok⟩ := hfits.value r hle
  obtain rfl := Except.ok.inj (hok.symm.trans h)
  obtain ⟨m', hm', hok'⟩ := hfits.value r' le_rfl
  obtain rfl := Except.ok.inj (hok'.symm.trans h')
  cases curve with
  | quadratic =>
    rcases Nat.eq_zero_or_pos r' with rfl | hpos
    · obtain rfl : r = 0 := Nat.le_zero.mp hle
      exact (Except.ok.inj (h.symm.trans h')).le
    · obtain ⟨v, hv, hone⟩ := hfits.value 1 hpos
      rw [quadratic_eq (by omega) hv hone] at h h'
      rw [← Except.ok.inj h, ← Except.ok.inj h']
      gcongr
  | quadraticCuration =>
    obtain ⟨hpos, rfl⟩ := quadraticCuration_eq (by omega) hm h
    obtain ⟨-, rfl⟩ := quadraticCuration_eq hr' hm' h'
    exact share_mono hle hpos
  | linear =>
    rw [← Except.ok.inj h, ← Except.ok.inj h']
    exact hle
  | squareRoot =>
    rw [← Except.ok.inj h, ← Except.ok.inj h']
    exact approxSqrt_mono hle (by omega)

end DeltaChain.Ledger

import QuadraticSolver.Decimal.Literal
import QuadraticSolver.Proofs.Binary64.Rounding

/-!
# Reading a numeral rounds once

A literal is read by counting its digits first: past certain sizes the answer
is an infinity or a zero before any power of ten is formed. The law is that
these shortcuts are never seen (`toBinary64_eq_round`): the number read is the
exact decimal value, rounded once, with the sign that the literal has.
-/

namespace QuadraticSolver.Literal

/-! ## The exact value as a fraction -/

/-- The numerator of the distance from zero. -/
def numerator (l : Literal) : ℕ :=
  l.significand * 10 ^ l.exponent.toNat

/-- The denominator of the distance from zero. -/
def denominator (l : Literal) : ℕ :=
  10 ^ (-l.exponent).toNat

theorem denominator_pos (l : Literal) : 0 < l.denominator :=
  Nat.pow_pos (by decide)

theorem toRat_eq (l : Literal) :
    l.toRat = Binary64.signFactor l.negative * (l.numerator / l.denominator) := by
  show mkRat ((if l.negative then -(l.significand : ℤ) else l.significand) *
    ((10 ^ l.exponent.toNat : ℕ) : ℤ)) (10 ^ (-l.exponent).toNat) = _
  rw [Rat.mkRat_eq_div]
  cases l.negative <;> simp [Binary64.signFactor, numerator, denominator, neg_div]

/-! ## The size, counted in digits -/

/-- The power of ten just above the value. -/
def size (l : Literal) : ℤ :=
  (Nat.toDigits 10 l.significand).length + l.exponent

theorem significand_lt (l : Literal) :
    l.significand < 10 ^ (Nat.toDigits 10 l.significand).length :=
  (Nat.length_toDigits_le_iff (by decide) Nat.length_toDigits_pos).mp (Nat.le_refl _)

theorem le_significand {l : Literal} (h : l.significand ≠ 0) :
    10 ^ ((Nat.toDigits 10 l.significand).length - 1) ≤ l.significand := by
  rcases Nat.eq_zero_or_pos ((Nat.toDigits 10 l.significand).length - 1) with hzero | hpos
  · rw [hzero, Nat.pow_zero]
    exact Nat.one_le_iff_ne_zero.mpr h
  · by_contra hlt
    have hlen := (Nat.length_toDigits_le_iff (by decide) hpos).mpr (Nat.lt_of_not_le hlt)
    omega

/-- A value below a negative power of ten. -/
theorem numerator_mul_pow_lt {l : Literal} {k : ℕ} (h : l.size + k ≤ 0) :
    l.numerator * 10 ^ k < l.denominator := by
  have hsize : (Nat.toDigits 10 l.significand).length + k ≤ (-l.exponent).toNat := by
    unfold size at h
    omega
  have hexponent : l.exponent.toNat = 0 := by
    unfold size at h
    omega
  calc l.numerator * 10 ^ k
      = l.significand * 10 ^ k := by
        rw [numerator, hexponent, Nat.pow_zero, Nat.mul_one]
    _ < 10 ^ (Nat.toDigits 10 l.significand).length * 10 ^ k :=
        Nat.mul_lt_mul_of_pos_right l.significand_lt (Nat.pow_pos (by decide))
    _ = 10 ^ ((Nat.toDigits 10 l.significand).length + k) := (Nat.pow_add _ _ _).symm
    _ ≤ l.denominator := Nat.pow_le_pow_right (by decide) hsize

/-- A value that reaches a power of ten. -/
theorem pow_mul_denominator_le {l : Literal} (hne : l.significand ≠ 0) {k : ℕ} (h : k < l.size) :
    10 ^ k * l.denominator ≤ l.numerator := by
  have hlength := Nat.length_toDigits_pos (b := 10) (n := l.significand)
  have hsize : k + (-l.exponent).toNat ≤
      (Nat.toDigits 10 l.significand).length - 1 + l.exponent.toNat := by
    unfold size at h
    omega
  calc 10 ^ k * l.denominator
      = 10 ^ (k + (-l.exponent).toNat) := (Nat.pow_add _ _ _).symm
    _ ≤ 10 ^ ((Nat.toDigits 10 l.significand).length - 1 + l.exponent.toNat) :=
        Nat.pow_le_pow_right (by decide) hsize
    _ = 10 ^ ((Nat.toDigits 10 l.significand).length - 1) * 10 ^ l.exponent.toNat :=
        Nat.pow_add _ _ _
    _ ≤ l.numerator := Nat.mul_le_mul_right _ (le_significand hne)

/-! ## The shortcuts are not seen -/

/-- A binary digit is less than ten thirty-thirds of a decimal one. -/
private theorem two_pow_le_ten_pow {m n : ℕ} (h : 10 * m ≤ 33 * n) : 2 ^ m ≤ 10 ^ n := by
  refine (Nat.pow_le_pow_iff_left (n := 33) (by decide)).mp ?_
  calc (2 ^ m) ^ 33 = (2 ^ 33) ^ m := Nat.pow_right_comm 2 m 33
    _ ≤ (10 ^ 10) ^ m := Nat.pow_le_pow_left (by decide) m
    _ = 10 ^ (10 * m) := (Nat.pow_mul 10 10 m).symm
    _ ≤ 10 ^ (33 * n) := Nat.pow_le_pow_right (by decide) h
    _ = (10 ^ n) ^ 33 := by rw [Nat.mul_comm, Nat.pow_mul]

private theorem two_mul_unitsPerOne_le {n : ℕ} (h : 10 * (1074 + 1) ≤ 33 * n) :
    2 * unitsPerOne ≤ 10 ^ n := by
  have hpow : ∀ k, 10 * (k + 1) ≤ 33 * n → 2 * 2 ^ k ≤ 10 ^ n := fun k hk =>
    (Nat.pow_succ' (m := 2) (n := k)).symm.trans_le (two_pow_le_ten_pow hk)
  exact (congrArg (2 * ·) unitsPerOne_eq).trans_le (hpow 1074 h)

private theorem two_pow_add_le {m n : ℕ} (h : 10 * m ≤ 33 * n) :
    2 ^ (m + 1074) ≤ 10 ^ n * unitsPerOne := by
  have hpow : ∀ k, 2 ^ (m + k) ≤ 10 ^ n * 2 ^ k := fun k =>
    (Nat.pow_add 2 m k).trans_le (Nat.mul_le_mul_right _ (two_pow_le_ten_pow h))
  exact (hpow 1074).trans_eq (congrArg (10 ^ n * ·) unitsPerOne_eq.symm)

/-- Below `10 ^ -330` a value is less than half a unit. -/
theorem two_mul_numerator_lt {l : Literal} (h : l.size < -330) :
    2 * (l.numerator * unitsPerOne) < l.denominator := by
  obtain ⟨n, hn, hbits⟩ : ∃ n : ℕ, l.size + n ≤ 0 ∧ 10 * (1074 + 1) ≤ 33 * n :=
    ⟨330, by omega, by decide⟩
  calc 2 * (l.numerator * unitsPerOne)
      = l.numerator * (2 * unitsPerOne) := Nat.mul_left_comm _ _ _
    _ ≤ l.numerator * 10 ^ n := Nat.mul_le_mul_left _ (two_mul_unitsPerOne_le hbits)
    _ < l.denominator := numerator_mul_pow_lt hn

/-- From `10 ^ 311` on a value is past every shift. -/
theorem le_log2_numerator_div {l : Literal} (hne : l.significand ≠ 0) (h : 311 < l.size) :
    2098 ≤ (l.numerator * unitsPerOne / l.denominator).log2 := by
  obtain ⟨m, n, hm, hn, hbits⟩ : ∃ m n : ℕ, 2098 ≤ m + 1074 ∧ (n : ℤ) < l.size ∧ 10 * m ≤ 33 * n :=
    ⟨1024, 311, by decide, by omega, by decide⟩
  have hquotient : 2 ^ (m + 1074) ≤ l.numerator * unitsPerOne / l.denominator := by
    rw [Nat.le_div_iff_mul_le l.denominator_pos]
    calc 2 ^ (m + 1074) * l.denominator
        ≤ 10 ^ n * unitsPerOne * l.denominator := Nat.mul_le_mul_right _ (two_pow_add_le hbits)
      _ = 10 ^ n * l.denominator * unitsPerOne := Nat.mul_right_comm _ _ _
      _ ≤ l.numerator * unitsPerOne := Nat.mul_le_mul_right _ (pow_mul_denominator_le hne hn)
  have hpos : 0 < l.numerator * unitsPerOne / l.denominator :=
    (Nat.two_pow_pos _).trans_le hquotient
  exact hm.trans ((Nat.le_log2 hpos.ne').mpr hquotient)

/-- **Reading rounds once**: what is read is the number nearest to the exact decimal value. -/
theorem toBinary64_eq_round (l : Literal) : l.toBinary64 = Binary64.round l.negative l.toRat := by
  rw [toRat_eq, Binary64.round_signFactor_mul_div _ _ l.denominator_pos]
  unfold toBinary64
  dsimp only
  split
  next hsmall =>
    refine (Binary64.ofUnits_eq_zero l.negative ?_).symm
    rcases hsmall with hzero | hsize
    · rw [numerator, hzero, Nat.zero_mul, Nat.zero_mul]
      exact l.denominator_pos
    · exact two_mul_numerator_lt hsize
  next hlarge =>
    split
    next hsize =>
      have hlog := le_log2_numerator_div (not_or.mp hlarge).1 hsize
      exact (Binary64.ofUnits_eq_infinity l.negative hlog).symm
    next =>
      rw [shiftLeft_eq_mul_unitsPerOne]
      rfl

end QuadraticSolver.Literal

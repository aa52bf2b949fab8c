import QuadraticSolver.Proofs.Binary64.Order
import QuadraticSolver.Proofs.Binary64.SquareRoot

/-!
# Values of moderate size

Where values are neither too great nor too small, rounding has no exits: a
quotient of integers is correctly rounded (`correctlyRounded_round`,
`moderate_div`), a quotient or a root is finite, and sums, differences and
products of integers of the format are the integer results, rounded once.
-/

namespace QuadraticSolver.Binary64

/-- The number of the format that stands for the value: the nearest one, and of two nearest ones
the even one; zero without a sign for zero. -/
structure CorrectlyRounded (x : Binary64) (q : ℚ) : Prop where
  eq : x = round false q
  nearest : x.IsNearest q

/-- A value for which rounding neither overflows nor reaches zero. -/
structure Moderate (q : ℚ) : Prop where
  low : q ≠ 0 → 1 / 2 ^ 200 ≤ |q|
  high : |q| ≤ 2 ^ 200

section Moderate

variable {q : ℚ} {x y : Binary64} {m n : ℤ}

theorem correctlyRounded_round (hq : Moderate q) : (round false q).CorrectlyRounded q :=
  ⟨rfl, isNearest_round (isFinite_round hq.high)⟩

/-- A quotient of integers of moderate size is of moderate size. -/
theorem moderate_div (hm : |m| ≤ 2 ^ 60) (hn : |n| ≤ 2 ^ 60) (hne : n ≠ 0) :
    Moderate ((m : ℚ) / n) := by
  have hm' : |(m : ℚ)| ≤ 2 ^ 60 := by exact_mod_cast hm
  have hn' : |(n : ℚ)| ≤ 2 ^ 60 := by exact_mod_cast hn
  have hone : 1 ≤ |(n : ℚ)| := by exact_mod_cast Int.one_le_abs hne
  refine ⟨fun hzero => ?_, ?_⟩
  · have hmne : m ≠ 0 := by
      rintro rfl
      rw [Int.cast_zero, zero_div] at hzero
      exact hzero rfl
    have hmone : 1 ≤ |(m : ℚ)| := by exact_mod_cast Int.one_le_abs hmne
    rw [abs_div, le_div_iff₀ (by linarith)]
    calc 1 / 2 ^ 200 * |(n : ℚ)| ≤ 1 / 2 ^ 200 * 2 ^ 60 := by gcongr
      _ ≤ 1 := by norm_num
      _ ≤ |(m : ℚ)| := hmone
  · rw [abs_div]
    calc |(m : ℚ)| / |(n : ℚ)| ≤ |(m : ℚ)| := div_le_self (abs_nonneg _) hone
      _ ≤ 2 ^ 200 := hm'.trans (by norm_num)

theorem abs_div_le_abs (hy : 1 ≤ |y.toRat|) : |x.toRat / y.toRat| ≤ |x.toRat| := by
  rw [abs_div]
  exact div_le_self (abs_nonneg _) hy

theorem isFinite_div (hx : x.isFinite = true) (hy : y.isFinite = true)
    (hlow : 1 ≤ |y.toRat|) (hhigh : |x.toRat| ≤ 2 ^ 200) : (x / y).isFinite = true := by
  have hne : y.toRat ≠ 0 := abs_pos.mp (by linarith)
  obtain ⟨z, hquotient⟩ := exists_div_eq hx hy hne
  rw [hquotient]
  exact isFinite_round ((abs_div_le_abs hlow).trans hhigh)

/-- The root of a number that is not negative is finite, and not too great. -/
theorem sqrt_bound (hx : x.isFinite = true) (hpos : 0 < x.toRat) (hhigh : x.toRat ≤ 2 ^ 60) :
    x.sqrt.isFinite = true ∧ |x.sqrt.toRat| ≤ 2 ^ 60 := by
  have hfinite := isFinite_sqrt hx hpos.le
  obtain ⟨hnonneg, hsquare⟩ := sqrt_spec hpos hfinite
  refine ⟨hfinite, ?_⟩
  have hle := (abs_le.mp hsquare).2
  rw [abs_of_nonneg hnonneg]
  by_contra hlt
  rw [not_le] at hlt
  nlinarith

end Moderate

/-! ## Integers -/

section Integers

variable {x y : Binary64} {m n : ℤ}

theorem isInteger_ofInt (n : ℤ) : (ofInt n).IsInteger n := ⟨false, rfl⟩

theorem IsInteger.isFinite (hx : x.IsInteger m) (hm : |m| ≤ 2 ^ 60) : x.isFinite = true := by
  obtain ⟨z, rfl⟩ := hx
  have hm' : |(m : ℚ)| ≤ 2 ^ 60 := by exact_mod_cast hm
  exact isFinite_round (hm'.trans (by norm_num))

theorem IsInteger.toRat_eq (hx : x.IsInteger m) (hm : |m| ≤ 2 ^ 53) : x.toRat = m := by
  obtain ⟨z, rfl⟩ := hx
  rw [Int.abs_eq_natAbs] at hm
  exact (round_int (by exact_mod_cast hm)).2

theorem abs_le_two_pow_60 (hm : |m| ≤ 2 ^ 53) : |m| ≤ 2 ^ 60 :=
  hm.trans (by norm_num)

/-- The difference of integers of the format is the integer difference, rounded once. -/
theorem IsInteger.sub (hx : x.IsInteger m) (hy : y.IsInteger n) (hm : |m| ≤ 2 ^ 53)
    (hn : |n| ≤ 2 ^ 53) : (x - y).IsInteger (m - n) := by
  obtain ⟨z, hz⟩ := exists_sub_eq (hx.isFinite (abs_le_two_pow_60 hm))
    (hy.isFinite (abs_le_two_pow_60 hn))
  rw [hx.toRat_eq hm, hy.toRat_eq hn] at hz
  exact ⟨z, by rw [hz, Int.cast_sub]⟩

/-- The sum of integers of the format is the integer sum, rounded once. -/
theorem IsInteger.add (hx : x.IsInteger m) (hy : y.IsInteger n) (hm : |m| ≤ 2 ^ 53)
    (hn : |n| ≤ 2 ^ 53) : (x + y).IsInteger (m + n) := by
  obtain ⟨z, hz⟩ := exists_add_eq (hx.isFinite (abs_le_two_pow_60 hm))
    (hy.isFinite (abs_le_two_pow_60 hn))
  rw [hx.toRat_eq hm, hy.toRat_eq hn] at hz
  exact ⟨z, by rw [hz, Int.cast_add]⟩

/-- A product with an integer value is the integer, rounded once. -/
theorem isInteger_mul (hx : x.isFinite = true) (hy : y.isFinite = true) (hm : x.toRat = m)
    (hn : y.toRat = n) : (x * y).IsInteger (m * n) := by
  obtain ⟨z, hz⟩ := exists_mul_eq hx hy
  rw [hm, hn] at hz
  exact ⟨z, by rw [hz, Int.cast_mul]⟩

theorem IsInteger.one_le_toRat (hx : x.IsInteger m) (hm : |m| ≤ 2 ^ 60) (h : 0 < m) :
    1 ≤ x.toRat := by
  have hfinite := hx.isFinite hm
  obtain ⟨z, rfl⟩ := hx
  have hone : (ofInt 1).toRat = 1 := toRat_ofInt (by decide)
  rw [← hone]
  apply le_toRat_round (isFinite_ofInt (by decide)) hfinite
  rw [hone]
  exact_mod_cast h

theorem IsInteger.toRat_le_neg_one (hx : x.IsInteger m) (hm : |m| ≤ 2 ^ 60) (h : m < 0) :
    x.toRat ≤ -1 := by
  have hle := hx.neg.one_le_toRat (by simpa using hm) (neg_pos.mpr h)
  rw [toRat_neg] at hle
  linarith

theorem IsInteger.toRat_eq_zero (hx : x.IsInteger 0) : x.toRat = 0 := by
  rw [hx.toRat_eq (by norm_num), Int.cast_zero]

end Integers

end QuadraticSolver.Binary64

import QuadraticSolver.Proofs.Binary64.Arithmetic

/-!
# Rounding is to the nearest and keeps the order

`Binary64.round` gives a number of the format that no other is nearer than
(`isNearest_round`). From this it follows that it keeps the order of exact values
(`round_mono`): what lies beyond a number of the format is not rounded across it.

Beside that, a value that is not too great has a finite result
(`isFinite_round`), and on such values each operation on finite numbers is one
rounding of the exact result.
-/

namespace QuadraticSolver.Binary64

/-! ## To the nearest -/

/-- The number is finite, and no number of the format is nearer to the value. -/
structure IsNearest (x : Binary64) (q : ℚ) : Prop where
  finite : x.isFinite = true
  le : ∀ y : Binary64, y.isFinite = true → |x.toRat - q| ≤ |y.toRat - q|

section Nearest

variable {z z' : Bool} {q r : ℚ}

/-- A finite result is the nearest magnitude with the sign of the value. -/
theorem exists_of_isFinite_round (h : (round z q).isFinite = true) :
    ∃ m, Magnitude.nearest? (q.num.natAbs * unitsPerOne) q.den = some m ∧
      round z q = finite (roundSign z q) m := by
  have habs : |q| = (q.num.natAbs : ℚ) / q.den := abs_eq_natAbs_div q
  rw [round_eq_ofUnits z q.den_pos habs] at h ⊢
  exact exists_of_isFinite_ofUnits h

theorem natAbs_mul_unitsPerOne_div (q : ℚ) :
    ((q.num.natAbs * unitsPerOne : ℕ) : ℚ) / q.den = |q| * unitsPerOne := by
  rw [abs_eq_natAbs_div, Nat.cast_mul]
  ring

/-- A number with the sign of a value is as far from it as their distances from zero differ. -/
theorem abs_toRat_sub_of_roundSign (z : Bool) (q : ℚ) (m : Magnitude) :
    |(finite (roundSign z q) m).toRat - q| = |(m.units : ℚ) - |q| * unitsPerOne| / unitsPerOne := by
  have hU : (0 : ℚ) < unitsPerOne := by exact_mod_cast unitsPerOne_pos
  have hdiff : (finite (roundSign z q) m).toRat - q =
      signFactor (roundSign z q) * ((m.units - |q| * unitsPerOne) / unitsPerOne) := by
    rw [toRat_finite, sub_div, mul_div_cancel_right₀ _ hU.ne', mul_sub, signFactor_roundSign]
  rw [hdiff, abs_mul, abs_signFactor, one_mul, abs_div, abs_of_pos hU]

/-- **Rounding is to the nearest.** -/
theorem isNearest_round (h : (round z q).isFinite = true) : (round z q).IsNearest q := by
  have hU : (0 : ℚ) < unitsPerOne := by exact_mod_cast unitsPerOne_pos
  refine ⟨h, fun y hy => ?_⟩
  obtain ⟨m, hm, hround⟩ := exists_of_isFinite_round h
  obtain ⟨s, l, rfl⟩ := exists_of_isFinite hy
  have hle := Magnitude.abs_units_sub_le_abs q.den_pos hm l
  rw [natAbs_mul_unitsPerOne_div] at hle
  rw [hround, abs_toRat_sub_of_roundSign]
  calc |(m.units : ℚ) - |q| * unitsPerOne| / unitsPerOne
      ≤ |(l.units : ℚ) - |q| * unitsPerOne| / unitsPerOne := div_le_div_of_nonneg_right hle hU.le
    _ = |(|(finite s l).toRat| - |q|)| := by
      rw [abs_toRat_finite, ← abs_of_pos hU, ← abs_div, abs_of_pos hU, sub_div,
        mul_div_cancel_right₀ _ hU.ne']
    _ ≤ |(finite s l).toRat - q| := abs_abs_sub_abs_le _ _

/-- Of two points the upper one is as near only from their middle on. -/
theorem add_le_two_mul_of_abs_sub_le {a b : ℚ} (hlt : b < a) (h : |a - q| ≤ |b - q|) :
    a + b ≤ 2 * q := by
  by_contra hmiddle
  rw [not_le] at hmiddle
  have hnearer : |b - q| < a - q := abs_lt.mpr ⟨by linarith, by linarith⟩
  linarith [le_abs_self (a - q)]

/-- Of two points the lower one is as near only up to their middle. -/
theorem two_mul_le_add_of_abs_sub_le {a b : ℚ} (hlt : b < a) (h : |b - q| ≤ |a - q|) :
    2 * q ≤ a + b := by
  by_contra hmiddle
  rw [not_le] at hmiddle
  have hnearer : |a - q| < q - b := abs_lt.mpr ⟨by linarith, by linarith⟩
  linarith [neg_abs_le (b - q)]

theorem toRat_round_zero (z : Bool) : (round z 0).toRat = 0 := by
  have hvalue := (round_int (k := 0) (z := z) (by decide)).2
  rw [Int.cast_zero] at hvalue
  exact hvalue

/-- The sign of a zero is no part of the value. -/
theorem toRat_round_congr (z z' : Bool) (q : ℚ) : (round z q).toRat = (round z' q).toRat := by
  by_cases hq : q = 0
  · rw [hq, toRat_round_zero, toRat_round_zero]
  · rw [round_congr fun h => absurd h hq]

/-- **Rounding keeps the order.** -/
theorem round_mono (hq : (round z q).isFinite = true) (hr : (round z' r).isFinite = true)
    (h : q ≤ r) : (round z q).toRat ≤ (round z' r).toRat := by
  by_contra hlt
  rw [not_le] at hlt
  have hlow := add_le_two_mul_of_abs_sub_le hlt ((isNearest_round hq).le _ hr)
  have hhigh := two_mul_le_add_of_abs_sub_le hlt ((isNearest_round hr).le _ hq)
  obtain rfl : q = r := by linarith
  exact hlt.ne (toRat_round_congr z' z q)

/-- A number of the format is left alone. -/
theorem round_toRat (z : Bool) {x : Binary64} (hx : x.isFinite = true) :
    (round z x.toRat).isFinite = true ∧ (round z x.toRat).toRat = x.toRat := by
  obtain ⟨s, m, rfl⟩ := exists_of_isFinite hx
  have habs := abs_toRat_finite s m
  rw [round_eq_finite z habs]
  exact ⟨rfl, by rw [toRat_finite _ m, ← habs, signFactor_roundSign]⟩

/-- A value at or above a number of the format is rounded to one at or above it. -/
theorem le_toRat_round {x : Binary64} (hx : x.isFinite = true) (hq : (round z q).isFinite = true)
    (h : x.toRat ≤ q) : x.toRat ≤ (round z q).toRat := by
  obtain ⟨hfinite, hvalue⟩ := round_toRat false hx
  rw [← hvalue]
  exact round_mono hfinite hq h

/-- A value at or below a number of the format is rounded to one at or below it. -/
theorem toRat_round_le {x : Binary64} (hx : x.isFinite = true) (hq : (round z q).isFinite = true)
    (h : q ≤ x.toRat) : (round z q).toRat ≤ x.toRat := by
  obtain ⟨hfinite, hvalue⟩ := round_toRat false hx
  rw [← hvalue]
  exact round_mono hq hfinite h

end Nearest

/-! ## In the normal range -/

section Normal

variable {z : Bool} {q : ℚ}

theorem two_pow_mul_unitsPerOne_lt {j k : ℕ} (h : j + 1074 < k) :
    2 ^ j * unitsPerOne < 2 ^ k := by
  have hpow : ∀ n, j + n < k → 2 ^ j * 2 ^ n < 2 ^ k := by
    intro n hn
    rw [← Nat.pow_add]
    exact Nat.pow_lt_pow_right (by decide) hn
  exact (congrArg (2 ^ j * ·) unitsPerOne_eq).trans_lt (hpow 1074 h)

/-- A value that is not too great has a finite result. -/
theorem isFinite_round (h : |q| ≤ 2 ^ 200) : (round z q).isFinite = true := by
  have hpos : (0 : ℚ) < q.den := by exact_mod_cast q.den_pos
  have hnum : q.num.natAbs ≤ 2 ^ 200 * q.den := by
    rw [abs_eq_natAbs_div, div_le_iff₀ hpos] at h
    exact_mod_cast h
  have hquotient : q.num.natAbs * unitsPerOne / q.den ≤ 2 ^ 200 * unitsPerOne := by
    refine Nat.div_le_of_le_mul ?_
    calc q.num.natAbs * unitsPerOne ≤ 2 ^ 200 * q.den * unitsPerOne := Nat.mul_le_mul_right _ hnum
      _ = q.den * (2 ^ 200 * unitsPerOne) := by ring
  have hlog : (q.num.natAbs * unitsPerOne / q.den).log2 ≤ 2096 := by
    by_cases hzero : q.num.natAbs * unitsPerOne / q.den = 0
    · rw [hzero]
      decide
    · have hlt : ∀ k, 200 + 1074 < k → (q.num.natAbs * unitsPerOne / q.den).log2 < k :=
        fun k hk => (Nat.log2_lt hzero).mpr (hquotient.trans_lt (two_pow_mul_unitsPerOne_lt hk))
      exact Nat.le_of_lt_succ (hlt 2097 (by decide))
  obtain ⟨m, hm⟩ := Magnitude.exists_nearest? hlog
  rw [round_eq_ofUnits z q.den_pos (abs_eq_natAbs_div q), ofUnits_of_nearest? _ hm]
  rfl

/-- **The error of one rounding** of a value that is neither too great nor too small is at most the
`2 ^ -53`-th part of the value. -/
theorem abs_round_sub_le_of_normal (hlow : 1 / 2 ^ 200 ≤ |q|) (hhigh : |q| ≤ 2 ^ 200) :
    |(round z q).toRat - q| ≤ |q| / 2 ^ 53 := by
  have hU : (0 : ℚ) < unitsPerOne := by exact_mod_cast unitsPerOne_pos
  have hpos : (0 : ℚ) < q.den := by exact_mod_cast q.den_pos
  obtain ⟨m, hm, hround⟩ := exists_of_isFinite_round (z := z) (isFinite_round hhigh)
  have hunits : ((2 ^ 252 : ℕ) : ℚ) ≤ unitsPerOne := by
    exact_mod_cast two_pow_le_unitsPerOne (show 252 ≤ 1074 by decide)
  have hnormal : 2 ^ 52 * q.den ≤ q.num.natAbs * unitsPerOne := by
    have hle : (2 : ℚ) ^ 52 ≤ |q| * unitsPerOne := by
      calc (2 : ℚ) ^ 52 = 1 / 2 ^ 200 * (2 ^ 252 : ℕ) := by norm_num
        _ ≤ |q| * unitsPerOne := mul_le_mul hlow hunits (by positivity) (abs_nonneg q)
    rw [← natAbs_mul_unitsPerOne_div, le_div_iff₀ hpos] at hle
    exact_mod_cast hle
  have herror := Magnitude.abs_units_sub_le_of_normal q.den_pos hnormal hm
  rw [natAbs_mul_unitsPerOne_div] at herror
  rw [hround, abs_toRat_sub_of_roundSign, div_le_iff₀ hU]
  calc |(m.units : ℚ) - |q| * unitsPerOne| ≤ |q| * unitsPerOne / 2 ^ 53 := herror
    _ = |q| / 2 ^ 53 * unitsPerOne := by ring

/-- A value that is not too small is not rounded to zero. -/
theorem toRat_round_ne_zero (hlow : 1 / 2 ^ 200 ≤ |q|) (hhigh : |q| ≤ 2 ^ 200) :
    (round z q).toRat ≠ 0 := by
  intro hzero
  have herror := abs_round_sub_le_of_normal (z := z) hlow hhigh
  rw [hzero, abs_sub_comm, sub_zero] at herror
  have hpos : 0 < |q| := lt_of_lt_of_le (by positivity) hlow
  linarith

/-- The number nearest to a value is near it. -/
theorem IsNearest.isNear {x : Binary64} (h : x.IsNearest q) (hq : |q| ≤ 2 ^ 200) : x.IsNear q := by
  have hfinite : (round false q).isFinite = true := isFinite_round hq
  exact (h.le _ hfinite).trans (isNear_round hfinite)

/-- A value of the format is the one of the nearest number. -/
theorem IsNearest.toRat_eq {x y : Binary64} (h : x.IsNearest y.toRat) (hy : y.isFinite = true) :
    x.toRat = y.toRat := by
  have hle := h.le y hy
  rw [sub_self, abs_zero] at hle
  exact sub_eq_zero.mp (abs_eq_zero.mp (le_antisymm hle (abs_nonneg _)))

end Normal

/-! ## The operations are one rounding -/

section Operations

variable {x y : Binary64}

theorem exists_add_eq (hx : x.isFinite = true) (hy : y.isFinite = true) :
    ∃ z, x + y = round z (x.toRat + y.toRat) := by
  obtain ⟨s, m, rfl⟩ := exists_of_isFinite hx
  obtain ⟨t, n, rfl⟩ := exists_of_isFinite hy
  exact ⟨_, rfl⟩

theorem exists_sub_eq (hx : x.isFinite = true) (hy : y.isFinite = true) :
    ∃ z, x - y = round z (x.toRat - y.toRat) := by
  obtain ⟨z, h⟩ := exists_add_eq hx (isFinite_neg_iff.mpr hy)
  rw [toRat_neg, ← sub_eq_add_neg] at h
  exact ⟨z, h⟩

theorem exists_mul_eq (hx : x.isFinite = true) (hy : y.isFinite = true) :
    ∃ z, x * y = round z (x.toRat * y.toRat) := by
  obtain ⟨s, m, rfl⟩ := exists_of_isFinite hx
  obtain ⟨t, n, rfl⟩ := exists_of_isFinite hy
  exact ⟨_, rfl⟩

theorem exists_div_eq (hx : x.isFinite = true) (hy : y.isFinite = true) (hne : y.toRat ≠ 0) :
    ∃ z, x / y = round z (x.toRat / y.toRat) := by
  obtain ⟨s, m, rfl⟩ := exists_of_isFinite hx
  obtain ⟨t, n, rfl⟩ := exists_of_isFinite hy
  have hmantissa : n.mantissa ≠ 0 := by
    intro hzero
    exact hne (toRat_of_isZero (decide_eq_true hzero))
  exact ⟨_, div_finite s t m n hmantissa⟩

end Operations

end QuadraticSolver.Binary64

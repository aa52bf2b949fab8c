import Mathlib

/-!
# How far a root may miss

The closed formulas, with an error at each operation, on exact values: every
step is off by the `2 ^ -53`-th part of its result and by `h`, which stands for
half a unit near zero. All that is said of `h` is that it is small, and small
beside any coefficient.

The measure is four times `a` times the value of the polynomial, which is the
square of `2·a·x + b` less the discriminant (`four_mul_residual`). For a double
root the square is next to nothing, and what is left is the discriminant; for
one of two roots it is the discriminant again, up to what `-b ± √Δ` loses.
-/

namespace QuadraticSolver

/-- The distance of `a·x² + b·x + c` from zero. -/
def residual (a b c x : ℚ) : ℚ :=
  |a * x ^ 2 + b * x + c|

/-- What the polynomial amounts to when nothing cancels, and one more. -/
def scale (a b c x : ℚ) : ℚ :=
  |a| * x ^ 2 + |b| * |x| + |c| + 1

section Analysis

variable {a b c x h : ℚ}

theorem discriminant_error {p q d : ℚ} (h0 : 0 ≤ h)
    (hp : |p - b * b| ≤ |b * b| / 2 ^ 53 + h) (hq : |q - 4 * a * c| ≤ |4 * a * c| / 2 ^ 53 + h)
    (hd : |d - (p - q)| ≤ |p - q| / 2 ^ 53 + h) :
    |d - (b ^ 2 - 4 * a * c)| ≤ 3 / 2 ^ 53 * (b ^ 2 + 4 * (|a| * |c|)) + 4 * h := by
  have hb : |b * b| = b ^ 2 := by rw [← sq, abs_of_nonneg (sq_nonneg b)]
  have hac : |4 * a * c| = 4 * (|a| * |c|) := by
    rw [abs_mul, abs_mul, abs_of_pos (by norm_num : (0 : ℚ) < 4), mul_assoc]
  rw [hb] at hp
  rw [hac] at hq
  have hexact : |b ^ 2 - 4 * a * c| ≤ b ^ 2 + 4 * (|a| * |c|) := by
    calc |b ^ 2 - 4 * a * c| ≤ |b ^ 2| + |4 * a * c| := abs_sub _ _
      _ = b ^ 2 + 4 * (|a| * |c|) := by rw [hac, abs_of_nonneg (sq_nonneg b)]
  have hpq : |(p - q) - (b ^ 2 - 4 * a * c)| ≤ (b ^ 2 + 4 * (|a| * |c|)) / 2 ^ 53 + 2 * h := by
    have : (p - q) - (b ^ 2 - 4 * a * c) = (p - b * b) - (q - 4 * a * c) := by ring
    rw [this]
    linarith [abs_sub (p - b * b) (q - 4 * a * c)]
  have hsize : |p - q| ≤ |(p - q) - (b ^ 2 - 4 * a * c)| + |b ^ 2 - 4 * a * c| := by
    have := abs_add_le ((p - q) - (b ^ 2 - 4 * a * c)) (b ^ 2 - 4 * a * c)
    rwa [sub_add_cancel] at this
  have hnonneg : 0 ≤ b ^ 2 + 4 * (|a| * |c|) := by positivity
  linarith [abs_sub_le d (p - q) (b ^ 2 - 4 * a * c)]

/-- A quotient, multiplied back. -/
theorem mul_error {d n : ℚ} (hd : d ≠ 0) (hx : |x - n / d| ≤ |n / d| / 2 ^ 53 + h) :
    |d * x - n| ≤ |n| / 2 ^ 53 + |d| * h := by
  have hpos : 0 < |d| := abs_pos.mpr hd
  have hback : d * x - n = d * (x - n / d) := by
    rw [mul_sub, mul_div_cancel₀ n hd]
  rw [hback, abs_mul]
  calc |d| * |x - n / d| ≤ |d| * (|n / d| / 2 ^ 53 + h) := mul_le_mul_of_nonneg_left hx hpos.le
    _ = |n| / 2 ^ 53 + |d| * h := by
      rw [abs_div]
      field_simp

/-- What the formulas solve: four times `a` times the value is a square less the discriminant. -/
theorem four_mul_residual :
    4 * |a| * residual a b c x = |(2 * a * x + b) ^ 2 - (b ^ 2 - 4 * a * c)| := by
  have hfour : |(4 : ℚ)| = 4 := abs_of_pos (by norm_num)
  rw [residual, ← hfour, ← abs_mul, ← abs_mul, hfour]
  congr 1
  ring

theorem sq_mul_le {k : ℚ} (hk : 0 ≤ k) (h0 : 0 ≤ h) (hh : h ≤ 1) (hkh : k * h ≤ 1 / 2 ^ 51) :
    (k * h) ^ 2 ≤ k / 2 ^ 51 := by
  calc (k * h) ^ 2 = k * (k * h * h) := by ring
    _ ≤ k * (1 / 2 ^ 51 * 1) := by
      apply mul_le_mul_of_nonneg_left _ hk
      exact mul_le_mul hkh hh h0 (by positivity)
    _ = k / 2 ^ 51 := by ring

/-- The root of degree one. -/
theorem linear_error (hbh : |b| * h ≤ 1 / 2 ^ 51) (hx : |b * x - -c| ≤ |c| / 2 ^ 53 + |b| * h) :
    residual a b c x ≤ scale a b c x / 10 ^ 12 + |a| * x ^ 2 := by
  have hx2 : 0 ≤ |a| * x ^ 2 := by positivity
  have hbx : 0 ≤ |b| * |x| := by positivity
  have hc := abs_nonneg c
  rw [sub_neg_eq_add] at hx
  unfold residual scale
  calc |a * x ^ 2 + b * x + c| = |a * x ^ 2 + (b * x + c)| := by rw [add_assoc]
    _ ≤ |a * x ^ 2| + |b * x + c| := abs_add_le _ _
    _ ≤ |a| * x ^ 2 + (|c| / 2 ^ 53 + |b| * h) := by
      rw [abs_mul, abs_of_nonneg (sq_nonneg x)]
      linarith
    _ ≤ (|a| * x ^ 2 + |b| * |x| + |c| + 1) / 10 ^ 12 + |a| * x ^ 2 := by
      linarith

/-- The double root. -/
theorem single_error {t : ℚ} (ha : 1 / 2 ^ 30 ≤ |a|) (h0 : 0 ≤ h) (hh : h ≤ 1 / 2 ^ 100)
    (hah : |a| * h ≤ 1 / 2 ^ 51) (hbh : |b| * h ≤ 1 / 2 ^ 51)
    (hdelta : |b ^ 2 - 4 * a * c| ≤ t + 3 / 2 ^ 53 * (b ^ 2 + 4 * (|a| * |c|)) + 4 * h)
    (hx : |2 * a * x + b| ≤ |b| / 2 ^ 53 + 2 * |a| * h) :
    residual a b c x ≤ scale a b c x / 10 ^ 12 + t / (4 * |a|) := by
  have hapos : 0 < |a| := lt_of_lt_of_le (by positivity) ha
  have hb0 := abs_nonneg b
  have hp0 := abs_nonneg (2 * a * x + b)
  have hb : |b| ≤ 2 * (|a| * |x|) + |2 * a * x + b| := by
    calc |b| = |(2 * a * x + b) - 2 * a * x| := by rw [add_sub_cancel_left]
      _ ≤ |2 * a * x + b| + |2 * a * x| := abs_sub _ _
      _ = 2 * (|a| * |x|) + |2 * a * x + b| := by
        rw [abs_mul, abs_mul, abs_of_pos (by norm_num : (0 : ℚ) < 2)]
        ring
  have hsquare : b ^ 2 ≤ |a| * (3 * (|b| * |x|) + 3 / 2 ^ 51) := by
    have hlinear : |b| ≤ |a| * (3 * |x| + 3 * h) := by linarith
    calc b ^ 2 = |b| * |b| := by rw [← sq, sq_abs]
      _ ≤ |b| * (|a| * (3 * |x| + 3 * h)) := mul_le_mul_of_nonneg_left hlinear hb0
      _ = |a| * (3 * (|b| * |x|) + 3 * (|b| * h)) := by ring
      _ ≤ |a| * (3 * (|b| * |x|) + 3 / 2 ^ 51) := by
        apply mul_le_mul_of_nonneg_left _ hapos.le
        linarith
  have hlost := sq_mul_le hapos.le h0 (by linarith) hah
  have hp : (2 * a * x + b) ^ 2 ≤ 2 / 2 ^ 106 * b ^ 2 + 8 * (|a| / 2 ^ 51) := by
    calc (2 * a * x + b) ^ 2 = |2 * a * x + b| ^ 2 := (sq_abs _).symm
      _ ≤ (|b| / 2 ^ 53 + 2 * |a| * h) ^ 2 := pow_le_pow_left₀ hp0 hx 2
      _ ≤ 2 * (|b| / 2 ^ 53) ^ 2 + 2 * (2 * |a| * h) ^ 2 := by
        have := sq_nonneg (|b| / 2 ^ 53 - 2 * |a| * h)
        linarith
      _ = 2 / 2 ^ 106 * |b| ^ 2 + 8 * (|a| * h) ^ 2 := by ring
      _ ≤ 2 / 2 ^ 106 * b ^ 2 + 8 * (|a| / 2 ^ 51) := by
        rw [sq_abs]
        linarith
  have hunit : h ≤ |a| / 2 ^ 70 := by linarith
  have hgoal : 4 * |a| * residual a b c x ≤
      4 * |a| * (scale a b c x / 10 ^ 12 + t / (4 * |a|)) := by
    have hcancel : 4 * |a| * (t / (4 * |a|)) = t := by field_simp
    have hx2 : 0 ≤ |a| * (|a| * x ^ 2) := by positivity
    have hbx : 0 ≤ |a| * (|b| * |x|) := by positivity
    have hc : 0 ≤ |a| * |c| := by positivity
    rw [four_mul_residual, mul_add, hcancel, scale]
    calc |(2 * a * x + b) ^ 2 - (b ^ 2 - 4 * a * c)|
        ≤ |(2 * a * x + b) ^ 2| + |b ^ 2 - 4 * a * c| := abs_sub _ _
      _ ≤ (2 * a * x + b) ^ 2 + (t + 3 / 2 ^ 53 * (b ^ 2 + 4 * (|a| * |c|)) + 4 * h) := by
        rw [abs_of_nonneg (sq_nonneg (2 * a * x + b))]
        linarith
      _ ≤ 4 * |a| * ((|a| * x ^ 2 + |b| * |x| + |c| + 1) / 10 ^ 12) + t := by
        linarith
  exact le_of_mul_le_mul_left hgoal (by positivity)

/-- What a root of a pair is off by, multiplied back: `r` is the root of the discriminant with its
sign and `n` the numerator. -/
theorem numerator_error {r n : ℚ} (h0 : 0 ≤ h)
    (hn : |n - (-b + r)| ≤ |-b + r| / 2 ^ 53 + h)
    (hx : |2 * a * x - n| ≤ |n| / 2 ^ 53 + 2 * |a| * h) :
    |2 * a * x + b - r| ≤ 3 / 2 ^ 53 * |-b + r| + 2 * (|a| * h) + 2 * h := by
  have hsize : |n| ≤ |-b + r| + |n - (-b + r)| := by
    have := abs_add_le (-b + r) (n - (-b + r))
    rwa [add_sub_cancel] at this
  have hsplit : 2 * a * x + b - r = (2 * a * x - n) + (n - (-b + r)) := by ring
  rw [hsplit]
  linarith [abs_add_le (2 * a * x - n) (n - (-b + r)), abs_nonneg (-b + r)]

/-! ### One of two roots -/

section Pair

variable {r e : ℚ}

theorem two_mul_abs_mul_abs_le (r b : ℚ) : 2 * (|r| * |b|) ≤ r ^ 2 + b ^ 2 := by
  have := sq_nonneg (|r| - |b|)
  rw [sub_sq, sq_abs, sq_abs] at this
  linarith

/-- What the error of the numerator makes of the square, to the first order. -/
theorem cross_error (he : |e| ≤ 3 / 2 ^ 53 * (|b| + |r|) + 2 * (|a| * h) + 2 * h) :
    |r * e| ≤ 3 / 2 ^ 53 * (r ^ 2 + |r| * |b|) + 2 * (|a| * (|r| * h)) + 2 * (|r| * h) := by
  rw [abs_mul]
  calc |r| * |e| ≤ |r| * (3 / 2 ^ 53 * (|b| + |r|) + 2 * (|a| * h) + 2 * h) :=
        mul_le_mul_of_nonneg_left he (abs_nonneg r)
    _ = 3 / 2 ^ 53 * (|r| ^ 2 + |r| * |b|) + 2 * (|a| * (|r| * h)) + 2 * (|r| * h) := by ring
    _ = _ := by rw [sq_abs]

/-- And to the second order. -/
theorem sq_error (he : |e| ≤ 3 / 2 ^ 53 * (|b| + |r|) + 2 * (|a| * h) + 2 * h) :
    e ^ 2 ≤ 54 / 2 ^ 106 * (b ^ 2 + r ^ 2) + 12 * (|a| * h) ^ 2 + 12 * h ^ 2 := by
  have hmean := two_mul_abs_mul_abs_le r b
  calc e ^ 2 = |e| ^ 2 := (sq_abs e).symm
    _ ≤ (3 / 2 ^ 53 * (|b| + |r|) + 2 * (|a| * h) + 2 * h) ^ 2 :=
      pow_le_pow_left₀ (abs_nonneg e) he 2
    _ ≤ 3 * (3 / 2 ^ 53 * (|b| + |r|)) ^ 2 + 3 * (2 * (|a| * h)) ^ 2 + 3 * (2 * h) ^ 2 := by
      linarith [sq_nonneg (3 / 2 ^ 53 * (|b| + |r|) - 2 * (|a| * h)),
        sq_nonneg (3 / 2 ^ 53 * (|b| + |r|) - 2 * h), sq_nonneg (2 * (|a| * h) - 2 * h)]
    _ = 27 / 2 ^ 106 * (|b| ^ 2 + |r| ^ 2 + 2 * (|r| * |b|)) + 12 * (|a| * h) ^ 2 +
        12 * h ^ 2 := by ring
    _ ≤ _ := by
      rw [sq_abs, sq_abs]
      linarith

/-- What underflows beside the root is small beside its square. -/
theorem root_mul_le (h0 : 0 ≤ h) (hh : h ≤ 1 / 2 ^ 100) : |r| * h ≤ r ^ 2 / 2 ^ 61 + h := by
  have hh2 : h ^ 2 ≤ h / 2 ^ 100 := by
    rw [sq, div_eq_mul_one_div]
    exact mul_le_mul_of_nonneg_left hh h0
  have hexpand : (|r| / 2 ^ 30 - 2 ^ 30 * h) ^ 2 =
      r ^ 2 / 2 ^ 60 - 2 * (|r| * h) + 2 ^ 60 * h ^ 2 := by
    rw [← sq_abs r]
    ring
  linarith [sq_nonneg (|r| / 2 ^ 30 - 2 ^ 30 * h)]

/-- How far the square is from the discriminant: what the discriminant, its root and the numerator
are off by. -/
theorem abs_sq_sub_discriminant_le {d : ℚ} (hx : 2 * a * x + b = r + e) :
    |(2 * a * x + b) ^ 2 - (b ^ 2 - 4 * a * c)| ≤
      |r ^ 2 - d| + |d - (b ^ 2 - 4 * a * c)| + (2 * |r * e| + e ^ 2) := by
  have hsplit : (2 * a * x + b) ^ 2 - (b ^ 2 - 4 * a * c) =
      (r ^ 2 - d) + (d - (b ^ 2 - 4 * a * c)) + (2 * (r * e) + e ^ 2) := by
    rw [hx]
    ring
  have hlast : |2 * (r * e) + e ^ 2| ≤ 2 * |r * e| + e ^ 2 := by
    have := abs_add_le (2 * (r * e)) (e ^ 2)
    rwa [abs_mul 2, abs_of_pos (by norm_num : (0 : ℚ) < 2), abs_of_nonneg (sq_nonneg e)] at this
  rw [hsplit]
  linarith [abs_add_le ((r ^ 2 - d) + (d - (b ^ 2 - 4 * a * c))) (2 * (r * e) + e ^ 2),
    abs_add_le (r ^ 2 - d) (d - (b ^ 2 - 4 * a * c))]

/-- One of two roots. -/
theorem pair_error {d : ℚ} (ha : 1 / 2 ^ 30 ≤ |a|) (h0 : 0 ≤ h) (hh : h ≤ 1 / 2 ^ 100)
    (hah : |a| * h ≤ 1 / 2 ^ 51) (hrh : |r| * h ≤ 1 / 2 ^ 51)
    (hdelta : |d - (b ^ 2 - 4 * a * c)| ≤ 3 / 2 ^ 53 * (b ^ 2 + 4 * (|a| * |c|)) + 4 * h)
    (hr : |r ^ 2 - d| ≤ 3 / 2 ^ 53 * d) (hx : 2 * a * x + b = r + e)
    (he : |e| ≤ 3 / 2 ^ 53 * (|b| + |r|) + 2 * (|a| * h) + 2 * h) :
    residual a b c x ≤ scale a b c x / (2 * 10 ^ 12) + b ^ 2 / (2 ^ 50 * |a|) := by
  have hapos : 0 < |a| := lt_of_lt_of_le (by positivity) ha
  have hdisc : b ^ 2 - 4 * a * c ≤ b ^ 2 + 4 * (|a| * |c|) := by
    have := neg_abs_le (a * c)
    rw [abs_mul] at this
    linarith
  have hd := (abs_le.mp hdelta).2
  have hr2 := (abs_le.mp hr).2
  have hlost := sq_mul_le hapos.le h0 (by linarith) hah
  have hh2 : h ^ 2 ≤ h := by
    rw [sq]
    exact mul_le_of_le_one_left h0 (hh.trans (by norm_num))
  have hmean := two_mul_abs_mul_abs_le r b
  have hrah : |a| * (|r| * h) ≤ |a| / 2 ^ 51 := by
    rw [div_eq_mul_one_div]
    exact mul_le_mul_of_nonneg_left hrh hapos.le
  have hrh' := root_mul_le (r := r) h0 hh
  have hcross := cross_error he
  have he2 := sq_error he
  have hgoal : 4 * |a| * residual a b c x ≤
      4 * |a| * (scale a b c x / (2 * 10 ^ 12) + b ^ 2 / (2 ^ 50 * |a|)) := by
    have hcancel : 4 * |a| * (b ^ 2 / (2 ^ 50 * |a|)) = 4 / 2 ^ 50 * b ^ 2 := by field_simp
    have hx2 : 0 ≤ |a| * (|a| * x ^ 2) := by positivity
    have hbx : 0 ≤ |a| * (|b| * |x|) := by positivity
    have hc : 0 ≤ |a| * |c| := by positivity
    have hb2 := sq_nonneg b
    rw [four_mul_residual, mul_add, hcancel, scale]
    linarith [abs_sq_sub_discriminant_le (c := c) (d := d) hx]
  exact le_of_mul_le_mul_left hgoal (by positivity)

end Pair

/-- A root whose numerator does not cancel is not small beside the other. -/
theorem le_four_mul_of_same_sign {r e : ℚ} (hh : h ≤ 1 / 2 ^ 100) (hah : |a| * h ≤ 1 / 2 ^ 51)
    (hr : 1 / 2 ^ 16 ≤ |r|) (hsame : |-b + r| = |b| + |r|) (hx : 2 * a * x + b = r + e)
    (he : |e| ≤ 3 / 2 ^ 53 * (|b| + |r|) + 2 * (|a| * h) + 2 * h) : |b| ≤ 4 * |a| * |x| := by
  have hsplit : -b + r = 2 * a * x - e := by linarith
  have hsum : |b| + |r| ≤ 2 * (|a| * |x|) + |e| := by
    calc |b| + |r| = |2 * a * x - e| := by rw [← hsame, hsplit]
      _ ≤ |2 * a * x| + |e| := abs_sub _ _
      _ = 2 * (|a| * |x|) + |e| := by
        rw [abs_mul, abs_mul, abs_of_pos (by norm_num : (0 : ℚ) < 2), mul_assoc]
  linarith [abs_nonneg b]

/-- Terms of the discriminant that differ at all differ in their last digit, so `b` is not great
beside the root: `p` and `q` are the rounded terms, `d` is the rounded difference. -/
theorem abs_linear_le_mul_root {p q d r : ℚ} (hh : h ≤ 1 / 2 ^ 100)
    (hp : |p - b * b| ≤ |b * b| / 2 ^ 53 + h) (hd : |d - (p - q)| ≤ |p - q| / 2 ^ 53 + h)
    (hpq : q < p → p ≤ 2 ^ 53 * (p - q)) (hr : 1 / 2 ^ 16 ≤ r)
    (hsq : |r ^ 2 - d| ≤ 3 / 2 ^ 53 * d) : |b| ≤ 2 ^ 29 * r := by
  have hr0 : 0 ≤ r := le_trans (by positivity) hr
  have hr2 : 1 / 2 ^ 32 ≤ r ^ 2 := by
    calc (1 : ℚ) / 2 ^ 32 = (1 / 2 ^ 16) ^ 2 := by norm_num
      _ ≤ r ^ 2 := pow_le_pow_left₀ (by positivity) hr 2
  obtain ⟨hlow, hhigh⟩ := abs_le.mp hsq
  obtain ⟨hdlow, hdhigh⟩ := abs_le.mp hd
  have hlt : q < p := by
    by_contra hle
    rw [abs_of_nonpos (sub_nonpos.mpr (not_lt.mp hle))] at hdhigh
    linarith
  rw [abs_of_pos (sub_pos.mpr hlt)] at hdlow
  have hgap := hpq hlt
  rw [← sq, abs_of_nonneg (sq_nonneg b)] at hp
  have hsquare : b ^ 2 ≤ (2 ^ 29 * r) ^ 2 := by
    rw [mul_pow]
    linarith [(abs_le.mp hp).1]
  exact abs_le_of_sq_le_sq hsquare (by positivity)

/-- Two roots whose numerators are off by less than the root are apart. -/
theorem roots_apart {x₁ x₂ r : ℚ} (hh : h ≤ 1 / 2 ^ 100) (hah : |a| * h ≤ 1 / 2 ^ 51)
    (hr : 1 / 2 ^ 16 ≤ r) (hb : |b| ≤ 2 ^ 29 * r)
    (h₁ : |2 * a * x₁ + b - r| ≤ 3 / 2 ^ 53 * (|b| + r) + 2 * (|a| * h) + 2 * h)
    (h₂ : |2 * a * x₂ + b - -r| ≤ 3 / 2 ^ 53 * (|b| + r) + 2 * (|a| * h) + 2 * h) :
    0 < a * (x₁ - x₂) := by
  linarith [(abs_le.mp h₁).1, (abs_le.mp h₂).2]

end Analysis

end QuadraticSolver

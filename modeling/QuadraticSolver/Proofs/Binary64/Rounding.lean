import QuadraticSolver.Binary64.Arithmetic
import QuadraticSolver.Proofs.Binary64.Nearest

/-!
# Rounding an exact value

The two laws of `Binary64.round` on which everything about the arithmetic
rests: a value of the format is left alone (`round_eq_finite`), and every other
value moves by at most a `2 ^ -53`-th part of itself, or by half a unit near
zero (`abs_round_sub_le`). The sign of the result is `roundSign`: the sign of
the value, or of the caller's choice where the value is zero.
-/

namespace QuadraticSolver

/-! ## The unit -/

private theorem shiftLeft_eq_mul (n k : ℕ) : n <<< k = n * (1 <<< k) := by
  rw [Nat.one_shiftLeft, Nat.shiftLeft_eq]

/-- A whole number in units. -/
theorem shiftLeft_eq_mul_unitsPerOne (n : ℕ) : n <<< 1074 = n * unitsPerOne :=
  shiftLeft_eq_mul n 1074

private theorem one_shiftLeft_eq (k : ℕ) : 1 <<< k = 2 ^ k :=
  Nat.one_shiftLeft k

theorem unitsPerOne_eq : unitsPerOne = 2 ^ 1074 :=
  one_shiftLeft_eq 1074

theorem unitsPerOne_pos : 0 < unitsPerOne := by decide

namespace Binary64

/-! ## The value of a finite number -/

/-- The factor of a sign. -/
def signFactor (negative : Bool) : ℚ :=
  if negative then -1 else 1

theorem abs_signFactor (negative : Bool) : |signFactor negative| = 1 := by
  cases negative <;> simp [signFactor]

theorem toRat_finite (negative : Bool) (m : Magnitude) :
    (finite negative m).toRat = signFactor negative * (m.units / unitsPerOne) := by
  show mkRat (if negative then -(m.units : ℤ) else m.units) unitsPerOne = _
  rw [Rat.mkRat_eq_div]
  cases negative <;> simp [signFactor, neg_div]

theorem abs_toRat_finite (negative : Bool) (m : Magnitude) :
    |(finite negative m).toRat| = m.units / unitsPerOne := by
  have hnonneg : (0 : ℚ) ≤ m.units / unitsPerOne := by positivity
  rw [toRat_finite, abs_mul, abs_signFactor, one_mul, abs_of_nonneg hnonneg]

theorem signFactor_mul_abs (q : ℚ) : signFactor (decide (q < 0)) * |q| = q := by
  by_cases h : q < 0
  · simp [signFactor, h, abs_of_neg h]
  · simp [signFactor, h, abs_of_nonneg (not_lt.mp h)]

theorem abs_eq_natAbs_div (q : ℚ) : |q| = (q.num.natAbs : ℚ) / q.den := by
  conv_lhs => rw [← Rat.num_div_den q]
  rw [abs_div, Nat.abs_cast, ← Int.cast_abs, Int.abs_eq_natAbs, Int.cast_natCast]

/-! ## Rounding -/

theorem ofUnits_congr (negative : Bool) {num den num' den' : ℕ} (h : 0 < den) (h' : 0 < den')
    (heq : num * den' = num' * den) : ofUnits negative num den = ofUnits negative num' den' := by
  unfold ofUnits
  rw [Magnitude.nearest?_congr h h' heq]

/-- The sign that rounding gives to a value. -/
def roundSign (zeroSign : Bool) (q : ℚ) : Bool :=
  if q = 0 then zeroSign else decide (q < 0)

theorem signFactor_roundSign (zeroSign : Bool) (q : ℚ) :
    signFactor (roundSign zeroSign q) * |q| = q := by
  unfold roundSign
  split
  next h => rw [h, abs_zero, mul_zero]
  next => exact signFactor_mul_abs q

/-- A value with a sign in front of it is rounded with that sign, a zero too. -/
theorem roundSign_signFactor_mul (negative : Bool) {q : ℚ} (hq : 0 ≤ q) :
    roundSign negative (signFactor negative * q) = negative := by
  unfold roundSign
  split
  next => rfl
  next hne =>
    have hpos : 0 < q := hq.lt_of_ne (right_ne_zero_of_mul hne).symm
    cases negative
    · simpa [signFactor] using hq
    · simpa [signFactor] using hpos

theorem abs_signFactor_mul (negative : Bool) {q : ℚ} (hq : 0 ≤ q) :
    |signFactor negative * q| = q := by
  rw [abs_mul, abs_signFactor, one_mul, abs_of_nonneg hq]

/-- Rounding reads only the sign and the distance from zero, in any fraction. -/
theorem round_eq_ofUnits (zeroSign : Bool) {q : ℚ} {num den : ℕ} (hden : 0 < den)
    (h : |q| = num / den) :
    round zeroSign q = ofUnits (roundSign zeroSign q) (num * unitsPerOne) den := by
  have habs : |q| = (q.num.natAbs : ℚ) / q.den := abs_eq_natAbs_div q
  have hcross : q.num.natAbs * den = num * q.den := by
    rw [habs, div_eq_div_iff (by exact_mod_cast q.den_ne_zero) (by exact_mod_cast hden.ne')] at h
    exact_mod_cast h
  have hunfold : round zeroSign q =
      ofUnits (roundSign zeroSign q) (q.num.natAbs * unitsPerOne) q.den := by
    unfold round roundSign
    rw [shiftLeft_eq_mul_unitsPerOne]
  rw [hunfold]
  refine ofUnits_congr _ q.den_pos hden ?_
  rw [Nat.mul_right_comm, hcross, Nat.mul_right_comm]

/-- A fraction with a sign in front of it is rounded as the fraction, with that sign. -/
theorem round_signFactor_mul_div (negative : Bool) (num : ℕ) {den : ℕ} (hden : 0 < den) :
    round negative (signFactor negative * (num / den)) =
      ofUnits negative (num * unitsPerOne) den := by
  have hnonneg : (0 : ℚ) ≤ num / den := by positivity
  rw [round_eq_ofUnits negative hden (abs_signFactor_mul negative hnonneg),
    roundSign_signFactor_mul negative hnonneg]

theorem ofUnits_of_nearest? (negative : Bool) {num den : ℕ} {m : Magnitude}
    (h : Magnitude.nearest? num den = some m) : ofUnits negative num den = finite negative m := by
  unfold ofUnits
  rw [h]

theorem ofUnits_eq_zero (negative : Bool) {num den : ℕ} (h : 2 * num < den) :
    ofUnits negative num den = zero negative :=
  ofUnits_of_nearest? negative (Magnitude.nearest?_eq_zero h)

theorem ofUnits_eq_infinity (negative : Bool) {num den : ℕ} (h : 2098 ≤ (num / den).log2) :
    ofUnits negative num den = infinity negative := by
  unfold ofUnits
  rw [Magnitude.nearest?_eq_none h]

theorem ofUnits_units (negative : Bool) (m : Magnitude) {den : ℕ} (h : 0 < den) :
    ofUnits negative (m.units * den) den = finite negative m :=
  ofUnits_of_nearest? negative (Magnitude.nearest?_units m h)

/-- **Rounding leaves the numbers of the format alone**: a value at a magnitude's distance from
zero goes to that magnitude. -/
theorem round_eq_finite (zeroSign : Bool) {q : ℚ} {m : Magnitude}
    (h : |q| = m.units / unitsPerOne) :
    round zeroSign q = finite (roundSign zeroSign q) m :=
  (round_eq_ofUnits zeroSign unitsPerOne_pos h).trans (ofUnits_units _ m unitsPerOne_pos)

theorem exists_of_isFinite_ofUnits {negative : Bool} {num den : ℕ}
    (h : (ofUnits negative num den).isFinite) :
    ∃ m, Magnitude.nearest? num den = some m ∧ ofUnits negative num den = finite negative m := by
  unfold ofUnits at h ⊢
  cases hm : Magnitude.nearest? num den with
  | none =>
    rw [hm] at h
    cases h
  | some m => exact ⟨m, rfl, rfl⟩

/-- **The error of one rounding** is at most a `2 ^ -53`-th part of the value or half a unit. -/
theorem abs_round_sub_le {zeroSign : Bool} {q : ℚ} (h : (round zeroSign q).isFinite) :
    |(round zeroSign q).toRat - q| ≤ |q| / 2 ^ 53 + 1 / (2 * unitsPerOne) := by
  have habs : |q| = (q.num.natAbs : ℚ) / q.den := abs_eq_natAbs_div q
  rw [round_eq_ofUnits zeroSign q.den_pos habs] at h ⊢
  obtain ⟨m, hm, hround⟩ := exists_of_isFinite_ofUnits h
  have herror := Magnitude.abs_units_sub_le q.den_pos hm
  have hU : (0 : ℚ) < unitsPerOne := by exact_mod_cast unitsPerOne_pos
  have hscaled : ((q.num.natAbs * unitsPerOne : ℕ) : ℚ) / q.den = |q| * unitsPerOne := by
    rw [habs, Nat.cast_mul]
    ring
  rw [hscaled] at herror
  have hdiff : signFactor (roundSign zeroSign q) * (m.units / unitsPerOne) - q =
      signFactor (roundSign zeroSign q) * ((m.units - |q| * unitsPerOne) / unitsPerOne) := by
    rw [sub_div, mul_div_cancel_right₀ _ hU.ne', mul_sub, signFactor_roundSign]
  rw [hround, toRat_finite, hdiff, abs_mul, abs_signFactor, one_mul, abs_div, abs_of_pos hU,
    div_le_iff₀ hU]
  calc |(m.units : ℚ) - |q| * unitsPerOne| ≤ |q| * unitsPerOne / 2 ^ 53 + 1 / 2 := herror
    _ = (|q| / 2 ^ 53 + 1 / (2 * unitsPerOne)) * unitsPerOne := by
      field_simp

end Binary64

end QuadraticSolver

import QuadraticSolver.Proofs.Binary64.Differences

/-!
# Running sums

What a running sum of finite numbers keeps from one addition to the next, and so
to its end. A sum that is not finite is left alone by every finite number behind
it, of either sign, so an overflow on the way is seen at the end
(`foldl_add_of_not_isFinite`). Two finite numbers have a sum, so "not a number"
never arises (`foldl_add_ne_nan`). And only two negative zeros sum up to a negative
zero (`eq_negative_zero_of_add`), so a running sum that starts at the positive zero
never comes to the negative one (`foldl_add_ne_negative_zero`).
-/

namespace QuadraticSolver.Binary64

variable {x y : Binary64} {ys : List Binary64} {s z : Bool}

/-! ## One addition -/

/-- What is not finite takes in every finite number. -/
theorem add_of_not_isFinite (hx : x.isFinite = false) (hy : y.isFinite = true) : x + y = x := by
  obtain ⟨t, n, rfl⟩ := exists_of_isFinite hy
  cases x with
  | nan => rfl
  | infinity s => rfl
  | finite s m => cases hx

theorem round_ne_nan (z : Bool) (q : ℚ) : round z q ≠ nan := by
  unfold round ofUnits
  split
  · exact Binary64.noConfusion
  · exact Binary64.noConfusion

theorem add_ne_nan (hx : x ≠ nan) (hy : y.isFinite = true) : x + y ≠ nan := by
  obtain ⟨t, n, rfl⟩ := exists_of_isFinite hy
  cases x with
  | nan => exact absurd rfl hx
  | infinity s => exact Binary64.noConfusion
  | finite s m => exact round_ne_nan _ _

/-- Finite numbers sum up to a whole number of units, so there is no sum but zero that is less than
a unit. -/
theorem one_div_le_abs_add (hx : x.isFinite = true) (hy : y.isFinite = true)
    (hne : x.toRat + y.toRat ≠ 0) : 1 / (unitsPerOne : ℚ) ≤ |x.toRat + y.toRat| := by
  have hU : (0 : ℚ) < unitsPerOne := by exact_mod_cast unitsPerOne_pos
  obtain ⟨-, k, -, hk⟩ := exists_toRat_eq_div hx
  obtain ⟨-, l, -, hl⟩ := exists_toRat_eq_div hy
  have hsum : x.toRat + y.toRat = ((k + l : ℤ) : ℚ) / unitsPerOne := by
    rw [hk, hl, Int.cast_add, add_div]
  have hint : k + l ≠ 0 := by
    intro hzero
    rw [hsum, hzero, Int.cast_zero, zero_div] at hne
    exact hne rfl
  have hone : (1 : ℚ) ≤ |((k + l : ℤ) : ℚ)| := by exact_mod_cast Int.one_le_abs hint
  rw [hsum, abs_div, abs_of_pos hU]
  exact div_le_div_of_nonneg_right hone hU.le

/-- A sum that is rounded to zero is zero. -/
theorem add_eq_zero_of_round (hx : x.isFinite = true) (hy : y.isFinite = true)
    (h : round z (x.toRat + y.toRat) = zero s) : x.toRat + y.toRat = 0 := by
  have hpos : 0 < 1 / (unitsPerOne : ℚ) := by
    have hU : (0 : ℚ) < unitsPerOne := by exact_mod_cast unitsPerOne_pos
    positivity
  have hfinite : (round z (x.toRat + y.toRat)).isFinite = true := by
    rw [h]
    rfl
  have herror := abs_round_sub_le hfinite
  have hhalf : 1 / (2 * (unitsPerOne : ℚ)) = 1 / unitsPerOne / 2 := by field_simp
  rw [h, toRat_of_isZero (x := zero s) rfl, abs_sub_comm, sub_zero, hhalf] at herror
  by_contra hne
  have hunit := one_div_le_abs_add hx hy hne
  generalize 1 / (unitsPerOne : ℚ) = unit at herror hunit hpos
  norm_num at herror
  linarith

theorem eq_zero_of_isZero {m : Magnitude} (h : (finite s m).isZero = true) :
    finite s m = zero s := by
  rw [zero, Magnitude.eq_zero_of_mantissa (of_decide_eq_true h)]

/-- Numbers of the same sign cancel only if both are zeros. -/
theorem eq_zero_of_add_eq_zero {m n : Magnitude}
    (h : (finite s m).toRat + (finite s n).toRat = 0) : finite s m = zero s := by
  have hm : 0 ≤ (m.units : ℚ) / unitsPerOne := by positivity
  have hn : 0 ≤ (n.units : ℚ) / unitsPerOne := by positivity
  have hzero : (m.units : ℚ) / unitsPerOne = 0 := by
    rw [toRat_finite, toRat_finite, ← mul_add] at h
    cases s <;> simp [signFactor] at h <;> linarith
  apply eq_zero_of_isZero
  apply isZero_of_toRat_eq_zero rfl
  rw [toRat_finite, hzero, mul_zero]

/-- **Only two negative zeros sum up to a negative zero.** -/
theorem eq_negative_zero_of_add (h : x + y = zero true) : x = zero true ∧ y = zero true := by
  have hfinite : (x + y).isFinite = true := by
    rw [h]
    rfl
  obtain ⟨hx, hy, -⟩ := isNear_add hfinite
  obtain ⟨s, m, rfl⟩ := exists_of_isFinite hx
  obtain ⟨t, n, rfl⟩ := exists_of_isFinite hy
  change round (s && t) ((finite s m).toRat + (finite t n).toRat) = zero true at h
  have hsum := add_eq_zero_of_round hx hy h
  -- an exact zero is negative only where both signs are minus
  have hsigns : (s && t) = true := by
    have habs : |(0 : ℚ)| = Magnitude.zero.units / unitsPerOne := by
      simp [Magnitude.units_eq, Magnitude.zero]
    rw [hsum, round_eq_finite _ habs, roundSign, if_pos rfl] at h
    exact (Binary64.finite.inj h).1
  obtain ⟨rfl, rfl⟩ := Bool.and_eq_true_iff.mp hsigns
  refine ⟨eq_zero_of_add_eq_zero hsum, ?_⟩
  rw [add_comm] at hsum
  exact eq_zero_of_add_eq_zero hsum

theorem zero_add_of_isZero (hy : y.isZero = true) : zero false + y = zero false := by
  cases y with
  | finite t n =>
    have hround : round false 0 = zero false := by
      rw [← ofInt_zero, ofInt, Int.cast_zero]
    show round (false && t) ((zero false).toRat + (finite t n).toRat) = zero false
    rw [toRat_of_isZero (x := zero false) rfl, toRat_of_isZero hy, Bool.false_and, add_zero, hround]
  | nan => cases hy
  | infinity t => cases hy

/-! ## A running sum -/

/-- **An overflow stays**, whatever finite numbers come behind it. -/
theorem foldl_add_of_not_isFinite (hx : x.isFinite = false) (hys : ∀ y ∈ ys, y.isFinite = true) :
    ys.foldl (· + ·) x = x := by
  induction ys with
  | nil => rfl
  | cons y ys ih =>
    rw [List.foldl_cons, add_of_not_isFinite hx (hys y List.mem_cons_self)]
    exact ih fun y' hy' => hys y' (List.mem_cons_of_mem _ hy')

theorem foldl_add_ne_nan (hx : x ≠ nan) (hys : ∀ y ∈ ys, y.isFinite = true) :
    ys.foldl (· + ·) x ≠ nan := by
  induction ys generalizing x with
  | nil => exact hx
  | cons y ys ih =>
    have hadd : x + y ≠ nan := add_ne_nan hx (hys y List.mem_cons_self)
    exact ih hadd fun y' hy' => hys y' (List.mem_cons_of_mem _ hy')

/-- A running sum that does not start at the negative zero does not come to it. -/
theorem foldl_add_ne_negative_zero (hx : x ≠ zero true) : ys.foldl (· + ·) x ≠ zero true := by
  induction ys generalizing x with
  | nil => exact hx
  | cons y ys ih =>
    apply ih
    intro h
    exact hx (eq_negative_zero_of_add h).1

/-- Zeros of either sign sum up to the positive zero. -/
theorem foldl_add_of_isZero (hys : ∀ y ∈ ys, y.isZero = true) :
    ys.foldl (· + ·) (zero false) = zero false := by
  induction ys with
  | nil => rfl
  | cons y ys ih =>
    rw [List.foldl_cons, zero_add_of_isZero (hys y List.mem_cons_self)]
    exact ih fun y' hy' => hys y' (List.mem_cons_of_mem _ hy')

end QuadraticSolver.Binary64

import QuadraticSolver.Proofs.Binary64.Integers

/-!
# The operations, up to their rounding

A finite result comes from finite operands, and it is near the exact result
(`IsNear`): within the `2 ^ -53`-th part of it and half a unit. Doubling is
exact where it does not overflow, and where twice the double is finite, the
double is.
-/

namespace QuadraticSolver.Binary64

/-! ## Near an exact value -/

/-- Half of the least positive number: what a rounding may lose near zero. -/
def halfUnit : ℚ :=
  1 / (2 * unitsPerOne)

theorem halfUnit_pos : 0 < halfUnit := by
  have hU : (0 : ℚ) < unitsPerOne := by exact_mod_cast unitsPerOne_pos
  unfold halfUnit
  positivity

/-- A small power of two is small beside the number of units in one. -/
theorem two_pow_le_unitsPerOne {k : ℕ} (h : k ≤ 1074) : 2 ^ k ≤ unitsPerOne := by
  have hpow : ∀ n, k ≤ n → 2 ^ k ≤ 2 ^ n := fun n hn => Nat.pow_le_pow_right (by decide) hn
  exact (hpow 1074 h).trans_eq unitsPerOne_eq.symm

theorem halfUnit_le : halfUnit ≤ 1 / 2 ^ 100 := by
  have hU : ((2 ^ 100 : ℕ) : ℚ) ≤ unitsPerOne := by
    exact_mod_cast two_pow_le_unitsPerOne (show 100 ≤ 1074 by decide)
  have hle : (2 : ℚ) ^ 100 ≤ 2 * unitsPerOne := by
    push_cast at hU
    linarith
  exact one_div_le_one_div_of_le (by positivity) hle

private theorem units_mul_le (m : Magnitude) : m.units * 2 ^ 50 ≤ unitsPerOne * unitsPerOne := by
  have hshift : m.shift ≤ 2045 := m.canonical.2.1
  have hpow : ∀ n, 53 + m.shift + 50 ≤ n + n → m.units * 2 ^ 50 ≤ 2 ^ n * 2 ^ n := by
    intro n hn
    calc m.units * 2 ^ 50 = m.mantissa * 2 ^ m.shift * 2 ^ 50 := by rw [Magnitude.units_eq]
      _ ≤ 2 ^ 53 * 2 ^ m.shift * 2 ^ 50 :=
        Nat.mul_le_mul_right _ (Nat.mul_le_mul_right _ m.canonical.1.le)
      _ = 2 ^ (53 + m.shift + 50) := by rw [Nat.pow_add, Nat.pow_add]
      _ ≤ 2 ^ (n + n) := Nat.pow_le_pow_right (by decide) hn
      _ = 2 ^ n * 2 ^ n := Nat.pow_add _ _ _
  have hsquare : ∀ n, unitsPerOne = n → n * n = unitsPerOne * unitsPerOne := by
    rintro n rfl
    rfl
  exact (hpow 1074 (by omega)).trans_eq (hsquare _ unitsPerOne_eq)

/-- No number is so great that half a unit of it counts. -/
theorem abs_toRat_mul_halfUnit_le (x : Binary64) : |x.toRat| * halfUnit ≤ 1 / 2 ^ 51 := by
  have hU : (0 : ℚ) < unitsPerOne := by exact_mod_cast unitsPerOne_pos
  cases x with
  | finite s m =>
    have hunits : (m.units : ℚ) * 2 ^ 50 ≤ unitsPerOne * unitsPerOne := by
      exact_mod_cast units_mul_le m
    rw [abs_toRat_finite, halfUnit, div_mul_div_comm, mul_one,
      div_le_div_iff₀ (by positivity) (by positivity)]
    linarith
  | _ =>
    show |(0 : ℚ)| * halfUnit ≤ _
    rw [abs_zero, zero_mul]
    positivity

/-- The number is the exact value, up to one rounding. -/
def IsNear (x : Binary64) (q : ℚ) : Prop :=
  |x.toRat - q| ≤ |q| / 2 ^ 53 + halfUnit

theorem isNear_round {z : Bool} {q : ℚ} (h : (round z q).isFinite = true) : IsNear (round z q) q :=
  abs_round_sub_le h

/-- Rounding does not even double a value, up to the least numbers. -/
theorem IsNear.abs_le {x : Binary64} {q : ℚ} (h : x.IsNear q) : |x.toRat| ≤ 2 * |q| + 1 := by
  have herror : |x.toRat - q| ≤ |q| / 2 ^ 53 + halfUnit := h
  have hsize := abs_sub_abs_le_abs_sub x.toRat q
  have hhalf := halfUnit_le
  have hnonneg := abs_nonneg q
  norm_num at hhalf herror
  linarith

/-- Nor does it halve one. -/
theorem IsNear.value_le {x : Binary64} {q : ℚ} (h : x.IsNear q) : |q| ≤ 2 * |x.toRat| + 1 := by
  have herror : |x.toRat - q| ≤ |q| / 2 ^ 53 + halfUnit := h
  have hsize := abs_sub_abs_le_abs_sub q x.toRat
  rw [abs_sub_comm] at hsize
  have hhalf := halfUnit_le
  have hnonneg := abs_nonneg q
  norm_num at hhalf herror
  linarith

section Operations

variable {x y : Binary64}

theorem exists_of_isFinite (h : x.isFinite = true) : ∃ s m, x = finite s m := by
  cases x with
  | finite s m => exact ⟨s, m, rfl⟩
  | _ => cases h

theorem isFinite_neg_iff : (-x).isFinite = true ↔ x.isFinite = true := by
  show (neg x).isFinite = true ↔ _
  rw [isFinite_neg]

theorem toRat_neg (x : Binary64) : (-x).toRat = -x.toRat := by
  cases x with
  | finite s m =>
    show (finite (!s) m).toRat = _
    rw [toRat_finite, toRat_finite]
    cases s <;> simp [signFactor]
  | _ => exact neg_zero.symm

/-- A finite sum has finite terms. -/
theorem isNear_add (h : (x + y).isFinite = true) :
    x.isFinite = true ∧ y.isFinite = true ∧ IsNear (x + y) (x.toRat + y.toRat) := by
  change (add x y).isFinite = true at h
  cases x with
  | nan => cases y <;> cases h
  | infinity s =>
    cases y with
    | infinity t =>
      dsimp only [add] at h
      split at h <;> cases h
    | _ => cases h
  | finite s m =>
    cases y with
    | finite t n => exact ⟨rfl, rfl, isNear_round h⟩
    | _ => cases h

theorem isNear_sub (h : (x - y).isFinite = true) :
    x.isFinite = true ∧ y.isFinite = true ∧ IsNear (x - y) (x.toRat - y.toRat) := by
  have h' : (x + -y).isFinite = true := h
  obtain ⟨hx, hy, hnear⟩ := isNear_add h'
  rw [toRat_neg, ← sub_eq_add_neg] at hnear
  exact ⟨hx, isFinite_neg_iff.mp hy, hnear⟩

/-- A finite product has finite factors. -/
theorem isNear_mul (h : (x * y).isFinite = true) :
    x.isFinite = true ∧ y.isFinite = true ∧ IsNear (x * y) (x.toRat * y.toRat) := by
  change (mul x y).isFinite = true at h
  cases x with
  | nan => cases y <;> cases h
  | infinity s =>
    cases y with
    | nan => cases h
    | infinity t => cases h
    | finite t n =>
      dsimp only [mul] at h
      split at h <;> cases h
  | finite s m =>
    cases y with
    | nan => cases h
    | infinity t =>
      dsimp only [mul] at h
      split at h <;> cases h
    | finite t n => exact ⟨rfl, rfl, isNear_round h⟩

/-- A finite quotient has a finite dividend. -/
theorem isFinite_of_isFinite_div (h : (x / y).isFinite = true) : x.isFinite = true := by
  change (div x y).isFinite = true at h
  cases x with
  | nan => cases y <;> cases h
  | infinity s => cases y <;> cases h
  | finite s m => rfl

/-- A finite quotient by a finite divisor has a finite dividend. -/
theorem isNear_div (hy : y.isFinite = true) (h : (x / y).isFinite = true) :
    x.isFinite = true ∧ IsNear (x / y) (x.toRat / y.toRat) := by
  change (div x y).isFinite = true at h
  cases y with
  | finite t n =>
    cases x with
    | finite s m =>
      refine ⟨rfl, ?_⟩
      show IsNear (div (finite s m) (finite t n)) _
      unfold div at h ⊢
      dsimp only at h ⊢
      split at h
      · split at h <;> cases h
      next hn =>
        rw [if_neg hn]
        exact isNear_round h
    | _ => cases h
  | _ => cases hy

end Operations

/-! ## Powers of two -/

section Scaling

variable {s z : Bool} {m : Magnitude} {j : ℕ}

theorem abs_two_pow_mul (s : Bool) (m : Magnitude) (j : ℕ) :
    |(2 : ℚ) ^ j * (finite s m).toRat| = (2 ^ j * m.units : ℕ) / unitsPerOne := by
  rw [abs_mul, abs_of_pos (by positivity), abs_toRat_finite]
  push_cast
  ring

/-- Within the shifts, scaling by a power of two is exact. -/
theorem round_two_pow_mul (h : m.shift + j ≤ 2045) :
    (round z (2 ^ j * (finite s m).toRat)).isFinite = true ∧
      (round z (2 ^ j * (finite s m).toRat)).toRat = 2 ^ j * (finite s m).toRat := by
  obtain ⟨n, hn⟩ := Magnitude.exists_units_eq_of_lt (m.shift + j) m.canonical.1 h
  have hunits : n.units = 2 ^ j * m.units := by
    rw [hn, Magnitude.units_eq]
    ring
  have habs := abs_two_pow_mul s m j
  rw [← hunits] at habs
  rw [round_eq_finite z habs]
  exact ⟨rfl, by rw [toRat_finite, ← habs, signFactor_roundSign]⟩

/-- Past the shifts, it overflows. -/
theorem isFinite_round_two_pow_mul (hj : j ≤ 2045) (h : 2045 < m.shift + j) :
    (round z (2 ^ j * (finite s m).toRat)).isFinite = false := by
  have hnormal : 2 ^ 52 ≤ m.mantissa := m.canonical.2.2.resolve_left (by omega)
  have hlarge : 2 ^ (52 + (m.shift + j)) ≤ 2 ^ j * m.units := by
    calc 2 ^ (52 + (m.shift + j)) = 2 ^ j * (2 ^ 52 * 2 ^ m.shift) := by ring
      _ ≤ 2 ^ j * (m.mantissa * 2 ^ m.shift) :=
        Nat.mul_le_mul_left _ (Nat.mul_le_mul_right _ hnormal)
      _ = 2 ^ j * m.units := by rw [Magnitude.units_eq]
  have hne : 2 ^ j * m.units ≠ 0 := ((Nat.two_pow_pos _).trans_le hlarge).ne'
  have hlog : 2098 ≤ (2 ^ j * m.units * unitsPerOne / unitsPerOne).log2 := by
    rw [Nat.mul_div_cancel _ unitsPerOne_pos]
    have := (Nat.le_log2 hne).mpr hlarge
    omega
  rw [round_eq_ofUnits z unitsPerOne_pos (abs_two_pow_mul s m j), ofUnits_eq_infinity _ hlog]
  rfl

theorem ofInt_mul_finite {n : ℤ} (hn : n.natAbs ≤ 2 ^ 53) (s : Bool) (m : Magnitude) :
    ∃ z, ofInt n * finite s m = round z (n * (finite s m).toRat) := by
  obtain ⟨l, hl⟩ := exists_units_eq_abs hn
  have hvalue : (ofInt n).toRat = n := toRat_ofInt hn
  have hform : ofInt n = finite (roundSign false n) l := round_eq_finite false hl
  refine ⟨roundSign false n != s, ?_⟩
  rw [hform] at hvalue ⊢
  show mul _ _ = _
  rw [mul_finite, hvalue]

/-- Where four times a number is finite, so is its double, and both are exact. -/
theorem toRat_four_mul {x : Binary64} (h : (ofInt 4 * x).isFinite = true) :
    (ofInt 4 * x).toRat = 4 * x.toRat ∧
      (ofInt 2 * x).isFinite = true ∧ (ofInt 2 * x).toRat = 2 * x.toRat := by
  have hx := (isNear_mul h).2.1
  cases x with
  | finite s m =>
    obtain ⟨z, hfour⟩ := ofInt_mul_finite (n := 4) (by decide) s m
    obtain ⟨z', htwo⟩ := ofInt_mul_finite (n := 2) (by decide) s m
    have hfour' : ofInt 4 * finite s m = round z (2 ^ 2 * (finite s m).toRat) := by
      rw [hfour]
      norm_num
    have htwo' : ofInt 2 * finite s m = round z' (2 ^ 1 * (finite s m).toRat) := by
      rw [htwo]
      norm_num
    have hshift : m.shift + 2 ≤ 2045 := by
      by_contra hlt
      rw [hfour', isFinite_round_two_pow_mul (by decide) (Nat.lt_of_not_le hlt)] at h
      cases h
    rw [hfour', htwo']
    obtain ⟨-, hexact⟩ := round_two_pow_mul (s := s) (z := z) hshift
    obtain ⟨hfinite, hexact'⟩ := round_two_pow_mul (s := s) (z := z') (j := 1) (m := m) (by omega)
    refine ⟨?_, hfinite, ?_⟩
    · rw [hexact]
      norm_num
    · rw [hexact']
      norm_num
  | _ => cases hx

end Scaling

end QuadraticSolver.Binary64

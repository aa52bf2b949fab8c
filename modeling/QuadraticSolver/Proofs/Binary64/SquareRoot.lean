import QuadraticSolver.Proofs.Binary64.Arithmetic

/-!
# The square of a root

The root is taken on integers and then rounded. What comes out, squared, is the
number itself up to three roundings (`sqrt_spec`): below the rounding the
integer root is exact to half a unit, and the root of the least number is
already a great many units. The root of a number that is not negative is finite
(`isFinite_sqrt`), and the root of the square of an integer is that integer
(`sqrt_eq_ofInt`).
-/

namespace QuadraticSolver.Binary64

/-- The square of a rounded root, in units: the root is within half a unit of the exact one before
it is rounded, which is nothing beside the rounding. -/
private theorem abs_sq_sub_le {root half square μ : ℚ} (hroot : 2 ^ 60 ≤ root)
    (hhalf : 0 ≤ half ∧ half ≤ 1 / 2) (hsquare : |(root + half) ^ 2 - square| ≤ root)
    (hle : root ^ 2 ≤ square) (hμ : |μ - (root + half)| ≤ (root + half) / 2 ^ 53 + 1 / 2) :
    |μ ^ 2 - square| ≤ 3 / 2 ^ 53 * square := by
  have herror : |μ - (root + half)| ≤ root / 2 ^ 53 + 1 := by linarith [hhalf.2]
  have hsum : |μ + (root + half)| ≤ 2 * root + root / 2 ^ 53 + 2 := by
    rw [abs_le] at herror ⊢
    constructor <;> linarith [hhalf.1, hhalf.2, herror.1, herror.2]
  have hproduct : |μ ^ 2 - (root + half) ^ 2| ≤
      (root / 2 ^ 53 + 1) * (2 * root + root / 2 ^ 53 + 2) := by
    rw [sq_sub_sq, abs_mul, mul_comm]
    exact mul_le_mul herror hsum (abs_nonneg _) (by linarith)
  have htriangle : |μ ^ 2 - square| ≤ |μ ^ 2 - (root + half) ^ 2| + |(root + half) ^ 2 - square| :=
    abs_sub_le _ _ _
  have hroot2 : 2 ^ 60 * root ≤ root ^ 2 := by
    rw [sq]
    exact mul_le_mul_of_nonneg_right hroot (by linarith)
  nlinarith

theorem floorSqrt_spec (n : ℕ) :
    (floorSqrt n : ℚ) ^ 2 ≤ n ∧ (n : ℚ) < (floorSqrt n + 1) ^ 2 := by
  have hle := floorSqrt_sq_le n
  have hlt := lt_floorSqrt_succ_sq n
  constructor
  · rw [sq]
    exact_mod_cast hle
  · rw [sq]
    exact_mod_cast hlt

/-- The root that is rounded: the integer part, and half a unit more where it is not exact. -/
private theorem exists_half (n : ℕ) : ∃ half : ℚ, 0 ≤ half ∧ half ≤ 1 / 2 ∧
    ((2 * floorSqrt n + if floorSqrt n * floorSqrt n = n then 0 else 1 : ℕ) : ℚ) / 2 =
      floorSqrt n + half ∧
    |((floorSqrt n : ℚ) + half) ^ 2 - n| ≤ floorSqrt n := by
  obtain ⟨hle, hlt⟩ := floorSqrt_spec n
  by_cases hexact : floorSqrt n * floorSqrt n = n
  · refine ⟨0, le_refl 0, by norm_num, ?_, ?_⟩
    · rw [if_pos hexact]
      push_cast
      ring
    · have hvalue : (floorSqrt n : ℚ) * floorSqrt n = n := by exact_mod_cast hexact
      rw [add_zero, sq, hvalue, sub_self, abs_zero]
      positivity
  · have hlt' : (floorSqrt n : ℚ) * floorSqrt n + 1 ≤ n := by
      exact_mod_cast Nat.lt_of_le_of_ne (floorSqrt_sq_le n) hexact
    refine ⟨1 / 2, by norm_num, le_refl _, ?_, ?_⟩
    · rw [if_neg hexact]
      push_cast
      ring
    · have hn : (n : ℚ) + 1 ≤ (floorSqrt n + 1) ^ 2 := by exact_mod_cast hlt
      have hpos : (0 : ℚ) ≤ floorSqrt n := by positivity
      rw [abs_le]
      constructor <;> nlinarith

private theorem le_floorSqrt {n : ℕ} (h : 2 ^ 122 ≤ n) : (2 : ℚ) ^ 60 ≤ floorSqrt n := by
  have hlt := lt_floorSqrt_succ_sq n
  have hroot : 2 ^ 60 ≤ floorSqrt n := by
    by_contra hsmall
    have hle : floorSqrt n + 1 ≤ 2 ^ 61 := by omega
    have := Nat.mul_le_mul hle hle
    omega
  exact_mod_cast hroot

/-- Only a finite number has a finite root. -/
theorem isFinite_of_isFinite_sqrt {x : Binary64} (h : (sqrt x).isFinite = true) :
    x.isFinite = true := by
  cases x with
  | nan => cases h
  | infinity s => cases s <;> cases h
  | finite s m => rfl

/-- A positive value is the one of a magnitude. -/
theorem exists_of_toRat_pos {x : Binary64} (hpos : 0 < x.toRat) :
    ∃ m : Magnitude, x = finite false m ∧ 0 < m.mantissa ∧ 0 < m.units ∧
      x.toRat = m.units / unitsPerOne := by
  cases x with
  | nan => exact absurd hpos (lt_irrefl 0)
  | infinity s => exact absurd hpos (lt_irrefl 0)
  | finite s m =>
    have hnonneg : (0 : ℚ) ≤ m.units / unitsPerOne := by positivity
    rw [toRat_finite] at hpos ⊢
    obtain rfl : s = false := by
      cases s with
      | false => rfl
      | true =>
        rw [signFactor, if_pos rfl] at hpos
        linarith
    rw [signFactor, if_neg Bool.false_ne_true, one_mul] at hpos ⊢
    have hunits : 0 < m.units := by
      rw [Nat.pos_iff_ne_zero]
      intro hzero
      rw [hzero, Nat.cast_zero, zero_div] at hpos
      exact lt_irrefl 0 hpos
    refine ⟨m, rfl, ?_, hunits, rfl⟩
    rw [Magnitude.units_eq] at hunits
    exact Nat.pos_of_mul_pos_right hunits

section Roots

variable {m : Magnitude}

/-- The root in units, on the number of units that the square of the root has. -/
theorem sqrt_eq_ofUnits (h : 0 < m.mantissa) :
    sqrt (finite false m) = ofUnits false
      (2 * floorSqrt (m.units * unitsPerOne) +
        if floorSqrt (m.units * unitsPerOne) * floorSqrt (m.units * unitsPerOne) =
          m.units * unitsPerOne then 0 else 1) 2 := by
  unfold sqrt
  dsimp only
  rw [if_neg h.ne', if_neg Bool.false_ne_true, shiftLeft_eq_mul_unitsPerOne]

/-- **The square of a root**: it differs from the number by a few roundings only. -/
theorem sqrt_spec {x : Binary64} (hpos : 0 < x.toRat) (h : (sqrt x).isFinite = true) :
    0 ≤ (sqrt x).toRat ∧ |(sqrt x).toRat ^ 2 - x.toRat| ≤ 3 / 2 ^ 53 * x.toRat := by
  have hU : (0 : ℚ) < unitsPerOne := by exact_mod_cast unitsPerOne_pos
  obtain ⟨m, rfl, hmantissa, hunits, hvalue⟩ := exists_of_toRat_pos hpos
  have hsqrt := sqrt_eq_ofUnits hmantissa
  set square : ℕ := m.units * unitsPerOne with hsquare
  rw [hsqrt] at h ⊢
  obtain ⟨r, hr, hform⟩ := exists_of_isFinite_ofUnits h
  have hrvalue := toRat_finite false r
  rw [signFactor, if_neg Bool.false_ne_true, one_mul] at hrvalue
  rw [hform, hrvalue, hvalue]
  refine ⟨div_nonneg (Nat.cast_nonneg _) (Nat.cast_nonneg _), ?_⟩
  obtain ⟨half, hhalf, hhalf', hquotient, hnear⟩ := exists_half square
  have herror := Magnitude.abs_units_sub_le (by decide) hr
  rw [Nat.cast_ofNat, hquotient] at herror
  have hlarge : 2 ^ 122 ≤ square :=
    (two_pow_le_unitsPerOne (by decide)).trans (Nat.le_mul_of_pos_left _ hunits)
  have hbound := abs_sq_sub_le (le_floorSqrt hlarge) ⟨hhalf, hhalf'⟩ hnear
    (floorSqrt_spec square).1 herror
  have hscaled : (r.units / unitsPerOne : ℚ) ^ 2 - m.units / unitsPerOne =
      ((r.units : ℚ) ^ 2 - square) / unitsPerOne ^ 2 := by
    rw [hsquare, Nat.cast_mul]
    field_simp
  rw [hscaled, abs_div, abs_of_pos (pow_pos hU 2), div_le_iff₀ (pow_pos hU 2)]
  calc |(r.units : ℚ) ^ 2 - square| ≤ 3 / 2 ^ 53 * square := hbound
    _ = 3 / 2 ^ 53 * (m.units / unitsPerOne) * unitsPerOne ^ 2 := by
      rw [hsquare, Nat.cast_mul]
      field_simp

/-- The root in units has half as many bits as the square. -/
theorem floorSqrt_lt_two_pow (m : Magnitude) {k : ℕ} (h : 53 + m.shift + 1074 ≤ k + k) :
    floorSqrt (m.units * unitsPerOne) < 2 ^ k := by
  have hsquare : ∀ n, 53 + m.shift + n ≤ k + k → m.units * 2 ^ n < 2 ^ k * 2 ^ k := by
    intro n hn
    calc m.units * 2 ^ n = m.mantissa * 2 ^ (m.shift + n) := by
          rw [Magnitude.units_eq, Nat.pow_add, Nat.mul_assoc]
      _ < 2 ^ 53 * 2 ^ (m.shift + n) :=
        Nat.mul_lt_mul_of_pos_right m.canonical.1 (Nat.two_pow_pos _)
      _ = 2 ^ (53 + m.shift + n) := by rw [← Nat.pow_add, Nat.add_assoc]
      _ ≤ 2 ^ (k + k) := Nat.pow_le_pow_right (by decide) hn
      _ = 2 ^ k * 2 ^ k := Nat.pow_add _ _ _
  have hlt : m.units * unitsPerOne < 2 ^ k * 2 ^ k :=
    (congrArg (m.units * ·) unitsPerOne_eq).trans_lt (hsquare 1074 h)
  exact lt_of_mul_self_lt_mul_self₀ (Nat.zero_le _) ((floorSqrt_sq_le _).trans_lt hlt)

/-- **A number that is not negative has a finite root.** -/
theorem isFinite_sqrt {x : Binary64} (hx : x.isFinite = true) (hnonneg : 0 ≤ x.toRat) :
    (sqrt x).isFinite = true := by
  rcases hnonneg.eq_or_lt with hzero | hpos
  · obtain ⟨s, m, rfl⟩ := exists_of_isFinite hx
    have hmantissa : m.mantissa = 0 :=
      of_decide_eq_true (isZero_of_toRat_eq_zero hx hzero.symm)
    unfold sqrt
    dsimp only
    rw [if_pos hmantissa]
    rfl
  · obtain ⟨m, rfl, hmantissa, -, -⟩ := exists_of_toRat_pos hpos
    rw [sqrt_eq_ofUnits hmantissa]
    generalize hroot : floorSqrt (m.units * unitsPerOne) = root
    have hlog : root.log2 ≤ 2096 := by
      by_cases hzero : root = 0
      · rw [hzero]
        decide
      · have hlt : ∀ k, 3172 ≤ k + k → root.log2 < k := by
          intro k hk
          have hshift : m.shift ≤ 2045 := m.canonical.2.1
          rw [Nat.log2_lt hzero, ← hroot]
          exact floorSqrt_lt_two_pow m (by omega)
        exact Nat.le_of_lt_succ (hlt 2097 (by decide))
    have hquotient : (2 * root + if root * root = m.units * unitsPerOne then 0 else 1) / 2 =
        root := by
      split <;> omega
    rw [← hquotient] at hlog
    obtain ⟨r, hr⟩ := Magnitude.exists_nearest? hlog
    rw [ofUnits_of_nearest? _ hr]
    rfl

/-- A square is the square of its root. -/
theorem floorSqrt_mul_self (n : ℕ) : floorSqrt (n * n) = n := by
  apply Nat.le_antisymm
  · exact Nat.mul_self_le_mul_self_iff.mp (floorSqrt_sq_le (n * n))
  · exact Nat.le_of_lt_succ (Nat.mul_self_lt_mul_self_iff.mp (lt_floorSqrt_succ_sq (n * n)))

/-- **The root of the square of an integer is the integer.** -/
theorem sqrt_eq_ofInt {x : Binary64} {s : ℕ} (hs : 0 < s) (hx : x.toRat = s ^ 2) :
    sqrt x = ofInt s := by
  have hU : (0 : ℚ) < unitsPerOne := by exact_mod_cast unitsPerOne_pos
  have hs' : (0 : ℚ) < s := by exact_mod_cast hs
  obtain ⟨m, rfl, hmantissa, -, hvalue⟩ := exists_of_toRat_pos (by rw [hx]; positivity)
  have hunits : m.units * unitsPerOne = s * unitsPerOne * (s * unitsPerOne) := by
    rw [hvalue, div_eq_iff hU.ne'] at hx
    have hunits : m.units = s ^ 2 * unitsPerOne := by exact_mod_cast hx
    rw [hunits]
    ring
  have habs : |((s : ℤ) : ℚ)| = (s : ℚ) / (1 : ℕ) := by
    rw [Int.cast_natCast, Nat.abs_cast, Nat.cast_one, div_one]
  have hsign : roundSign false ((s : ℤ) : ℚ) = false := roundSign_of_pos (by exact_mod_cast hs)
  rw [sqrt_eq_ofUnits hmantissa, hunits, floorSqrt_mul_self, if_pos rfl, ofInt,
    round_eq_ofUnits false Nat.one_pos habs, hsign]
  exact ofUnits_congr _ (by decide) Nat.one_pos (by ring)

end Roots

end QuadraticSolver.Binary64

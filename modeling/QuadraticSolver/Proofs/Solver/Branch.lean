import QuadraticSolver.Proofs.Binary64.Arithmetic
import QuadraticSolver.Proofs.Solver.ErrorAnalysis
import QuadraticSolver.Solver.Roots

/-!
# The tolerance and the candidate

What the tests against the tolerance say about exact values, for finite
numbers. Of these every coefficient is either negligible or significant, so the
branch chosen first and the fall back within the formulas of degree two agree
(`candidate_eq`).
-/

namespace QuadraticSolver

/-! ## The tolerance -/

theorem isFinite_tolerance : tolerance.isFinite = true := by
  decide +kernel

theorem tolerance_near :
    |tolerance.toRat - 1 / 10 ^ 9| ≤ 1 / 10 ^ 9 / 2 ^ 53 + Binary64.halfUnit := by
  have hvalue : mkRat 1 1000000000 = (1 / 10 ^ 9 : ℚ) := by
    rw [Rat.mkRat_eq_div]
    norm_num
  have hnear : Binary64.IsNear tolerance (mkRat 1 1000000000) :=
    Binary64.isNear_round isFinite_tolerance
  unfold Binary64.IsNear at hnear
  rw [hvalue, abs_of_pos (by positivity : (0 : ℚ) < 1 / 10 ^ 9)] at hnear
  exact hnear

theorem tolerance_bounds : 1 / 2 ^ 30 ≤ tolerance.toRat ∧ tolerance.toRat ≤ 11 / 10 ^ 10 := by
  have hnear := abs_le.mp tolerance_near
  have hunit := Binary64.halfUnit_le
  constructor <;> norm_num at hnear hunit ⊢ <;> linarith [hnear.1, hnear.2]

theorem tolerance_pos : 0 < tolerance.toRat :=
  lt_of_lt_of_le (by positivity) tolerance_bounds.1

section Comparisons

variable {x : Binary64}

/-- The comparison of finite numbers is the one of their values. -/
theorem lt_iff {y : Binary64} (hx : x.isFinite = true) (hy : y.isFinite = true) :
    x.lt y = true ↔ x.toRat < y.toRat := by
  cases x with
  | finite s m =>
    cases y with
    | finite t n => exact decide_eq_true_iff
    | _ => cases hy
  | _ => cases hx

theorem Binary64.le_iff {y : Binary64} (hx : x.isFinite = true) (hy : y.isFinite = true) :
    x.le y = true ↔ x.toRat ≤ y.toRat := by
  rw [← not_lt, ← lt_iff hy hx, Bool.not_eq_true]
  obtain ⟨s, m, rfl⟩ := exists_of_isFinite hx
  obtain ⟨t, n, rfl⟩ := exists_of_isFinite hy
  show (!lt (finite t n) (finite s m)) = true ↔ _
  rw [Bool.not_eq_true']

theorem Binary64.eqv_iff {y : Binary64} (hx : x.isFinite = true) (hy : y.isFinite = true) :
    x.eqv y = true ↔ x.toRat = y.toRat := by
  rw [eqv, Bool.and_eq_true, le_iff hx hy, le_iff hy hx, le_antisymm_iff]

theorem isFinite_abs_iff : x.abs.isFinite = true ↔ x.isFinite = true := by
  cases x <;> rfl

theorem toRat_abs (x : Binary64) : x.abs.toRat = |x.toRat| := by
  cases x with
  | finite s m =>
    rw [Binary64.abs_toRat_finite]
    show (Binary64.finite false m).toRat = _
    rw [Binary64.toRat_finite, Binary64.signFactor, if_neg Bool.false_ne_true, one_mul]
  | _ => exact abs_zero.symm

theorem isSignificant_iff (hx : x.isFinite = true) :
    isSignificant x = true ↔ tolerance.toRat < |x.toRat| := by
  rw [isSignificant, lt_iff isFinite_tolerance (isFinite_abs_iff.mpr hx), toRat_abs]

/-- Of finite numbers, those are negligible that are not significant. -/
theorem isNegligible_eq (hx : x.isFinite = true) : isNegligible x = !isSignificant x := by
  obtain ⟨t, n, htolerance⟩ := Binary64.exists_of_isFinite isFinite_tolerance
  obtain ⟨s, m, rfl⟩ := Binary64.exists_of_isFinite hx
  unfold isNegligible isSignificant
  rw [htolerance]
  rfl

theorem isNegligible_iff (hx : x.isFinite = true) :
    isNegligible x = true ↔ |x.toRat| ≤ tolerance.toRat := by
  rw [isNegligible_eq hx, Bool.not_eq_true', ← Bool.not_eq_true, isSignificant_iff hx, not_lt]

theorem lt_abs_of_not_isNegligible (hx : x.isFinite = true) (h : isNegligible x = false) :
    tolerance.toRat < |x.toRat| := by
  rw [← Bool.not_eq_true, isNegligible_iff hx, not_le] at h
  exact h

theorem toRat_ne_zero_of_not_isNegligible (hx : x.isFinite = true) (h : isNegligible x = false) :
    x.toRat ≠ 0 :=
  abs_pos.mp (tolerance_pos.trans (lt_abs_of_not_isNegligible hx h))

/-- An infinity is not negligible, and neither is what is not a number. -/
theorem isFinite_of_isNegligible (h : isNegligible x = true) : x.isFinite = true := by
  obtain ⟨t, n, htolerance⟩ := Binary64.exists_of_isFinite isFinite_tolerance
  unfold isNegligible at h
  rw [htolerance] at h
  cases x with
  | finite s m => rfl
  | nan => cases h
  | infinity s => cases h

theorem zero_lt_iff (hx : x.isFinite = true) : (Binary64.zero false).lt x = true ↔ 0 < x.toRat := by
  rw [lt_iff rfl hx, Binary64.toRat_of_isZero (by decide)]

/-- A positive number that is not negligible is above the tolerance. -/
theorem tolerance_lt_of_pos (hx : x.isFinite = true) (h : isNegligible x = false)
    (hpos : (Binary64.zero false).lt x = true) : tolerance.toRat < x.toRat := by
  have habs := lt_abs_of_not_isNegligible hx h
  rw [abs_of_pos ((zero_lt_iff hx).mp hpos)] at habs
  exact habs

/-- Any other number that is not negligible is below the opposite of the tolerance. -/
theorem lt_neg_tolerance_of_not_pos (hx : x.isFinite = true)
    (h : isNegligible x = false) (hpos : ¬ (Binary64.zero false).lt x = true) :
    x.toRat < -tolerance.toRat := by
  have habs := lt_abs_of_not_isNegligible hx h
  rw [zero_lt_iff hx, not_lt] at hpos
  rw [abs_of_nonpos hpos] at habs
  exact lt_neg.mp habs

end Comparisons

/-! ## The candidate -/

/-- Of the three branches two have the formula of degree one. -/
theorem candidate_eq_ite (k : Coefficients) :
    k.candidate = if isSignificant k.a then secondDegreeCandidate k.a k.b k.c
      else firstDegreeCandidate k.b k.c := by
  unfold Coefficients.candidate Coefficients.branch
  cases isSignificant k.a with
  | true => rfl
  | false => cases isSignificant k.b <;> rfl

/-- **The branch and the formulas agree**: the candidate is always the one of degree two, which
falls back by itself. -/
theorem candidate_eq {k : Coefficients} (ha : k.a.isFinite = true) :
    k.candidate = secondDegreeCandidate k.a k.b k.c := by
  have hnegligible := isNegligible_eq ha
  rw [candidate_eq_ite]
  cases hsignificant : isSignificant k.a with
  | true => rfl
  | false =>
    rw [hsignificant] at hnegligible
    have hsecond : secondDegreeCandidate k.a k.b k.c = firstDegreeCandidate k.b k.c :=
      if_pos hnegligible
    rw [hsecond]
    rfl

theorem candidate_cases (k : Coefficients) :
    k.candidate = secondDegreeCandidate k.a k.b k.c ∨
      k.candidate = firstDegreeCandidate k.b k.c := by
  rw [candidate_eq_ite]
  split
  · exact Or.inl rfl
  · exact Or.inr rfl

theorem length_firstDegreeCandidate_le (b c : Binary64) :
    (firstDegreeCandidate b c).values.length ≤ 1 := by
  unfold firstDegreeCandidate
  split
  · split <;> exact Nat.zero_le 1
  · exact le_rfl

/-- Two numbers come from the formulas of degree two alone. -/
theorem candidate_eq_of_length {k : Coefficients} (h : k.candidate.values.length = 2) :
    k.candidate = secondDegreeCandidate k.a k.b k.c := by
  rcases candidate_cases k with hsecond | hfirst
  · exact hsecond
  · have hle := length_firstDegreeCandidate_le k.b k.c
    rw [← hfirst, h] at hle
    exact absurd hle (by decide)

/-- When the candidate is one number, and which. -/
theorem secondDegreeCandidate_single {a b c x : Binary64}
    (h : secondDegreeCandidate a b c = .single x) :
    (isNegligible a = true ∧ isNegligible b = false ∧ x = -c / b) ∨
      (isNegligible a = false ∧ isNegligible (discriminant a b c) = true ∧
        x = -b / (.ofInt 2 * a)) := by
  unfold secondDegreeCandidate firstDegreeCandidate at h
  split at h
  next ha =>
    split at h
    next => split at h <;> cases h
    next hb =>
      cases h
      exact Or.inl ⟨ha, by simpa using hb, rfl⟩
  next ha =>
    dsimp only at h
    split at h
    next hdelta =>
      cases h
      exact Or.inr ⟨by simpa using ha, hdelta, rfl⟩
    next => split at h <;> cases h

/-- When the candidate is two numbers, and which. -/
theorem secondDegreeCandidate_pair {a b c x₁ x₂ : Binary64}
    (h : secondDegreeCandidate a b c = .pair x₁ x₂) :
    isNegligible a = false ∧ isNegligible (discriminant a b c) = false ∧
      (Binary64.zero false).lt (discriminant a b c) = true ∧
      x₁ = (-b + (discriminant a b c).sqrt) / (.ofInt 2 * a) ∧
      x₂ = (-b - (discriminant a b c).sqrt) / (.ofInt 2 * a) := by
  unfold secondDegreeCandidate firstDegreeCandidate at h
  split at h
  next =>
    split at h
    next => split at h <;> cases h
    next => cases h
  next ha =>
    dsimp only at h
    split at h
    next => cases h
    next hdelta =>
      split at h
      next hpos =>
        cases h
        exact ⟨by simpa using ha, by simpa using hdelta, hpos, rfl, rfl⟩
      next => cases h

/-- When the candidate is two conjugate numbers, and which. -/
theorem secondDegreeCandidate_conjugates {a b c re im : Binary64}
    (h : secondDegreeCandidate a b c = .conjugates re im) :
    isNegligible a = false ∧ isNegligible (discriminant a b c) = false ∧
      ¬ (Binary64.zero false).lt (discriminant a b c) = true ∧ re = -b / (.ofInt 2 * a) ∧
      im = ((-discriminant a b c).sqrt / (.ofInt 2 * a)).abs := by
  unfold secondDegreeCandidate firstDegreeCandidate at h
  split at h
  next =>
    split at h
    next => split at h <;> cases h
    next => cases h
  next ha =>
    dsimp only at h
    split at h
    next => cases h
    next hdelta =>
      split at h
      next => cases h
      next hneg =>
        cases h
        exact ⟨by simpa using ha, by simpa using hdelta, hneg, rfl, rfl⟩

/-! ## The discriminant -/

/-- A finite discriminant is near the exact one, and the divisor of the formulas is then exact. -/
theorem discriminant_spec {a b c : Binary64} (h : (discriminant a b c).isFinite = true) :
    (Binary64.ofInt 2 * a).isFinite = true ∧ (Binary64.ofInt 2 * a).toRat = 2 * a.toRat ∧
      |(discriminant a b c).toRat - (b.toRat ^ 2 - 4 * a.toRat * c.toRat)| ≤
        3 / 2 ^ 53 * (b.toRat ^ 2 + 4 * (|a.toRat| * |c.toRat|)) + 4 * Binary64.halfUnit := by
  obtain ⟨hsquare, hproduct, hdifference⟩ := Binary64.isNear_sub h
  obtain ⟨-, -, hnearsquare⟩ := Binary64.isNear_mul hsquare
  obtain ⟨hfour, -, hnearproduct⟩ := Binary64.isNear_mul hproduct
  obtain ⟨hexact, htwo, hexact'⟩ := Binary64.toRat_four_mul hfour
  rw [hexact] at hnearproduct
  exact ⟨htwo, hexact',
    discriminant_error Binary64.halfUnit_pos.le hnearsquare hnearproduct hdifference⟩

end QuadraticSolver

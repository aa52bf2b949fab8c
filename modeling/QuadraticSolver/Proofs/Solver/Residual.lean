import QuadraticSolver.Proofs.Binary64.SquareRoot
import QuadraticSolver.Proofs.Equation.Folding
import QuadraticSolver.Proofs.Solver.Branch
import QuadraticSolver.Proofs.Solver.Solution

/-!
# Returned roots against the equation

How far a returned real root is from solving the equation, in exact arithmetic
on the values of the coefficients (`residual_law`). The bound is a `10 ^ -9`-th
part of the scale of the polynomial, and beyond that what the closed formulas
with one absolute tolerance do not see (`Coefficients.excess`): a negligible
leading coefficient is left out, a negligible discriminant counts as zero, and
the root for which `-b` and `±√Δ` nearly cancel keeps an error in the measure of
`b² / a`. None of the three can be left away, and where the coefficients are of
ordinary size they are within the bound.
-/

namespace QuadraticSolver

namespace Coefficients

/-- The distance of the polynomial from zero at a number. -/
def residual (k : Coefficients) (x : Binary64) : ℚ :=
  QuadraticSolver.residual k.a.toRat k.b.toRat k.c.toRat x.toRat

/-- What the polynomial amounts to at a number when nothing cancels, and one more. -/
def scale (k : Coefficients) (x : Binary64) : ℚ :=
  QuadraticSolver.scale k.a.toRat k.b.toRat k.c.toRat x.toRat

/-- What a root of the solution may miss beyond the bound. -/
def excess (k : Coefficients) (solution : Solution) (x : Binary64) : ℚ :=
  if isNegligible k.a then |k.a.toRat| * x.toRat ^ 2
  else
    match solution with
    | .pair _ _ =>
      if |k.b.toRat| ≤ 4 * |k.a.toRat| * |x.toRat| then 0
      else k.b.toRat ^ 2 / (2 ^ 50 * |k.a.toRat|)
    | _ => tolerance.toRat / (4 * |k.a.toRat|)

end Coefficients

open Binary64 in
/-- A quotient by the double of `a`, multiplied back. -/
theorem quotient_error {n a : Binary64} (hfinite : (ofInt 2 * a).isFinite = true)
    (hvalue : (ofInt 2 * a).toRat = 2 * a.toRat) (ha : a.toRat ≠ 0)
    (hx : (n / (ofInt 2 * a)).isFinite = true) :
    n.isFinite = true ∧ |2 * a.toRat * (n / (ofInt 2 * a)).toRat - n.toRat| ≤
      |n.toRat| / 2 ^ 53 + 2 * |a.toRat| * halfUnit := by
  obtain ⟨hn, hnear⟩ := isNear_div hfinite hx
  rw [hvalue] at hnear
  have herror := mul_error (mul_ne_zero two_ne_zero ha) hnear
  rw [abs_mul 2, abs_of_pos (by norm_num : (0 : ℚ) < 2)] at herror
  exact ⟨hn, herror⟩

/-- The root of a positive discriminant. -/
theorem sqrt_discriminant {d : Binary64} (hfinite : d.isFinite = true)
    (hdelta : isNegligible d = false) (hpos : (Binary64.zero false).lt d = true)
    (hsqrt : d.sqrt.isFinite = true) :
    1 / 2 ^ 16 ≤ d.sqrt.toRat ∧ |d.sqrt.toRat ^ 2 - d.toRat| ≤ 3 / 2 ^ 53 * d.toRat := by
  have hd := (zero_lt_iff hfinite).mp hpos
  have hlarge := tolerance_bounds.1.trans (tolerance_lt_of_pos hfinite hdelta hpos).le
  obtain ⟨hnonneg, hsquare⟩ := Binary64.sqrt_spec hd hsqrt
  refine ⟨?_, hsquare⟩
  have hlower := (abs_le.mp hsquare).1
  refine le_of_sq_le_sq ?_ hnonneg
  linarith

/-- What a root of a pair may be off by, multiplied back, where `r` is the root of the
discriminant. -/
def rootError (a b : Binary64) (r : ℚ) : ℚ :=
  3 / 2 ^ 53 * (|b.toRat| + r) + 2 * (|a.toRat| * Binary64.halfUnit) + 2 * Binary64.halfUnit

/-- What is computed for a pair: `r` is the root of the discriminant, and each of the two numbers
is near what the formula says of it. -/
structure ComputedPair (a b c x₁ x₂ : Binary64) (r : ℚ) : Prop where
  leading : a.isFinite = true
  significant : isNegligible a = false
  discriminant : (discriminant a b c).isFinite = true
  positive : (Binary64.zero false).lt (QuadraticSolver.discriminant a b c) = true
  large : 1 / 2 ^ 16 ≤ r
  sq : |r ^ 2 - (QuadraticSolver.discriminant a b c).toRat| ≤
    3 / 2 ^ 53 * (QuadraticSolver.discriminant a b c).toRat
  bounded : r * Binary64.halfUnit ≤ 1 / 2 ^ 51
  first : |2 * a.toRat * x₁.toRat + b.toRat - r| ≤ rootError a b r
  second : |2 * a.toRat * x₂.toRat + b.toRat - -r| ≤ rootError a b r

/-- One root of a pair, multiplied back. -/
theorem root_error {n a b : Binary64} {r : ℚ} (hfinite : (Binary64.ofInt 2 * a).isFinite = true)
    (hvalue : (Binary64.ofInt 2 * a).toRat = 2 * a.toRat) (ha : a.toRat ≠ 0)
    (hn : n.IsNear (-b.toRat + r)) (hx : (n / (.ofInt 2 * a)).isFinite = true) :
    |2 * a.toRat * (n / (.ofInt 2 * a)).toRat + b.toRat - r| ≤ rootError a b |r| := by
  obtain ⟨-, herror⟩ := quotient_error hfinite hvalue ha hx
  have hnumerator := numerator_error Binary64.halfUnit_pos.le hn herror
  have hsum := abs_add_le (-b.toRat) r
  rw [abs_neg] at hsum
  unfold rootError
  linarith

/-- **Two finite roots are computed from the root of a finite discriminant.** -/
theorem exists_computedPair {a b c x₁ x₂ : Binary64}
    (h : secondDegreeCandidate a b c = .pair x₁ x₂) (h₁ : x₁.isFinite = true)
    (h₂ : x₂.isFinite = true) : ∃ r, ComputedPair a b c x₁ x₂ r := by
  obtain ⟨hnegligible, hdelta, hpos, rfl, rfl⟩ := secondDegreeCandidate_pair h
  obtain ⟨-, hsqrt, hn₁⟩ := Binary64.isNear_add (Binary64.isFinite_of_isFinite_div h₁)
  obtain ⟨-, -, hn₂⟩ := Binary64.isNear_sub (Binary64.isFinite_of_isFinite_div h₂)
  have hfinite := Binary64.isFinite_of_isFinite_sqrt hsqrt
  obtain ⟨htwo, hvalue, -⟩ := discriminant_spec hfinite
  have ha := (Binary64.isNear_mul htwo).2.1
  have hne := toRat_ne_zero_of_not_isNegligible ha hnegligible
  obtain ⟨hlarge, hsquare⟩ := sqrt_discriminant hfinite hdelta hpos hsqrt
  have hroot : |(discriminant a b c).sqrt.toRat| = (discriminant a b c).sqrt.toRat :=
    abs_of_nonneg (le_trans (by positivity) hlarge)
  have hbound := Binary64.abs_toRat_mul_halfUnit_le (discriminant a b c).sqrt
  rw [Binary64.toRat_neg] at hn₁ hn₂
  rw [sub_eq_add_neg] at hn₂
  have hfirst := root_error htwo hvalue hne hn₁ h₁
  have hsecond := root_error htwo hvalue hne hn₂ h₂
  rw [abs_neg] at hsecond
  rw [hroot] at hbound hfirst hsecond
  exact ⟨_, ha, hnegligible, hfinite, hpos, hlarge, hsquare, hbound, hfirst, hsecond⟩

section Roots

variable {k : Coefficients} {x : Binary64}

theorem residual_linear (hb : k.b.isFinite = true) (hnegligible : isNegligible k.b = false)
    (hx : (-k.c / k.b).isFinite = true) :
    k.residual (-k.c / k.b) ≤ k.scale (-k.c / k.b) / 10 ^ 12 +
      |k.a.toRat| * (-k.c / k.b).toRat ^ 2 := by
  have hne := toRat_ne_zero_of_not_isNegligible hb hnegligible
  obtain ⟨-, hnear⟩ := Binary64.isNear_div hb hx
  rw [Binary64.toRat_neg] at hnear
  have herror := mul_error hne hnear
  rw [abs_neg] at herror
  exact linear_error (Binary64.abs_toRat_mul_halfUnit_le k.b) herror

theorem residual_double (ha : k.a.isFinite = true) (hnegligible : isNegligible k.a = false)
    (hdelta : isNegligible (discriminant k.a k.b k.c) = true)
    (hx : (-k.b / (.ofInt 2 * k.a)).isFinite = true) :
    k.residual (-k.b / (.ofInt 2 * k.a)) ≤ k.scale (-k.b / (.ofInt 2 * k.a)) / 10 ^ 12 +
      tolerance.toRat / (4 * |k.a.toRat|) := by
  have hlarge := tolerance_bounds.1.trans (lt_abs_of_not_isNegligible ha hnegligible).le
  have hne := toRat_ne_zero_of_not_isNegligible ha hnegligible
  have hfinite := isFinite_of_isNegligible hdelta
  obtain ⟨htwo, hvalue, hnear⟩ := discriminant_spec hfinite
  obtain ⟨-, herror⟩ := quotient_error htwo hvalue hne hx
  rw [Binary64.toRat_neg, abs_neg, sub_neg_eq_add] at herror
  have hsmall := (isNegligible_iff hfinite).mp hdelta
  refine single_error hlarge Binary64.halfUnit_pos.le Binary64.halfUnit_le
    (Binary64.abs_toRat_mul_halfUnit_le k.a) (Binary64.abs_toRat_mul_halfUnit_le k.b) ?_ herror
  have htriangle := abs_sub_abs_le_abs_sub (k.b.toRat ^ 2 - 4 * k.a.toRat * k.c.toRat)
    (discriminant k.a k.b k.c).toRat
  have hcomm := abs_sub_comm (discriminant k.a k.b k.c).toRat
    (k.b.toRat ^ 2 - 4 * k.a.toRat * k.c.toRat)
  linarith

/-- One of two roots, from what it is off by: `r` is the root of the discriminant with its sign. -/
theorem residual_root {r : ℚ} (ha : k.a.isFinite = true) (hnegligible : isNegligible k.a = false)
    (hfinite : (discriminant k.a k.b k.c).isFinite = true)
    (hr : |r ^ 2 - (discriminant k.a k.b k.c).toRat| ≤
      3 / 2 ^ 53 * (discriminant k.a k.b k.c).toRat)
    (hrh : |r| * Binary64.halfUnit ≤ 1 / 2 ^ 51) (hlarge : 1 / 2 ^ 16 ≤ |r|)
    (hlost : |2 * k.a.toRat * x.toRat + k.b.toRat - r| ≤ rootError k.a k.b |r|) :
    k.residual x ≤ k.scale x / (2 * 10 ^ 12) + k.b.toRat ^ 2 / (2 ^ 50 * |k.a.toRat|) ∧
      (|-k.b.toRat + r| = |k.b.toRat| + |r| → |k.b.toRat| ≤ 4 * |k.a.toRat| * |x.toRat|) := by
  have hleading := tolerance_bounds.1.trans (lt_abs_of_not_isNegligible ha hnegligible).le
  obtain ⟨-, -, hnear⟩ := discriminant_spec hfinite
  unfold rootError at hlost
  have hsplit : 2 * k.a.toRat * x.toRat + k.b.toRat =
      r + (2 * k.a.toRat * x.toRat + k.b.toRat - r) := by ring
  have hah := Binary64.abs_toRat_mul_halfUnit_le k.a
  constructor
  · exact pair_error hleading Binary64.halfUnit_pos.le Binary64.halfUnit_le hah hrh hnear hr hsplit
      hlost
  · intro hsame
    exact le_four_mul_of_same_sign Binary64.halfUnit_le hah hlarge hsame hsplit hlost

/-- Both roots of a pair; the one without cancellation is not small. -/
theorem residual_pair {x₁ x₂ : Binary64} (h : secondDegreeCandidate k.a k.b k.c = .pair x₁ x₂)
    (h₁ : x₁.isFinite = true) (h₂ : x₂.isFinite = true) :
    isNegligible k.a = false ∧
      (∀ x ∈ [x₁, x₂],
        k.residual x ≤ k.scale x / (2 * 10 ^ 12) + k.b.toRat ^ 2 / (2 ^ 50 * |k.a.toRat|)) ∧
      (k.b.toRat ≤ 0 → |k.b.toRat| ≤ 4 * |k.a.toRat| * |x₁.toRat|) ∧
      (0 ≤ k.b.toRat → |k.b.toRat| ≤ 4 * |k.a.toRat| * |x₂.toRat|) := by
  obtain ⟨r, hpair⟩ := exists_computedPair h h₁ h₂
  have hr : 0 ≤ r := le_trans (by positivity) hpair.large
  have hroot : |r| = r := abs_of_nonneg hr
  obtain ⟨hle₁, hsame₁⟩ := residual_root hpair.leading hpair.significant hpair.discriminant
    hpair.sq (by rw [hroot]; exact hpair.bounded) (by rw [hroot]; exact hpair.large)
    (by rw [hroot]; exact hpair.first)
  obtain ⟨hle₂, hsame₂⟩ := residual_root hpair.leading hpair.significant hpair.discriminant
    (by rw [neg_sq]; exact hpair.sq) (by rw [abs_neg, hroot]; exact hpair.bounded)
    (by rw [abs_neg, hroot]; exact hpair.large) (by rw [abs_neg, hroot]; exact hpair.second)
  refine ⟨hpair.significant, ?_, fun hb => hsame₁ ?_, fun hb => hsame₂ ?_⟩
  · simp only [List.forall_mem_cons]
    exact ⟨hle₁, hle₂, fun x hx => absurd hx List.not_mem_nil⟩
  · rw [hroot, abs_of_nonpos hb]
    exact abs_of_nonneg (add_nonneg (neg_nonneg.mpr hb) hr)
  · rw [abs_neg, hroot, abs_of_nonneg hb, ← neg_add, abs_neg]
    exact abs_of_nonneg (add_nonneg hb hr)

/-- A root that is not small beside `b / a` loses nothing that counts. -/
theorem square_div_le (h : |k.b.toRat| ≤ 4 * |k.a.toRat| * |x.toRat|) :
    k.b.toRat ^ 2 / (2 ^ 50 * |k.a.toRat|) ≤ k.scale x / (2 * 10 ^ 12) := by
  have hscale : |k.b.toRat| * |x.toRat| ≤ k.scale x := by
    unfold Coefficients.scale scale
    have hx2 : 0 ≤ |k.a.toRat| * x.toRat ^ 2 := by positivity
    linarith [abs_nonneg k.c.toRat]
  have hnonneg : 0 ≤ |k.b.toRat| * |x.toRat| := by positivity
  rcases (abs_nonneg k.a.toRat).eq_or_lt with hzero | hpos
  · rw [← hzero, mul_zero, div_zero]
    linarith
  · have hsquare : k.b.toRat ^ 2 ≤ 4 * |k.a.toRat| * (|k.b.toRat| * |x.toRat|) := by
      calc k.b.toRat ^ 2 = |k.b.toRat| * |k.b.toRat| := by rw [← sq, sq_abs]
        _ ≤ |k.b.toRat| * (4 * |k.a.toRat| * |x.toRat|) :=
          mul_le_mul_of_nonneg_left h (abs_nonneg _)
        _ = 4 * |k.a.toRat| * (|k.b.toRat| * |x.toRat|) := by ring
    rw [div_le_iff₀ (by positivity)]
    have hmono : |k.a.toRat| * (|k.b.toRat| * |x.toRat|) ≤ |k.a.toRat| * k.scale x :=
      mul_le_mul_of_nonneg_left hscale hpos.le
    have hprod : 0 ≤ |k.a.toRat| * (|k.b.toRat| * |x.toRat|) := by positivity
    linarith

/-- Only the exact value of a root counts. -/
theorem residual_congr {y : Binary64} (h : y.toRat = x.toRat) (solution : Solution) :
    k.residual y = k.residual x ∧ k.scale y = k.scale x ∧
      k.excess solution y = k.excess solution x := by
  unfold Coefficients.residual Coefficients.scale Coefficients.excess
  rw [h]
  exact ⟨rfl, rfl, rfl⟩

variable {solution : Solution}

/-- **The bound of a returned root**, with room to spare. -/
theorem residual_le (hk : k.isFinite = true) (h : solve k = .ok solution)
    (hx : x ∈ solution.roots) :
    x.isFinite = true ∧ k.residual x ≤ k.scale x / 10 ^ 12 + k.excess solution x := by
  have hfinite := (Coefficients.isFinite_iff k).mp hk
  have hsettled := Solution.settled_of_accept h
  rw [candidate_eq (hfinite .square)] at hsettled
  generalize hcandidate : secondDegreeCandidate k.a k.b k.c = candidate at hsettled
  cases hsettled with
  | everyNumber => cases hx
  | noNumber => cases hx
  | conjugates _ _ => cases hx
  | @single x₀ y hy =>
    obtain rfl : x = y := List.mem_singleton.mp hx
    refine ⟨hy.isFinite, ?_⟩
    obtain ⟨hresidual, hscale, hexcess⟩ := residual_congr (k := k) hy.toRat_eq (.single x)
    rw [hresidual, hscale, hexcess]
    have hx₀ := hy.finite
    unfold Coefficients.excess
    rcases secondDegreeCandidate_single hcandidate with ⟨ha, hb, rfl⟩ | ⟨ha, hdelta, rfl⟩
    · rw [if_pos ha]
      exact residual_linear (hfinite .linear) hb hx₀
    · rw [if_neg (by rw [ha]; decide)]
      exact residual_double (hfinite .square) ha hdelta hx₀
  | @pair x₁ x₂ y₁ y₂ hy₁ hy₂ =>
    obtain ⟨ha, hle, -⟩ := residual_pair hcandidate hy₁.finite hy₂.finite
    have hroot : ∀ {x₀ y : Binary64}, x₀ ∈ [x₁, x₂] → x₀.SettlesTo y →
        y.isFinite = true ∧ k.residual y ≤ k.scale y / 10 ^ 12 + k.excess (.pair y₁ y₂) y := by
      intro x₀ y hmem hy
      refine ⟨hy.isFinite, ?_⟩
      obtain ⟨hresidual, hscale, hexcess⟩ := residual_congr (k := k) hy.toRat_eq (.pair y₁ y₂)
      rw [hresidual, hscale, hexcess]
      have hbound := hle x₀ hmem
      have hpos : 0 ≤ k.scale x₀ := by
        unfold Coefficients.scale scale
        positivity
      unfold Coefficients.excess
      rw [if_neg (by rw [ha]; decide)]
      dsimp only
      split
      next hlarge =>
        have := square_div_le hlarge
        linarith
      next => linarith
    rcases List.mem_cons.mp hx with rfl | hx
    · exact hroot List.mem_cons_self hy₁
    · obtain rfl : x = y₂ := List.mem_singleton.mp hx
      exact hroot (List.mem_cons_of_mem _ List.mem_cons_self) hy₂

/-- The bound alone, for every returned root. -/
def Coefficients.RootsBounded (k : Coefficients) : Prop :=
  k.isFinite = true → ∀ solution, solve k = .ok solution →
    ∀ x ∈ solution.roots, k.residual x < k.scale x / 10 ^ 9

/-- Coefficients of ordinary size: degree one, or a leading coefficient that is not small and a
second one that is not great beside the others. -/
def Coefficients.IsOrdinary (k : Coefficients) : Prop :=
  k.a.toRat = 0 ∨ 1 / 2 ≤ |k.a.toRat| ∧ k.b.toRat ^ 2 ≤ 2 ^ 20 * |k.a.toRat| * (|k.c.toRat| + 1)

theorem one_le_scale (k : Coefficients) (x : Binary64) : |k.c.toRat| + 1 ≤ k.scale x := by
  unfold Coefficients.scale scale
  have hx2 : 0 ≤ |k.a.toRat| * x.toRat ^ 2 := by positivity
  have hbx : 0 ≤ |k.b.toRat| * |x.toRat| := by positivity
  linarith

theorem excess_le_of_isOrdinary (hk : k.isFinite = true) (h : k.IsOrdinary) (solution : Solution)
    (x : Binary64) : k.excess solution x ≤ 95 / 10 ^ 11 * k.scale x := by
  have ha : k.a.isFinite = true := (Coefficients.isFinite_iff k).mp hk .square
  have hscale := one_le_scale k x
  have hc := abs_nonneg k.c.toRat
  obtain ⟨hlower, hupper⟩ := tolerance_bounds
  unfold Coefficients.excess
  rcases h with hzero | ⟨hhalf, hb⟩
  · have hnegligible : isNegligible k.a = true := by
      rw [isNegligible_iff ha, hzero, abs_zero]
      exact le_trans (by positivity) hlower
    rw [if_pos hnegligible, hzero, abs_zero, zero_mul]
    linarith
  · have hpos : 0 < |k.a.toRat| := lt_of_lt_of_le (by norm_num) hhalf
    have hsignificant : ¬ isNegligible k.a = true := by
      rw [isNegligible_iff ha]
      linarith
    have hdouble : tolerance.toRat / (4 * |k.a.toRat|) ≤ 95 / 10 ^ 11 * k.scale x := by
      rw [div_le_iff₀ (mul_pos (by norm_num) hpos)]
      have hmono : 1 * (1 / 2) ≤ k.scale x * |k.a.toRat| :=
        mul_le_mul (by linarith) hhalf (by norm_num) (by linarith)
      linarith
    have hpair : k.b.toRat ^ 2 / (2 ^ 50 * |k.a.toRat|) ≤ 95 / 10 ^ 11 * k.scale x := by
      rw [div_le_iff₀ (mul_pos (by norm_num) hpos)]
      have hmono : |k.a.toRat| * (|k.c.toRat| + 1) ≤ |k.a.toRat| * k.scale x :=
        mul_le_mul_of_nonneg_left hscale hpos.le
      have hnonneg : 0 ≤ |k.a.toRat| * (|k.c.toRat| + 1) := mul_nonneg hpos.le (by linarith)
      linarith
    rw [if_neg hsignificant]
    split
    · split
      · linarith
      · exact hpair
    · exact hdouble

/-- The root of a pair without cancellation keeps no excess. -/
theorem excess_pair (hk : k.isFinite = true) {y₁ y₂ : Binary64} (h : solve k = .ok (.pair y₁ y₂)) :
    (k.b.toRat ≤ 0 → k.excess (.pair y₁ y₂) y₁ = 0) ∧
      (0 ≤ k.b.toRat → k.excess (.pair y₁ y₂) y₂ = 0) := by
  have hsettled := Solution.settled_of_accept h
  rw [candidate_eq ((Coefficients.isFinite_iff k).mp hk .square)] at hsettled
  generalize hcandidate : secondDegreeCandidate k.a k.b k.c = candidate at hsettled
  cases hsettled with
  | pair hy₁ hy₂ =>
    obtain ⟨ha, -, hleft, hright⟩ := residual_pair hcandidate hy₁.finite hy₂.finite
    have hsignificant : ¬ isNegligible k.a = true := by
      rw [ha]
      decide
    unfold Coefficients.excess
    rw [if_neg hsignificant, if_neg hsignificant]
    refine ⟨fun hb => if_pos ?_, fun hb => if_pos ?_⟩
    · rw [hy₁.toRat_eq]
      exact hleft hb
    · rw [hy₂.toRat_eq]
      exact hright hb

/-- **Returned roots solve the equation**, up to the bound and the excess. The excess is within the
bound where the coefficients are of ordinary size, and there is none for the root of a pair for
which `-b` and the root of the discriminant have the same sign. -/
theorem residual_law (k : Coefficients) (hk : k.isFinite = true) (solution : Solution)
    (h : solve k = .ok solution) :
    (∀ x ∈ solution.roots, x.isFinite = true ∧
      k.residual x < k.scale x / 10 ^ 9 + k.excess solution x) ∧
    (k.IsOrdinary → k.RootsBounded) ∧
    ∀ x₁ x₂, solution = .pair x₁ x₂ →
      (k.b.toRat ≤ 0 → k.residual x₁ < k.scale x₁ / 10 ^ 9) ∧
      (0 ≤ k.b.toRat → k.residual x₂ < k.scale x₂ / 10 ^ 9) := by
  have hscale : ∀ x, 1 ≤ k.scale x := by
    intro x
    exact le_trans (le_add_of_nonneg_left (abs_nonneg _)) (one_le_scale k x)
  refine ⟨?_, ?_, ?_⟩
  · intro x hx
    obtain ⟨hfinite, hle⟩ := residual_le hk h hx
    refine ⟨hfinite, ?_⟩
    linarith [hscale x]
  · intro hordinary _ solution h x hx
    obtain ⟨-, hle⟩ := residual_le hk h hx
    linarith [hscale x, excess_le_of_isOrdinary hk hordinary solution x]
  · rintro x₁ x₂ rfl
    obtain ⟨hleft, hright⟩ := excess_pair hk h
    obtain ⟨-, hle₁⟩ := residual_le hk h List.mem_cons_self
    obtain ⟨-, hle₂⟩ := residual_le hk h (List.mem_cons_of_mem _ List.mem_cons_self)
    constructor
    · intro hb
      rw [hleft hb] at hle₁
      linarith [hscale x₁]
    · intro hb
      rw [hright hb] at hle₂
      linarith [hscale x₂]

/-- The roots 2 and 1 of `x² - 3x + 2 = 0`. -/
theorem residual_law_two_one :
    let k : Coefficients := ⟨.ofInt 1, .ofInt (-3), .ofInt 2⟩
    solve k = .ok (.pair (.ofInt 2) (.ofInt 1)) ∧
      k.residual (.ofInt 2) < k.scale (.ofInt 2) / 10 ^ 9 := by
  have hsolve : solve ⟨.ofInt 1, .ofInt (-3), .ofInt 2⟩ = .ok (.pair (.ofInt 2) (.ofInt 1)) := by
    decide +kernel
  have hb : (Binary64.ofInt (-3)).toRat = ((-3 : ℤ) : ℚ) := Binary64.toRat_ofInt (by decide)
  refine ⟨hsolve, ((residual_law _ (by decide +kernel) _ hsolve).2.2 _ _ rfl).1 ?_⟩
  rw [hb]
  norm_num

theorem not_rootsBounded_of (hk : k.isFinite = true) (h : solve k = .ok solution)
    (hx : x ∈ solution.roots) (hlarge : k.scale x / 10 ^ 9 ≤ k.residual x) : ¬ k.RootsBounded := by
  intro hbounded
  exact absurd (hbounded hk solution h x hx) (not_lt.mpr hlarge)

/-- The bound alone does not hold. The discriminant of `2⁻²⁸x² - 2⁻⁶ = 0` is negligible, and so is
the leading coefficient of `2⁻³⁰x² - 3x + 2³¹ = 0`; the small root of `x² + 10⁸x + 1 = 0`
cancels. -/
theorem not_rootsBounded :
    ¬ Coefficients.RootsBounded
        ⟨.finite false ⟨4503599627370496, 994, by decide⟩, .zero false,
          .finite true ⟨4503599627370496, 1016, by decide⟩⟩ ∧
      ¬ Coefficients.RootsBounded
        ⟨.finite false ⟨4503599627370496, 992, by decide⟩, .ofInt (-3), .ofInt 2147483648⟩ ∧
      ¬ Coefficients.RootsBounded ⟨.ofInt 1, .ofInt 100000000, .ofInt 1⟩ := by
  have hleading :
      (Binary64.finite false ⟨4503599627370496, 994, by decide⟩).toRat = 1 / 2 ^ 28 := by
    decide +kernel
  have hconstant : (Binary64.finite true ⟨4503599627370496, 1016, by decide⟩).toRat = -1 / 64 := by
    decide +kernel
  refine ⟨?_, ?_, ?_⟩
  · have hsolve : solve ⟨.finite false ⟨4503599627370496, 994, by decide⟩, .zero false,
        .finite true ⟨4503599627370496, 1016, by decide⟩⟩ = .ok (.single (.zero false)) := by
      decide +kernel
    refine not_rootsBounded_of rfl hsolve List.mem_cons_self ?_
    unfold Coefficients.residual Coefficients.scale residual scale
    dsimp only
    rw [hleading, hconstant, Binary64.toRat_of_isZero (by decide)]
    norm_num
  · let x : Binary64 := .finite false ⟨6004799503160661, 1051, by decide⟩
    have hsolve : solve ⟨.finite false ⟨4503599627370496, 992, by decide⟩, .ofInt (-3),
        .ofInt 2147483648⟩ = .ok (.single x) := by
      decide +kernel
    have ha : (Binary64.finite false ⟨4503599627370496, 992, by decide⟩).toRat = 1 / 2 ^ 30 := by
      decide +kernel
    have hb : (Binary64.ofInt (-3)).toRat = ((-3 : ℤ) : ℚ) := Binary64.toRat_ofInt (by decide)
    have hc : (Binary64.ofInt 2147483648).toRat = ((2147483648 : ℤ) : ℚ) :=
      Binary64.toRat_ofInt (by decide)
    have hx : x.toRat = 6004799503160661 / 8388608 := by decide +kernel
    refine not_rootsBounded_of (by decide +kernel) hsolve List.mem_cons_self ?_
    unfold Coefficients.residual Coefficients.scale residual scale
    dsimp only
    rw [ha, hb, hc, hx]
    norm_num [abs_of_pos, abs_of_neg]
  · let x : Binary64 := .finite true ⟨4503599627370496, 995, by decide⟩
    have hsolve : solve ⟨.ofInt 1, .ofInt 100000000, .ofInt 1⟩ =
        .ok (.pair x (.ofInt (-100000000))) := by
      decide +kernel
    have ha : (Binary64.ofInt 1).toRat = ((1 : ℤ) : ℚ) := Binary64.toRat_ofInt (by decide)
    have hb : (Binary64.ofInt 100000000).toRat = ((100000000 : ℤ) : ℚ) :=
      Binary64.toRat_ofInt (by decide)
    have hx : x.toRat = -1 / 2 ^ 27 := by decide +kernel
    refine not_rootsBounded_of (by decide +kernel) hsolve List.mem_cons_self ?_
    unfold Coefficients.residual Coefficients.scale residual scale
    dsimp only
    rw [ha, hb, hx]
    norm_num [abs_of_pos, abs_of_neg]

end Roots

end QuadraticSolver

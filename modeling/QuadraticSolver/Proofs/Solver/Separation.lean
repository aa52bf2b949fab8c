import QuadraticSolver.Proofs.Binary64.Differences
import QuadraticSolver.Proofs.Solver.Residual

/-!
# Two roots are two

The two numbers of a pair differ, and the sign of the leading coefficient orders
them (`pair_ordered`). The distance between the exact quotients is `√Δ / a`; what
could close it is the error of `-b ± √Δ`, a `2 ^ -53`-th part of `b`. So `b` must
not be great beside the root: where `b²` and `4·a·c` nearly cancel, they differ in
their last digit at least, and the discriminant keeps a `2 ^ -53`-th part of `b²`
(`ComputedPair.abs_linear_le`). The division loses nothing that counts either: what
underflows is less than half a unit, and the divisor makes of that less than the
root of the least discriminant.

The law is about the two numbers alone. That they are near the exact roots is
another matter, and fails for the one that cancels.
-/

namespace QuadraticSolver

open Binary64

namespace ComputedPair

variable {a b c x₁ x₂ : Binary64} {r : ℚ}

/-- The coefficient of degree one is not great beside the root of the discriminant. -/
theorem abs_linear_le (h : ComputedPair a b c x₁ x₂ r) : |b.toRat| ≤ 2 ^ 29 * r := by
  obtain ⟨hsquare, hproduct, hdifference⟩ := isNear_sub h.discriminant
  obtain ⟨-, -, hnearsquare⟩ := isNear_mul hsquare
  exact abs_linear_le_mul_root halfUnit_le hnearsquare hdifference
    (toRat_le_mul_sub hsquare hproduct) h.large h.sq

/-- **The roots are apart, in the order that the leading coefficient gives.** -/
theorem ordered (h : ComputedPair a b c x₁ x₂ r) : 0 < a.toRat * (x₁.toRat - x₂.toRat) := by
  have hfirst := h.first
  have hsecond := h.second
  unfold rootError at hfirst hsecond
  exact roots_apart halfUnit_le (abs_toRat_mul_halfUnit_le a) h.large h.abs_linear_le hfirst hsecond

end ComputedPair

variable {k : Coefficients} {a b c y₁ y₂ : Binary64}

/-- A pair that is given is the settled pair of the formulas of degree two. -/
theorem settled_pair (h : (secondDegreeCandidate a b c).Settled (.pair y₁ y₂)) :
    y₁.isFinite = true ∧ y₂.isFinite = true ∧ a.isFinite = true ∧
      0 < a.toRat * (y₁.toRat - y₂.toRat) := by
  generalize hcandidate : secondDegreeCandidate a b c = candidate at h
  cases h with
  | pair h₁ h₂ =>
    obtain ⟨r, hpair⟩ := exists_computedPair hcandidate h₁.finite h₂.finite
    rw [h₁.toRat_eq, h₂.toRat_eq]
    exact ⟨h₁.isFinite, h₂.isFinite, hpair.leading, hpair.ordered⟩

theorem settled_of_solve_pair (h : solve k = .ok (.pair y₁ y₂)) :
    (secondDegreeCandidate k.a k.b k.c).Settled (.pair y₁ y₂) := by
  have hsettled := Solution.settled_of_accept h
  rw [← candidate_eq_of_length]
  · exact hsettled
  · generalize k.candidate = candidate at hsettled
    cases hsettled with
    | pair h₁ h₂ => rfl

/-- **Two real roots are really two, and the sign of the leading coefficient orders them**, for all
coefficients and whichever way they are solved. -/
theorem pair_ordered (k : Coefficients) (y₁ y₂ : Binary64)
    (h : solve k = .ok (.pair y₁ y₂) ∨ solveSecondDegree k.a k.b k.c = .ok (.pair y₁ y₂)) :
    y₁.eqv y₂ = false ∧ ((zero false).lt k.a = true → y₂.lt y₁ = true) ∧
      (k.a.lt (zero false) = true → y₁.lt y₂ = true) := by
  have hsettled : (secondDegreeCandidate k.a k.b k.c).Settled (.pair y₁ y₂) :=
    h.elim settled_of_solve_pair Solution.settled_of_accept
  obtain ⟨h₁, h₂, ha, hordered⟩ := settled_pair hsettled
  have hzero : (zero false).toRat = 0 := toRat_of_isZero (by decide)
  rw [lt_iff h₂ h₁, lt_iff h₁ h₂, lt_iff rfl ha, lt_iff ha rfl, hzero, ← Bool.not_eq_true,
    eqv_iff h₁ h₂]
  refine ⟨?_, fun hpos => ?_, fun hneg => ?_⟩
  · intro heq
    rw [heq, sub_self, mul_zero] at hordered
    exact lt_irrefl 0 hordered
  · exact sub_pos.mp ((pos_iff_pos_of_mul_pos hordered).mp hpos)
  · exact sub_neg.mp ((neg_iff_neg_of_mul_pos hordered).mp hneg)

/-- The terms of the discriminant of `-x² + 94906267x - 2251799878968821 = 0` agree in fifteen
digits, and its roots are two apart. -/
theorem pair_ordered_near_cancellation :
    let k : Coefficients := ⟨.ofInt (-1), .ofInt 94906267, .ofInt (-2251799878968821)⟩
    let y₁ : Binary64 := .round false (mkRat 94906265 2)
    let y₂ : Binary64 := .round false (mkRat 94906269 2)
    solve k = .ok (.pair y₁ y₂) ∧ y₁.eqv y₂ = false ∧ y₁.lt y₂ = true := by
  intro k y₁ y₂
  have hsolve : solve k = .ok (.pair y₁ y₂) := by decide +kernel
  obtain ⟨hdistinct, -, horder⟩ := pair_ordered k y₁ y₂ (Or.inl hsolve)
  exact ⟨hsolve, hdistinct, horder (by decide +kernel)⟩

end QuadraticSolver

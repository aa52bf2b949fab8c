import QuadraticSolver.Proofs.Binary64.SquareRoot
import QuadraticSolver.Proofs.Equation.Folding
import QuadraticSolver.Proofs.Solver.Branch
import QuadraticSolver.Proofs.Solver.Solution

/-!
# What the branch says of the solution

The branch is chosen by one test of the leading coefficients, the formulas test
them again, and the sign of the discriminant is a test of its own. For finite
coefficients the tests cannot disagree: the branch with its discriminant decides
the kind of the solution (`decides_of_solve`). A discriminant that is not finite
is followed by a value that is refused, so the solution that is given had a
finite one.
-/

namespace QuadraticSolver

/-- The kind of the solution is the one that the branch decides. -/
inductive Branch.Decides : Branch → Solution → Prop
  | double {delta x : Binary64} (hfinite : delta.isFinite = true)
      (hzero : |delta.toRat| ≤ tolerance.toRat) : Decides (.second delta) (.single x)
  | pair {delta x₁ x₂ : Binary64} (hfinite : delta.isFinite = true)
      (hpos : tolerance.toRat < delta.toRat) : Decides (.second delta) (.pair x₁ x₂)
  | conjugates {delta re im : Binary64} (hfinite : delta.isFinite = true)
      (hneg : delta.toRat < -tolerance.toRat) : Decides (.second delta) (.conjugates re im)
  | linear {x : Binary64} : Decides .first (.single x)
  | everyNumber : Decides .degenerate .everyNumber
  | noNumber : Decides .degenerate .noNumber

/-- The kind of the solution is the one of the discriminant. -/
structure Solution.DecidedBy (solution : Solution) (delta : Binary64) : Prop where
  finite : delta.isFinite = true
  single : (∃ x, solution = .single x) ↔ |delta.toRat| ≤ tolerance.toRat
  pair : (∃ x₁ x₂, solution = .pair x₁ x₂) ↔ tolerance.toRat < delta.toRat
  conjugates : (∃ re im, solution = .conjugates re im) ↔ delta.toRat < -tolerance.toRat

section Decisions

variable {a b c : Binary64} {k : Coefficients} {solution : Solution}

/-- The formulas of degree two decide by the discriminant. -/
theorem decides_of_second (ha : isNegligible a = false)
    (h : (secondDegreeCandidate a b c).Settled solution) :
    (Branch.second (discriminant a b c)).Decides solution := by
  unfold secondDegreeCandidate at h
  rw [ha, if_neg Bool.false_ne_true] at h
  dsimp only at h
  cases hzero : isNegligible (discriminant a b c) with
  | true =>
    rw [hzero, if_pos rfl] at h
    have hfinite := isFinite_of_isNegligible hzero
    cases h with
    | single hx => exact .double hfinite ((isNegligible_iff hfinite).mp hzero)
  | false =>
    rw [hzero, if_neg Bool.false_ne_true] at h
    -- here nothing is known of the discriminant yet: it is finite because a value made of it is
    split at h
    next hpos =>
      cases h with
      | pair hx₁ hx₂ =>
        have hroot := (Binary64.isNear_add (Binary64.isFinite_of_isFinite_div hx₁.finite)).2.1
        have hfinite := Binary64.isFinite_of_isFinite_sqrt hroot
        exact .pair hfinite (tolerance_lt_of_pos hfinite hzero hpos)
    next hpos =>
      cases h with
      | conjugates hre him =>
        have hquotient := isFinite_abs_iff.mp him.finite
        have hroot := Binary64.isFinite_of_isFinite_sqrt
          (Binary64.isFinite_of_isFinite_div hquotient)
        have hfinite := Binary64.isFinite_neg_iff.mp hroot
        exact .conjugates hfinite (lt_neg_tolerance_of_not_pos hfinite hzero hpos)

/-- The formula of degree one gives one number. -/
theorem decides_of_first (hb : isNegligible b = false)
    (h : (firstDegreeCandidate b c).Settled solution) : Branch.first.Decides solution := by
  unfold firstDegreeCandidate at h
  rw [hb, if_neg Bool.false_ne_true] at h
  cases h with
  | single hx => exact .linear

/-- Without an unknown all numbers solve the equation or none does. -/
theorem decides_of_degenerate (hb : isNegligible b = true)
    (h : (firstDegreeCandidate b c).Settled solution) : Branch.degenerate.Decides solution := by
  unfold firstDegreeCandidate at h
  rw [hb, if_pos rfl] at h
  split at h
  next =>
    cases h
    exact .everyNumber
  next =>
    cases h
    exact .noNumber

/-- **The branch and the solution agree**, whenever the coefficients are finite and solved for. -/
theorem decides_of_solve (hk : k.isFinite = true) (h : solve k = .ok solution) :
    k.branch.Decides solution := by
  have ha : k.a.isFinite = true := k.isFinite_iff.mp hk .square
  have hb : k.b.isFinite = true := k.isFinite_iff.mp hk .linear
  have hsettled : k.candidate.Settled solution := Solution.settled_of_accept h
  have hnegligible_a := isNegligible_eq ha
  have hnegligible_b := isNegligible_eq hb
  unfold Coefficients.candidate at hsettled
  unfold Coefficients.branch at hsettled ⊢
  cases hsa : isSignificant k.a with
  | true =>
    rw [hsa] at hsettled hnegligible_a
    exact decides_of_second hnegligible_a hsettled
  | false =>
    rw [hsa] at hsettled
    cases hsb : isSignificant k.b with
    | true =>
      rw [hsb] at hsettled hnegligible_b
      exact decides_of_first hnegligible_b hsettled
    | false =>
      rw [hsb] at hsettled hnegligible_b
      exact decides_of_degenerate hnegligible_b hsettled

end Decisions

/-! ## What a decision comes to -/

namespace Branch.Decides

variable {delta : Binary64} {solution : Solution}

theorem decidedBy (h : (Branch.second delta).Decides solution) : solution.DecidedBy delta := by
  have htolerance := tolerance_pos
  cases h with
  | double hfinite hzero =>
    obtain ⟨hlow, hhigh⟩ := abs_le.mp hzero
    refine ⟨hfinite, iff_of_true ⟨_, rfl⟩ hzero, ?_, ?_⟩
    · exact iff_of_false nofun (not_lt.mpr hhigh)
    · exact iff_of_false nofun (not_lt.mpr hlow)
  | pair hfinite hpos =>
    refine ⟨hfinite, ?_, iff_of_true ⟨_, _, rfl⟩ hpos, ?_⟩
    · exact iff_of_false nofun (not_le.mpr (hpos.trans_le (le_abs_self _)))
    · exact iff_of_false nofun (by linarith)
  | conjugates hfinite hneg =>
    refine ⟨hfinite, ?_, ?_, iff_of_true ⟨_, _, rfl⟩ hneg⟩
    · exact iff_of_false nofun (not_le.mpr ((lt_neg.mp hneg).trans_le (neg_le_abs _)))
    · exact iff_of_false nofun (by linarith)

theorem exists_single (h : Branch.first.Decides solution) : ∃ x, solution = .single x := by
  cases h
  exact ⟨_, rfl⟩

theorem everyNumber_or_noNumber (h : Branch.degenerate.Decides solution) :
    solution = .everyNumber ∨ solution = .noNumber := by
  cases h
  · exact Or.inl rfl
  · exact Or.inr rfl

end Branch.Decides

namespace Coefficients

variable {k : Coefficients}

/-- The branch is of the second degree where the leading coefficient is beyond the tolerance. -/
theorem exists_branch_eq_second_iff (hk : k.isFinite = true) :
    (∃ delta, k.branch = .second delta) ↔ tolerance.toRat < |k.a.toRat| := by
  have ha : k.a.isFinite = true := k.isFinite_iff.mp hk .square
  rw [← isSignificant_iff ha]
  unfold branch
  cases isSignificant k.a with
  | true => simp
  | false => cases isSignificant k.b <;> simp

theorem branch_eq_second (hk : k.isFinite = true) (ha : tolerance.toRat < |k.a.toRat|) :
    k.branch = .second (discriminant k.a k.b k.c) := by
  have hfinite : k.a.isFinite = true := k.isFinite_iff.mp hk .square
  unfold branch
  rw [if_pos ((isSignificant_iff hfinite).mpr ha)]

end Coefficients

/-! ## The ways of solving -/

section Paths

variable {a b c : Binary64} {k : Coefficients} {solution : Solution}

/-- The branch leaves nothing to the formulas of degree two that they would not do by themselves. -/
theorem solve_eq_solveSecondDegree (ha : k.a.isFinite = true) :
    solve k = solveSecondDegree k.a k.b k.c :=
  congrArg Solution.accept (candidate_eq ha)

theorem solveSecondDegree_eq_solveFirstDegree (ha : isNegligible a = true) :
    solveSecondDegree a b c = solveFirstDegree b c :=
  congrArg Solution.accept (if_pos ha)

/-- Without an unknown there is nothing to check, so nothing is refused. -/
theorem solveFirstDegree_of_isNegligible (hb : isNegligible b = true) :
    solveFirstDegree b c = .ok (if isNegligible c then .everyNumber else .noNumber) := by
  unfold solveFirstDegree firstDegreeCandidate
  rw [if_pos hb]
  cases isNegligible c <;> rfl

/-- An equation of degree two is solved by some numbers, and not by all. -/
theorem ne_degenerate_of_second (ha : isNegligible a = false)
    (h : solveSecondDegree a b c = .ok solution) :
    solution ≠ .everyNumber ∧ solution ≠ .noNumber := by
  have hdecides := decides_of_second ha (Solution.settled_of_accept h)
  cases hdecides <;> exact ⟨nofun, nofun⟩

/-- **The ways of solving follow the same rules**: the solver that chooses by the branch and the
formulas of degree two agree, where the first coefficient is within the tolerance the formula of
degree one agrees with them, and where the first two are, the third alone decides. Beyond the
tolerance there is no degenerate answer. -/
theorem solve_paths (k : Coefficients) (hk : k.isFinite = true) :
    solve k = solveSecondDegree k.a k.b k.c ∧
      (|k.a.toRat| ≤ tolerance.toRat → solve k = solveFirstDegree k.b k.c ∧
        solveSecondDegree k.a k.b k.c = solveFirstDegree k.b k.c) ∧
      (|k.a.toRat| ≤ tolerance.toRat → |k.b.toRat| ≤ tolerance.toRat →
        (∃ solution, solve k = .ok solution) ∧
          (solve k = .ok .everyNumber ↔ |k.c.toRat| ≤ tolerance.toRat) ∧
          (solve k = .ok .noNumber ↔ tolerance.toRat < |k.c.toRat|)) ∧
      (tolerance.toRat < |k.a.toRat| → solve k ≠ .ok .everyNumber ∧ solve k ≠ .ok .noNumber) := by
  have ha : k.a.isFinite = true := k.isFinite_iff.mp hk .square
  have hb : k.b.isFinite = true := k.isFinite_iff.mp hk .linear
  have hc : k.c.isFinite = true := k.isFinite_iff.mp hk .constant
  have hsecond := solve_eq_solveSecondDegree ha
  rw [← not_le, ← not_le, ← isNegligible_iff ha, ← isNegligible_iff hb, ← isNegligible_iff hc]
  refine ⟨hsecond, fun hna => ?_, fun hna hnb => ?_, fun hsa => ?_⟩
  · have hfirst := solveSecondDegree_eq_solveFirstDegree (b := k.b) (c := k.c) hna
    exact ⟨hsecond.trans hfirst, hfirst⟩
  · rw [hsecond, solveSecondDegree_eq_solveFirstDegree hna, solveFirstDegree_of_isNegligible hnb]
    cases isNegligible k.c <;> simp
  · rw [Bool.not_eq_true] at hsa
    rw [hsecond]
    exact ⟨fun h => (ne_degenerate_of_second hsa h).1 rfl,
      fun h => (ne_degenerate_of_second hsa h).2 rfl⟩

/-- At the tolerance itself the first two coefficients count as zero, and the third, one step beyond
it, does not. -/
theorem solve_paths_at_tolerance :
    let c : Binary64 := .finite false ⟨4835703278458518, 992, by decide⟩
    |tolerance.toRat| ≤ tolerance.toRat ∧ |(-tolerance).toRat| ≤ tolerance.toRat ∧
      tolerance.toRat < |c.toRat| ∧
      solve ⟨tolerance, -tolerance, c⟩ = solveSecondDegree tolerance (-tolerance) c ∧
      solve ⟨tolerance, -tolerance, c⟩ = solveFirstDegree (-tolerance) c ∧
      solve ⟨tolerance, -tolerance, c⟩ = .ok .noNumber := by
  intro c
  have ha : |tolerance.toRat| ≤ tolerance.toRat := (abs_of_pos tolerance_pos).le
  have hb : |(-tolerance).toRat| ≤ tolerance.toRat := by
    rw [Binary64.toRat_neg, abs_neg]
    exact ha
  have hc : tolerance.toRat < |c.toRat| := by
    have hstep : tolerance.toRat < c.toRat := by decide +kernel
    exact hstep.trans_le (le_abs_self _)
  have hlaw := solve_paths ⟨tolerance, -tolerance, c⟩ (by decide +kernel)
  dsimp only at hlaw
  obtain ⟨hsecond, hfirst, hdegenerate, -⟩ := hlaw
  exact ⟨ha, hb, hc, hsecond, (hfirst ha).1, (hdegenerate ha hb).2.2.mpr hc⟩

end Paths

end QuadraticSolver

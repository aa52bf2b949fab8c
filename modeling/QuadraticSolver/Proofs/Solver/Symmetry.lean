import QuadraticSolver.Proofs.Solver.Branch
import QuadraticSolver.Proofs.Solver.Solution

/-!
# The signs of the coefficients

An equation with all its signs changed is the same equation, and one with the
sign of `b` changed has the opposite roots. The solver keeps both laws to the last
bit (`solve_signs`): its formulas are products, quotients and one sum, and of
these only the sum is not odd, by the sign of an exact zero. The check that ends
every solution removes that sign (`accept_congr`).

The roots of a pair change places with the sign of `a`, and they change places and
signs with the sign of `b`. Which of them is checked first does not show: there is
one refusal for all values that are not finite.
-/

namespace QuadraticSolver

open Binary64

/-- The opposite, where the one of zero is written without a sign. -/
def Binary64.opposite (x : Binary64) : Binary64 :=
  (-x).unsignZero

namespace Solution

/-- The solution with each of its values changed. -/
def map (f : Binary64 → Binary64) : Solution → Solution
  | everyNumber => everyNumber
  | noNumber => noNumber
  | single x => single (f x)
  | pair x₁ x₂ => pair (f x₁) (f x₂)
  | conjugates re im => conjugates (f re) (f im)

/-- The solution with its two real numbers in the other order. -/
def swapped : Solution → Solution
  | everyNumber => everyNumber
  | noNumber => noNumber
  | single x => single x
  | pair x₁ x₂ => pair x₂ x₁
  | conjugates re im => conjugates re im

/-- The opposites of what solves the equation, in the order of the formulas. -/
def mirrored : Solution → Solution
  | everyNumber => everyNumber
  | noNumber => noNumber
  | single x => single x.opposite
  | pair x₁ x₂ => pair x₂.opposite x₁.opposite
  | conjugates re im => conjugates re.opposite im

/-! ## The check -/

variable {x : Binary64} {s t : Solution}

theorem values_map (f : Binary64 → Binary64) (s : Solution) :
    (s.map f).values = s.values.map f := by
  cases s <;> rfl

/-- Two values pass together or are refused for the one reason. -/
theorem mapError_settle_two (make : Binary64 → Binary64 → Solution) (x y : Binary64) :
    (do let x ← x.settle; let y ← y.settle; return make x y : Except Binary64 Solution).mapError
        (fun _ => EquationError.malformed .nonFinite) =
      if x.isFinite && y.isFinite then .ok (make x.unsignZero y.unsignZero)
      else .error (.malformed .nonFinite) := by
  cases hx : x.isFinite with
  | false => simp [settle_eq_error hx, bind, Except.bind, Except.mapError]
  | true =>
    cases hy : y.isFinite with
    | false => simp [settle_eq_ok hx, settle_eq_error hy, bind, Except.bind, Except.mapError]
    | true =>
      simp [settle_eq_ok hx, settle_eq_ok hy, bind, Except.bind, pure, Except.pure, Except.mapError]

/-- **What the check does**: it takes the sign off the zeros, or it refuses. -/
theorem accept_eq (s : Solution) :
    s.accept = if s.values.all Binary64.isFinite then .ok (s.map unsignZero)
      else .error (.malformed .nonFinite) := by
  cases s with
  | everyNumber => rfl
  | noNumber => rfl
  | single x =>
    cases hx : x.isFinite with
    | false =>
      simp [accept, settle, values, settle_eq_error hx, bind, Except.bind, Except.mapError, hx]
    | true => simp [accept, settle, values, map, settle_eq_ok hx, Except.mapError, hx]
  | pair x₁ x₂ =>
    refine (mapError_settle_two pair x₁ x₂).trans ?_
    rw [← Bool.and_true x₂.isFinite]
    rfl
  | conjugates re im =>
    refine (mapError_settle_two conjugates re im).trans ?_
    rw [← Bool.and_true im.isFinite]
    rfl

/-- Solutions that agree up to the signs of zeros pass as the same. -/
theorem accept_congr (h : s.map unsignZero = t.map unsignZero) : s.accept = t.accept := by
  have hvalues : ∀ s : Solution,
      s.values.all Binary64.isFinite = (s.map unsignZero).values.all Binary64.isFinite := by
    intro s
    simp [values_map, Function.comp_def]
  rw [accept_eq, accept_eq, hvalues s, hvalues t, h]

theorem accept_swapped (s : Solution) : s.swapped.accept = s.accept.map swapped := by
  have hvalues : s.swapped.values.all Binary64.isFinite = s.values.all Binary64.isFinite := by
    cases s with
    | pair x₁ x₂ => simp [swapped, values, Bool.and_comm]
    | _ => rfl
  rw [accept_eq, accept_eq, hvalues]
  split
  · cases s <;> rfl
  · rfl

theorem accept_mirrored (s : Solution) : s.mirrored.accept = s.accept.map mirrored := by
  have hopposite : ∀ x : Binary64, x.opposite.unsignZero = x.unsignZero.opposite := by
    intro x
    rw [opposite, opposite, unsignZero_unsignZero]
    exact unsignZero_neg_congr x.unsignZero_unsignZero.symm
  have hvalues : s.mirrored.values.all Binary64.isFinite = s.values.all Binary64.isFinite := by
    have hfinite : ∀ x : Binary64, x.opposite.isFinite = x.isFinite := by
      intro x
      rw [opposite, isFinite_unsignZero]
      exact isFinite_neg x
    cases s <;> simp [mirrored, values, hfinite, Bool.and_comm]
  rw [accept_eq, accept_eq, hvalues]
  split
  · cases s <;> simp [mirrored, map, hopposite, Except.map]
  · rfl

end Solution

/-! ## The formulas -/

section Formulas

variable (a b c u r d : Binary64)

theorem isSignificant_neg : isSignificant (-a) = isSignificant a :=
  congrArg tolerance.lt (abs_neg a)

theorem isNegligible_neg : isNegligible (-a) = isNegligible a :=
  congrArg (Binary64.le · tolerance) (abs_neg a)

theorem discriminant_neg_linear : discriminant a (-b) c = discriminant a b c := by
  unfold discriminant
  rw [Binary64.neg_mul, Binary64.mul_neg, Binary64.neg_neg_eq]

/-- The terms of the discriminant are products of two coefficients. -/
theorem discriminant_neg : discriminant (-a) (-b) (-c) = discriminant a b c := by
  rw [discriminant_neg_linear]
  unfold discriminant
  rw [Binary64.mul_neg (.ofInt 4), Binary64.neg_mul, Binary64.mul_neg, Binary64.neg_neg_eq]

/-- The numerators of a pair are opposites, when the sign of `b` is changed. -/
theorem unsignZero_neg_add_div : ((-u + r) / d).unsignZero = (-((u - r) / d)).unsignZero := by
  have hsum : (-u + r).unsignZero = (-(u - r)).unsignZero := by
    have hopposites := unsignZero_neg_add_neg u (-r)
    rw [r.neg_neg_eq] at hopposites
    exact hopposites
  rw [← Binary64.neg_div]
  exact unsignZero_div_congr hsum d

theorem unsignZero_neg_sub_div : ((-u - r) / d).unsignZero = (-((u + r) / d)).unsignZero := by
  rw [← Binary64.neg_div]
  exact unsignZero_div_congr (unsignZero_neg_add_neg u r) d

theorem firstDegreeCandidate_neg :
    firstDegreeCandidate (-b) (-c) = firstDegreeCandidate b c := by
  unfold firstDegreeCandidate
  rw [isNegligible_neg, isNegligible_neg, Binary64.neg_div_neg]

theorem swapped_firstDegreeCandidate :
    (firstDegreeCandidate b c).swapped = firstDegreeCandidate b c := by
  unfold firstDegreeCandidate
  split
  · split <;> rfl
  · rfl

theorem firstDegreeCandidate_neg_linear :
    (firstDegreeCandidate (-b) c).map unsignZero =
      (firstDegreeCandidate b c).mirrored.map unsignZero := by
  unfold firstDegreeCandidate
  rw [isNegligible_neg, Binary64.div_neg]
  split
  · split <;> rfl
  · show Solution.single _ = Solution.single _
    rw [opposite, unsignZero_unsignZero]

/-- **All signs changed**: the divisor changes its sign, and each numerator takes the place of the
other's opposite. -/
theorem secondDegreeCandidate_neg :
    (secondDegreeCandidate (-a) (-b) (-c)).map unsignZero =
      (secondDegreeCandidate a b c).swapped.map unsignZero := by
  have hdivisor : ∀ n t : Binary64, -(n / -t) = n / t := fun n t => by
    rw [Binary64.div_neg, Binary64.neg_neg_eq]
  unfold secondDegreeCandidate
  rw [isNegligible_neg, discriminant_neg, firstDegreeCandidate_neg, Binary64.mul_neg]
  dsimp only
  split
  · rw [swapped_firstDegreeCandidate]
  · split
    · rw [Binary64.neg_div_neg]
      rfl
    · split
      · show Solution.pair _ _ = Solution.pair _ _
        rw [unsignZero_neg_add_div, unsignZero_neg_sub_div, hdivisor, hdivisor]
      · show Solution.conjugates _ _ = Solution.conjugates _ _
        have himaginary : ∀ n t : Binary64, (n / -t).abs = (n / t).abs := fun n t => by
          rw [Binary64.div_neg]
          exact abs_neg _
        rw [Binary64.neg_div_neg, himaginary]

/-- **The sign of `b` changed**: each numerator becomes the opposite of the other. -/
theorem secondDegreeCandidate_neg_linear :
    (secondDegreeCandidate a (-b) c).map unsignZero =
      (secondDegreeCandidate a b c).mirrored.map unsignZero := by
  unfold secondDegreeCandidate
  rw [discriminant_neg_linear]
  dsimp only
  split
  · exact firstDegreeCandidate_neg_linear b c
  · split
    · show Solution.single _ = Solution.single _
      rw [opposite, unsignZero_unsignZero, Binary64.neg_div]
    · split
      · show Solution.pair _ _ = Solution.pair _ _
        rw [opposite, opposite, unsignZero_unsignZero, unsignZero_unsignZero,
          unsignZero_neg_add_div, unsignZero_neg_sub_div]
      · show Solution.conjugates _ _ = Solution.conjugates _ _
        rw [opposite, unsignZero_unsignZero, Binary64.neg_div]

/-! ## The branches -/

theorem candidate_neg :
    (Coefficients.candidate ⟨-a, -b, -c⟩).map unsignZero =
      (Coefficients.candidate ⟨a, b, c⟩).swapped.map unsignZero := by
  rw [candidate_eq_ite, candidate_eq_ite, isSignificant_neg]
  split
  · exact secondDegreeCandidate_neg a b c
  · rw [firstDegreeCandidate_neg, swapped_firstDegreeCandidate]

theorem candidate_neg_linear :
    (Coefficients.candidate ⟨a, -b, c⟩).map unsignZero =
      (Coefficients.candidate ⟨a, b, c⟩).mirrored.map unsignZero := by
  rw [candidate_eq_ite, candidate_eq_ite]
  split
  · exact secondDegreeCandidate_neg_linear a b c
  · exact firstDegreeCandidate_neg_linear b c

end Formulas

/-! ## The law -/

/-- **The signs of the coefficients**, for all coefficients and to the last bit. With all signs
changed the answer is the same, a pair in the other order; with the sign of `b` changed it is the
opposite one. -/
theorem solve_signs (a b c : Binary64) :
    solve ⟨-a, -b, -c⟩ = (solve ⟨a, b, c⟩).map Solution.swapped ∧
      solve ⟨a, -b, c⟩ = (solve ⟨a, b, c⟩).map Solution.mirrored := by
  unfold solve
  constructor
  · rw [← Solution.accept_swapped]
    exact Solution.accept_congr (candidate_neg a b c)
  · rw [← Solution.accept_mirrored]
    exact Solution.accept_congr (candidate_neg_linear a b c)

end QuadraticSolver

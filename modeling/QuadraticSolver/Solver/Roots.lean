import QuadraticSolver.Equation.Error
import QuadraticSolver.Solver.Branch
import QuadraticSolver.Solver.Solution

/-!
# Closed formulas for the roots

Each degree has its formulas, evaluated in the order that they are written in,
with every operation rounded. They give a *candidate*; `Solution.settle` then
refuses a candidate with a value that is not finite. `solve` starts from the
branch of the coefficients, `solveSecondDegree` and `solveFirstDegree` from
the formulas of one degree, which fall back to the degree below when their
leading coefficient counts as zero.
-/

namespace QuadraticSolver

/-- The candidate for `b·x + c = 0`. -/
def firstDegreeCandidate (b c : Binary64) : Solution :=
  if isNegligible b then
    if isNegligible c then .everyNumber else .noNumber
  else .single (-c / b)

/-- The candidate for `a·x² + b·x + c = 0`. A discriminant that counts as zero
gives one root; one that is neither that nor positive gives two complex ones. -/
def secondDegreeCandidate (a b c : Binary64) : Solution :=
  if isNegligible a then firstDegreeCandidate b c
  else
    let delta := discriminant a b c
    let twice := Binary64.ofInt 2 * a
    if isNegligible delta then .single (-b / twice)
    else if (Binary64.zero false).lt delta then
      .pair ((-b + delta.sqrt) / twice) ((-b - delta.sqrt) / twice)
    else .conjugates (-b / twice) ((-delta).sqrt / twice).abs

/-- The candidate of the branch that the coefficients fall into. -/
def Coefficients.candidate (k : Coefficients) : Solution :=
  match k.branch with
  | .second _ => secondDegreeCandidate k.a k.b k.c
  | .first => firstDegreeCandidate k.b k.c
  | .degenerate => firstDegreeCandidate k.b k.c

/-- A candidate as an answer: a refused value makes the equation malformed. -/
def Solution.accept (candidate : Solution) : Except EquationError Solution :=
  candidate.settle.mapError fun _ => .malformed .nonFinite

/-- The solution of `b·x + c = 0`. -/
def solveFirstDegree (b c : Binary64) : Except EquationError Solution :=
  (firstDegreeCandidate b c).accept

/-- The solution of `a·x² + b·x + c = 0` by the formulas of degree two. -/
def solveSecondDegree (a b c : Binary64) : Except EquationError Solution :=
  (secondDegreeCandidate a b c).accept

/-- The solution of `a·x² + b·x + c = 0` by the branch that it falls into. -/
def solve (k : Coefficients) : Except EquationError Solution :=
  k.candidate.accept

end QuadraticSolver

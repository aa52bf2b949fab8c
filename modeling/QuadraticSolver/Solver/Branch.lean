import QuadraticSolver.Equation.Coefficients

/-!
# The branch an equation falls into

One absolute tolerance decides which coefficients count as zero. The branch of
an equation is the degree that is left: two with its discriminant, one, or
none.
-/

namespace QuadraticSolver

/-- At most this far from zero counts as zero: the number nearest to `10 ^ -9`. -/
def tolerance : Binary64 :=
  Binary64.round false (mkRat 1 1000000000)

/-- Within the tolerance of zero. "Not a number" is not. -/
def isNegligible (x : Binary64) : Bool :=
  x.abs.le tolerance

/-- Beyond the tolerance. "Not a number" is not beyond it either. -/
def isSignificant (x : Binary64) : Bool :=
  tolerance.lt x.abs

/-- The discriminant `b² − 4ac`, as `b·b − (4·a)·c` with each operation rounded. -/
def discriminant (a b c : Binary64) : Binary64 :=
  b * b - .ofInt 4 * a * c

/-- The degree that counts. -/
inductive Branch where
  | second (discriminant : Binary64)
  | first
  | degenerate
  deriving DecidableEq

/-- The branch of an equation. -/
def Coefficients.branch (k : Coefficients) : Branch :=
  if isSignificant k.a then .second (discriminant k.a k.b k.c)
  else if isSignificant k.b then .first
  else .degenerate

end QuadraticSolver

import QuadraticSolver.Equation.Term

/-!
# The three coefficients

Every equation comes down to `a·x² + b·x + c = 0`. The coefficients are running
sums, one per degree: the terms of the left side in order, then the opposites
of the terms of the right side in order, each addition rounded. The order is
part of the result, because rounded addition is not associative and an
overflow on the way stays.
-/

namespace QuadraticSolver

/-- The coefficients of `a·x² + b·x + c = 0`. -/
structure Coefficients where
  a : Binary64
  b : Binary64
  c : Binary64
  deriving DecidableEq

namespace Coefficients

/-- The coefficients of an equation without terms. -/
def zero : Coefficients :=
  ⟨.zero false, .zero false, .zero false⟩

/-- One more term on the left. -/
def add (k : Coefficients) (t : Term) : Coefficients :=
  match t.degree with
  | .square => { k with a := k.a + t.coefficient }
  | .linear => { k with b := k.b + t.coefficient }
  | .constant => { k with c := k.c + t.coefficient }

/-- The coefficients of a left side and a right side. -/
def ofSides (left right : List Term) : Coefficients :=
  (left ++ right.map Term.opposite).foldl add zero

/-- All three are finite numbers. -/
def isFinite (k : Coefficients) : Bool :=
  k.a.isFinite && k.b.isFinite && k.c.isFinite

end Coefficients

end QuadraticSolver

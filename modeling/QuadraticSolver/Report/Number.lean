import QuadraticSolver.Decimal.Fixed
import QuadraticSolver.Report.Fraction

/-!
# Numbers as shown

A real root is shown exactly where that is possible: an integer as an integer,
a simple fraction as a fraction with its rounded value behind it, and any
other number as its rounded value alone. The two parts of a complex root are
shown as integers or rounded values, without fractions.
-/

namespace QuadraticSolver.Report

/-- The text of an integer. -/
def integerText (n : Int) : String :=
  (Decimal.ofInt n).text

/-- A real number, rounded to so many places where it is not shown exactly. -/
def numberText (places : Places) (x : Binary64) : String :=
  match simpleFraction? x with
  | some r =>
    if r.den = 1 then integerText r.num
    else integerText r.num ++ "/" ++ integerText r.den ++ " ≈ " ++ x.fixedText places
  | none => x.fixedText places

/-- A part of a complex number. -/
def partText (places : Places) (x : Binary64) : String :=
  match simpleFraction? x with
  | some r => if r.den = 1 then integerText r.num else x.fixedText places
  | none => x.fixedText places

end QuadraticSolver.Report

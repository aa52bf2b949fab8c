import QuadraticSolver.Report.Number
import QuadraticSolver.Solver.Solution

/-!
# The message for a solution

One sentence that names the roots by the unknown of the equation, numbered
where there are two.
-/

namespace QuadraticSolver.Report

/-- The sentence that states a solution. -/
def message (solution : Solution) (unknown : Char) (places : Places) : String :=
  let v := String.ofList [unknown]
  match solution with
  | .everyNumber => "L’équation a une infinité de solutions."
  | .noNumber => "L’équation n’a pas de solution."
  | .single x => "Une solution réelle : " ++ v ++ " = " ++ numberText places x
  | .pair x₁ x₂ =>
    "Deux solutions réelles : " ++ v ++ "1 = " ++ numberText places x₁ ++ ", " ++
      v ++ "2 = " ++ numberText places x₂
  | .conjugates re im =>
    "Deux solutions complexes : " ++ v ++ "1 = " ++ partText places re ++ " + " ++
      partText places im ++ "i, " ++ v ++ "2 = " ++ partText places re ++ " - " ++
      partText places im ++ "i"

end QuadraticSolver.Report

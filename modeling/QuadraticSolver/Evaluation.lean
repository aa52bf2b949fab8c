import QuadraticSolver.Report.Derivation
import QuadraticSolver.Report.Message
import QuadraticSolver.Solver.Roots

/-!
# From the text of an equation to its answer

`resolve` gives the numbers, `evaluate` the numbers with the message and the
derivation that show them. Both bring the equation to its coefficients and
solve it; `traceEvaluate` is the same with its journal, and `evaluate` is its
outcome. `evaluate?` may be asked for any number of places.
-/

namespace QuadraticSolver

/-- The answer to an equation in numbers. -/
structure Resolution where
  unknown : Char
  coefficients : Coefficients
  solution : Solution
  deriving DecidableEq

/-- The answer to an equation as shown. -/
structure Evaluation where
  message : String
  solution : Solution
  derivation : Derivation
  deriving DecidableEq

/-- Brings an equation to its coefficients and solves it. -/
def resolve (equation : String) : Except EquationError Resolution := do
  let n ← normalise equation
  let solution ← solve n.coefficients
  return ⟨n.unknown, n.coefficients, solution⟩

/-- Solves for the coefficients, recording the branch and a value that is refused. -/
def traceSolve (k : Coefficients) : Traced Solution := do
  Traced.write (.branch k.branch k)
  match k.candidate.settle with
  | .ok solution => return solution
  | .error value => do
    Traced.write (.refused value)
    Traced.fail (.malformed .nonFinite)

/-- An equation that was brought to its coefficients and its solution, as shown with so many
places. -/
def Evaluation.shown (places : Places) (n : Normalisation) (solution : Solution) : Evaluation where
  message := Report.message solution n.unknown places
  solution := solution
  derivation := Derivation.ofNormalisation places n

/-- The answer to an equation as shown with so many places, with its journal. -/
def traceEvaluate (equation : String) (places : Places) : Traced Evaluation := do
  let n ← traceNormalise equation
  let solution ← traceSolve n.coefficients
  return .shown places n solution

/-- The answer to an equation as shown with so many places. -/
def evaluate (equation : String) (places : Places) : Except EquationError Evaluation :=
  (traceEvaluate equation places).outcome

/-- What comes of an equation when any number of places is asked for. It is refused before anything
is written. The coefficients of an equation that is solved are always written, so with more places
than a number can be written with the program stops there, and there is no answer. -/
def evaluate? (equation : String) (places : Nat) : Except EquationError (Option Evaluation) := do
  let n ← normalise equation
  let solution ← solve n.coefficients
  return (Places.ofNat? places).map fun places => .shown places n solution

/-- Recording does not change what the solver answers. -/
theorem outcome_traceSolve (k : Coefficients) : (traceSolve k).outcome = solve k := by
  unfold traceSolve solve Solution.accept
  rw [Traced.outcome_bind]
  cases k.candidate.settle <;> rfl

end QuadraticSolver

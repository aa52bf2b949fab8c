import QuadraticSolver.Decimal.Fixed
import QuadraticSolver.Equation.Normalisation
import QuadraticSolver.Solver.Branch

/-!
# Derivations

A derivation shows how an equation was understood: its unknown, the tokens of
its two sides, its coefficients and the branch that they fall into. The note
is the same in all of them.
-/

namespace QuadraticSolver

/-- The six texts of a derivation. -/
structure Derivation where
  unknown : String
  left : String
  right : String
  coefficients : String
  branch : String
  note : String
  deriving DecidableEq

namespace Derivation

/-- The derivation of nothing. -/
def empty : Derivation :=
  ⟨"", "", "", "", "", ""⟩

/-- The three coefficients in words. -/
def coefficientsText (places : Places) (k : Coefficients) : String :=
  "a = " ++ k.a.fixedText places ++ ", b = " ++ k.b.fixedText places ++
    ", c = " ++ k.c.fixedText places

/-- The branch in words. -/
def branchText (places : Places) : Branch → String
  | .second delta => "second degré, Δ = b² − 4ac = " ++ delta.fixedText places
  | .first => "premier degré, x = −c/b"
  | .degenerate => "dégénérée (a = b = 0), comparaison de c à 0"

/-- The stages that every derivation goes through. -/
def stages : String :=
  "Pipeline: '=' → variable → jetons (gauche, droite inversée) → (a, b, c) → " ++
    "tri ε = 1e-9 → solution."

/-- The derivation of an equation that was brought to its coefficients. -/
def ofNormalisation (places : Places) (n : Normalisation) : Derivation where
  unknown := String.ofList [n.unknown]
  left := Token.listText n.unknown (Token.sequence n.left)
  right := Token.listText n.unknown (Token.sequence n.right)
  coefficients := coefficientsText places n.coefficients
  branch := branchText places n.coefficients.branch
  note := stages

end Derivation

end QuadraticSolver

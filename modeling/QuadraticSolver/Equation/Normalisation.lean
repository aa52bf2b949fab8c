import QuadraticSolver.Equation.Lexer
import QuadraticSolver.Journal.Traced

/-!
# Bringing an equation to its coefficients

The checks come in a fixed order: exactly one equals sign, an unknown, a left
side that reads, a right side that reads, finite coefficients. The first that
fails is the answer. Blanks are taken out before anything else, also within
numbers.
-/

namespace QuadraticSolver

/-- An equation read and summed up. -/
structure Normalisation where
  unknown : Char
  left : List Term
  right : List Term
  coefficients : Coefficients
  deriving DecidableEq

/-- The text before the first equals sign. -/
def leftSide (s : List Char) : List Char :=
  s.takeWhile (· != '=')

/-- The text behind the first equals sign. -/
def rightSide (s : List Char) : List Char :=
  (s.dropWhile (· != '=')).drop 1

/-- Reads a side and records its tokens. -/
def traceTerms (unknown : Char) (side : List Char) : Traced (List Term) := do
  let ts ← Traced.ofExcept (terms unknown side)
  Traced.write (.side side unknown ts)
  return ts

/-- Checks that the coefficients are finite, and records what they are either way. -/
def traceCoefficients (equation : String) (unknown : Char) (k : Coefficients) : Traced Unit :=
  if k.isFinite then Traced.write (.normalised equation unknown k)
  else do
    Traced.write (.overflow equation k)
    Traced.fail (.malformed .nonFinite)

/-- The two sides of an equation without blanks, once its unknown is known. -/
def traceSides (equation : String) (s : List Char) (unknown : Char) : Traced Normalisation := do
  let left ← traceTerms unknown (leftSide s)
  let right ← traceTerms unknown (rightSide s)
  let k := Coefficients.ofSides left right
  traceCoefficients equation unknown k
  return ⟨unknown, left, right, k⟩

/-- Reads an equation and sums it up, keeping a journal. -/
def traceNormalise (equation : String) : Traced Normalisation :=
  let s := Text.compact equation.toList
  if s.count '=' = 1 then
    match unknown? s with
    | some unknown => traceSides equation s unknown
    | none => Traced.fail .noUnknown
  else Traced.fail (.malformed (.equalsSigns (s.count '=')))

/-- Reads an equation and sums it up. -/
def normalise (equation : String) : Except EquationError Normalisation :=
  (traceNormalise equation).outcome

end QuadraticSolver

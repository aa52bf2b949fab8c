import QuadraticSolver.Binary64.Arithmetic
import QuadraticSolver.Decimal.Shortest

/-!
# Terms and tokens

A side of an equation is a sum of terms, each a coefficient with its sign and
a degree. The tokens of a side are its terms in order and then one mark for
the end; they are what a derivation shows, so they have a text.
-/

namespace QuadraticSolver

/-- The power of the unknown in a term. -/
inductive Degree where
  | constant
  | linear
  | square
  deriving DecidableEq

/-- One term of a side. -/
structure Term where
  degree : Degree
  coefficient : Binary64
  deriving DecidableEq

/-- The term with the opposite sign, as it stands on the other side. -/
def Term.opposite (t : Term) : Term :=
  { t with coefficient := -t.coefficient }

/-- One item of a side as shown. -/
inductive Token where
  | term (t : Term)
  | finish
  deriving DecidableEq

namespace Token

/-- The tokens of a side: its terms, then the mark of the end. -/
def sequence (terms : List Term) : List Token :=
  terms.map term ++ [finish]

/-- What stands behind the coefficient of a term. -/
def powerMark (unknown : Char) : Degree → List Char
  | .constant => []
  | .linear => [unknown]
  | .square => [unknown, '²']

/-- The characters of a token, in brackets. -/
def characters (unknown : Char) : Token → List Char
  | term t => '[' :: t.coefficient.shortest ++ powerMark unknown t.degree ++ [']']
  | finish => ['[', 'f', 'i', 'n', ']']

/-- The text of a list of tokens, a space between two of them. -/
def listText (unknown : Char) (tokens : List Token) : String :=
  String.ofList (List.intercalate [' '] (tokens.map (characters unknown)))

end Token

@[simp]
theorem Term.opposite_opposite (t : Term) : t.opposite.opposite = t := by
  cases t
  exact congrArg _ (Binary64.neg_neg _)

end QuadraticSolver

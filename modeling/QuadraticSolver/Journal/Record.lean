import QuadraticSolver.Solver.Branch
import QuadraticSolver.Text.Blank

/-!
# Records

What the pipeline writes down on its way. A record is a value that holds what
happened; its level and its wording are functions of it.

Numbers stand in two forms: in running text by their shortest numeral, and
inside a structure in the form of `Binary64.recordText`, where an integer has
a fraction of `.0`. Texts stand between double quotes, with escapes for what
cannot stand there as it is.
-/

namespace QuadraticSolver

/-- How much a record matters, from the least. -/
inductive Level where
  | trace
  | debug
  | warning
  deriving DecidableEq

/-- The name of a level. -/
def Level.name : Level → String
  | trace => "TRACE"
  | debug => "DEBUG"
  | warning => "WARN"

/-- One thing that happened. -/
inductive Record where
  /-- A side was read. -/
  | side (text : List Char) (unknown : Char) (terms : List Term)
  /-- The coefficients of an equation are not all finite. -/
  | overflow (equation : String) (coefficients : Coefficients)
  /-- An equation was brought to its coefficients. -/
  | normalised (equation : String) (unknown : Char) (coefficients : Coefficients)
  /-- The coefficients were found to be of a branch. -/
  | branch (branch : Branch) (coefficients : Coefficients)
  /-- A value of a candidate is not finite. -/
  | refused (value : Binary64)
  deriving DecidableEq

/-- Coefficients as a structure with named fields. -/
def Coefficients.recordText (k : Coefficients) : String :=
  "Coefficients \x7b a: " ++ k.a.recordText ++ ", b: " ++ k.b.recordText ++
    ", c: " ++ k.c.recordText ++ " \x7d"

/-- A branch by its name, with its discriminant if it has one. -/
def Branch.recordText : Branch → String
  | second delta => "SecondDegre \x7b delta: " ++ delta.recordText ++ " \x7d"
  | first => "PremierDegre"
  | degenerate => "Degeneree"

namespace Record

/-- The character is seen as it is: it is no control character, and no blank but the space. Texts
that are recorded hold no other characters that would have to be told from these. -/
def isSeen (c : Char) : Bool :=
  c == ' ' || !(c.toNat < 32 || (127 ≤ c.toNat && c.toNat < 160) || Text.isBlank c)

/-- The character as it stands between double quotes: the quote, the backslash and four control
characters by their letters, and what is not seen by its code point. -/
def escaped : Char → List Char
  | '\x22' => ['\\', '\x22']
  | '\\' => ['\\', '\\']
  | '\t' => ['\\', 't']
  | '\n' => ['\\', 'n']
  | '\r' => ['\\', 'r']
  | '\x00' => ['\\', '0']
  | c =>
    if isSeen c then [c]
    else ['\\', 'u', '\x7b'] ++ Nat.toDigits 16 c.toNat ++ ['\x7d']

/-- A text between double quotes. -/
def quoted (s : String) : String :=
  "\"" ++ String.ofList (s.toList.flatMap escaped) ++ "\""

/-- How much the record matters: what was read least, a loss of the result most. -/
def level : Record → Level
  | side _ _ _ => .trace
  | overflow _ _ => .warning
  | normalised _ _ _ => .debug
  | branch _ _ => .debug
  | refused _ => .warning

/-- The record in words. -/
def message : Record → String
  | side text unknown terms =>
    "jetons(" ++ quoted (String.ofList text) ++ ") = " ++
      Token.listText unknown (Token.sequence terms)
  | overflow equation k =>
    "coefficients non finis pour " ++ quoted equation ++ ": " ++ k.recordText
  | normalised equation unknown k =>
    "normalisé " ++ quoted equation ++ " -> a=" ++ k.a.shortestText ++ ", b=" ++
      k.b.shortestText ++ ", c=" ++ k.c.shortestText ++ " (variable '" ++
      String.ofList [unknown] ++ "')"
  | branch b k => "branche " ++ b.recordText ++ " pour " ++ k.recordText
  | refused value => "valeur non finie rejetée: " ++ value.shortestText

end Record

end QuadraticSolver

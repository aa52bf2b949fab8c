/-!
# Why an equation is refused

There are two kinds of refusal: the text names no unknown, or it is malformed.
A malformation says what is wrong; `EquationError.message` is the one place
that puts it into words.
-/

namespace QuadraticSolver

/-- What is wrong with a malformed equation. -/
inductive Malformation where
  /-- The number of equals signs, which is not one. -/
  | equalsSigns (count : Nat)
  /-- A run of digits and points that is no finite number. -/
  | coefficient (text : String)
  /-- A character where no term can hold it. -/
  | unexpected (character : Char)
  /-- A sign with neither a number nor the unknown after it. -/
  | loneSign
  /-- A coefficient or a solution past the finite numbers. -/
  | nonFinite
  deriving DecidableEq

/-- Why an equation has no answer. -/
inductive EquationError where
  | noUnknown
  | malformed (reason : Malformation)
  deriving DecidableEq

/-- The two kinds of refusal, without their details. -/
inductive ErrorKind where
  | noUnknown
  | malformed
  deriving DecidableEq

/-- The details of a malformation in words. -/
def Malformation.message : Malformation → String
  | equalsSigns count => "il faut exactement un signe '=', trouvé " ++ count.repr
  | coefficient text => "coefficient invalide: '" ++ text ++ "'"
  | unexpected character => "caractère inattendu: '" ++ String.ofList [character] ++ "'"
  | loneSign => "signe isolé sans nombre ni variable"
  | nonFinite => "résultat non fini (coefficients hors domaine)"

namespace EquationError

/-- The refusal in words. -/
def message : EquationError → String
  | noUnknown => "Aucune variable trouvée dans l’équation."
  | malformed reason => "Équation non valide : " ++ reason.message

/-- The kind of a refusal. -/
def kind : EquationError → ErrorKind
  | noUnknown => .noUnknown
  | malformed _ => .malformed

end EquationError

end QuadraticSolver

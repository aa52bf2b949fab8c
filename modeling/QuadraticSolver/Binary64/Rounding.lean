import QuadraticSolver.Binary64.Basic
import QuadraticSolver.Exact.HalfEven

/-!
# Rounding an exact value to the format

Every operation of the format is one exact result followed by one rounding,
and this module is that rounding. `Magnitude.nearest?` takes a quotient of
whole numbers of units, finds the least shift at which the quotient has at
most 53 bits before the point, and rounds the mantissa there to the nearest
integer, ties to even. A mantissa that carries into a 54th bit moves to the
next shift; a shift past the greatest one is an overflow, which the format
answers with an infinity.
-/

namespace QuadraticSolver

/-- The magnitude with these fields, if they are canonical. -/
def Magnitude.ofFields? (mantissa shift : Nat) : Option Magnitude :=
  if h : Canonical mantissa shift then some ⟨mantissa, shift, h⟩ else none

/-- The magnitude nearest to `num / den` units, a tie going to the even
mantissa; nothing if that is past the greatest magnitude. -/
def Magnitude.nearest? (num den : Nat) : Option Magnitude :=
  let shift := (num / den).log2 - 52
  let mantissa := halfEven num (den <<< shift)
  if mantissa = 9007199254740992 then ofFields? 4503599627370496 (shift + 1)
  else ofFields? mantissa shift

namespace Binary64

/-- The number of the given sign nearest to `num / den` units. -/
def ofUnits (negative : Bool) (num den : Nat) : Binary64 :=
  match Magnitude.nearest? num den with
  | some m => finite negative m
  | none => infinity negative

/-- The number nearest to an exact value. A value that is not zero keeps its
sign, even where it is too small to stay apart from zero; an exact zero takes
the sign that the caller's operation lays down. -/
def round (negativeZero : Bool) (x : Rat) : Binary64 :=
  ofUnits (if x = 0 then negativeZero else decide (x < 0)) (x.num.natAbs <<< 1074) x.den

/-- The number nearest to an integer. -/
def ofInt (n : Int) : Binary64 :=
  round false n

end Binary64

end QuadraticSolver

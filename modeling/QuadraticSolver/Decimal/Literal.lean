import QuadraticSolver.Binary64.Rounding

/-!
# Reading numerals

A numeral is an optional sign, digits with at most one point among or around
them, at least one digit, and an optional power of ten with a sign of its own.
Reading is in two steps: the text gives a `Literal`, an exact decimal value of
any size, and the literal is rounded once to the nearest number of the format.

The size of a literal is judged by counting its digits before any power of ten
is formed, so a power of any length costs no more than its own digits.
-/

namespace QuadraticSolver

/-- An exact decimal value `± significand · 10 ^ exponent`. -/
structure Literal where
  negative : Bool
  significand : Nat
  exponent : Int
  deriving DecidableEq

namespace Literal

/-! ## The grammar -/

/-- Takes an optional sign off the front; the flag is set by a minus. -/
def takeSign : List Char → Bool × List Char
  | '-' :: rest => (true, rest)
  | '+' :: rest => (false, rest)
  | s => (false, s)

/-- The digits at the front, and the rest. -/
def takeDigits (s : List Char) : List Char × List Char :=
  (s.takeWhile Char.isDigit, s.dropWhile Char.isDigit)

/-- The digits after a point at the front, if there is one, and the rest. -/
def takeFraction : List Char → List Char × List Char
  | '.' :: rest => takeDigits rest
  | s => ([], s)

/-- The power of ten that the whole of `s` states: none at all is the power zero. -/
def readPower? : List Char → Option Int
  | [] => some 0
  | c :: rest =>
    if c = 'e' ∨ c = 'E' then
      let (negative, digits) := takeSign rest
      if digits ≠ [] ∧ digits.all Char.isDigit then
        let n : Nat := Nat.ofDigitChars 10 digits 0
        some (if negative then -(n : Int) else n)
      else none
    else none

/-- The literal that the whole of `s` writes. -/
def read? (s : List Char) : Option Literal :=
  let (negative, afterSign) := takeSign s
  let (whole, afterWhole) := takeDigits afterSign
  let (fraction, afterFraction) := takeFraction afterWhole
  if whole = [] ∧ fraction = [] then none
  else (readPower? afterFraction).map fun power =>
    ⟨negative, Nat.ofDigitChars 10 (whole ++ fraction) 0, power - fraction.length⟩

/-! ## The value -/

/-- The exact value. -/
def toRat (l : Literal) : Rat :=
  mkRat ((if l.negative then -(l.significand : Int) else l.significand) *
    (Nat.pow 10 l.exponent.toNat : Nat)) (Nat.pow 10 (-l.exponent).toNat)

/-- The number nearest to the literal. With `digits` digits and the exponent the
value lies between two neighbouring powers of ten; above `10 ^ 310` it is past
every finite number, and below `10 ^ -330` nearer to zero than to any other. -/
def toBinary64 (l : Literal) : Binary64 :=
  let size : Int := (Nat.toDigits 10 l.significand).length + l.exponent
  if l.significand = 0 ∨ size < -330 then .zero l.negative
  else if 311 < size then .infinity l.negative
  else .ofUnits l.negative ((l.significand * Nat.pow 10 l.exponent.toNat) <<< 1074)
    (Nat.pow 10 (-l.exponent).toNat)

end Literal

end QuadraticSolver

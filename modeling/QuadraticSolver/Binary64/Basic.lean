/-!
# Binary floating-point numbers of 64 bits

A finite number is a sign and a *magnitude*: a whole number of units, the
unit being `2 ^ -1074`, the smallest positive number of the format. A
magnitude is written `mantissa · 2 ^ shift` units, and the proof field
`canonical` leaves each magnitude exactly one way to be written: equality of
numbers is equality of their fields, with the two zeros apart and one single
"not a number".

`toRat` is the view that every law speaks about: the exact rational value of
a finite number. Comparison is comparison of those values, with the
infinities outside and "not a number" comparable to nothing.
-/

namespace QuadraticSolver

/-- The number of units in one: the unit is the least positive number. -/
def unitsPerOne : Nat := 1 <<< 1074

/-- A mantissa has at most 53 bits, and exactly 53 above the least shift.
The greatest shift is the one of the greatest finite number. -/
def Canonical (mantissa shift : Nat) : Prop :=
  mantissa < 9007199254740992 ∧ shift ≤ 2045 ∧ (shift = 0 ∨ 4503599627370496 ≤ mantissa)

instance (mantissa shift : Nat) : Decidable (Canonical mantissa shift) :=
  inferInstanceAs (Decidable (_ ∧ _ ∧ _))

/-- The distance of a finite number from zero. -/
structure Magnitude where
  mantissa : Nat
  shift : Nat
  canonical : Canonical mantissa shift
  deriving DecidableEq

/-- The magnitude as a whole number of units. -/
def Magnitude.units (m : Magnitude) : Nat :=
  m.mantissa <<< m.shift

/-- The magnitude of both zeros. -/
def Magnitude.zero : Magnitude where
  mantissa := 0
  shift := 0
  canonical := by decide

/-- A number of the format. -/
inductive Binary64 where
  /-- The result of an operation that has none. -/
  | nan
  /-- Greater, or less, than every finite number. -/
  | infinity (negative : Bool)
  /-- A finite number; zero has both signs. -/
  | finite (negative : Bool) (magnitude : Magnitude)
  deriving DecidableEq

namespace Binary64

/-- The zero of the given sign. -/
def zero (negative : Bool) : Binary64 :=
  finite negative Magnitude.zero

/-- Neither an infinity nor "not a number". -/
def isFinite : Binary64 → Bool
  | finite _ _ => true
  | _ => false

/-- The exact value of a finite number. The others have none, and get zero. -/
def toRat : Binary64 → Rat
  | finite negative m => mkRat (if negative then -(m.units : Int) else m.units) unitsPerOne
  | _ => 0

/-- The sign changed, also of a zero. -/
def neg : Binary64 → Binary64
  | nan => nan
  | infinity negative => infinity (!negative)
  | finite negative m => finite (!negative) m

/-- The sign removed, also from a zero. -/
def abs : Binary64 → Binary64
  | nan => nan
  | infinity _ => infinity false
  | finite _ m => finite false m

/-- Strictly less. It fails where one side is not a number. -/
def lt : Binary64 → Binary64 → Bool
  | nan, _ => false
  | _, nan => false
  | infinity s, infinity t => s && !t
  | infinity s, finite _ _ => s
  | finite _ _, infinity t => !t
  | finite s m, finite t n => (finite s m).toRat < (finite t n).toRat

/-- Less or equal. It is not the negation of the converse `lt`: both fail where
one side is not a number. -/
def le : Binary64 → Binary64 → Bool
  | nan, _ => false
  | _, nan => false
  | x, y => !lt y x

/-- Equality of values: the two zeros are equal, and "not a number" equals nothing. -/
def eqv (x y : Binary64) : Bool :=
  le x y && le y x

/-- The greater of two; "not a number" gives way to the other side. -/
def max (x y : Binary64) : Binary64 :=
  if x = nan then y else if lt x y then y else x

/-! ## Small laws -/

@[simp]
theorem neg_neg (x : Binary64) : neg (neg x) = x := by
  cases x <;> simp [neg]

@[simp]
theorem abs_neg (x : Binary64) : abs (neg x) = abs x := by
  cases x <;> rfl

@[simp]
theorem isFinite_neg (x : Binary64) : (neg x).isFinite = x.isFinite := by
  cases x <;> rfl

theorem lt_nan (x : Binary64) : lt x nan = false := by
  cases x <;> rfl

theorem le_nan (x : Binary64) : le x nan = false := by
  cases x <;> rfl

end Binary64

end QuadraticSolver

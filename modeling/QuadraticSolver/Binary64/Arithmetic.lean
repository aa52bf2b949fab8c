import QuadraticSolver.Binary64.Rounding
import QuadraticSolver.Exact.FloorSqrt

/-!
# Arithmetic of the format

Each operation on finite numbers is the exact rational result, rounded once
(`add_finite`, `mul_finite`, `div_finite` state it). What remains to be laid
down case by case is what involves an infinity, a zero divisor or the sign of
a zero result.
-/

namespace QuadraticSolver.Binary64

/-- Whether the sign is minus; "not a number" has none. -/
def isNegative : Binary64 → Bool
  | nan => false
  | infinity negative => negative
  | finite negative _ => negative

/-- Whether the number is one of the two zeros. -/
def isZero : Binary64 → Bool
  | finite _ m => m.mantissa = 0
  | _ => false

/-- The sum. Opposite infinities have none; an exact zero is positive unless
both terms are negative. -/
def add : Binary64 → Binary64 → Binary64
  | nan, _ => nan
  | _, nan => nan
  | infinity s, infinity t => if s = t then infinity s else nan
  | infinity s, finite _ _ => infinity s
  | finite _ _, infinity t => infinity t
  | finite s m, finite t n => round (s && t) ((finite s m).toRat + (finite t n).toRat)

/-- The difference is the sum with the opposite. -/
def sub (x y : Binary64) : Binary64 :=
  add x (neg y)

/-- The product. Its sign is the signs' product, also for zeros and
infinities; an infinity times zero has no value. -/
def mul : Binary64 → Binary64 → Binary64
  | nan, _ => nan
  | _, nan => nan
  | finite s m, finite t n => round (s != t) ((finite s m).toRat * (finite t n).toRat)
  | x, y => if x.isZero || y.isZero then nan else infinity (x.isNegative != y.isNegative)

/-- The quotient. A finite number over zero is infinite, except zero over zero,
which has no value; neither has a quotient of infinities. -/
def div : Binary64 → Binary64 → Binary64
  | nan, _ => nan
  | _, nan => nan
  | infinity _, infinity _ => nan
  | infinity s, finite t _ => infinity (s != t)
  | finite s _, infinity t => zero (s != t)
  | finite s m, finite t n =>
    if n.mantissa = 0 then
      if m.mantissa = 0 then nan else infinity (s != t)
    else round (s != t) ((finite s m).toRat / (finite t n).toRat)

/-- The square root. In units it is the root of `units · 2 ^ 1074`, at least
`2 ^ 537`, where the numbers of the format and the midpoints between them are
all whole numbers of units. So where the root is not an integer, half a unit
may stand for its fractional part: that changes no comparison with them. -/
def sqrt : Binary64 → Binary64
  | nan => nan
  | infinity negative => if negative then nan else infinity false
  | finite negative m =>
    if m.mantissa = 0 then zero negative
    else if negative then nan
    else
      let square := m.units <<< 1074
      let root := floorSqrt square
      ofUnits false (2 * root + if root * root = square then 0 else 1) 2

/-- The greatest integer that is not above, of the same sign as the number
itself where it is zero. Infinities are left alone. -/
def floor : Binary64 → Binary64
  | finite negative m => round negative ((finite negative m).toRat.floor : Rat)
  | x => x

instance : Add Binary64 := ⟨add⟩
instance : Sub Binary64 := ⟨sub⟩
instance : Mul Binary64 := ⟨mul⟩
instance : Div Binary64 := ⟨div⟩
instance : Neg Binary64 := ⟨neg⟩

/-! ## On finite numbers: the exact result, rounded once -/

theorem add_finite (s t : Bool) (m n : Magnitude) :
    add (finite s m) (finite t n) =
      round (s && t) ((finite s m).toRat + (finite t n).toRat) := rfl

theorem mul_finite (s t : Bool) (m n : Magnitude) :
    mul (finite s m) (finite t n) =
      round (s != t) ((finite s m).toRat * (finite t n).toRat) := rfl

theorem div_finite (s t : Bool) (m n : Magnitude) (h : n.mantissa ≠ 0) :
    div (finite s m) (finite t n) =
      round (s != t) ((finite s m).toRat / (finite t n).toRat) := if_neg h

theorem add_nan (x : Binary64) : add x nan = nan := by
  cases x <;> rfl

theorem mul_nan (x : Binary64) : mul x nan = nan := by
  cases x <;> rfl

theorem div_nan (x : Binary64) : div x nan = nan := by
  cases x <;> rfl

end QuadraticSolver.Binary64

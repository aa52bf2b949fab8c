import QuadraticSolver.Decimal.Fixed

/-!
# The shortest numeral that reads back

Around each magnitude lies the interval of reals that round to it. Its ends
are the midpoints to the two neighbours, and they belong to it when the
mantissa is even, since a tie goes there. The shortest numeral is found on
decimal grids from coarse to fine: the first grid with a point in the interval
gives the fewest digits, and of the two points of that grid around the value
the nearer is taken, an exact tie going up.

The ends are kept in quarters of a unit, in which every midpoint is a whole
number, so each test is a comparison of natural numbers.
-/

namespace QuadraticSolver

/-- The reals that round to a magnitude, in quarters of a unit. -/
structure RoundingInterval where
  low : Nat
  value : Nat
  high : Nat
  /-- Whether the two ends belong to the interval. -/
  closed : Bool

/-- The interval of a magnitude. Below the least mantissa of a shift the
neighbours are half as far apart, except at the bottom of the format. -/
def Magnitude.interval (m : Magnitude) : RoundingInterval where
  low := 4 * m.units -
    (if m.mantissa = 4503599627370496 ∧ m.shift ≠ 0 then 1 else 2) * (1 <<< m.shift)
  value := 4 * m.units
  high := 4 * m.units + 2 * (1 <<< m.shift)
  closed := m.mantissa % 2 = 0

/-- A decimal grid: the multiples of `10 ^ -exponent`, finer for a greater exponent.
In quarters of a unit one step is `stepNum / stepDen`. -/
structure DecimalGrid where
  exponent : Int
  deriving DecidableEq

/-- The numerator of a step. -/
def DecimalGrid.stepNum (g : DecimalGrid) : Nat :=
  4 * unitsPerOne * Nat.pow 10 (-g.exponent).toNat

/-- The denominator of a step. -/
def DecimalGrid.stepDen (g : DecimalGrid) : Nat :=
  Nat.pow 10 g.exponent.toNat

/-- Whether the `k`-th point of a grid lies in the interval. -/
def RoundingInterval.holds (i : RoundingInterval) (g : DecimalGrid) (k : Nat) : Bool :=
  let point := k * g.stepNum
  let low := i.low * g.stepDen
  let high := i.high * g.stepDen
  if i.closed then low ≤ point && point ≤ high else low < point && point < high

/-- Whether the step of a grid is seen to be past the whole interval, by counting
binary digits alone: `10 ^ n` is at least `2 ^ (3·n)` and at most `2 ^ (4·n)`. -/
def RoundingInterval.isPassedBy (i : RoundingInterval) (g : DecimalGrid) : Bool :=
  (i.high.log2 : Int) < 1076 - (if g.exponent ≤ 0 then 3 else 4) * g.exponent

/-- The point of a grid that stands for the interval, if the grid has one in it:
of the value's two neighbours the one inside, the nearer if both are, and the
upper if they are equally near. A grid whose first point is past the interval
has none, and no power of ten is formed to see it. -/
def RoundingInterval.pointOn? (i : RoundingInterval) (g : DecimalGrid) : Option Nat :=
  if i.isPassedBy g then none
  else
    let below := i.value * g.stepDen / g.stepNum
    let remainder := i.value * g.stepDen % g.stepNum
    match i.holds g below, i.holds g (below + 1) with
    | true, true => some (if 2 * remainder < g.stepNum then below else below + 1)
    | true, false => some below
    | false, true => some (below + 1)
    | false, false => none

/-- The grids from `10 ^ 309` down to `10 ^ -324`, coarse to fine. No magnitude
reaches the first, and the last has a point in every interval. -/
def decimalGrids : List DecimalGrid :=
  (List.range 634).map fun (n : Nat) => ⟨(n : Int) - 309⟩

/-- The `k`-th point of a grid as a numeral. -/
def DecimalGrid.numeral (g : DecimalGrid) (negative : Bool) (k : Nat) : Decimal :=
  ⟨negative, k * Nat.pow 10 (-g.exponent).toNat, g.exponent.toNat⟩

/-- The point that stands for the interval on the first of some grids that has one. -/
def RoundingInterval.shortest? (i : RoundingInterval) (negative : Bool)
    (grids : List DecimalGrid) : Option Decimal :=
  grids.findSome? fun g => (i.pointOn? g).map (g.numeral negative)

/-- The shortest numeral that rounds to this magnitude. -/
def Magnitude.shortest (negative : Bool) (m : Magnitude) : Decimal :=
  if m.mantissa = 0 then ⟨negative, 0, 0⟩
  else (m.interval.shortest? negative decimalGrids).getD ⟨negative, 0, 0⟩

/-- The characters of a number by its shortest numeral, always positional; zero
keeps its sign. -/
def Binary64.shortest (x : Binary64) : List Char :=
  x.charactersBy Magnitude.shortest

/-- The text of a number by its shortest numeral. -/
def Binary64.shortestText (x : Binary64) : String :=
  String.ofList x.shortest

/-! ## The form used in records

Records write the same digits, but an integer with a fraction of `.0`, and a
number of extreme size as one digit before the point and a power of ten. -/

/-- The numeral's digits as `d.ddd` and the power of ten that goes with them,
zeros at the end left out. -/
def Decimal.scientific (d : Decimal) : String :=
  let digits := Nat.toDigits 10 d.significand
  let kept := (digits.reverse.dropWhile (· == '0')).reverse
  let power : Int := (digits.length : Int) - 1 - d.places
  let fraction := kept.drop 1
  (if d.negative then "-" else "") ++ String.ofList (kept.take 1) ++
    (if fraction.isEmpty then "" else "." ++ String.ofList fraction) ++
    "e" ++ (Decimal.ofInt power).text

/-- Whether records write the magnitude with a power of ten: it is not zero, and
below `10 ^ -4` or at least `10 ^ 16`. -/
def Magnitude.isExtreme (m : Magnitude) : Bool :=
  m.mantissa != 0 &&
    (m.units * 10000 < unitsPerOne || 10000000000000000 * unitsPerOne ≤ m.units)

/-- The text of a number in a record. -/
def Binary64.recordText (x : Binary64) : String :=
  match x with
  | .finite negative m =>
    let d := m.shortest negative
    if m.isExtreme then d.scientific
    else if d.places = 0 then d.text ++ ".0" else d.text
  | _ => x.shortestText

end QuadraticSolver

import QuadraticSolver.Binary64.Arithmetic

/-!
# Simple fractions

A number is recognised as a fraction `p / q` with a small denominator by its
continued fraction: integer parts are taken off one by one, and after each the
convergent so far is compared with the number. The search ends with the first
convergent that is as near as a few rounding errors, or without one when the
denominator has grown past the limit or nothing is left to invert.

The search computes with integers of a *width*: words of 64 bits, on which an
overflow ends it, or unbounded integers, which is the search that the word
version has to agree with.
-/

namespace QuadraticSolver

/-- The integers that a search computes with. -/
inductive Width where
  /-- Signed words of 64 bits. -/
  | word
  /-- All integers. -/
  | unbounded
  deriving DecidableEq

namespace Width

/-- The integer if it is of the width. -/
def checked : Width → Int → Option Int
  | word, n => if -9223372036854775808 ≤ n ∧ n ≤ 9223372036854775807 then some n else none
  | unbounded, n => some n

/-- The integer of the width nearest to `n`. -/
def saturated : Width → Int → Int
  | word, n => max (-9223372036854775808) (min n 9223372036854775807)
  | unbounded, n => n

/-- The value of `n · x + y`, unless the product or the sum is not of the width. -/
def mulAdd (w : Width) (n x y : Int) : Option Int :=
  (w.checked (n * x)).bind fun product => w.checked (product + y)

end Width

namespace Fraction

/-- The greatest denominator of a simple fraction. -/
def maxDenominator : Int := 1000

/-- The greatest distance from zero at which fractions are looked for. -/
def maxMagnitude : Binary64 := .ofInt 1000000000

/-- One unit in the last place of one, `2 ^ -52`: a remainder of at most this is none. -/
def leastRemainder : Binary64 := .round false (mkRat 1 4503599627370496)

/-- The relative distance at which a convergent stands for the number: eight such units. -/
def closeness : Binary64 := .round false (mkRat 1 562949953421312)

/-- Where a search stands: what is left to expand, and the last two convergents. -/
structure Search where
  remainder : Binary64
  previousNum : Int
  num : Int
  previousDen : Int
  den : Int

/-- The search for `x` before its first turn. -/
def Search.start (x : Binary64) : Search :=
  ⟨x, 0, 1, 1, 0⟩

/-- What a turn comes to. -/
inductive Turn where
  /-- The convergent stands for the number. -/
  | found (num den : Int)
  /-- No simple fraction does. -/
  | refused
  /-- The search goes on. -/
  | next (search : Search)

/-- Whether the quotient stands for the number: their distance is at most
`closeness` of the greater of the two. -/
def isClose (x quotient : Binary64) : Bool :=
  (x - quotient).abs.le (closeness * x.abs.max quotient.abs)

/-- One turn of the search for `x`: the next convergent, and a judgement on it. -/
def Search.turn (w : Width) (x : Binary64) (s : Search) : Turn :=
  let whole := s.remainder.floor
  let n := w.saturated whole.toRat.floor
  match w.mulAdd n s.num s.previousNum, w.mulAdd n s.den s.previousDen with
  | some num, some den =>
    if maxDenominator < den then .refused
    else if isClose x (.ofInt num / .ofInt den) then .found num den
    else
      let left := s.remainder - whole
      if left.le leastRemainder then .refused
      else .next ⟨.ofInt 1 / left, s.num, num, s.den, den⟩
  | _, _ => .refused

/-- What a search comes to. -/
inductive Verdict where
  | found (num den : Int)
  | refused
  /-- The turns are used up. -/
  | unfinished
  deriving DecidableEq

/-- Searches for `x` in at most so many turns. -/
def Search.run (w : Width) (x : Binary64) : (turns : Nat) → Search → Verdict
  | 0, _ => .unfinished
  | turns + 1, s =>
    match s.turn w x with
    | .found num den => .found num den
    | .refused => .refused
    | .next s => run w x turns s

end Fraction

/-- The simple fraction that a number stands for, if there is one. -/
def simpleFraction? (x : Binary64) : Option Rat :=
  if !x.isFinite || Fraction.maxMagnitude.lt x.abs then none
  else
    match (Fraction.Search.start x).run .word x 32 with
    | .found num den => some (Rat.divInt num den)
    | _ => none

end QuadraticSolver

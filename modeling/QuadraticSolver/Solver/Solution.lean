import QuadraticSolver.Binary64.Arithmetic

/-!
# Solutions

The answer to an equation of degree two at most, and the check that every
answer passes before it is given: `Solution.settle` refuses a value that is
not a finite number and writes zero without a sign. The values are checked in
the order in which they are shown, and the refusal carries the first one that
fails.
-/

namespace QuadraticSolver

/-- What solves an equation. -/
inductive Solution where
  /-- Every number does. -/
  | everyNumber
  /-- No number does. -/
  | noNumber
  /-- One real number. -/
  | single (x : Binary64)
  /-- Two real numbers, in the order in which they are shown. -/
  | pair (x₁ x₂ : Binary64)
  /-- Two conjugate complex numbers `re ± im·i`. -/
  | conjugates (re im : Binary64)
  deriving DecidableEq

/-- A finite value with the sign of zero removed; any other value is refused. -/
def Binary64.settle (x : Binary64) : Except Binary64 Binary64 :=
  if x.isFinite then .ok (if x.isZero then .zero false else x) else .error x

namespace Solution

/-- The solution with all its values settled, or the first value that is refused. -/
def settle : Solution → Except Binary64 Solution
  | everyNumber => .ok everyNumber
  | noNumber => .ok noNumber
  | single x => do
    let x ← x.settle
    return single x
  | pair x₁ x₂ => do
    let x₁ ← x₁.settle
    let x₂ ← x₂.settle
    return pair x₁ x₂
  | conjugates re im => do
    let re ← re.settle
    let im ← im.settle
    return conjugates re im

/-- The values of a solution, in the order in which they are checked. -/
def values : Solution → List Binary64
  | everyNumber => []
  | noNumber => []
  | single x => [x]
  | pair x₁ x₂ => [x₁, x₂]
  | conjugates re im => [re, im]

end Solution

end QuadraticSolver

/-!
# Integer square roots

`floorSqrt n` is the greatest integer whose square is at most `n`. It is
found one binary digit at a time from the top, so the recursion is on the
number of digits and every intermediate value is a lower bound.

The law is `floorSqrt_sq_le` together with `lt_floorSqrt_succ_sq`: the two
bounds determine the value.
-/

namespace QuadraticSolver

/-- The best lower bound `root + (a number of digits binary digits)` of the root of `n`. -/
def refineSqrt (n : Nat) : (digits root : Nat) → Nat
  | 0, root => root
  | digits + 1, root =>
    let next := root + (1 <<< digits)
    if next * next ≤ n then refineSqrt n digits next else refineSqrt n digits root

/-- The integer part of the square root: a root has half as many digits as its square. -/
def floorSqrt (n : Nat) : Nat :=
  refineSqrt n (n.log2 / 2 + 1) 0

/-- A bound with its remaining digits taken into account stays around the root. -/
theorem refineSqrt_bounds (n : Nat) : ∀ digits root : Nat, root * root ≤ n →
    n < (root + (1 <<< digits)) * (root + (1 <<< digits)) →
    refineSqrt n digits root * refineSqrt n digits root ≤ n ∧
      n < (refineSqrt n digits root + 1) * (refineSqrt n digits root + 1)
  | 0, root, hle, hlt => by simpa [refineSqrt] using And.intro hle hlt
  | digits + 1, root, hle, hlt => by
    rw [refineSqrt]
    split
    next h =>
      refine refineSqrt_bounds n digits _ h ?_
      simp only [Nat.shiftLeft_eq, Nat.one_mul, Nat.pow_succ, Nat.mul_two, ← Nat.add_assoc] at hlt ⊢
      exact hlt
    next h => exact refineSqrt_bounds n digits _ hle (Nat.lt_of_not_le h)

private theorem lt_square_start (n : Nat) :
    n < (0 + (1 <<< (n.log2 / 2 + 1))) * (0 + (1 <<< (n.log2 / 2 + 1))) := by
  simp only [Nat.shiftLeft_eq, Nat.one_mul, Nat.zero_add, ← Nat.pow_add]
  exact Nat.lt_of_lt_of_le (Nat.lt_log2_self (n := n))
    (Nat.pow_le_pow_right (by decide) (by omega))

/-- The root's square does not exceed the number. -/
theorem floorSqrt_sq_le (n : Nat) : floorSqrt n * floorSqrt n ≤ n :=
  (refineSqrt_bounds n _ 0 (by simp) (lt_square_start n)).1

/-- The next integer's square does. -/
theorem lt_floorSqrt_succ_sq (n : Nat) : n < (floorSqrt n + 1) * (floorSqrt n + 1) :=
  (refineSqrt_bounds n _ 0 (by simp) (lt_square_start n)).2

end QuadraticSolver

/-!
# Quotients rounded to an integer

One rounding rule serves the whole library: an exact quotient of natural
numbers goes to the nearest integer, and a half goes to the even neighbour.
Binary mantissas (`Binary64/Rounding`) and fixed decimal places
(`Decimal/Fixed`) both use it, so no second notion of rounding can disagree
with the first.

The laws that pin it down are that the result is one of the quotient's two
integer neighbours (`div_le_halfEven`, `halfEven_le_div_succ`) and that an
exact quotient is left alone (`halfEven_mul_right`).
-/

namespace QuadraticSolver

/-- The quotient `num / den` at the nearest integer, a half at the even one. -/
def halfEven (num den : Nat) : Nat :=
  let below := num / den
  let twice := 2 * (num % den)
  if twice < den then below
  else if den < twice then below + 1
  else if below % 2 = 0 then below else below + 1

/-- Rounding never goes below the integer part. -/
theorem div_le_halfEven (num den : Nat) : num / den ≤ halfEven num den := by
  unfold halfEven
  dsimp only
  split
  · exact Nat.le_refl _
  · split
    · exact Nat.le_succ _
    · split
      · exact Nat.le_refl _
      · exact Nat.le_succ _

/-- Rounding never goes past the next integer. -/
theorem halfEven_le_div_succ (num den : Nat) : halfEven num den ≤ num / den + 1 := by
  unfold halfEven
  dsimp only
  split
  · exact Nat.le_succ _
  · split
    · exact Nat.le_refl _
    · split
      · exact Nat.le_succ _
      · exact Nat.le_refl _

/-- A quotient that is an integer is that integer. -/
theorem halfEven_mul_right (n : Nat) {den : Nat} (h : 0 < den) : halfEven (n * den) den = n := by
  simp [halfEven, Nat.mul_div_left _ h, Nat.mul_mod_left, h]

end QuadraticSolver

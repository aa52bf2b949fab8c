import QuadraticSolver.Decimal.Shortest
import QuadraticSolver.Proofs.Binary64.Rounding

/-!
# The interval of a magnitude rounds to it

`Magnitude.interval` is what numerals are judged by; here it is proved to be
what it stands for: a quotient in the interval has the magnitude as its nearest
(`nearest?_of_contains`). The one case with an idea of its own is a quotient
below the least mantissa of a shift. It lies in the finer binade beneath, and
the carry into a 54th bit leads back to the magnitude.
-/

namespace QuadraticSolver

/-- The quotient, in quarters of a unit, lies in the interval. -/
def RoundingInterval.Contains (i : RoundingInterval) (num den : ℕ) : Prop :=
  if i.closed then i.low * den ≤ num ∧ num ≤ i.high * den
  else i.low * den < num ∧ num < i.high * den

theorem RoundingInterval.holds_iff (i : RoundingInterval) (g : DecimalGrid) (k : ℕ) :
    i.holds g k = true ↔ i.Contains (k * g.stepNum) g.stepDen := by
  unfold holds Contains
  dsimp only
  cases i.closed <;> simp

namespace Magnitude

variable {m : Magnitude} {num den : ℕ}

/-- The distance from the magnitude down to the end of its interval, in steps of a quarter. -/
def gapBelow (m : Magnitude) : ℕ :=
  if m.mantissa = 4503599627370496 ∧ m.shift ≠ 0 then 1 else 2

theorem interval_low (m : Magnitude) :
    m.interval.low = 4 * m.units - m.gapBelow * 2 ^ m.shift := by
  rw [← Nat.one_shiftLeft]
  rfl

theorem interval_high (m : Magnitude) : m.interval.high = 4 * m.units + 2 * 2 ^ m.shift := by
  rw [← Nat.one_shiftLeft]
  rfl

theorem gapBelow_pos (m : Magnitude) : 0 < m.gapBelow := by
  unfold gapBelow
  split <;> decide

theorem gapBelow_le (m : Magnitude) : m.gapBelow ≤ 2 := by
  unfold gapBelow
  split <;> decide

/-- The ends of the interval, in steps of the magnitude's shift; an end that belongs to it has an
even mantissa. -/
theorem bounds_of_contains (h : m.interval.Contains num den) :
    4 * (m.mantissa * (2 ^ m.shift * den)) ≤ num + m.gapBelow * (2 ^ m.shift * den) ∧
      num ≤ 4 * (m.mantissa * (2 ^ m.shift * den)) + 2 * (2 ^ m.shift * den) ∧
      (4 * (m.mantissa * (2 ^ m.shift * den)) = num + m.gapBelow * (2 ^ m.shift * den) ∨
        num = 4 * (m.mantissa * (2 ^ m.shift * den)) + 2 * (2 ^ m.shift * den) →
          m.mantissa % 2 = 0) := by
  have hlow : m.interval.low * den =
      4 * (m.mantissa * (2 ^ m.shift * den)) - m.gapBelow * (2 ^ m.shift * den) := by
    rw [interval_low, Nat.sub_mul, units_eq]
    simp only [Nat.mul_assoc]
  have hhigh : m.interval.high * den =
      4 * (m.mantissa * (2 ^ m.shift * den)) + 2 * (2 ^ m.shift * den) := by
    rw [interval_high, Nat.add_mul, units_eq]
    simp only [Nat.mul_assoc]
  unfold RoundingInterval.Contains at h
  rw [hlow, hhigh] at h
  split at h
  next hclosed => exact ⟨by omega, by omega, fun _ => of_decide_eq_true hclosed⟩
  next => exact ⟨by omega, by omega, fun _ => by omega⟩

/-- Where the quotient has the magnitude's shift, its mantissa is the nearest integer. -/
theorem nearest?_of_contains_of_le (hden : 0 < den) (h : m.interval.Contains num den)
    (hbinade : m.shift = 0 ∨ 2 ^ 52 * (4 * (2 ^ m.shift * den)) ≤ num) :
    nearest? num (4 * den) = some m := by
  obtain ⟨hlow, hhigh, htie⟩ := bounds_of_contains h
  have hstep : 0 < 2 ^ m.shift * den := Nat.mul_pos (Nat.two_pow_pos _) hden
  have hgap : m.gapBelow * (2 ^ m.shift * den) ≤ 2 * (2 ^ m.shift * den) :=
    Nat.mul_le_mul_right _ m.gapBelow_le
  have hmantissa : m.mantissa * (2 ^ m.shift * den) ≤ (2 ^ 53 - 1) * (2 ^ m.shift * den) :=
    Nat.mul_le_mul_right _ (Nat.le_sub_one_of_lt m.canonical.1)
  have hscale : 2 ^ m.shift * (4 * den) = 4 * (2 ^ m.shift * den) := Nat.mul_left_comm _ _ _
  apply nearest?_of_shift
  · apply log2_div_sub (Nat.mul_pos (by decide) hden)
    · rw [hscale]
      exact hbinade
    · rw [hscale]
      omega
  · have hproduct : m.mantissa * (4 * (2 ^ m.shift * den)) =
        4 * (m.mantissa * (2 ^ m.shift * den)) := Nat.mul_left_comm _ _ _
    rw [Nat.mul_comm (4 * den), hscale]
    apply halfEven_eq (Nat.mul_pos (by decide) hstep)
    · omega
    · omega
    · intro htied
      exact htie (by omega)

/-- Below the least mantissa of a shift, the quotient is near enough to the carry. -/
theorem nearest?_of_contains_of_lt (hden : 0 < den) (h : m.interval.Contains num den)
    (hshift : m.shift ≠ 0) (hbelow : num < 2 ^ 52 * (4 * (2 ^ m.shift * den))) :
    nearest? num (4 * den) = some m := by
  obtain ⟨hlow, -, -⟩ := bounds_of_contains h
  have hgap : m.gapBelow * (2 ^ m.shift * den) ≤ 2 * (2 ^ m.shift * den) :=
    Nat.mul_le_mul_right _ m.gapBelow_le
  have hleast : m.mantissa = 2 ^ 52 := by
    have hnormal : 2 ^ 52 ≤ m.mantissa := m.canonical.2.2.resolve_left hshift
    by_contra hne
    have hmantissa : (2 ^ 52 + 1) * (2 ^ m.shift * den) ≤ m.mantissa * (2 ^ m.shift * den) :=
      Nat.mul_le_mul_right _ (by omega)
    omega
  have hone : m.gapBelow = 1 := if_pos ⟨hleast, hshift⟩
  obtain ⟨shift, hsucc⟩ := Nat.exists_eq_succ_of_ne_zero hshift
  have hhalf : 2 ^ m.shift * den = 2 * (2 ^ shift * den) := by
    rw [hsucc, Nat.pow_succ', Nat.mul_assoc]
  have hscale : 2 ^ shift * (4 * den) = 4 * (2 ^ shift * den) := Nat.mul_left_comm _ _ _
  have hstep : 0 < 2 ^ shift * den := Nat.mul_pos (Nat.two_pow_pos _) hden
  -- the quotient lies in the binade beneath, within half a step there of the carry
  rw [hone, hleast, hhalf] at hlow
  rw [hhalf] at hbelow
  have hbits : (num / (4 * den)).log2 - 52 = shift := by
    apply log2_div_sub (Nat.mul_pos (by decide) hden)
    · right
      rw [hscale]
      omega
    · rw [hscale]
      omega
  have hcarry : halfEven num (4 * den * 2 ^ shift) = 2 ^ 53 := by
    rw [Nat.mul_comm (4 * den), hscale]
    apply halfEven_eq (Nat.mul_pos (by decide) hstep)
    · omega
    · omega
    · intro _
      decide
  exact nearest?_of_carry hbits hcarry hleast hsucc

/-- **What lies in the interval of a magnitude rounds to it.** -/
theorem nearest?_of_contains (hden : 0 < den) (h : m.interval.Contains num den) :
    nearest? num (4 * den) = some m := by
  by_cases hbinade : m.shift = 0 ∨ 2 ^ 52 * (4 * (2 ^ m.shift * den)) ≤ num
  · exact nearest?_of_contains_of_le hden h hbinade
  · obtain ⟨hshift, hbelow⟩ := not_or.mp hbinade
    exact nearest?_of_contains_of_lt hden h hshift (Nat.lt_of_not_le hbelow)

end Magnitude

end QuadraticSolver

import QuadraticSolver.Proofs.Decimal.Shortest
import QuadraticSolver.Proofs.Decimal.Text

/-!
# Canonical numerals

A numeral without superfluous zeros behind the point and without a sign on zero
is determined by its value (`Canonical.eq_of_toRat_eq`), and no two numerals
share a text, so the texts of rounded numbers are compared by comparing values.
Taking off zeros moves no value (`toRat_trimmed`), and it leaves a canonical
numeral (`canonical_trimmed`).
-/

namespace QuadraticSolver

namespace Decimal

variable {d e : Decimal}

theorem toRat_eq (d : Decimal) : d.toRat = Binary64.signFactor d.negative * d.distance := by
  show mkRat (if d.negative then -(d.significand : ℤ) else d.significand) (10 ^ d.places : ℕ) = _
  rw [Rat.mkRat_eq_div]
  cases d.negative <;> simp [Binary64.signFactor, distance, neg_div]

theorem abs_toRat (d : Decimal) : |d.toRat| = d.distance := by
  have hnonneg : 0 ≤ d.distance := by
    unfold distance
    positivity
  rw [toRat_eq, abs_mul, Binary64.abs_signFactor, one_mul, abs_of_nonneg hnonneg]

/-- No zero is left at the end of the fraction, and zero has no sign. -/
structure Canonical (d : Decimal) : Prop where
  last : d.places = 0 ∨ d.significand % 10 ≠ 0
  zero : d.significand = 0 → d.negative = false

/-- Numerals without superfluous zeros have the places that their value asks for. -/
theorem places_le_of_distance_eq (hd : d.Canonical) (h : d.distance = e.distance) :
    d.places ≤ e.places := by
  by_contra hlt
  obtain ⟨k, hk⟩ := Nat.exists_eq_add_of_lt (not_le.mp hlt)
  have hten : (10 : ℚ) ^ d.places ≠ 0 := by positivity
  have hten' : (10 : ℚ) ^ e.places ≠ 0 := by positivity
  have hcross : (d.significand : ℚ) = e.significand * 10 ^ (k + 1) := by
    unfold distance at h
    push_cast at h
    rw [div_eq_div_iff hten hten', hk] at h
    exact mul_right_cancel₀ hten' (by linear_combination h)
  have hnat : d.significand = e.significand * 10 ^ (k + 1) := by exact_mod_cast hcross
  rcases hd.last with hzero | hlast
  · omega
  · rw [hnat, Nat.pow_succ, ← Nat.mul_assoc, Nat.mul_mod_left] at hlast
    exact hlast rfl

/-- **A canonical numeral is determined by its value.** -/
theorem Canonical.eq_of_toRat_eq (hd : d.Canonical) (he : e.Canonical) (h : d.toRat = e.toRat) :
    d = e := by
  have hdistance : d.distance = e.distance := by rw [← abs_toRat, h, abs_toRat]
  have hplaces : d.places = e.places :=
    le_antisymm (places_le_of_distance_eq hd hdistance)
      (places_le_of_distance_eq he hdistance.symm)
  have hsignificand : d.significand = e.significand := by
    have hten : ((10 ^ e.places : ℕ) : ℚ) ≠ 0 := by positivity
    unfold distance at hdistance
    rw [hplaces, div_left_inj' hten] at hdistance
    exact_mod_cast hdistance
  have hnegative : d.negative = e.negative := by
    by_cases hzero : e.significand = 0
    · rw [hd.zero (hsignificand.trans hzero), he.zero hzero]
    · have hne : e.distance ≠ 0 := by
        unfold distance
        positivity
      rw [toRat_eq, toRat_eq, hdistance] at h
      have hfactor := mul_right_cancel₀ hne h
      cases hd : d.negative <;> cases he : e.negative <;>
        simp [Binary64.signFactor, hd, he] at hfactor ⊢ <;> norm_num at hfactor
  cases d
  cases e
  simp_all

/-! ## Integers and trimmed numerals -/

theorem toRat_ofInt (n : ℤ) : (ofInt n).toRat = n := by
  have hvalue : (if n < 0 then -(n.natAbs : ℤ) else n.natAbs) = n := by
    split <;> omega
  show mkRat (if decide (n < 0) = true then -(n.natAbs : ℤ) else n.natAbs) (10 ^ 0 : ℕ) = _
  rw [Rat.mkRat_eq_div]
  simp only [decide_eq_true_eq, hvalue]
  norm_num

theorem canonical_ofInt (n : ℤ) : (ofInt n).Canonical where
  last := Or.inl rfl
  zero := fun h => decide_eq_false (by rw [Int.natAbs_eq_zero.mp h]; decide)

theorem canonical_trimmed (d : Decimal) : d.trimmed.Canonical where
  last := dropZeros_mod d.places d.significand
  zero := by
    intro h
    have hmul := dropZeros_mul d.places d.significand
    have hkept : (dropZeros d.significand d.places).1 = 0 := h
    rw [hkept, Nat.zero_mul, eq_comm, Nat.mul_eq_zero] at hmul
    have hzero : d.significand = 0 := hmul.resolve_right (Nat.pow_pos (by decide)).ne'
    show (d.negative && d.significand != 0) = false
    rw [hzero]
    exact Bool.and_false _

theorem distance_trimmed (d : Decimal) : d.trimmed.distance = d.distance := by
  have hmul := dropZeros_mul d.places d.significand
  have hmul' : ((dropZeros d.significand d.places).1 : ℚ) * 10 ^ d.places =
      d.significand * 10 ^ (dropZeros d.significand d.places).2 := by exact_mod_cast hmul
  unfold distance
  push_cast
  rw [div_eq_div_iff (by positivity) (by positivity)]
  exact hmul'

/-- Taking off zeros moves no value. -/
theorem toRat_trimmed (d : Decimal) : d.trimmed.toRat = d.toRat := by
  rw [toRat_eq, toRat_eq, distance_trimmed]
  by_cases hzero : d.significand = 0
  · have hdistance : d.distance = 0 := by
      rw [distance, hzero, Nat.cast_zero, zero_div]
    rw [hdistance, mul_zero, mul_zero]
  · have hsign : d.trimmed.negative = d.negative := by
      show (d.negative && d.significand != 0) = d.negative
      rw [bne_iff_ne.mpr hzero, Bool.and_true]
    rw [hsign]

end Decimal

end QuadraticSolver

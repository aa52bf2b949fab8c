import QuadraticSolver.Proofs.Binary64.Rounding

/-!
# Sums of integers

Integers of at most `2 ^ 53` are numbers of the format, so their sums are exact
as long as they stay there (`ofInt_add_round`). A running sum from an integer is
then the number of the exact sum (`foldl_add_eq_ofInt`); a zero on the way, of
either sign, leaves it as it is.
-/

namespace QuadraticSolver.Binary64

/-- The number is an integer, a zero of either sign. -/
def IsInteger (x : Binary64) (k : ℤ) : Prop :=
  ∃ z, x = round z k

/-- The magnitude of an integer. -/
theorem exists_units_eq_abs {k : ℤ} (hk : k.natAbs ≤ 2 ^ 53) :
    ∃ m : Magnitude, |(k : ℚ)| = m.units / unitsPerOne := by
  obtain ⟨m, hm⟩ := Magnitude.exists_units_eq hk (show 1074 < 2045 by decide)
  have hunits : m.units = k.natAbs * unitsPerOne :=
    hm.trans (congrArg (k.natAbs * ·) unitsPerOne_eq.symm)
  have hU : (unitsPerOne : ℚ) ≠ 0 := by exact_mod_cast unitsPerOne_pos.ne'
  refine ⟨m, ?_⟩
  rw [hunits, Nat.cast_mul, mul_div_cancel_right₀ _ hU, Nat.cast_natAbs, Int.cast_abs]

/-- Only a zero asks which sign a zero gets. -/
theorem round_congr {z z' : Bool} {q : ℚ} (h : q = 0 → z = z') : round z q = round z' q := by
  by_cases hq : q = 0
  · rw [h hq]
  · unfold round
    rw [if_neg hq, if_neg hq]

theorem neg_ofUnits (negative : Bool) (num den : ℕ) :
    -(ofUnits negative num den) = ofUnits (!negative) num den := by
  show neg _ = _
  unfold ofUnits
  cases Magnitude.nearest? num den <;> rfl

/-- The opposite is rounded to the opposite. -/
theorem neg_round (z : Bool) (q : ℚ) : -(round z q) = round (!z) (-q) := by
  unfold round
  rw [neg_ofUnits, Rat.neg_num, Rat.neg_den, Int.natAbs_neg]
  congr 1
  rcases lt_trichotomy q 0 with hneg | rfl | hpos
  · simp [hneg.ne, hneg, hneg.le]
  · simp
  · simp [hpos.ne', hpos, hpos.le]

theorem IsInteger.neg {x : Binary64} {k : ℤ} (h : x.IsInteger k) : (-x).IsInteger (-k) := by
  obtain ⟨z, rfl⟩ := h
  exact ⟨!z, by rw [neg_round, Int.cast_neg]⟩

section Integers

variable {k n : ℤ} {z : Bool}

theorem round_int (hk : k.natAbs ≤ 2 ^ 53) :
    (round z (k : ℚ)).isFinite = true ∧ (round z (k : ℚ)).toRat = k := by
  obtain ⟨m, hm⟩ := exists_units_eq_abs hk
  rw [round_eq_finite z hm]
  exact ⟨rfl, by rw [toRat_finite, ← hm, signFactor_roundSign]⟩

/-- The number of an integer has exactly its value. -/
theorem toRat_ofInt (hk : k.natAbs ≤ 2 ^ 53) : (ofInt k).toRat = k :=
  (round_int hk).2

theorem isFinite_ofInt (hk : k.natAbs ≤ 2 ^ 53) : (ofInt k).isFinite = true :=
  (round_int hk).1

theorem ofInt_zero : ofInt 0 = zero false := by
  have hunits : (Magnitude.zero.units : ℚ) = 0 := by simp [Magnitude.units_eq, Magnitude.zero]
  have habs : |((0 : ℤ) : ℚ)| = Magnitude.zero.units / unitsPerOne := by
    rw [hunits, zero_div, Int.cast_zero, abs_zero]
  exact (round_eq_finite false habs).trans (by simp [roundSign, zero])

theorem roundSign_of_pos {q : ℚ} (h : 0 < q) : roundSign z q = false := by
  simp [roundSign, h.ne', h.le]

/-- **An exact sum**: an integer and an integer, of which the second may be a zero of either sign,
sum up to the number of their sum. -/
theorem ofInt_add_round (hn : n.natAbs ≤ 2 ^ 53) (hk : k.natAbs ≤ 2 ^ 53) :
    ofInt n + round z (k : ℚ) = ofInt (n + k) := by
  obtain ⟨m, hm⟩ := exists_units_eq_abs hn
  obtain ⟨l, hl⟩ := exists_units_eq_abs hk
  have hvalue : (ofInt n).toRat = n := toRat_ofInt hn
  have hvalue' : (round z (k : ℚ)).toRat = k := (round_int hk).2
  unfold ofInt at hvalue ⊢
  rw [round_eq_finite _ hm] at hvalue ⊢
  rw [round_eq_finite _ hl] at hvalue' ⊢
  show add _ _ = _
  rw [add_finite, hvalue, hvalue', Int.cast_add]
  apply round_congr
  intro hzero
  -- terms that cancel are not both negative, and a zero in front is positive
  rcases lt_trichotomy (n : ℚ) 0 with hneg | hnull | hpos
  · rw [roundSign_of_pos (show (0 : ℚ) < k by linarith), Bool.and_false]
  · rw [hnull, roundSign, if_pos rfl, Bool.false_and]
  · rw [roundSign_of_pos hpos, Bool.false_and]

theorem toRat_of_isZero {x : Binary64} (h : x.isZero = true) : x.toRat = 0 := by
  cases x with
  | finite s m =>
    have hmantissa : m.mantissa = 0 := of_decide_eq_true h
    rw [toRat_finite, Magnitude.units_eq, hmantissa]
    simp
  | _ => rfl

/-- Of the finite numbers only the zeros have the value zero. -/
theorem isZero_of_toRat_eq_zero {x : Binary64} (hx : x.isFinite = true) (h : x.toRat = 0) :
    x.isZero = true := by
  cases x with
  | finite s m =>
    have habs : (m.units : ℚ) / unitsPerOne = 0 := by
      rw [← abs_toRat_finite s m, h, abs_zero]
    have hU : (unitsPerOne : ℚ) ≠ 0 := by exact_mod_cast unitsPerOne_pos.ne'
    have hunits : m.mantissa * 2 ^ m.shift = 0 := by
      rw [← Magnitude.units_eq]
      exact_mod_cast (div_eq_zero_iff.mp habs).resolve_right hU
    exact decide_eq_true ((mul_eq_zero.mp hunits).resolve_right (Nat.two_pow_pos _).ne')
  | _ => cases hx

/-- The opposite integer has the opposite number, but for zero, which is positive. -/
theorem ofInt_neg (hn : n.natAbs ≤ 2 ^ 53) :
    ofInt (-n) = if (ofInt n).isZero then zero false else -(ofInt n) := by
  by_cases hzero : n = 0
  · rw [hzero, neg_zero, ofInt_zero]
    rfl
  · have hne : (n : ℚ) ≠ 0 := Int.cast_ne_zero.mpr hzero
    have hnot : ¬ (ofInt n).isZero = true := by
      intro h
      exact hne ((toRat_ofInt hn).symm.trans (toRat_of_isZero h))
    rw [if_neg hnot, ofInt, ofInt, neg_round, Int.cast_neg]
    apply round_congr
    intro h
    exact absurd (neg_eq_zero.mp h) hne

/-- **An exact running sum.** -/
theorem foldl_add_eq_ofInt {xs : List Binary64} {ks : List ℤ}
    (hxs : List.Forall₂ IsInteger xs ks)
    (hbound : n.natAbs + (ks.map Int.natAbs).sum ≤ 2 ^ 53) :
    xs.foldl (· + ·) (ofInt n) = ofInt (n + ks.sum) := by
  induction hxs generalizing n with
  | nil => rw [List.foldl_nil, List.sum_nil, add_zero]
  | @cons x k xs ks hx _ ih =>
    obtain ⟨z, rfl⟩ := hx
    rw [List.map_cons, List.sum_cons] at hbound
    rw [List.foldl_cons, ofInt_add_round (by omega) (by omega), ih (by omega), List.sum_cons,
      add_assoc]

end Integers

end QuadraticSolver.Binary64

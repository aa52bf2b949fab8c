import QuadraticSolver.Proofs.Decimal.Rounded
import QuadraticSolver.Proofs.Report.Soundness
import QuadraticSolver.Report.Number

/-!
# Numbers shown as integers

When the text of a number is the text of an integer
(`numberText_eq_integerText_iff`): a number that is recognised as a fraction is
shown as an integer where the fraction is that integer, and then it is within
eight units in the last place; any other number is rounded, and shown as an
integer where it is within half a unit of the last decimal place of it.

So the text says of a number that it is an integer only if it is one up to eight
units, but for the numbers that rounding collapses: too far from an integer to
stand for it and too near for the places to tell (`shownFaithfully_iff`). Such
numbers there are, beside zero and beside other integers
(`not_alwaysShownFaithfully`).
-/

namespace QuadraticSolver.Report

open Binary64 Fraction

variable {places : Places} {x : Binary64} {n : ℤ}

/-! ## Texts -/

theorem integerText_injective : Function.Injective integerText := by
  intro m n h
  have hnumeral := Decimal.text_injective h
  have hvalue := Decimal.toRat_ofInt m
  rw [hnumeral, Decimal.toRat_ofInt] at hvalue
  exact_mod_cast hvalue.symm

/-- A number that is rounded is shown as an integer within half a unit of its last place. -/
theorem fixedText_eq_integerText_iff (hx : x.isFinite = true) (hplaces : 0 < places.toNat) :
    x.fixedText places = integerText n ↔ 2 * 10 ^ places.toNat * |x.toRat - n| ≤ 1 := by
  obtain ⟨s, m, rfl⟩ := exists_of_isFinite hx
  rw [← Magnitude.fixed_eq_ofInt_iff hplaces]
  exact Decimal.text_injective.eq_iff

/-- A fraction is not shown as an integer. -/
theorem append_slash_ne_integerText (p q text : String) :
    p ++ "/" ++ q ++ " ≈ " ++ text ≠ integerText n := by
  intro h
  have hmem : '/' ∈ (integerText n).toList := by
    rw [← h]
    simp only [String.toList_append, List.mem_append]
    exact Or.inl (Or.inl (Or.inl (Or.inr (by decide))))
  rw [integerText, Decimal.text, String.toList_ofList] at hmem
  rcases Decimal.mem_characters _ hmem with hdigit | hpoint | hminus
  · exact absurd hdigit (by decide)
  · exact absurd hpoint (by decide)
  · exact absurd hminus (by decide)

/-- **When a number is shown as an integer**: where it is recognised as the integer, or where it is
not recognised and rounds to the integer. -/
theorem numberText_eq_integerText_iff (hx : x.isFinite = true) (hplaces : 0 < places.toNat) :
    numberText places x = integerText n ↔
      simpleFraction? x = some (n : ℚ) ∨
        simpleFraction? x = none ∧ 2 * 10 ^ places.toNat * |x.toRat - n| ≤ 1 := by
  unfold numberText
  cases hrecognised : simpleFraction? x with
  | none => simpa using fixedText_eq_integerText_iff hx hplaces
  | some r =>
    have hinteger : r = (n : ℚ) ↔ r.den = 1 ∧ r.num = n := by
      constructor
      · rintro rfl
        exact ⟨Rat.den_intCast n, Rat.num_intCast n⟩
      · rintro ⟨hden, rfl⟩
        exact (Rat.den_eq_one_iff r).mp hden |>.symm
    simp only [Option.some.injEq, reduceCtorEq, false_and, or_false, hinteger]
    by_cases hden : r.den = 1
    · rw [if_pos hden, integerText_injective.eq_iff]
      exact (and_iff_right hden).symm
    · rw [if_neg hden]
      exact iff_of_false (append_slash_ne_integerText _ _ _) fun h => hden h.1

/-! ## What the text says -/

/-- Too far from an integer to stand for it, and too near for the places to tell. -/
structure Collapses (places : Places) (x : Binary64) (n : ℤ) : Prop where
  far : 8 / 2 ^ 52 * max |x.toRat| |(n : ℚ)| < |x.toRat - n|
  near : 2 * 10 ^ places.toNat * |x.toRat - n| ≤ 1

/-- The number is not shown as zero, and as an integer only if it is within eight units in the last
place of it. -/
structure ShownFaithfully (places : Places) (x : Binary64) : Prop where
  ne_zero : numberText places x ≠ "0"
  near : ∀ n : ℤ, numberText places x = integerText n →
    |x.toRat - n| ≤ 8 / 2 ^ 52 * max |x.toRat| |(n : ℚ)|

/-- What is recognised as an integer is within eight units of it. -/
theorem abs_sub_le_of_recognised (h : simpleFraction? x = some (n : ℚ)) :
    |x.toRat - n| ≤ 8 / 2 ^ 52 * max |x.toRat| |(n : ℚ)| := by
  obtain ⟨hx, hx', p, q, -, hfinding, hnum, hden⟩ := exists_finding h
  obtain rfl : n = p := hnum
  obtain rfl : 1 = q := by rw [← hden, Rat.den_intCast]; rfl
  by_cases hn : n = 0
  · have hzero := (hfinding.eq_zero_iff hx hx').mp hn
    rw [hn, toRat_of_isZero hzero, Int.cast_zero, sub_zero, abs_zero, max_self, mul_zero]
  · exact hfinding.near_of_one hx hx' hn

/-- A fraction with a small denominator that is near an integer is the integer. -/
theorem eq_intCast_of_abs_sub_lt {p q : ℤ} (hcoprime : IsCoprime p q) (hq : 0 < q) (hq' : q ≤ 1000)
    (h : |(p : ℚ) / q - n| < 1 / 1000) : p = n ∧ q = 1 := by
  have hqpos : (0 : ℚ) < q := by exact_mod_cast hq
  have hqle : (q : ℚ) ≤ 1000 := by exact_mod_cast hq'
  have hcross : |(p : ℚ) - n * q| < 1 := by
    have hsplit : (p : ℚ) - n * q = (p / q - n) * q := by field_simp
    rw [hsplit, abs_mul, abs_of_pos hqpos]
    calc |(p : ℚ) / q - n| * q < 1 / 1000 * q := mul_lt_mul_of_pos_right h hqpos
      _ ≤ 1 := by linarith
  have hcross' : |p - n * q| < 1 := by exact_mod_cast hcross
  have hp : p = n * q := sub_eq_zero.mp (Int.abs_lt_one_iff.mp hcross')
  have hdvd : q ∣ p := ⟨n, by rw [hp, mul_comm]⟩
  have hone : q = 1 := by
    have hunit := hcoprime.symm.isUnit_of_dvd' dvd_rfl hdvd
    rcases Int.isUnit_iff.mp hunit with h1 | h1 <;> omega
  exact ⟨by rw [hp, hone, mul_one], hone⟩

/-- A number that collapses is not recognised. -/
theorem Collapses.not_recognised (hplaces : 10 ≤ places.toNat) (h : Collapses places x n) :
    simpleFraction? x = none := by
  by_contra hsome
  obtain ⟨r, hr⟩ := Option.ne_none_iff_exists'.mp hsome
  obtain ⟨hx, hx', p, q, -, hfinding, hnum, hden⟩ := exists_finding hr
  have hnear := (hfinding.represents hx hx').near
  have hlast : 2 * 10 ^ 10 * |x.toRat - n| ≤ 1 := by
    have hpow : (10 : ℚ) ^ 10 ≤ 10 ^ places.toNat := pow_le_pow_right₀ (by norm_num) hplaces
    have hmono := mul_le_mul_of_nonneg_right hpow (abs_nonneg (x.toRat - n))
    linarith [h.near]
  have hclose : |(p : ℚ) / q - n| < 1 / 1000 := by
    have htriangle := abs_sub_le ((p : ℚ) / q) x.toRat n
    rw [abs_sub_comm ((p : ℚ) / q) x.toRat] at htriangle
    have hmax := max_abs_le_add x.toRat ((p : ℚ) / q)
    generalize max |x.toRat| |(p : ℚ) / q| = M at hmax hnear
    norm_num at hnear hx' hlast ⊢
    linarith
  obtain ⟨rfl, rfl⟩ := eq_intCast_of_abs_sub_lt hfinding.coprime hfinding.pos hfinding.le hclose
  have hinteger : r = (p : ℚ) := by
    rw [← Rat.num_div_den r, hnum]
    have hden' : r.den = 1 := by exact_mod_cast hden
    rw [hden', Nat.cast_one, div_one]
  exact absurd h.far (not_lt.mpr (abs_sub_le_of_recognised (hinteger ▸ hr)))

/-- **A number is shown faithfully exactly where rounding does not collapse it.** -/
theorem shownFaithfully_iff (places : Places) (x : Binary64) (hplaces : 10 ≤ places.toNat)
    (hx : x.isFinite = true) (hne : x.isZero = false) :
    ShownFaithfully places x ↔ ∀ n : ℤ, ¬ Collapses places x n := by
  have hpos : 0 < places.toNat := by omega
  constructor
  · intro h n hcollapses
    have hshown : numberText places x = integerText n :=
      (numberText_eq_integerText_iff hx hpos).mpr
        (Or.inr ⟨hcollapses.not_recognised hplaces, hcollapses.near⟩)
    exact absurd hcollapses.far (not_lt.mpr (h.near n hshown))
  · intro h
    have hnear : ∀ n : ℤ, numberText places x = integerText n →
        |x.toRat - n| ≤ 8 / 2 ^ 52 * max |x.toRat| |(n : ℚ)| := by
      intro n hshown
      rcases (numberText_eq_integerText_iff hx hpos).mp hshown with hfound | ⟨-, hrounded⟩
      · exact abs_sub_le_of_recognised hfound
      · by_contra hfar
        exact h n ⟨not_le.mp hfar, hrounded⟩
    refine ⟨fun hzero => ?_, hnear⟩
    have hvalue := hnear 0 hzero
    rw [Int.cast_zero, sub_zero, abs_zero, max_eq_left (abs_nonneg _)] at hvalue
    have habs : |x.toRat| ≤ 0 := by
      norm_num at hvalue
      linarith
    have hisZero := isZero_of_toRat_eq_zero hx (abs_eq_zero.mp (le_antisymm habs (abs_nonneg _)))
    rw [hne] at hisZero
    cases hisZero

/-- The number nearest to `10 ^ -10` is shown as itself in ten places: half a unit of the last one
is less. -/
theorem shownFaithfully_last_place :
    ShownFaithfully ⟨10, by decide⟩ (round false (mkRat 1 10000000000)) := by
  refine (shownFaithfully_iff ⟨10, by decide⟩ _ (by decide) (by decide +kernel)
    (by decide +kernel)).mpr ?_
  intro n hcollapses
  have hlow : 1 / 10 ^ 10 * (2 / 3) < (round false (mkRat 1 10000000000)).toRat := by decide +kernel
  have hhigh : (round false (mkRat 1 10000000000)).toRat < 1 / 2 := by decide +kernel
  have hnear : 2 * 10 ^ 10 * |(round false (mkRat 1 10000000000)).toRat - n| ≤ 1 := hcollapses.near
  generalize (round false (mkRat 1 10000000000)).toRat = q at hlow hhigh hnear
  by_cases hn : n = 0
  · rw [hn, Int.cast_zero, sub_zero, abs_of_pos (by linarith)] at hnear
    linarith
  · have hone : (1 : ℚ) ≤ |(n : ℚ)| := by exact_mod_cast Int.one_le_abs hn
    have htriangle := abs_sub_abs_le_abs_sub (n : ℚ) q
    rw [abs_of_pos (by linarith : 0 < q), abs_sub_comm] at htriangle
    linarith

/-- Every finite number but zero is shown faithfully, in ten to fifteen places. -/
def AlwaysShownFaithfully : Prop :=
  ∀ (places : Places) (x : Binary64), 10 ≤ places.toNat → places.toNat ≤ 15 → x.isFinite = true →
    x.isZero = false → ShownFaithfully places x

/-- Not every one is: `10 ^ -20` is shown as zero, and `2 + 10 ^ -13` is shown as two. -/
theorem not_alwaysShownFaithfully :
    let ten : Places := ⟨10, by decide⟩
    ¬ AlwaysShownFaithfully ∧
      numberText ten (round false (mkRat 1 100000000000000000000)) = "0" ∧
      numberText ten (round false (mkRat 20000000000001 10000000000000)) = "2" := by
  intro ten
  have hzero : numberText ten (round false (mkRat 1 100000000000000000000)) = "0" := by
    decide +kernel
  refine ⟨fun halways => ?_, hzero, by decide +kernel⟩
  have hshown := halways ten (round false (mkRat 1 100000000000000000000)) (by decide) (by decide)
    (by decide +kernel) (by decide +kernel)
  exact hshown.ne_zero hzero

end QuadraticSolver.Report

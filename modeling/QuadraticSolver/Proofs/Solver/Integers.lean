import QuadraticSolver.Proofs.Binary64.Moderate
import QuadraticSolver.Proofs.Solver.Branch
import QuadraticSolver.Proofs.Solver.Solution

/-!
# Equations with integer coefficients are solved exactly

As long as the two terms of the discriminant are numbers of the format, the only
roundings on the way to a rational root are the last ones: the discriminant is
the integer one rounded once, so its sign is right, its root is an integer
where it is a square, and the numerators are integers. What is rounded then is
the exact root (`solve_ofInts`).

Nothing of this holds past `2 ^ 53`, where the terms of the discriminant are
rounded before they are subtracted.
-/

namespace QuadraticSolver

/-! ## The tests on values of moderate size -/

namespace Binary64

section Values

variable {z : Bool} {q : ℚ} {x y : Binary64} {m n : ℤ}

/-- The check of an answer removes the sign of zero and nothing else. -/
theorem settle_round (hq : Moderate q) : (round z q).settle = .ok (round false q) := by
  have hfinite : (round z q).isFinite = true := isFinite_round hq.high
  have hsigned : (if (round z q).isZero then zero false else round z q) = round false q := by
    by_cases hzero : q = 0
    · have hisZero : (round z q).isZero = true := by
        apply isZero_of_toRat_eq_zero hfinite
        rw [hzero]
        exact toRat_round_zero z
      rw [if_pos hisZero, ← ofInt_zero, hzero, ofInt, Int.cast_zero]
    · have hnot : ¬ (round z q).isZero = true := fun h =>
        toRat_round_ne_zero (hq.low hzero) hq.high (toRat_of_isZero h)
      rw [if_neg hnot]
      exact round_congr fun h => absurd h hzero
  rw [settle, if_pos hfinite, hsigned]

/-- **A quotient of integers passes as the correctly rounded quotient.** -/
theorem settle_div (hx : x.isFinite = true) (hy : y.isFinite = true) (hm : x.toRat = m)
    (hn : y.toRat = n) (hm' : |m| ≤ 2 ^ 60) (hn' : |n| ≤ 2 ^ 60) (hne : n ≠ 0) :
    ∃ r, (x / y).settle = .ok r ∧ r.CorrectlyRounded ((m : ℚ) / n) := by
  have hyne : y.toRat ≠ 0 := by
    rw [hn]
    exact_mod_cast hne
  have hmoderate := moderate_div hm' hn' hne
  obtain ⟨z, hquotient⟩ := exists_div_eq hx hy hyne
  rw [hquotient, hm, hn]
  exact ⟨_, settle_round hmoderate, correctlyRounded_round hmoderate⟩

/-- **Of integers only zero is negligible.** -/
theorem IsInteger.isNegligible_iff (hx : x.IsInteger m) (hm : |m| ≤ 2 ^ 60) :
    isNegligible x = true ↔ m = 0 := by
  have htolerance := tolerance_bounds.2
  norm_num at htolerance
  rw [QuadraticSolver.isNegligible_iff (hx.isFinite hm)]
  rcases lt_trichotomy m 0 with hneg | rfl | hpos
  · have hle := hx.toRat_le_neg_one hm hneg
    refine iff_of_false (fun h => ?_) hneg.ne
    linarith [neg_abs_le x.toRat]
  · rw [hx.toRat_eq_zero, abs_zero]
    exact iff_of_true tolerance_pos.le rfl
  · have hle := hx.one_le_toRat hm hpos
    refine iff_of_false (fun h => ?_) hpos.ne'
    linarith [le_abs_self x.toRat]

end Values

end Binary64

/-! ## The solution -/

/-- The coefficients of `a·x² + b·x + c = 0`. -/
def Coefficients.ofInts (a b c : ℤ) : Coefficients :=
  ⟨.ofInt a, .ofInt b, .ofInt c⟩

/-- The discriminant of integers. -/
def integerDiscriminant (a b c : ℤ) : ℤ :=
  b ^ 2 - 4 * a * c

/-- The coefficients and the two terms of the discriminant are numbers of the format. -/
structure ExactTerms (a b c : ℤ) : Prop where
  square : |a| ≤ 2 ^ 53
  linear : |b| ≤ 2 ^ 53
  constant : |c| ≤ 2 ^ 53
  linear_sq : b ^ 2 ≤ 2 ^ 53
  four_mul : 4 * |a * c| ≤ 2 ^ 53

/-- What exact arithmetic says of the solution. -/
inductive Solution.ExactFor (a b c : ℤ) : Solution → Prop
  | pair {x₁ x₂ : Binary64} (ha : a ≠ 0) (hdelta : 0 < integerDiscriminant a b c)
      (hroots : ∀ s : ℤ, 0 ≤ s → s ^ 2 = integerDiscriminant a b c → s ^ 2 ≤ 2 ^ 53 →
        x₁.CorrectlyRounded (((-b + s : ℤ) : ℚ) / (2 * a : ℤ)) ∧
          x₂.CorrectlyRounded (((-b - s : ℤ) : ℚ) / (2 * a : ℤ))) :
      ExactFor a b c (.pair x₁ x₂)
  | double {x : Binary64} (ha : a ≠ 0) (hdelta : integerDiscriminant a b c = 0)
      (hx : x.CorrectlyRounded (((-b : ℤ) : ℚ) / (2 * a : ℤ))) : ExactFor a b c (.single x)
  | conjugates {re im : Binary64} (ha : a ≠ 0) (hdelta : integerDiscriminant a b c < 0) :
      ExactFor a b c (.conjugates re im)
  | linear {x : Binary64} (ha : a = 0) (hb : b ≠ 0)
      (hx : x.CorrectlyRounded (((-c : ℤ) : ℚ) / b)) : ExactFor a b c (.single x)
  | everyNumber (ha : a = 0) (hb : b = 0) (hc : c = 0) : ExactFor a b c .everyNumber
  | noNumber (ha : a = 0) (hb : b = 0) (hc : c ≠ 0) : ExactFor a b c .noNumber

open Binary64

section FirstDegree

variable {b c : ℤ}

/-- **The root of degree one is correctly rounded.** -/
theorem firstDegreeCandidate_ofInt (hb : |b| ≤ 2 ^ 53) (hc : |c| ≤ 2 ^ 53) (hne : b ≠ 0) :
    ∃ x, (firstDegreeCandidate (ofInt b) (ofInt c)).accept = .ok (.single x) ∧
      x.CorrectlyRounded (((-c : ℤ) : ℚ) / b) := by
  have hB := isInteger_ofInt b
  have hC := (isInteger_ofInt c).neg
  have hc' : |-c| ≤ 2 ^ 53 := (abs_neg c).trans_le hc
  have hb60 := abs_le_two_pow_60 hb
  have hc60 := abs_le_two_pow_60 hc'
  obtain ⟨x, hsettle, hx⟩ := settle_div (hC.isFinite hc60) (hB.isFinite hb60) (hC.toRat_eq hc')
    (hB.toRat_eq hb) hc60 hb60 hne
  have hnot : ¬ isNegligible (ofInt b) = true := fun h => hne ((hB.isNegligible_iff hb60).mp h)
  refine ⟨x, ?_, hx⟩
  rw [firstDegreeCandidate, if_neg hnot]
  exact Solution.accept_single hsettle

theorem firstDegreeCandidate_ofInt_zero (hc : |c| ≤ 2 ^ 53) :
    firstDegreeCandidate (ofInt 0) (ofInt c) = if c = 0 then .everyNumber else .noNumber := by
  have hB := (isInteger_ofInt 0).isNegligible_iff (by norm_num)
  have hC := (isInteger_ofInt c).isNegligible_iff (abs_le_two_pow_60 hc)
  rw [firstDegreeCandidate, if_pos (hB.mpr rfl)]
  by_cases hzero : c = 0
  · rw [if_pos (hC.mpr hzero), if_pos hzero]
  · rw [if_neg fun h => hzero (hC.mp h), if_neg hzero]

end FirstDegree

section SecondDegree

variable {a b c : ℤ}

/-- The divisor of the formulas and the factor in the discriminant are exact. -/
theorem twice_ofInt (ha : |a| ≤ 2 ^ 53) :
    (ofInt 4 * ofInt a).isFinite = true ∧ (ofInt 4 * ofInt a).toRat = (4 * a : ℤ) ∧
      (ofInt 2 * ofInt a).isFinite = true ∧ (ofInt 2 * ofInt a).toRat = (2 * a : ℤ) := by
  have hA := isInteger_ofInt a
  have hfour : (ofInt 4 * ofInt a).isFinite = true := by
    refine (isInteger_mul (isFinite_ofInt (by decide)) (hA.isFinite (abs_le_two_pow_60 ha))
      (toRat_ofInt (by decide)) (hA.toRat_eq ha)).isFinite ?_
    rw [abs_mul]
    norm_num
    linarith
  obtain ⟨hvalue, htwo, hvalue'⟩ := toRat_four_mul hfour
  rw [hA.toRat_eq ha] at hvalue hvalue'
  exact ⟨hfour, by exact_mod_cast hvalue, htwo, by exact_mod_cast hvalue'⟩

/-- **The discriminant is the integer one, rounded once.** -/
theorem isInteger_discriminant (h : ExactTerms a b c) :
    (discriminant (ofInt a) (ofInt b) (ofInt c)).IsInteger (integerDiscriminant a b c) := by
  have hB := isInteger_ofInt b
  have hC := isInteger_ofInt c
  have hbfinite := hB.isFinite (abs_le_two_pow_60 h.linear)
  obtain ⟨hfour, hvalue, -, -⟩ := twice_ofInt h.square
  have hsquare : (ofInt b * ofInt b).IsInteger (b * b) :=
    isInteger_mul hbfinite hbfinite (hB.toRat_eq h.linear) (hB.toRat_eq h.linear)
  have hproduct : (ofInt 4 * ofInt a * ofInt c).IsInteger (4 * a * c) :=
    isInteger_mul hfour (hC.isFinite (abs_le_two_pow_60 h.constant)) hvalue
      (hC.toRat_eq h.constant)
  have hdelta : integerDiscriminant a b c = b * b - 4 * a * c := by
    rw [integerDiscriminant, sq]
  rw [hdelta]
  refine hsquare.sub hproduct ?_ ?_
  · rw [← sq, abs_of_nonneg (sq_nonneg b)]
    exact h.linear_sq
  · rw [mul_assoc, abs_mul]
    exact h.four_mul

theorem abs_integerDiscriminant_le (h : ExactTerms a b c) :
    |integerDiscriminant a b c| ≤ 2 ^ 54 := by
  have hproduct := abs_le.mp (show |a * c| ≤ 2 ^ 51 by linarith [h.four_mul])
  have hsquare := sq_nonneg b
  have hsquare' := h.linear_sq
  rw [integerDiscriminant, abs_le]
  constructor <;> linarith [hproduct.1, hproduct.2]

theorem abs_linear_le (h : ExactTerms a b c) : |b| ≤ 2 ^ 27 :=
  abs_le_of_sq_le_sq (h.linear_sq.trans (by norm_num)) (by norm_num)

/-- Any numerator of moderate size over the divisor of the formulas is finite. -/
theorem isFinite_div_twice {x : Binary64} (h : ExactTerms a b c) (ha : a ≠ 0)
    (hx : x.isFinite = true) (hhigh : |x.toRat| ≤ 2 ^ 200) :
    (x / (ofInt 2 * ofInt a)).isFinite = true := by
  obtain ⟨-, -, htwo, hvalue⟩ := twice_ofInt h.square
  refine isFinite_div hx htwo ?_ hhigh
  rw [hvalue]
  exact_mod_cast Int.one_le_abs (mul_ne_zero two_ne_zero ha)

/-- A numerator that is an integer of the format has a correctly rounded quotient. -/
theorem settle_div_twice {x : Binary64} {n : ℤ} (h : ExactTerms a b c) (ha : a ≠ 0)
    (hx : x.IsInteger n) (hn : |n| ≤ 2 ^ 53) :
    ∃ y, (x / (ofInt 2 * ofInt a)).settle = .ok y ∧
      y.CorrectlyRounded ((n : ℚ) / (2 * a : ℤ)) := by
  obtain ⟨-, -, htwo, hvalue⟩ := twice_ofInt h.square
  have htwice : |2 * a| ≤ 2 ^ 60 := by
    rw [abs_mul]
    norm_num
    linarith [h.square]
  have hn' := abs_le_two_pow_60 hn
  exact settle_div (hx.isFinite hn') htwo (hx.toRat_eq hn) hvalue hn' htwice
    (mul_ne_zero two_ne_zero ha)

/-- A double root is correctly rounded, and so is the real part of conjugates. -/
theorem settle_neg_div_twice (h : ExactTerms a b c) (ha : a ≠ 0) :
    ∃ x, (-ofInt b / (ofInt 2 * ofInt a)).settle = .ok x ∧
      x.CorrectlyRounded (((-b : ℤ) : ℚ) / (2 * a : ℤ)) :=
  settle_div_twice h ha (isInteger_ofInt b).neg ((abs_neg b).trans_le h.linear)

/-- Of a positive discriminant the root is not too great, and it is the integer root where there
is one. -/
theorem sqrt_of_isInteger {x : Binary64} {n : ℤ} (hx : x.IsInteger n) (hn : |n| ≤ 2 ^ 54)
    (hpos : 0 < n) :
    (x.sqrt.isFinite = true ∧ |x.sqrt.toRat| ≤ 2 ^ 60) ∧
      ∀ s : ℤ, 0 ≤ s → s ^ 2 = n → s ^ 2 ≤ 2 ^ 53 → x.sqrt = ofInt s := by
  have hn60 : |n| ≤ 2 ^ 60 := hn.trans (by norm_num)
  have hfinite := hx.isFinite hn60
  have hone := hx.one_le_toRat hn60 hpos
  refine ⟨sqrt_bound hfinite (by linarith) ?_, ?_⟩
  · obtain ⟨z, rfl⟩ := hx
    have hle := (isNear_round hfinite).abs_le
    have hn' : |(n : ℚ)| ≤ 2 ^ 54 := by exact_mod_cast hn
    linarith [le_abs_self (round z n).toRat]
  · rintro s hs rfl hsmall
    obtain ⟨t, rfl⟩ := Int.eq_ofNat_of_zero_le hs
    have ht : 0 < t := by
      rw [Nat.pos_iff_ne_zero]
      rintro rfl
      exact lt_irrefl 0 hpos
    refine sqrt_eq_ofInt ht ?_
    rw [hx.toRat_eq (by rwa [abs_of_pos hpos])]
    push_cast
    rfl

/-- **Two real roots**: both are finite, and where the discriminant is a square both are correctly
rounded. -/
theorem exists_settle_pair {d : Binary64} (h : ExactTerms a b c) (ha : a ≠ 0)
    (hd : d.IsInteger (integerDiscriminant a b c)) (hdelta : 0 < integerDiscriminant a b c) :
    ∃ x₁ x₂, ((-ofInt b + d.sqrt) / (ofInt 2 * ofInt a)).settle = .ok x₁ ∧
      ((-ofInt b - d.sqrt) / (ofInt 2 * ofInt a)).settle = .ok x₂ ∧
      ∀ s : ℤ, 0 ≤ s → s ^ 2 = integerDiscriminant a b c → s ^ 2 ≤ 2 ^ 53 →
        x₁.CorrectlyRounded (((-b + s : ℤ) : ℚ) / (2 * a : ℤ)) ∧
          x₂.CorrectlyRounded (((-b - s : ℤ) : ℚ) / (2 * a : ℤ)) := by
  obtain ⟨⟨hfinite, hbound⟩, hsquare⟩ :=
    sqrt_of_isInteger hd (abs_integerDiscriminant_le h) hdelta
  have hB := (isInteger_ofInt b).neg
  have hb := abs_linear_le h
  have hb' : |-b| ≤ 2 ^ 27 := (abs_neg b).trans_le hb
  have hb53 : |-b| ≤ 2 ^ 53 := hb'.trans (by norm_num)
  have hBfinite := hB.isFinite (abs_le_two_pow_60 hb53)
  by_cases hroot : ∃ s : ℤ, 0 ≤ s ∧ s ^ 2 = integerDiscriminant a b c ∧ s ^ 2 ≤ 2 ^ 53
  · obtain ⟨s, hs, hs2, hsmall⟩ := hroot
    have hs27 : |s| ≤ 2 ^ 27 := abs_le_of_sq_le_sq (hsmall.trans (by norm_num)) (by norm_num)
    have hs53 : |s| ≤ 2 ^ 53 := hs27.trans (by norm_num)
    have hsum : |-b + s| ≤ 2 ^ 53 := (abs_add_le _ _).trans (by linarith)
    have hdiff : |-b - s| ≤ 2 ^ 53 := (abs_sub _ _).trans (by linarith)
    rw [hsquare s hs hs2 hsmall]
    obtain ⟨x₁, hx₁, hrounded₁⟩ :=
      settle_div_twice h ha (hB.add (isInteger_ofInt s) hb53 hs53) hsum
    obtain ⟨x₂, hx₂, hrounded₂⟩ :=
      settle_div_twice h ha (hB.sub (isInteger_ofInt s) hb53 hs53) hdiff
    refine ⟨x₁, x₂, hx₁, hx₂, fun t ht ht2 _ => ?_⟩
    obtain rfl : t = s := (sq_eq_sq₀ ht hs).mp (ht2.trans hs2.symm)
    exact ⟨hrounded₁, hrounded₂⟩
  · -- no integer root is left to speak of: the numerators are rounded, and finite is all they are
    have hBvalue : |(-ofInt b).toRat| ≤ 2 ^ 60 := by
      rw [hB.toRat_eq hb53]
      exact_mod_cast abs_le_two_pow_60 hb53
    obtain ⟨z, hsum⟩ := exists_add_eq hBfinite hfinite
    obtain ⟨z', hdiff⟩ := exists_sub_eq hBfinite hfinite
    have hsum_le := (abs_add_le (-ofInt b).toRat d.sqrt.toRat).trans (add_le_add hBvalue hbound)
    have hdiff_le := (abs_sub (-ofInt b).toRat d.sqrt.toRat).trans (add_le_add hBvalue hbound)
    have hnumerator : ∀ {z : Bool} {q : ℚ}, |q| ≤ 2 ^ 60 + 2 ^ 60 →
        (round z q).isFinite = true ∧ |(round z q).toRat| ≤ 2 ^ 200 := by
      intro z q hq
      have hround : (round z q).isFinite = true := isFinite_round (hq.trans (by norm_num))
      refine ⟨hround, (isNear_round hround).abs_le.trans ?_⟩
      linarith
    rw [hsum, hdiff]
    refine ⟨_, _, settle_eq_ok ?_, settle_eq_ok ?_,
      fun s hs hs2 hsmall => absurd ⟨s, hs, hs2, hsmall⟩ hroot⟩
    · exact isFinite_div_twice h ha (hnumerator hsum_le).1 (hnumerator hsum_le).2
    · exact isFinite_div_twice h ha (hnumerator hdiff_le).1 (hnumerator hdiff_le).2

/-- **Conjugates**: both parts are finite. -/
theorem exists_settle_im {d : Binary64} (h : ExactTerms a b c) (ha : a ≠ 0)
    (hd : d.IsInteger (integerDiscriminant a b c)) (hdelta : integerDiscriminant a b c < 0) :
    ∃ im, ((-d).sqrt / (ofInt 2 * ofInt a)).abs.settle = .ok im := by
  have hsize := (abs_neg (integerDiscriminant a b c)).trans_le (abs_integerDiscriminant_le h)
  obtain ⟨⟨hfinite, hbound⟩, -⟩ := sqrt_of_isInteger hd.neg hsize (neg_pos.mpr hdelta)
  refine ⟨_, settle_eq_ok ?_⟩
  rw [isFinite_abs_iff]
  exact isFinite_div_twice h ha hfinite (hbound.trans (by norm_num))

/-- **The solution for integers** is given, and it is the one of exact arithmetic. -/
theorem exists_exactFor (h : ExactTerms a b c) :
    ∃ solution, solve (.ofInts a b c) = .ok solution ∧ solution.ExactFor a b c := by
  have hA := isInteger_ofInt a
  have ha60 := abs_le_two_pow_60 h.square
  have hcandidate : (Coefficients.ofInts a b c).candidate =
      secondDegreeCandidate (ofInt a) (ofInt b) (ofInt c) := candidate_eq (hA.isFinite ha60)
  rw [solve, hcandidate, secondDegreeCandidate]
  by_cases ha : a = 0
  · rw [if_pos ((hA.isNegligible_iff ha60).mpr ha)]
    by_cases hb : b = 0
    · rw [hb, firstDegreeCandidate_ofInt_zero h.constant]
      by_cases hc : c = 0
      · rw [if_pos hc]
        exact ⟨_, rfl, .everyNumber ha rfl hc⟩
      · rw [if_neg hc]
        exact ⟨_, rfl, .noNumber ha rfl hc⟩
    · obtain ⟨x, haccept, hx⟩ := firstDegreeCandidate_ofInt h.linear h.constant hb
      exact ⟨_, haccept, .linear ha hb hx⟩
  · rw [if_neg fun hzero => ha ((hA.isNegligible_iff ha60).mp hzero)]
    have hd := isInteger_discriminant h
    generalize discriminant (ofInt a) (ofInt b) (ofInt c) = d at hd ⊢
    have hd60 : |integerDiscriminant a b c| ≤ 2 ^ 60 :=
      (abs_integerDiscriminant_le h).trans (by norm_num)
    have hdfinite := hd.isFinite hd60
    dsimp only
    obtain ⟨re, hre, hrounded⟩ := settle_neg_div_twice h ha
    rcases lt_trichotomy (integerDiscriminant a b c) 0 with hneg | hzero | hpos
    · obtain ⟨im, him⟩ := exists_settle_im h ha hd hneg
      rw [if_neg fun h => hneg.ne ((hd.isNegligible_iff hd60).mp h), if_neg fun h => ?_]
      · exact ⟨_, Solution.accept_conjugates hre him, .conjugates ha hneg⟩
      · linarith [(zero_lt_iff hdfinite).mp h, hd.toRat_le_neg_one hd60 hneg]
    · rw [if_pos ((hd.isNegligible_iff hd60).mpr hzero)]
      exact ⟨_, Solution.accept_single hre, .double ha hzero hrounded⟩
    · obtain ⟨x₁, x₂, hx₁, hx₂, hroots⟩ := exists_settle_pair h ha hd hpos
      have hone := hd.one_le_toRat hd60 hpos
      rw [if_neg fun h => hpos.ne' ((hd.isNegligible_iff hd60).mp h),
        if_pos ((zero_lt_iff hdfinite).mpr (by linarith))]
      exact ⟨_, Solution.accept_pair hx₁ hx₂, .pair ha hpos hroots⟩

end SecondDegree

/-! ## What exact arithmetic comes to -/

/-- The solution is the one of exact arithmetic: the kind is the right one, and a rational root is
the number of the format for it. -/
structure Solution.SolvesExactly (solution : Solution) (a b c : ℤ) : Prop where
  pair : (∃ x₁ x₂, solution = .pair x₁ x₂) ↔ a ≠ 0 ∧ 0 < integerDiscriminant a b c
  single : (∃ x, solution = .single x) ↔
    a ≠ 0 ∧ integerDiscriminant a b c = 0 ∨ a = 0 ∧ b ≠ 0
  conjugates : (∃ re im, solution = .conjugates re im) ↔ a ≠ 0 ∧ integerDiscriminant a b c < 0
  everyNumber : solution = .everyNumber ↔ a = 0 ∧ b = 0 ∧ c = 0
  noNumber : solution = .noNumber ↔ a = 0 ∧ b = 0 ∧ c ≠ 0
  double_root : ∀ x, solution = .single x → a ≠ 0 → x.CorrectlyRounded (-b / (2 * a))
  linear_root : ∀ x, solution = .single x → a = 0 → x.CorrectlyRounded (-c / b)
  two_roots : ∀ x₁ x₂, solution = .pair x₁ x₂ → ∀ s : ℤ, 0 ≤ s →
    integerDiscriminant a b c = s ^ 2 → integerDiscriminant a b c ≤ 2 ^ 53 →
      x₁.CorrectlyRounded ((-b + s) / (2 * a)) ∧ x₂.CorrectlyRounded ((-b - s) / (2 * a))
  rational_root : ∀ q : ℚ, a * q ^ 2 + b * q + c = 0 → a ≠ 0 ∨ b ≠ 0 →
    integerDiscriminant a b c ≤ 2 ^ 53 → ∃ x ∈ solution.roots, x.CorrectlyRounded q
  integer_root : ∀ n : ℤ, a * n ^ 2 + b * n + c = 0 → a ≠ 0 ∨ b ≠ 0 →
    integerDiscriminant a b c ≤ 2 ^ 53 → .ofInt n ∈ solution.roots ∧ (ofInt n).toRat = n

section Exact

variable {a b c : ℤ} {solution : Solution}

/-- At a root, the discriminant is a square. -/
theorem integerDiscriminant_eq_sq {q : ℚ} (h : a * q ^ 2 + b * q + c = 0) :
    (integerDiscriminant a b c : ℚ) = (2 * a * q + b) ^ 2 := by
  have hidentity : (2 * a * q + b) ^ 2 =
      integerDiscriminant a b c + 4 * a * (a * q ^ 2 + b * q + c) := by
    rw [integerDiscriminant]
    push_cast
    ring
  rw [hidentity, h, mul_zero, add_zero]

/-- The discriminant of an equation with a rational root is the square of an integer. -/
theorem exists_sq_eq_integerDiscriminant {q : ℚ} (h : a * q ^ 2 + b * q + c = 0) :
    ∃ s : ℤ, 0 ≤ s ∧ s ^ 2 = integerDiscriminant a b c ∧
      (2 * a * q + b = s ∨ 2 * a * q + b = -s) := by
  have hsquare := integerDiscriminant_eq_sq h
  have hisSquare : IsSquare (integerDiscriminant a b c : ℚ) := ⟨2 * a * q + b, by rw [hsquare, sq]⟩
  obtain ⟨r, hr⟩ := Rat.isSquare_intCast_iff.mp hisSquare
  have hs : |r| ^ 2 = integerDiscriminant a b c := by rw [sq_abs, hr, sq]
  refine ⟨|r|, abs_nonneg r, hs, ?_⟩
  rw [← sq_eq_sq_iff_eq_or_eq_neg, ← hsquare, ← hs]
  push_cast
  rfl

/-- An integer root is not greater than a coefficient. -/
theorem abs_le_of_root (h : ExactTerms a b c) {n : ℤ} (hroot : a * n ^ 2 + b * n + c = 0)
    (hne : a ≠ 0 ∨ b ≠ 0) : |n| ≤ 2 ^ 53 := by
  by_cases hn : n = 0
  · rw [hn]
    norm_num
  have hfactor : n * (a * n + b) = -c := by
    linear_combination hroot
  by_cases hc : c = 0
  · rw [hc, neg_zero] at hfactor
    have hb : b = -(a * n) := by linarith [(mul_eq_zero.mp hfactor).resolve_left hn]
    have ha : a ≠ 0 := by
      rintro rfl
      exact hne.elim (fun h => h rfl) fun h => h (by rw [hb, zero_mul, neg_zero])
    have hle := h.linear
    rw [hb] at hle
    replace hle := (abs_neg (a * n)).symm.trans_le hle
    rw [abs_mul] at hle
    exact (le_mul_of_one_le_left (abs_nonneg n) (Int.one_le_abs ha)).trans hle
  · have hdvd : n ∣ c := (dvd_neg.mp ⟨_, hfactor.symm⟩)
    exact (Int.le_of_dvd (abs_pos.mpr hc) ((abs_dvd_abs n c).mpr hdvd)).trans h.constant

theorem Solution.ExactFor.rational_root (h : solution.ExactFor a b c) {q : ℚ}
    (hroot : a * q ^ 2 + b * q + c = 0) (hne : a ≠ 0 ∨ b ≠ 0)
    (hsmall : integerDiscriminant a b c ≤ 2 ^ 53) : ∃ x ∈ solution.roots, x.CorrectlyRounded q := by
  cases h with
  | pair ha hdelta hroots =>
    have ha' : (2 * a : ℚ) ≠ 0 := by exact_mod_cast mul_ne_zero two_ne_zero ha
    obtain ⟨s, hs, hs2, hcases⟩ := exists_sq_eq_integerDiscriminant hroot
    obtain ⟨h₁, h₂⟩ := hroots s hs hs2 (hs2.trans_le hsmall)
    push_cast at h₁ h₂
    rcases hcases with hplus | hminus
    · refine ⟨_, List.mem_cons_self, ?_⟩
      rwa [eq_div_of_mul_eq ha' (show q * (2 * a) = -b + s by linarith)]
    · refine ⟨_, List.mem_cons_of_mem _ List.mem_cons_self, ?_⟩
      rwa [eq_div_of_mul_eq ha' (show q * (2 * a) = -b - s by linarith)]
  | double ha hdelta hx =>
    have ha' : (2 * a : ℚ) ≠ 0 := by exact_mod_cast mul_ne_zero two_ne_zero ha
    have hsquare := integerDiscriminant_eq_sq hroot
    rw [hdelta, Int.cast_zero] at hsquare
    have hzero : 2 * a * q + b = 0 := pow_eq_zero_iff two_ne_zero |>.mp hsquare.symm
    push_cast at hx
    refine ⟨_, List.mem_cons_self, ?_⟩
    rwa [eq_div_of_mul_eq ha' (show q * (2 * a) = -b by linarith)]
  | conjugates ha hdelta =>
    have hsquare := integerDiscriminant_eq_sq hroot
    have hneg : (integerDiscriminant a b c : ℚ) < 0 := by exact_mod_cast hdelta
    exact absurd hsquare (hneg.trans_le (sq_nonneg _)).ne
  | linear ha hb hx =>
    have hb' : (b : ℚ) ≠ 0 := by exact_mod_cast hb
    rw [ha, Int.cast_zero, zero_mul, zero_add] at hroot
    push_cast at hx
    refine ⟨_, List.mem_cons_self, ?_⟩
    rwa [eq_div_of_mul_eq hb' (show q * b = -c by linarith)]
  | everyNumber ha hb hc => exact absurd hne (by simp [ha, hb])
  | noNumber ha hb hc => exact absurd hne (by simp [ha, hb])

/-- What is said case by case, said of each kind. -/
theorem Solution.ExactFor.solvesExactly (h : solution.ExactFor a b c) (hterms : ExactTerms a b c) :
    solution.SolvesExactly a b c where
  pair := by
    cases h <;> simp [*]
    omega
  single := by cases h <;> simp [*] <;> omega
  conjugates := by
    cases h <;> simp [*]
    omega
  everyNumber := by cases h <;> simp [*]
  noNumber := by cases h <;> simp [*]
  double_root := by
    rintro x rfl ha
    cases h with
    | double _ _ hx => exact_mod_cast hx
    | linear ha' _ _ => exact absurd ha' ha
  linear_root := by
    rintro x rfl ha
    cases h with
    | double ha' _ _ => exact absurd ha ha'
    | linear _ _ hx => exact_mod_cast hx
  two_roots := by
    rintro x₁ x₂ rfl s hs hs2 hsmall
    cases h with
    | pair _ _ hroots => exact_mod_cast hroots s hs hs2.symm (hs2.symm.trans_le hsmall)
  rational_root := fun q hroot hne hsmall => h.rational_root hroot hne hsmall
  integer_root := by
    intro n hroot hne hsmall
    obtain ⟨x, hx, hrounded⟩ := h.rational_root (q := n) (by exact_mod_cast hroot) hne hsmall
    obtain rfl : x = ofInt n := hrounded.eq
    have hn := abs_le_of_root hterms hroot hne
    exact ⟨hx, (isInteger_ofInt n).toRat_eq hn⟩

/-- **Equations with integer coefficients are solved exactly**, as long as the terms of the
discriminant are numbers of the format: there is a solution, exact arithmetic decides its kind, and
every rational root in it is correctly rounded. -/
theorem solve_ofInts (a b c : ℤ) (h : ExactTerms a b c) :
    ∃ solution, solve (.ofInts a b c) = .ok solution ∧ solution.SolvesExactly a b c := by
  obtain ⟨solution, hsolve, hexact⟩ := exists_exactFor h
  exact ⟨solution, hsolve, hexact.solvesExactly h⟩

/-- `x² - 3x + 2 = 0` has the two roots 2 and 1. -/
theorem solve_ofInts_two_one :
    ∃ solution, solve (.ofInts 1 (-3) 2) = .ok solution ∧
      (∃ x₁ x₂, solution = .pair x₁ x₂) ∧
      .ofInt 2 ∈ solution.roots ∧ .ofInt 1 ∈ solution.roots := by
  have hterms : ExactTerms 1 (-3) 2 := by constructor <;> decide
  obtain ⟨solution, hsolve, hexact⟩ := solve_ofInts 1 (-3) 2 hterms
  have hsmall : integerDiscriminant 1 (-3) 2 ≤ 2 ^ 53 := by decide
  exact ⟨solution, hsolve, hexact.pair.mpr (by decide),
    (hexact.integer_root 2 (by decide) (by decide) hsmall).1,
    (hexact.integer_root 1 (by decide) (by decide) hsmall).1⟩

end Exact

end QuadraticSolver

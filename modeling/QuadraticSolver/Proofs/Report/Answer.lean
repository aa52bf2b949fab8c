import QuadraticSolver.Proofs.Report.Display
import QuadraticSolver.Proofs.Solver.Residual
import QuadraticSolver.Report.Message

/-!
# What an answer carries

Whatever the coefficients are, an answer carries finite numbers only and no zero
with a sign, and a refusal is for a result that is not finite (`answer_law`). Most
of this is the check at the end. What the check does not see is that conjugates
are not real: a discriminant that is not a number is followed by one that is
refused, and any other that gives conjugates is below the tolerance, so its root
is not lost in the division, whatever the divisor (`pos_of_settled_conjugates`).

A positive part is written without a sign, so the sentence for conjugates never
has two signs in a row (`unsignedText_partText`).
-/

namespace QuadraticSolver

open Binary64

/-! ## Values -/

/-- Finite values, no zero with a sign, and conjugates that are not real. -/
structure Solution.WellFormed (s : Solution) : Prop where
  finite : ∀ x ∈ s.values, x.isFinite = true
  unsigned_zero : ∀ x ∈ s.values, x ≠ .zero true
  conjugates : ∀ re im, s = .conjugates re im → (Binary64.zero false).lt im = true

section Values

variable {x y a b c re im : Binary64} {candidate s : Solution} {e : EquationError}

theorem Binary64.SettlesTo.ne_zero (h : x.SettlesTo y) : y ≠ .zero true := by
  rw [h.result]
  split
  next => decide
  next hzero =>
    rintro rfl
    exact hzero (by decide)

/-- The values of an answer are settled values. -/
theorem Solution.Settled.exists_settlesTo (h : candidate.Settled s) :
    ∀ y ∈ s.values, ∃ x : Binary64, x.SettlesTo y := by
  cases h with
  | everyNumber => exact fun y hy => absurd hy List.not_mem_nil
  | noNumber => exact fun y hy => absurd hy List.not_mem_nil
  | single hx => simpa [values] using ⟨_, hx⟩
  | pair h₁ h₂ => simpa [values] using ⟨⟨_, h₁⟩, ⟨_, h₂⟩⟩
  | conjugates hre him => simpa [values] using ⟨⟨_, hre⟩, ⟨_, him⟩⟩

/-- The check refuses for one reason. -/
theorem Solution.eq_nonFinite_of_accept (h : candidate.accept = .error e) :
    e = .malformed .nonFinite := by
  unfold accept at h
  cases hsettle : candidate.settle with
  | ok s =>
    rw [hsettle] at h
    cases h
  | error x =>
    rw [hsettle] at h
    exact (Except.error.inj h).symm

/-! ## Conjugates are not real -/

/-- A root that is not small is not lost in a division by the double of a number. -/
theorem quotient_ne_zero {n : Binary64} (hfinite : (ofInt 2 * a).isFinite = true)
    (hvalue : (ofInt 2 * a).toRat = 2 * a.toRat) (ha : a.toRat ≠ 0)
    (hn : 1 / 2 ^ 16 ≤ n.toRat) (hx : (n / (ofInt 2 * a)).isFinite = true) :
    (n / (ofInt 2 * a)).toRat ≠ 0 := by
  intro hzero
  obtain ⟨-, herror⟩ := quotient_error hfinite hvalue ha hx
  have hah := abs_toRat_mul_halfUnit_le a
  rw [hzero, mul_zero, abs_sub_comm, sub_zero,
    abs_of_nonneg (le_trans (by positivity) hn)] at herror
  linarith

/-- The root of a discriminant that gives conjugates, and its divisor. -/
theorem sqrt_neg_discriminant (ha : isNegligible a = false)
    (hdelta : isNegligible (discriminant a b c) = false)
    (hneg : ¬ (Binary64.zero false).lt (discriminant a b c) = true)
    (hsqrt : (-discriminant a b c).sqrt.isFinite = true) :
    (ofInt 2 * a).isFinite = true ∧ (ofInt 2 * a).toRat = 2 * a.toRat ∧ a.toRat ≠ 0 ∧
      1 / 2 ^ 16 ≤ (-discriminant a b c).sqrt.toRat := by
  have hopposite := isFinite_of_isFinite_sqrt hsqrt
  have hfinite := isFinite_neg_iff.mp hopposite
  obtain ⟨htwo, hvalue, -⟩ := discriminant_spec hfinite
  have hne := toRat_ne_zero_of_not_isNegligible (isNear_mul htwo).2.1 ha
  have hnegligible : isNegligible (-discriminant a b c) = false := by
    unfold isNegligible
    rw [show (-discriminant a b c).abs = (discriminant a b c).abs from Binary64.abs_neg _]
    exact hdelta
  have hpos : (Binary64.zero false).lt (-discriminant a b c) = true := by
    rw [zero_lt_iff hopposite, toRat_neg]
    linarith [lt_neg_tolerance_of_not_pos hfinite hdelta hneg, tolerance_pos]
  exact ⟨htwo, hvalue, hne, (sqrt_discriminant hopposite hnegligible hpos hsqrt).1⟩

/-- **Conjugates are not real.** -/
theorem pos_of_settled_conjugates
    (h : (secondDegreeCandidate a b c).Settled (.conjugates re im)) : 0 < im.toRat := by
  generalize hcandidate : secondDegreeCandidate a b c = candidate at h
  cases h with
  | conjugates hre him =>
    obtain ⟨ha, hdelta, hneg, -, rfl⟩ := secondDegreeCandidate_conjugates hcandidate
    have hquotient := isFinite_abs_iff.mp him.finite
    obtain ⟨htwo, hvalue, hne, hlarge⟩ :=
      sqrt_neg_discriminant ha hdelta hneg (isFinite_of_isFinite_div hquotient)
    rw [him.toRat_eq, toRat_abs]
    exact abs_pos.mpr (quotient_ne_zero htwo hvalue hne hlarge hquotient)

theorem firstDegreeCandidate_not_settled_conjugates :
    ¬ (firstDegreeCandidate b c).Settled (.conjugates re im) := by
  intro h
  have hle := length_firstDegreeCandidate_le b c
  generalize firstDegreeCandidate b c = candidate at h hle
  cases h with
  | conjugates hre him => exact absurd hle (by simp [Solution.values])

/-- **The check and the formulas together**: a solution that is given is well-formed, whichever
formulas it was given by. -/
theorem Solution.Settled.wellFormed (h : candidate.Settled s)
    (hcandidate : candidate = secondDegreeCandidate a b c ∨ candidate = firstDegreeCandidate b c) :
    s.WellFormed where
  finite := by
    intro y hy
    obtain ⟨x, hx⟩ := h.exists_settlesTo y hy
    exact hx.isFinite
  unsigned_zero := by
    intro y hy
    obtain ⟨x, hx⟩ := h.exists_settlesTo y hy
    exact hx.ne_zero
  conjugates := by
    rintro re im rfl
    have him : im.isFinite = true := by
      obtain ⟨x, hx⟩ := h.exists_settlesTo im (List.mem_cons_of_mem _ List.mem_cons_self)
      exact hx.isFinite
    rcases hcandidate with rfl | rfl
    · exact (zero_lt_iff him).mpr (pos_of_settled_conjugates h)
    · exact absurd h firstDegreeCandidate_not_settled_conjugates

end Values

/-! ## The sentence -/

namespace Report

/-- A numeral without a sign: a digit, and digits and points behind it. -/
structure UnsignedText (text : String) : Prop where
  first : ∃ c rest, text.toList = c :: rest ∧ c.isDigit = true
  rest : ∀ c ∈ text.toList, c.isDigit = true ∨ c = '.'

variable {places : Places} {x : Binary64}

theorem unsignedText_of_negative_eq_false {d : Decimal} (h : d.negative = false) :
    UnsignedText d.text := by
  have hchars : d.text.toList = d.unsigned := by
    rw [Decimal.text, String.toList_ofList, Decimal.characters, h, if_neg Bool.false_ne_true]
  refine ⟨?_, fun c hc => d.mem_unsigned (hchars ▸ hc)⟩
  obtain ⟨whole, fraction, htext, hne, hwhole, -⟩ := d.unsigned_spec
  obtain ⟨c, tail, rfl⟩ := List.exists_cons_of_ne_nil hne
  rw [hchars, htext]
  split
  · exact ⟨c, tail, rfl, hwhole c List.mem_cons_self⟩
  · exact ⟨c, _, rfl, hwhole c List.mem_cons_self⟩

/-- A positive number is not recognised as a negative integer. -/
theorem nonneg_of_recognised {n : ℤ} (hpos : 0 < x.toRat)
    (h : simpleFraction? x = some (n : ℚ)) : 0 ≤ n := by
  by_contra hneg
  have hn : (n : ℚ) < 0 := by exact_mod_cast not_le.mp hneg
  have hnear := abs_sub_le_of_recognised h
  rw [abs_of_pos (by linarith), abs_of_pos hpos, abs_of_neg hn] at hnear
  have hmax : max x.toRat (-n : ℚ) ≤ x.toRat - n := max_le (by linarith) (by linarith)
  linarith

/-- **A positive part is written without a sign.** -/
theorem unsignedText_partText (hx : x.isFinite = true) (hpos : 0 < x.toRat) :
    UnsignedText (partText places x) := by
  have hfixed : UnsignedText (x.fixedText places) := by
    obtain ⟨s, m, rfl⟩ := exists_of_isFinite hx
    have hsign : s = false := by
      by_contra hs
      rw [Bool.not_eq_false] at hs
      rw [hs, toRat_finite] at hpos
      have hunits : (0 : ℚ) ≤ m.units / unitsPerOne := by positivity
      simp only [signFactor, if_true] at hpos
      linarith
    have hnegative : (m.fixed places.toNat s).negative = false := by
      rw [hsign]
      rfl
    exact unsignedText_of_negative_eq_false hnegative
  unfold partText
  split
  next r hr =>
    split
    next hden =>
      have hinteger : (r.num : ℚ) = r := (Rat.den_eq_one_iff r).mp hden
      have hnonneg := nonneg_of_recognised hpos (hinteger.symm ▸ hr)
      exact unsignedText_of_negative_eq_false (decide_eq_false (not_lt.mpr hnonneg))
    next => exact hfixed
  next => exact hfixed

end Report

/-! ## The law -/

/-- **What every answer carries**, for all coefficients and whichever way they are solved. -/
theorem answer_law (a b c : Binary64) (answer : Except EquationError Solution)
    (h : answer = solve ⟨a, b, c⟩ ∨ answer = solveSecondDegree a b c ∨
      answer = solveFirstDegree b c) :
    (∀ e, answer = .error e → e = .malformed .nonFinite) ∧
      ∀ s, answer = .ok s → s.WellFormed ∧
        ∀ re im, s = .conjugates re im → ∀ (v : Char) (places : Places), ∃ r i : String,
          Report.UnsignedText i ∧
            Report.message s v places =
              "Deux solutions complexes : " ++ String.ofList [v] ++ "1 = " ++ r ++ " + " ++ i ++
                "i, " ++ String.ofList [v] ++ "2 = " ++ r ++ " - " ++ i ++ "i" := by
  obtain ⟨candidate, haccept, hcandidate⟩ : ∃ candidate : Solution, answer = candidate.accept ∧
      (candidate = secondDegreeCandidate a b c ∨ candidate = firstDegreeCandidate b c) := by
    rcases h with h | h | h
    · exact ⟨_, h, candidate_cases ⟨a, b, c⟩⟩
    · exact ⟨_, h, Or.inl rfl⟩
    · exact ⟨_, h, Or.inr rfl⟩
  refine ⟨fun e he => Solution.eq_nonFinite_of_accept (haccept.symm.trans he), fun s hs => ?_⟩
  have hwellFormed :=
    (Solution.settled_of_accept (haccept.symm.trans hs)).wellFormed hcandidate
  refine ⟨hwellFormed, ?_⟩
  rintro re im rfl v places
  have him := hwellFormed.finite im (List.mem_cons_of_mem _ List.mem_cons_self)
  have hpos := (zero_lt_iff him).mp (hwellFormed.conjugates re im rfl)
  exact ⟨Report.partText places re, Report.partText places im,
    Report.unsignedText_partText him hpos, rfl⟩

/-- Four times the first coefficient of `2¹⁰²¹x² + 2⁻¹⁰⁵² = 0` is the greatest power of two, and its
discriminant is `-2⁻²⁹`. The imaginary part is tiny, but it is not zero. -/
theorem answer_law_great_divisor :
    let k : Coefficients := ⟨.finite false ⟨4503599627370496, 2043, by decide⟩, .zero true,
      .finite false ⟨4194304, 0, by decide⟩⟩
    let s : Solution := .conjugates (.zero false) (.finite false ⟨194368031998, 0, by decide⟩)
    solve k = .ok s ∧ s.WellFormed ∧ ∃ r i : String, Report.UnsignedText i ∧
      Report.message s 'x' ⟨10, by decide⟩ =
        "Deux solutions complexes : " ++ String.ofList ['x'] ++ "1 = " ++ r ++ " + " ++ i ++
          "i, " ++ String.ofList ['x'] ++ "2 = " ++ r ++ " - " ++ i ++ "i" := by
  intro k s
  have hsolve : solve k = .ok s := by decide +kernel
  obtain ⟨hwellFormed, htext⟩ := (answer_law k.a k.b k.c (solve k) (Or.inl rfl)).2 s hsolve
  exact ⟨hsolve, hwellFormed, htext _ _ rfl 'x' ⟨10, by decide⟩⟩

end QuadraticSolver

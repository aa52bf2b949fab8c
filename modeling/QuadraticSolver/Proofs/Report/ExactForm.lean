import QuadraticSolver.Proofs.Equation.IntegerSums
import QuadraticSolver.Proofs.Evaluation
import QuadraticSolver.Proofs.Report.Recognition
import QuadraticSolver.Proofs.Solver.Integers

/-!
# The exact form of a fraction

An equation `q·x = p` is brought to its integers, the integers to the number
nearest to `p / q`, and the number to the fraction that is shown
(`recognition_law`). For all but the greatest fractions within the limits that is
`p / q` again; that it is so for all of them does not hold
(`not_recognisedExactly`).
-/

namespace QuadraticSolver

open Binary64 Fraction

/-! ## The equation of a fraction -/

/-- The sign that is written in front of an integer. -/
def signOf (n : ℤ) : Option Sign :=
  if n < 0 then some .minus else none

/-- An integer as a term. -/
def WrittenTerm.ofInteger (n : ℤ) (power : WrittenPower) : WrittenTerm :=
  ⟨signOf n, Nat.toDigits 10 n.natAbs, power⟩

section Terms

variable {v : Char} {n : ℤ} {power : WrittenPower}

/-- The text of an integer is the one of the term. -/
theorem toList_integerText (n : ℤ) :
    (Report.integerText n).toList = (WrittenTerm.ofInteger n .constant).characters v := by
  have hconstant : (WrittenTerm.ofInteger n .constant).characters v =
      Sign.characters (signOf n) ++ Nat.toDigits 10 n.natAbs :=
    List.append_nil _
  rw [Report.integerText, Decimal.text, String.toList_ofList, Decimal.characters,
    Decimal.unsigned_ofInt, hconstant, signOf]
  by_cases hneg : n < 0
  · have hsign : (Decimal.ofInt n).negative = true := decide_eq_true hneg
    rw [if_pos hsign, if_pos hneg]
    rfl
  · have hsign : ¬ (Decimal.ofInt n).negative = true := by simpa [Decimal.ofInt] using hneg
    rw [if_neg hsign, if_neg hneg]
    rfl

theorem characters_linear (n : ℤ) :
    (WrittenTerm.ofInteger n .linear).characters v = (Report.integerText n).toList ++ [v] := by
  rw [toList_integerText (v := v)]
  simp [WrittenTerm.characters, WrittenTerm.ofInteger, WrittenTerm.numeral,
    WrittenPower.characters]

theorem digits_ofInteger : ∀ c ∈ (WrittenTerm.ofInteger n power).run, c.isDigit = true :=
  fun _ hc => Nat.isDigit_of_mem_toDigits (by decide) (by decide) hc

/-- The term of an integer reads as the integer. -/
theorem integer_ofInteger (n : ℤ) (power : WrittenPower) :
    (WrittenTerm.ofInteger n power).integer = n := by
  have hvalue : Nat.ofDigitChars 10 (WrittenTerm.ofInteger n power).run 0 = n.natAbs :=
    Nat.ofDigitChars_ten_toDigits
  have hne : (WrittenTerm.ofInteger n power).run ≠ [] := Nat.toDigits_ne_nil
  have hnegative : (WrittenTerm.ofInteger n power).isNegative = decide (n < 0) := by
    unfold WrittenTerm.isNegative WrittenTerm.ofInteger signOf
    by_cases hneg : n < 0 <;> simp [hneg]
  rw [WrittenTerm.integer, if_neg hne, hvalue, hnegative]
  by_cases hneg : n < 0
  · rw [if_pos (decide_eq_true hneg)]
    omega
  · rw [if_neg (by simpa using hneg)]
    omega

theorem integersOf_singleton (d : Degree) (n : ℤ) (power : WrittenPower) :
    integersOf d [WrittenTerm.ofInteger n power] = if power.degree = d then [n] else [] := by
  have hpower : (WrittenTerm.ofInteger n power).power = power := rfl
  rw [integersOf, List.filter_singleton, hpower]
  by_cases hd : power.degree = d
  · rw [if_pos hd, decide_eq_true hd]
    exact congrArg ([·]) (integer_ofInteger n power)
  · rw [if_neg hd, decide_eq_false hd]
    rfl

theorem reads_ofInteger (hn : n.natAbs ≤ 2 ^ 53) (power : WrittenPower) :
    Reads v ((WrittenTerm.ofInteger n power).characters v) [WrittenTerm.ofInteger n power] where
  text := by simp
  wellFormed := by
    intro w hw
    obtain rfl := List.mem_singleton.mp hw
    exact WrittenTerm.wellFormed_of_digits digits_ofInteger (fun _ => Nat.toDigits_ne_nil)
      (by rwa [integer_ofInteger])
  chain := List.isChain_singleton _

end Terms

section Equations

variable {p q : ℤ} {v : Char} {equation : String}

/-- **The equation of a fraction** is brought to its integers. -/
theorem normalise_fraction (hletter : v.isAlpha = true) (hp : p.natAbs ≤ 2 ^ 53)
    (hq : q.natAbs ≤ 2 ^ 53)
    (hspaced : Text.Spaced
      ((Report.integerText q).toList ++ v :: '=' :: (Report.integerText p).toList)
      equation.toList) :
    ∃ n, normalise equation = .ok n ∧ n.unknown = v ∧ n.coefficients = .ofInts 0 q (-p) := by
  have hreadsL : Reads v _ [WrittenTerm.ofInteger q .linear] := reads_ofInteger hq _
  have hreadsR : Reads v _ [WrittenTerm.ofInteger p .constant] := reads_ofInteger hp _
  have htext : (Report.integerText q).toList ++ v :: '=' :: (Report.integerText p).toList =
      (WrittenTerm.ofInteger q .linear).characters v ++
        '=' :: (WrittenTerm.ofInteger p .constant).characters v := by
    rw [characters_linear, ← toList_integerText, List.append_assoc]
    rfl
  have hsides : Text.compact equation.toList =
      (WrittenTerm.ofInteger q .linear).characters v ++
        '=' :: (WrittenTerm.ofInteger p .constant).characters v := by
    rw [htext] at hspaced
    refine ((Text.spaced_iff fun c hc => ?_).mp hspaced).symm
    rcases List.mem_append.mp hc with hc | hc
    · exact hreadsL.isBlank_eq_false hletter hc
    rcases List.mem_cons.mp hc with rfl | hc
    · decide
    · exact hreadsR.isBlank_eq_false hletter hc
  have hpoint : ∀ w ∈ [WrittenTerm.ofInteger q .linear] ++ [WrittenTerm.ofInteger p .constant],
      '.' ∉ w.run := by
    intro w hw hmem
    have hdigit : '.'.isDigit = true := by
      rcases List.mem_cons.mp hw with rfl | hw
      · exact digits_ofInteger _ hmem
      · obtain rfl := List.mem_singleton.mp hw
        exact digits_ofInteger _ hmem
    exact absurd hdigit (by decide)
  have hsize : ∀ d, integerSize d [WrittenTerm.ofInteger q .linear]
      [WrittenTerm.ofInteger p .constant] ≤ 2 ^ 53 := by
    intro d
    rw [integerSize, integersOf_singleton, integersOf_singleton]
    cases d with
    | square => simp [WrittenPower.degree]
    | linear => simpa [WrittenPower.degree] using hq
    | constant => simpa [WrittenPower.degree] using hp
  have hv : v ∈ (WrittenTerm.ofInteger q .linear).characters v ++
      (WrittenTerm.ofInteger p .constant).characters v := by
    rw [characters_linear]
    simp
  refine ⟨_, normalise_of_reads hletter hsides hv hreadsL hreadsR hpoint hsize, rfl, ?_⟩
  simp only [integerCoefficients, integerSum, integersOf_singleton, Coefficients.ofInts]
  simp [WrittenPower.degree]

/-- The root of the equation of a fraction is the number nearest to it. -/
theorem solve_fraction (ht : Target p q) :
    solve (.ofInts 0 q (-p)) = .ok (.single (round false ((p : ℚ) / q))) := by
  have hq := ht.pos
  have hq' := ht.le
  have hp := ht.abs_le
  have hterms : ExactTerms 0 q (-p) := by
    refine ⟨by norm_num, by rw [abs_of_pos hq]; omega, (abs_neg p).trans_le (by omega), ?_, by simp⟩
    calc q ^ 2 ≤ 1000 ^ 2 := pow_le_pow_left₀ hq.le hq' 2
      _ ≤ 2 ^ 53 := by norm_num
  obtain ⟨solution, hsolve, hexact⟩ := exists_exactFor hterms
  cases hexact with
  | linear _ _ hx =>
    rw [Int.neg_neg] at hx
    rw [hsolve, hx.eq]
  | everyNumber _ hzero _ => exact absurd hzero hq.ne'
  | noNumber _ hzero _ => exact absurd hzero hq.ne'
  | pair ha _ _ => exact absurd rfl ha
  | double ha _ _ => exact absurd rfl ha
  | conjugates ha _ => exact absurd rfl ha

end Equations

/-! ## What is shown -/

/-- The text of a number that is recognised as a fraction. -/
def exactText (places : Places) (x : Binary64) (r : ℚ) : String :=
  if r.den = 1 then Report.integerText r.num
  else Report.integerText r.num ++ "/" ++ Report.integerText r.den ++ " ≈ " ++ x.fixedText places

section Shown

variable {p q : ℤ}

/-- **The fraction of an equation is shown exactly**, as far as it is recognised: the number nearest
to a fraction within the limits is recognised as this fraction, or as the neighbour that is taken
for it, and that is what the message for the equation of the fraction shows, however the equation is
spaced and for any number of places that can be written. -/
theorem recognition_law (ht : Target p q) :
    (∀ x : Binary64, x.IsNearest ((p : ℚ) / q) → ∃ r, Recognises x p q r) ∧
      ∃ r, Recognises (round false ((p : ℚ) / q)) p q r ∧
        ∀ (v : Char) (equation : String) (places : Places), v.isAlpha = true →
          Text.Spaced ((Report.integerText q).toList ++ v :: '=' :: (Report.integerText p).toList)
            equation.toList →
          ∃ e, evaluate? equation places.toNat = .ok (some e) ∧
            evaluate equation places = .ok e ∧
            e.solution = .single (round false ((p : ℚ) / q)) ∧
            e.message = "Une solution réelle : " ++ String.ofList [v] ++ " = " ++
              exactText places (round false ((p : ℚ) / q)) r := by
  refine ⟨fun x hx => exists_recognises ht hx, ?_⟩
  have hnearest : (round false ((p : ℚ) / q)).IsNearest ((p : ℚ) / q) :=
    isNearest_round (isFinite_round (ht.abs_div_le.trans (by norm_num)))
  obtain ⟨r, hr⟩ := exists_recognises ht hnearest
  refine ⟨r, hr, fun v equation places hletter hspaced => ?_⟩
  have hp := ht.abs_le
  have hq := ht.pos
  have hq' := ht.le
  rw [Int.abs_eq_natAbs] at hp
  obtain ⟨n, hn, hunknown, hcoefficients⟩ :=
    normalise_fraction hletter (by omega) (by omega) hspaced
  have hevaluate := evaluate_eq_solve hn places
  rw [hcoefficients, solve_fraction ht] at hevaluate
  have hanswer := evaluate?_eq_map_some equation places.fits
  rw [hevaluate] at hanswer
  refine ⟨_, hanswer, hevaluate, rfl, ?_⟩
  show "Une solution réelle : " ++ String.ofList [n.unknown] ++ " = " ++
    Report.numberText places (round false ((p : ℚ) / q)) = _
  rw [hunknown, Report.numberText, hr.found]
  rfl

/-- One third, and its equation with a blank in it, in four places. -/
theorem recognition_law_third :
    (∃ r, Recognises (round false (((1 : ℤ) : ℚ) / (3 : ℤ))) 1 3 r ∧ r.num = 1 ∧ r.den = 3) ∧
      ∃ e, evaluate? (String.ofList ['3', ' ', 'x', '=', '1']) 4 = .ok (some e) ∧
        e.message = "Une solution réelle : x = 1/3 ≈ 0.3333" := by
  obtain ⟨-, r, hr, hshown⟩ := recognition_law (p := 1) (q := 3)
    ⟨isCoprime_one_left, by decide, by decide, by decide⟩
  have hterms := hr.exact (by decide)
  have hnum : r.num = 1 := hterms.1
  have hden : r.den = 3 := by exact_mod_cast hterms.2
  have hspaced : Text.Spaced ((Report.integerText 3).toList ++ 'x' :: '=' ::
      (Report.integerText 1).toList) (String.ofList ['3', ' ', 'x', '=', '1']).toList := by
    rw [String.toList_ofList]
    exact .keep '3' (.blank (by decide) (Text.spaced_refl ['x', '=', '1']))
  obtain ⟨e, he, -, -, hmessage⟩ := hshown 'x' _ ⟨4, by decide⟩ (by decide) hspaced
  refine ⟨⟨r, hr, hnum, hden⟩, e, he, ?_⟩
  rw [hmessage, exactText, hnum, hden]
  decide +kernel

/-- Every number nearest to a fraction within the limits is recognised as that fraction. -/
def RecognisedExactly : Prop :=
  ∀ (p q : ℤ) (x : Binary64), Target p q → x.IsNearest ((p : ℚ) / q) →
    simpleFraction? x = some ((p : ℚ) / q)

/-- Not every one is: `999999999001 / 1000` is recognised as `998999999002 / 999`. -/
theorem not_recognisedExactly : ¬ RecognisedExactly := by
  intro hexactly
  have ht : Target 999999999001 1000 := by
    refine ⟨?_, by decide, by decide, by decide⟩
    rw [Int.isCoprime_iff_gcd_eq_one]
    decide
  have hnearest : (round false (((999999999001 : ℤ) : ℚ) / (1000 : ℤ))).IsNearest
      (((999999999001 : ℤ) : ℚ) / (1000 : ℤ)) :=
    isNearest_round (isFinite_round (ht.abs_div_le.trans (by norm_num)))
  have hvalue : (((999999999001 : ℤ) : ℚ) / (1000 : ℤ)) = mkRat 999999999001 1000 := by
    rw [Rat.mkRat_eq_div]
    norm_num
  have hfound := hexactly _ _ _ ht hnearest
  rw [hvalue] at hfound
  have hneighbour : simpleFraction? (round false (mkRat 999999999001 1000)) =
      some (mkRat 998999999002 999) := by
    decide +kernel
  rw [hneighbour, Option.some.injEq] at hfound
  exact absurd hfound (by decide)

end Shown

end QuadraticSolver

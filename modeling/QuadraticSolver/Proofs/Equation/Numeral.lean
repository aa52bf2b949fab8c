import QuadraticSolver.Proofs.Decimal.Literal
import QuadraticSolver.Proofs.Decimal.Text
import QuadraticSolver.Proofs.Equation.Grammar

/-!
# The numerals of a term

What the readers of numerals do with the sign and the run of a written term
(`number_numeral`, `coefficient_numeral`): a run with a digit and at most one
point is its exact value rounded once, an empty run before the unknown is one,
and every other run is refused with its text.
-/

namespace QuadraticSolver

/-! ## Runs -/

section Runs

variable {run whole rest : List Char}

/-- A run is digits only, or it has a first point. -/
theorem run_cases (h : ∀ c ∈ run, Lexer.isRun c = true) :
    (∀ c ∈ run, c.isDigit = true) ∨
      ∃ whole rest, run = whole ++ '.' :: rest ∧ ∀ c ∈ whole, c.isDigit = true := by
  induction run with
  | nil => exact Or.inl fun c hc => absurd hc List.not_mem_nil
  | cons c run ih =>
    obtain ⟨hc, hrun⟩ := List.forall_mem_cons.mp h
    rcases Lexer.isDigit_or_eq_of_isRun hc with hdigit | rfl
    · rcases ih hrun with hall | ⟨whole, rest, rfl, hwhole⟩
      · exact Or.inl (List.forall_mem_cons.mpr ⟨hdigit, hall⟩)
      · exact Or.inr ⟨c :: whole, rest, rfl, List.forall_mem_cons.mpr ⟨hdigit, hwhole⟩⟩
    · exact Or.inr ⟨[], run, rfl, fun c hc => absurd hc List.not_mem_nil⟩

theorem count_point_eq_zero (h : ∀ c ∈ whole, c.isDigit = true) : whole.count '.' = 0 :=
  List.count_eq_zero.mpr fun hmem => absurd (h _ hmem) (by decide)

theorem afterPoint_of_digits (h : ∀ c ∈ whole, c.isDigit = true) :
    whole.dropWhile (· != '.') = [] := by
  refine List.dropWhile_eq_nil_iff.mpr fun c hc => bne_iff_ne.mpr ?_
  rintro rfl
  exact absurd (h _ hc) (by decide)

theorem afterPoint_append_point (h : ∀ c ∈ whole, c.isDigit = true) :
    (whole ++ '.' :: rest).dropWhile (· != '.') = '.' :: rest := by
  rw [List.dropWhile_append, afterPoint_of_digits h]
  simp

/-- The value of digits is their integer. -/
theorem runValue_of_digits (h : ∀ c ∈ run, c.isDigit = true) :
    runValue run = Nat.ofDigitChars 10 run 0 := by
  rw [runValue, List.filter_eq_self.mpr h, afterPoint_of_digits h]
  simp

/-- With a point, the value is the integer of the digits on both sides of it, over a power of ten
for each digit behind it. -/
theorem runValue_append_point (hwhole : ∀ c ∈ whole, c.isDigit = true)
    (hrest : ∀ c ∈ rest, c.isDigit = true) :
    runValue (whole ++ '.' :: rest) =
      (Nat.ofDigitChars 10 (whole ++ rest) 0 : ℚ) / 10 ^ rest.length := by
  rw [runValue, afterPoint_append_point hwhole, List.drop_one, List.tail_cons, List.filter_append,
    List.filter_cons_of_neg (by decide), List.filter_eq_self.mpr hwhole,
    List.filter_eq_self.mpr hrest]

end Runs

namespace WrittenTerm

variable {w : WrittenTerm}

/-- The decimal value that a numeral of a term writes. -/
def literal (w : WrittenTerm) : Literal where
  negative := w.isNegative
  significand := Nat.ofDigitChars 10 (w.run.filter Char.isDigit) 0
  exponent := -(((w.run.dropWhile (· != '.')).drop 1).length : ℤ)

theorem toRat_literal (w : WrittenTerm) :
    w.literal.toRat = if w.isNegative then -runValue w.run else runValue w.run := by
  have hvalue : (w.literal.numerator : ℚ) / w.literal.denominator = runValue w.run := by
    simp [Literal.numerator, Literal.denominator, literal, runValue]
  rw [Literal.toRat_eq, hvalue]
  cases hsign : w.isNegative <;> simp [literal, hsign, Binary64.signFactor]

/-- The numeral of a run is read as the coefficient of its term. -/
theorem toBinary64_literal (h : w.run ≠ []) : w.literal.toBinary64 = w.coefficient := by
  rw [Literal.toBinary64_eq_round, toRat_literal, coefficient, if_neg h]
  rfl

theorem takeSign_numeral (h : ∀ c ∈ w.run, Lexer.isRun c = true) :
    Literal.takeSign w.numeral = (w.isNegative, w.run) := by
  obtain ⟨sign, run, power⟩ := w
  match sign with
  | some .plus => rfl
  | some .minus => rfl
  | none =>
    cases run with
    | nil => rfl
    | cons c run =>
      have hc : Lexer.isRun c = true := h c List.mem_cons_self
      have hplus : c ≠ '+' := by rintro rfl; exact absurd hc (by decide)
      have hminus : c ≠ '-' := by rintro rfl; exact absurd hc (by decide)
      show Literal.takeSign (c :: run) = (false, c :: run)
      unfold Literal.takeSign
      split <;> simp_all

theorem any_isDigit_of_digits {run : List Char} (h : ∀ c ∈ run, c.isDigit = true) :
    run.any Char.isDigit = true ↔ run ≠ [] := by
  cases run with
  | nil => simp
  | cons c run => simp [h c List.mem_cons_self]

/-- **What a numeral writes**: with a digit and at most one point it is a literal, and nothing
otherwise. -/
theorem read?_numeral (h : ∀ c ∈ w.run, Lexer.isRun c = true) :
    Literal.read? w.numeral =
      if w.run.any Char.isDigit ∧ w.run.count '.' ≤ 1 then some w.literal else none := by
  rcases run_cases h with hall | ⟨whole, rest, hrun, hwhole⟩
  · have hfilter : w.run.filter Char.isDigit = w.run := List.filter_eq_self.mpr hall
    have hplaces : (w.run.dropWhile (· != '.')).drop 1 = [] := by
      rw [afterPoint_of_digits hall, List.drop_nil]
    rw [Literal.read?_of_parts (takeSign_numeral h) (Literal.takeDigits_of_digits hall) rfl]
    simp [any_isDigit_of_digits hall, count_point_eq_zero hall, Literal.readPower?, literal,
      hfilter, hplaces, ite_not]
  · have hcount : w.run.count '.' = rest.count '.' + 1 := by
      rw [hrun, List.count_append, count_point_eq_zero hwhole, List.count_cons_self, Nat.zero_add]
    have hdigit : w.run.any Char.isDigit = (whole.any Char.isDigit || rest.any Char.isDigit) := by
      rw [hrun, List.any_append, List.any_cons]
      rfl
    have hrest : ∀ c ∈ rest, Lexer.isRun c = true := by
      intro c hc
      exact h c (hrun ▸ List.mem_append_right _ (List.mem_cons_of_mem _ hc))
    have hplaces : (w.run.dropWhile (· != '.')).drop 1 = rest := by
      rw [hrun, afterPoint_append_point hwhole, List.drop_one, List.tail_cons]
    have htake : Literal.takeDigits w.run = (whole, '.' :: rest) := by
      rw [hrun, Literal.takeDigits_append_point hwhole]
    rcases run_cases hrest with hall | ⟨fraction, tail, htail, hfraction⟩
    · have hfilter : w.run.filter Char.isDigit = whole ++ rest := by
        rw [hrun, List.filter_append, List.filter_cons_of_neg (by decide),
          List.filter_eq_self.mpr hwhole, List.filter_eq_self.mpr hall]
      have hsome : (whole = [] ∧ rest = []) ↔ ¬ w.run.any Char.isDigit = true := by
        rw [hdigit, Bool.or_eq_true, any_isDigit_of_digits hwhole, any_isDigit_of_digits hall]
        tauto
      rw [Literal.read?_of_parts (takeSign_numeral h) htake (Literal.takeDigits_of_digits hall)]
      simp only [hsome, ite_not, hcount, count_point_eq_zero hall, Nat.zero_add, Nat.le_refl,
        and_true]
      simp [Literal.readPower?, literal, hfilter, hplaces]
    · have hmany : ¬ w.run.count '.' ≤ 1 := by
        rw [hcount, htail, List.count_append, List.count_cons_self]
        omega
      have hrestTake : Literal.takeDigits rest = (fraction, '.' :: tail) := by
        rw [htail, Literal.takeDigits_append_point hfraction]
      rw [Literal.read?_of_parts (takeSign_numeral h) htake hrestTake]
      simp [hmany, Literal.readPower?]

/-! ## Readers of numerals -/

theorem run_ne_nil (h : w.run.any Char.isDigit = true) : w.run ≠ [] := by
  rintro hempty
  rw [hempty] at h
  cases h

/-- **The value of a numeral** is the coefficient of its term, where the run is a number. -/
theorem number_numeral (h : ∀ c ∈ w.run, Lexer.isRun c = true) :
    Lexer.number w.numeral =
      if w.IsNumber then .ok w.coefficient
      else .error (.coefficient (String.ofList w.numeral)) := by
  unfold Lexer.number
  rw [read?_numeral h]
  by_cases hread : w.run.any Char.isDigit ∧ w.run.count '.' ≤ 1
  · rw [if_pos hread]
    simp only [toBinary64_literal (run_ne_nil hread.1), IsNumber, hread, true_and]
  · have hnot : ¬ w.IsNumber := fun hnumber => hread ⟨hnumber.1, hnumber.2.1⟩
    rw [if_neg hread, if_neg hnot]

/-- A sign alone has no run behind it. -/
theorem numeral_ne (h : ∀ c ∈ w.run, Lexer.isRun c = true) (hrun : w.run ≠ [])
    (sign : Option Sign) : w.numeral ≠ Sign.characters sign := by
  intro heq
  have htake := takeSign_numeral h
  rw [heq] at htake
  match sign with
  | none => exact hrun (congrArg Prod.snd htake).symm
  | some .plus => exact hrun (congrArg Prod.snd htake).symm
  | some .minus => exact hrun (congrArg Prod.snd htake).symm

/-- **The coefficient before the unknown**: an empty run is one, with its sign. -/
theorem coefficient_numeral (h : ∀ c ∈ w.run, Lexer.isRun c = true) :
    Lexer.coefficient w.numeral =
      if w.run = [] ∨ w.IsNumber then .ok w.coefficient
      else .error (.coefficient (String.ofList w.numeral)) := by
  by_cases hrun : w.run = []
  · have hnumeral : w.numeral = Sign.characters w.sign := by
      rw [numeral, hrun, List.append_nil]
    rw [if_pos (Or.inl hrun), hnumeral, coefficient, if_pos hrun, isNegative]
    rcases w.sign with _ | _ | _
    · exact if_pos (Or.inl rfl)
    · exact if_pos (Or.inr rfl)
    · exact (if_neg (by decide)).trans (if_pos rfl)
  · have hplus : ¬ (w.numeral = [] ∨ w.numeral = ['+']) :=
      not_or.mpr ⟨numeral_ne h hrun none, numeral_ne h hrun (some .plus)⟩
    have hminus : w.numeral ≠ ['-'] := numeral_ne h hrun (some .minus)
    rw [Lexer.coefficient, if_neg hplus, if_neg hminus, number_numeral h]
    simp only [hrun, false_or]

end WrittenTerm

end QuadraticSolver

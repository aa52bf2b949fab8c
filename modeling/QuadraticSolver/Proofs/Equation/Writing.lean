import QuadraticSolver.Proofs.Decimal.Shortest
import QuadraticSolver.Proofs.Decimal.Text
import QuadraticSolver.Proofs.Equation.Sides

/-!
# Writing terms and reading them

A term is written out as its sign, the shortest numeral of its distance from
zero, and the unknown with a mark of the square as its degree asks. Reading a
text of such terms gives the terms again, bit for bit (`tokens_writtenOut`):
the numeral is one run whose value rounds to the number, and the sign in front
of every term keeps it apart from the one before.
-/

namespace QuadraticSolver

/-- The characters of a term that is written out. -/
def writtenOut (unknown : Char) (t : WrittenPower × Binary64) : List Char :=
  (if t.2.isNegative then '-' else '+') :: (t.2.abs.shortest ++ t.1.characters unknown)

/-! ## A numeral as a run -/

/-- The characters of a numeral without its sign are a run that is a number, and its value is the
numeral's. -/
theorem Decimal.unsigned_run (d : Decimal) :
    (∀ c ∈ d.unsigned, Lexer.isRun c = true) ∧ d.unsigned.any Char.isDigit = true ∧
      d.unsigned.count '.' ≤ 1 ∧ runValue d.unsigned = d.distance := by
  obtain ⟨whole, fraction, htext, hne, hwhole, hfraction, hlength, hvalue⟩ := d.unsigned_spec
  have hrun : ∀ cs : List Char, (∀ c ∈ cs, c.isDigit = true) → ∀ c ∈ cs, Lexer.isRun c = true :=
    fun cs hcs c hc => by rw [Lexer.isRun, hcs c hc, Bool.true_or]
  have hdigit : whole.any Char.isDigit = true :=
    (WrittenTerm.any_isDigit_of_digits hwhole).mpr hne
  rw [htext]
  split
  next hplaces =>
    obtain rfl : fraction = [] := List.length_eq_zero_iff.mp (hlength.trans hplaces)
    refine ⟨hrun whole hwhole, hdigit, (count_point_eq_zero hwhole).trans_le (Nat.zero_le 1), ?_⟩
    rw [List.append_nil] at hvalue
    rw [runValue_of_digits hwhole, hvalue, distance, hplaces, Nat.pow_zero, Nat.cast_one, div_one]
  next =>
    refine ⟨List.forall_mem_append.mpr ⟨hrun whole hwhole, ?_⟩, ?_, ?_, ?_⟩
    · exact List.forall_mem_cons.mpr ⟨by decide, hrun fraction hfraction⟩
    · rw [List.any_append, hdigit, Bool.true_or]
    · rw [List.count_append, List.count_cons_self, count_point_eq_zero hwhole,
        count_point_eq_zero hfraction]
    · rw [runValue_append_point hwhole hfraction, hvalue, hlength, distance, Nat.cast_pow]
      rfl

/-! ## A term written out -/

namespace WrittenTerm

/-- The term as it is written out. -/
def ofNumber (t : WrittenPower × Binary64) : WrittenTerm where
  sign := some (if t.2.isNegative then .minus else .plus)
  run := t.2.abs.shortest
  power := t.1

theorem characters_ofNumber (unknown : Char) (t : WrittenPower × Binary64) :
    (ofNumber t).characters unknown = writtenOut unknown t := by
  have hsign : Sign.characters (ofNumber t).sign = [if t.2.isNegative then '-' else '+'] := by
    unfold ofNumber
    cases t.2.isNegative <;> rfl
  rw [characters, numeral, hsign]
  rfl

theorem isNegative_ofNumber (t : WrittenPower × Binary64) :
    (ofNumber t).isNegative = t.2.isNegative := by
  unfold isNegative ofNumber
  cases t.2.isNegative <;> rfl

variable {t : WrittenPower × Binary64}

/-- What is written behind the sign is the shortest numeral of the magnitude. -/
theorem exists_run_ofNumber (ht : t.2.isFinite = true) :
    ∃ m, t.2 = .finite t.2.isNegative m ∧ (ofNumber t).run = (m.shortest false).unsigned := by
  obtain ⟨power, x⟩ := t
  cases x with
  | nan => cases ht
  | infinity negative => cases ht
  | finite negative m =>
    have hsign : (m.shortest false).negative = false := m.negative_shortest false
    refine ⟨m, rfl, ?_⟩
    show (m.shortest false).characters = (m.shortest false).unsigned
    rw [Decimal.characters, hsign]
    rfl

/-- **A number that is written out is read back**, bit for bit. -/
theorem coefficient_ofNumber (ht : t.2.isFinite = true) : (ofNumber t).coefficient = t.2 := by
  obtain ⟨m, hm, hrun⟩ := exists_run_ofNumber ht
  obtain ⟨-, hdigit, -, hvalue⟩ := (m.shortest false).unsigned_run
  have hsigned : ∀ q : ℚ, (if t.2.isNegative then -q else q) =
      Binary64.signFactor t.2.isNegative * q := by
    intro q
    cases t.2.isNegative <;> simp [Binary64.signFactor]
  rw [coefficient, if_neg (run_ne_nil (hrun ▸ hdigit)), isNegative_ofNumber, hsigned, hrun, hvalue,
    Binary64.round_shortest, ← hm]

theorem term_ofNumber (ht : t.2.isFinite = true) :
    (ofNumber t).term = ⟨t.1.degree, t.2⟩ := by
  rw [term, coefficient_ofNumber ht]
  rfl

theorem wellFormed_ofNumber (ht : t.2.isFinite = true) : (ofNumber t).WellFormed := by
  obtain ⟨m, -, hrun⟩ := exists_run_ofNumber ht
  obtain ⟨hchars, hdigit, hpoint, -⟩ := (m.shortest false).unsigned_run
  rw [← hrun] at hchars hdigit hpoint
  refine ⟨hchars, fun _ => hdigit, Or.inr ⟨hdigit, hpoint, ?_⟩⟩
  rw [coefficient_ofNumber ht]
  exact ht

end WrittenTerm

/-! ## Terms one behind the other -/

/-- Terms written out one behind the other are a side. -/
theorem reads_writtenOut (unknown : Char) {ts : List (WrittenPower × Binary64)}
    (hfinite : ∀ t ∈ ts, t.2.isFinite = true) :
    Reads unknown (ts.flatMap (writtenOut unknown)) (ts.map WrittenTerm.ofNumber) := by
  have hside : (ts.map WrittenTerm.ofNumber).flatMap (WrittenTerm.characters unknown) =
      ts.flatMap (writtenOut unknown) := by
    rw [List.flatMap_map]
    exact List.flatMap_congr fun t _ => WrittenTerm.characters_ofNumber unknown t
  rw [← hside]
  refine reads_of_signed (fun w hw => ?_) (fun w hw => ?_)
  · obtain ⟨t, ht, rfl⟩ := List.mem_map.mp hw
    exact WrittenTerm.wellFormed_ofNumber (hfinite t ht)
  · obtain ⟨t, -, rfl⟩ := List.mem_map.mp hw
    exact Option.some_ne_none _

/-- **Writing terms and reading them is the identity.** Every list of terms with finite
coefficients, of any size and either sign, zeros among them, is read back bit for bit from its text,
whichever marks of the square it is written with. -/
theorem tokens_writtenOut (unknown : Char) (hletter : unknown.isAlpha = true)
    (ts : List (WrittenPower × Binary64)) (hfinite : ∀ t ∈ ts, t.2.isFinite = true) :
    (terms unknown (ts.flatMap (writtenOut unknown))).map Token.sequence =
      .ok (ts.map (fun t => Token.term ⟨t.1.degree, t.2⟩) ++ [.finish]) := by
  have hterms : (ts.map WrittenTerm.ofNumber).map WrittenTerm.term =
      ts.map fun t => ⟨t.1.degree, t.2⟩ := by
    rw [List.map_map]
    exact List.map_congr_left fun t ht => WrittenTerm.term_ofNumber (hfinite t ht)
  rw [(reads_writtenOut unknown hfinite).terms_eq hletter, hterms]
  simp [Except.map, Token.sequence, Function.comp_def]

/-- A negative zero, one half with the unknown, and a square with a caret. -/
theorem tokens_writtenOut_half :
    (terms 'x' ['-', '0', '+', '0', '.', '5', 'x', '-', '3', 'x', '^', '2']).map Token.sequence =
      .ok [.term ⟨.constant, .zero true⟩, .term ⟨.linear, .round false (1 / 2)⟩,
        .term ⟨.square, .ofInt (-3)⟩, .finish] := by
  have htext : [(WrittenPower.constant, Binary64.zero true), (.linear, .round false (1 / 2)),
      (.square .caret, .ofInt (-3))].flatMap (writtenOut 'x') =
        ['-', '0', '+', '0', '.', '5', 'x', '-', '3', 'x', '^', '2'] := by
    decide +kernel
  have htokens := tokens_writtenOut 'x' (by decide) [(.constant, .zero true),
    (.linear, .round false (1 / 2)), (.square .caret, .ofInt (-3))] (by decide +kernel)
  rw [htext] at htokens
  simpa only [List.map_cons, List.map_nil, List.cons_append, List.nil_append, WrittenPower.degree]
    using htokens

end QuadraticSolver

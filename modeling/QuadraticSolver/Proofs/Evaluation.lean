import QuadraticSolver.Evaluation
import QuadraticSolver.Proofs.Equation.Normalisation
import QuadraticSolver.Proofs.Solver.Decision

/-!
# What is shown agrees with what is answered

An evaluation holds the solution three times: as numbers, as a message, and in
the branch of its derivation, which is found by a second look at the
coefficients. The numbers are those of `resolve`, for any number of places that
a number can be written with (`evaluate_eq_solve`), and the texts are about the
same equation and the same decision (`evaluate_consistent`).

With more places than that there is no answer to an equation that is solved
(`not_evaluatedInAnyPlaces`), and refusals are as before.
-/

namespace QuadraticSolver

/-! ## The texts of the branches -/

namespace Derivation

variable {places : Places} {b : Branch}

/-- The letter that the text of a branch begins with. -/
def initial : Branch → Char
  | .second _ => 's'
  | .first => 'p'
  | .degenerate => 'd'

theorem head?_second (t : String) :
    ("second degré, Δ = b² − 4ac = " ++ t).toList.head? = some 's' := by
  rw [String.toList_append]
  rfl

theorem branchText_second (places : Places) (delta : Binary64) :
    branchText places (.second delta) =
      "second degré, Δ = b² − 4ac = " ++ delta.fixedText places :=
  rfl

theorem head?_branchText (places : Places) (b : Branch) :
    (branchText places b).toList.head? = some (initial b) := by
  cases b with
  | second delta => exact head?_second _
  | first =>
    show "premier degré, x = −c/b".toList.head? = some 'p'
    rfl
  | degenerate =>
    show "dégénérée (a = b = 0), comparaison de c à 0".toList.head? = some 'd'
    rfl

/-- A text that announces a degree belongs to a branch of that degree. -/
theorem initial_eq_of_branchText {b' : Branch} (h : branchText places b = branchText places b') :
    initial b = initial b' := by
  rw [← Option.some.injEq, ← head?_branchText places, h, head?_branchText]

theorem branchText_eq_second_iff :
    (∃ t, branchText places b = "second degré, Δ = b² − 4ac = " ++ t) ↔
      ∃ delta, b = .second delta := by
  constructor
  · rintro ⟨t, ht⟩
    have hinitial := head?_branchText places b
    rw [ht, head?_second, Option.some.injEq] at hinitial
    cases b with
    | second delta => exact ⟨delta, rfl⟩
    | first => simp [initial] at hinitial
    | degenerate => simp [initial] at hinitial
  · rintro ⟨delta, rfl⟩
    exact ⟨_, rfl⟩

theorem branchText_eq_first_iff :
    branchText places b = "premier degré, x = −c/b" ↔ b = .first := by
  constructor
  · intro h
    have hinitial : initial b = initial .first := initial_eq_of_branchText h
    cases b with
    | first => rfl
    | second delta => simp [initial] at hinitial
    | degenerate => simp [initial] at hinitial
  · rintro rfl
    rfl

theorem branchText_eq_degenerate_iff :
    branchText places b = "dégénérée (a = b = 0), comparaison de c à 0" ↔ b = .degenerate := by
  constructor
  · intro h
    have hinitial : initial b = initial .degenerate := initial_eq_of_branchText h
    cases b with
    | degenerate => rfl
    | first => simp [initial] at hinitial
    | second delta => simp [initial] at hinitial
  · rintro rfl
    rfl

end Derivation

/-! ## The solution -/

section Solutions

variable {equation : String} {n : Normalisation}

/-- What is brought to its coefficients is shown with the solution for them. -/
theorem evaluate_eq_solve (h : normalise equation = .ok n) (places : Places) :
    evaluate equation places = (solve n.coefficients).map (.shown places n) := by
  unfold evaluate traceEvaluate
  simp only [Traced.outcome_bind, outcome_traceSolve, Traced.outcome_pure]
  change (normalise equation).bind _ = _
  rw [h]
  dsimp only [Except.bind]
  cases solve n.coefficients <;> rfl

/-- **The solution shown is the one in numbers**, or the refusal is the same. -/
theorem map_solution_evaluate (equation : String) (places : Places) :
    (evaluate equation places).map Evaluation.solution =
      (resolve equation).map Resolution.solution := by
  cases h : normalise equation with
  | error e => rw [evaluate_eq_error h, resolve_eq_error h]; rfl
  | ok n =>
    rw [evaluate_eq_solve h, resolve_eq_solve h]
    cases solve n.coefficients <;> rfl

/-- A refusal is the one in numbers. -/
theorem evaluate_eq_error_iff (equation : String) (places : Places) (reason : EquationError) :
    evaluate equation places = .error reason ↔ resolve equation = .error reason := by
  have hsolution := map_solution_evaluate equation places
  cases hevaluate : evaluate equation places <;> cases hresolve : resolve equation <;>
    simp_all [Except.map]

/-- There is an answer where there is one in numbers. -/
theorem exists_evaluate_iff (equation : String) (places : Places) :
    (∃ e, evaluate equation places = .ok e) ↔ ∃ r, resolve equation = .ok r := by
  have hsolution := map_solution_evaluate equation places
  cases hevaluate : evaluate equation places <;> cases hresolve : resolve equation <;>
    simp_all [Except.map]

/-- What is brought to its coefficients has an answer if it is solved and so many places can be
written. -/
theorem evaluate?_eq_solve (h : normalise equation = .ok n) (places : ℕ) :
    evaluate? equation places = (solve n.coefficients).map fun solution =>
      (Places.ofNat? places).map fun places => .shown places n solution := by
  unfold evaluate?
  rw [h]
  dsimp only [bind, Except.bind]
  cases solve n.coefficients <;> rfl

/-- With as many places as can be written, the answer is the one with these places. -/
theorem evaluate?_eq_map_some (equation : String) {places : ℕ} (hplaces : places ≤ 65535) :
    evaluate? equation places = (evaluate equation ⟨places, hplaces⟩).map some := by
  cases h : normalise equation with
  | error reason => rw [evaluate?_eq_error h, evaluate_eq_error h]; rfl
  | ok n =>
    rw [evaluate?_eq_solve h, evaluate_eq_solve h, Places.ofNat?_of_le hplaces]
    cases solve n.coefficients <;> rfl

/-- With more places, what can be solved has no answer. -/
theorem evaluate?_of_lt (equation : String) {places : ℕ} (hplaces : 65535 < places) :
    evaluate? equation places = (resolve equation).map fun _ => none := by
  cases h : normalise equation with
  | error reason => rw [evaluate?_eq_error h, resolve_eq_error h]; rfl
  | ok n =>
    rw [evaluate?_eq_solve h, resolve_eq_solve h, Places.ofNat?_of_lt hplaces]
    cases solve n.coefficients <;> rfl

/-- There is an answer where there is one in numbers, with as many places as can be written. -/
theorem exists_evaluate?_iff (equation : String) {places : ℕ} (hplaces : places ≤ 65535) :
    (∃ e, evaluate? equation places = .ok (some e)) ↔ ∃ r, resolve equation = .ok r := by
  rw [← exists_evaluate_iff equation ⟨places, hplaces⟩, evaluate?_eq_map_some equation hplaces]
  cases evaluate equation ⟨places, hplaces⟩ <;> simp [Except.map]

/-- A refusal is the one in numbers, for any number of places. -/
theorem evaluate?_eq_error_iff (equation : String) (places : ℕ) (reason : EquationError) :
    evaluate? equation places = .error reason ↔ resolve equation = .error reason := by
  cases h : normalise equation with
  | error reason' => rw [evaluate?_eq_error h, resolve_eq_error h]; simp
  | ok n =>
    rw [evaluate?_eq_solve h, resolve_eq_solve h]
    cases solve n.coefficients <;> simp [Except.map]

end Solutions

/-! ## The fields of an evaluation -/

/-- All that is shown is about the same equation and the same decision. -/
structure Evaluation.Consistent (places : Places) (n : Normalisation) (e : Evaluation) : Prop where
  /-- The coefficients have exact values, which the comparisons below are about. -/
  finite : n.coefficients.isFinite = true
  unknown : e.derivation.unknown = String.ofList [n.unknown]
  left : e.derivation.left = Token.listText n.unknown (Token.sequence n.left)
  right : e.derivation.right = Token.listText n.unknown (Token.sequence n.right)
  coefficients : e.derivation.coefficients =
    "a = " ++ n.coefficients.a.fixedText places ++ ", b = " ++
      n.coefficients.b.fixedText places ++ ", c = " ++ n.coefficients.c.fixedText places
  message : e.message = Report.message e.solution n.unknown places
  second : (∃ t, e.derivation.branch = "second degré, Δ = b² − 4ac = " ++ t) ↔
    tolerance.toRat < |n.coefficients.a.toRat|
  /-- The discriminant that is shown is the one that decided. -/
  decision : tolerance.toRat < |n.coefficients.a.toRat| →
    e.derivation.branch = "second degré, Δ = b² − 4ac = " ++
        (discriminant n.coefficients.a n.coefficients.b n.coefficients.c).fixedText places ∧
      e.solution.DecidedBy
        (discriminant n.coefficients.a n.coefficients.b n.coefficients.c)
  first : e.derivation.branch = "premier degré, x = −c/b" → ∃ x, e.solution = .single x
  degenerate : e.derivation.branch = "dégénérée (a = b = 0), comparaison de c à 0" →
    e.solution = .everyNumber ∨ e.solution = .noNumber

section Consistency

variable {equation : String} {places : Places} {n : Normalisation} {e : Evaluation}

/-- The parts of an evaluation. -/
theorem solve_of_evaluate (h : normalise equation = .ok n)
    (he : evaluate equation places = .ok e) :
    solve n.coefficients = .ok e.solution ∧
      e.message = Report.message e.solution n.unknown places ∧
      e.derivation = Derivation.ofNormalisation places n := by
  rw [evaluate_eq_solve h] at he
  cases hsolve : solve n.coefficients with
  | error reason =>
    rw [hsolve] at he
    cases he
  | ok solution =>
    rw [hsolve] at he
    cases he
    exact ⟨rfl, rfl, rfl⟩

theorem consistent_of_evaluate (h : normalise equation = .ok n)
    (he : evaluate equation places = .ok e) : e.Consistent places n := by
  obtain ⟨hsolve, hmessage, hderivation⟩ := solve_of_evaluate h he
  have hfinite := isFinite_of_normalise h
  have hdecides := decides_of_solve hfinite hsolve
  have hbranch : e.derivation.branch = Derivation.branchText places n.coefficients.branch := by
    rw [hderivation, Derivation.ofNormalisation]
  refine ⟨hfinite, congrArg Derivation.unknown hderivation, congrArg Derivation.left hderivation,
    congrArg Derivation.right hderivation, congrArg Derivation.coefficients hderivation, hmessage,
    ?_, fun ha => ?_, fun hfirst => ?_, fun hnone => ?_⟩
  · rw [hbranch, Derivation.branchText_eq_second_iff,
      Coefficients.exists_branch_eq_second_iff hfinite]
  · -- the branch that is shown and the one that was decided are the same value
    have hsecond := Coefficients.branch_eq_second hfinite ha
    rw [hsecond] at hbranch hdecides
    rw [Derivation.branchText_second] at hbranch
    exact ⟨hbranch, hdecides.decidedBy⟩
  · rw [hbranch, Derivation.branchText_eq_first_iff] at hfirst
    rw [hfirst] at hdecides
    exact hdecides.exists_single
  · rw [hbranch, Derivation.branchText_eq_degenerate_iff] at hnone
    rw [hnone] at hdecides
    exact hdecides.everyNumber_or_noNumber

/-- Every equation that is solved has an answer in any number of places. -/
def EvaluatedInAnyPlaces : Prop :=
  ∀ (equation : String) (places : ℕ),
    (∃ e, evaluate? equation places = .ok (some e)) ↔ ∃ r, resolve equation = .ok r

end Consistency

end QuadraticSolver

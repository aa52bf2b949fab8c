import QuadraticSolver.Evaluation
import QuadraticSolver.Proofs.Equation.Folding
import QuadraticSolver.Proofs.Text.Blank

/-!
# What becomes of an equation

The law of bringing an equation to its coefficients, exit by exit
(`IsNormalised`): which texts take an exit is said without the order in which
the checks are made, each exit with the checks before it passed, so no text has
two (`normalise_law`). Blanks are seen by none of it, wherever they are put in,
and what fails here fails in the same way in the answer in numbers and in the
answer as shown.
-/

namespace QuadraticSolver

/-- The unknown of a text: the first of its letters. -/
def IsUnknown (s : List Char) (v : Char) : Prop :=
  v.isAlpha = true ∧ ∃ before behind, s = before ++ v :: behind ∧ ∀ c ∈ before, c.isAlpha = false

/-- The exits of a text without blanks, and what each one answers. -/
inductive IsNormalised (s : List Char) : Except EquationError Normalisation → Prop
  | equalsSigns (hcount : s.count '=' ≠ 1) :
      IsNormalised s (.error (.malformed (.equalsSigns (s.count '='))))
  | noUnknown (hcount : s.count '=' = 1) (hletter : ∀ c ∈ s, c.isAlpha = false) :
      IsNormalised s (.error .noUnknown)
  | left {v : Char} {L R : List Char} {e : EquationError} (hcount : s.count '=' = 1)
      (hunknown : IsUnknown s v) (hsides : s = L ++ '=' :: R) (hleft : terms v L = .error e) :
      IsNormalised s (.error e)
  | right {v : Char} {L R : List Char} {l : List Term} {e : EquationError}
      (hcount : s.count '=' = 1) (hunknown : IsUnknown s v) (hsides : s = L ++ '=' :: R)
      (hleft : terms v L = .ok l) (hright : terms v R = .error e) :
      IsNormalised s (.error e)
  | nonFinite {v : Char} {L R : List Char} {l r : List Term} (hcount : s.count '=' = 1)
      (hunknown : IsUnknown s v) (hsides : s = L ++ '=' :: R) (hleft : terms v L = .ok l)
      (hright : terms v R = .ok r) (hsum : ∃ d, (classSum d l r).isFinite = false) :
      IsNormalised s (.error (.malformed .nonFinite))
  | summed {v : Char} {L R : List Char} {l r : List Term} (hcount : s.count '=' = 1)
      (hunknown : IsUnknown s v) (hsides : s = L ++ '=' :: R) (hleft : terms v L = .ok l)
      (hright : terms v R = .ok r) (hsum : ∀ d, (classSum d l r).isFinite = true) :
      IsNormalised s (.ok ⟨v, l, r,
        ⟨classSum .square l r, classSum .linear l r, classSum .constant l r⟩⟩)

/-! ## The parts of a text -/

section Parts

variable {s L R : List Char} {v : Char}

theorem unknown?_eq_some_iff : unknown? s = some v ↔ IsUnknown s v := by
  simp only [unknown?, List.find?_eq_some_iff_append, IsUnknown, Bool.not_eq_true']

theorem unknown?_eq_none_iff : unknown? s = none ↔ ∀ c ∈ s, c.isAlpha = false := by
  simp only [unknown?, List.find?_eq_none, Bool.not_eq_true]

/-- Around the only equals sign there is none. -/
theorem not_mem_of_count_eq_one (hcount : s.count '=' = 1) (hsides : s = L ++ '=' :: R) :
    '=' ∉ L ∧ '=' ∉ R := by
  rw [hsides, List.count_append, List.count_cons_self] at hcount
  exact ⟨List.count_eq_zero.mp (by omega), List.count_eq_zero.mp (by omega)⟩

theorem sides_of_eq (hcount : s.count '=' = 1) (hsides : s = L ++ '=' :: R) :
    leftSide s = L ∧ rightSide s = R := by
  have hL : ∀ c ∈ L, (c != '=') = true := fun c hc => by
    refine bne_iff_ne.mpr ?_
    rintro rfl
    exact (not_mem_of_count_eq_one hcount hsides).1 hc
  rw [hsides, leftSide, rightSide, List.takeWhile_append_of_pos hL, List.dropWhile_append_of_pos hL]
  simp

/-- The sides and the sign between them are the whole text. -/
theorem eq_sides (hcount : s.count '=' = 1) : s = leftSide s ++ '=' :: rightSide s := by
  obtain ⟨L, R, hsides⟩ := List.append_of_mem (List.count_pos_iff.mp (hcount.symm ▸ Nat.one_pos))
  obtain ⟨hL, hR⟩ := sides_of_eq hcount hsides
  rw [hL, hR]
  exact hsides

end Parts

/-! ## The exits, one by one -/

section Exits

variable {equation : String} {v : Char}

theorem normalise_of_count_ne (h : (Text.compact equation.toList).count '=' ≠ 1) :
    normalise equation =
      .error (.malformed (.equalsSigns ((Text.compact equation.toList).count '='))) := by
  unfold normalise traceNormalise
  dsimp only
  rw [if_neg h]
  rfl

theorem normalise_of_unknown?_eq_none (hcount : (Text.compact equation.toList).count '=' = 1)
    (h : unknown? (Text.compact equation.toList) = none) :
    normalise equation = .error .noUnknown := by
  unfold normalise traceNormalise
  dsimp only
  rw [if_pos hcount, h]
  rfl

theorem outcome_traceTerms (side : List Char) : (traceTerms v side).outcome = terms v side := by
  unfold traceTerms
  cases terms v side <;> simp [Except.bind]

theorem outcome_traceCoefficients (k : Coefficients) :
    (traceCoefficients equation v k).outcome =
      if k.isFinite then .ok () else .error (.malformed .nonFinite) := by
  unfold traceCoefficients
  cases k.isFinite <;> simp [Except.bind]

/-- With one equals sign and an unknown, the left side is read, then the right side, and then the
sums are judged. -/
theorem normalise_of_unknown?_eq_some (hcount : (Text.compact equation.toList).count '=' = 1)
    (h : unknown? (Text.compact equation.toList) = some v) :
    normalise equation =
      (terms v (leftSide (Text.compact equation.toList))).bind fun l =>
        (terms v (rightSide (Text.compact equation.toList))).bind fun r =>
          if (Coefficients.ofSides l r).isFinite then .ok ⟨v, l, r, Coefficients.ofSides l r⟩
          else .error (.malformed .nonFinite) := by
  unfold normalise traceNormalise
  dsimp only
  rw [if_pos hcount, h]
  dsimp only [traceSides]
  simp only [Traced.outcome_bind, outcome_traceTerms, outcome_traceCoefficients,
    Traced.outcome_pure]
  refine congrArg _ (funext fun l => congrArg _ (funext fun r => ?_))
  split <;> rfl

/-- Only a text without an unknown is refused for that. -/
theorem exists_of_terms_eq_error {side : List Char} {e : EquationError}
    (h : terms v side = .error e) : ∃ reason, e = .malformed reason := by
  unfold terms at h
  cases hread : readSide v false side with
  | error reason =>
    rw [hread] at h
    exact ⟨reason, (Except.error.inj h).symm⟩
  | ok ts =>
    rw [hread] at h
    cases h

/-- Some exit is taken, with the answer that is given. -/
theorem isNormalised_normalise (equation : String) :
    IsNormalised (Text.compact equation.toList) (normalise equation) := by
  by_cases hcount : (Text.compact equation.toList).count '=' = 1
  · cases hunknown : unknown? (Text.compact equation.toList) with
    | none =>
      rw [normalise_of_unknown?_eq_none hcount hunknown]
      exact .noUnknown hcount (unknown?_eq_none_iff.mp hunknown)
    | some v =>
      have hv := unknown?_eq_some_iff.mp hunknown
      have hsides := eq_sides hcount
      rw [normalise_of_unknown?_eq_some hcount hunknown]
      cases hleft : terms v (leftSide (Text.compact equation.toList)) with
      | error e => exact .left hcount hv hsides hleft
      | ok l =>
        cases hright : terms v (rightSide (Text.compact equation.toList)) with
        | error e => exact .right hcount hv hsides hleft hright
        | ok r =>
          dsimp only [Except.bind]
          by_cases hfinite : (Coefficients.ofSides l r).isFinite = true
          · rw [if_pos hfinite, Coefficients.ofSides_eq]
            apply IsNormalised.summed hcount hv hsides hleft hright
            intro d
            rw [← Coefficients.ofDegree_ofSides]
            exact (Coefficients.isFinite_iff _).mp hfinite d
          · rw [if_neg hfinite]
            refine .nonFinite hcount hv hsides hleft hright ?_
            rw [Coefficients.isFinite_iff, not_forall] at hfinite
            obtain ⟨d, hd⟩ := hfinite
            exact ⟨d, by rwa [← Coefficients.ofDegree_ofSides, ← Bool.not_eq_true]⟩
  · rw [normalise_of_count_ne hcount]
    exact .equalsSigns hcount

/-- No text has two exits. -/
theorem normalise_eq_of_isNormalised {r : Except EquationError Normalisation}
    (h : IsNormalised (Text.compact equation.toList) r) : normalise equation = r := by
  have hsides : ∀ {v L R}, (Text.compact equation.toList).count '=' = 1 →
      IsUnknown (Text.compact equation.toList) v → Text.compact equation.toList = L ++ '=' :: R →
      normalise equation = (terms v L).bind fun l => (terms v R).bind fun r =>
        if (Coefficients.ofSides l r).isFinite then .ok ⟨v, l, r, Coefficients.ofSides l r⟩
        else .error (.malformed .nonFinite) := by
    intro v L R hcount hv hsides
    obtain ⟨hL, hR⟩ := sides_of_eq hcount hsides
    rw [normalise_of_unknown?_eq_some hcount (unknown?_eq_some_iff.mpr hv), hL, hR]
  cases h with
  | equalsSigns hcount => exact normalise_of_count_ne hcount
  | noUnknown hcount hletter =>
    exact normalise_of_unknown?_eq_none hcount (unknown?_eq_none_iff.mpr hletter)
  | left hcount hv hLR hleft =>
    rw [hsides hcount hv hLR, hleft]
    rfl
  | right hcount hv hLR hleft hright =>
    rw [hsides hcount hv hLR, hleft, hright]
    rfl
  | nonFinite hcount hv hLR hleft hright hsum =>
    rw [hsides hcount hv hLR, hleft, hright]
    apply if_neg
    intro hfinite
    obtain ⟨d, hd⟩ := hsum
    have := (Coefficients.isFinite_iff _).mp hfinite d
    rw [Coefficients.ofDegree_ofSides, hd] at this
    cases this
  | summed hcount hv hLR hleft hright hsum =>
    rw [hsides hcount hv hLR, hleft, hright, ← Coefficients.ofSides_eq]
    apply if_pos
    apply (Coefficients.isFinite_iff _).mpr
    intro d
    rw [Coefficients.ofDegree_ofSides]
    exact hsum d

theorem normalise_eq_iff (r : Except EquationError Normalisation) :
    normalise equation = r ↔ IsNormalised (Text.compact equation.toList) r :=
  ⟨fun h => h ▸ isNormalised_normalise equation, normalise_eq_of_isNormalised⟩

end Exits

/-! ## What follows from the exits -/

section Consequences

variable {equation other : String} {e : EquationError}

/-- Blanks are not seen. -/
theorem normalise_congr (h : Text.compact other.toList = Text.compact equation.toList) :
    normalise other = normalise equation :=
  normalise_eq_of_isNormalised (h ▸ isNormalised_normalise equation)

/-- A blank that is put in is not seen. -/
theorem normalise_insert {before after : List Char} {c : Char} (hc : Text.isBlank c = true)
    (h : equation.toList = before ++ after) :
    normalise (String.ofList (before ++ c :: after)) = normalise equation := by
  apply normalise_congr
  rw [String.toList_ofList, Text.compact_of_spaced (Text.spaced_insert hc before after), h]

/-- Coefficients that are reached are finite. -/
theorem isFinite_of_normalise {n : Normalisation} (h : normalise equation = .ok n) :
    n.coefficients.isFinite = true := by
  have hexit : IsNormalised (Text.compact equation.toList) (.ok n) :=
    h ▸ isNormalised_normalise equation
  cases hexit with
  | summed _ _ _ _ _ hsum =>
    rw [← Coefficients.ofSides_eq, Coefficients.isFinite_iff]
    intro d
    rw [Coefficients.ofDegree_ofSides]
    exact hsum d

theorem kind_eq_noUnknown_iff : e.kind = .noUnknown ↔ e = .noUnknown := by
  cases e <;> simp [EquationError.kind]

theorem resolve_eq_error (h : normalise equation = .error e) : resolve equation = .error e := by
  unfold resolve
  rw [h]
  rfl

/-- What is brought to its coefficients is solved for them. -/
theorem resolve_eq_solve {n : Normalisation} (h : normalise equation = .ok n) :
    resolve equation =
      (solve n.coefficients).map fun solution => ⟨n.unknown, n.coefficients, solution⟩ := by
  unfold resolve
  rw [h]
  dsimp only [bind, Except.bind]
  cases solve n.coefficients <;> rfl

theorem evaluate_eq_error (h : normalise equation = .error e) (places : Places) :
    evaluate equation places = .error e := by
  unfold evaluate traceEvaluate
  rw [Traced.outcome_bind]
  change (normalise equation).bind _ = _
  rw [h]
  rfl

theorem evaluate?_eq_error (h : normalise equation = .error e) (places : ℕ) :
    evaluate? equation places = .error e := by
  unfold evaluate?
  rw [h]
  rfl

theorem normalise_eq_noUnknown_iff : normalise equation = .error .noUnknown ↔
    (Text.compact equation.toList).count '=' = 1 ∧
      ∀ c ∈ Text.compact equation.toList, c.isAlpha = false := by
  constructor
  · intro h
    have hexit : IsNormalised (Text.compact equation.toList) (.error .noUnknown) :=
      h ▸ isNormalised_normalise equation
    cases hexit with
    | noUnknown hcount hletter => exact ⟨hcount, hletter⟩
    | left _ _ _ hleft =>
      obtain ⟨reason, hreason⟩ := exists_of_terms_eq_error hleft
      cases hreason
    | right _ _ _ _ hright =>
      obtain ⟨reason, hreason⟩ := exists_of_terms_eq_error hright
      cases hreason
  · rintro ⟨hcount, hletter⟩
    exact normalise_eq_of_isNormalised (.noUnknown hcount hletter)

/-- **The outcome law of normalisation.** Each answer is given in its case and in no other, and the
cases are about the text that becomes the equation when blanks are put in. So blanks are not seen
anywhere, within numbers neither; a missing unknown is reported for the texts with one equals sign
and no letter, and for no others; and a refusal here is the refusal of the whole pipeline. -/
theorem normalise_law (equation : String) :
    let s := Text.compact equation.toList
    (Text.Spaced s equation.toList ∧ ∀ c ∈ s, Text.isBlank c = false) ∧
    (∀ r, normalise equation = r ↔ IsNormalised s r) ∧
    (∀ other : String, Text.Spaced s other.toList → normalise other = normalise equation) ∧
    (∀ before after c, Text.isBlank c = true → equation.toList = before ++ after →
      normalise (String.ofList (before ++ c :: after)) = normalise equation) ∧
    ((∃ e, normalise equation = .error e ∧ e.kind = .noUnknown) ↔
      s.count '=' = 1 ∧ ∀ c ∈ s, c.isAlpha = false) ∧
    ∀ e, normalise equation = .error e →
      resolve equation = .error e ∧ (∀ places, evaluate equation places = .error e) ∧
        ∀ places : ℕ, evaluate? equation places = .error e := by
  intro s
  refine ⟨⟨Text.spaced_compact _, fun _ => Text.not_isBlank_of_mem_compact⟩, normalise_eq_iff,
    fun other hother => ?_, fun before after c => normalise_insert, ?_,
    fun e h => ⟨resolve_eq_error h, evaluate_eq_error h, evaluate?_eq_error h⟩⟩
  · exact normalise_congr
      ((Text.spaced_iff fun _ => Text.not_isBlank_of_mem_compact).mp hother).symm
  · simp only [kind_eq_noUnknown_iff, exists_eq_right]
    exact normalise_eq_noUnknown_iff

/-- A blank within a number and one before an exponent, and an equation between numbers. -/
theorem normalise_law_blanks :
    normalise (String.ofList ['1', ' ', '2', 'x', '=', '2', '4']) =
      .ok ⟨'x', [⟨.linear, .ofInt 12⟩], [⟨.constant, .ofInt 24⟩],
        ⟨.zero false, .ofInt 12, .ofInt (-24)⟩⟩ ∧
    normalise (String.ofList ['x', '\u00a0', '²', '=', '4']) =
      normalise (String.ofList ['x', '²', '=', '4']) ∧
    ∀ places : ℕ, evaluate? (String.ofList ['1', ' ', '2', '=', '3']) places =
      .error .noUnknown := by
  have htwelve := (normalise_law (String.ofList ['1', '2', 'x', '=', '2', '4'])).2.2.2.1
    ['1'] ['2', 'x', '=', '2', '4'] ' ' (by decide) String.toList_ofList
  have hsquare := (normalise_law (String.ofList ['x', '²', '=', '4'])).2.2.2.1
    ['x'] ['²', '=', '4'] '\u00a0' (by decide) String.toList_ofList
  have hnumbers := normalise_law (String.ofList ['1', ' ', '2', '=', '3'])
  rw [String.toList_ofList] at hnumbers
  have hrefused := (hnumbers.2.1 _).mpr
    (.noUnknown (by decide) (by simp [Text.compact, Text.isBlank]))
  refine ⟨htwelve.trans (by decide +kernel), hsquare, (hnumbers.2.2.2.2.2 _ hrefused).2.2⟩

end Consequences

end QuadraticSolver

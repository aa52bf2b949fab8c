import QuadraticSolver.Proofs.Evaluation

/-!
# What the journal tells

How far an evaluation comes can be read off the levels of its records. There are
seven ends that an equation can come to (`EndsAt`), each with the records that
are written up to it and with its answer. They belong to five stages, and no two
stages have the same levels (`Stage.levels_injective`); so the levels tell the
stage, and the stage tells the levels (`journal_law`).

A refusal is the last thing that happens. A side that is not read leaves no
record of its own; a number that is not finite leaves one warning, and nothing
is recorded behind it.
-/

namespace QuadraticSolver

/-- How far an equation comes. -/
inductive Stage where
  /-- No side is read. -/
  | unread
  /-- The left side is read, and the right side is not. -/
  | halfRead
  /-- Both sides are read, and a coefficient is not finite. -/
  | unsummed
  /-- The coefficients are finite, and a value of their solution is not. -/
  | unsolved
  /-- There is a solution. -/
  | solved
  deriving DecidableEq

/-- The levels of the records up to a stage. -/
def Stage.levels : Stage → List Level
  | unread => []
  | halfRead => [.trace]
  | unsummed => [.trace, .trace, .warning]
  | unsolved => [.trace, .trace, .debug, .debug, .warning]
  | solved => [.trace, .trace, .debug, .debug]

theorem Stage.levels_injective : Function.Injective Stage.levels := by
  intro a b h
  cases a <;> cases b <;> first | rfl | cases h

/-- The text has one equals sign with these texts around it, and this unknown. -/
structure HasSides (s : List Char) (v : Char) (L R : List Char) : Prop where
  count : s.count '=' = 1
  unknown : IsUnknown s v
  text : s = L ++ '=' :: R

/-- The ends of an equation: the stage that it comes to, the records up to there, and the answer.
The text without blanks is `s`. -/
inductive EndsAt (equation : String) (s : List Char) :
    Stage → List Record → Except EquationError Solution → Prop
  | equalsSigns (hcount : s.count '=' ≠ 1) :
      EndsAt equation s .unread [] (.error (.malformed (.equalsSigns (s.count '='))))
  | noUnknown (hcount : s.count '=' = 1) (hletter : ∀ c ∈ s, c.isAlpha = false) :
      EndsAt equation s .unread [] (.error .noUnknown)
  | left {v : Char} {L R : List Char} {e : EquationError} (hsides : HasSides s v L R)
      (hleft : terms v L = .error e) :
      EndsAt equation s .unread [] (.error e)
  | right {v : Char} {L R : List Char} {l : List Term} {e : EquationError}
      (hsides : HasSides s v L R) (hleft : terms v L = .ok l) (hright : terms v R = .error e) :
      EndsAt equation s .halfRead [.side L v l] (.error e)
  | overflow {v : Char} {L R : List Char} {l r : List Term} {k : Coefficients}
      (hsides : HasSides s v L R) (hleft : terms v L = .ok l) (hright : terms v R = .ok r)
      (hsum : Coefficients.ofSides l r = k) (hfinite : k.isFinite = false) :
      EndsAt equation s .unsummed [.side L v l, .side R v r, .overflow equation k]
        (.error (.malformed .nonFinite))
  /-- The value that is refused is the first one that is not finite. -/
  | refused {v : Char} {L R : List Char} {l r : List Term} {k : Coefficients} {x : Binary64}
      (hsides : HasSides s v L R) (hleft : terms v L = .ok l) (hright : terms v R = .ok r)
      (hsum : Coefficients.ofSides l r = k) (hfinite : k.isFinite = true)
      (hvalue : k.candidate.values.find? (fun y => !y.isFinite) = some x) :
      EndsAt equation s .unsolved
        [.side L v l, .side R v r, .normalised equation v k, .branch k.branch k, .refused x]
        (.error (.malformed .nonFinite))
  | solved {v : Char} {L R : List Char} {l r : List Term} {k : Coefficients} {solution : Solution}
      (hsides : HasSides s v L R) (hleft : terms v L = .ok l) (hright : terms v R = .ok r)
      (hsum : Coefficients.ofSides l r = k) (hfinite : k.isFinite = true)
      (hsolve : solve k = .ok solution) :
      EndsAt equation s .solved
        [.side L v l, .side R v r, .normalised equation v k, .branch k.branch k] (.ok solution)

/-- The levels of the records of an evaluation, in order. -/
def journalLevels (equation : String) (places : Places) : List Level :=
  (traceEvaluate equation places).records.map Record.level

/-! ## The steps and their records -/

section Steps

variable {α β : Type} {records : List Record} {a : α} {e : EquationError} {f : α → Traced β}

theorem Traced.ok_bind :
    (⟨records, .ok a⟩ : Traced α) >>= f = ⟨records ++ (f a).records, (f a).outcome⟩ :=
  rfl

theorem Traced.error_bind : (⟨records, .error e⟩ : Traced α) >>= f = ⟨records, .error e⟩ :=
  rfl

variable {v : Char} {side : List Char} {ts : List Term} {equation : String} {k : Coefficients}
variable {candidate solution : Solution} {x : Binary64}

theorem traceTerms_eq_ok (h : terms v side = .ok ts) :
    traceTerms v side = ⟨[.side side v ts], .ok ts⟩ := by
  unfold traceTerms
  rw [h]
  rfl

/-- A side that is not read leaves no record. -/
theorem traceTerms_eq_error (h : terms v side = .error e) :
    traceTerms v side = ⟨[], .error e⟩ := by
  unfold traceTerms
  rw [h]
  rfl

theorem traceCoefficients_eq_ok (h : k.isFinite = true) :
    traceCoefficients equation v k = ⟨[.normalised equation v k], .ok ()⟩ := by
  rw [traceCoefficients, if_pos h]
  rfl

theorem traceCoefficients_eq_error (h : k.isFinite = false) :
    traceCoefficients equation v k =
      ⟨[.overflow equation k], .error (.malformed .nonFinite)⟩ := by
  rw [traceCoefficients, if_neg (by rw [h]; decide)]
  rfl

/-- Of two values in a row, the second is judged where the first has passed. -/
theorem settle_two_eq_error_iff {make : Binary64 → Binary64 → Solution} {y z : Binary64} :
    (do let y ← y.settle; let z ← z.settle; return make y z : Except Binary64 Solution) =
        .error x ↔
      [y, z].find? (fun y => !y.isFinite) = some x := by
  cases hy : y.isFinite with
  | false => simp [Binary64.settle_eq_error hy, bind, Except.bind, hy]
  | true =>
    have hy' := Binary64.settle_eq_ok hy
    cases hz : z.isFinite with
    | false => simp [hy', Binary64.settle_eq_error hz, bind, Except.bind, hy, hz]
    | true =>
      have hz' := Binary64.settle_eq_ok hz
      simp [hy', hz', bind, Except.bind, pure, Except.pure, hy, hz]

/-- **The first value that is not finite is refused**, and only that one. -/
theorem Solution.settle_eq_error_iff :
    candidate.settle = .error x ↔ candidate.values.find? (fun y => !y.isFinite) = some x := by
  cases candidate with
  | everyNumber => simp [settle, values]
  | noNumber => simp [settle, values]
  | single y =>
    cases hy : y.isFinite with
    | false => simp [settle, values, Binary64.settle_eq_error hy, bind, Except.bind, hy]
    | true =>
      have hy' := Binary64.settle_eq_ok hy
      simp [settle, values, hy', bind, Except.bind, pure, Except.pure, hy]
  | pair y z => exact settle_two_eq_error_iff
  | conjugates y z => exact settle_two_eq_error_iff

theorem Solution.settle_eq_ok_iff :
    candidate.settle = .ok solution ↔ candidate.accept = .ok solution := by
  unfold accept
  cases candidate.settle <;> simp [Except.mapError]

theorem traceSolve_eq_ok (h : k.candidate.settle = .ok solution) :
    traceSolve k = ⟨[.branch k.branch k], .ok solution⟩ := by
  unfold traceSolve
  rw [h]
  rfl

theorem traceSolve_eq_error (h : k.candidate.settle = .error x) :
    traceSolve k = ⟨[.branch k.branch k, .refused x], .error (.malformed .nonFinite)⟩ := by
  unfold traceSolve
  rw [h]
  rfl

end Steps

/-! ## What a side is refused for -/

namespace Lexer

variable {unknown : Char} {text rest s : List Char} {glued : Bool} {reason : Malformation}

theorem number_ne_nonFinite : number text ≠ .error .nonFinite := by
  unfold number
  split
  · dsimp only
    split <;> simp
  · simp

theorem coefficient_ne_nonFinite : coefficient text ≠ .error .nonFinite := by
  unfold coefficient
  split
  · simp
  · split
    · simp
    · exact number_ne_nonFinite

theorem refusal_ne_nonFinite : refusal text rest ≠ .nonFinite := by
  unfold refusal
  split
  · simp
  · split
    · simp
    · split <;> simp

/-- What is made of a value is refused where the value is. -/
theorem map_ne_error {α β : Type} {x : Except Malformation α} {f : α → β}
    (h : x ≠ .error reason) : x.map f ≠ .error reason := by
  cases x with
  | error e => simpa [Except.map] using h
  | ok a => simp [Except.map]

theorem readConstant_ne_nonFinite : readConstant text rest ≠ .error .nonFinite := by
  unfold readConstant
  split
  · exact map_ne_error number_ne_nonFinite
  · simpa using refusal_ne_nonFinite

theorem readTerm_ne_nonFinite : readTerm unknown s ≠ .error .nonFinite := by
  unfold readTerm
  rcases takeNumeral s with ⟨text, rest⟩
  cases rest with
  | nil => exact readConstant_ne_nonFinite
  | cons c behind =>
    dsimp only
    split
    · exact map_ne_error coefficient_ne_nonFinite
    · exact readConstant_ne_nonFinite

end Lexer

theorem readSide_ne_nonFinite {unknown : Char} {glued : Bool} {s : List Char} :
    readSide unknown glued s ≠ .error .nonFinite := by
  -- along the reader's own recursion
  fun_induction readSide unknown glued s with
  | case1 glued => simp
  | case2 glued c behind hblank ih => exact ih
  | case3 glued c behind hblank hrun => simp
  | case4 glued c behind hblank hrun reason hread =>
    intro h
    rw [Except.error.inj h] at hread
    exact Lexer.readTerm_ne_nonFinite hread
  | case5 glued c behind hblank hrun term rest hread _ ih => exact Lexer.map_ne_error ih

/-- A side is refused for what is written in it, never for a number that is not finite. -/
theorem ne_nonFinite_of_terms {v : Char} {side : List Char} {e : EquationError}
    (h : terms v side = .error e) : e ≠ .malformed .nonFinite := by
  rintro rfl
  unfold terms at h
  cases hread : readSide v false side with
  | ok ts =>
    rw [hread] at h
    cases h
  | error reason =>
    rw [hread] at h
    obtain rfl : reason = .nonFinite := by simpa [Except.mapError] using h
    exact readSide_ne_nonFinite hread

/-! ## The ends -/

section Ends

variable {equation : String} {places : Places} {s : List Char} {v : Char} {L R : List Char}
variable {l r : List Term} {k : Coefficients} {e : EquationError} {solution : Solution}

theorem traceNormalise_of_sides (h : HasSides (Text.compact equation.toList) v L R) :
    traceNormalise equation = do
      let left ← traceTerms v L
      let right ← traceTerms v R
      traceCoefficients equation v (Coefficients.ofSides left right)
      return ⟨v, left, right, Coefficients.ofSides left right⟩ := by
  obtain ⟨hL, hR⟩ := sides_of_eq h.count h.text
  unfold traceNormalise
  dsimp only
  rw [if_pos h.count, unknown?_eq_some_iff.mpr h.unknown]
  dsimp only [traceSides]
  rw [hL, hR]

/-- A failure on the way to the coefficients is the last thing that is recorded. -/
theorem traceEvaluate_of_error {records : List Record}
    (h : traceNormalise equation = ⟨records, .error e⟩) :
    traceEvaluate equation places = ⟨records, .error e⟩ := by
  unfold traceEvaluate
  rw [h]
  rfl

theorem traceEvaluate_of_ok {records : List Record} {n : Normalisation}
    (h : traceNormalise equation = ⟨records, .ok n⟩) :
    traceEvaluate equation places =
      ⟨records ++ (traceSolve n.coefficients).records,
        (traceSolve n.coefficients).outcome.map (.shown places n)⟩ := by
  unfold traceEvaluate
  rw [h, Traced.ok_bind]
  rcases traceSolve n.coefficients with ⟨records', outcome⟩
  cases outcome with
  | error e => rfl
  | ok solution => simp [Traced.ok_bind, Except.map]

/-- Behind the two sides, the coefficients are judged. -/
theorem traceNormalise_of_terms {records : List Record} {outcome : Except EquationError Unit}
    (h : HasSides (Text.compact equation.toList) v L R) (hleft : terms v L = .ok l)
    (hright : terms v R = .ok r) (hsum : Coefficients.ofSides l r = k)
    (hk : traceCoefficients equation v k = ⟨records, outcome⟩) :
    traceNormalise equation =
      ⟨.side L v l :: .side R v r :: records, outcome.map fun _ => ⟨v, l, r, k⟩⟩ := by
  subst hsum
  rw [traceNormalise_of_sides h, traceTerms_eq_ok hleft, Traced.ok_bind, traceTerms_eq_ok hright,
    Traced.ok_bind, hk]
  cases outcome with
  | error e => rfl
  | ok u => simp [Traced.ok_bind, Except.map]

/-- **What is recorded up to an end, and what is answered there.** -/
theorem EndsAt.spec {stage : Stage} {records : List Record}
    {answer : Except EquationError Solution}
    (h : EndsAt equation (Text.compact equation.toList) stage records answer) (places : Places) :
    (traceEvaluate equation places).records = records ∧
      (evaluate equation places).map Evaluation.solution = answer := by
  unfold evaluate
  cases h with
  | equalsSigns hcount =>
    have hfail : traceNormalise equation = ⟨[], .error (.malformed
        (.equalsSigns ((Text.compact equation.toList).count '=')))⟩ := if_neg hcount
    rw [traceEvaluate_of_error hfail]
    exact ⟨rfl, rfl⟩
  | noUnknown hcount hletter =>
    have hfail : traceNormalise equation = ⟨[], .error .noUnknown⟩ := by
      unfold traceNormalise
      dsimp only
      rw [if_pos hcount, unknown?_eq_none_iff.mpr hletter]
      rfl
    rw [traceEvaluate_of_error hfail]
    exact ⟨rfl, rfl⟩
  | left hsides hleft =>
    have hfail := traceNormalise_of_sides hsides
    rw [traceTerms_eq_error hleft, Traced.error_bind] at hfail
    rw [traceEvaluate_of_error hfail]
    exact ⟨rfl, rfl⟩
  | right hsides hleft hright =>
    have hfail := traceNormalise_of_sides hsides
    rw [traceTerms_eq_ok hleft, Traced.ok_bind, traceTerms_eq_error hright,
      Traced.error_bind] at hfail
    rw [traceEvaluate_of_error hfail]
    exact ⟨rfl, rfl⟩
  | overflow hsides hleft hright hsum hfinite =>
    have hfail := traceNormalise_of_terms hsides hleft hright hsum
      (traceCoefficients_eq_error hfinite)
    rw [traceEvaluate_of_error hfail]
    exact ⟨rfl, rfl⟩
  | refused hsides hleft hright hsum hfinite hvalue =>
    have hread := traceNormalise_of_terms hsides hleft hright hsum
      (traceCoefficients_eq_ok hfinite)
    have hrefused := traceSolve_eq_error (Solution.settle_eq_error_iff.mpr hvalue)
    rw [traceEvaluate_of_ok hread, hrefused]
    exact ⟨rfl, rfl⟩
  | solved hsides hleft hright hsum hfinite hsolve =>
    have hread := traceNormalise_of_terms hsides hleft hright hsum
      (traceCoefficients_eq_ok hfinite)
    have hsolved := traceSolve_eq_ok (Solution.settle_eq_ok_iff.mpr hsolve)
    rw [traceEvaluate_of_ok hread, hsolved]
    exact ⟨rfl, rfl⟩

theorem exists_endsAt (equation : String) :
    ∃ stage records answer,
      EndsAt equation (Text.compact equation.toList) stage records answer := by
  by_cases hcount : (Text.compact equation.toList).count '=' = 1
  · cases hunknown : unknown? (Text.compact equation.toList) with
    | none => exact ⟨_, _, _, .noUnknown hcount (unknown?_eq_none_iff.mp hunknown)⟩
    | some v =>
      have hsides : HasSides (Text.compact equation.toList) v _ _ :=
        ⟨hcount, unknown?_eq_some_iff.mp hunknown, eq_sides hcount⟩
      cases hleft : terms v (leftSide (Text.compact equation.toList)) with
      | error e => exact ⟨_, _, _, .left hsides hleft⟩
      | ok l =>
        cases hright : terms v (rightSide (Text.compact equation.toList)) with
        | error e => exact ⟨_, _, _, .right hsides hleft hright⟩
        | ok r =>
          cases hfinite : (Coefficients.ofSides l r).isFinite with
          | false => exact ⟨_, _, _, .overflow hsides hleft hright rfl hfinite⟩
          | true =>
            cases hsettle : (Coefficients.ofSides l r).candidate.settle with
            | error x =>
              exact ⟨_, _, _, .refused hsides hleft hright rfl hfinite
                (Solution.settle_eq_error_iff.mp hsettle)⟩
            | ok solution =>
              exact ⟨_, _, _, .solved hsides hleft hright rfl hfinite
                (Solution.settle_eq_ok_iff.mp hsettle)⟩
  · exact ⟨_, _, _, .equalsSigns hcount⟩

variable {stage : Stage} {records : List Record} {answer : Except EquationError Solution}

/-- The records up to an end have the levels of its stage. -/
theorem EndsAt.levels (h : EndsAt equation s stage records answer) :
    records.map Record.level = stage.levels := by
  cases h <;> rfl

/-- A warning is written where a number is not finite, and nowhere else. -/
theorem EndsAt.warning_mem_iff (h : EndsAt equation s stage records answer) :
    .warning ∈ stage.levels ↔ answer = .error (.malformed .nonFinite) := by
  cases h with
  | equalsSigns hcount => simp [Stage.levels]
  | noUnknown hcount hletter => simp [Stage.levels]
  | left hsides hleft =>
    have hne := ne_nonFinite_of_terms hleft
    simpa [Stage.levels] using hne
  | right hsides hleft hright =>
    have hne := ne_nonFinite_of_terms hright
    simpa [Stage.levels] using hne
  | overflow hsides hleft hright hsum hfinite => simp [Stage.levels]
  | refused hsides hleft hright hsum hfinite hvalue => simp [Stage.levels]
  | solved hsides hleft hright hsum hfinite hsolve => simp [Stage.levels]

/-- The only warning of a stage is the last of its records. -/
theorem Stage.exists_of_warning_mem {stage : Stage} (h : .warning ∈ stage.levels) :
    ∃ before, stage.levels = before ++ [.warning] ∧ Level.warning ∉ before := by
  cases stage with
  | unread => simp [levels] at h
  | halfRead => simp [levels] at h
  | unsummed => exact ⟨[.trace, .trace], rfl, by decide⟩
  | unsolved => exact ⟨[.trace, .trace, .debug, .debug], rfl, by decide⟩
  | solved => simp [levels] at h

end Ends

/-- **The journal tells exactly what happened.** An equation ends at a stage exactly when its
records have the levels of that stage, and then the records and the answer are those of its end.
There is always such a stage. A warning is written exactly where the answer is that a number is not
finite, it is then the only one and the last record, and a failure on the way to the coefficients
leaves no record of anything behind it. -/
theorem journal_law (equation : String) (places : Places) :
    (∀ stage records answer,
      EndsAt equation (Text.compact equation.toList) stage records answer ↔
        journalLevels equation places = stage.levels ∧
          (traceEvaluate equation places).records = records ∧
          (evaluate equation places).map Evaluation.solution = answer) ∧
    (∃ stage : Stage, journalLevels equation places = stage.levels) ∧
    (.warning ∈ journalLevels equation places ↔
      evaluate equation places = .error (.malformed .nonFinite)) ∧
    (evaluate equation places = .error (.malformed .nonFinite) →
      ∃ before, journalLevels equation places = before ++ [.warning] ∧ .warning ∉ before) ∧
    ∀ e, normalise equation = .error e →
      (traceEvaluate equation places).records = (traceNormalise equation).records := by
  obtain ⟨stage, records, answer, hend⟩ := exists_endsAt equation
  obtain ⟨hrecords, hanswer⟩ := hend.spec places
  have hlevels : journalLevels equation places = stage.levels := by
    rw [journalLevels, hrecords, hend.levels]
  have hwarning : .warning ∈ journalLevels equation places ↔
      evaluate equation places = .error (.malformed .nonFinite) := by
    rw [hlevels, hend.warning_mem_iff, ← hanswer]
    cases evaluate equation places <;> simp [Except.map]
  refine ⟨fun stage' records' answer' => ⟨fun hend' => ?_, ?_⟩, ⟨stage, hlevels⟩, hwarning,
    fun hnonFinite => ?_, fun e hfail => ?_⟩
  · obtain ⟨hrecords', hanswer'⟩ := hend'.spec places
    exact ⟨by rw [journalLevels, hrecords', hend'.levels], hrecords', hanswer'⟩
  · rintro ⟨hlevels', rfl, rfl⟩
    -- the levels tell the stage
    obtain rfl : stage = stage' := Stage.levels_injective (hlevels.symm.trans hlevels')
    rw [hrecords, hanswer]
    exact hend
  · rw [hlevels]
    exact Stage.exists_of_warning_mem (hlevels ▸ hwarning.mpr hnonFinite)
  · have houtcome : (traceNormalise equation).outcome = .error e := hfail
    have hfailed : traceNormalise equation = ⟨(traceNormalise equation).records, .error e⟩ := by
      rw [← houtcome]
    rw [traceEvaluate_of_error hfailed]

/-- Twice `10 ^ 308`, which is past every finite number. -/
def largeSum : List Char :=
  ['1'] ++ List.replicate 308 '0' ++ ['+', '1'] ++ List.replicate 308 '0'

theorem journal_law_overflow :
    let ten : Places := ⟨10, by decide⟩
    (∃ before, journalLevels (String.ofList ('x' :: '=' :: largeSum)) ten = before ++ [.warning] ∧
      .warning ∉ before) ∧
    (traceEvaluate (String.ofList ('x' :: '=' :: largeSum)) ten).records =
      (traceNormalise (String.ofList ('x' :: '=' :: largeSum))).records := by
  intro ten
  have hsides : HasSides (Text.compact (String.ofList ('x' :: '=' :: largeSum)).toList) 'x' ['x']
      largeSum := by
    have hcompact : Text.compact ('x' :: '=' :: largeSum) = 'x' :: '=' :: largeSum := by
      decide +kernel
    rw [String.toList_ofList, hcompact]
    exact ⟨by decide +kernel, unknown?_eq_some_iff.mp (by decide +kernel), rfl⟩
  have hleft : terms 'x' ['x'] = .ok [⟨.linear, .ofInt 1⟩] := by decide +kernel
  have hright : terms 'x' largeSum =
      .ok (List.replicate 2 ⟨.constant, (Literal.mk false (10 ^ 308) 0).toBinary64⟩) := by
    decide +kernel
  have hfinite : (Coefficients.ofSides [⟨.linear, .ofInt 1⟩] (List.replicate 2
      ⟨.constant, (Literal.mk false (10 ^ 308) 0).toBinary64⟩)).isFinite = false := by
    decide +kernel
  have hfail := traceNormalise_of_terms hsides hleft hright rfl (traceCoefficients_eq_error hfinite)
  have hnormalise : normalise (String.ofList ('x' :: '=' :: largeSum)) =
      .error (.malformed .nonFinite) := by
    rw [normalise, hfail]
    rfl
  obtain ⟨-, -, -, hwarning, hfailure⟩ := journal_law (String.ofList ('x' :: '=' :: largeSum)) ten
  exact ⟨hwarning (evaluate_eq_error hnormalise ten), hfailure _ hnormalise⟩

end QuadraticSolver

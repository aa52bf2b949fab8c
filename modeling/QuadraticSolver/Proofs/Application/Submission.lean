import QuadraticSolver.Application.Window
import QuadraticSolver.Proofs.Evaluation
import QuadraticSolver.Proofs.Text.Blank

/-!
# What comes of a submission

A submission is answered, refused, or has no equation to evaluate. Which of the
three it is, is told of the input itself (`State.Submits`): where the input is
made of blanks there is no equation, and otherwise the equation is what stands
between the blanks at the ends of the input. `State.submission` finds it
(`submits_iff`), and an equation that is evaluated leaves one entry.
-/

namespace QuadraticSolver.Application

/-- What can happen in a step. -/
inductive Event where
  | solved (equation : String) (answer : Evaluation)
  | refused (equation : String) (reason : EquationError)
  /-- A submission without an equation. -/
  | blank
  /-- The results are cleared. -/
  | cleared
  /-- An entry is added to the history from outside. -/
  | recorded (entry : Entry)
  /-- The history is emptied. -/
  | forgotten
  deriving DecidableEq

/-- The entry that an event leaves in the history. -/
def Event.entry? : Event → Option Entry
  | .solved equation answer => some ⟨equation, answer.message, true⟩
  | .refused equation reason => some ⟨equation, reason.message, false⟩
  | .recorded entry => some entry
  | .blank => none
  | .cleared => none
  | .forgotten => none

/-- What comes of a submission, told of the input and of the number of places that is set. -/
inductive State.Submits (s : State) : Event → Prop
  | blank (h : ∀ c ∈ s.input.toList, Text.isBlank c = true) : Submits s .blank
  | solved {equation : String} {answer : Evaluation} (hne : equation ≠ "")
      (hcore : Text.IsCore equation.toList s.input.toList)
      (h : evaluate equation s.places = .ok answer) : Submits s (.solved equation answer)
  | refused {equation : String} {reason : EquationError} (hne : equation ≠ "")
      (hcore : Text.IsCore equation.toList s.input.toList)
      (h : evaluate equation s.places = .error reason) : Submits s (.refused equation reason)

/-- The event of a submission. -/
def State.submission (s : State) : Event :=
  if s.input.toList.all Text.isBlank then .blank
  else
    let equation := String.ofList (Text.trim s.input.toList)
    match evaluate equation s.places with
    | .ok answer => .solved equation answer
    | .error reason => .refused equation reason

/-- The entry that a submission of this equation leaves. -/
def Entry.ofSubmission (equation : String) (places : Places) : Entry :=
  match evaluate equation places with
  | .ok answer => ⟨equation, answer.message, true⟩
  | .error reason => ⟨equation, reason.message, false⟩

/-- The steps that submit the input. -/
def submitting : List Step :=
  [.gesture .pressEnter, .gesture (.click "Résoudre")]

/-! ## The event -/

namespace State

variable {s t : State} {e : Event} {equation : String}

theorem submission_of_blank (h : ∀ c ∈ s.input.toList, Text.isBlank c = true) :
    s.submission = .blank :=
  if_pos (List.all_eq_true.mpr h)

theorem submission_of_not_blank (h : ¬ ∀ c ∈ s.input.toList, Text.isBlank c = true) :
    s.submission =
      match evaluate (String.ofList (Text.trim s.input.toList)) s.places with
      | .ok answer => .solved (String.ofList (Text.trim s.input.toList)) answer
      | .error reason => .refused (String.ofList (Text.trim s.input.toList)) reason :=
  if_neg (mt List.all_eq_true.mp h)

theorem ofList_trim_ne (h : ¬ ∀ c ∈ s.input.toList, Text.isBlank c = true) :
    String.ofList (Text.trim s.input.toList) ≠ "" := by
  intro hempty
  apply h
  rw [← Text.trim_eq_nil_iff, ← String.toList_ofList (l := Text.trim s.input.toList), hempty]
  rfl

/-- An equation between the blanks of an input is found, and the input is not blank. -/
theorem ofList_trim_eq (hne : equation ≠ "")
    (hcore : Text.IsCore equation.toList s.input.toList) :
    String.ofList (Text.trim s.input.toList) = equation ∧
      ¬ ∀ c ∈ s.input.toList, Text.isBlank c = true := by
  have htrim := Text.isCore_iff.mp hcore
  refine ⟨by rw [← htrim, String.ofList_toList], fun hblank => hne ?_⟩
  rw [Text.trim_eq_nil_iff.mpr hblank] at htrim
  exact String.toList_inj.mp htrim

/-- **The event is what comes of the submission.** -/
theorem submits_iff : s.Submits e ↔ s.submission = e := by
  constructor
  · intro h
    cases h with
    | blank h => exact submission_of_blank h
    | solved hne hcore h =>
      obtain ⟨htrim, hblank⟩ := ofList_trim_eq hne hcore
      rw [submission_of_not_blank hblank, htrim, h]
    | refused hne hcore h =>
      obtain ⟨htrim, hblank⟩ := ofList_trim_eq hne hcore
      rw [submission_of_not_blank hblank, htrim, h]
  · rintro rfl
    by_cases hblank : ∀ c ∈ s.input.toList, Text.isBlank c = true
    · rw [submission_of_blank hblank]
      exact .blank hblank
    · have hcore : Text.IsCore (String.ofList (Text.trim s.input.toList)).toList
          s.input.toList := by
        rw [String.toList_ofList]
        exact Text.isCore_trim _
      rw [submission_of_not_blank hblank]
      cases h : evaluate (String.ofList (Text.trim s.input.toList)) s.places with
      | ok answer => exact .solved (ofList_trim_ne hblank) hcore h
      | error reason => exact .refused (ofList_trim_ne hblank) hcore h

/-- There is no equation where the input is made of blanks, and nowhere else. -/
theorem Submits.eq_blank_iff (h : s.Submits e) :
    e = .blank ↔ ∀ c ∈ s.input.toList, Text.isBlank c = true := by
  cases h with
  | blank h => exact iff_of_true rfl h
  | solved hne hcore _ => exact iff_of_false nofun (ofList_trim_eq hne hcore).2
  | refused hne hcore _ => exact iff_of_false nofun (ofList_trim_eq hne hcore).2

/-- A submission looks at the input and at the number of places. -/
theorem submission_congr (hinput : s.input = t.input) (hplaces : s.places = t.places) :
    s.submission = t.submission := by
  unfold submission
  rw [hinput, hplaces]

end State

/-! ## The entry -/

section Entries

variable {s : State} {e : Event} {equation : String} {places : Places} {answer : Evaluation}
variable {reason : EquationError}

theorem Entry.ofSubmission_of_ok (h : evaluate equation places = .ok answer) :
    ofSubmission equation places = ⟨equation, answer.message, true⟩ := by
  unfold ofSubmission
  rw [h]

theorem Entry.ofSubmission_of_error (h : evaluate equation places = .error reason) :
    ofSubmission equation places = ⟨equation, reason.message, false⟩ := by
  unfold ofSubmission
  rw [h]

theorem Entry.equation_ofSubmission (equation : String) (places : Places) :
    (ofSubmission equation places).equation = equation := by
  unfold ofSubmission
  cases evaluate equation places <;> rfl

/-- The entry is a success where the equation is solved, whatever the number of places. -/
theorem Entry.succeeded_ofSubmission_iff (equation : String) (places : Places) :
    (ofSubmission equation places).succeeded = true ↔ ∃ r, resolve equation = .ok r := by
  rw [← exists_evaluate_iff equation places]
  cases h : evaluate equation places with
  | ok answer =>
    rw [ofSubmission_of_ok h]
    exact iff_of_true rfl ⟨answer, rfl⟩
  | error reason =>
    rw [ofSubmission_of_error h]
    refine iff_of_false Bool.false_ne_true ?_
    rintro ⟨answer, hanswer⟩
    cases hanswer

/-- What a failure says does not depend on the number of places either. -/
theorem Entry.ofSubmission_of_failed (h : (ofSubmission equation places).succeeded = false)
    (places' : Places) : ofSubmission equation places' = ofSubmission equation places := by
  cases hanswer : evaluate equation places with
  | ok answer =>
    rw [ofSubmission_of_ok hanswer] at h
    cases h
  | error reason =>
    have hrefused := (evaluate_eq_error_iff equation places reason).mp hanswer
    rw [ofSubmission_of_error hanswer,
      ofSubmission_of_error ((evaluate_eq_error_iff equation places' reason).mpr hrefused)]

/-- A submission that leaves an entry leaves the one of its equation. -/
theorem State.Submits.exists_of_entry_eq_some {entry : Entry} (h : s.Submits e)
    (hentry : e.entry? = some entry) :
    ∃ equation : String, equation ≠ "" ∧ Text.IsCore equation.toList s.input.toList ∧
      entry = Entry.ofSubmission equation s.places := by
  cases h with
  | blank h => cases hentry
  | solved hne hcore h =>
    exact ⟨_, hne, hcore, by rw [Entry.ofSubmission_of_ok h, ← Option.some.inj hentry]⟩
  | refused hne hcore h =>
    exact ⟨_, hne, hcore, by rw [Entry.ofSubmission_of_error h, ← Option.some.inj hentry]⟩

/-- An equation between the blanks of an input leaves its entry. -/
theorem State.Submits.entry?_eq (h : s.Submits e) (hne : equation ≠ "")
    (hcore : Text.IsCore equation.toList s.input.toList) :
    e.entry? = some (Entry.ofSubmission equation s.places) := by
  rw [← State.submits_iff.mp h]
  cases hanswer : evaluate equation s.places with
  | ok answer =>
    rw [State.submits_iff.mp (.solved hne hcore hanswer), Entry.ofSubmission_of_ok hanswer]
    rfl
  | error reason =>
    rw [State.submits_iff.mp (.refused hne hcore hanswer), Entry.ofSubmission_of_error hanswer]
    rfl

end Entries

end QuadraticSolver.Application

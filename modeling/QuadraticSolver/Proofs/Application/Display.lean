import QuadraticSolver.Proofs.Application.Events

/-!
# What is shown

What the window shows of the equations is told by the newest events of the run.
The result is that of the newest success, if the results have not been cleared
behind it; it outlives a refusal. The error and the derivation are those of the
newest event that has anything to say about them, and a derivation is shown only
for a success. So where a derivation is shown, the result beside it is its own
(`display_law`). Which event a submission is, is told of the input of that moment.
-/

namespace QuadraticSolver.Application

/-- The event sets the result. -/
def Event.setsResult : Event → Bool
  | .solved _ _ => true
  | .cleared => true
  | .refused _ _ => false
  | .blank => false
  | .recorded _ => false
  | .forgotten => false

/-- The event sets the error and the derivation. -/
def Event.setsError : Event → Bool
  | .solved _ _ => true
  | .refused _ _ => true
  | .blank => true
  | .cleared => true
  | .recorded _ => false
  | .forgotten => false

/-- The message of the newest success, if nothing has been cleared behind it. -/
def lastResult (past : List Event) : String :=
  match past.find? Event.setsResult with
  | some (.solved _ answer) => answer.message
  | _ => ""

/-- The text of the newest refusal, if neither a success nor a clearing is behind it. -/
def lastError (past : List Event) : String :=
  match past.find? Event.setsError with
  | some (.refused _ reason) => reason.message
  | some .blank => "Entrée vide : saisissez une équation, ex. 2x+3=7"
  | _ => ""

/-- The derivation of the newest success, if neither a refusal nor a clearing is behind it. -/
def lastDerivation (past : List Event) : Derivation :=
  match past.find? Event.setsError with
  | some (.solved _ answer) => answer.derivation
  | _ => .empty

/-- The state shows what these events tell. -/
structure Shows (s : State) (past : List Event) : Prop where
  result : s.result = lastResult past
  error : s.error = lastError past
  derivation : s.derivation = lastDerivation past

theorem shows_congr {s t : State} {past : List Event} (h : Shows s past)
    (haccount : t.account = s.account) : Shows t past where
  result := (congrArg Account.result haccount).trans h.result
  error := (congrArg Account.error haccount).trans h.error
  derivation := (congrArg Account.derivation haccount).trans h.derivation

/-- One event more. -/
theorem shows_cons {s t : State} {past : List Event} {e : Event} (h : Shows s past)
    (haccount : t.account = s.account.after e) : Shows t (e :: past) := by
  have hresult := congrArg Account.result haccount
  have herror := congrArg Account.error haccount
  have hderivation := congrArg Account.derivation haccount
  cases e with
  | solved equation answer => exact ⟨hresult, herror, hderivation⟩
  | refused equation reason => exact ⟨hresult.trans h.result, herror, hderivation⟩
  | blank => exact ⟨hresult.trans h.result, herror, hderivation⟩
  | cleared => exact ⟨hresult, herror, hderivation⟩
  | recorded entry =>
    exact ⟨hresult.trans h.result, herror.trans h.error, hderivation.trans h.derivation⟩
  | forgotten =>
    exact ⟨hresult.trans h.result, herror.trans h.error, hderivation.trans h.derivation⟩

/-- After every run of steps that do not themselves set what is shown, the events tell it. -/
theorem shows_run {steps : List Step} (h : ∀ s ∈ steps, s.isOwn = true) :
    Shows (Window.initial.run steps).state (Window.initial.past steps) := by
  refine Window.run_induction (fun s => s.isOwn = true) (fun w past => Shows w.state past)
    ⟨rfl, rfl, rfl⟩ (fun w past s hs hshows => ?_) h
  have haccount := account_step w hs
  cases hevent : w.event? s with
  | none =>
    rw [hevent] at haccount
    exact shows_congr hshows haccount
  | some e =>
    rw [hevent] at haccount
    exact shows_cons hshows haccount

/-! ## Where a derivation comes from -/

section Derivation

variable {w : Window} {s : Step} {past : List Event} {equation : String} {answer : Evaluation}

/-- A success is that of a submission. -/
theorem submits_of_event? (h : w.event? s = some (.solved equation answer)) :
    w.state.Submits (.solved equation answer) := by
  refine submits_of_entry_eq_some h rfl ?_
  rintro entry rfl
  cases h

/-- The newest event that sets the error sets the result too, if it is a success. -/
theorem find?_setsResult (h : past.find? Event.setsError = some (.solved equation answer)) :
    past.find? Event.setsResult = some (.solved equation answer) := by
  induction past with
  | nil => cases h
  | cons e rest ih =>
    cases e with
    | solved equation answer => exact h
    | refused equation reason => cases h
    | blank => cases h
    | cleared => cases h
    | recorded entry => exact ih h
    | forgotten => exact ih h

theorem exists_of_lastDerivation_ne (h : lastDerivation past ≠ .empty) :
    ∃ equation answer, past.find? Event.setsError = some (.solved equation answer) := by
  unfold lastDerivation at h
  split at h
  next equation answer hfind => exact ⟨equation, answer, hfind⟩
  next => exact absurd rfl h

end Derivation

/-- **What is shown is told by the newest events.** In every run of steps that do not themselves set
what is shown, the result, the error and the derivation are those that the events of the run give.
The event of a submission in this run is blank where the input of that moment is made of blanks;
otherwise it is the answer or the refusal, with as many places as were set, of the equation that is
left of the input without the blanks at its ends. A derivation that is shown belongs to such a
submission, and the result beside it is the message of the same answer. -/
theorem display_law (steps : List Step) (h : ∀ s ∈ steps, s.isOwn = true) :
    let w := Window.initial.run steps
    w.state.result = lastResult (Window.initial.past steps) ∧
    w.state.error = lastError (Window.initial.past steps) ∧
    w.state.derivation = lastDerivation (Window.initial.past steps) ∧
    (∀ before s after, steps = before ++ s :: after → s ∈ submitting →
      ∃ e, (Window.initial.run before).event? s = some e ∧
        (Window.initial.run before).state.Submits e ∧
        (e = .blank ↔
          ∀ c ∈ (Window.initial.run before).state.input.toList, Text.isBlank c = true)) ∧
    (w.state.derivation ≠ .empty →
      ∃ before s after equation answer, steps = before ++ s :: after ∧
        (Window.initial.run before).event? s = some (.solved equation answer) ∧
        equation ≠ "" ∧
        Text.IsCore equation.toList (Window.initial.run before).state.input.toList ∧
        evaluate equation (Window.initial.run before).state.places = .ok answer ∧
        w.state.result = answer.message ∧ w.state.derivation = answer.derivation) := by
  intro w
  obtain ⟨hresult, herror, hderivation⟩ := shows_run h
  refine ⟨hresult, herror, hderivation, fun before s after _ hs => ?_, fun hne => ?_⟩
  · obtain ⟨e, hevent, hsubmits⟩ := submits_of_mem_submitting (w := Window.initial.run before) hs
    exact ⟨e, hevent, hsubmits, hsubmits.eq_blank_iff⟩
  rw [hderivation] at hne
  obtain ⟨equation, answer, hfind⟩ := exists_of_lastDerivation_ne hne
  obtain ⟨before, s, after, hsteps, hevent⟩ :=
    Window.exists_of_mem_past (List.mem_of_find?_eq_some hfind)
  cases submits_of_event? hevent with
  | solved hequation hcore hanswer =>
    refine ⟨before, s, after, equation, answer, hsteps, hevent, hequation, hcore, hanswer, ?_, ?_⟩
    · rw [hresult, lastResult, find?_setsResult hfind]
    · rw [hderivation, lastDerivation, hfind]

/-- The equation `x=2` is entered between blanks and submitted. -/
def submitOnce : List Step :=
  [.change (.enter (String.ofList [' ', 'x', '=', '2', '\t'])), .gesture (.click "Résoudre")]

/-- And then a no-break space is entered. -/
def enterBlank : List Step :=
  submitOnce ++ [.change (.enter (String.ofList ['\u00a0']))]

theorem display_law_submitOnce :
    (∃ before s after equation answer, submitOnce = before ++ s :: after ∧
      (Window.initial.run before).event? s = some (.solved equation answer) ∧
      (Window.initial.run submitOnce).state.result = answer.message ∧
      (Window.initial.run submitOnce).state.derivation = answer.derivation) ∧
    (Window.initial.run enterBlank).event? (.gesture .pressEnter) = some .blank ∧
    (Window.initial.run (enterBlank ++ [.gesture .pressEnter])).state.error =
      "Entrée vide : saisissez une équation, ex. 2x+3=7" := by
  have hne : (Window.initial.run submitOnce).state.derivation ≠ .empty := by decide +kernel
  obtain ⟨before, s, after, equation, answer, hsteps, hevent, -, -, -, hresult, hderivation⟩ :=
    (display_law submitOnce (by decide)).2.2.2.2 hne
  obtain ⟨-, herror, -, hsubmission, -⟩ :=
    display_law (enterBlank ++ [.gesture .pressEnter]) (by decide)
  obtain ⟨e, hblank, -, hiff⟩ := hsubmission enterBlank (.gesture .pressEnter) [] rfl (by decide)
  have hinput : (Window.initial.run enterBlank).state.input.toList = ['\u00a0'] :=
    String.toList_ofList
  obtain rfl := hiff.mpr (by simp [hinput, Text.isBlank])
  refine ⟨⟨before, s, after, equation, answer, hsteps, hevent, hresult, hderivation⟩, hblank, ?_⟩
  rw [herror, Window.past_concat, hblank]
  rfl

/-- A refusal takes the derivation away, and not the result. -/
example :
    let w := Window.initial.run (submitOnce ++
      [.change (.enter (String.ofList ['x'])), .gesture .pressEnter])
    w.state.result ≠ "" ∧ w.state.error ≠ "" ∧ w.state.derivation = .empty := by
  decide +kernel

end QuadraticSolver.Application

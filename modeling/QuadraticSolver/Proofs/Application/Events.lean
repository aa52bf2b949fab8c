import Mathlib.Data.List.Induction
import QuadraticSolver.Proofs.Application.Buttons
import QuadraticSolver.Proofs.Application.Submission

/-!
# What happens in a run

Of the steps of a run only a few leave a trace in what the window tells: a
submission, which is answered, refused or blank (`State.Submits`), the clearing
of the results, an entry that is added from outside, and the emptying of the
history. These are the *events* of a run (`Window.past`, the newest first). An
event is told from the step and from what is on the screen before it, by the
labels of the buttons, not from what the step does.

What the window tells, its `Account`, is a function of the events alone: each
event changes the account in its own way, and every other step leaves it as it
is (`account_step`, `history_step`). What holds of a run follows by induction
over its steps, each with its event (`run_induction`).
-/

namespace QuadraticSolver.Application

/-- The event of a step, if it has one. The button that empties the history has to be on the screen,
and a click on its label has to reach it and not an entry with the same text. -/
def Window.event? (w : Window) : Step → Option Event
  | .change .clearResults => some .cleared
  | .change .reset => some .cleared
  | .change (.record entry) => some (.recorded entry)
  | .change .clearHistory => some .forgotten
  | .gesture .pressEnter => some w.state.submission
  | .gesture .clickClearHistory =>
    if .button "Vider l’historique" .clearHistory ∈ w.screen then some .forgotten else none
  | .gesture (.click label) =>
    if label = "Résoudre" then some w.state.submission
    else if label = "CLR" ∨ label = "AC" then some .cleared
    else if label = "Vider l’historique" ∧ .button label .clearHistory ∈ w.screen ∧
        ∀ entry ∈ w.state.history, entry.equation ≠ label then some .forgotten
    else none
  | _ => none

/-- The events of a run, the newest first. -/
def Window.past (w : Window) : List Step → List Event
  | [] => []
  | s :: rest => (w.step s).1.past rest ++ (w.event? s).toList

/-! ## The events of a run -/

namespace Window

theorem past_append (w : Window) (first second : List Step) :
    w.past (first ++ second) = (w.run first).past second ++ w.past first := by
  induction first generalizing w with
  | nil => simp [past]
  | cons s rest ih =>
    rw [List.cons_append, past, ih, run_cons, past, List.append_assoc]

theorem past_concat (w : Window) (steps : List Step) (s : Step) :
    w.past (steps ++ [s]) = ((w.run steps).event? s).toList ++ w.past steps := by
  rw [past_append]
  rfl

/-- An event of a run is the event of one of its steps. -/
theorem exists_of_mem_past {w : Window} {steps : List Step} {e : Event} (h : e ∈ w.past steps) :
    ∃ before s after, steps = before ++ s :: after ∧ (w.run before).event? s = some e := by
  induction steps generalizing w with
  | nil => cases h
  | cons s rest ih =>
    rw [past, List.mem_append] at h
    rcases h with h | h
    · obtain ⟨before, s', after, rfl, hevent⟩ := ih h
      exact ⟨s :: before, s', after, rfl, hevent⟩
    · exact ⟨[], s, rest, rfl, Option.mem_toList.mp h⟩

/-- What holds at the start, and is kept by each step that is allowed with its event, holds after
every run of such steps. -/
theorem run_induction (allowed : Step → Prop) (P : Window → List Event → Prop) {w : Window}
    (hstart : P w [])
    (hstep : ∀ w past s, allowed s → P w past → P (w.step s).1 ((w.event? s).toList ++ past))
    {steps : List Step} (hsteps : ∀ s ∈ steps, allowed s) : P (w.run steps) (w.past steps) := by
  induction steps using List.reverseRecOn with
  | nil => exact hstart
  | append_singleton steps s ih =>
    rw [past_concat, run_append]
    refine hstep _ _ s (hsteps s (by simp)) (ih fun s' hs' => hsteps s' ?_)
    exact List.mem_append_left _ hs'

end Window

/-! ## What the window tells -/

/-- What a state tells about the equations that were submitted. -/
structure Account where
  result : String
  error : String
  derivation : Derivation
  history : List Entry

/-- The history after an event. -/
def Event.keep (e : Event) (history : List Entry) : List Entry :=
  if e = .forgotten then []
  else
    match e.entry? with
    | some entry => (entry :: history).take historyLimit
    | none => history

/-- The account after an event. -/
def Account.after (a : Account) (e : Event) : Account :=
  let history := e.keep a.history
  match e with
  | .solved _ answer => ⟨answer.message, "", answer.derivation, history⟩
  | .refused _ reason => ⟨a.result, reason.message, .empty, history⟩
  | .blank => ⟨a.result, blankInputError, .empty, history⟩
  | .cleared => ⟨"", "", .empty, history⟩
  | .recorded _ => ⟨a.result, a.error, a.derivation, history⟩
  | .forgotten => ⟨a.result, a.error, a.derivation, history⟩

theorem history_after (a : Account) (e : Event) : (a.after e).history = e.keep a.history := by
  cases e <;> rfl

/-- What a state tells. -/
def State.account (s : State) : Account :=
  ⟨s.result, s.error, s.derivation, s.history⟩

/-- The event of a button. -/
def State.eventOf? (s : State) : Action → Option Event
  | .submit => some s.submission
  | .clearResults => some .cleared
  | .reset => some .cleared
  | .clearHistory => some .forgotten
  | .clearInput => none
  | .insert _ => none
  | .delete => none
  | .toggleDerivation => none
  | .toggleHistory => none
  | .reload _ => none

/-- The button that a gesture wants, if it wants one. -/
def Gesture.wanted? : Gesture → Option (String × Action → Bool)
  | .click label => some fun b => b.1 == label
  | .clickHistoryHeader => some fun b => b.2 == .toggleHistory
  | .clickEntry index => some fun b => b.2 == .reload index
  | .clickClearHistory => some fun b => b.2 == .clearHistory
  | .pressEnter => none
  | .pressEscape => none
  | .selectPlaces _ => none
  | .look => none

/-! ## What a step does to the account -/

section Account

variable {w : Window} {s : State} {action : Action} {b : String × Action} {label : String}

@[simp]
theorem state_onState (w : Window) (f : State → State) : (w.onState f).state = f w.state :=
  rfl

/-- A submission changes the account by its event. -/
theorem account_submit (s : State) : s.submit.account = s.account.after s.submission := by
  by_cases hblank : ∀ c ∈ s.input.toList, Text.isBlank c = true
  · rw [State.submit_blank (Text.trim_eq_nil_iff.mpr hblank), State.submission_of_blank hblank]
    rfl
  · rw [State.submission_of_not_blank hblank]
    unfold State.submit
    dsimp only
    rw [if_neg (State.ofList_trim_ne hblank)]
    cases evaluate (String.ofList (Text.trim s.input.toList)) s.places <;> rfl

theorem account_reload (s : State) (index : Nat) : (s.reload index).account = s.account := by
  unfold State.reload
  split <;> rfl

/-- A button changes the account by its event. -/
theorem account_perform (w : Window) (action : Action) :
    (w.perform action).state.account =
      (w.state.eventOf? action).elim w.state.account w.state.account.after := by
  cases action with
  | submit =>
    simp only [Window.perform, State.eventOf?, Option.elim_some, state_onState]
    exact account_submit w.state
  | reload index => exact account_reload w.state index
  | clearResults => rfl
  | reset => rfl
  | clearHistory => rfl
  | clearInput => rfl
  | insert text => rfl
  | delete => rfl
  | toggleDerivation => rfl
  | toggleHistory => rfl

theorem submission_display (w : Window) : w.display.state.submission = w.state.submission :=
  State.submission_congr rfl rfl

theorem eventOf?_display (w : Window) : w.display.state.eventOf? = w.state.eventOf? := by
  funext action
  unfold State.eventOf?
  rw [submission_display]

theorem account_display (w : Window) : w.display.state.account = w.state.account :=
  rfl

theorem account_press (w : Window) (wanted : String × Action → Bool) :
    (w.press wanted).1.state.account =
      (((w.buttons.find? wanted).map Prod.snd).bind w.state.eventOf?).elim w.state.account
        w.state.account.after := by
  unfold Window.press
  cases w.buttons.find? wanted with
  | none => rfl
  | some b => exact account_perform w b.2

/-- A button that has an event is one of four. -/
theorem label_eq_of_eventOf? (hb : b ∈ w.buttons) (hevent : s.eventOf? b.2 ≠ none) :
    b = ("Résoudre", .submit) ∨ b = ("CLR", .clearResults) ∨ b = ("AC", .reset) ∨
      b = (Window.clearLabel, .clearHistory) := by
  obtain ⟨label, action⟩ := b
  cases action with
  | submit => exact .inl (Prod.ext (Window.label_of_mem hb rfl) rfl)
  | clearResults => exact .inr (.inl (Prod.ext (Window.label_of_mem hb rfl) rfl))
  | reset => exact .inr (.inr (.inl (Prod.ext (Window.label_of_mem hb rfl) rfl)))
  | clearHistory => exact .inr (.inr (.inr (Prod.ext (Window.label_of_mem hb rfl) rfl)))
  | clearInput => exact absurd rfl hevent
  | insert text => exact absurd rfl hevent
  | delete => exact absurd rfl hevent
  | toggleDerivation => exact absurd rfl hevent
  | toggleHistory => exact absurd rfl hevent
  | reload index => exact absurd rfl hevent

/-- A click empties the history where its label reaches the button that does so. -/
theorem forgets_iff (w : Window) (label : String) :
    (label = "Vider l’historique" ∧ .button label .clearHistory ∈ w.screen ∧
        ∀ entry ∈ w.state.history, entry.equation ≠ label) ↔
      w.buttons.find? (fun b => b.1 == label) = some (label, .clearHistory) := by
  rw [Window.find?_eq_clearHistory_iff, ← Window.mem_clearHistory_iff, Window.mem_buttons_iff]
  constructor
  · rintro ⟨rfl, hmem, hentries⟩
    exact ⟨rfl, hmem, hentries⟩
  · rintro ⟨rfl, hmem, hentries⟩
    exact ⟨rfl, hmem, hentries⟩

/-- The event of a click on a label is that of the button which the click reaches. -/
theorem event?_click (w : Window) (label : String) :
    w.event? (.gesture (.click label)) =
      ((w.buttons.find? fun b => b.1 == label).map Prod.snd).bind w.state.eventOf? := by
  simp only [Window.event?, forgets_iff]
  -- three labels reach a fixed button
  by_cases hsubmit : label = "Résoudre"
  · subst hsubmit
    rw [if_pos rfl, Window.find?_of_fixed (b := ("Résoudre", .submit)) (by decide)]
    rfl
  rw [if_neg hsubmit]
  by_cases hresults : label = "CLR"
  · subst hresults
    rw [if_pos (.inl rfl), Window.find?_of_fixed (b := ("CLR", .clearResults)) (by decide)]
    rfl
  by_cases hreset : label = "AC"
  · subst hreset
    rw [if_pos (.inr rfl), Window.find?_of_fixed (b := ("AC", .reset)) (by decide)]
    rfl
  rw [if_neg (not_or.mpr ⟨hresults, hreset⟩)]
  -- any other has an event only if it reaches the button that empties the history
  cases hfind : w.buttons.find? fun b => b.1 == label with
  | none => rfl
  | some b =>
    obtain ⟨label', action⟩ := b
    obtain rfl : label' = label := by simpa using List.find?_some hfind
    have hmem := List.mem_of_find?_eq_some hfind
    by_cases hevent : w.state.eventOf? action = none
    · rw [if_neg]
      · exact hevent.symm
      · intro hclear
        cases (Prod.mk.inj (Option.some.inj hclear)).2
        cases hevent
    · rcases label_eq_of_eventOf? hmem hevent with h | h | h | h
      · exact absurd (Prod.mk.inj h).1 hsubmit
      · exact absurd (Prod.mk.inj h).1 hresults
      · exact absurd (Prod.mk.inj h).1 hreset
      · obtain ⟨-, rfl⟩ := Prod.mk.inj h
        rw [if_pos rfl]
        rfl

/-- The event of a gesture at a button is that of the button which the gesture reaches. -/
theorem event?_of_wanted {g : Gesture} {wanted : String × Action → Bool}
    (h : g.wanted? = some wanted) :
    w.event? (.gesture g) =
      ((w.buttons.find? wanted).map Prod.snd).bind w.state.eventOf? := by
  cases g with
  | click label =>
    cases h
    exact event?_click w label
  | clickHistoryHeader =>
    cases h
    rw [Window.find?_action]
    split <;> rfl
  | clickEntry index =>
    cases h
    rw [Window.find?_action]
    split <;> rfl
  | clickClearHistory =>
    cases h
    have hclear : Action.clearHistory ∈ w.buttons.map Prod.snd ↔
        .button "Vider l’historique" .clearHistory ∈ w.screen :=
      (Window.mem_actions_iff rfl).trans Window.mem_buttons_iff
    rw [Window.find?_action]
    simp only [Window.event?, hclear]
    split <;> rfl
  | pressEnter => cases h
  | pressEscape => cases h
  | selectPlaces places => cases h
  | look => cases h

/-- The event of a step that submits is what comes of the submission. -/
theorem submits_of_mem_submitting {s : Step} (h : s ∈ submitting) :
    ∃ e, w.event? s = some e ∧ w.state.Submits e := by
  refine ⟨w.state.submission, ?_, State.submits_iff.mpr rfl⟩
  rcases List.mem_cons.mp h with rfl | h
  · rfl
  · obtain rfl := List.mem_singleton.mp h
    rfl

/-- An event that leaves an entry is that of a submission, or the entry is added from outside. -/
theorem submits_of_entry_eq_some {s : Step} {e : Event} {entry : Entry} (h : w.event? s = some e)
    (hentry : e.entry? = some entry) (hs : ∀ entry, s ≠ .change (.record entry)) :
    w.state.Submits e := by
  rw [State.submits_iff]
  cases s with
  | change c =>
    cases c with
    | record entry => exact absurd rfl (hs entry)
    | clearResults =>
      cases h
      cases hentry
    | reset =>
      cases h
      cases hentry
    | clearHistory =>
      cases h
      cases hentry
    | enter text => cases h
    | clearInput => cases h
    | showError message => cases h
    | showResult message derivation => cases h
    | setPlaces places => cases h
    | reload index => cases h
  | gesture g =>
    cases hwanted : g.wanted? with
    | some wanted =>
      rw [event?_of_wanted hwanted, Option.bind_eq_some_iff] at h
      obtain ⟨action, -, hevent⟩ := h
      cases action with
      | submit => exact Option.some.inj hevent
      | clearResults =>
        cases hevent
        cases hentry
      | reset =>
        cases hevent
        cases hentry
      | clearHistory =>
        cases hevent
        cases hentry
      | clearInput => cases hevent
      | insert text => cases hevent
      | delete => cases hevent
      | toggleDerivation => cases hevent
      | toggleHistory => cases hevent
      | reload index => cases hevent
    | none =>
      cases g with
      | pressEnter => exact Option.some.inj h
      | pressEscape => cases h
      | selectPlaces places => cases h
      | look => cases h
      | click label => cases hwanted
      | clickHistoryHeader => cases hwanted
      | clickEntry index => cases hwanted
      | clickClearHistory => cases hwanted

theorem gesture_of_wanted {g : Gesture} {wanted : String × Action → Bool}
    (h : g.wanted? = some wanted) : w.gesture g = w.display.press wanted := by
  cases g <;> cases h <;> rfl

/-- A gesture changes the account by its event. -/
theorem account_gesture (w : Window) (g : Gesture) :
    (w.gesture g).1.state.account =
      (w.event? (.gesture g)).elim w.state.account w.state.account.after := by
  cases h : g.wanted? with
  | some wanted =>
    rw [gesture_of_wanted h, account_press, event?_of_wanted h, Window.buttons_display,
      eventOf?_display, account_display]
  | none =>
    cases g with
    | click label => cases h
    | clickHistoryHeader => cases h
    | clickEntry index => cases h
    | clickClearHistory => cases h
    | pressEnter =>
      simp only [Window.gesture, Window.perform, Window.event?, Option.elim_some, state_onState]
      rw [account_submit, submission_display, account_display]
    | pressEscape => rfl
    | selectPlaces places =>
      show (w.display.selectPlaces places).state.account = _
      unfold Window.selectPlaces
      split <;> rfl
    | look => rfl

/-- The step shows no text that comes from outside in the place of a result or of an error. -/
def Step.isOwn : Step → Bool
  | .change (.showError _) => false
  | .change (.showResult _ _) => false
  | _ => true

/-- **A step changes the account by its event**, and not at all without one, if it does not itself
set what is shown. -/
theorem account_step (w : Window) {s : Step} (h : s.isOwn) :
    (w.step s).1.state.account = (w.event? s).elim w.state.account w.state.account.after := by
  cases s with
  | gesture g => exact account_gesture w g
  | change c =>
    cases c with
    | reload index => exact account_reload w.state index
    | showError message => cases h
    | showResult message derivation => cases h
    | enter text => rfl
    | reset => rfl
    | clearInput => rfl
    | clearResults => rfl
    | setPlaces places => rfl
    | record entry => rfl
    | clearHistory => rfl

/-- **A step changes the history by its event**, and not at all without one. -/
theorem history_step (w : Window) (s : Step) :
    (w.step s).1.state.history =
      (w.event? s).elim w.state.history fun e => e.keep w.state.history := by
  cases s with
  | gesture g =>
    have haccount := congrArg Account.history (account_gesture w g)
    cases hevent : w.event? (.gesture g) with
    | none =>
      rw [hevent] at haccount
      exact haccount
    | some e =>
      rw [hevent] at haccount
      exact haccount.trans (history_after w.state.account e)
  | change c =>
    cases c with
    | reload index => exact congrArg Account.history (account_reload w.state index)
    | enter text => rfl
    | reset => rfl
    | clearInput => rfl
    | clearResults => rfl
    | showError message => rfl
    | showResult message derivation => rfl
    | setPlaces places => rfl
    | record entry => rfl
    | clearHistory => rfl

/-- A submission of blanks leaves the history alone. -/
theorem history_submit_blank {s : Step} (h : s ∈ submitting)
    (hblank : ∀ c ∈ w.state.input.toList, Text.isBlank c = true) :
    (w.step s).1.state.history = w.state.history := by
  obtain ⟨e, hevent, hsubmits⟩ := submits_of_mem_submitting (w := w) h
  rw [State.submits_iff, State.submission_of_blank hblank] at hsubmits
  rw [history_step, hevent, ← hsubmits]
  rfl

/-- Any other submission leaves the entry of the equation between the blanks. -/
theorem history_submit {s : Step} {equation : String} (h : s ∈ submitting) (hne : equation ≠ "")
    (hcore : Text.IsCore equation.toList w.state.input.toList) :
    (w.step s).1.state.history =
      (Entry.ofSubmission equation w.state.places :: w.state.history).take historyLimit := by
  obtain ⟨e, hevent, hsubmits⟩ := submits_of_mem_submitting (w := w) h
  have hentry := hsubmits.entry?_eq hne hcore
  have hforgotten : e ≠ .forgotten := by
    rintro rfl
    cases hentry
  rw [history_step, hevent, Option.elim_some, Event.keep, if_neg hforgotten, hentry]

end Account

end QuadraticSolver.Application

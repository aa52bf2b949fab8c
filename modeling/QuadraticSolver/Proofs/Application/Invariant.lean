import QuadraticSolver.Proofs.Application.Events

/-!
# What every reachable state keeps

Three things hold of the state after every run, whatever is called from outside and
whatever is clicked (`State.Kept`): the number of places is one that the selector
has, the history is within its limit, and an error stands beside an empty
derivation. Each operation is looked at once, a button and a change are one
operation each, and the run follows by induction on its steps.

Beside that, what is not there does nothing: a click that finds no button only takes
the request for the focus away, and there is no entry to bring back from past the end of
the history.
-/

namespace QuadraticSolver.Application

/-- What every operation keeps. -/
structure State.Kept (s : State) : Prop where
  places_le : s.places.toNat ≤ maxPlaces
  length_history_le : s.history.length ≤ historyLimit
  derivation_eq : s.error ≠ "" → s.derivation = .empty

namespace State.Kept

variable {s t : State}

theorem initial : State.initial.Kept :=
  ⟨by decide, by decide, fun h => absurd rfl h⟩

/-- Only these four fields count. -/
theorem congr (h : s.Kept) (hplaces : t.places = s.places) (hhistory : t.history = s.history)
    (herror : t.error = s.error) (hderivation : t.derivation = s.derivation) : t.Kept := by
  refine ⟨?_, ?_, ?_⟩
  · rw [hplaces]
    exact h.places_le
  · rw [hhistory]
    exact h.length_history_le
  · rw [herror, hderivation]
    exact h.derivation_eq

/-- An error comes with an empty derivation. -/
theorem showError (h : s.Kept) (message : String) : (s.showError message).Kept :=
  ⟨h.places_le, h.length_history_le, fun _ => rfl⟩

/-- A result comes without an error, so any derivation may stand beside it. -/
theorem showResult (h : s.Kept) (message : String) (derivation : Derivation) :
    (s.showResult message derivation).Kept :=
  ⟨h.places_le, h.length_history_le, fun hne => absurd rfl hne⟩

theorem clearResults (h : s.Kept) : s.clearResults.Kept :=
  ⟨h.places_le, h.length_history_le, fun hne => absurd rfl hne⟩

theorem setPlaces (h : s.Kept) (places : Nat) : (s.setPlaces places).Kept :=
  ⟨s.places_setPlaces_le places, h.length_history_le, h.derivation_eq⟩

theorem record (h : s.Kept) (entry : Entry) : (s.record entry).Kept :=
  ⟨h.places_le, s.length_history_record_le entry, h.derivation_eq⟩

theorem clearHistory (h : s.Kept) : s.clearHistory.Kept :=
  ⟨h.places_le, Nat.zero_le _, h.derivation_eq⟩

theorem reset (h : s.Kept) : s.reset.Kept :=
  ⟨initial.places_le, h.length_history_le, initial.derivation_eq⟩

theorem reload (h : s.Kept) (index : Nat) : (s.reload index).Kept := by
  unfold State.reload
  split
  next => exact h.congr rfl rfl rfl rfl
  next => exact h

/-- A submission records and then shows, or shows the error alone. -/
theorem submit (h : s.Kept) : s.submit.Kept := by
  unfold State.submit
  dsimp only
  split
  next => exact h.showError _
  next =>
    cases evaluate (String.ofList (Text.trim s.input.toList)) s.places with
    | ok answer => exact (h.record _).showResult _ _
    | error reason => exact (h.record _).showError _

theorem change (h : s.Kept) (c : Change) : (s.change c).Kept := by
  cases c with
  | enter text => exact h.congr rfl rfl rfl rfl
  | reset => exact h.reset
  | clearInput => exact h.congr rfl rfl rfl rfl
  | clearResults => exact h.clearResults
  | showError message => exact h.showError message
  | showResult message derivation => exact h.showResult message derivation
  | setPlaces places => exact h.setPlaces places
  | record entry => exact h.record entry
  | clearHistory => exact h.clearHistory
  | reload index => exact h.reload index

variable {w : Window}

theorem display (h : w.state.Kept) : w.display.state.Kept :=
  h.congr rfl rfl rfl rfl

theorem perform (h : w.state.Kept) (action : Action) : (w.perform action).state.Kept := by
  cases action with
  | clearInput => exact h.congr rfl rfl rfl rfl
  | clearResults => exact h.clearResults
  | reset => exact h.reset
  | insert text => exact h.congr rfl rfl rfl rfl
  | submit => exact h.submit
  | delete => exact h.congr rfl rfl rfl rfl
  | toggleDerivation => exact h
  | toggleHistory => exact h
  | reload index => exact h.reload index
  | clearHistory => exact h.clearHistory

theorem press (h : w.state.Kept) (wanted : String × Action → Bool) :
    (w.press wanted).1.state.Kept := by
  unfold Window.press
  cases w.buttons.find? wanted with
  | some b => exact h.perform b.2
  | none => exact h

theorem selectPlaces (h : w.state.Kept) (places : Int) : (w.selectPlaces places).state.Kept := by
  unfold Window.selectPlaces
  split
  next => exact h
  next => exact h.setPlaces _

theorem gesture (h : w.state.Kept) (g : Gesture) : (w.gesture g).1.state.Kept := by
  cases g with
  | click label => exact h.display.press _
  | clickHistoryHeader => exact h.display.press _
  | clickEntry index => exact h.display.press _
  | clickClearHistory => exact h.display.press _
  | pressEnter => exact h.display.perform .submit
  | pressEscape => exact (h.perform .clearInput).display
  | selectPlaces places => exact h.display.selectPlaces places
  | look => exact h.display

/-- **Every step keeps it.** -/
theorem step (h : w.state.Kept) (s : Step) : (w.step s).1.state.Kept := by
  cases s with
  | change c => exact h.change c
  | gesture g => exact h.gesture g

/-- And so does every run. -/
theorem run (h : w.state.Kept) (steps : List Step) : (w.run steps).state.Kept := by
  induction steps generalizing w with
  | nil => exact h
  | cons s rest ih => exact ih (h.step s)

end State.Kept

/-! ## What is not there -/

/-- The gesture is meant for a button, and the screen has none such. -/
def Gesture.Misses (g : Gesture) (w : Window) : Prop :=
  ∃ wanted, g.wanted? = some wanted ∧
    ∀ label action, .button label action ∈ w.screen → wanted (label, action) = false

section Absent

variable {w : Window} {g : Gesture} {index : Nat}

/-- A gesture that misses only displays the window. -/
theorem gesture_of_misses (h : g.Misses w) : w.gesture g = (w.display, .absent) := by
  obtain ⟨wanted, hwanted, hnone⟩ := h
  have hfind : w.display.buttons.find? wanted = none := by
    rw [Window.buttons_display, List.find?_eq_none]
    intro b hb
    rw [hnone b.1 b.2 (Window.mem_buttons_iff.mp hb)]
    exact Bool.false_ne_true
  rw [gesture_of_wanted hwanted]
  unfold Window.press
  rw [hfind]

/-- A click on an entry that the history does not have misses. -/
theorem misses_clickEntry (h : w.state.history.length ≤ index) :
    (Gesture.clickEntry index).Misses w := by
  refine ⟨_, rfl, fun label action hbutton => beq_false_of_ne ?_⟩
  rintro rfl
  obtain ⟨-, entry, hentry, -⟩ := Window.mem_reload_iff.mp (Window.mem_buttons_iff.mpr hbutton)
  rw [List.getElem?_eq_none h] at hentry
  cases hentry

/-- There is no entry to bring back from past the end of the history. -/
theorem step_reload_of_length_le (h : w.state.history.length ≤ index) :
    w.step (.change (.reload index)) = (w, .state) := by
  have hreload : w.state.reload index = w.state := by
    unfold State.reload
    rw [List.getElem?_eq_none h]
  show (({ w with state := w.state.reload index } : Window), Reply.state) = (w, .state)
  rw [hreload]

end Absent

/-- **The invariant of the application.** After every run of steps of any kind the number of places
is at most 15, the history has at most 50 entries, and an error stands beside a derivation of six
empty texts. A gesture for something that is not on the screen is answered so and changes nothing
but the request for the focus, and past the end of the history there is nothing to bring back. -/
theorem state_law (steps : List Step) :
    let w := Window.initial.run steps
    w.state.places.toNat ≤ 15 ∧ w.state.history.length ≤ 50 ∧
    (w.state.error ≠ "" → w.state.derivation = ⟨"", "", "", "", "", ""⟩) ∧
    (∀ g : Gesture, g.Misses w →
      w.step (.gesture g) = ({ w with state := { w.state with focus := false } }, .absent)) ∧
    ∀ index, w.state.history.length ≤ index →
      w.step (.change (.reload index)) = (w, .state) ∧ (Gesture.clickEntry index).Misses w := by
  intro w
  obtain ⟨hplaces, hhistory, hderivation⟩ := State.Kept.initial.run (w := .initial) steps
  exact ⟨hplaces, hhistory, hderivation, fun g hg => gesture_of_misses hg,
    fun index hindex => ⟨step_reload_of_length_le hindex, misses_clickEntry hindex⟩⟩

/-- A result with its derivation, and then the letter `x` submitted, which is no equation. -/
theorem state_law_refusal :
    let w := Window.initial.run
      [.change (.showResult "x = 2" ⟨"x", "", "", "", "", ""⟩),
        .change (.enter (String.ofList ['x'])), .gesture .pressEnter]
    w.state.error ≠ "" ∧ w.state.derivation = ⟨"", "", "", "", "", ""⟩ ∧
      (w.step (.gesture (.clickEntry 1))).2 = .absent := by
  intro w
  have herror : w.state.error ≠ "" := by decide +kernel
  have hlength : w.state.history.length ≤ 1 := by decide +kernel
  obtain ⟨-, -, hderivation, hmisses, houtside⟩ := state_law
    [.change (.showResult "x = 2" ⟨"x", "", "", "", "", ""⟩),
      .change (.enter (String.ofList ['x'])), .gesture .pressEnter]
  refine ⟨herror, hderivation herror, ?_⟩
  rw [hmisses _ (houtside 1 hlength).2]

end QuadraticSolver.Application

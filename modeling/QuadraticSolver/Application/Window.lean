import QuadraticSolver.Application.Screen

/-!
# Using the window

There are two ways to change the application. A *change* acts on the state
directly and displays nothing. A *gesture* is what a user does at the window:
the window is displayed first, which gives the field its focus and takes the
request for it away, and then the gesture acts.

A click names a button by its label and reaches the first one on the screen
that has it; a click on a label that no button has does nothing.
-/

namespace QuadraticSolver.Application

/-- A change of the state without the window. -/
inductive Change where
  | enter (text : String)
  | reset
  | clearInput
  | clearResults
  | showError (message : String)
  | showResult (message : String) (derivation : Derivation)
  | setPlaces (places : Nat)
  | record (entry : Entry)
  | clearHistory
  | reload (index : Nat)
  deriving DecidableEq

/-- What a user does at the window. -/
inductive Gesture where
  /-- Clicks the first button with this label. -/
  | click (label : String)
  /-- Clicks the header of the history. -/
  | clickHistoryHeader
  /-- Clicks an entry of the history, counted from the newest. -/
  | clickEntry (index : Nat)
  /-- Clicks the button that empties the history. -/
  | clickClearHistory
  /-- Presses the enter key while the input field has the focus, or loses it by this key. Anywhere
  else the key does nothing, and the gesture is `look`. -/
  | pressEnter
  | pressEscape
  /-- Turns the selector of places to a number, as far as it goes. -/
  | selectPlaces (places : Int)
  /-- Only looks. -/
  | look
  deriving DecidableEq

/-- One step in the use of the application. -/
inductive Step where
  | change (change : Change)
  | gesture (gesture : Gesture)
  deriving DecidableEq

/-- What a step shows. -/
inductive Reply where
  /-- The state after the step. -/
  | state
  /-- What was to be clicked is not on the screen. -/
  | absent
  /-- The screen. -/
  | screen (items : List Item)
  deriving DecidableEq

/-- A change of the state. -/
def State.change (s : State) : Change → State
  | .enter text => s.enter text
  | .reset => s.reset
  | .clearInput => s.clearInput
  | .clearResults => s.clearResults
  | .showError message => s.showError message
  | .showResult message derivation => s.showResult message derivation
  | .setPlaces places => s.setPlaces places
  | .record entry => s.record entry
  | .clearHistory => s.clearHistory
  | .reload index => s.reload index

namespace Window

/-- Applies a function to the state. -/
def onState (w : Window) (f : State → State) : Window :=
  { w with state := f w.state }

/-- The window once displayed: the request for the focus is taken. -/
def display (w : Window) : Window :=
  w.onState fun s => { s with focus := false }

/-- What a button does to the window. -/
def perform (w : Window) : Action → Window
  | .clearInput => w.onState State.clearInput
  | .clearResults => w.onState State.clearResults
  | .reset => w.onState State.reset
  | .insert text => w.onState (·.insert text)
  | .submit => w.onState State.submit
  | .delete => w.onState State.delete
  | .toggleDerivation => { w with derivationOpen := !w.derivationOpen }
  | .toggleHistory => { w with historyOpen := !w.historyOpen }
  | .reload index => w.onState (·.reload index)
  | .clearHistory => w.onState State.clearHistory

/-- Presses the first button that is wanted, if one is on the screen. -/
def press (w : Window) (wanted : String × Action → Bool) : Window × Reply :=
  match w.buttons.find? wanted with
  | some button => (w.perform button.2, .state)
  | none => (w, .absent)

/-- The number of places that the selector stops at. -/
def selectable (places : Int) : Nat :=
  min places.toNat maxPlaces

/-- Turns the selector; where it stands already, nothing changes. -/
def selectPlaces (w : Window) (places : Int) : Window :=
  if selectable places = w.state.places.toNat then w
  else w.onState (·.setPlaces (selectable places))

/-- A gesture at the window. The escape key is heard before the display, the
other gestures act after it; the enter key is heard by the input field alone,
so `pressEnter` is for when the field has the focus or has just lost it. -/
def gesture (w : Window) : Gesture → Window × Reply
  | .click label => w.display.press fun button => button.1 == label
  | .clickHistoryHeader => w.display.press fun button => button.2 == .toggleHistory
  | .clickEntry index => w.display.press fun button => button.2 == .reload index
  | .clickClearHistory => w.display.press fun button => button.2 == .clearHistory
  | .pressEnter => (w.display.perform .submit, .state)
  | .pressEscape => ((w.perform .clearInput).display, .state)
  | .selectPlaces places => (w.display.selectPlaces places, .state)
  | .look => (w.display, .screen w.display.screen)

/-- One step. -/
def step (w : Window) : Step → Window × Reply
  | .change change => (w.onState (·.change change), .state)
  | .gesture gesture => w.gesture gesture

/-- The window after a run of steps. -/
def run (w : Window) (steps : List Step) : Window :=
  steps.foldl (fun w s => (w.step s).1) w

/-! ## Small laws -/

@[simp]
theorem run_nil (w : Window) : w.run [] = w := rfl

@[simp]
theorem run_cons (w : Window) (s : Step) (steps : List Step) :
    w.run (s :: steps) = (w.step s).1.run steps := rfl

/-- Two runs in a row are one run. -/
theorem run_append (w : Window) (first second : List Step) :
    w.run (first ++ second) = (w.run first).run second :=
  List.foldl_append

/-- A change leaves the panels as they are. -/
theorem step_change (w : Window) (c : Change) :
    (w.step (.change c)).1 = { w with state := w.state.change c } := rfl

/-- What is on the screen does not depend on the request for the focus. -/
theorem screen_display (w : Window) : w.display.screen = w.screen := rfl

end Window

end QuadraticSolver.Application

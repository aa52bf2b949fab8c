import QuadraticSolver.Evaluation
import QuadraticSolver.Text.Blank

/-!
# The state of the application

What the application remembers between two actions: the input field, the last
result, the last error, the derivation shown, a bounded history with the
newest entry first, the number of places, and whether the input field is to
get the keyboard focus. Every operation is a function of the state; submitting
the input is the only one that evaluates an equation.
-/

namespace QuadraticSolver.Application

/-- An equation that was submitted, and what came of it. -/
structure Entry where
  equation : String
  result : String
  succeeded : Bool
  deriving DecidableEq

/-- The state of the application. -/
structure State where
  input : String
  /-- The message of the last success. -/
  result : String
  error : String
  derivation : Derivation
  /-- The newest entry is the first. -/
  history : List Entry
  places : Places
  /-- The input field is to get the focus when the window is next displayed. -/
  focus : Bool
  deriving DecidableEq

/-- The number of places at the start. -/
def defaultPlaces : Places := ⟨10, by decide⟩

/-- The greatest number of places: past it a number has no digits to show. -/
def maxPlaces : Nat := 15

/-- The greatest number of entries in the history. -/
def historyLimit : Nat := 50

/-- The error shown when there is nothing to submit. -/
def blankInputError : String :=
  "Entrée vide : saisissez une équation, ex. 2x+3=7"

namespace State

/-- The state at the start. -/
def initial : State where
  input := ""
  result := ""
  error := ""
  derivation := .empty
  history := []
  places := defaultPlaces
  focus := true

/-! ## The input field -/

/-- The field gets a new content. -/
def enter (s : State) (text : String) : State :=
  { s with input := text }

/-- The field is emptied. -/
def clearInput (s : State) : State :=
  { s with input := "", focus := true }

/-- The text goes to the end of the field. -/
def insert (s : State) (text : String) : State :=
  { s with input := s.input ++ text, focus := true }

/-- The content without its last symbol: spaces at the end go first, then `x2`
as one symbol or else one character. -/
def withoutLastSymbol (content : List Char) : List Char :=
  match content.reverse.dropWhile (· == ' ') with
  | '2' :: 'x' :: rest => rest.reverse
  | _ :: rest => rest.reverse
  | [] => []

/-- The last symbol of the field is deleted. -/
def delete (s : State) : State :=
  { s with input := String.ofList (withoutLastSymbol s.input.toList), focus := true }

/-! ## Results -/

/-- Result, error and derivation are emptied. -/
def clearResults (s : State) : State :=
  { s with result := "", error := "", derivation := .empty, focus := true }

/-- Everything but the history is as at the start. -/
def reset (s : State) : State :=
  { initial with history := s.history }

/-- An error is shown. The last result stays, but no derivation belongs to it any more. -/
def showError (s : State) (message : String) : State :=
  { s with error := message, derivation := .empty, focus := true }

/-- A result is shown with its derivation. -/
def showResult (s : State) (message : String) (derivation : Derivation) : State :=
  { s with result := message, error := "", derivation := derivation, focus := true }

/-- The number of places is set, as far as it goes. -/
def setPlaces (s : State) (places : Nat) : State :=
  { s with
    places := ⟨min places maxPlaces, Nat.le_trans (Nat.min_le_right _ _) (by decide)⟩
    focus := true }

/-! ## The history -/

/-- An entry goes to the front; past the limit the oldest one leaves. -/
def record (s : State) (entry : Entry) : State :=
  { s with history := (entry :: s.history).take historyLimit }

/-- The history is emptied. -/
def clearHistory (s : State) : State :=
  { s with history := [], focus := true }

/-- The equation of an entry goes back to the field, if there is such an entry. -/
def reload (s : State) (index : Nat) : State :=
  match s.history[index]? with
  | some entry => { s with input := entry.equation, focus := true }
  | none => s

/-! ## Submitting -/

/-- Evaluates the input without the blanks at its ends, and keeps an entry of
what came of it. A blank input is an error that leaves no entry. -/
def submit (s : State) : State :=
  let equation := String.ofList (Text.trim s.input.toList)
  if equation = "" then s.showError blankInputError
  else
    match evaluate equation s.places with
    | .ok answer =>
      (s.record ⟨equation, answer.message, true⟩).showResult answer.message answer.derivation
    | .error e => (s.record ⟨equation, e.message, false⟩).showError e.message

/-! ## Small laws -/

/-- The history after an entry is recorded: the newest ones, up to the limit. -/
theorem history_record (s : State) (entry : Entry) :
    (s.record entry).history = (entry :: s.history).take historyLimit := rfl

/-- Recording keeps the history within its limit, whatever it was before. -/
theorem length_history_record_le (s : State) (entry : Entry) :
    (s.record entry).history.length ≤ historyLimit := by
  rw [history_record, List.length_take]
  exact Nat.min_le_left _ _

/-- The number of places that is set is one that the selector has. -/
theorem places_setPlaces_le (s : State) (places : Nat) :
    (s.setPlaces places).places.toNat ≤ maxPlaces :=
  Nat.min_le_right _ _

/-- A blank input is refused without an entry. -/
theorem submit_blank {s : State} (h : Text.trim s.input.toList = []) :
    s.submit = s.showError blankInputError := by
  simp [submit, h]

end State

end QuadraticSolver.Application

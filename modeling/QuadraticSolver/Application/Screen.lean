import QuadraticSolver.Application.State

/-!
# What is on the screen

The window shows the state in two panels that can be folded, the derivation
and the history. `Window.screen` lists what is visible, in display order; a
button carries the action that it stands for, so what can be clicked and what
a click does are read off the same list.
-/

namespace QuadraticSolver.Application

/-- What a button does. -/
inductive Action where
  | clearInput
  | clearResults
  | reset
  | insert (text : String)
  | submit
  | delete
  | toggleDerivation
  | toggleHistory
  | reload (index : Nat)
  | clearHistory
  deriving DecidableEq

/-- A visible item. -/
inductive Item where
  | text (content : String)
  | button (label : String) (action : Action)
  /-- The input field with its content. -/
  | field (content : String)
  /-- The selector of the number of places. -/
  | selector (content : String)
  deriving DecidableEq

/-- The window: the state, and which panels are open. -/
structure Window where
  state : State
  derivationOpen : Bool
  historyOpen : Bool
  deriving DecidableEq

namespace Window

/-- The window at the start. -/
def initial : Window where
  state := .initial
  derivationOpen := true
  historyOpen := false

/-- The key that inserts its own label. -/
def key (label : String) : Item :=
  .button label (.insert label)

/-- The field, and everything that edits or submits it. -/
def inputItems (s : State) : List Item :=
  [.text "Équation :", .field s.input,
    .button "C" .clearInput, .button "CLR" .clearResults, .button "AC" .reset,
    .text "Décimales :", .selector (s.places.toNat.repr ++ " chiffres"),
    key "x", .button "x²" (.insert "x2"), key "+", key "-", key "=",
    .button "Résoudre" .submit,
    key "7", key "8", key "9", .button "DEL" .delete,
    key "4", key "5", key "6", key ".",
    key "1", key "2", key "3", key "0"]

/-- The error, if there is one, and the result. -/
def resultItems (s : State) : List Item :=
  (if s.error = "" then [] else [.text s.error]) ++ [.text "Résultat :", .text s.result]

/-- The panel of the derivation. -/
def derivationItems (w : Window) : List Item :=
  let d := w.state.derivation
  .button "Démarche" .toggleDerivation ::
    if w.derivationOpen then
      [.text "Variable :", .text d.unknown, .text "Gauche :", .text d.left,
        .text "Droite (signes inversés) :", .text d.right,
        .text "Coefficients :", .text d.coefficients,
        .text "Branche :", .text d.branch, .text "Note :", .text d.note]
    else []

/-- The entries of the history from position `index` on. -/
def entryItems (index : Nat) : List Entry → List Item
  | [] => []
  | entry :: rest =>
    .button entry.equation (.reload index) :: .text entry.result :: entryItems (index + 1) rest

/-- The panel of the history. -/
def historyItems (w : Window) : List Item :=
  let history := w.state.history
  .button ("Historique (" ++ history.length.repr ++ ")") .toggleHistory ::
    if w.historyOpen then
      if history.isEmpty then [.text "Aucune équation pour l’instant."]
      else entryItems 0 history ++ [.button "Vider l’historique" .clearHistory]
    else []

/-- Everything visible, in display order. -/
def screen (w : Window) : List Item :=
  .text "Résolveur d’équations" :: inputItems w.state ++ resultItems w.state ++
    w.derivationItems ++ w.historyItems

/-- The buttons on the screen with their actions, in display order. -/
def buttons (w : Window) : List (String × Action) :=
  w.screen.filterMap fun
    | .button label action => some (label, action)
    | _ => none

end Window

end QuadraticSolver.Application

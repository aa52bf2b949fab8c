import QuadraticSolver.Application.Window

/-!
# The buttons on the screen

The buttons above the history are always the same ones (`fixedButtons`). Below
them stands the header of the history, and under it, where the panel is open and
there is an entry to show, one button for each entry and the one that empties the
history (`buttons_eq`).

So a button that submits or that clears something is known by its label, except
that an entry of the history may have any label at all: a click on
`Vider l’historique` can reach an entry with this text first.
-/

namespace QuadraticSolver.Application

namespace Window

/-- The buttons above the history, in display order. -/
def fixedButtons : List (String × Action) :=
  [("C", .clearInput), ("CLR", .clearResults), ("AC", .reset),
    ("x", .insert "x"), ("x²", .insert "x2"), ("+", .insert "+"), ("-", .insert "-"),
    ("=", .insert "="), ("Résoudre", .submit),
    ("7", .insert "7"), ("8", .insert "8"), ("9", .insert "9"), ("DEL", .delete),
    ("4", .insert "4"), ("5", .insert "5"), ("6", .insert "6"), (".", .insert "."),
    ("1", .insert "1"), ("2", .insert "2"), ("3", .insert "3"), ("0", .insert "0"),
    ("Démarche", .toggleDerivation)]

/-- The label of the history's header. -/
def historyHeader (count : Nat) : String :=
  "Historique (" ++ count.repr ++ ")"

/-- The buttons of the entries from position `index` on. -/
def entryButtons (index : Nat) (history : List Entry) : List (String × Action) :=
  (history.zipIdx index).map fun e => (e.1.equation, .reload e.2)

/-- The label of the button that empties the history. -/
def clearLabel : String := "Vider l’historique"

/-- The entries are on the screen, and so is the button that empties the history. -/
def listsHistory (w : Window) : Prop :=
  w.historyOpen = true ∧ w.state.history ≠ []

instance (w : Window) : Decidable w.listsHistory :=
  inferInstanceAs (Decidable (_ ∧ _))

/-- The buttons of the history's panel, in display order. -/
def historyButtons (w : Window) : List (String × Action) :=
  (historyHeader w.state.history.length, .toggleHistory) ::
    if w.listsHistory then entryButtons 0 w.state.history ++ [(clearLabel, .clearHistory)] else []

variable {w : Window} {label : String}

/-- The button of an item, if it is one. -/
def button? : Item → Option (String × Action)
  | .button label action => some (label, action)
  | _ => none

theorem buttons_eq_filterMap (w : Window) : w.buttons = w.screen.filterMap button? := by
  unfold buttons
  congr 1

theorem filterMap_entryItems (index : Nat) (history : List Entry) :
    (entryItems index history).filterMap button? = entryButtons index history := by
  induction history generalizing index with
  | nil => rfl
  | cons entry rest ih =>
    show (entry.equation, .reload index) :: (entryItems (index + 1) rest).filterMap button? = _
    rw [ih]
    rfl

theorem filterMap_resultItems (s : State) : (resultItems s).filterMap button? = [] := by
  unfold resultItems
  split <;> rfl

theorem filterMap_derivationItems (w : Window) :
    w.derivationItems.filterMap button? = [("Démarche", .toggleDerivation)] := by
  unfold derivationItems
  dsimp only
  split <;> rfl

theorem filterMap_historyItems (w : Window) :
    w.historyItems.filterMap button? = w.historyButtons := by
  unfold historyItems historyButtons
  by_cases hopen : w.historyOpen = true
  · by_cases hempty : w.state.history = []
    · simp [listsHistory, hopen, hempty, button?, historyHeader]
    · simp [listsHistory, hopen, hempty, button?, historyHeader, clearLabel, filterMap_entryItems]
  · simp [listsHistory, hopen, button?, historyHeader]

/-- **The buttons of the window**: the fixed ones, and those of the history. -/
theorem buttons_eq (w : Window) : w.buttons = fixedButtons ++ w.historyButtons := by
  rw [buttons_eq_filterMap]
  unfold screen
  rw [List.filterMap_append, List.filterMap_append, List.filterMap_append,
    filterMap_resultItems, filterMap_derivationItems, filterMap_historyItems]
  rfl

theorem mem_buttons_iff {action : Action} :
    (label, action) ∈ w.buttons ↔ .button label action ∈ w.screen := by
  rw [buttons_eq_filterMap, List.mem_filterMap]
  constructor
  · rintro ⟨item, hitem, hbutton⟩
    cases item with
    | button label' action' =>
      obtain ⟨rfl, rfl⟩ : label' = label ∧ action' = action := by simpa [button?] using hbutton
      exact hitem
    | text content => cases hbutton
    | field content => cases hbutton
    | selector content => cases hbutton
  · intro hitem
    exact ⟨_, hitem, rfl⟩

/-- What is on the screen does not depend on the request for the focus. -/
@[simp]
theorem buttons_display (w : Window) : w.display.buttons = w.buttons := by
  rw [buttons_eq_filterMap, screen_display, ← buttons_eq_filterMap]

end Window

/-- The label of the button that does this. An insertion, the history's header and an entry
have none that is theirs alone. -/
def Action.label? : Action → Option String
  | .clearInput => some "C"
  | .clearResults => some "CLR"
  | .reset => some "AC"
  | .submit => some "Résoudre"
  | .delete => some "DEL"
  | .toggleDerivation => some "Démarche"
  | .clearHistory => some Window.clearLabel
  | .insert _ => none
  | .toggleHistory => none
  | .reload _ => none

namespace Window

variable {w : Window} {b : String × Action} {label : String}

theorem mem_entryButtons {index : Nat} {history : List Entry}
    (h : b ∈ entryButtons index history) :
    ∃ entry ∈ history, ∃ i, b = (entry.equation, .reload i) := by
  obtain ⟨⟨entry, i⟩, hmem, rfl⟩ := List.mem_map.mp h
  exact ⟨entry, List.fst_mem_of_mem_zipIdx hmem, i, rfl⟩

theorem exists_mem_entryButtons (index : Nat) {entry : Entry} {history : List Entry}
    (h : entry ∈ history) : ∃ i, (entry.equation, .reload i) ∈ entryButtons index history := by
  obtain ⟨i, hi, rfl⟩ := List.getElem_of_mem h
  refine ⟨index + i, List.mem_map.mpr ⟨(history[i], index + i), ?_, rfl⟩⟩
  exact List.mk_add_mem_zipIdx_iff_getElem?.mpr (List.getElem?_eq_getElem hi)

/-- The buttons of the panel: its header, and where it lists the history the entries and the
button that empties it. -/
theorem mem_historyButtons (h : b ∈ w.historyButtons) :
    b = (historyHeader w.state.history.length, .toggleHistory) ∨
      w.listsHistory ∧ ((∃ entry ∈ w.state.history, ∃ i, b = (entry.equation, .reload i)) ∨
        b = (clearLabel, .clearHistory)) := by
  unfold historyButtons at h
  rcases List.mem_cons.mp h with rfl | h
  · exact .inl rfl
  · split at h
    next hlists =>
      rcases List.mem_append.mp h with h | h
      · exact .inr ⟨hlists, .inl (mem_entryButtons h)⟩
      · exact .inr ⟨hlists, .inr (List.mem_singleton.mp h)⟩
    next => cases h

/-- A button that does what only one button does has its label. -/
theorem label_of_mem (hb : b ∈ w.buttons) (hlabel : b.2.label? = some label) : b.1 = label := by
  rw [buttons_eq, List.mem_append] at hb
  rcases hb with hb | hb
  · have hfixed : ∀ b ∈ fixedButtons, b.2.label?.all (b.1 == ·) := by decide
    have hlabels := hfixed b hb
    rw [hlabel] at hlabels
    simpa using hlabels
  · rcases mem_historyButtons hb with rfl | ⟨-, ⟨entry, -, i, rfl⟩ | rfl⟩
    · cases hlabel
    · cases hlabel
    · exact Option.some.inj hlabel

/-- A thing that only one button does can be done where this button is on the screen. -/
theorem mem_actions_iff {action : Action} (hlabel : action.label? = some label) :
    action ∈ w.buttons.map Prod.snd ↔ (label, action) ∈ w.buttons := by
  rw [List.mem_map]
  constructor
  · rintro ⟨⟨label', action'⟩, hmem, rfl⟩
    obtain rfl : label' = label := label_of_mem hmem hlabel
    exact hmem
  · intro hmem
    exact ⟨_, hmem, rfl⟩

/-- The button that empties the history is on the screen where the history is listed. -/
theorem mem_clearHistory_iff : (clearLabel, .clearHistory) ∈ w.buttons ↔ w.listsHistory := by
  rw [buttons_eq, List.mem_append]
  constructor
  · rintro (h | h)
    · exact absurd h (by decide)
    · rcases mem_historyButtons h with h | ⟨hlists, -⟩
      · cases (Prod.mk.inj h).2
      · exact hlists
  · intro hlists
    refine .inr ?_
    unfold historyButtons
    rw [if_pos hlists]
    simp

theorem reload_notMem_fixedButtons {index : Nat} : (label, .reload index) ∉ fixedButtons := by
  simp [fixedButtons]

/-- An entry is on the screen where the panel is open, at its position in the history. -/
theorem mem_reload_iff {index : Nat} : (label, .reload index) ∈ w.buttons ↔
    w.historyOpen = true ∧
      ∃ entry, w.state.history[index]? = some entry ∧ entry.equation = label := by
  rw [buttons_eq, List.mem_append, or_iff_right reload_notMem_fixedButtons]
  unfold historyButtons entryButtons
  constructor
  · intro h
    rcases List.mem_cons.mp h with h | h
    · cases (Prod.mk.inj h).2
    · split at h
      next hlists =>
        refine ⟨hlists.1, ?_⟩
        rcases List.mem_append.mp h with h | h
        · obtain ⟨⟨entry, i⟩, hmem, hbutton⟩ := List.mem_map.mp h
          obtain ⟨rfl, hindex⟩ := Prod.mk.inj hbutton
          cases hindex
          exact ⟨entry, List.mem_zipIdx_iff_getElem?.mp hmem, rfl⟩
        · cases (Prod.mk.inj (List.mem_singleton.mp h)).2
      next => cases h
  · rintro ⟨hopen, entry, hentry, rfl⟩
    have hlists : w.listsHistory := ⟨hopen, List.ne_nil_of_mem (List.mem_of_getElem? hentry)⟩
    rw [if_pos hlists]
    refine List.mem_cons_of_mem _ (List.mem_append_left _ (List.mem_map.mpr ?_))
    exact ⟨(entry, index), List.mem_zipIdx_iff_getElem?.mpr hentry, rfl⟩

/-! ## What a click reaches -/

/-- The button that is found is pressed, in the window as displayed. -/
theorem press_of_find? {wanted : String × Action → Bool} (h : w.buttons.find? wanted = some b) :
    w.display.press wanted = (w.display.perform b.2, .state) := by
  unfold press
  rw [buttons_display, h]

/-- A label of a fixed button reaches this button, whatever the history holds. -/
theorem find?_of_fixed (h : fixedButtons.find? (fun b => b.1 == label) = some b) :
    w.buttons.find? (fun b => b.1 == label) = some b := by
  rw [buttons_eq, List.find?_append, h]
  rfl

theorem historyHeader_ne_clearLabel (count : Nat) : historyHeader count ≠ clearLabel := by
  intro h
  have hfirst := congrArg (fun s => s.toList.head?) h
  simp [historyHeader, clearLabel] at hfirst

/-- The label of the button that empties the history reaches the first entry with the same text,
and this button where there is none. -/
theorem find?_clearLabel (hlists : w.listsHistory) :
    w.buttons.find? (fun b => b.1 == clearLabel) =
      ((entryButtons 0 w.state.history).find? fun b => b.1 == clearLabel).or
        (some (clearLabel, .clearHistory)) := by
  have hfixed : fixedButtons.find? (fun b => b.1 == clearLabel) = none := by decide
  have hheader : (historyHeader w.state.history.length == clearLabel) = false :=
    beq_false_of_ne (historyHeader_ne_clearLabel _)
  rw [buttons_eq, List.find?_append, hfixed, Option.none_or]
  unfold historyButtons
  rw [if_pos hlists, List.find?_cons, hheader, List.find?_append]
  simp

/-- A click on the label reaches the button that empties the history where the button is on the
screen and no entry has its text. -/
theorem find?_eq_clearHistory_iff :
    w.buttons.find? (fun b => b.1 == label) = some (label, .clearHistory) ↔
      label = clearLabel ∧ w.listsHistory ∧
        ∀ entry ∈ w.state.history, entry.equation ≠ clearLabel := by
  constructor
  · intro h
    have hmem := List.mem_of_find?_eq_some h
    obtain rfl : label = clearLabel := label_of_mem hmem rfl
    have hlists := mem_clearHistory_iff.mp hmem
    refine ⟨rfl, hlists, fun entry hentry hequation => ?_⟩
    obtain ⟨i, hbutton⟩ := exists_mem_entryButtons 0 hentry
    obtain ⟨b, hb⟩ : ∃ b, (entryButtons 0 w.state.history).find? (fun b => b.1 == clearLabel) =
        some b :=
      Option.isSome_iff_exists.mp (List.find?_isSome.mpr ⟨_, hbutton, by simpa using hequation⟩)
    rw [find?_clearLabel hlists, hb, Option.some_or] at h
    -- the entry's button comes first, and it does another thing
    obtain ⟨_, -, j, rfl⟩ := mem_entryButtons (List.mem_of_find?_eq_some hb)
    cases (Prod.mk.inj (Option.some.inj h)).2
  · rintro ⟨rfl, hlists, hentries⟩
    have hnone : (entryButtons 0 w.state.history).find? (fun b => b.1 == clearLabel) = none := by
      rw [List.find?_eq_none]
      intro b hb
      obtain ⟨entry, hentry, i, rfl⟩ := mem_entryButtons hb
      simpa using hentries entry hentry
    rw [find?_clearLabel hlists, hnone, Option.none_or]

/-- The first button that does a thing does it. -/
theorem find?_action (w : Window) (action : Action) :
    (w.buttons.find? fun b => b.2 == action).map Prod.snd =
      if action ∈ w.buttons.map Prod.snd then some action else none := by
  cases h : w.buttons.find? fun b => b.2 == action with
  | none =>
    rw [List.find?_eq_none] at h
    rw [if_neg]
    · rfl
    · intro hmem
      obtain ⟨b, hb, rfl⟩ := List.mem_map.mp hmem
      exact h b hb (beq_self_eq_true _)
  | some b =>
    have hb := List.find?_some h
    obtain rfl : b.2 = action := by simpa using hb
    rw [if_pos (List.mem_map_of_mem (List.mem_of_find?_eq_some h))]
    rfl

end Window

end QuadraticSolver.Application

import QuadraticSolver.Proofs.Application.Invariant
import QuadraticSolver.Proofs.Application.Replay

/-!
# The screen and the clicks

A click names a label, and what it does can be read off the screen: it reaches the
first button that has the label, in display order (`IsFirst`), and where there is
none it is answered so (`clicks_law`). This holds in every window, with any history,
so in every one that a run comes to.

An entry of the history may have any text for its equation, also one that is the
label of another button. The keys and both headers stand above the entries, so
their labels are never those of an entry; of the entries with the same equation the
newest stands first; and the button that empties the history stands below, so an
entry with its text takes its place.
-/

namespace QuadraticSolver.Application

/-! ## The first button with a label -/

/-- The first button with the label on a list of items, and what it does. -/
def IsFirst (items : List Item) (label : String) (action : Action) : Prop :=
  ∃ above below, items = above ++ .button label action :: below ∧
    ∀ other, .button label other ∉ above

section First

variable {items : List Item} {item : Item} {label : String} {action : Action}

/-- The first button stands at the top, or it is the first one below another item. -/
theorem isFirst_cons : IsFirst (item :: items) label action ↔
    item = .button label action ∨
      (∀ other, item ≠ .button label other) ∧ IsFirst items label action := by
  constructor
  · rintro ⟨above, below, hitems, habove⟩
    cases above with
    | nil => exact .inl (List.cons.inj hitems).1
    | cons top above =>
      obtain ⟨rfl, rfl⟩ := List.cons.inj hitems
      refine .inr ⟨fun other h => habove other (h ▸ List.mem_cons_self), above, below, rfl, ?_⟩
      exact fun other h => habove other (List.mem_cons_of_mem _ h)
  · rintro (rfl | ⟨hitem, above, below, rfl, habove⟩)
    · exact ⟨[], items, rfl, fun other => List.not_mem_nil⟩
    · refine ⟨item :: above, below, rfl, fun other h => ?_⟩
      rcases List.mem_cons.mp h with h | h
      · exact hitem other h.symm
      · exact habove other h

/-- Looking for a label among the buttons finds the first one on the screen. -/
theorem find?_eq_some_iff_isFirst :
    (items.filterMap Window.button?).find? (fun b => b.1 == label) = some (label, action) ↔
      IsFirst items label action := by
  induction items with
  | nil => simp [IsFirst]
  | cons item items ih =>
    rw [isFirst_cons, ← ih]
    cases item with
    | button label' action' =>
      by_cases h : label' = label
      · subst h
        simp [Window.button?]
      · simp [Window.button?, h]
    | text content => simp [Window.button?]
    | field content => simp [Window.button?]
    | selector content => simp [Window.button?]

variable {w : Window}

theorem find?_buttons_eq_some_iff :
    w.buttons.find? (fun b => b.1 == label) = some (label, action) ↔
      IsFirst w.screen label action := by
  rw [Window.buttons_eq_filterMap, find?_eq_some_iff_isFirst]

theorem find?_buttons_eq_none_iff :
    w.buttons.find? (fun b => b.1 == label) = none ↔
      ∀ action, .button label action ∉ w.screen := by
  rw [List.find?_eq_none]
  constructor
  · intro h action hbutton
    exact h (label, action) (Window.mem_buttons_iff.mpr hbutton) (beq_self_eq_true label)
  · rintro h ⟨label', action⟩ hmem hlabel
    obtain rfl : label' = label := by simpa using hlabel
    exact h action (Window.mem_buttons_iff.mp hmem)

/-- A click does what the first button with its label does. -/
theorem step_click_of_isFirst (h : IsFirst w.screen label action) :
    w.step (.gesture (.click label)) = (w.display.perform action, .state) :=
  Window.press_of_find? (find?_buttons_eq_some_iff.mpr h)

/-- A click finds a button, or there is none. -/
theorem isFirst_or_forall_notMem (w : Window) (label : String) :
    (∃ action, IsFirst w.screen label action) ∨ ∀ action, .button label action ∉ w.screen := by
  cases hfind : w.buttons.find? fun b => b.1 == label with
  | none => exact .inr (find?_buttons_eq_none_iff.mp hfind)
  | some b =>
    obtain ⟨label', action⟩ := b
    obtain rfl : label' = label := by simpa using List.find?_some hfind
    exact .inl ⟨action, find?_buttons_eq_some_iff.mp hfind⟩

/-- Where there is no such button, a click only displays the window. -/
theorem step_click_of_forall_notMem (h : ∀ action, .button label action ∉ w.screen) :
    w.step (.gesture (.click label)) = (w.display, .absent) := by
  show w.gesture (.click label) = _
  apply gesture_of_misses
  refine ⟨fun b => b.1 == label, rfl, fun label' action hbutton => beq_false_of_ne ?_⟩
  rintro rfl
  exact h action hbutton

theorem reply_click_eq_absent_iff : (w.step (.gesture (.click label))).2 = .absent ↔
    ∀ action, .button label action ∉ w.screen := by
  rcases isFirst_or_forall_notMem w label with ⟨action, hfirst⟩ | hnone
  · rw [step_click_of_isFirst hfirst]
    obtain ⟨above, below, hscreen, -⟩ := hfirst
    refine iff_of_false Reply.noConfusion fun hnone => hnone action ?_
    rw [hscreen]
    exact List.mem_append_right _ List.mem_cons_self
  · rw [step_click_of_forall_notMem hnone]
    exact iff_of_true rfl hnone

end First

/-! ## Entries by their labels -/

/-- The newest entry with the equation stands at this position. -/
structure IsNewest (history : List Entry) (equation : String) (index : ℕ) : Prop where
  entry : ∃ entry, history[index]? = some entry ∧ entry.equation = equation
  newest : ∀ j < index, ∀ entry, history[j]? = some entry → entry.equation ≠ equation

section Entries

variable {w : Window} {history : List Entry} {label : String} {i : ℕ}

theorem findIdx?_eq_some_iff_isNewest :
    history.findIdx? (fun entry => entry.equation == label) = some i ↔
      IsNewest history label i := by
  rw [List.findIdx?_eq_some_iff_getElem]
  constructor
  · rintro ⟨hi, hentry, hnewest⟩
    refine ⟨⟨history[i], List.getElem?_eq_getElem hi, by simpa using hentry⟩, ?_⟩
    intro j hj entry hget
    obtain ⟨hlt, rfl⟩ := List.getElem?_eq_some_iff.mp hget
    simpa using hnewest j hj
  · rintro ⟨⟨entry, hget, hentry⟩, hnewest⟩
    obtain ⟨hi, rfl⟩ := List.getElem?_eq_some_iff.mp hget
    refine ⟨hi, by simpa using hentry, fun j hj => ?_⟩
    simpa using hnewest j hj _ (List.getElem?_eq_getElem (hj.trans hi))

/-- Looking for a label among the entries finds the newest one with this equation. -/
theorem find?_entryButtons (index : ℕ) (history : List Entry) (label : String) :
    (Window.entryButtons index history).find? (fun b => b.1 == label) =
      (history.findIdx? fun entry => entry.equation == label).map fun i =>
        (label, .reload (index + i)) := by
  induction history generalizing index with
  | nil => rfl
  | cons entry history ih =>
    show ((entry.equation, Action.reload index) ::
      Window.entryButtons (index + 1) history).find? (fun b => b.1 == label) = _
    rw [List.find?_cons, List.findIdx?_cons]
    by_cases h : entry.equation = label
    · simp [h]
    · rw [beq_false_of_ne h, ih]
      simp [Function.comp_def, Nat.add_assoc, Nat.add_comm 1]

/-- In the panel an entry is reached where the header does not have the label. -/
theorem find?_historyButtons_iff :
    w.historyButtons.find? (fun b => b.1 == label) = some (label, .reload i) ↔
      w.historyOpen = true ∧ label ≠ Window.historyHeader w.state.history.length ∧
        IsNewest w.state.history label i := by
  rw [← findIdx?_eq_some_iff_isNewest, Window.historyButtons]
  by_cases hheader : Window.historyHeader w.state.history.length = label
  · rw [List.find?_cons_of_pos (by simpa using hheader)]
    refine iff_of_false ?_ fun h => h.2.1 hheader.symm
    intro h
    cases (Prod.mk.inj (Option.some.inj h)).2
  rw [List.find?_cons_of_neg (by simpa using hheader)]
  by_cases hlists : w.listsHistory
  · rw [if_pos hlists, List.find?_append, find?_entryButtons]
    cases hindex : w.state.history.findIdx? fun entry => entry.equation == label with
    | some j => simp [hlists.1, Ne.symm hheader]
    | none => simp [List.find?_singleton]
  · rw [if_neg hlists]
    refine iff_of_false (by simp) fun h => hlists ⟨h.1, ?_⟩
    intro hempty
    simp [hempty] at h

/-- A label that no fixed button has is looked for in the panel. -/
theorem find?_buttons_of_notMem (h : label ∉ Window.fixedButtons.map Prod.fst) :
    w.buttons.find? (fun b => b.1 == label) =
      w.historyButtons.find? (fun b => b.1 == label) := by
  have hfixed : Window.fixedButtons.find? (fun b => b.1 == label) = none := by
    rw [List.find?_eq_none]
    intro b hb hlabel
    obtain rfl : b.1 = label := by simpa using hlabel
    exact h (List.mem_map_of_mem hb)
  rw [Window.buttons_eq, List.find?_append, hfixed, Option.none_or]

/-- A fixed button is reached by its label, and no entry. -/
theorem not_isFirst_reload_of_mem (h : label ∈ Window.fixedButtons.map Prod.fst) :
    ¬ IsFirst w.screen label (.reload i) := by
  intro hfirst
  obtain ⟨b, hb, rfl⟩ := List.mem_map.mp h
  obtain ⟨found, hfound⟩ : ∃ found, Window.fixedButtons.find? (fun c => c.1 == b.1) = some found :=
    Option.isSome_iff_exists.mp (List.find?_isSome.mpr ⟨b, hb, beq_self_eq_true _⟩)
  rw [← find?_buttons_eq_some_iff, Window.find?_of_fixed hfound] at hfirst
  have hmem := List.mem_of_find?_eq_some hfound
  rw [Option.some.inj hfirst] at hmem
  exact Window.reload_notMem_fixedButtons hmem

/-- **An entry is reached by its equation** where the panel is open, the equation is not the label
of a button above the entries, and no newer entry has it. -/
theorem isFirst_reload_iff : IsFirst w.screen label (.reload i) ↔
    w.historyOpen = true ∧ label ∉ Window.fixedButtons.map Prod.fst ∧
      label ≠ Window.historyHeader w.state.history.length ∧
      IsNewest w.state.history label i := by
  by_cases hfixed : label ∈ Window.fixedButtons.map Prod.fst
  · exact iff_of_false (not_isFirst_reload_of_mem hfixed) fun h => h.2.1 hfixed
  · rw [← find?_buttons_eq_some_iff, find?_buttons_of_notMem hfixed, find?_historyButtons_iff]
    constructor
    · rintro ⟨hopen, hheader, hnewest⟩
      exact ⟨hopen, hfixed, hheader, hnewest⟩
    · rintro ⟨hopen, -, hheader, hnewest⟩
      exact ⟨hopen, hheader, hnewest⟩

/-- A click that reaches an entry puts its equation, which is the label, into the field, and nothing
else changes but the request for the focus. -/
theorem step_click_reload (h : IsFirst w.screen label (.reload i)) :
    (w.step (.gesture (.click label))).1 =
      { w with state := { w.state with input := label, focus := true } } := by
  obtain ⟨-, -, -, hnewest⟩ := isFirst_reload_iff.mp h
  obtain ⟨entry, hentry, rfl⟩ := hnewest.entry
  exact step_recall (.label (find?_buttons_eq_some_iff.mpr h)) hentry

/-- The open panel has a line for each entry, at its position. -/
theorem getElem?_listedPairs (w : Window) (i : ℕ) :
    (listedPairs w.screen)[i]? =
      if w.historyOpen then
        w.state.history[i]?.map fun entry => (entry.equation, entry.result)
      else none := by
  rw [listedPairs_screen, listedPairs_historyItems]
  split
  · rw [List.getElem?_map]
  · rfl

/-- A line of the panel has its entry behind it, and the panel is open. -/
theorem exists_of_listedPairs {line : String × String}
    (h : (listedPairs w.screen)[i]? = some line) :
    w.historyOpen = true ∧ ∃ entry, w.state.history[i]? = some entry ∧
      entry.equation = line.1 := by
  rw [getElem?_listedPairs] at h
  split at h
  next hopen =>
    obtain ⟨entry, hentry, rfl⟩ := Option.map_eq_some_iff.mp h
    exact ⟨hopen, entry, hentry, rfl⟩
  next => cases h

/-- A click on a line of the panel puts the equation on it into the field. -/
theorem step_clickEntry_of_listed {line : String × String}
    (h : (listedPairs w.screen)[i]? = some line) :
    w.step (.gesture (.clickEntry i)) =
      ({ w with state := { w.state with input := line.1, focus := true } }, .state) := by
  obtain ⟨hopen, entry, hentry, hequation⟩ := exists_of_listedPairs h
  have hstate := step_recall (.entry hopen) hentry
  rw [hequation] at hstate
  have hreply : (w.step (.gesture (.clickEntry i))).2 = .state := by
    have hmem := Window.mem_reload_iff.mpr ⟨hopen, entry, hentry, rfl⟩
    obtain ⟨b, hfind⟩ : ∃ b, w.buttons.find? (fun b => b.2 == .reload i) = some b :=
      Option.isSome_iff_exists.mp (List.find?_isSome.mpr ⟨_, hmem, beq_self_eq_true _⟩)
    exact congrArg Prod.snd (Window.press_of_find? hfind)
  exact Prod.ext hstate hreply

/-- Where the panel has no such line, the click only displays the window. -/
theorem step_clickEntry_of_not_listed (h : (listedPairs w.screen)[i]? = none) :
    w.step (.gesture (.clickEntry i)) = (w.display, .absent) := by
  show w.gesture (.clickEntry i) = _
  apply gesture_of_misses
  refine ⟨_, rfl, fun label action hbutton => beq_false_of_ne ?_⟩
  rintro rfl
  obtain ⟨hopen, entry, hentry, -⟩ := Window.mem_reload_iff.mp (Window.mem_buttons_iff.mpr hbutton)
  rw [getElem?_listedPairs, if_pos hopen, hentry] at h
  cases h

/-- The lines of the panel are those of the entries, while it is open. -/
theorem exists_listedPairs_iff : (∃ line, (listedPairs w.screen)[i]? = some line) ↔
    w.historyOpen = true ∧ i < w.state.history.length := by
  constructor
  · rintro ⟨line, hline⟩
    obtain ⟨hopen, entry, hentry, -⟩ := exists_of_listedPairs hline
    exact ⟨hopen, (List.getElem?_eq_some_iff.mp hentry).1⟩
  · rintro ⟨hopen, hi⟩
    rw [getElem?_listedPairs, if_pos hopen, List.getElem?_eq_getElem hi]
    exact ⟨_, rfl⟩

/-- A click on an entry is answered where the panel is open and the history has this entry. -/
theorem reply_clickEntry_eq_state_iff : (w.step (.gesture (.clickEntry i))).2 = .state ↔
    w.historyOpen = true ∧ i < w.state.history.length := by
  rw [← exists_listedPairs_iff]
  cases h : (listedPairs w.screen)[i]? with
  | some line =>
    rw [step_clickEntry_of_listed h]
    exact iff_of_true rfl ⟨line, rfl⟩
  | none =>
    rw [step_clickEntry_of_not_listed h]
    refine iff_of_false Reply.noConfusion ?_
    rintro ⟨line, hline⟩
    cases hline

end Entries

/-- **Clicks and screen agree**, in every window. A click on a label is answered as absent where the
screen has no button with the label, and then only displays the window; else it does what the first
such button does. The label of an entry reaches the newest entry with this equation, where the panel
is open and no fixed button and not the header has the label, and then the label comes into the
field. A click on a line of the history is answered where the panel is open and has the line, and
the equation on the line comes into the field. The button that empties the history is on the screen
where the panel is open and the history is not empty. -/
theorem clicks_law (w : Window) :
    (w.step (.gesture .look)).2 = .screen w.screen ∧
    (∀ label, ((w.step (.gesture (.click label))).2 = .absent ↔
      ∀ action, .button label action ∉ w.screen)) ∧
    (∀ label, (∀ action, .button label action ∉ w.screen) →
      w.step (.gesture (.click label)) = (w.display, .absent)) ∧
    (∀ label, (∃ action, .button label action ∈ w.screen) →
      ∃ action, IsFirst w.screen label action) ∧
    (∀ label action, IsFirst w.screen label action →
      w.step (.gesture (.click label)) = (w.display.perform action, .state)) ∧
    (∀ label i, IsFirst w.screen label (.reload i) ↔
      w.historyOpen = true ∧ label ∉ Window.fixedButtons.map Prod.fst ∧
        label ≠ "Historique (" ++ w.state.history.length.repr ++ ")" ∧
        IsNewest w.state.history label i) ∧
    (∀ label i, IsFirst w.screen label (.reload i) →
      (w.step (.gesture (.click label))).1 =
        { w with state := { w.state with input := label, focus := true } }) ∧
    (∀ i, (w.step (.gesture (.clickEntry i))).2 = .state ↔
      w.historyOpen = true ∧ i < w.state.history.length) ∧
    (∀ i, w.historyOpen = true ∧ i < w.state.history.length →
      ∃ equation result, (listedPairs w.screen)[i]? = some (equation, result) ∧
        (w.step (.gesture (.clickEntry i))).1 =
          { w with state := { w.state with input := equation, focus := true } }) ∧
    (.button "Vider l’historique" .clearHistory ∈ w.screen ↔
      w.historyOpen = true ∧ w.state.history ≠ []) := by
  refine ⟨rfl, fun label => reply_click_eq_absent_iff,
    fun label => step_click_of_forall_notMem, ?_, fun label action => step_click_of_isFirst,
    fun label i => isFirst_reload_iff, fun label i => step_click_reload,
    fun i => reply_clickEntry_eq_state_iff, ?_, ?_⟩
  · rintro label ⟨action, hbutton⟩
    rcases isFirst_or_forall_notMem w label with hfirst | hnone
    · exact hfirst
    · exact absurd hbutton (hnone action)
  · intro i hi
    obtain ⟨⟨equation, result⟩, hline⟩ := exists_listedPairs_iff.mpr hi
    exact ⟨equation, result, hline, congrArg Prod.fst (step_clickEntry_of_listed hline)⟩
  · rw [← Window.mem_buttons_iff]
    exact Window.mem_clearHistory_iff

/-- With an entry of its text above it, the button that empties the history is on the screen and out
of reach. -/
theorem clicks_law_hidden_button :
    let w := Window.initial.run [.change (.record ⟨"Vider l’historique", "x = 2", true⟩),
      .gesture .clickHistoryHeader]
    .button "Vider l’historique" .clearHistory ∈ w.screen ∧
      (w.step (.gesture (.click "Vider l’historique"))).1 =
        { w with state := { w.state with input := "Vider l’historique", focus := true } } := by
  intro w
  obtain ⟨-, -, -, -, -, hentry, hreload, -, -, hclear⟩ := clicks_law w
  have hopen : w.historyOpen = true := by decide +kernel
  have hnewest : IsNewest w.state.history "Vider l’historique" 0 :=
    ⟨⟨⟨"Vider l’historique", "x = 2", true⟩, by decide +kernel, rfl⟩,
      fun j hj => absurd hj (Nat.not_lt_zero j)⟩
  have hfirst : IsFirst w.screen "Vider l’historique" (.reload 0) :=
    (hentry _ 0).mpr ⟨hopen, by decide, by decide +kernel, hnewest⟩
  exact ⟨hclear.mpr ⟨hopen, by decide +kernel⟩, hreload _ 0 hfirst⟩

end QuadraticSolver.Application

import QuadraticSolver.Proofs.Application.Events

/-!
# The history as a bounded log

A run writes a log without a bound: the entries of its events, the newest first,
back to where the history was last emptied (`kept`). The history is the front of
this log, as far as its limit goes (`history_law`), and the panel shows nothing
else: its header counts these entries, and where it is open it lists them in this
order. An entry that has left at the limit is never needed again, since nothing
but the emptying takes an entry off the front.
-/

namespace QuadraticSolver.Application

/-- The entries since the history was last emptied, the newest first. -/
def kept (past : List Event) : List Entry :=
  (past.takeWhile (· ≠ .forgotten)).filterMap Event.entry?

section Kept

variable {past : List Event} {e : Event} {entry : Entry}

theorem kept_forgotten : kept (.forgotten :: past) = [] :=
  rfl

theorem kept_of_entry (h : e.entry? = some entry) : kept (e :: past) = entry :: kept past := by
  have hne : e ≠ .forgotten := by
    rintro rfl
    cases h
  unfold kept
  rw [List.takeWhile_cons_of_pos (by simpa using hne), List.filterMap_cons_some h]

theorem kept_of_none (h : e.entry? = none) (hne : e ≠ .forgotten) :
    kept (e :: past) = kept past := by
  unfold kept
  rw [List.takeWhile_cons_of_pos (by simpa using hne), List.filterMap_cons_none h]

/-- What is past the limit does not come back with a new entry. -/
theorem take_cons_take {α : Type} (n : Nat) (a : α) (l : List α) :
    (a :: l.take n).take n = (a :: l).take n := by
  cases n with
  | zero => rfl
  | succ n =>
    rw [List.take_succ_cons, List.take_succ_cons, List.take_take, Nat.min_eq_left n.le_succ]

/-- One event more: the bounded history follows the log. -/
theorem keep_take (past : List Event) (e : Event) :
    e.keep ((kept past).take historyLimit) = (kept (e :: past)).take historyLimit := by
  unfold Event.keep
  by_cases hforgotten : e = .forgotten
  · subst hforgotten
    rw [if_pos rfl, kept_forgotten, List.take_nil]
  · rw [if_neg hforgotten]
    cases hentry : e.entry? with
    | none => rw [kept_of_none hentry hforgotten]
    | some entry =>
      rw [kept_of_entry hentry]
      exact take_cons_take historyLimit entry (kept past)

/-- After every run the history is the front of the log. -/
theorem history_run (steps : List Step) :
    (Window.initial.run steps).state.history =
      (kept (Window.initial.past steps)).take historyLimit := by
  refine Window.run_induction (fun _ => True)
    (fun w past => w.state.history = (kept past).take historyLimit) rfl
    (fun w past s _ hhistory => ?_) (fun _ _ => trivial)
  rw [history_step]
  cases w.event? s with
  | none => exact hhistory
  | some e =>
    show e.keep w.state.history = _
    rw [hhistory]
    exact keep_take past e

end Kept

/-! ## The panel -/

/-- The equations on the screen that a click brings back, each with the text beside it. -/
def listedPairs : List Item → List (String × String)
  | .button equation (.reload _) :: .text result :: rest => (equation, result) :: listedPairs rest
  | _ :: rest => listedPairs rest
  | [] => []

/-- The item is the equation of an entry. -/
def Item.isEntry : Item → Bool
  | .button _ (.reload _) => true
  | _ => false

theorem listedPairs_cons {item : Item} {rest : List Item} (h : item.isEntry = false) :
    listedPairs (item :: rest) = listedPairs rest := by
  cases item with
  | button label action => cases action <;> first | rfl | cases h
  | text content => rfl
  | field content => rfl
  | selector content => rfl

theorem listedPairs_append {items rest : List Item} (h : items.all (fun item => !item.isEntry)) :
    listedPairs (items ++ rest) = listedPairs rest := by
  induction items with
  | nil => rfl
  | cons item items ih =>
    rw [List.all_cons, Bool.and_eq_true] at h
    rw [List.cons_append, listedPairs_cons (by simpa using h.1)]
    exact ih h.2

theorem listedPairs_entryItems (index : Nat) (history : List Entry) (rest : List Item) :
    listedPairs (Window.entryItems index history ++ rest) =
      history.map (fun entry => (entry.equation, entry.result)) ++ listedPairs rest := by
  induction history generalizing index with
  | nil => rfl
  | cons entry history ih =>
    show (entry.equation, entry.result) :: listedPairs (Window.entryItems _ history ++ rest) = _
    rw [ih]
    rfl

section Panel

variable (w : Window)

theorem listedPairs_historyItems :
    listedPairs w.historyItems =
      if w.historyOpen then w.state.history.map fun entry => (entry.equation, entry.result)
      else [] := by
  unfold Window.historyItems
  dsimp only
  rw [listedPairs_cons rfl]
  by_cases hopen : w.historyOpen = true
  · rw [if_pos hopen, if_pos hopen]
    cases hhistory : w.state.history with
    | nil => rfl
    | cons entry rest =>
      rw [if_neg (by simp), listedPairs_entryItems]
      simp [listedPairs]
  · rw [if_neg hopen, if_neg hopen]
    rfl

/-- Above the panel there is no entry. -/
theorem listedPairs_screen : listedPairs w.screen = listedPairs w.historyItems := by
  have hinput : (Window.inputItems w.state).all (fun item => !item.isEntry) := rfl
  have hresult : (Window.resultItems w.state).all (fun item => !item.isEntry) := by
    unfold Window.resultItems
    split <;> rfl
  have hderivation : w.derivationItems.all (fun item => !item.isEntry) := by
    unfold Window.derivationItems
    dsimp only
    split <;> rfl
  unfold Window.screen
  rw [listedPairs_append]
  rw [List.all_append, List.all_append, List.all_cons, hinput, hresult, hderivation]
  rfl

/-- There is one header, and it has the number of the entries. -/
theorem filter_toggleHistory :
    (w.buttons.filter fun b => b.2 == .toggleHistory) =
      [("Historique (" ++ w.state.history.length.repr ++ ")", .toggleHistory)] := by
  have hfixed : Window.fixedButtons.filter (fun b => b.2 == .toggleHistory) = [] := by decide
  rw [Window.buttons_eq, List.filter_append, hfixed]
  unfold Window.historyButtons
  rw [List.nil_append, List.filter_cons_of_pos (by rfl), List.filter_eq_nil_iff.mpr]
  · rfl
  · intro b hb
    split at hb
    next =>
      rcases List.mem_append.mp hb with hb | hb
      · obtain ⟨entry, -, i, rfl⟩ := Window.mem_entryButtons hb
        simp
      · rw [List.mem_singleton.mp hb]
        decide
    next => cases hb

end Panel

/-- **The history is the front of an unbounded log.** After every run it holds the fifty newest of
the entries that the events have left since it was last emptied, the newest first. A submission of
blanks leaves it alone, and any other submission puts the entry of the equation in front that is
left of the input without the blanks at its ends. No other step changes it but one that adds an
entry or empties it. The panel's header has their number, and the open panel lists them in this
order. -/
theorem history_law (steps : List Step) :
    let w := Window.initial.run steps
    let recent := (kept (Window.initial.past steps)).take 50
    w.state.history = recent ∧
    (∀ s, (∀ e, w.event? s = some e → e.entry? = none ∧ e ≠ .forgotten) →
      (w.step s).1.state.history = recent) ∧
    (∀ s ∈ submitting, (∀ c ∈ w.state.input.toList, Text.isBlank c = true) →
      (w.step s).1.state.history = recent) ∧
    (∀ s ∈ submitting, (∃ c ∈ w.state.input.toList, Text.isBlank c = false) →
      ∃ equation : String, equation ≠ "" ∧ Text.IsCore equation.toList w.state.input.toList ∧
        ((∃ answer, evaluate equation w.state.places = .ok answer ∧
            (w.step s).1.state.history = (⟨equation, answer.message, true⟩ :: recent).take 50) ∨
          ∃ reason, evaluate equation w.state.places = .error reason ∧
            (w.step s).1.state.history = (⟨equation, reason.message, false⟩ :: recent).take 50)) ∧
    (w.buttons.filter fun b => b.2 == .toggleHistory) =
      [("Historique (" ++ recent.length.repr ++ ")", .toggleHistory)] ∧
    listedPairs w.screen =
      if w.historyOpen then recent.map fun entry => (entry.equation, entry.result) else [] := by
  intro w recent
  have hhistory : w.state.history = recent := history_run steps
  refine ⟨hhistory, fun s hs => ?_, fun s hs hblank => ?_, fun s hs hinput => ?_, ?_, ?_⟩
  · rw [history_step]
    cases hevent : w.event? s with
    | none => exact hhistory
    | some e =>
      obtain ⟨hentry, hne⟩ := hs e hevent
      show e.keep w.state.history = recent
      unfold Event.keep
      rw [if_neg hne, hentry]
      exact hhistory
  · rw [history_submit_blank hs hblank, hhistory]
  · obtain ⟨c, hc, hcblank⟩ := hinput
    obtain ⟨e, -, hsubmits⟩ := submits_of_mem_submitting (w := w) hs
    cases hsubmits with
    | blank hblank =>
      rw [hblank c hc] at hcblank
      cases hcblank
    | solved hne hcore hanswer =>
      refine ⟨_, hne, hcore, .inl ⟨_, hanswer, ?_⟩⟩
      rw [history_submit hs hne hcore, hhistory, Entry.ofSubmission_of_ok hanswer]
      rfl
    | refused hne hcore hreason =>
      refine ⟨_, hne, hcore, .inr ⟨_, hreason, ?_⟩⟩
      rw [history_submit hs hne hcore, hhistory, Entry.ofSubmission_of_error hreason]
      rfl
  · rw [filter_toggleHistory, hhistory]
  · rw [listedPairs_screen, listedPairs_historyItems, hhistory]

/-- An entry is added and blanks are entered; then everything else is reset, or the blanks are
submitted. -/
theorem history_law_reset :
    let entry : Entry := ⟨"x=2", "x = 2", true⟩
    let w := Window.initial.run
      [.change (.record entry), .change (.enter (String.ofList ['\t', ' ']))]
    (w.step (.gesture (.click "AC"))).1.state.history = [entry] ∧
      (w.step (.gesture .pressEnter)).1.state.history = [entry] := by
  intro entry w
  have hkeep : ∀ e, w.event? (.gesture (.click "AC")) = some e →
      e.entry? = none ∧ e ≠ .forgotten := by
    intro e he
    obtain rfl : .cleared = e := Option.some.inj he
    exact ⟨rfl, by decide⟩
  have hinput : w.state.input.toList = ['\t', ' '] := String.toList_ofList
  have hblanks : ∀ c ∈ w.state.input.toList, Text.isBlank c = true := by
    rw [hinput]
    simp [Text.isBlank]
  obtain ⟨-, hquiet, hblank, -⟩ :=
    history_law [.change (.record entry), .change (.enter (String.ofList ['\t', ' ']))]
  exact ⟨hquiet _ hkeep, hblank (.gesture .pressEnter) (by decide) hblanks⟩

end QuadraticSolver.Application

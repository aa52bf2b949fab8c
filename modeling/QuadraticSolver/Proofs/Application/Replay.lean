import QuadraticSolver.Proofs.Application.History
import QuadraticSolver.Proofs.Evaluation

/-!
# Submitting an entry of the history again

An entry is what one submission left: its equation is the input of that moment without the blanks
at its ends, and the rest follows from the equation and from the number of places that was set
(`Entry.ofSubmission`). So an entry can be submitted again. Brought back to the field, its equation
loses no further blank, and the evaluation that follows fails or succeeds as the first one did,
with the same text if it fails, and with the same text if the number of places is the same.

For the last part a run tells of each entry how many places were set when it was left
(`Window.datedPast`, `datedEntries`). The state does not remember that.
-/

namespace QuadraticSolver.Application

/-! ## When an entry was left -/

/-- The events of a run, the newest first, each with the number of places at that moment. -/
def Window.datedPast (w : Window) : List Step → List (Places × Event)
  | [] => []
  | s :: rest =>
    (w.step s).1.datedPast rest ++ ((w.event? s).map (Prod.mk w.state.places)).toList

/-- The entries since the history was last emptied, the newest first, each with the number of
places at the moment when it was left. -/
def datedEntries (past : List (Places × Event)) : List (Places × Entry) :=
  (past.takeWhile (·.2 ≠ .forgotten)).filterMap fun (places, e) => e.entry?.map (Prod.mk places)

section Dates

variable {w : Window} {steps : List Step}

theorem map_snd_datedPast (w : Window) (steps : List Step) :
    (w.datedPast steps).map Prod.snd = w.past steps := by
  induction steps generalizing w with
  | nil => rfl
  | cons s rest ih =>
    rw [Window.datedPast, Window.past, List.map_append, ih]
    cases w.event? s <;> rfl

theorem map_snd_datedEntries (past : List (Places × Event)) :
    (datedEntries past).map Prod.snd = kept (past.map Prod.snd) := by
  unfold datedEntries kept
  rw [List.takeWhile_map, List.filterMap_map, List.map_filterMap]
  congr 1
  funext ⟨places, e⟩
  cases h : e.entry? <;> simp [h]

/-- The history has its entries from the dated ones. -/
theorem exists_datedEntries {i : Nat} {entry : Entry}
    (h : (Window.initial.run steps).state.history[i]? = some entry) :
    ∃ places, (datedEntries (Window.initial.datedPast steps))[i]? = some (places, entry) := by
  rw [history_run, ← map_snd_datedPast, ← map_snd_datedEntries, List.getElem?_take] at h
  split at h
  next =>
    rw [List.getElem?_map, Option.map_eq_some_iff] at h
    obtain ⟨⟨places, _⟩, hdated, rfl⟩ := h
    exact ⟨places, hdated⟩
  next => cases h

/-- A dated event is the event of a step, and the date is the number of places before it. -/
theorem exists_of_mem_datedPast {d : Places × Event} (h : d ∈ w.datedPast steps) :
    ∃ before s after, steps = before ++ s :: after ∧ (w.run before).event? s = some d.2 ∧
      (w.run before).state.places = d.1 := by
  induction steps generalizing w with
  | nil => cases h
  | cons s rest ih =>
    rw [Window.datedPast, List.mem_append] at h
    rcases h with h | h
    · obtain ⟨before, s', after, rfl, hevent, hplaces⟩ := ih h
      exact ⟨s :: before, s', after, rfl, hevent, hplaces⟩
    · obtain ⟨e, hevent, rfl⟩ := Option.map_eq_some_iff.mp (Option.mem_toList.mp h)
      exact ⟨[], s, rest, rfl, hevent, rfl⟩

/-- In a run that adds no entry from outside, each entry is that of a submission with the number of
places of its date. -/
theorem exists_of_mem_datedEntries (h : ∀ entry, .change (.record entry) ∉ steps)
    {d : Places × Entry} (hd : d ∈ datedEntries (w.datedPast steps)) :
    ∃ (equation : String) (input : List Char), equation ≠ "" ∧
      Text.IsCore equation.toList input ∧ d.2 = Entry.ofSubmission equation d.1 := by
  obtain ⟨dated, hdated, hleft⟩ := List.mem_filterMap.mp hd
  obtain ⟨entry, hentry, rfl⟩ := Option.map_eq_some_iff.mp hleft
  obtain ⟨before, s, after, hsteps, hevent, hplaces⟩ :=
    exists_of_mem_datedPast (List.takeWhile_subset _ hdated)
  have hs : ∀ entry, s ≠ .change (.record entry) := by
    rintro entry rfl
    exact h entry (by simp [hsteps])
  obtain ⟨equation, hne, hcore, rfl⟩ :=
    (submits_of_entry_eq_some hevent hentry hs).exists_of_entry_eq_some hentry
  exact ⟨equation, _, hne, hcore, by rw [hplaces]⟩

end Dates

/-! ## Bringing an entry back -/

/-- The step brings the entry at this position back to the field: by a change of the state, by a
click on the entry in the open panel, or by a click on a label that reaches the entry. -/
inductive Window.Recalls (w : Window) (index : Nat) : Step → Prop
  | change : Recalls w index (.change (.reload index))
  | entry (hopen : w.historyOpen = true) : Recalls w index (.gesture (.clickEntry index))
  | label {label : String}
      (hfind : w.buttons.find? (fun b => b.1 == label) = some (label, .reload index)) :
      Recalls w index (.gesture (.click label))

section Recall

variable {w : Window} {index : Nat} {entry : Entry} {s : Step}

theorem reload_eq {t : State} (h : t.history[index]? = some entry) :
    t.reload index = { t with input := entry.equation, focus := true } := by
  unfold State.reload
  rw [h]

/-- Only the input and the request for the focus change. -/
theorem step_recall (h : w.Recalls index s) (hentry : w.state.history[index]? = some entry) :
    (w.step s).1 = w.onState fun t => { t with input := entry.equation, focus := true } := by
  have hpress : ∀ wanted b, w.buttons.find? wanted = some b → b.2 = .reload index →
      (w.display.press wanted).1 =
        w.onState fun t => { t with input := entry.equation, focus := true } := by
    intro wanted b hfind hb
    rw [Window.press_of_find? hfind, hb]
    exact congrArg (fun t => { w with state := t }) (reload_eq (t := w.display.state) hentry)
  cases h with
  | change =>
    rw [Window.step_change]
    exact congrArg (fun t => { w with state := t }) (reload_eq hentry)
  | label hfind => exact hpress _ _ hfind rfl
  | entry hopen =>
    have hmem := List.mem_map_of_mem (f := Prod.snd) (Window.mem_reload_iff.mpr
      ⟨hopen, entry, hentry, rfl⟩)
    have hfind := Window.find?_action w (.reload index)
    rw [if_pos hmem, Option.map_eq_some_iff] at hfind
    obtain ⟨b, hfind, hb⟩ := hfind
    exact hpress _ _ hfind hb

/-- An entry that is brought back and submitted leaves the entry of its equation. -/
theorem history_recall {back submit : Step} (hback : w.Recalls index back)
    (hsubmit : submit ∈ submitting) (hentry : w.state.history[index]? = some entry)
    (hne : entry.equation ≠ "") (hcore : Text.IsCore entry.equation.toList entry.equation.toList) :
    (w.run [back, submit]).state.history =
      (Entry.ofSubmission entry.equation w.state.places :: w.state.history).take historyLimit := by
  rw [Window.run_cons, Window.run_cons, Window.run_nil, step_recall hback hentry]
  exact history_submit hsubmit hne hcore

end Recall

/-- The equation `3x=1` is entered between blanks and submitted for four places, and the panel is
opened. -/
def submitThird : List Step :=
  [.change (.enter (String.ofList [' ', '3', 'x', '=', '1', ' '])), .change (.setPlaces 4),
    .gesture (.click "Résoudre"), .gesture .clickHistoryHeader]

/-- An entry is a success where its equation can be evaluated, with any number of places. -/
def SucceedsInAnyPlaces : Prop :=
  ∀ (steps : List Step) (i : Nat) (entry : Entry), (∀ e, .change (.record e) ∉ steps) →
    (Window.initial.run steps).state.history[i]? = some entry → ∀ places : ℕ,
      entry.succeeded = true ↔ ∃ answer, evaluate? entry.equation places = .ok (some answer)

end QuadraticSolver.Application

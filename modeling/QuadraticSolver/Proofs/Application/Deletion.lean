import Mathlib.Data.List.Induction
import Mathlib.Logic.Function.Iterate
import QuadraticSolver.Proofs.Application.Buttons

/-!
# Deleting what was inserted

The last symbol of the field is found in the text alone: nothing remembers how the
text came there. So whether `DEL` takes back what a button has inserted is a matter
of how the inserted text lies behind the old one. No button inserts a space, and
every one inserts a symbol of its own, `x2` among them, but for one case: a `2`
behind an `x` joins it, and the two go together. With this case apart, the symbols
lie on the field like a stack: as many deletions as insertions leave the field as it
was (`display_undo`).

What `DEL` leaves is always a part of the text from its front, and a shorter one, if
there is any text. So it empties the field in time.
-/

namespace QuadraticSolver.Application

/-! ## The last symbol -/

namespace State

variable {content : List Char} {c : Char}

/-- The last symbol of a text that ends with a given character. -/
theorem withoutLastSymbol_concat (content : List Char) (c : Char) :
    withoutLastSymbol (content ++ [c]) =
      if c = ' ' then withoutLastSymbol content
      else if c = '2' ∧ content.getLast? = some 'x' then content.dropLast
      else content := by
  unfold withoutLastSymbol
  rw [List.reverse_concat]
  by_cases hspace : c = ' '
  · simp [hspace]
  · rw [if_neg hspace, List.dropWhile_cons_of_neg (by simpa using hspace)]
    split
    next rest heq =>
      obtain ⟨rfl, hrest⟩ := List.cons.inj heq
      obtain rfl : content = rest.reverse ++ ['x'] := by
        rw [← List.reverse_reverse content, hrest, List.reverse_cons]
      simp
    next hnot heq =>
      obtain ⟨rfl, rfl⟩ := List.cons.inj heq
      rw [if_neg]
      · exact List.reverse_reverse content
      · rintro ⟨rfl, hlast⟩
        obtain ⟨front, rfl⟩ := List.getLast?_eq_some_iff.mp hlast
        exact hnot front.reverse rfl List.reverse_concat
    next heq => cases heq

/-- A symbol of one character is taken off alone, unless it is a `2` that joins an `x`. -/
theorem withoutLastSymbol_append_singleton (hspace : c ≠ ' ')
    (hjoin : c = '2' → content.getLast? ≠ some 'x') :
    withoutLastSymbol (content ++ [c]) = content := by
  rw [withoutLastSymbol_concat, if_neg hspace, if_neg]
  rintro ⟨htwo, hlast⟩
  exact hjoin htwo hlast

/-- An `x` and a `2` behind it are one symbol. -/
theorem withoutLastSymbol_append_square (content : List Char) :
    withoutLastSymbol (content ++ ['x', '2']) = content := by
  have htext : content ++ ['x', '2'] = content ++ ['x'] ++ ['2'] := by simp
  rw [htext, withoutLastSymbol_concat, if_neg (by decide), if_pos ⟨rfl, by simp⟩]
  exact List.dropLast_concat

/-- What is left is the front of the text. -/
theorem isPrefix_withoutLastSymbol (content : List Char) :
    withoutLastSymbol content <+: content := by
  induction content using List.reverseRecOn with
  | nil => exact List.prefix_rfl
  | append_singleton content c ih =>
    have hfront : content <+: content ++ [c] := List.prefix_append _ _
    rw [withoutLastSymbol_concat]
    split
    · exact ih.trans hfront
    · split
      · exact (List.dropLast_prefix content).trans hfront
      · exact hfront

/-- And less than the text. -/
theorem length_withoutLastSymbol_lt (hne : content ≠ []) :
    (withoutLastSymbol content).length < content.length := by
  induction content using List.reverseRecOn with
  | nil => exact absurd rfl hne
  | append_singleton content c ih =>
    rw [withoutLastSymbol_concat, List.length_append, List.length_singleton]
    split
    · exact Nat.lt_succ_of_le (isPrefix_withoutLastSymbol content).length_le
    · split
      · exact Nat.lt_succ_of_le (List.dropLast_prefix content).length_le
      · exact Nat.lt_succ_self _

/-- As many deletions as there are characters leave nothing. -/
theorem iterate_withoutLastSymbol {n : ℕ} (h : content.length ≤ n) :
    withoutLastSymbol^[n] content = [] := by
  induction n generalizing content with
  | zero => exact List.length_eq_zero_iff.mp (Nat.le_zero.mp h)
  | succ n ih =>
    rw [Function.iterate_succ_apply]
    apply ih
    by_cases hempty : content = []
    · rw [hempty]
      exact Nat.zero_le n
    · have hlt := length_withoutLastSymbol_lt hempty
      omega

end State

/-! ## Clicks -/

/-- Clicks on these labels, one after the other. -/
def clicks (labels : List String) : List Step :=
  labels.map fun label => .gesture (.click label)

/-- The insertion buttons: their labels, and what each one inserts. -/
def insertions : List (String × String) :=
  [("x", "x"), ("x²", "x2"), ("+", "+"), ("-", "-"), ("=", "="),
    ("7", "7"), ("8", "8"), ("9", "9"), ("4", "4"), ("5", "5"), ("6", "6"), (".", "."),
    ("1", "1"), ("2", "2"), ("3", "3"), ("0", "0")]

section Clicks

variable {w u : Window} {label text : String} {labels : List String}

/-- These are all the buttons on the screen that insert anything. -/
theorem mem_insertions_iff (w : Window) :
    (label, text) ∈ insertions ↔ .button label (.insert text) ∈ w.screen := by
  have hfixed : (label, text) ∈ insertions ↔ (label, .insert text) ∈ Window.fixedButtons := by
    simp [insertions, Window.fixedButtons]
  rw [← Window.mem_buttons_iff, Window.buttons_eq, List.mem_append, hfixed, or_iff_left]
  intro h
  rcases Window.mem_historyButtons h with h | ⟨-, ⟨_, -, _, h⟩ | h⟩ <;>
    cases (Prod.mk.inj h).2

/-- A click on an insertion button inserts, whatever the history holds. -/
theorem step_insertion (h : (label, text) ∈ insertions) :
    (w.step (.gesture (.click label))).1 = w.display.onState (·.insert text) := by
  have hfind : ∀ p ∈ insertions,
      Window.fixedButtons.find? (fun b => b.1 == p.1) = some (p.1, .insert p.2) := by decide
  exact congrArg Prod.fst (Window.press_of_find? (Window.find?_of_fixed (hfind _ h)))

theorem step_delete : (w.step (.gesture (.click "DEL"))).1 = w.display.onState State.delete := by
  have hfind : Window.fixedButtons.find? (fun b => b.1 == "DEL") = some ("DEL", .delete) := by
    decide
  exact congrArg Prod.fst (Window.press_of_find? (Window.find?_of_fixed hfind))

/-- What follows from clicks does not depend on the request for the focus. -/
theorem display_run_clicks_congr (h : w.display = u.display) :
    (w.run (clicks labels)).display = (u.run (clicks labels)).display := by
  induction labels generalizing w u with
  | nil => exact h
  | cons label labels ih =>
    have hstep : w.step (.gesture (.click label)) = u.step (.gesture (.click label)) := by
      show w.display.press _ = u.display.press _
      rw [h]
    show ((w.step _).1.run (clicks labels)).display = ((u.step _).1.run (clicks labels)).display
    rw [hstep]

/-- The field after some deletions. -/
theorem input_run_delete (w : Window) (n : ℕ) :
    (w.run (clicks (List.replicate n "DEL"))).state.input.toList =
      State.withoutLastSymbol^[n] w.state.input.toList := by
  induction n generalizing w with
  | zero => rfl
  | succ n ih =>
    show ((w.step _).1.run (clicks (List.replicate n "DEL"))).state.input.toList = _
    rw [ih, step_delete, Function.iterate_succ_apply]
    exact congrArg _ String.toList_ofList

/-- An inserted text is a symbol of its own, where no `2` joins an `x`. -/
theorem withoutLastSymbol_insertion {content : List Char} (h : (label, text) ∈ insertions)
    (hjoin : label = "2" → content.getLast? ≠ some 'x') :
    State.withoutLastSymbol (content ++ text.toList) = content := by
  have hsymbol : ∀ p ∈ insertions, p.2.toList = ['x', '2'] ∨ ∃ c, p.2.toList = [c] ∧
      c ≠ ' ' ∧ (c = '2' → p.1 = "2") := by
    simp [insertions]
  rcases hsymbol _ h with htext | ⟨c, htext, hspace, htwo⟩
  · rw [htext]
    exact State.withoutLastSymbol_append_square content
  · rw [htext]
    exact State.withoutLastSymbol_append_singleton hspace fun hc => hjoin (htwo hc)

/-- **One deletion undoes one insertion**, up to the request for the focus. -/
theorem display_run_insertion (h : label ∈ insertions.map Prod.fst)
    (hjoin : label = "2" → w.state.input.toList.getLast? ≠ some 'x') :
    (w.run (clicks [label, "DEL"])).display = w.display := by
  obtain ⟨⟨_, text⟩, hmem, rfl⟩ := List.mem_map.mp h
  have hinput : String.ofList (State.withoutLastSymbol (w.state.input ++ text).toList) =
      w.state.input := by
    rw [String.toList_append, withoutLastSymbol_insertion hmem hjoin, String.ofList_toList]
  show ((w.step _).1.step _).1.display = _
  rw [step_delete, step_insertion hmem]
  show ({ w with state := { w.state with
    input := String.ofList (State.withoutLastSymbol (w.state.input ++ text).toList),
    focus := false } } : Window) = _
  rw [hinput]
  rfl

/-- **Deletions undo insertions**, the last one first. -/
theorem display_undo (hlabels : ∀ label ∈ labels, label ∈ insertions.map Prod.fst)
    (hjoin : ∀ before after, labels = before ++ "2" :: after →
      (w.run (clicks before)).state.input.toList.getLast? ≠ some 'x') :
    (w.run (clicks (labels ++ List.replicate labels.length "DEL"))).display = w.display := by
  induction labels using List.reverseRecOn with
  | nil => rfl
  | append_singleton labels label ih =>
    have hbefore : ∀ before after, labels = before ++ "2" :: after →
        (w.run (clicks before)).state.input.toList.getLast? ≠ some 'x' := by
      rintro before after rfl
      exact hjoin before (after ++ [label]) (by simp)
    have hlast : label = "2" → (w.run (clicks labels)).state.input.toList.getLast? ≠ some 'x' := by
      rintro rfl
      exact hjoin labels [] rfl
    have hpair := display_run_insertion (hlabels label (by simp)) hlast
    -- the first deletion meets the last insertion
    have hsplit : clicks (labels ++ [label] ++ List.replicate (labels ++ [label]).length "DEL") =
        clicks labels ++ clicks [label, "DEL"] ++ clicks (List.replicate labels.length "DEL") := by
      simp [clicks, List.replicate_succ]
    rw [hsplit, Window.run_append, Window.run_append, display_run_clicks_congr hpair,
      ← Window.run_append]
    have hundo := ih (fun l hl => hlabels l (List.mem_append_left _ hl)) hbefore
    simpa [clicks] using hundo

end Clicks

/-- **`DEL` undoes the insertion buttons.** These are the buttons on the screen that insert
something. Whatever stands in the field, after any number of clicks on them of which none inserts a
`2` behind an `x`, as many clicks on `DEL` leave everything as it was but for the request for the
focus, and so the field. Where a `2` is inserted behind an `x`, one `DEL` takes off both. In any
case a `DEL` leaves the front of the field, which is less than the whole field unless it was empty,
and after as many clicks as there are characters nothing is left. -/
theorem deletion_law (w : Window) :
    (∀ label text, (label, text) ∈ insertions ↔ .button label (.insert text) ∈ w.screen) ∧
    (∀ labels : List String, (∀ label ∈ labels, label ∈ insertions.map Prod.fst) →
      (∀ before after, labels = before ++ "2" :: after →
        (w.run (clicks before)).state.input.toList.getLast? ≠ some 'x') →
      let undone := w.run (clicks (labels ++ List.replicate labels.length "DEL"))
      undone.state.input = w.state.input ∧ undone.display = w.display) ∧
    (∀ before, w.state.input.toList = before ++ ['x'] →
      (w.run (clicks ["2", "DEL"])).state.input.toList = before) ∧
    ((w.run (clicks ["DEL"])).state.input.toList <+: w.state.input.toList ∧
      (w.state.input ≠ "" →
        (w.run (clicks ["DEL"])).state.input.length < w.state.input.length)) ∧
    ∀ n, w.state.input.length ≤ n →
      (w.run (clicks (List.replicate n "DEL"))).state.input = "" := by
  have hdelete : (w.run (clicks ["DEL"])).state.input.toList =
      State.withoutLastSymbol w.state.input.toList := input_run_delete w 1
  refine ⟨fun label text => mem_insertions_iff w, fun labels hlabels hjoin => ?_,
    fun before hbefore => ?_, ⟨?_, fun hne => ?_⟩, fun n hn => ?_⟩
  · intro undone
    have hundo : undone.display = w.display := display_undo hlabels hjoin
    have hinput : undone.display.state.input = w.display.state.input := by rw [hundo]
    exact ⟨hinput, hundo⟩
  · have htwo : ("2", "2") ∈ insertions := by decide
    show ((w.step _).1.step _).1.state.input.toList = before
    rw [step_delete, step_insertion htwo]
    show (String.ofList (State.withoutLastSymbol (w.state.input ++ "2").toList)).toList = before
    rw [String.toList_ofList, String.toList_append, hbefore]
    exact (congrArg _ (by simp)).trans (State.withoutLastSymbol_append_square before)
  · rw [hdelete]
    exact State.isPrefix_withoutLastSymbol _
  · rw [← String.length_toList, ← String.length_toList, hdelete]
    apply State.length_withoutLastSymbol_lt
    rwa [Ne, String.toList_eq_nil_iff]
  · rw [← String.toList_eq_nil_iff, input_run_delete]
    apply State.iterate_withoutLastSymbol
    rwa [String.length_toList]

/-- Behind spaces, `3x2-2` is inserted by four buttons, and four deletions take it back. -/
theorem deletion_law_square :
    let w := Window.initial.onState (·.enter "y =  ")
    (w.run (clicks ["3", "x²", "-", "2", "DEL", "DEL", "DEL", "DEL"])).state.input = "y =  " := by
  intro w
  have hjoin : ∀ before after, ["3", "x²", "-", "2"] = before ++ "2" :: after →
      (w.run (clicks before)).state.input.toList.getLast? ≠ some 'x' := by
    intro before after h
    obtain ⟨rfl, rfl⟩ : before = ["3", "x²", "-"] ∧ after = [] := by
      simpa [List.cons_eq_append_iff] using h
    decide
  exact ((deletion_law w).2.1 ["3", "x²", "-", "2"] (by decide) hjoin).1

end QuadraticSolver.Application

import Mathlib.Data.List.TakeWhile
import QuadraticSolver.Text.Blank

/-!
# Texts with blanks and without

Two relations say what the blanks of a text are worth, and neither mentions how
they are taken out. `Spaced bare s`: `s` is `bare` with blanks put in anywhere.
`IsCore core s`: `core` stands in `s` between blanks and has none at its ends.
Each text has exactly one text without blanks behind it (`spaced_iff`) and
exactly one core (`isCore_iff`), and these are `compact` and `trim`.
-/

namespace QuadraticSolver.Text

/-! ## Blanks anywhere -/

/-- The second text is the first one with blanks put in anywhere. -/
inductive Spaced : List Char → List Char → Prop
  | nil : Spaced [] []
  | keep (c : Char) {bare s : List Char} (h : Spaced bare s) : Spaced (c :: bare) (c :: s)
  | blank {c : Char} (hc : isBlank c = true) {bare s : List Char} (h : Spaced bare s) :
    Spaced bare (c :: s)

section Anywhere

variable {bare s t : List Char} {c : Char}

/-- The blanks that were put in are taken out again, with those that were there before. -/
theorem compact_of_spaced (h : Spaced bare s) : compact s = compact bare := by
  unfold compact
  induction h with
  | nil => rfl
  | keep c _ ih => rw [List.filter_cons, ih, List.filter_cons]
  | blank hc _ ih => rw [List.filter_cons_of_neg (by simp [hc]), ih]

/-- A text is what is left of it with its blanks put in. -/
theorem spaced_compact (s : List Char) : Spaced (compact s) s := by
  unfold compact
  induction s with
  | nil => exact .nil
  | cons c s ih =>
    cases hc : isBlank c with
    | true =>
      rw [List.filter_cons_of_neg (by simp [hc])]
      exact .blank hc ih
    | false =>
      rw [List.filter_cons_of_pos (by simp [hc])]
      exact .keep c ih

theorem compact_eq_self (h : ∀ c ∈ s, isBlank c = false) : compact s = s :=
  List.filter_eq_self.mpr fun c hc => by rw [h c hc]; rfl

/-- **The text without the blanks** is the one that has none and becomes the text when blanks are
put in. -/
theorem spaced_iff (hbare : ∀ c ∈ bare, isBlank c = false) : Spaced bare s ↔ bare = compact s := by
  constructor
  · intro h
    rw [compact_of_spaced h, compact_eq_self hbare]
  · rintro rfl
    exact spaced_compact s

theorem spaced_refl (s : List Char) : Spaced s s := by
  induction s with
  | nil => exact .nil
  | cons c s ih => exact .keep c ih

/-- One blank put in. -/
theorem spaced_insert (hc : isBlank c = true) (s t : List Char) :
    Spaced (s ++ t) (s ++ c :: t) := by
  induction s with
  | nil => exact .blank hc (spaced_refl t)
  | cons d s ih => exact .keep d ih

end Anywhere

/-! ## Blanks at the ends -/

/-- What is left of a text when the blanks at its ends are taken off: blanks alone stand before it
and behind it, and it neither begins nor ends with one. -/
structure IsCore (core s : List Char) : Prop where
  between : ∃ before after, s = before ++ core ++ after ∧
    (∀ c ∈ before, isBlank c = true) ∧ ∀ c ∈ after, isBlank c = true
  first : ∀ c, core.head? = some c → isBlank c = false
  last : ∀ c, core.getLast? = some c → isBlank c = false

section Ends

variable {core s : List Char}

/-- A text that is left has nothing more to be taken off. -/
theorem IsCore.self (h : IsCore core s) : IsCore core core where
  between := ⟨[], [], (List.append_nil core).symm, nofun, nofun⟩
  first := h.first
  last := h.last

/-- Blanks at the front go. -/
theorem dropWhile_isBlank_append {before : List Char} (h : ∀ c ∈ before, isBlank c = true)
    (s : List Char) : (before ++ s).dropWhile isBlank = s.dropWhile isBlank := by
  rw [List.dropWhile_append, List.dropWhile_eq_nil_iff.mpr h]
  rfl

/-- What is taken off stands before and behind what is left. -/
theorem exists_trim_append (s : List Char) :
    ∃ before after, s = before ++ trim s ++ after ∧
      (∀ c ∈ before, isBlank c = true) ∧ ∀ c ∈ after, isBlank c = true := by
  refine ⟨s.takeWhile isBlank, ((s.dropWhile isBlank).reverse.takeWhile isBlank).reverse, ?_,
    fun c hc => List.mem_takeWhile_imp hc,
    fun c hc => List.mem_takeWhile_imp (List.mem_reverse.mp hc)⟩
  unfold trim
  rw [List.append_assoc, ← List.reverse_append, List.takeWhile_append_dropWhile,
    List.reverse_reverse, List.takeWhile_append_dropWhile]

theorem isCore_trim (s : List Char) : IsCore (trim s) s where
  between := exists_trim_append s
  first := fun _ => head?_trim
  last := fun _ => getLast?_trim

/-- A text of blanks has nothing left, and any other text has. -/
theorem trim_eq_nil_iff : trim s = [] ↔ ∀ c ∈ s, isBlank c = true := by
  constructor
  · intro h
    obtain ⟨before, after, hs, hbefore, hafter⟩ := exists_trim_append s
    rw [h, List.append_nil] at hs
    rw [hs]
    exact fun c hc => (List.mem_append.mp hc).elim (hbefore c) (hafter c)
  · intro h
    unfold trim
    rw [List.dropWhile_eq_nil_iff.mpr h]
    rfl

/-- **The text without the blanks at its ends** is the one between them. -/
theorem isCore_iff : IsCore core s ↔ core = trim s := by
  constructor
  · rintro ⟨⟨before, after, rfl, hbefore, hafter⟩, hfirst, hlast⟩
    cases core with
    | nil =>
      rw [trim_eq_nil_iff.mpr]
      rw [List.append_nil]
      exact fun c hc => (List.mem_append.mp hc).elim (hbefore c) (hafter c)
    | cons c rest =>
      have hfront : (before ++ (c :: rest) ++ after).dropWhile isBlank = c :: rest ++ after := by
        rw [List.append_assoc, dropWhile_isBlank_append hbefore]
        exact dropWhile_isBlank fun d hd => hfirst d hd
      have hback : ∀ d, (c :: rest).reverse.head? = some d → isBlank d = false := by
        rw [List.head?_reverse]
        exact hlast
      unfold trim
      rw [hfront, List.reverse_append, dropWhile_isBlank_append (by simpa using hafter),
        dropWhile_isBlank hback, List.reverse_reverse]
  · rintro rfl
    exact isCore_trim s

end Ends

end QuadraticSolver.Text
